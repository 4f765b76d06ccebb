import Xv6.Pipes.Pipe

/-!
# Pipes are first-in first-out

What a section does to the contents of the pipe, and from it the history of every run: the bytes
stored so far are the bytes copied out so far and then the contents.
-/

namespace Xv6.Pipes

open Xv6.Lib

variable {pi : Pipe} {s t : Sys}

/-- The bytes in the pipe, the oldest first. -/
def Pipe.contents (pi : Pipe) : List Byte := Ring.contents pipeSize pi.data pi.nread pi.nwrite

/-- The counters are at most the size of the pipe apart. -/
def Pipe.Ok (pi : Pipe) : Prop := (pi.nwrite - pi.nread).toNat ≤ pipeSize

theorem pipeSize_dvd : pipeSize ∣ 2 ^ 32 := by decide

theorem pipeSize_lt : pipeSize < 2 ^ 32 := by decide

/-! ## One byte -/

theorem put_spec (ch : Byte) (hok : pi.Ok) (hfull : pi.nwrite ≠ pi.nread + BitVec.ofNat 32 pipeSize) :
    (pi.put ch).Ok ∧ (pi.put ch).contents = pi.contents ++ [ch] := by
  have hne : Ring.len pi.nread pi.nwrite ≠ pipeSize := fun h => hfull ((Ring.full_iff pipeSize_lt).2 h)
  have hle : Ring.len pi.nread pi.nwrite ≤ pipeSize := hok
  have hlt : Ring.len pi.nread pi.nwrite < pipeSize := by omega
  constructor
  · show Ring.len pi.nread (pi.nwrite + 1) ≤ pipeSize
    rw [Ring.len_put (by have := pipeSize_lt; omega)]
    exact hlt
  · exact Ring.contents_put pipeSize_dvd pipeSize_lt hlt

theorem take_spec (hok : pi.Ok) (hne : pi.nread ≠ pi.nwrite) :
    ({ pi with nread := pi.nread + 1 } : Pipe).Ok ∧
      pi.contents = pi.data (pi.nread.toNat % pipeSize) ::
        ({ pi with nread := pi.nread + 1 } : Pipe).contents := by
  constructor
  · have hlen := Ring.len_take hne
    have hle : Ring.len pi.nread pi.nwrite ≤ pipeSize := hok
    show Ring.len (pi.nread + 1) pi.nwrite ≤ pipeSize
    omega
  · exact Ring.contents_take pipeSize_dvd hne

/-! ## One section -/

/-- A section of `pipewrite` puts the bytes it stores at the end of the contents. -/
theorem writeLoop_spec (env : Env) (k i : Nat) (hok : pi.Ok) :
    (writeLoop env k i pi).2.1.Ok ∧
      (writeLoop env k i pi).2.1.contents = pi.contents ++ (writeLoop env k i pi).2.2 := by
  induction k generalizing i pi with
  | zero => exact ⟨hok, (List.append_nil _).symm⟩
  | succ k ih =>
      unfold writeLoop
      split
      · exact ⟨hok, (List.append_nil _).symm⟩
      · split
        · exact ⟨hok, (List.append_nil _).symm⟩
        · rename_i hfull
          cases env.copyin i with
          | none => exact ⟨hok, (List.append_nil _).symm⟩
          | some ch =>
              obtain ⟨hok', hput⟩ := put_spec ch hok hfull
              obtain ⟨h₁, h₂⟩ := ih (i + 1) hok'
              refine ⟨h₁, ?_⟩
              rw [h₂, hput, List.append_assoc]
              rfl

/-- A section of `piperead` takes the bytes it copies out from the front of the contents, and each
of them has been copied out. -/
theorem readLoop_spec (env : Env) (k i : Nat) (hok : pi.Ok) :
    (readLoop env k i pi).2.1.Ok ∧
      pi.contents = (readLoop env k i pi).2.2 ++ (readLoop env k i pi).2.1.contents ∧
      ∀ j, j < (readLoop env k i pi).2.2.length → env.copyout (i + j) = true := by
  induction k generalizing i pi with
  | zero => exact ⟨hok, rfl, fun j hj => absurd hj (Nat.not_lt_zero j)⟩
  | succ k ih =>
      unfold readLoop
      split
      · exact ⟨hok, rfl, fun j hj => absurd hj (Nat.not_lt_zero j)⟩
      · rename_i hne
        split
        · exact ⟨hok, rfl, fun j hj => absurd hj (Nat.not_lt_zero j)⟩
        · rename_i hout
          obtain ⟨hok', htake⟩ := take_spec hok hne
          obtain ⟨h₁, h₂, h₃⟩ := ih (i + 1) hok'
          refine ⟨h₁, ?_, ?_⟩
          · rw [htake, h₂]
            rfl
          · intro j hj
            cases j with
            | zero => simpa using hout
            | succ j =>
                have h₄ := h₃ j (by simpa using hj)
                rwa [Nat.add_assoc, Nat.add_comm 1 j] at h₄

/-- From an index other than 0 on, `piperead` returns at least the index. -/
theorem le_readLoop (env : Env) (k : Nat) (pi : Pipe) {i : Nat} (hi : i ≠ 0) : (i : Int) ≤ (readLoop env k i pi).1 := by
  induction k generalizing i pi with
  | zero => exact le_refl _
  | succ k ih =>
      unfold readLoop
      split
      · exact le_refl _
      · split
        · exact le_refl _
        · have h : ((i + 1 : Nat) : Int) ≤ (readLoop env k (i + 1) { pi with nread := pi.nread + 1 }).1 :=
            ih _ (Nat.succ_ne_zero i)
          show (i : Int) ≤ (readLoop env k (i + 1) { pi with nread := pi.nread + 1 }).1
          omega

theorem readLoop_zero {env : Env} {k : Nat} (hk : k ≠ 0) (h : (readLoop env k 0 pi).1 = 0) : pi.nread = pi.nwrite := by
  cases k with
  | zero => exact absurd rfl hk
  | succ k =>
      unfold readLoop at h
      split at h
      · assumption
      · split at h
        · cases h
        · have hle := le_readLoop env k { pi with nread := pi.nread + 1 } Nat.one_ne_zero
          have h : (readLoop env k 1 { pi with nread := pi.nread + 1 }).1 = 0 := h
          omega

/-- One section of `piperead`. -/
theorem piperead_spec (env : Env) (n : Int) (hok : pi.Ok) :
    (piperead env n pi).2.1.Ok ∧
      pi.contents = (piperead env n pi).2.2 ++ (piperead env n pi).2.1.contents ∧
      (∀ j, j < (piperead env n pi).2.2.length → env.copyout j = true) ∧
      ((piperead env n pi).1 = .ret 0 → 0 < n → pi.contents = [] ∧ pi.writeopen = false) := by
  unfold piperead
  split
  · split
    · exact ⟨hok, rfl, fun j hj => absurd hj (Nat.not_lt_zero j), fun h => by cases h⟩
    · exact ⟨hok, rfl, fun j hj => absurd hj (Nat.not_lt_zero j), fun h => by cases h⟩
  · rename_i hgo
    obtain ⟨h₁, h₂, h₃⟩ := readLoop_spec env n.toNat 0 hok
    refine ⟨h₁, h₂, fun j hj => ?_, fun h hn => ?_⟩
    · have h₄ := h₃ j hj
      rwa [Nat.zero_add] at h₄
    · have heq : pi.nread = pi.nwrite := readLoop_zero (by omega) (Ending.ret.inj h)
      refine ⟨Ring.contents_eq_nil.2 heq, ?_⟩
      cases hw : pi.writeopen with
      | false => rfl
      | true => exact absurd ⟨heq, hw⟩ hgo

/-! ## Runs -/

/-- The counters are in range, and what has been stored is what has been copied out and then the
contents. -/
structure Inv (s : Sys) : Prop where
  ok : s.pipe.Ok
  fifo : s.accepted = s.delivered ++ s.pipe.contents

/-- What a section of `piperead` for `n` bytes does to the history. -/
structure Reads (s t : Sys) (n : Int) (env : Env) (e : Ending) : Prop where
  delivered : ∃ chs, t.delivered = s.delivered ++ chs ∧ ∀ j, env.copyout j = false → chs.length ≤ j
  accepted : t.accepted = s.accepted
  zero : e = .ret 0 → 0 < n → s.pipe.contents = [] ∧ s.pipe.writeopen = false

theorem inv_new (data : Nat → Byte) : Inv (Sys.new data) :=
  ⟨by show (0 - 0 : BitVec 32).toNat ≤ pipeSize; decide, by rw [show (Sys.new data).pipe.contents = [] from Ring.contents_eq_nil.2 rfl]; rfl⟩

theorem Inv.write (h : Inv s) (p : Nat) (n : Int) (i : Nat) (env : Env) : Inv (s.write p n i env).2 := by
  obtain ⟨h₁, h₂⟩ := writeLoop_spec env (n.toNat - i) i h.ok
  refine ⟨h₁, ?_⟩
  show s.accepted ++ (pipewrite env n i s.pipe).2.2 = s.delivered ++ (pipewrite env n i s.pipe).2.1.contents
  rw [h.fifo, List.append_assoc]
  exact congrArg _ h₂.symm

theorem Inv.read (h : Inv s) (p : Nat) (n : Int) (env : Env) :
    Inv (s.read p n env).2 ∧ Reads s (s.read p n env).2 n env (s.read p n env).1 := by
  obtain ⟨h₁, h₂, h₃, h₄⟩ := piperead_spec env n h.ok
  refine ⟨⟨h₁, ?_⟩, ⟨_, rfl, fun j hj => ?_⟩, rfl, h₄⟩
  · show s.accepted = s.delivered ++ (piperead env n s.pipe).2.2 ++ (piperead env n s.pipe).2.1.contents
    rw [h.fifo, List.append_assoc, ← h₂]
  · by_contra hlt
    rw [h₃ j (Nat.lt_of_not_le hlt)] at hj
    cases hj

theorem Inv.close (h : Inv s) (writable : Bool) : Inv (s.close writable) := by
  cases writable with
  | false => exact ⟨h.ok, h.fifo⟩
  | true => exact ⟨h.ok, h.fifo⟩

theorem Inv.exec (h : Inv s) {a : Act} {e : Ending} (he : exec s a = some (e, t)) :
    Inv t ∧ ∀ n env, reading s a = some (n, env) → Reads s t n env e := by
  cases a with
  | write p n env =>
      simp only [Pipes.exec, Option.ite_none_right_eq_some, Option.some.injEq] at he
      cases he.2
      exact ⟨h.write p n 0 env, fun _ _ hr => by cases hr⟩
  | read p n env =>
      simp only [Pipes.exec, Option.ite_none_right_eq_some, Option.some.injEq] at he
      cases he.2
      obtain ⟨h₁, h₂⟩ := h.read p n env
      refine ⟨h₁, fun _ _ hr => ?_⟩
      cases hr
      exact h₂
  | wake p env =>
      simp only [Pipes.exec, Option.ite_none_left_eq_some] at he
      obtain ⟨_, he⟩ := he
      cases hc : s.asleep p with
      | none =>
          rw [hc] at he
          cases he
      | some c =>
          rw [hc] at he
          cases c with
          | write n i =>
              cases he
              refine ⟨h.write p n i env, fun _ _ hr => ?_⟩
              simp only [reading, hc] at hr
              cases hr
          | read n =>
              cases he
              obtain ⟨h₁, h₂⟩ := h.read p n env
              refine ⟨h₁, fun _ _ hr => ?_⟩
              simp only [reading, hc] at hr
              cases hr
              exact h₂
  | close writable =>
      simp only [Pipes.exec, Option.ite_none_left_eq_some, Option.some.injEq] at he
      cases he.2
      exact ⟨h.close writable, fun _ _ hr => by cases hr⟩

theorem Inv.step (h : Inv s) {a : Act} (hs : step s a = some (.ok t)) : Inv t := by
  obtain ⟨⟨e, u⟩, he, hu⟩ := Option.map_eq_some_iff.1 hs
  cases hu
  exact (h.exec he).1

/-- In every run: the counters are at most `PIPESIZE` apart modulo 2³²; the bytes copied out are a
prefix of the bytes stored, and the rest is the contents of the buffer. A section of `piperead`
does not go past a byte that `copyout` fails on, and returns 0 for `0 < n` only if the buffer is
empty and the write end closed. -/
theorem pipe_fifo {data : Nat → Byte} (h : Reach Pipes.step (fun _ _ => True) (Sys.new data) s) :
    (s.pipe.nwrite - s.pipe.nread).toNat ≤ pipeSize ∧
      s.accepted = s.delivered ++ s.pipe.contents ∧
      ∀ a n env e t, reading s a = some (n, env) → Pipes.exec s a = some (e, t) →
        t.accepted = s.accepted ∧
        (∃ chs, t.delivered = s.delivered ++ chs ∧ s.pipe.contents = chs ++ t.pipe.contents ∧
          ∀ j, env.copyout j = false → chs.length ≤ j) ∧
        (e = .ret 0 → 0 < n → s.pipe.contents = [] ∧ s.pipe.writeopen = false) := by
  have hinv : Inv s := h.inv (inv_new data) fun _ _ _ hi _ hs => hi.step hs
  refine ⟨hinv.ok, hinv.fifo, fun a n env e t hr he => ?_⟩
  obtain ⟨ht, hreads⟩ := hinv.exec he
  obtain ⟨⟨chs, hchs, hout⟩, hacc, hzero⟩ := hreads n env hr
  refine ⟨hacc, ⟨chs, hchs, ?_, hout⟩, hzero⟩
  have hfifo := ht.fifo
  rw [hacc, hinv.fifo, hchs, List.append_assoc] at hfifo
  exact List.append_cancel_left hfifo

/-- A process writes the bytes 7 and 8. -/
def wroteTwo : Sys := ((Sys.new fun _ => 0).write 0 2 0 ⟨fun _ => false, fun i => some (BitVec.ofNat 8 (7 + i)), fun _ => true⟩).2

theorem pipe_fifo_wroteTwo :
    wroteTwo.pipe.contents = [7, 8] ∧ (wroteTwo.pipe.nwrite - wroteTwo.pipe.nread).toNat ≤ pipeSize ∧
      wroteTwo.accepted = wroteTwo.delivered ++ wroteTwo.pipe.contents := by
  have h : Reach Pipes.step (fun _ _ => True) (Sys.new fun _ => 0) wroteTwo := .step .init trivial (l := .write 0 2 _) rfl
  exact ⟨by decide, (pipe_fifo h).1, (pipe_fifo h).2.1⟩

end Xv6.Pipes
