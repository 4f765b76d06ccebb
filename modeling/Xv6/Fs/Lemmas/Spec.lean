import Xv6.Fs.Lemmas.Data

/-!
# What file-system code returns, how it stops, and what it logs

`Spec D A k m Q s`: `m`, run from `s`, returns in `Q` or stops in one of the ways that a sound image
allows; in both cases it has logged blocks of `A` and at most `k` others. `D` allows the panics of a
directory whose size is not a multiple of the size of an entry.
-/

namespace Xv6.Fs

open Lib

/-- The stops that file-system code has on an image whose blocks have one owner each. -/
def Benign (D : Prop) : Stop → Prop
  | .panic .freeingFree | .panic .outsideTrans | .panic .bmapRange | .panic .unlinkWritei => False
  | .panic .dirlookupRead | .panic .dirlinkRead | .panic .isdiremptyRead => D
  | _ => True

/-- A stop, and what was logged before it. -/
structure Halt (D : Prop) (A : Nat → Prop) (k : Nat) (s : Fs) (e : Stop) (t : Fs) : Prop where
  benign : Benign D e
  logs : Logs A k s t
  full : e = .panic .tooBig → logBlocks ≤ t.logged.length

variable {α β : Type} {D : Prop} {A B : Nat → Prop} {k k₁ k₂ n : Nat} {m : K α} {f : α → K β} {Q Q' : α → Fs → Prop}
  {s t u : Fs}

@[inherit_doc Halt]
def Spec (D : Prop) (A : Nat → Prop) (k : Nat) (m : K α) (Q : α → Fs → Prop) (s : Fs) : Prop :=
  wp m (fun a t => Q a t ∧ Logs A k s t) (Halt D A k s) s

theorem Halt.mono {e : Stop} (h : Halt D A k s e t) (hA : ∀ b, A b → B b) (hk : k ≤ n) : Halt D B n s e t :=
  ⟨h.benign, h.logs.mono hA hk, h.full⟩

theorem Halt.after {e : Stop} (h : Halt D A k₂ t e u) (hl : Logs A k₁ s t) (hk : k₁ + k₂ ≤ k) : Halt D A k s e u :=
  ⟨h.benign, hl.comp h.logs (fun _ hb => hb) (fun _ hb => hb) hk, h.full⟩

namespace Spec

theorem bind {Q : β → Fs → Prop} (h : Spec D A k₁ m Q' s) (hf : ∀ a t, Q' a t → Spec D A k₂ (f a) Q t) (hk : k₁ + k₂ ≤ k) :
    Spec D A k (m >>= f) Q s := by
  rw [Spec, wp_bind]
  refine wp_mono h ?_ fun e t he => he.mono (fun _ hb => hb) (by omega)
  rintro a t ⟨ha, hl⟩
  refine wp_mono (hf a t ha) ?_ fun e u he => he.after hl hk
  rintro b u ⟨hb, hl'⟩
  exact ⟨hb, hl.comp hl' (fun _ hb => hb) (fun _ hb => hb) hk⟩

theorem seq {Q : β → Fs → Prop} (h : Spec D A 0 m Q' s) (hf : ∀ a t, Q' a t → Spec D A k (f a) Q t) :
    Spec D A k (m >>= f) Q s := h.bind hf (Nat.le_of_eq (Nat.zero_add k))

theorem of_pure {a : α} (h : Q a s) : Spec D A k (pure a) Q s := ⟨h, Logs.of_eq rfl⟩

theorem of_get {f : Fs → K α} (h : Spec D A k (f s) Q s) : Spec D A k (get >>= f) Q s := h

theorem of_modify {g : Fs → Fs} {f : PUnit → K α} (hl : (g s).logged = s.logged) (h : Spec D A k (f ⟨⟩) Q (g s)) :
    Spec D A k (modify g >>= f) Q s := by
  have hlogs : Logs A 0 s (g s) := Logs.of_eq hl
  rw [Spec, wp_bind, wp_modify]
  refine wp_mono h (fun a t ha => ⟨ha.1, hlogs.comp ha.2 (fun _ hb => hb) (fun _ hb => hb) (by omega)⟩) ?_
  exact fun e t he => he.after hlogs (by omega)

theorem of_set {f : PUnit → K α} (hl : t.logged = s.logged) (h : Spec D A k (f ⟨⟩) Q t) :
    Spec D A k (set t >>= f) Q s :=
  of_modify (g := fun _ => t) hl h

theorem of_throw {e : Stop} (he : Benign D e) (hne : e ≠ .panic .tooBig) : Spec D A k (throw e : K α) Q s :=
  ⟨he, Logs.of_eq rfl, fun h => absurd h hne⟩

theorem of_ite {c : Prop} [Decidable c] {m₁ m₂ : K α} (h₁ : c → Spec D A k m₁ Q s) (h₂ : ¬ c → Spec D A k m₂ Q s) :
    Spec D A k (if c then m₁ else m₂) Q s := wp_ite h₁ h₂

/-- Code that can only stop because the transaction is too big. -/
theorem of_wp (h : ∀ F, TooBig F A k s → wp m (fun a t => Q a t ∧ Logs A k s t) F s) : Spec D A k m Q s :=
  h _ fun _ hl hn => ⟨trivial, hl, fun _ => hn⟩

end Spec

end Xv6.Fs
