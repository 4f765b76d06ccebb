import Mathlib.Data.List.Chain
import Mathlib.Data.List.Nodup
import Mathlib.Logic.Function.Basic

/-!
# Circular doubly linked lists

Nodes of an arbitrary type with a `next` and a `prev` field. A ring is a head and a list of nodes such
that consecutive ones point at each other, from the head through the list back to the head. A node
is unlinked and put at the front in place, and a loop along one of the fields searches the list.
-/

namespace Xv6.Lib.Dll

open Function

variable {α : Type} [DecidableEq α]

structure Links (α : Type) where
  next : α → α
  prev : α → α

namespace Links

def setNext (L : Links α) (a b : α) : Links α := { L with next := update L.next a b }

def setPrev (L : Links α) (a b : α) : Links α := { L with prev := update L.prev a b }

/-- `b->next->prev = b->prev; b->prev->next = b->next`. -/
def unlink (L : Links α) (b : α) : Links α :=
  let L := L.setPrev (L.next b) (L.prev b)
  L.setNext (L.prev b) (L.next b)

/-- `b->next = h->next; b->prev = h; h->next->prev = b; h->next = b`. -/
def pushFront (L : Links α) (h b : α) : Links α :=
  let L := L.setNext b (L.next h)
  let L := L.setPrev b h
  let L := L.setPrev (L.next h) b
  L.setNext h b

def flip (L : Links α) : Links α := ⟨L.prev, L.next⟩

end Links

/-- The loop `for(a = …; a != stop; a = f(a))` that stops at the first `a` with `P a`; `none` when the
fuel is used up. -/
def scan (f : α → α) (stop : α) (P : α → Bool) : Nat → α → Option (Option α)
  | 0, _ => none
  | n + 1, a => if a = stop then some none else if P a then some (some a) else scan f stop P n (f a)

/-- `x` and `y` point at each other. -/
def Link (L : Links α) (x y : α) : Prop := L.next x = y ∧ L.prev y = x

/-- From the head `h` through `xs` back to `h`. -/
def Ring (L : Links α) (h : α) (xs : List α) : Prop := (h :: (xs ++ [h])).IsChain (Link L)

variable {L L' : Links α} {h b x z : α} {xs ys zs pre post l : List α} {P : α → Bool} {n : Nat}

/-! ## Chains of links -/

omit [DecidableEq α] in
/-- A list with `h` at its end has a first element. -/
theorem concat_eq_cons (xs : List α) (h : α) : ∃ z post, xs ++ [h] = z :: post := by
  cases xs with
  | nil => exact ⟨h, [], rfl⟩
  | cons z zs => exact ⟨z, zs ++ [h], rfl⟩

omit [DecidableEq α] in
theorem notMem_post (hh : h ∉ xs) (hxs : xs.Nodup) (hpost : xs ++ [h] = z :: post) : z ∉ post := by
  have hnd : (z :: post).Nodup := by
    rw [← hpost, List.nodup_append]
    refine ⟨hxs, List.nodup_singleton h, fun a ha c hc => ?_⟩
    rw [List.mem_singleton.1 hc]
    rintro rfl
    exact hh ha
  exact (List.nodup_cons.1 hnd).1

omit [DecidableEq α] in
/-- A chain reads `next` of all nodes but the last and `prev` of all but the first. -/
theorem chain_congr (hl : l.IsChain (Link L)) (hnext : ∀ a ∈ l.dropLast, L'.next a = L.next a)
    (hprev : ∀ a ∈ l.tail, L'.prev a = L.prev a) : l.IsChain (Link L') := by
  rw [List.isChain_iff_forall_rel_of_append_cons_cons] at hl ⊢
  intro a c l₁ l₂ heq
  obtain ⟨h₁, h₂⟩ := hl heq
  have ha : a ∈ l.dropLast := by
    rw [heq, List.dropLast_append_of_ne_nil (List.cons_ne_nil _ _)]
    simp
  have hc : c ∈ l.tail := by
    rw [heq]
    cases l₁ with
    | nil => simp
    | cons d l₁ => simp
  exact ⟨(hnext a ha).trans h₁, (hprev c hc).trans h₂⟩

theorem chain_unlink (hl : (pre ++ x :: b :: z :: post).IsChain (Link L)) (hbz : b ≠ z)
    (hx : x ∉ pre) (hx' : x ∉ (z :: post).dropLast) (hz : z ∉ (pre ++ [x]).tail) (hz' : z ∉ post) :
    (pre ++ x :: z :: post).IsChain (Link (L.unlink b)) := by
  rw [List.isChain_split] at hl ⊢
  obtain ⟨hpre, hxb, hbz', hpost⟩ : (pre ++ [x]).IsChain (Link L) ∧ Link L x b ∧ Link L b z ∧
      (z :: post).IsChain (Link L) := by
    obtain ⟨h₁, h₂⟩ := hl
    rw [List.isChain_cons_cons, List.isChain_cons_cons] at h₂
    exact ⟨h₁, h₂⟩
  have hnext : (L.unlink b).next = update L.next x z := by
    simp only [Links.unlink, Links.setNext, Links.setPrev, hbz'.1, hxb.2, update_of_ne hbz]
  have hprev : (L.unlink b).prev = update L.prev z x := by
    simp only [Links.unlink, Links.setNext, Links.setPrev, hbz'.1, hxb.2]
  refine ⟨chain_congr hpre (fun a ha => ?_) (fun a ha => ?_), ?_⟩
  · rw [List.dropLast_concat] at ha
    rw [hnext, update_of_ne]
    rintro rfl
    exact hx ha
  · rw [hprev, update_of_ne]
    rintro rfl
    exact hz ha
  · rw [List.isChain_cons_cons]
    refine ⟨⟨?_, ?_⟩, chain_congr hpost (fun a ha => ?_) (fun a ha => ?_)⟩
    · rw [hnext, update_self]
    · rw [hprev, update_self]
    · rw [hnext, update_of_ne]
      rintro rfl
      exact hx' ha
    · rw [hprev, update_of_ne]
      rintro rfl
      exact hz' ha

/-! ## Rings -/

omit [DecidableEq α] in
theorem Ring.flip (hr : Ring L h xs) : Ring L.flip h xs.reverse := by
  have hrev : h :: (xs.reverse ++ [h]) = (h :: (xs ++ [h])).reverse := by simp
  rw [Ring, hrev, List.isChain_reverse]
  exact hr.imp fun a c hac => ⟨hac.2, hac.1⟩

theorem Ring.unlink (hr : Ring L h (ys ++ b :: zs)) (hnd : (h :: (ys ++ b :: zs)).Nodup) :
    Ring (L.unlink b) h (ys ++ zs) := by
  obtain ⟨pre, x, hpre⟩ : ∃ pre x, h :: ys = pre ++ [x] :=
    ⟨_, _, (List.dropLast_append_getLast (List.cons_ne_nil h ys)).symm⟩
  obtain ⟨z, post, hpost⟩ := concat_eq_cons zs h
  have hold : h :: ((ys ++ b :: zs) ++ [h]) = pre ++ x :: b :: z :: post := by
    rw [← hpost]
    calc h :: ((ys ++ b :: zs) ++ [h]) = (h :: ys) ++ (b :: (zs ++ [h])) := by simp
      _ = _ := by rw [hpre]; simp
  have hnew : h :: ((ys ++ zs) ++ [h]) = pre ++ x :: z :: post := by
    rw [← hpost]
    calc h :: ((ys ++ zs) ++ [h]) = (h :: ys) ++ (zs ++ [h]) := by simp
      _ = _ := by rw [hpre]; simp
  obtain ⟨hh, hnd⟩ := List.nodup_cons.1 hnd
  obtain ⟨hys, hbzs, hdisj⟩ := List.nodup_append.1 hnd
  obtain ⟨hb, hzs⟩ := List.nodup_cons.1 hbzs
  have hhys : h ∉ ys := fun hm => hh (List.mem_append_left _ hm)
  have hhb : h ≠ b := fun hm => hh (by rw [hm]; simp)
  have hhzs : h ∉ zs := fun hm => hh (List.mem_append_right _ (List.mem_cons_of_mem _ hm))
  have hxmem : x = h ∨ x ∈ ys := List.mem_cons.1 (by rw [hpre]; simp)
  have hzmem : z ∈ zs ∨ z = h := by
    have hz : z ∈ zs ++ [h] := by rw [hpost]; simp
    simpa using hz
  rw [Ring, hnew]
  rw [Ring, hold] at hr
  refine chain_unlink hr ?_ ?_ ?_ ?_ ?_
  · rintro rfl
    exact hzmem.elim hb hhb.symm
  · have hnd' : (pre ++ [x]).Nodup := by
      rw [← hpre]
      exact List.nodup_cons.2 ⟨hhys, hys⟩
    exact fun hm => (List.nodup_append.1 hnd').2.2 x hm x (List.mem_singleton.2 rfl) rfl
  · rw [← hpost, List.dropLast_concat]
    rcases hxmem with rfl | hx
    · exact hhzs
    · exact fun hm => hdisj x hx x (List.mem_cons_of_mem _ hm) rfl
  · rw [← hpre, List.tail_cons]
    rcases hzmem with hz | rfl
    · exact fun hm => hdisj z hm z (List.mem_cons_of_mem _ hz) rfl
    · exact hhys
  · exact notMem_post hhzs hzs hpost

theorem Ring.pushFront (hr : Ring L h xs) (hnd : (h :: xs).Nodup) (hb : b ∉ h :: xs) :
    Ring (L.pushFront h b) h (b :: xs) := by
  obtain ⟨z, post, hpost⟩ := concat_eq_cons xs h
  obtain ⟨hhxs, hxs⟩ := List.nodup_cons.1 hnd
  have hbh : b ≠ h := fun hm => hb (by rw [hm]; simp)
  have hbxs : b ∉ xs := fun hm => hb (List.mem_cons_of_mem _ hm)
  have hzmem : z ∈ xs ∨ z = h := by
    have hz : z ∈ xs ++ [h] := by rw [hpost]; simp
    simpa using hz
  have hbz : b ≠ z := by
    rintro rfl
    exact hzmem.elim hbxs hbh
  have hzpost : z ∉ post := notMem_post hhxs hxs hpost
  rw [Ring, hpost, List.isChain_cons_cons] at hr
  obtain ⟨hhz, hchain⟩ := hr
  have hnext : (L.pushFront h b).next = update (update L.next b z) h b := by
    simp only [Links.pushFront, Links.setNext, Links.setPrev, hhz.1]
  have hprev : (L.pushFront h b).prev = update (update L.prev b h) z b := by
    simp only [Links.pushFront, Links.setNext, Links.setPrev, hhz.1, update_of_ne hbh.symm]
  rw [Ring, List.cons_append, hpost, List.isChain_cons_cons, List.isChain_cons_cons]
  refine ⟨⟨?_, ?_⟩, ⟨?_, ?_⟩, chain_congr hchain (fun a ha => ?_) (fun a ha => ?_)⟩
  · rw [hnext, update_self]
  · rw [hprev, update_of_ne hbz, update_self]
  · rw [hnext, update_of_ne hbh, update_self]
  · rw [hprev, update_self]
  · rw [← hpost, List.dropLast_concat] at ha
    rw [hnext, update_of_ne, update_of_ne]
    · rintro rfl
      exact hbxs ha
    · rintro rfl
      exact hhxs ha
  · rw [List.tail_cons] at ha
    have hmem : a ∈ xs ++ [h] := by rw [hpost]; exact List.mem_cons_of_mem _ ha
    rw [hprev, update_of_ne, update_of_ne]
    · rintro rfl
      rcases List.mem_append.1 hmem with hm | hm
      · exact hbxs hm
      · exact hbh (List.mem_singleton.1 hm)
    · rintro rfl
      exact hzpost ha

/-- `b` is taken from where it is and put at the front. -/
theorem Ring.moveFront (hr : Ring L h xs) (hnd : (h :: xs).Nodup) (hb : b ∈ xs) :
    Ring ((L.unlink b).pushFront h b) h (b :: xs.erase b) := by
  obtain ⟨ys, zs, hys, rfl, herase⟩ := List.exists_erase_eq hb
  rw [herase]
  have hsub : (h :: (ys ++ zs)).Sublist (h :: (ys ++ b :: zs)) :=
    ((List.Sublist.refl ys).append (List.sublist_cons_self b zs)).cons_cons h
  refine (hr.unlink hnd).pushFront (hnd.sublist hsub) fun hm => ?_
  have hperm : (h :: (ys ++ b :: zs)).Perm (b :: (h :: (ys ++ zs))) :=
    (List.perm_middle.cons h).trans (List.Perm.swap b h _)
  exact (List.nodup_cons.1 (hperm.nodup_iff.1 hnd)).1 hm

/-! ## Searching -/

theorem scan_chain {f : α → α} {a : α} (hl : l.IsChain (fun x y => f x = y)) (heq : l = xs ++ [h]) (ha : l.head? = some a)
    (hh : h ∉ xs) (hn : xs.length < n) : scan f h P n a = some (xs.find? P) := by
  induction xs generalizing l a n with
  | nil =>
      subst heq
      cases ha
      obtain ⟨n, rfl⟩ := Nat.exists_eq_add_one_of_ne_zero (Nat.ne_of_gt hn)
      simp [scan]
  | cons x xs ih =>
      subst heq
      cases ha
      obtain ⟨n, rfl⟩ := Nat.exists_eq_add_one_of_ne_zero (Nat.ne_of_gt (Nat.lt_of_le_of_lt (Nat.zero_le _) hn))
      have hxh : x ≠ h := fun heq => hh (by rw [heq]; simp)
      rw [scan, if_neg hxh, List.find?_cons]
      cases hP : P x with
      | true => rfl
      | false =>
          simp only [Bool.false_eq_true, if_false]
          rw [List.cons_append, List.isChain_cons] at hl
          refine ih hl.2 rfl ?_ (fun hm => hh (List.mem_cons_of_mem _ hm)) (by simpa using hn)
          obtain ⟨y, post, hpost⟩ := concat_eq_cons xs h
          rw [hpost] at hl ⊢
          rw [hl.1 y rfl, List.head?_cons]

/-- The loop along `next` finds the first node of the list with `P`. -/
theorem Ring.scan_next (hr : Ring L h xs) (hh : h ∉ xs) (hn : xs.length < n) :
    scan L.next h P n (L.next h) = some (xs.find? P) := by
  have hchain := hr.imp (S := fun x y => L.next x = y) fun _ _ hac => hac.1
  rw [List.isChain_cons] at hchain
  refine scan_chain hchain.2 rfl ?_ hh hn
  obtain ⟨y, post, hpost⟩ := concat_eq_cons xs h
  rw [hpost] at hchain ⊢
  rw [hchain.1 y rfl, List.head?_cons]

/-- The loop along `prev` finds the last node of the list with `P`. -/
theorem Ring.scan_prev (hr : Ring L h xs) (hh : h ∉ xs) (hn : xs.length < n) :
    scan L.prev h P n (L.prev h) = some (xs.reverse.find? P) :=
  hr.flip.scan_next (by simpa using hh) (by simpa using hn)

end Xv6.Lib.Dll
