import Mathlib.Data.List.Basic
import Mathlib.Logic.Function.Basic

/-!
# Linked lists and rings

`f` takes a node to the next one. A ring is a linked list that ends where it starts; it can be read from
each of its nodes.
-/

namespace Xv6.Lib

open Function

variable {α : Type} {f g : α → α} {a b x y z : α} {l m : List α}

/-- Following `f` from `a` leads through the nodes of `l`, and then to `z`. -/
def Linked (f : α → α) : α → List α → α → Prop
  | a, [], z => f a = z
  | a, b :: l, z => f a = b ∧ Linked f b l z

theorem Linked.append_iff : Linked f a (l ++ b :: m) z ↔ Linked f a l b ∧ Linked f b m z := by
  induction l generalizing a with
  | nil => rfl
  | cons c l ih =>
      show f a = c ∧ Linked f c (l ++ b :: m) z ↔ (f a = c ∧ Linked f c l b) ∧ Linked f b m z
      rw [ih, and_assoc]

theorem Linked.congr (h : Linked f a l z) (hfg : ∀ x ∈ a :: l, g x = f x) : Linked g a l z := by
  induction l generalizing a with
  | nil => exact (hfg a List.mem_cons_self).trans h
  | cons b l ih => exact ⟨(hfg a List.mem_cons_self).trans h.1, ih h.2 fun x hx => hfg x (List.mem_cons_of_mem a hx)⟩

/-- The ring from its node `b` on. -/
theorem Linked.rotate (h : Linked f a (l ++ b :: m) a) : Linked f b (m ++ a :: l) b := by
  obtain ⟨h₁, h₂⟩ := Linked.append_iff.1 h
  exact Linked.append_iff.2 ⟨h₂, h₁⟩

/-- Each node of a ring can be its first. -/
theorem Linked.from (h : Linked f a l a) (hb : b ∈ a :: l) : ∃ m, Linked f b m b ∧ (b :: m).Perm (a :: l) := by
  rcases List.mem_cons.1 hb with rfl | hb
  · exact ⟨l, h, .refl _⟩
  · obtain ⟨u, v, rfl⟩ := List.append_of_mem hb
    refine ⟨v ++ a :: u, h.rotate, ?_⟩
    have h₁ : (b :: v ++ a :: u).Perm (a :: u ++ b :: v) := List.perm_append_comm
    exact h₁

/-- After the last node comes `z`; each other node is followed by one that is larger. -/
theorem Linked.next {R : α → α → Prop} (h : Linked f a l z) (hR : (a :: l).Pairwise R) (hx : x ∈ a :: l) :
    x = l.getLastD a ∧ f x = z ∨ f x ∈ l ∧ R x (f x) := by
  induction l generalizing a with
  | nil =>
      obtain rfl := List.mem_singleton.1 hx
      exact .inl ⟨rfl, h⟩
  | cons b l ih =>
      rw [List.getLastD_cons]
      rcases List.mem_cons.1 hx with rfl | hx
      · refine .inr ⟨by rw [h.1]; exact List.mem_cons_self, ?_⟩
        rw [h.1]
        exact List.rel_of_pairwise_cons hR List.mem_cons_self
      · rcases ih h.2 hR.of_cons hx with h₁ | ⟨h₁, h₂⟩
        · exact .inl h₁
        · exact .inr ⟨List.mem_cons_of_mem b h₁, h₂⟩

theorem Linked.last (h : Linked f a l z) : f (l.getLastD a) = z := by
  induction l generalizing a with
  | nil => exact h
  | cons b l ih =>
      rw [List.getLastD_cons]
      exact ih h.2

theorem getLastD_mem (l : List α) (a : α) : l.getLastD a ∈ a :: l := by
  induction l generalizing a with
  | nil => exact List.mem_cons_self
  | cons b l ih =>
      rw [List.getLastD_cons]
      exact List.mem_cons_of_mem a (ih b)

/-- The last node gets another one after it. -/
theorem Linked.setLast [DecidableEq α] (h : Linked f a l z) (hn : (a :: l).Nodup) (y : α) :
    Linked (update f (l.getLastD a) y) a l y := by
  induction l generalizing a with
  | nil => exact update_self ..
  | cons b l ih =>
      rw [List.getLastD_cons]
      refine ⟨?_, ih h.2 hn.of_cons⟩
      have hne : a ≠ l.getLastD b := fun h₁ => (List.nodup_cons.1 hn).1 (h₁ ▸ getLastD_mem l b)
      rw [update_of_ne hne]
      exact h.1

/-- Another node gets what came after `a`. -/
theorem Linked.replaceHead [DecidableEq α] (h : Linked f a l z) (hb : b ∉ l) : Linked (update f b (f a)) b l z := by
  have hl : ∀ x ∈ l, update f b (f a) x = f x := fun x hx =>
    update_of_ne (fun h₁ : x = b => hb (h₁ ▸ hx)) ..
  cases l with
  | nil => exact (update_self ..).trans h
  | cons c l => exact ⟨(update_self ..).trans h.1, h.2.congr hl⟩

/-- A node is taken out. -/
theorem Linked.remove [DecidableEq α] (h : Linked f a (l ++ b :: m) z) (hn : (a :: (l ++ b :: m)).Nodup) :
    Linked (update f (l.getLastD a) (f b)) a (l ++ m) z := by
  obtain ⟨h₁, h₂⟩ := Linked.append_iff.1 h
  rw [← List.cons_append, List.nodup_append] at hn
  cases m with
  | nil =>
      have hb : f b = z := h₂
      rw [List.append_nil, hb]
      exact h₁.setLast hn.1 z
  | cons c m =>
      rw [h₂.1]
      refine Linked.append_iff.2 ⟨h₁.setLast hn.1 c, h₂.2.congr fun x hx => update_of_ne ?_ ..⟩
      exact (hn.2.2 _ (getLastD_mem l a) x (List.mem_cons_of_mem b hx)).symm

/-- A node of a ring is determined by the node after it. -/
theorem Linked.pred (h : Linked f a (l ++ b :: m) a) (hn : (a :: (l ++ b :: m)).Nodup) (hx : x ∈ a :: (l ++ b :: m))
    (hb : f x = b) : x = l.getLastD a := by
  obtain ⟨h₁, h₂⟩ := Linked.append_iff.1 h
  have hal : a ∉ l ++ b :: m := (List.nodup_cons.1 hn).1
  have hlb : (l ++ b :: m).Nodup := (List.nodup_cons.1 hn).2
  rw [List.nodup_append] at hlb
  obtain ⟨hl, hbm, hne⟩ := hlb
  rw [← List.cons_append, List.mem_append] at hx
  rcases hx with hx | hx
  · have hR : (a :: l).Pairwise fun _ _ => True := List.pairwise_of_forall fun _ _ => trivial
    rcases h₁.next hR hx with ⟨h₃, -⟩ | ⟨h₃, -⟩
    · exact h₃
    · rw [hb] at h₃
      exact absurd rfl (hne b h₃ b List.mem_cons_self)
  · have hR : (b :: m).Pairwise fun _ _ => True := List.pairwise_of_forall fun _ _ => trivial
    rcases h₂.next hR hx with ⟨-, h₃⟩ | ⟨h₃, -⟩
    · exact absurd (List.mem_append_right l List.mem_cons_self) (h₃ ▸ hb ▸ hal)
    · rw [hb] at h₃
      exact absurd h₃ (List.nodup_cons.1 hbm).1

/-! ## Searching -/

/-- The first node from `a` on at which `stop` holds, if it is found in `n` steps. -/
def search (f : α → α) (stop : α → Bool) : Nat → α → Option α
  | 0, _ => none
  | n + 1, a => if stop a then some a else search f stop n (f a)

theorem search_eq_find? {stop : α → Bool} {n : Nat} (h : Linked f a l z) (hs : ∃ x ∈ a :: l, stop x = true) (hn : l.length < n) :
    search f stop n a = (a :: l).find? stop := by
  induction l generalizing a n with
  | nil =>
      obtain ⟨x, hx, hs⟩ := hs
      obtain rfl := List.mem_singleton.1 hx
      cases n with
      | zero => exact absurd hn (Nat.not_lt_zero _)
      | succ n => simp [search, hs]
  | cons b l ih =>
      cases n with
      | zero => exact absurd hn (Nat.not_lt_zero _)
      | succ n =>
          rw [search, List.find?_cons]
          cases ha : stop a with
          | true => rfl
          | false =>
              have hs' : ∃ x ∈ b :: l, stop x = true := by
                obtain ⟨x, hx, hs⟩ := hs
                rcases List.mem_cons.1 hx with rfl | hx
                · rw [ha] at hs
                  cases hs
                · exact ⟨x, hx, hs⟩
              rw [h.1, if_neg (by decide)]
              exact ih h.2 hs' (Nat.lt_of_succ_lt_succ hn)

theorem search_mono {stop : α → Bool} {n m : Nat} (h : search f stop n a = some x) (hnm : n ≤ m) : search f stop m a = some x := by
  induction n generalizing a m with
  | zero => cases h
  | succ n ih =>
      obtain ⟨k, rfl⟩ : ∃ k, m = k + 1 := ⟨m - 1, by omega⟩
      rw [search] at h ⊢
      split at h
      · rename_i hs
        rw [if_pos hs]
        exact h
      · rename_i hs
        rw [if_neg hs]
        exact ih h (Nat.le_of_succ_le_succ hnm)

/-- The search around a ring for the only node at which it stops. -/
theorem search_ring {stop : α → Bool} {n : Nat} (h : Linked f a l a) (hb : b ∈ a :: l) (hx : x ∈ a :: l)
    (hs : ∀ y ∈ a :: l, stop y = true ↔ y = x) (hn : l.length < n) : search f stop n b = some x := by
  obtain ⟨m, hm, hperm⟩ := h.from hb
  have hmem : ∀ y, y ∈ b :: m ↔ y ∈ a :: l := fun y => hperm.mem_iff
  have hlen : m.length = l.length := Nat.succ.inj hperm.length_eq
  have hstop : stop x = true := (hs x hx).2 rfl
  rw [search_eq_find? hm ⟨x, (hmem x).2 hx, hstop⟩ (hlen ▸ hn)]
  cases hf : (b :: m).find? stop with
  | none => exact absurd hstop (List.find?_eq_none.1 hf x ((hmem x).2 hx))
  | some y => rw [(hs y ((hmem y).1 (List.mem_of_find?_eq_some hf))).1 (List.find?_some hf)]

/-- The first element of a list with a property. -/
theorem exists_first {P : α → Prop} (h : ∃ x ∈ m, P x) : ∃ w q m', m = w ++ q :: m' ∧ P q ∧ ∀ x ∈ w, ¬ P x := by
  induction m with
  | nil =>
      obtain ⟨x, hx, -⟩ := h
      cases hx
  | cons a m ih =>
      by_cases ha : P a
      · exact ⟨[], a, m, rfl, ha, by simp⟩
      · obtain ⟨x, hx, hp⟩ := h
        have hm : ∃ x ∈ m, P x := by
          rcases List.mem_cons.1 hx with rfl | hx
          · exact absurd hp ha
          · exact ⟨x, hx, hp⟩
        obtain ⟨w, q, m', rfl, hq, hw⟩ := ih hm
        refine ⟨a :: w, q, m', rfl, hq, fun x hx => ?_⟩
        rcases List.mem_cons.1 hx with rfl | hx
        · exact ha
        · exact hw x hx

end Xv6.Lib
