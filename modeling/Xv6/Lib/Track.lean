import Mathlib.Order.Defs.Unbundled
import Xv6.Lib.Wp

/-!
# What code does to a view of the state

`Track π c m Q`: from every state whose view through `π` is `c`, the code `m` returns a value and a
state whose view meets `Q`, or stops. Code that does not touch the view is passed over with one rule.
-/

namespace Xv6.Lib

variable {ε σ τ α β : Type} {π : σ → τ} {c : τ}

def Track (π : σ → τ) (c : τ) (m : EStateM ε σ α) (Q : α → τ → Prop) : Prop :=
  ∀ s, π s = c → wp m (fun a t => Q a (π t)) (fun _ _ => True) s

/-- The view stays what it is. -/
def Still (π : σ → τ) (m : EStateM ε σ α) : Prop := ∀ c, Track π c m fun _ c' => c' = c

namespace Track

variable {m : EStateM ε σ α} {f : α → EStateM ε σ β} {Q Q' : α → τ → Prop}

theorem post (h : Track π c m Q) (hQ : ∀ a c', Q a c' → Q' a c') : Track π c m Q' := fun s hs =>
  wp_post (h s hs) fun a t => hQ a (π t)

theorem of_pure {a : α} (h : Q a c) : Track π c (pure a : EStateM ε σ α) Q := fun s hs => by
  rw [wp_pure, hs]
  exact h

theorem of_throw {e : ε} : Track π c (throw e : EStateM ε σ α) Q := fun _ _ => trivial

theorem bind {Q : β → τ → Prop} (h : Track π c m Q') (hf : ∀ a c', Q' a c' → Track π c' (f a) Q) :
    Track π c (m >>= f) Q := fun s hs => by
  rw [wp_bind]
  exact wp_post (h s hs) fun a t ht => hf a (π t) ht t rfl

/-- Code that does not touch the view, first. -/
theorem skip {Q : β → τ → Prop} (h : Still π m) (hf : ∀ a, Track π c (f a) Q) : Track π c (m >>= f) Q :=
  bind (h c) fun a c' hc => hc ▸ hf a

theorem of_get {f : σ → EStateM ε σ α} (h : ∀ s, Track π c (f s) Q) : Track π c (get >>= f) Q := fun s hs => h s s hs

theorem of_modify {g : σ → σ} {Q : PUnit → τ → Prop} (h : ∀ s, π s = c → Q ⟨⟩ (π (g s))) :
    Track π c (modify g : EStateM ε σ PUnit) Q := h

theorem of_ite {p : Prop} [Decidable p] {m₁ m₂ : EStateM ε σ α} (h₁ : p → Track π c m₁ Q) (h₂ : ¬ p → Track π c m₂ Q) :
    Track π c (if p then m₁ else m₂) Q := by
  split
  · exact h₁ ‹_›
  · exact h₂ ‹_›

end Track

namespace Still

variable {m : EStateM ε σ α} {f : α → EStateM ε σ β}

theorem of_pure {a : α} : Still π (pure a : EStateM ε σ α) := fun _ => Track.of_pure rfl

theorem of_throw {e : ε} : Still π (throw e : EStateM ε σ α) := fun _ => Track.of_throw

theorem bind (h : Still π m) (hf : ∀ a, Still π (f a)) : Still π (m >>= f) := fun c => Track.skip h fun a => hf a c

theorem of_get {f : σ → EStateM ε σ α} (h : ∀ s, Still π (f s)) : Still π (get >>= f) := fun c => Track.of_get fun s => h s c

theorem of_modify {g : σ → σ} (h : ∀ s, π (g s) = π s) : Still π (modify g : EStateM ε σ PUnit) :=
  fun _ => Track.of_modify fun s hs => (h s).trans hs

theorem of_ite {p : Prop} [Decidable p] {m₁ m₂ : EStateM ε σ α} (h₁ : Still π m₁) (h₂ : Still π m₂) :
    Still π (if p then m₁ else m₂) := fun c => Track.of_ite (fun _ => h₁ c) fun _ => h₂ c

theorem of_forN {body : Nat → EStateM ε σ Unit} (h : ∀ i, Still π (body i)) (n lo : Nat) : Still π (forN body n lo) := by
  induction n generalizing lo with
  | zero => exact of_pure
  | succ n ih => exact bind (h lo) fun _ => ih (lo + 1)

/-- Code that gives the state that it read, with changes. -/
theorem of_wp (h : ∀ s, wp m (fun _ t => π t = π s) (fun _ _ => True) s) : Still π m := fun c s hs => by
  rw [← hs]
  exact h s

end Still

/-- Every step of the code is one of `R`. -/
def Moves (R : σ → σ → Prop) (m : EStateM ε σ α) : Prop := ∀ s, wp m (fun _ t => R s t) (fun _ _ => True) s

namespace Moves

variable {R : σ → σ → Prop} [IsPreorder σ R] {m : EStateM ε σ α} {f : α → EStateM ε σ β}

theorem of_pure {a : α} : Moves R (pure a : EStateM ε σ α) := fun s => refl_of R s

theorem of_throw {e : ε} : Moves R (throw e : EStateM ε σ α) := fun _ => trivial

theorem bind (h : Moves R m) (hf : ∀ a, Moves R (f a)) : Moves R (m >>= f) := fun s => by
  rw [wp_bind]
  exact wp_post (h s) fun a t hst => wp_post (hf a t) fun _ _ htu => trans_of R hst htu

theorem of_get {f : σ → EStateM ε σ α} (h : ∀ s, Moves R (f s)) : Moves R (get >>= f) := fun s => h s s

theorem of_modify {g : σ → σ} (h : ∀ s, R s (g s)) : Moves R (modify g : EStateM ε σ PUnit) := h

theorem of_ite {p : Prop} [Decidable p] {m₁ m₂ : EStateM ε σ α} (h₁ : Moves R m₁) (h₂ : Moves R m₂) :
    Moves R (if p then m₁ else m₂) := fun s => wp_ite (fun _ => h₁ s) fun _ => h₂ s

end Moves

end Xv6.Lib
