import Mathlib.Tactic.Basic

/-!
# Pre- and postconditions of stateful code that can stop

A program is an `EStateM ε σ α`: from a state it returns a value and a state, or stops with an
`ε` and the state it stopped in. `wp m Q E s` says that `m`, run from `s`, returns in `Q` or stops
in `E`. The `simp` lemmas compute it through straight-line code; a call is replaced by the lemma
about the called function with `wp_mono`.
-/

namespace Xv6.Lib

variable {ε σ α β : Type}

/-- `m`, run from `s`, returns in `Q` or stops in `E`. -/
def wp (m : EStateM ε σ α) (Q : α → σ → Prop) (E : ε → σ → Prop) (s : σ) : Prop :=
  match m s with
  | .ok a t => Q a t
  | .error e t => E e t

/-! ## The primitives -/

@[simp] theorem wp_pure (a : α) (Q : α → σ → Prop) (E : ε → σ → Prop) (s : σ) :
    wp (pure a) Q E s ↔ Q a s := Iff.rfl

@[simp] theorem wp_bind (m : EStateM ε σ α) (f : α → EStateM ε σ β) (Q : β → σ → Prop)
    (E : ε → σ → Prop) (s : σ) :
    wp (m >>= f) Q E s ↔ wp m (fun a t => wp (f a) Q E t) E s := by
  show wp (EStateM.bind m f) Q E s ↔ _
  unfold wp EStateM.bind
  cases m s <;> rfl

@[simp] theorem wp_map (f : α → β) (m : EStateM ε σ α) (Q : β → σ → Prop) (E : ε → σ → Prop) (s : σ) :
    wp (f <$> m) Q E s ↔ wp m (fun a t => Q (f a) t) E s := by
  show wp (EStateM.map f m) Q E s ↔ _
  unfold wp EStateM.map
  cases m s <;> rfl

@[simp] theorem wp_get (Q : σ → σ → Prop) (E : ε → σ → Prop) (s : σ) :
    wp (get : EStateM ε σ σ) Q E s ↔ Q s s := Iff.rfl

@[simp] theorem wp_set (t : σ) (Q : PUnit → σ → Prop) (E : ε → σ → Prop) (s : σ) :
    wp (set t : EStateM ε σ PUnit) Q E s ↔ Q ⟨⟩ t := Iff.rfl

@[simp] theorem wp_modify (f : σ → σ) (Q : PUnit → σ → Prop) (E : ε → σ → Prop) (s : σ) :
    wp (modify f : EStateM ε σ PUnit) Q E s ↔ Q ⟨⟩ (f s) := Iff.rfl

@[simp] theorem wp_throw (e : ε) (Q : α → σ → Prop) (E : ε → σ → Prop) (s : σ) :
    wp (throw e : EStateM ε σ α) Q E s ↔ E e s := Iff.rfl

/-! ## Rules -/

variable {m : EStateM ε σ α} {Q Q' : α → σ → Prop} {E E' : ε → σ → Prop} {s : σ}

/-- Consequence. -/
theorem wp_mono (h : wp m Q E s) (hQ : ∀ a t, Q a t → Q' a t) (hE : ∀ e t, E e t → E' e t) :
    wp m Q' E' s := by
  unfold wp at h ⊢
  cases hm : m s with
  | ok a t => rw [hm] at h; exact hQ a t h
  | error e t => rw [hm] at h; exact hE e t h

/-- Consequence that keeps the condition on stops. -/
theorem wp_post (h : wp m Q E s) (hQ : ∀ a t, Q a t → Q' a t) : wp m Q' E s :=
  wp_mono h hQ fun _ _ h => h

/-- A second condition, which says nothing of stops. -/
theorem wp_also (h : wp m Q E s) (h' : wp m Q' (fun _ _ => True) s) : wp m (fun a t => Q a t ∧ Q' a t) E s := by
  unfold wp at h h' ⊢
  cases hm : m s with
  | ok a t => rw [hm] at h h'; exact ⟨h, h'⟩
  | error e t => rw [hm] at h; exact h

theorem wp_ok {a : α} {t : σ} (h : wp m Q E s) (hm : m s = .ok a t) : Q a t := by
  unfold wp at h; rw [hm] at h; exact h

theorem wp_of_ok {a : α} {t : σ} (hm : m s = .ok a t) (h : Q a t) : wp m Q E s := by
  rw [wp, hm]
  exact h

/-- A result is that of the run. -/
theorem wp_self (h : wp m Q E s) : wp m (fun a t => Q a t ∧ m s = .ok a t) E s := by
  unfold wp at *
  cases hm : m s with
  | ok a t =>
      rw [hm] at h
      exact ⟨h, rfl⟩
  | error e t =>
      rw [hm] at h
      exact h

theorem wp_error {e : ε} {t : σ} (h : wp m Q E s) (hm : m s = .error e t) : E e t := by
  unfold wp at h; rw [hm] at h; exact h

/-- A condition that no stop meets gives a returned value. -/
theorem wp_returns (h : wp m Q (fun _ _ => False) s) : ∃ a t, m s = .ok a t ∧ Q a t := by
  unfold wp at h
  cases hm : m s with
  | ok a t => rw [hm] at h; exact ⟨a, t, rfl, h⟩
  | error e t => rw [hm] at h; exact h.elim

/-- A condition that no returned value meets gives a stop. -/
theorem wp_stops (h : wp m (fun _ _ => False) E s) : ∃ e t, m s = .error e t ∧ E e t := by
  unfold wp at h
  cases hm : m s with
  | ok a t => rw [hm] at h; exact h.elim
  | error e t => rw [hm] at h; exact ⟨e, t, rfl, h⟩

theorem wp_ite {c : Prop} [Decidable c] {m₁ m₂ : EStateM ε σ α} (h₁ : c → wp m₁ Q E s)
    (h₂ : ¬ c → wp m₂ Q E s) : wp (if c then m₁ else m₂) Q E s := by
  split
  · exact h₁ ‹_›
  · exact h₂ ‹_›

/-! ## More fuel -/

/-- Whenever `m` returns, `m'` returns the same. -/
def Extends (m m' : EStateM ε σ α) : Prop := ∀ s a t, m s = .ok a t → m' s = .ok a t

theorem Extends.refl (m : EStateM ε σ α) : Extends m m := fun _ _ _ h => h

theorem Extends.bind {m m' : EStateM ε σ α} {f f' : α → EStateM ε σ β} (h : Extends m m') (hf : ∀ a, Extends (f a) (f' a)) :
    Extends (m >>= f) (m' >>= f') := by
  intro s b u hb
  have hb' : EStateM.bind m f s = .ok b u := hb
  show EStateM.bind m' f' s = .ok b u
  unfold EStateM.bind at hb' ⊢
  cases hm : m s with
  | ok a t =>
      rw [hm] at hb'
      rw [h s a t hm]
      exact hf a t b u hb'
  | error e t =>
      rw [hm] at hb'
      cases hb'

theorem Extends.ite {c : Prop} [Decidable c] {m₁ m₂ m₁' m₂' : EStateM ε σ α} (h₁ : Extends m₁ m₁') (h₂ : Extends m₂ m₂') :
    Extends (if c then m₁ else m₂) (if c then m₁' else m₂') := by
  split
  · exact h₁
  · exact h₂

/-! ## Counted loops -/

/-- `for (i = lo; i < lo + n; i++) body(i)`. -/
def forN (body : Nat → EStateM ε σ Unit) : Nat → Nat → EStateM ε σ Unit
  | 0, _ => pure ()
  | n + 1, lo => do
      body lo
      forN body n (lo + 1)

/-- The loop rule: `I i` holds when iteration `i` starts. -/
theorem wp_forN {f : Nat → EStateM ε σ Unit} (I : Nat → σ → Prop) (n lo : Nat)
    (hbody : ∀ i s, lo ≤ i → i < lo + n → I i s → wp (f i) (fun _ t => I (i + 1) t) E s)
    (h : I lo s) : wp (forN f n lo) (fun _ t => I (lo + n) t) E s := by
  induction n generalizing lo s with
  | zero => exact h
  | succ n ih =>
      simp only [forN, wp_bind]
      refine wp_post (hbody lo s (Nat.le_refl _) (by omega) h) fun _ t ht => ?_
      have := ih (lo + 1) (fun i s h₁ h₂ => hbody i s (by omega) (by omega)) ht
      rwa [Nat.add_right_comm] at this

/-! ## Checked runs -/

/-- The program returns from `s`, and what it returns passes the check. -/
def returns (m : EStateM ε σ α) (check : α → σ → Bool) (s : σ) : Bool :=
  match m s with
  | .ok a t => check a t
  | .error _ _ => false

theorem of_returns {check : α → σ → Bool} (h : returns m check s = true) : ∃ a t, m s = .ok a t ∧ check a t = true := by
  unfold returns at h
  cases hm : m s with
  | ok a t =>
      rw [hm] at h
      exact ⟨a, t, rfl, h⟩
  | error e t =>
      rw [hm] at h
      cases h

end Xv6.Lib
