import Mathlib.Tactic.Common

/-!
# Computations that may stop

A computation in `Except ε` gives a result or stops for a reason.  `Spec E Q x` says that `x`
stops for the reasons of `E` only, and that a result has the property `Q`.  It is proved along
the computation, by one rule for each way to put computations together.

## Main definitions

* `Spec E Q x` — the reasons to stop, and the results.

## Main results

* `Spec.bind`, `Spec.map`, `Spec.mono` — the rules.
* `foldlM_error_iff` — where a loop stops.
* `foldlM_image` — a loop on other states that goes along with it.
-/

namespace LuaSys.Lib

universe u

variable {ε : Type*} {α β : Type u}

/-- The computation stops for a reason of `E`, or its result has the property `Q`. -/
def Spec (E : ε → Prop) (Q : α → Prop) : Except ε α → Prop
  | .error e => E e
  | .ok a => Q a

section rules

variable {E E' : ε → Prop} {P Q : α → Prop} {R : β → Prop} {x : Except ε α} {e : ε} {a : α}

@[simp] theorem spec_error : Spec E Q (.error e : Except ε α) ↔ E e := Iff.rfl

@[simp] theorem spec_ok : Spec E Q (.ok a : Except ε α) ↔ Q a := Iff.rfl

@[simp] theorem spec_pure : Spec E Q (pure a : Except ε α) ↔ Q a := Iff.rfl

theorem Spec.mono (h : Spec E P x) (hPQ : ∀ a, P a → Q a) : Spec E Q x := by
  cases x with
  | error e => exact h
  | ok a => exact hPQ a h

/-- What follows has to do with the results only. -/
theorem Spec.bind (h : Spec E P x) {f : α → Except ε β} (hf : ∀ a, x = .ok a → P a → Spec E R (f a)) :
    Spec E R (x >>= f) := by
  cases x with
  | error e => exact h
  | ok a => exact hf a rfl h

theorem Spec.map (h : Spec E P x) {f : α → β} (hf : ∀ a, P a → R (f a)) : Spec E R (f <$> x) := by
  cases x with
  | error e => exact h
  | ok a => exact hf a h

/-- The property of a result. -/
theorem Spec.result (h : Spec E Q x) (hx : x = .ok a) : Q a := by
  subst hx
  exact h

/-- Another reason does not occur. -/
theorem Spec.ne_error (h : Spec E Q x) (he : ¬E e) : x ≠ .error e := by
  rintro rfl
  exact he h

/-- Where a result of `map` comes from. -/
theorem map_eq_ok_iff {f : α → β} {b : β} : x.map f = .ok b ↔ ∃ a, x = .ok a ∧ f a = b := by
  cases x with
  | error e =>
      constructor
      · exact nofun
      · rintro ⟨_, ⟨⟩, _⟩
  | ok a =>
      constructor
      · exact fun h => ⟨a, rfl, Except.ok.inj h⟩
      · rintro ⟨_, ⟨⟩, rfl⟩
        rfl

theorem map_eq_error_iff {f : α → β} : x.map f = .error e ↔ x = .error e := by
  cases x with
  | error e' =>
      constructor
      · exact fun h => congrArg Except.error (Except.error.inj h)
      · exact fun h => congrArg Except.error (Except.error.inj h)
  | ok a => exact ⟨nofun, nofun⟩

end rules

/-- A loop over a list stops at one of its elements. -/
theorem foldlM_error_iff {σ : Type u} {ι : Type*} {f : σ → ι → Except ε σ} {s : σ} {l : List ι}
    {e : ε} : l.foldlM f s = .error e ↔
      ∃ pre x post s', l = pre ++ x :: post ∧ pre.foldlM f s = .ok s' ∧ f s' x = .error e := by
  constructor
  · intro h
    induction l generalizing s with
    | nil => cases h
    | cons a l ih =>
        rw [List.foldlM_cons] at h
        cases hfa : f s a with
        | error e' =>
            rw [hfa] at h
            exact ⟨[], a, l, s, rfl, rfl, hfa.trans h⟩
        | ok s₁ =>
            rw [hfa] at h
            obtain ⟨pre, x, post, s', rfl, hpre, hx⟩ := ih h
            refine ⟨a :: pre, x, post, s', rfl, ?_, hx⟩
            rw [List.foldlM_cons, hfa]
            exact hpre
  · rintro ⟨pre, x, post, s', rfl, hpre, hx⟩
    rw [List.foldlM_append, hpre]
    change (x :: post).foldlM f s' = _
    rw [List.foldlM_cons, hx]
    rfl

/-- If the bodies of two loops go along with each other, then so do the loops. -/
theorem foldlM_image {σ τ : Type u} {ι : Type*} {f : σ → ι → Except ε σ} {g : τ → ι → Except ε τ}
    {r : σ → τ} {l : List ι} (h : ∀ x ∈ l, ∀ s, g (r s) x = (f s x).map r) (s : σ) :
    l.foldlM g (r s) = (l.foldlM f s).map r := by
  induction l generalizing s with
  | nil => rfl
  | cons x l ih =>
      rw [List.foldlM_cons, List.foldlM_cons, h x List.mem_cons_self s]
      cases f s x with
      | error e => rfl
      | ok s' => exact ih (fun y hy => h y (List.mem_cons_of_mem x hy)) s'

end LuaSys.Lib
