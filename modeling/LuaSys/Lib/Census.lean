import Mathlib.Data.Set.Card

/-!
# Counting the members that have a property

Each member of a system is somewhere, `f : α → ρ`, and the number of the members with a
property of their place is kept in a counter.  One member moves at a time, so a move is a
`Function.update`, and the number changes by one at most.

## Main definitions

* `Census f P n` — there are `n` members whose place has the property `P`.

## Main results

* `Census.same`, `Census.gain`, `Census.lose` — the count after a move.
-/

namespace LuaSys.Lib

variable {α ρ : Type*}

/-- There are `n` members at places with the property. -/
def Census (f : α → ρ) (P : ρ → Prop) (n : ℕ) : Prop := {a | P (f a)}.encard = n

namespace Census

variable {f : α → ρ} {P Q : ρ → Prop} {m n : ℕ} {a : α} {r : ρ}

theorem zero (h : ∀ a, ¬P (f a)) : Census f P 0 := by
  have hempty : {a | P (f a)} = ∅ := Set.eq_empty_iff_forall_notMem.mpr h
  rw [Census, hempty, Set.encard_empty, Nat.cast_zero]

/-- The count is the count. -/
theorem unique (hm : Census f P m) (hn : Census f P n) : m = n :=
  ENat.natCast_inj.mp (hm.symm.trans hn)

/-- A member at such a place is counted. -/
theorem pos (h : Census f P n) (ha : P (f a)) : 0 < n := by
  refine Nat.pos_of_ne_zero fun hzero => ?_
  rw [Census, hzero, Nat.cast_zero, Set.encard_eq_zero] at h
  exact Set.eq_empty_iff_forall_notMem.mp h a ha

/-- At least as many members have the weaker property. -/
theorem le_of_imp (hm : Census f P m) (hn : Census f Q n) (himp : ∀ b, P (f b) → Q (f b)) : m ≤ n := by
  have hle : {b | P (f b)}.encard ≤ {b | Q (f b)}.encard := Set.encard_le_encard himp
  rw [hm, hn] at hle
  exact_mod_cast hle

/-- More members have the weaker property, and one of them has it only. -/
theorem lt_of_imp (hm : Census f P m) (hn : Census f Q n) (himp : ∀ b, P (f b) → Q (f b))
    (hQ : Q (f a)) (hP : ¬P (f a)) : m < n := by
  have hle : (insert a {b | P (f b)}).encard ≤ {b | Q (f b)}.encard := by
    apply Set.encard_le_encard
    intro b hb
    rcases Set.mem_insert_iff.mp hb with rfl | hb
    · exact hQ
    · exact himp b hb
  have hnot : a ∉ {b | P (f b)} := hP
  rw [Set.encard_insert_of_notMem hnot, hm, hn] at hle
  exact_mod_cast hle

variable [DecidableEq α]

/-- A member moves, and its new place is as good as the old one. -/
theorem same (h : Census f P n) (hr : P r ↔ P (f a)) : Census (Function.update f a r) P n := by
  have heq : {b | P (Function.update f a r b)} = {b | P (f b)} := by
    ext b
    by_cases hb : b = a
    · subst hb
      simpa using hr
    · simp [hb]
  rw [Census, heq]
  exact h

/-- A member comes to a place with the property. -/
theorem gain (h : Census f P n) (hr : P r) (ha : ¬P (f a)) :
    Census (Function.update f a r) P (n + 1) := by
  have heq : {b | P (Function.update f a r b)} = insert a {b | P (f b)} := by
    ext b
    by_cases hb : b = a
    · subst hb
      simpa using hr
    · simp [hb]
  have hnot : a ∉ {b | P (f b)} := ha
  rw [Census, heq, Set.encard_insert_of_notMem hnot, h, Nat.cast_add, Nat.cast_one]

/-- A member goes away from a place with the property. -/
theorem lose (h : Census f P n) (hr : ¬P r) (ha : P (f a)) :
    Census (Function.update f a r) P (n - 1) := by
  have hpos := h.pos ha
  have heq : {b | P (Function.update f a r b)} = {b | P (f b)} \ {a} := by
    ext b
    by_cases hb : b = a
    · subst hb
      simpa using hr
    · simp [hb]
  have hcard : ({b | P (f b)} \ {a}).encard + 1 = {b | P (f b)}.encard :=
    Set.encard_sdiff_singleton_add_one ha
  rw [h] at hcard
  rw [Census, heq]
  have hn : (n : ℕ∞) = ((n - 1 : ℕ) : ℕ∞) + 1 := by
    exact_mod_cast (Nat.sub_add_cancel hpos).symm
  rw [hn] at hcard
  exact WithTop.add_right_cancel ENat.one_ne_top hcard

end Census

end LuaSys.Lib
