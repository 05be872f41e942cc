import Mathlib.Data.List.Count
import Mathlib.Data.Set.Insert
import Mathlib.Order.BooleanAlgebra.Set
import Mathlib.Logic.Function.Basic
import Mathlib.Tactic.Common

/-!
# Arrays with deletion by the last entry

A set is kept in the places `lo`, …, `n - 1` of an array, and each member knows its place.  A
member is deleted by moving the last entry to its place.  The place behind the new end keeps its
old contents, and so does every place above that of the deleted member.

Because of that, a loop over the old places may delete the members it comes across: what it
meets is what the array held when the loop began, and a member that a deletion has moved is met
at its old place.  The members that are ahead of the loop have not been deleted, and their
places are not above those where they will be met.

## Main definitions

* `swapDel a i n` — the array after the entry `n` has been moved to the place `i`.
* `Placed slot index lo n S` — the members of `S` are in the places from `lo` up to `n`.
* `Scanned` — a loop with deletions has come to the place `i`.
* `scan` — a loop that stops when it has met as many hits as it was told.

## Main results

* `Placed.delete` — a deletion keeps the places.
* `Scanned.delete`, `Scanned.skip` — the steps of the loop.
* `scan_some_iff`, `scan_inv` — the loop from what its body does at one place.
-/

namespace LuaSys.Lib

variable {ε α σ : Type*}

/-- The entry `n` is moved to the place `i`, unless that place is not below `n`. -/
def swapDel (a : ℕ → α) (i n : ℕ) : ℕ → α := if i < n then Function.update a i (a n) else a

theorem swapDel_of_ne {a : ℕ → α} {i j n : ℕ} (hj : j ≠ i) : swapDel a i n j = a j := by
  unfold swapDel
  split
  · exact Function.update_of_ne hj _ _
  · rfl

theorem swapDel_self {a : ℕ → α} {i n : ℕ} (hi : i < n) : swapDel a i n i = a n := by
  simp [swapDel, hi]

/-- The entry `n`, if it is moved to the place `i`, is told its place. -/
def reindex [DecidableEq ε] (slot : ℕ → Option ε) (index : ε → ℕ) (i n : ℕ) : ε → ℕ :=
  if i < n then (slot n).elim index fun e => Function.update index e i else index

/-- The members of `S` are in the places `lo`, …, `n - 1`, and each knows its place. -/
structure Placed (slot : ℕ → Option ε) (index : ε → ℕ) (lo n : ℕ) (S : Set ε) : Prop where
  lo_le : ∀ e ∈ S, lo ≤ index e
  lt : ∀ e ∈ S, index e < n
  slot_index : ∀ e ∈ S, slot (index e) = some e
  mem_slot : ∀ i, lo ≤ i → i < n → ∃ e ∈ S, slot i = some e ∧ index e = i

namespace Placed
variable {slot : ℕ → Option ε} {index : ε → ℕ} {lo n i : ℕ} {S : Set ε} {e : ε}

theorem index_of_slot (h : Placed slot index lo n S) (hlo : lo ≤ i) (hn : i < n)
    (hslot : slot i = some e) : e ∈ S ∧ index e = i := by
  obtain ⟨e', he', hslot', hindex⟩ := h.mem_slot i hlo hn
  obtain rfl : e = e' := Option.some.inj (hslot.symm.trans hslot')
  exact ⟨he', hindex⟩

theorem index_inj (h : Placed slot index lo n S) {e' : ε} (he : e ∈ S) (he' : e' ∈ S)
    (heq : index e = index e') : e = e' := by
  have hslot := h.slot_index e he
  rw [heq, h.slot_index e' he'] at hslot
  exact (Option.some.inj hslot).symm

/-- A new member is put behind the last one. -/
theorem add [DecidableEq ε] (h : Placed slot index lo n S) (hlo : lo ≤ n) (he : e ∉ S) :
    Placed (Function.update slot n (some e)) (Function.update index e n) lo (n + 1)
      (insert e S) := by
  have hne : ∀ x ∈ S, x ≠ e := fun x hx heq => he (heq ▸ hx)
  have hltn : ∀ x ∈ S, index x ≠ n := fun x hx => Nat.ne_of_lt (h.lt x hx)
  refine ⟨?_, ?_, ?_, fun i hi hn => ?_⟩
  · rintro x (rfl | hx)
    · simpa using hlo
    · simpa [hne x hx] using h.lo_le x hx
  · rintro x (rfl | hx)
    · simp
    · simpa [hne x hx] using Nat.lt_succ_of_lt (h.lt x hx)
  · rintro x (rfl | hx)
    · simp
    · simpa [hne x hx, hltn x hx] using h.slot_index x hx
  · rcases Nat.lt_succ_iff_lt_or_eq.mp hn with hin | rfl
    · obtain ⟨x, hx, hslot, hindex⟩ := h.mem_slot i hi hin
      exact ⟨x, .inr hx, by simpa [Nat.ne_of_lt hin] using hslot, by simpa [hne x hx] using hindex⟩
    · exact ⟨e, .inl rfl, by simp, by simp⟩

/-- Only the places of the members matter. -/
theorem congr_index {index' : ε → ℕ} (h : Placed slot index lo n S)
    (heq : ∀ x ∈ S, index' x = index x) : Placed slot index' lo n S where
  lo_le x hx := by
    rw [heq x hx]
    exact h.lo_le x hx
  lt x hx := by
    rw [heq x hx]
    exact h.lt x hx
  slot_index x hx := by
    rw [heq x hx]
    exact h.slot_index x hx
  mem_slot i hlo hn := by
    obtain ⟨x, hx, hslot, hindex⟩ := h.mem_slot i hlo hn
    exact ⟨x, hx, hslot, (heq x hx).trans hindex⟩

variable [DecidableEq ε]

/-- Where the members are after a deletion. -/
theorem reindex_of_mem (h : Placed slot index lo n S) (he : e ∈ S) {x : ε} (hx : x ∈ S)
    (hne : x ≠ e) :
    index x = n - 1 ∧ reindex slot index (index e) (n - 1) x = index e ∨
      index x < n - 1 ∧ reindex slot index (index e) (n - 1) x = index x := by
  have hltx := h.lt x hx
  have hlte := h.lt e he
  have hindexne : index x ≠ index e := fun heq => hne (h.index_inj hx he heq)
  unfold reindex
  by_cases hlast : index x = n - 1
  · have hslot : slot (n - 1) = some x := hlast ▸ h.slot_index x hx
    refine Or.inl ⟨hlast, ?_⟩
    rw [if_pos (by omega), hslot]
    simp
  · refine Or.inr ⟨by omega, ?_⟩
    split
    · obtain ⟨m, hm, hslot, hindex⟩ := h.mem_slot (n - 1) (by have := h.lo_le e he; omega) (by omega)
      have hxm : x ≠ m := fun heq => hlast (heq ▸ hindex)
      rw [hslot]
      simp [hxm]
    · rfl

/-- A deletion keeps the places of the others. -/
theorem delete (h : Placed slot index lo n S) (he : e ∈ S) :
    Placed (swapDel slot (index e) (n - 1)) (reindex slot index (index e) (n - 1)) lo (n - 1)
      (S \ {e}) := by
  have hlte := h.lt e he
  have hloe := h.lo_le e he
  refine ⟨?_, ?_, ?_, fun i hi hn => ?_⟩
  · rintro x ⟨hx, hne⟩
    rcases h.reindex_of_mem he hx hne with ⟨-, heq⟩ | ⟨-, heq⟩
    · rw [heq]
      exact hloe
    · rw [heq]
      exact h.lo_le x hx
  · rintro x ⟨hx, hne⟩
    rcases h.reindex_of_mem he hx hne with ⟨hlast, heq⟩ | ⟨hlt, heq⟩
    · have hindexne : index x ≠ index e := fun heq => hne (h.index_inj hx he heq)
      omega
    · omega
  · rintro x ⟨hx, hne⟩
    have hindexne : index x ≠ index e := fun heq => hne (h.index_inj hx he heq)
    rcases h.reindex_of_mem he hx hne with ⟨hlast, heq⟩ | ⟨hlt, heq⟩
    · rw [heq, swapDel_self (by omega), ← hlast]
      exact h.slot_index x hx
    · rw [heq, swapDel_of_ne hindexne]
      exact h.slot_index x hx
  · by_cases hie : i = index e
    · -- The last member has come to the place of the deleted one.
      obtain ⟨m, hm, hslot, hindex⟩ := h.mem_slot (n - 1) (by omega) (by omega)
      have hne : m ≠ e := by
        rintro rfl
        omega
      refine ⟨m, ⟨hm, hne⟩, ?_, ?_⟩
      · rw [hie, swapDel_self (by omega), hslot]
      · rcases h.reindex_of_mem he hm hne with ⟨-, heq⟩ | ⟨hlt, -⟩
        · rw [heq, hie]
        · omega
    · obtain ⟨x, hx, hslot, hindex⟩ := h.mem_slot i hi (by omega)
      have hne : x ≠ e := by
        rintro rfl
        exact hie hindex.symm
      refine ⟨x, ⟨hx, hne⟩, ?_, ?_⟩
      · rw [swapDel_of_ne hie, hslot]
      · rcases h.reindex_of_mem he hx hne with ⟨hlast, -⟩ | ⟨-, heq⟩
        · omega
        · rw [heq, hindex]

/-- A second array whose entries match the members still does so if it is moved along. -/
theorem swapDel_match (h : Placed slot index lo n S) {b : ℕ → α} {R : ε → α → Prop}
    (hR : ∀ x ∈ S, R x (b (index x))) (he : e ∈ S) :
    ∀ x ∈ S \ {e}, R x (swapDel b (index e) (n - 1)
      (reindex slot index (index e) (n - 1) x)) := by
  rintro x ⟨hx, hne⟩
  have hindexne : index x ≠ index e := fun heq => hne (h.index_inj hx he heq)
  have hlte := h.lt e he
  rcases h.reindex_of_mem he hx hne with ⟨hlast, heq⟩ | ⟨hlt, heq⟩
  · rw [heq, swapDel_self (by omega), ← hlast]
    exact hR x hx
  · rw [heq, swapDel_of_ne hindexne]
    exact hR x hx

end Placed

/-! ## A loop with deletions -/

/-- A loop over the places from `lo` up to `N`, which held the set `S` when it began, has come
to the place `i` and has deleted the members `gone`. -/
structure Scanned (slot₀ : ℕ → Option ε) (index₀ : ε → ℕ) (lo N : ℕ) (S gone : Set ε)
    (slot : ℕ → Option ε) (index : ε → ℕ) (n i : ℕ) : Prop where
  start : Placed slot₀ index₀ lo N S
  lo_le : lo ≤ i
  placed : Placed slot index lo n (S \ gone)
  ahead : ∀ j, i ≤ j → slot j = slot₀ j
  pending : ∀ j e, i ≤ j → j < N → slot₀ j = some e → e ∉ gone ∧ index e ≤ j

namespace Scanned
variable {slot₀ slot : ℕ → Option ε} {index₀ index : ε → ℕ} {lo N n i : ℕ} {S gone : Set ε}
  {e : ε}

theorem begin (h : Placed slot₀ index₀ lo N S) :
    Scanned slot₀ index₀ lo N S ∅ slot₀ index₀ N lo where
  start := h
  lo_le := Nat.le_refl lo
  placed := by simpa using h
  ahead _ _ := rfl
  pending j e hj hN hslot := ⟨Set.notMem_empty e, Nat.le_of_eq (h.index_of_slot hj hN hslot).2⟩

/-- The loop finds at `i` a member that has not been deleted. -/
theorem current (h : Scanned slot₀ index₀ lo N S gone slot index n i) (hi : i < N) :
    ∃ e ∈ S \ gone, slot i = some e ∧ slot₀ i = some e ∧ index₀ e = i ∧ index e ≤ i := by
  obtain ⟨e, he, hslot, hindex⟩ := h.start.mem_slot i h.lo_le hi
  obtain ⟨hgone, hle⟩ := h.pending i e (Nat.le_refl i) hi hslot
  exact ⟨e, ⟨he, hgone⟩, (h.ahead i (Nat.le_refl i)).trans hslot, hslot, hindex, hle⟩

theorem skip (h : Scanned slot₀ index₀ lo N S gone slot index n i) :
    Scanned slot₀ index₀ lo N S gone slot index n (i + 1) where
  start := h.start
  lo_le := Nat.le_succ_of_le h.lo_le
  placed := h.placed
  ahead j hj := h.ahead j (Nat.le_of_succ_le hj)
  pending j e hj := h.pending j e (Nat.le_of_succ_le hj)

/-- The member at `i` is deleted.  What is ahead stays, and only the last member moves. -/
theorem delete [DecidableEq ε] (h : Scanned slot₀ index₀ lo N S gone slot index n i) (hi : i < N)
    (hslot : slot i = some e) :
    Scanned slot₀ index₀ lo N S (insert e gone) (swapDel slot (index e) (n - 1))
      (reindex slot index (index e) (n - 1)) (n - 1) (i + 1) := by
  obtain ⟨e', he, hslot', hslot₀, hindex₀, hle⟩ := h.current hi
  obtain rfl : e = e' := Option.some.inj (hslot.symm.trans hslot')
  refine ⟨h.start, Nat.le_succ_of_le h.lo_le, ?_, fun j hj => ?_, fun j x hj hN hx => ?_⟩
  · have hset : S \ insert e gone = (S \ gone) \ {e} := by
      ext x
      simp only [Set.mem_sdiff, Set.mem_insert_iff, Set.mem_singleton_iff]
      tauto
    rw [hset]
    exact h.placed.delete he
  · rw [swapDel_of_ne (by omega)]
    exact h.ahead j (by omega)
  · obtain ⟨hgone, hlex⟩ := h.pending j x (by omega) hN hx
    obtain ⟨hxS, hindexx⟩ := h.start.index_of_slot (by have := h.lo_le; omega) hN hx
    have hne : x ≠ e := by
      rintro rfl
      omega
    refine ⟨by simp [hne, hgone], ?_⟩
    rcases h.placed.reindex_of_mem he ⟨hxS, hgone⟩ hne with ⟨-, heq⟩ | ⟨-, heq⟩ <;> omega

end Scanned

/-! ## A loop that counts its hits -/

/-- `for (; i < N && nready; i++)`, with `k = N - i`: the body may fail, and tells whether its
place is a hit. -/
def scan (visit : ℕ → σ → Option (σ × Bool)) : ℕ → ℕ → ℕ → σ → Option σ
  | 0, _, _, s => some s
  | k + 1, i, nready, s =>
      if nready = 0 then some s
      else (visit i s).bind fun r =>
        scan visit k (i + 1) (if r.2 then nready - 1 else nready) r.1

/-- The number of hits in the `k` places from `i` on. -/
def hits (hit : ℕ → Bool) (i k : ℕ) : ℕ := (List.range' i k).countP hit

/-- The loop comes to the place `j`: there is a hit at `j` or behind it, or it was told of more
hits than there are. -/
def Visited (hit : ℕ → Bool) (N extra j : ℕ) : Prop := extra ≠ 0 ∨ ∃ l, j ≤ l ∧ l < N ∧ hit l

section scan
variable {visit : ℕ → σ → Option (σ × Bool)} {hit : ℕ → Bool} {Inv : ℕ → σ → Prop}
  {Ok : ℕ → Prop} {N : ℕ} {k i extra : ℕ} {s : σ}

theorem hits_succ : hits hit i (k + 1) = hits hit (i + 1) k + if hit i then 1 else 0 := by
  simp [hits, List.range'_succ, List.countP_cons]

/-- What the loop has left to find behind the `i`-th entry. -/
theorem hits_rest {extra : ℕ} : (if hit i = true then hits hit i (k + 1) + extra - 1
    else hits hit i (k + 1) + extra) = hits hit (i + 1) k + extra := by
  rw [hits_succ]
  split <;> omega

theorem hits_concat : hits hit i (k + 1) = hits hit i k + if hit (i + k) then 1 else 0 := by
  simp [hits, List.range'_concat, List.countP_append, List.countP_cons]

theorem hits_le : hits hit i k ≤ k :=
  (List.countP_le_length).trans (Nat.le_of_eq List.length_range')

theorem hits_mono {k' : ℕ} (h : k ≤ k') : hits hit i k ≤ hits hit i k' := by
  induction h with
  | refl => exact Nat.le_refl _
  | step _ ih =>
      rw [hits_concat]
      omega

theorem hits_congr {hit' : ℕ → Bool} (h : ∀ l, i ≤ l → l < i + k → hit l = hit' l) :
    hits hit i k = hits hit' i k :=
  List.countP_congr fun l hl => by
    obtain ⟨hl, hlk⟩ := List.mem_range'_1.mp hl
    rw [h l hl hlk]

theorem hits_eq_zero : hits hit i k = 0 ↔ ∀ l, i ≤ l → l < i + k → hit l = false := by
  simp only [hits, List.countP_eq_zero, List.mem_range'_1, and_imp, Bool.not_eq_true]

theorem visited_iff (hN : i + k = N) : Visited hit N extra i ↔ hits hit i k + extra ≠ 0 := by
  have hzero : (¬∃ l, i ≤ l ∧ l < N ∧ hit l) ↔ hits hit i k = 0 := by
    rw [hits_eq_zero, hN]
    simp
  unfold Visited
  by_cases hhits : hits hit i k = 0
  · simp [hzero.mpr hhits, hhits]
  · simp [not_not.mp (mt hzero.mp hhits), hhits]

theorem visited_congr {hit' : ℕ → Bool} {j : ℕ} (h : ∀ l, j ≤ l → l < N → hit l = hit' l) :
    Visited hit N extra j ↔ Visited hit' N extra j := by
  refine or_congr_right (exists_congr fun l => ?_)
  constructor
  · rintro ⟨hl, hlN, hhit⟩
    exact ⟨hl, hlN, h l hl hlN ▸ hhit⟩
  · rintro ⟨hl, hlN, hhit⟩
    exact ⟨hl, hlN, (h l hl hlN).symm ▸ hhit⟩

/-- The loop gets through if its body does at every place it visits, and stops behind the last
hit. -/
theorem scan_inv (hvisit : ∀ i s, i < N → Inv i s → Ok i →
      ∃ s', visit i s = some (s', hit i) ∧ Inv (i + 1) s')
    (hN : i + k = N) (hs : Inv i s) (hok : ∀ j, i ≤ j → j < N → Visited hit N extra j → Ok j) :
    ∃ s' m, scan visit k i (hits hit i k + extra) s = some s' ∧ Inv m s' ∧ i ≤ m ∧ m ≤ N ∧
      ∀ l, m ≤ l → l < N → hit l = false := by
  induction k generalizing i s with
  | zero => exact ⟨s, i, rfl, hs, Nat.le_refl i, by omega, fun l hl hlN => by omega⟩
  | succ k ih =>
      rw [scan]
      by_cases hstop : hits hit i (k + 1) + extra = 0
      · have hzero : hits hit i (k + 1) = 0 := by omega
        exact ⟨s, i, if_pos hstop, hs, Nat.le_refl i, by omega, hN ▸ hits_eq_zero.mp hzero⟩
      · have hvis : Visited hit N extra i := (visited_iff hN).mpr hstop
        obtain ⟨s₁, hbody, hs₁⟩ := hvisit i s (by omega) hs (hok i (Nat.le_refl i) (by omega) hvis)
        obtain ⟨s', m, hscan, hm, him, hmN, hlast⟩ :=
          ih (by omega) hs₁ fun j hj => hok j (Nat.le_of_succ_le hj)
        refine ⟨s', m, ?_, hm, by omega, hmN, hlast⟩
        rw [if_neg hstop, hbody, Option.bind_some, hits_rest]
        exact hscan

/-- What the body keeps, the loop keeps, wherever it stops. -/
theorem scan_keeps {nready : ℕ} (hvisit : ∀ i s, i < N → Inv i s →
      ∃ s' b, visit i s = some (s', b) ∧ Inv (i + 1) s') (hN : i + k = N) (hs : Inv i s) :
    ∃ s' m, scan visit k i nready s = some s' ∧ Inv m s' := by
  induction k generalizing i nready s with
  | zero => exact ⟨s, i, rfl, hs⟩
  | succ k ih =>
      rw [scan]
      split
      · exact ⟨s, i, rfl, hs⟩
      · obtain ⟨s₁, b, hbody, hs₁⟩ := hvisit i s (by omega) hs
        rw [hbody, Option.bind_some]
        exact ih (by omega) hs₁

/-- The loop gets through if and only if its body does at every place it visits. -/
theorem scan_some_iff (hvisit : ∀ i s, i < N → Inv i s → Ok i →
      ∃ s', visit i s = some (s', hit i) ∧ Inv (i + 1) s')
    (hfail : ∀ i s, i < N → Inv i s → ¬Ok i → visit i s = none)
    (hN : i + k = N) (hs : Inv i s) :
    (scan visit k i (hits hit i k + extra) s).isSome ↔
      ∀ j, i ≤ j → j < N → Visited hit N extra j → Ok j := by
  constructor
  · intro hsome j hij hjN hvis
    induction k generalizing i s with
    | zero => omega
    | succ k ih =>
        rw [scan] at hsome
        have hvis' : Visited hit N extra i :=
          hvis.imp_right fun ⟨l, hl, hlN, hhit⟩ => ⟨l, hij.trans hl, hlN, hhit⟩
        rw [if_neg ((visited_iff hN).mp hvis')] at hsome
        by_cases hok : Ok i
        · obtain ⟨s₁, hbody, hs₁⟩ := hvisit i s (by omega) hs hok
          rw [hbody, Option.bind_some, hits_rest] at hsome
          rcases Nat.eq_or_lt_of_le hij with rfl | hlt
          · exact hok
          · exact ih (by omega) hs₁ hsome hlt
        · rw [hfail i s (by omega) hs hok] at hsome
          cases hsome
  · intro hok
    obtain ⟨s', m, hscan, -⟩ := scan_inv hvisit hN hs hok
    simp [hscan]

end scan

end LuaSys.Lib
