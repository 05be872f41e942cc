import Mathlib.Data.List.Basic
import Mathlib.Tactic.Common

/-!
# Records in a byte stream

A rule that splits the first record off a string, if the string holds a whole one.
The rule must take something off, and it must not look at what follows the record.
From these two facts alone the records of a stream do not depend on how it arrives:
the records of `a ++ b` are those of `a`, then those of what `a` leaves over followed
by `b`.

## Main definitions

* `Framing β ρ` — the rule, with its two properties.
* `Framing.records`, `Framing.tail` — the records of a string and what is left over.

## Main results

* `Framing.records_append`, `Framing.tail_append` — records that arrive in two parts.
* `Framing.next_tail` — no whole record is left over.
-/

namespace LuaSys.Lib

/-- A rule that splits the first record off a string. -/
structure Framing (β ρ : Type*) where
  /-- The first record and the rest, or `none` if the record is not complete. -/
  next : List β → Option (ρ × List β)
  /-- A record has at least one element. -/
  shorter : ∀ {bs : List β} {r : ρ} {rest : List β}, next bs = some (r, rest) →
    rest.length < bs.length
  /-- A complete record stays the same when more arrives. -/
  extend : ∀ {bs : List β} {r : ρ} {rest : List β} (more : List β), next bs = some (r, rest) →
    next (bs ++ more) = some (r, rest ++ more)

namespace Framing

variable {β ρ : Type*}

/-- At most `n` records of a string, and what follows them. -/
def splitFuel (F : Framing β ρ) : ℕ → List β → List ρ × List β
  | 0, bs => ([], bs)
  | n + 1, bs =>
      match F.next bs with
      | none => ([], bs)
      | some (r, rest) => (r :: (F.splitFuel n rest).1, (F.splitFuel n rest).2)

/-- The records of a string, and what is left over: every record takes an element off. -/
def split (F : Framing β ρ) (bs : List β) : List ρ × List β := F.splitFuel bs.length bs

/-- The complete records. -/
def records (F : Framing β ρ) (bs : List β) : List ρ := (F.split bs).1

/-- What follows the last complete record. -/
def tail (F : Framing β ρ) (bs : List β) : List β := (F.split bs).2

variable {F : Framing β ρ} {bs rest : List β} {r : ρ}

theorem splitFuel_of_le {n : ℕ} (h : bs.length ≤ n) : F.splitFuel n bs = F.split bs := by
  induction hlen : bs.length using Nat.strongRecOn generalizing n bs with
  | _ m ih =>
      rw [split, hlen]
      cases hnext : F.next bs with
      | none => cases n <;> cases m <;> simp [splitFuel, hnext]
      | some p =>
          obtain ⟨r, rest⟩ := p
          have hlt := F.shorter hnext
          obtain ⟨n, rfl⟩ : ∃ k, n = k + 1 := ⟨n - 1, by omega⟩
          obtain ⟨m, rfl⟩ : ∃ k, m = k + 1 := ⟨m - 1, by omega⟩
          have h₁ := ih rest.length (by omega) (show rest.length ≤ n by omega) rfl
          have h₂ := ih rest.length (by omega) (show rest.length ≤ m by omega) rfl
          simp only [splitFuel, hnext, h₁, h₂]

theorem split_of_none (h : F.next bs = none) : F.split bs = ([], bs) := by
  rw [split]
  cases bs.length <;> simp [splitFuel, h]

theorem split_of_some (h : F.next bs = some (r, rest)) :
    F.split bs = (r :: (F.split rest).1, (F.split rest).2) := by
  have hlt := F.shorter h
  obtain ⟨n, hn⟩ : ∃ n, bs.length = n + 1 := ⟨bs.length - 1, by omega⟩
  have hrest : F.splitFuel n rest = F.split rest := splitFuel_of_le (by omega)
  rw [split, hn]
  simp only [splitFuel, h, hrest]

theorem records_of_none (h : F.next bs = none) : F.records bs = [] := by
  rw [records, split_of_none h]

theorem tail_of_none (h : F.next bs = none) : F.tail bs = bs := by
  rw [tail, split_of_none h]

theorem records_of_some (h : F.next bs = some (r, rest)) :
    F.records bs = r :: F.records rest := by
  rw [records, split_of_some h, records]

theorem tail_of_some (h : F.next bs = some (r, rest)) : F.tail bs = F.tail rest := by
  rw [tail, split_of_some h, tail]

/-- The induction along the records of a string. -/
theorem record_induction (F : Framing β ρ) {P : List β → Prop}
    (stop : ∀ bs, F.next bs = none → P bs)
    (step : ∀ bs r rest, F.next bs = some (r, rest) → P rest → P bs) (bs : List β) : P bs := by
  induction hn : bs.length using Nat.strongRecOn generalizing bs with
  | _ n ih =>
      cases h : F.next bs with
      | none => exact stop bs h
      | some p =>
          obtain ⟨r, rest⟩ := p
          have hlt := F.shorter h
          exact step bs r rest h (ih rest.length (by omega) rest rfl)

/-- No complete record is left over. -/
theorem next_tail (F : Framing β ρ) (bs : List β) : F.next (F.tail bs) = none := by
  induction bs using F.record_induction with
  | stop bs h => rw [tail_of_none h, h]
  | step bs r rest h ih => rw [tail_of_some h, ih]

/-- The records of a stream that arrives in two parts. -/
theorem records_append (F : Framing β ρ) (a b : List β) :
    F.records (a ++ b) = F.records a ++ F.records (F.tail a ++ b) := by
  induction a using F.record_induction with
  | stop a h => rw [records_of_none h, tail_of_none h, List.nil_append]
  | step a r rest h ih =>
      rw [records_of_some h, tail_of_some h, records_of_some (F.extend b h), ih, List.cons_append]

theorem tail_append (F : Framing β ρ) (a b : List β) :
    F.tail (a ++ b) = F.tail (F.tail a ++ b) := by
  induction a using F.record_induction with
  | stop a h => rw [tail_of_none h]
  | step a r rest h ih => rw [tail_of_some h, tail_of_some (F.extend b h), ih]

end Framing

end LuaSys.Lib
