import LuaSys.Date.Strptime
import Mathlib.Algebra.Group.Nat.Defs
import Mathlib.Data.List.Chain
import Mathlib.Data.List.DropRight
import Mathlib.Data.List.GetD
import Mathlib.Tactic.Linarith

/-!
# Printing a date and reading it again

`sys.date` prints a time by a format, with `strftime` of the library, and `sys.time` reads it by
the same format.  Every conversion reads what it has printed, but not every format gives the time
back:

* `%a` and `%b` print a short name, and the long one is read if the rest of it follows;
* `%y` leaves the century out, and the years from 1969 to 2068 are read;
* `%p` adds to the hour that is there, so it has to come behind `%I`, and not behind `%H`.

Under these conditions each field that the format has is read as it was, in whatever order and
however often the fields come.  With tables it is nearly the same: a field with the value -1 is left
out of the table.

## Main definitions

* `TimeConv`, `TimeGroup`, `TimeItem` — the items of such a format.
* `strftime`, `fmtText` — the text that is printed, and the format.
* `clock` — the order of `%H`, `%I` and `%p`.
* `separated` — no letter follows a short name.
* `restore` — the fields of the format as they were.
* `sysDate`, `sysTime`, `dateTable`, `timeOfTable` — `sys.date` and `sys.time`.

## Main results

* `strptime_strftime` — `strptime` reads what `strftime` prints.
* `sysTime_sysDate` — the date and the time of day come back.
* `strptime_clearedTm` — `mktime` gets fields in their ranges.
* `timeOfTable_dateTable` — what a table gives back.
-/

namespace LuaSys.Date

open LuaSys.Lib

/-! ## The format -/

/-- The conversions of single fields. -/
inductive TimeConv
  | dayName
  | dayAbbr
  | monName
  | monAbbr
  | mday
  | hour
  | hour12
  | yday
  | min
  | mon
  | meridiem
  | sec
  | wday
  | year2
  | year
  deriving DecidableEq, Repr

/-- The letter of a conversion. -/
def TimeConv.letter : TimeConv → Char
  | .dayName => 'A'
  | .dayAbbr => 'a'
  | .monName => 'B'
  | .monAbbr => 'b'
  | .mday => 'd'
  | .hour => 'H'
  | .hour12 => 'I'
  | .yday => 'j'
  | .min => 'M'
  | .mon => 'm'
  | .meridiem => 'p'
  | .sec => 'S'
  | .wday => 'w'
  | .year2 => 'y'
  | .year => 'Y'

/-- The conversions that stand for a format. -/
inductive TimeGroup
  | D
  | F
  | R
  | r
  | T
  deriving DecidableEq, Repr

/-- An item of a format. -/
inductive TimeItem
  | text (c : Char) (hspace : isspace c = false) (hpercent : c ≠ '%') (hnull : c ≠ '\x00')
  | space (c : Char) (hspace : isspace c = true)
  /-- `%%`. -/
  | percent
  | conv (k : TimeConv)
  | group (g : TimeGroup)

def TimeGroup.letter : TimeGroup → Char
  | .D => 'D'
  | .F => 'F'
  | .R => 'R'
  | .r => 'r'
  | .T => 'T'

/-- A character between the fields of a group. -/
def slash : TimeItem := .text '/' (by decide) (by decide) (by decide)

def colon : TimeItem := .text ':' (by decide) (by decide) (by decide)

def hyphen : TimeItem := .text '-' (by decide) (by decide) (by decide)

def blank : TimeItem := .space ' ' (by decide)

/-- The format that a group stands for. -/
def TimeGroup.items : TimeGroup → List TimeItem
  | .D => [.conv .mon, slash, .conv .mday, slash, .conv .year2]
  | .F => [.conv .year, hyphen, .conv .mon, hyphen, .conv .mday]
  | .R => [.conv .hour, colon, .conv .min]
  | .r => [.conv .hour12, colon, .conv .min, colon, .conv .sec, blank, .conv .meridiem]
  | .T => [.conv .hour, colon, .conv .min, colon, .conv .sec]

/-- The text of the item in the format. -/
def TimeItem.fmtText : TimeItem → List Char
  | .text c _ _ _ => [c]
  | .space c _ => [c]
  | .percent => ['%', '%']
  | .conv k => ['%', k.letter]
  | .group g => ['%', g.letter]

/-- The format. -/
def fmtText (items : List TimeItem) : List Char := items.flatMap TimeItem.fmtText

/-- The item as `strptime` comes to it. -/
def TimeItem.fmtItem : TimeItem → FmtItem
  | .text c _ _ _ => .literal c
  | .space _ _ => .space
  | .percent => .conv none '%'
  | .conv k => .conv none k.letter
  | .group g => .conv none g.letter

theorem lex_fmtText (items : List TimeItem) : lex (fmtText items) = items.map TimeItem.fmtItem := by
  induction items with
  | nil => rfl
  | cons i items ih =>
      rw [fmtText, List.flatMap_cons, ← fmtText, List.map_cons, ← ih]
      cases i with
      | text c hspace hpercent _ =>
          simp [TimeItem.fmtText, TimeItem.fmtItem, lex, lexFrom, hspace, hpercent]
      | space c hspace => simp [TimeItem.fmtText, TimeItem.fmtItem, lex, lexFrom, hspace]
      | percent => rfl
      | conv k => cases k <;> rfl
      | group g => cases g <;> rfl

/-! ## The text -/

/-- A number with a fixed number of digits. -/
def digits : ℕ → ℕ → List Char
  | 0, _ => []
  | w + 1, v => Char.ofNat (48 + v / 10 ^ w % 10) :: digits w v

/-- `strftime`, one conversion. -/
def TimeConv.print (tm : Tm) : TimeConv → List Char
  | .dayName => day.getD tm.wday.toNat []
  | .dayAbbr => abday.getD tm.wday.toNat []
  | .monName => LuaSys.Date.mon.getD tm.mon.toNat []
  | .monAbbr => abmon.getD tm.mon.toNat []
  | .mday => digits 2 tm.mday.toNat
  | .hour => digits 2 tm.hour.toNat
  | .hour12 => digits 2 (if tm.hour % 12 = 0 then 12 else (tm.hour % 12).toNat)
  | .yday => digits 3 (tm.yday + 1).toNat
  | .min => digits 2 tm.min.toNat
  | .mon => digits 2 (tm.mon + 1).toNat
  | .meridiem => if tm.hour < 12 then ['A', 'M'] else ['P', 'M']
  | .sec => digits 2 tm.sec.toNat
  | .wday => digits 1 tm.wday.toNat
  | .year2 => digits 2 (tm.year % 100).toNat
  | .year => digits 4 (tm.year + 1900).toNat

/-- The same, for an item that is no group. -/
def TimeItem.printPlain (tm : Tm) : TimeItem → List Char
  | .text c _ _ _ => [c]
  | .space c _ => [c]
  | .percent => ['%']
  | .conv k => k.print tm
  | .group _ => []

def TimeItem.print (tm : Tm) : TimeItem → List Char
  | .group g => g.items.flatMap (TimeItem.printPlain tm)
  | i => i.printPlain tm

/-- `strftime`, for the locale "C". -/
def strftime (items : List TimeItem) (tm : Tm) : List Char := items.flatMap (TimeItem.print tm)

/-! ## Numbers -/

section
variable {w v llim ulim : ℕ} {rest : List Char}

theorem isdigit_digit {d : ℕ} (h : d < 10) : isdigit (Char.ofNat (48 + d)) = true := by
  have hall : ∀ d < 10, isdigit (Char.ofNat (48 + d)) = true := by decide
  exact hall d h

theorem digitVal_digit {d : ℕ} (h : d < 10) : digitVal (Char.ofNat (48 + d)) = d := by
  have hall : ∀ d < 10, digitVal (Char.ofNat (48 + d)) = d := by decide
  exact hall d h

/-- The loop of `conv_num` over the last `k + 1` digits of `v`. -/
theorem convDigits_digits {k rulim : ℕ} (hv : v ≤ ulim) (hlast : ulim / 10 ^ w = 0)
    (hmore : ulim / 10 ^ (w - 1) ≠ 0) (hk : k < w) (hrulim : rulim = ulim / 10 ^ (w - 1 - k)) :
    convDigits ulim (v / 10 ^ (k + 1)) rulim (Char.ofNat (48 + v / 10 ^ k % 10))
      (digits k v ++ rest) = (v, rest) := by
  have hdigit : v / 10 ^ (k + 1) * 10 + digitVal (Char.ofNat (48 + v / 10 ^ k % 10)) =
      v / 10 ^ k := by
    rw [digitVal_digit (Nat.mod_lt _ (by decide)), Nat.pow_succ, ← Nat.div_div_eq_div_mul]
    omega
  induction k generalizing rulim with
  | zero =>
      have hzero : rulim / 10 = 0 := by
        rw [hrulim, Nat.div_div_eq_div_mul, ← Nat.pow_succ, show (w - 1 - 0).succ = w by omega,
          hlast]
      rw [digits, List.nil_append]
      cases rest with
      | nil => rw [convDigits, hdigit, Nat.pow_zero, Nat.div_one]
      | cons c rest =>
          rw [convDigits, if_neg fun h => h.2.1 hzero, hdigit, Nat.pow_zero, Nat.div_one]
  | succ k ih =>
      have hnext : rulim / 10 = ulim / 10 ^ (w - 1 - k) := by
        rw [hrulim, Nat.div_div_eq_div_mul, ← Nat.pow_succ,
          show (w - 1 - (k + 1)).succ = w - 1 - k by omega]
      have hne : rulim / 10 ≠ 0 := by
        intro hzero
        have hle : ulim / 10 ^ (w - 1) ≤ ulim / 10 ^ (w - 1 - k) :=
          Nat.div_le_div_left (Nat.pow_le_pow_right (by decide) (Nat.sub_le _ _))
            (Nat.pow_pos (by decide))
        rw [← hnext, hzero] at hle
        exact hmore (Nat.eq_zero_of_le_zero hle)
      have hle : v / 10 ^ (k + 1) * 10 ≤ ulim := by
        rw [Nat.pow_succ, ← Nat.div_div_eq_div_mul]
        have hdiv : v / 10 ^ k ≤ v := Nat.div_le_self _ _
        omega
      rw [digits, List.cons_append, convDigits, hdigit,
        if_pos ⟨hle, hne, isdigit_digit (Nat.mod_lt _ (by decide))⟩]
      refine ih (by omega) hnext ?_
      rw [digitVal_digit (Nat.mod_lt _ (by decide)), Nat.pow_succ, ← Nat.div_div_eq_div_mul]
      omega

/-- A number that is printed with all its digits is read. -/
theorem convNum_digits (hw : w ≠ 0) (hlow : llim ≤ v) (hhigh : v ≤ ulim) (hlast : ulim / 10 ^ w = 0)
    (hmore : ulim / 10 ^ (w - 1) ≠ 0) :
    convNum (digits w v ++ rest) llim ulim = some (v, rest) := by
  obtain ⟨k, rfl⟩ := Nat.exists_eq_succ_of_ne_zero hw
  have hzero : v / 10 ^ (k + 1) = 0 :=
    Nat.eq_zero_of_le_zero (hlast ▸ Nat.div_le_div_right hhigh)
  have hdigits : convDigits ulim (v / 10 ^ (k + 1)) ulim (Char.ofNat (48 + v / 10 ^ k % 10))
      (digits k v ++ rest) = (v, rest) :=
    convDigits_digits hhigh hlast hmore (Nat.lt_succ_self k) (by simp)
  rw [hzero] at hdigits
  rw [digits, List.cons_append, convNum, if_pos (isdigit_digit (Nat.mod_lt _ (by decide)))]
  dsimp only
  rw [hdigits, if_neg (by dsimp only; omega)]

end

/-! ## Names -/

/-- `isalpha`. -/
def isalpha (c : Char) : Bool := 'a' ≤ c.toLower ∧ c.toLower ≤ 'z'

/-- The text does not begin with a letter. -/
def NoLetter (rest : List Char) : Prop := ∀ c ∈ rest.head?, isalpha c = false

section
variable {name s rest : List Char} {names n1 n2 : List (List Char)}

theorem matchesName_iff :
    matchesName name s = true ↔ (s.take name.length).map Char.toLower = name.map Char.toLower :=
  decide_eq_true_iff

theorem length_le_of_matchesName (h : matchesName name s = true) : name.length ≤ s.length := by
  have hlen := congrArg List.length (matchesName_iff.mp h)
  rw [List.length_map, List.length_map, List.length_take] at hlen
  omega

/-- What follows a text does not matter if the name is not longer. -/
theorem matchesName_append_of_le (h : name.length ≤ s.length) :
    matchesName name (s ++ rest) = matchesName name s := by
  rw [matchesName, matchesName, List.take_append_of_le_length h]

/-- It does not matter either if the name begins in another way. -/
theorem matchesName_append_of_take (h : matchesName (name.take s.length) s = false)
    (hlt : s.length < name.length) : matchesName name (s ++ rest) = matchesName name s := by
  have hshort : matchesName name s = false := by
    by_contra hne
    have hle := length_le_of_matchesName (Bool.not_eq_false _ ▸ hne)
    omega
  rw [hshort]
  by_contra hne
  have hmatch := congrArg (List.take s.length) (matchesName_iff.mp (Bool.not_eq_false _ ▸ hne))
  rw [← List.map_take, ← List.map_take, List.take_take, Nat.min_eq_left (Nat.le_of_lt hlt),
    List.take_left] at hmatch
  refine Bool.false_ne_true (h.symm.trans (matchesName_iff.mpr ?_))
  rw [List.length_take, Nat.min_eq_left (Nat.le_of_lt hlt), List.take_length, hmatch]

/-- Nor if it goes on with a letter and the text does not. -/
theorem matchesName_append_of_noLetter (hname : name.all isalpha = true) (hrest : NoLetter rest) :
    matchesName name (s ++ rest) = matchesName name s := by
  by_cases hle : name.length ≤ s.length
  · exact matchesName_append_of_le hle
  · have hlt : s.length < name.length := Nat.lt_of_not_le hle
    have hshort : matchesName name s = false := by
      by_contra hne
      exact hle (length_le_of_matchesName (Bool.not_eq_false _ ▸ hne))
    rw [hshort]
    by_contra hne
    have hmatch := matchesName_iff.mp (Bool.not_eq_false _ ▸ hne)
    have hlen := length_le_of_matchesName (Bool.not_eq_false _ ▸ hne)
    cases rest with
    | nil =>
        rw [List.append_nil] at hlen
        exact hle hlen
    | cons c rest =>
        have hget := congrArg (fun l => l[s.length]?) hmatch
        simp only [List.getElem?_map, List.getElem?_take, hlt, if_true,
          List.getElem?_append_right (Nat.le_refl _), Nat.sub_self, List.getElem?_cons_zero,
          Option.map_some, List.getElem?_eq_getElem hlt] at hget
        have hletter : isalpha name[s.length] = true :=
          List.all_eq_true.mp hname _ (List.getElem_mem hlt)
        have hc : isalpha c = false := hrest c rfl
        rw [isalpha, ← Option.some.inj hget, ← isalpha, hc] at hletter
        cases hletter

theorem findName_append {i : ℕ}
    (h : ∀ name ∈ names, matchesName name (s ++ rest) = matchesName name s) :
    findName (s ++ rest) i names = (findName s i names).map fun r => (r.1, r.2 ++ rest) := by
  induction names generalizing i with
  | nil => rfl
  | cons name names ih =>
      rw [findName, findName, h name List.mem_cons_self]
      split
      next hmatch =>
        rw [Option.map_some, List.drop_append_of_le_length (length_le_of_matchesName hmatch)]
      next => exact ih fun name' hmem => h name' (List.mem_cons_of_mem name hmem)

/-- A name is found before other text. -/
theorem findString_append
    (h : ∀ name ∈ n1 ++ n2, matchesName name (s ++ rest) = matchesName name s) :
    findString (s ++ rest) n1 n2 = (findString s n1 n2).map fun r => (r.1, r.2 ++ rest) := by
  rw [findString, findString,
    findName_append fun name hmem => h name (List.mem_append_left n2 hmem),
    findName_append fun name hmem => h name (List.mem_append_right n1 hmem)]
  cases findName s 0 n1 <;> rfl

/-- A long name is found whatever follows. -/
theorem findString_long (hall : ∀ name ∈ n1 ++ n2, name.length ≤ s.length ∨
      s.length < name.length ∧ matchesName (name.take s.length) s = false) :
    findString (s ++ rest) n1 n2 = (findString s n1 n2).map fun r => (r.1, r.2 ++ rest) := by
  refine findString_append fun name hmem => ?_
  rcases hall name hmem with hle | ⟨hlt, htake⟩
  · exact matchesName_append_of_le hle
  · exact matchesName_append_of_take htake hlt

/-- A short name is found if no letter follows. -/
theorem findString_short (hall : ∀ name ∈ n1 ++ n2, name.all isalpha = true)
    (hrest : NoLetter rest) :
    findString (s ++ rest) n1 n2 = (findString s n1 n2).map fun r => (r.1, r.2 ++ rest) :=
  findString_append fun name hmem => matchesName_append_of_noLetter (hall name hmem) hrest

theorem findString_dayName {i : ℕ} (hi : i < 7) :
    findString (day.getD i [] ++ rest) day abday = some (i, rest) := by
  have hall : ∀ i < 7, ∀ name ∈ day ++ abday, name.length ≤ (day.getD i []).length ∨
      (day.getD i []).length < name.length ∧
        matchesName (name.take (day.getD i []).length) (day.getD i []) = false := by decide
  have hfound : ∀ i < 7, findString (day.getD i []) day abday = some (i, []) := by decide
  rw [findString_long (hall i hi), hfound i hi]
  rfl

theorem findString_dayAbbr {i : ℕ} (hi : i < 7) (hrest : NoLetter rest) :
    findString (abday.getD i [] ++ rest) day abday = some (i, rest) := by
  have hfound : ∀ i < 7, findString (abday.getD i []) day abday = some (i, []) := by decide
  rw [findString_short (by decide) hrest, hfound i hi]
  rfl

theorem findString_monName {i : ℕ} (hi : i < 12) :
    findString (mon.getD i [] ++ rest) mon abmon = some (i, rest) := by
  have hall : ∀ i < 12, ∀ name ∈ mon ++ abmon, name.length ≤ (mon.getD i []).length ∨
      (mon.getD i []).length < name.length ∧
        matchesName (name.take (mon.getD i []).length) (mon.getD i []) = false := by decide
  have hfound : ∀ i < 12, findString (mon.getD i []) mon abmon = some (i, []) := by decide
  rw [findString_long (hall i hi), hfound i hi]
  rfl

theorem findString_monAbbr {i : ℕ} (hi : i < 12) (hrest : NoLetter rest) :
    findString (abmon.getD i [] ++ rest) mon abmon = some (i, rest) := by
  have hfound : ∀ i < 12, findString (abmon.getD i []) mon abmon = some (i, []) := by decide
  rw [findString_short (by decide) hrest, hfound i hi]
  rfl

theorem findString_am : findString (['A', 'M'] ++ rest) amPm [] = some (0, rest) := rfl

theorem findString_pm : findString (['P', 'M'] ++ rest) amPm [] = some (1, rest) := rfl

end

/-! ## One conversion -/

/-- The times that are printed. -/
structure Tm.Valid (tm : Tm) : Prop extends tm.InRange where
  mday_pos : 1 ≤ tm.mday
  year_low : -900 ≤ tm.year
  year_high : tm.year ≤ 8099

/-- What is read of a conversion. -/
def TimeConv.read (tm cur : Tm) : TimeConv → Tm
  | .dayName | .dayAbbr | .wday => { cur with wday := tm.wday }
  | .monName | .monAbbr | .mon => { cur with mon := tm.mon }
  | .mday => { cur with mday := tm.mday }
  | .hour | .meridiem => { cur with hour := tm.hour }
  | .hour12 => { cur with hour := tm.hour % 12 }
  | .yday => { cur with yday := tm.yday }
  | .min => { cur with min := tm.min }
  | .sec => { cur with sec := tm.sec }
  | .year2 | .year => { cur with year := tm.year }

/-- A conversion of a short name. -/
def TimeConv.isAbbr : TimeConv → Bool
  | .dayAbbr | .monAbbr => true
  | _ => false

section
variable {tzname : Option (List (List Char))} {tm cur : Tm} {rest : List Char} {split : Bool}
variable {recurse : List Char → List Char → Tm → Except ParseFail (List Char × Tm)}

theorem convert_number {c : Char} {legal : List Alt} {w v llim ulim : ℕ}
    {set : Tm → Bool → ℤ → Tm × Bool} {tm' : Tm} {split' : Bool}
    (hc : conversion c = some ⟨legal, .number llim ulim set⟩) (hlow : llim ≤ v) (hhigh : v ≤ ulim)
    (hw : w ≠ 0 ∧ ulim / 10 ^ w = 0 ∧ ulim / 10 ^ (w - 1) ≠ 0)
    (hset : set cur split v = (tm', split')) :
    convert tzname recurse ⟨digits w v ++ rest, cur, split⟩ (.conv none c) =
      .ok ⟨rest, tm', split'⟩ := by
  rw [convert, hc]
  dsimp only
  rw [perform]
  dsimp only
  rw [convNum_digits hw.1 hlow hhigh hw.2.1 hw.2.2, Option.map_some, hset]
  rfl

theorem convert_names {c : Char} {legal : List Alt} {n1 n2 : List (List Char)} {name : List Char}
    {i : ℕ} {set : Tm → ℤ → Tm} {tm' : Tm} (hc : conversion c = some ⟨legal, .names n1 n2 set⟩)
    (hfound : findString (name ++ rest) n1 n2 = some (i, rest)) (hset : set cur i = tm') :
    convert tzname recurse ⟨name ++ rest, cur, split⟩ (.conv none c) =
      .ok ⟨rest, tm', split⟩ := by
  rw [convert, hc]
  dsimp only
  rw [perform]
  dsimp only
  rw [hfound, Option.map_some, hset]
  rfl

theorem convert_meridiem {name : List Char} {i : ℕ} {hour : ℤ}
    (hfound : findString (name ++ rest) amPm [] = some (i, rest)) (hlow : ¬ 11 < cur.hour)
    (hsum : cur.hour + i * 12 = hour) :
    convert tzname recurse ⟨name ++ rest, cur, split⟩ (.conv none 'p') =
      .ok ⟨rest, { cur with hour := hour }, split⟩ := by
  have hc : conversion 'p' = some ⟨[], .meridiem⟩ := rfl
  rw [convert, hc]
  dsimp only
  rw [perform]
  dsimp only
  rw [hfound, Option.bind_some, if_neg hlow, hsum]
  rfl

/-- The two digits of a year from 1969 to 2068. -/
theorem setYear_eq (hlow : 69 ≤ tm.year) (hhigh : tm.year ≤ 168)
    (hsplit : split = true → cur.year = tm.year) :
    setYear cur split (tm.year % 100).toNat = ({ cur with year := tm.year }, true) := by
  cases split with
  | true =>
      have hyear := hsplit rfl
      have hdiv : cur.year.tdiv 100 = tm.year / 100 := by
        rw [hyear, Int.tdiv_eq_ediv_of_nonneg (by omega)]
      have hsum : (((tm.year % 100).toNat : ℕ) : ℤ) + cur.year.tdiv 100 * 100 = tm.year := by
        rw [hdiv]
        omega
      rw [setYear, if_pos rfl, hsum]
  | false =>
      have hsum : (if (((tm.year % 100).toNat : ℕ) : ℤ) ≤ 68
          then (((tm.year % 100).toNat : ℕ) : ℤ) + 2000 - TM_YEAR_BASE
          else (((tm.year % 100).toNat : ℕ) : ℤ) + 1900 - TM_YEAR_BASE) = tm.year := by
        rw [TM_YEAR_BASE]
        split <;> omega
      rw [setYear, if_neg Bool.false_ne_true, hsum]

/-- **A conversion reads what it has printed.** -/
theorem convert_conv (k : TimeConv) (htm : tm.Valid)
    (hyear : k = .year2 → (69 ≤ tm.year ∧ tm.year ≤ 168) ∧ (split = true → cur.year = tm.year))
    (hhour : k = .meridiem → cur.hour = tm.hour % 12)
    (hrest : k.isAbbr = true → NoLetter rest) :
    convert tzname recurse ⟨k.print tm ++ rest, cur, split⟩ (.conv none k.letter) =
      .ok ⟨rest, k.read tm cur, split || k = .year2⟩ := by
  obtain ⟨⟨hsec, hmin, hhour', hmday, hmon, hwday, hyday⟩, hmday', hyear', hyear''⟩ := htm
  have hfalse : ∀ k', k' ≠ TimeConv.year2 → (split || decide (k' = .year2)) = split := by
    intro k' hk'
    rw [decide_eq_false hk', Bool.or_false]
  have hfield : ∀ {f f' : Tm}, f = f' → (f, split) = (f', split || false) := by
    rintro f _ rfl
    rw [Bool.or_false]
  cases k with
  | dayName =>
      rw [hfalse .dayName (by decide)]
      refine convert_names rfl (findString_dayName (by omega)) ?_
      rw [Int.toNat_of_nonneg hwday.1, TimeConv.read]
  | dayAbbr =>
      rw [hfalse .dayAbbr (by decide)]
      refine convert_names rfl (findString_dayAbbr (by omega) (hrest rfl)) ?_
      rw [Int.toNat_of_nonneg hwday.1, TimeConv.read]
  | monName =>
      rw [hfalse .monName (by decide)]
      refine convert_names rfl (findString_monName (by omega)) ?_
      rw [Int.toNat_of_nonneg hmon.1, TimeConv.read]
  | monAbbr =>
      rw [hfalse .monAbbr (by decide)]
      refine convert_names rfl (findString_monAbbr (by omega) (hrest rfl)) ?_
      rw [Int.toNat_of_nonneg hmon.1, TimeConv.read]
  | mday =>
      refine convert_number rfl (by omega) (by omega) (by decide) (hfield ?_)
      rw [Int.toNat_of_nonneg hmday.1, TimeConv.read]
  | hour =>
      refine convert_number rfl (by omega) (by omega) (by decide) (hfield ?_)
      rw [Int.toNat_of_nonneg hhour'.1, TimeConv.read]
  | hour12 =>
      have hle : (if tm.hour % 12 = 0 then 12 else (tm.hour % 12).toNat) ≤ 12 := by
        split <;> omega
      have hge : 1 ≤ (if tm.hour % 12 = 0 then 12 else (tm.hour % 12).toNat) := by
        split <;> omega
      have hhour12 : (if (((if tm.hour % 12 = 0 then 12 else (tm.hour % 12).toNat : ℕ)) : ℤ) = 12
          then (0 : ℤ) else ((if tm.hour % 12 = 0 then 12 else (tm.hour % 12).toNat : ℕ) : ℤ)) =
            tm.hour % 12 := by
        split <;> split at * <;> omega
      refine convert_number rfl hge hle (by decide) (hfield ?_)
      dsimp only
      rw [hhour12, TimeConv.read]
  | yday =>
      refine convert_number rfl (by omega) (by omega) (by decide) (hfield ?_)
      dsimp only
      rw [Int.toNat_of_nonneg (by omega), Int.add_sub_cancel, TimeConv.read]
  | min =>
      refine convert_number rfl (by omega) (by omega) (by decide) (hfield ?_)
      rw [Int.toNat_of_nonneg hmin.1, TimeConv.read]
  | mon =>
      refine convert_number rfl (by omega) (by omega) (by decide) (hfield ?_)
      dsimp only
      rw [Int.toNat_of_nonneg (by omega), Int.add_sub_cancel, TimeConv.read]
  | meridiem =>
      rw [hfalse .meridiem (by decide), TimeConv.read]
      have hlow : ¬ 11 < cur.hour := by
        rw [hhour rfl]
        omega
      by_cases ham : tm.hour < 12
      · have hsum : cur.hour + ((0 : ℕ) : ℤ) * 12 = tm.hour := by
          rw [hhour rfl]
          omega
        rw [TimeConv.print, if_pos ham]
        exact convert_meridiem findString_am hlow hsum
      · have hsum : cur.hour + ((1 : ℕ) : ℤ) * 12 = tm.hour := by
          rw [hhour rfl]
          omega
        rw [TimeConv.print, if_neg ham]
        exact convert_meridiem findString_pm hlow hsum
  | sec =>
      refine convert_number rfl (by omega) (by omega) (by decide) (hfield ?_)
      rw [Int.toNat_of_nonneg hsec.1, TimeConv.read]
  | wday =>
      refine convert_number rfl (by omega) (by omega) (by decide) (hfield ?_)
      rw [Int.toNat_of_nonneg hwday.1, TimeConv.read]
  | year2 =>
      obtain ⟨⟨hlow, hhigh⟩, hsplit⟩ := hyear rfl
      refine convert_number rfl (by omega) (by omega) (by decide) ?_
      rw [setYear_eq hlow hhigh hsplit, TimeConv.read, decide_eq_true rfl, Bool.or_true]
  | year =>
      refine convert_number rfl (by omega) (by omega) (by decide) (hfield ?_)
      dsimp only
      rw [Int.toNat_of_nonneg (by omega), TM_YEAR_BASE, Int.add_sub_cancel, TimeConv.read]

end

/-! ## All of a format -/

/-- A field of `struct tm` that a conversion sets. -/
inductive TmField
  | sec
  | min
  | hour
  | mday
  | mon
  | year
  | wday
  | yday
  deriving DecidableEq, Repr

def Tm.get (tm : Tm) : TmField → ℤ
  | .sec => tm.sec
  | .min => tm.min
  | .hour => tm.hour
  | .mday => tm.mday
  | .mon => tm.mon
  | .year => tm.year
  | .wday => tm.wday
  | .yday => tm.yday

def TimeConv.field : TimeConv → TmField
  | .dayName | .dayAbbr | .wday => .wday
  | .monName | .monAbbr | .mon => .mon
  | .mday => .mday
  | .hour | .hour12 | .meridiem => .hour
  | .yday => .yday
  | .min => .min
  | .sec => .sec
  | .year2 | .year => .year

/-- The conversions of an item that is no group. -/
def TimeItem.convsPlain : TimeItem → List TimeConv
  | .conv k => [k]
  | _ => []

def TimeItem.convs : TimeItem → List TimeConv
  | .group g => g.items.flatMap TimeItem.convsPlain
  | i => i.convsPlain

/-- The conversions of a format, with those of its groups. -/
def convs (items : List TimeItem) : List TimeConv := items.flatMap TimeItem.convs

/-- The order of `%H`, `%I` and `%p`.  The flag says that the hour is one of the first twelve, so
that `%p` has to follow; without it `%p` is not allowed. -/
def clock (pending : Bool) : TimeConv → Option Bool
  | .hour => some false
  | .hour12 => some true
  | .meridiem => if pending then some false else none
  | _ => some pending

/-- The text of the item begins with a letter. -/
def TimeItem.startsAlpha : TimeItem → Bool
  | .text c _ _ _ => isalpha c
  | .conv k => k ∈ [.dayName, .dayAbbr, .monName, .monAbbr, .meridiem]
  | _ => false

/-- The item is a short name. -/
def TimeItem.isAbbr : TimeItem → Bool
  | .conv k => k.isAbbr
  | _ => false

/-- No letter follows a short name. -/
def separated (items : List TimeItem) : Prop :=
  items.IsChain fun i j => i.isAbbr = true → j.startsAlpha = false

instance (items : List TimeItem) : Decidable (separated items) :=
  inferInstanceAs (Decidable (List.IsChain _ items))

/-- The fields of the list as they were, and the others as they are. -/
def restore (fields : List TmField) (tm cur : Tm) : Tm where
  sec := if .sec ∈ fields then tm.sec else cur.sec
  min := if .min ∈ fields then tm.min else cur.min
  hour := if .hour ∈ fields then tm.hour else cur.hour
  mday := if .mday ∈ fields then tm.mday else cur.mday
  mon := if .mon ∈ fields then tm.mon else cur.mon
  year := if .year ∈ fields then tm.year else cur.year
  wday := if .wday ∈ fields then tm.wday else cur.wday
  yday := if .yday ∈ fields then tm.yday else cur.yday
  isdst := cur.isdst

/-- The white space in front may be skipped already. -/
def Skipped (text b : List Char) : Prop := b = text ∨ b = text.dropWhile isspace

/-- What is known of the time while it is read: the year if the two digits of it were read, and the
hour if `%p` has to follow. -/
structure InStep (tm cur : Tm) (split pending : Bool) : Prop where
  year : split = true → cur.year = tm.year
  hour : pending = true → cur.hour = tm.hour % 12

section
variable {tm cur : Tm} {split pending pending' : Bool} {ks : List TimeConv} {text b : List Char}

theorem InStep.read {k : TimeConv} (h : InStep tm cur split pending)
    (hclock : clock pending k = some pending') :
    InStep tm (k.read tm cur) (split || k = .year2) pending' := by
  cases k <;> simp only [clock, Option.some.injEq, Option.ite_none_right_eq_some] at hclock <;>
    constructor <;> intro hflag <;> simp_all [TimeConv.read, h.year, h.hour]

theorem InStep.foldl (h : InStep tm cur split pending)
    (hclock : ks.foldlM clock pending = some pending') :
    InStep tm (ks.foldl (TimeConv.read tm) cur) split pending' := by
  induction ks generalizing cur pending with
  | nil =>
      obtain rfl := Option.some.inj hclock
      exact h
  | cons k ks ih =>
      rw [List.foldlM_cons] at hclock
      obtain ⟨next, hk, hks⟩ := Option.bind_eq_some_iff.mp hclock
      have hread := h.read hk
      exact ih ⟨fun hsplit => hread.year (by rw [hsplit, Bool.true_or]), hread.hour⟩ hks

theorem get_read {k : TimeConv} {f : TmField} (h : f ≠ .hour) :
    (k.read tm cur).get f = if k.field = f then tm.get f else cur.get f := by
  cases f with
  | hour => exact absurd rfl h
  | _ => cases k <;> rfl

theorem get_foldl_read {f : TmField} (h : f ≠ .hour) :
    (ks.foldl (TimeConv.read tm) cur).get f =
      if f ∈ ks.map TimeConv.field then tm.get f else cur.get f := by
  induction ks generalizing cur with
  | nil => rfl
  | cons k ks ih =>
      rw [List.foldl_cons, ih, get_read h, List.map_cons]
      by_cases hmem : f ∈ ks.map TimeConv.field
      · rw [if_pos hmem, if_pos (List.mem_cons_of_mem k.field hmem)]
      · by_cases hk : k.field = f
        · rw [if_neg hmem, if_pos hk, if_pos (List.mem_cons.mpr (.inl hk.symm))]
        · have hnot : f ∉ k.field :: ks.map TimeConv.field := by
            rw [List.mem_cons, not_or]
            exact ⟨Ne.symm hk, hmem⟩
          rw [if_neg hmem, if_neg hk, if_neg hnot]

/-- A format without the hour leaves the flag as it is. -/
theorem clock_of_notMem (h : .hour ∉ ks.map TimeConv.field) :
    ks.foldlM clock pending = some pending := by
  induction ks with
  | nil => rfl
  | cons k ks ih =>
      rw [List.map_cons, List.mem_cons, not_or] at h
      have hk : clock pending k = some pending := by
        cases k <;> first | rfl | exact absurd rfl h.1
      rw [List.foldlM_cons, hk]
      exact ih h.2

theorem hour_foldl_read (hclock : ks.foldlM clock pending = some false) :
    (ks.foldl (TimeConv.read tm) cur).hour =
      if .hour ∈ ks.map TimeConv.field then tm.hour else cur.hour := by
  induction ks generalizing cur pending with
  | nil => rfl
  | cons k ks ih =>
      rw [List.foldlM_cons] at hclock
      obtain ⟨next, hk, hks⟩ := Option.bind_eq_some_iff.mp hclock
      rw [List.foldl_cons, ih hks, List.map_cons]
      by_cases hmem : .hour ∈ ks.map TimeConv.field
      · rw [if_pos hmem, if_pos (List.mem_cons_of_mem k.field hmem)]
      · have hnext : next = false :=
          Option.some.inj ((clock_of_notMem hmem).symm.trans hks)
        subst hnext
        rw [if_neg hmem]
        by_cases hfield : k.field = .hour
        · rw [if_pos (List.mem_cons.mpr (.inl hfield.symm))]
          cases k <;> first | rfl | exact Bool.noConfusion (Option.some.inj hk) | cases hfield
        · have hnot : .hour ∉ k.field :: ks.map TimeConv.field := by
            rw [List.mem_cons, not_or]
            exact ⟨Ne.symm hfield, hmem⟩
          rw [if_neg hnot]
          cases k <;> first | rfl | exact absurd rfl hfield

theorem isdst_foldl_read : (ks.foldl (TimeConv.read tm) cur).isdst = cur.isdst := by
  induction ks generalizing cur with
  | nil => rfl
  | cons k ks ih =>
      rw [List.foldl_cons, ih]
      cases k <;> rfl

theorem Tm.ext_get {a b : Tm} (h : ∀ f, a.get f = b.get f) (hisdst : a.isdst = b.isdst) :
    a = b := by
  obtain ⟨_, _, _, _, _, _, _, _, _⟩ := a
  obtain ⟨_, _, _, _, _, _, _, _, _⟩ := b
  obtain rfl := hisdst
  rw [Tm.mk.injEq]
  exact ⟨h .sec, h .min, h .hour, h .mday, h .mon, h .year, h .wday, h .yday, rfl⟩

/-- All the fields of a format are read, if every `%I` has its `%p`. -/
theorem foldl_read (hclock : ks.foldlM clock pending = some false) :
    ks.foldl (TimeConv.read tm) cur = restore (ks.map TimeConv.field) tm cur := by
  refine Tm.ext_get (fun f => ?_) isdst_foldl_read
  by_cases hf : f = .hour
  · subst hf
    exact hour_foldl_read hclock
  · rw [get_foldl_read hf]
    cases f <;> rfl

/-! ### White space -/

theorem dropWhile_of_head {c : Char} {text : List Char} (h : isspace c = false) :
    (c :: text).dropWhile isspace = c :: text :=
  List.dropWhile_cons_of_neg (by rw [h]; exact Bool.false_ne_true)

/-- No white space is skipped in front of other text. -/
theorem Skipped.eq {c : Char} (h : Skipped (c :: text) b) (hc : isspace c = false) :
    b = c :: text := by
  rcases h with h | h
  · exact h
  · rw [h, dropWhile_of_head hc]

theorem Skipped.dropWhile {c : Char} (h : Skipped (c :: text) b) (hc : isspace c = true) :
    b.dropWhile isspace = text.dropWhile isspace := by
  have htext : (c :: text).dropWhile isspace = text.dropWhile isspace :=
    List.dropWhile_cons_of_pos hc
  rcases h with rfl | rfl
  · exact htext
  · rw [htext]
    exact List.dropWhile_idempotent isspace text

/-- A conversion prints a text that does not begin with white space. -/
theorem print_head {k : TimeConv} (htm : tm.Valid) :
    ∃ c text, k.print tm = c :: text ∧ isspace c = false := by
  obtain ⟨⟨hsec, hmin, hhour', hmday, hmon, hwday, hyday⟩, hmday', hyear', hyear''⟩ := htm
  have hdigit : ∀ w v, ∃ c text, digits (w + 1) v = c :: text ∧ isspace c = false := by
    have hall : ∀ d < 10, isspace (Char.ofNat (48 + d)) = false := by decide
    exact fun w v => ⟨_, _, rfl, hall _ (Nat.mod_lt _ (by decide))⟩
  have hname : ∀ (names : List (List Char)) (i : ℕ), i < names.length →
      (names.all fun name => name.head?.any fun c => isspace c = false) = true →
        ∃ c text, names.getD i [] = c :: text ∧ isspace c = false := by
    intro names i hi hall
    have hmem := List.all_eq_true.mp hall _ (List.getElem_mem hi)
    rw [List.getD_eq_getElem _ _ hi]
    cases hname : names[i] with
    | nil =>
        rw [hname] at hmem
        cases hmem
    | cons c text =>
        rw [hname] at hmem
        exact ⟨c, text, rfl, of_decide_eq_true hmem⟩
  cases k with
  | dayName => exact hname day _ (show _ < 7 by omega) (by decide)
  | dayAbbr => exact hname abday _ (show _ < 7 by omega) (by decide)
  | monName => exact hname LuaSys.Date.mon _ (show _ < 12 by omega) (by decide)
  | monAbbr => exact hname abmon _ (show _ < 12 by omega) (by decide)
  | meridiem =>
      rw [TimeConv.print]
      split
      · exact ⟨_, _, rfl, rfl⟩
      · exact ⟨_, _, rfl, rfl⟩
  | _ => exact hdigit _ _

end

/-! ### The items -/

section
variable {tzname : Option (List (List Char))} {tm cur : Tm} {rest b : List Char}
variable {split pending pending' : Bool} {items : List TimeItem}
variable {recurse : List Char → List Char → Tm → Except ParseFail (List Char × Tm)}

/-- A recursive call reads what a group has printed. -/
def ReadsGroup (recurse : List Char → List Char → Tm → Except ParseFail (List Char × Tm)) (tm : Tm)
    (g : TimeGroup) : Prop :=
  ∀ ⦃rest cur pending pending'⦄, (TimeItem.group g).convs.foldlM clock pending = some pending' →
    InStep tm cur false pending → ∃ b, Skipped rest b ∧
      recurse (fmtText g.items) ((TimeItem.group g).print tm ++ rest) cur =
        .ok (b, (TimeItem.group g).convs.foldl (TimeConv.read tm) cur)

/-- The result of an item. -/
def ReadsItem (tzname : Option (List (List Char)))
    (recurse : List Char → List Char → Tm → Except ParseFail (List Char × Tm)) (tm : Tm)
    (i : TimeItem) : Prop :=
  ∀ ⦃rest b cur split pending pending'⦄, i.convs.foldlM clock pending = some pending' →
    InStep tm cur split pending → (i.isAbbr = true → NoLetter rest) →
      Skipped (i.print tm ++ rest) b → ∃ b' split', Skipped rest b' ∧
        InStep tm (i.convs.foldl (TimeConv.read tm) cur) split' pending' ∧
        convert tzname recurse ⟨b, cur, split⟩ i.fmtItem =
          .ok ⟨b', i.convs.foldl (TimeConv.read tm) cur, split'⟩

theorem readsItem_conv {k : TimeConv} (htm : tm.Valid)
    (hyear : k = .year2 → 69 ≤ tm.year ∧ tm.year ≤ 168) :
    ReadsItem tzname recurse tm (.conv k) := by
  intro rest b cur split pending pending' hclock hstep hrest hb
  obtain ⟨c, text, htext, hc⟩ := print_head (k := k) htm
  have hprint : (TimeItem.conv k).print tm ++ rest = c :: (text ++ rest) := by
    change k.print tm ++ rest = _
    rw [htext, List.cons_append]
  obtain rfl : b = k.print tm ++ rest := by
    rw [htext, List.cons_append]
    exact (hprint ▸ hb).eq hc
  have hk : clock pending k = some pending' :=
    (Option.bind_fun_some _).symm.trans hclock
  refine ⟨rest, split || k = .year2, .inl rfl, hstep.read hk, ?_⟩
  refine convert_conv k htm (fun hk2 => ⟨hyear hk2, hstep.year⟩) (fun hmeridiem => ?_) hrest
  subst hmeridiem
  exact hstep.hour (Option.ite_none_right_eq_some.mp hk).1

theorem conversion_group (g : TimeGroup) :
    conversion g.letter = some ⟨[], .format (fmtText g.items)⟩ := by
  cases g <;> rfl

theorem print_group_head (g : TimeGroup) (htm : tm.Valid) :
    ∃ c text, (TimeItem.group g).print tm = c :: text ∧ isspace c = false := by
  have hfirst : ∃ k post, g.items = .conv k :: post := by
    cases g <;> exact ⟨_, _, rfl⟩
  obtain ⟨k, post, hitems⟩ := hfirst
  obtain ⟨c, text, htext, hc⟩ := print_head (k := k) htm
  refine ⟨c, text ++ post.flatMap (TimeItem.printPlain tm), ?_, hc⟩
  rw [TimeItem.print, hitems, List.flatMap_cons, TimeItem.printPlain, htext, List.cons_append]

theorem readsItem_group {g : TimeGroup} (htm : tm.Valid) (hrec : ReadsGroup recurse tm g) :
    ReadsItem tzname recurse tm (.group g) := by
  intro rest b cur split pending pending' hclock hstep _ hb
  obtain ⟨c, text, htext, hc⟩ := print_group_head g htm
  obtain rfl : b = (TimeItem.group g).print tm ++ rest := by
    rw [htext, List.cons_append] at hb ⊢
    exact hb.eq hc
  have hinner : InStep tm cur false pending := ⟨nofun, hstep.hour⟩
  obtain ⟨b', hb', hcall⟩ := hrec hclock hinner
  refine ⟨b', split, hb', hstep.foldl hclock, ?_⟩
  change convert tzname recurse _ (.conv none g.letter) = _
  rw [convert, conversion_group]
  dsimp only
  rw [perform]
  dsimp only
  rw [hcall]
  rfl

/-- **An item reads what it has printed.** -/
theorem readsItem (i : TimeItem) (htm : tm.Valid)
    (hrec : ∀ g, i = .group g → ReadsGroup recurse tm g)
    (hyear : .year2 ∈ i.convs → 69 ≤ tm.year ∧ tm.year ≤ 168) :
    ReadsItem tzname recurse tm i := by
  cases i with
  | text c hspace hpercent hnull =>
      intro rest b cur split pending pending' hclock hstep _ hb
      obtain rfl := Option.some.inj hclock
      obtain rfl := hb.eq hspace
      exact ⟨rest, split, .inl rfl, hstep, if_pos rfl⟩
  | space c hspace =>
      intro rest b cur split pending pending' hclock hstep _ hb
      obtain rfl := Option.some.inj hclock
      refine ⟨rest.dropWhile isspace, split, .inr rfl, hstep, ?_⟩
      change Except.ok _ = _
      rw [hb.dropWhile hspace]
      rfl
  | percent =>
      intro rest b cur split pending pending' hclock hstep _ hb
      obtain rfl := Option.some.inj hclock
      obtain rfl := hb.eq (by decide)
      exact ⟨rest, split, .inl rfl, hstep, rfl⟩
  | conv k => exact readsItem_conv htm fun hk => hyear (List.mem_singleton.mpr hk.symm)
  | group g => exact readsItem_group htm (hrec g rfl)

/-- **The items of a format read what they have printed.** -/
theorem readsItems (hitems : ∀ i ∈ items, ReadsItem tzname recurse tm i)
    (hclock : (convs items).foldlM clock pending = some pending')
    (hstep : InStep tm cur split pending)
    (hsep : ∀ pre i post, items = pre ++ i :: post → i.isAbbr = true →
      NoLetter (strftime post tm ++ rest))
    (hb : Skipped (strftime items tm ++ rest) b) :
    ∃ b' split', Skipped rest b' ∧
      (items.map TimeItem.fmtItem).foldlM (convert tzname recurse) ⟨b, cur, split⟩ =
        .ok ⟨b', (convs items).foldl (TimeConv.read tm) cur, split'⟩ := by
  induction items generalizing b cur split pending with
  | nil => exact ⟨b, split, hb, rfl⟩
  | cons i items ih =>
      rw [convs, List.flatMap_cons, ← convs, List.foldlM_append] at hclock
      obtain ⟨next, hi, hnext⟩ := Option.bind_eq_some_iff.mp hclock
      rw [strftime, List.flatMap_cons, ← strftime, List.append_assoc] at hb
      obtain ⟨b', split', hb', hstep', hconvert⟩ := hitems i List.mem_cons_self hi hstep
        (hsep [] i items rfl) hb
      obtain ⟨b'', split'', hb'', hfold⟩ := ih
        (fun j hj => hitems j (List.mem_cons_of_mem i hj)) hnext hstep'
        (fun pre j post heq => hsep (i :: pre) j post (congrArg _ heq)) hb'
      refine ⟨b'', split'', hb'', ?_⟩
      rw [List.map_cons, List.foldlM_cons, hconvert, convs, List.flatMap_cons, ← convs,
        List.foldl_append]
      exact hfold

theorem readsGroup {depth : ℕ} (g : TimeGroup) (htm : tm.Valid)
    (hyear : .year2 ∈ (TimeItem.group g).convs → 69 ≤ tm.year ∧ tm.year ≤ 168) :
    ReadsGroup (strptimeAt tzname (depth + 1)) tm g := by
  intro rest cur pending pending' hclock hstep
  have hplain : ∀ i ∈ g.items, ∀ g', i ≠ .group g' := by
    cases g <;> simp [TimeGroup.items, slash, colon, hyphen, blank]
  have hconvs : (TimeItem.group g).convs = convs g.items := by cases g <;> rfl
  have hprint : (TimeItem.group g).print tm = strftime g.items tm := by cases g <;> rfl
  have hsep : ∀ i ∈ g.items, i.isAbbr = false := by
    cases g <;> simp [TimeGroup.items, slash, colon, hyphen, blank, TimeItem.isAbbr,
      TimeConv.isAbbr]
  rw [hconvs] at hclock hyear ⊢
  have hitems : ∀ i ∈ g.items, ReadsItem tzname (strptimeAt tzname depth) tm i := fun i hi =>
    readsItem i htm (fun g' hg' => absurd hg' (hplain i hi g'))
      fun hk => hyear (List.mem_flatMap.mpr ⟨i, hi, hk⟩)
  have hletter : ∀ pre i post, g.items = pre ++ i :: post → i.isAbbr = true →
      NoLetter (strftime post tm ++ rest) := by
    intro pre i post heq habbr
    have hfalse := hsep i (heq ▸ List.mem_append_right pre List.mem_cons_self)
    exact absurd (habbr.symm.trans hfalse) (by decide)
  obtain ⟨b, split, hb, hfold⟩ := readsItems hitems hclock hstep hletter (.inl rfl)
  refine ⟨b, hb, ?_⟩
  rw [strptimeAt, lex_fmtText, hprint, hfold]
  rfl

theorem isalpha_space {c : Char} (h : isspace c = true) : isalpha c = false := by
  have hall : ∀ n ∈ [9, 10, 11, 12, 13, 32], isalpha (Char.ofNat n) = false := by decide
  have hmem : c.toNat ∈ [9, 10, 11, 12, 13, 32] := by
    rcases of_decide_eq_true h with rfl | ⟨hlow, hhigh⟩
    · decide
    · have hcases : c.toNat = 9 ∨ c.toNat = 10 ∨ c.toNat = 11 ∨ c.toNat = 12 ∨ c.toNat = 13 := by
        omega
      rcases hcases with hn | hn | hn | hn | hn <;> rw [hn] <;> decide
  exact Char.ofNat_toNat c ▸ hall _ hmem

/-- An item that begins with no letter prints a text that does not. -/
theorem noLetter_print {i : TimeItem} (h : i.startsAlpha = false) :
    NoLetter (i.print tm ++ rest) := by
  have hdigit : ∀ w v text, NoLetter (digits (w + 1) v ++ text) := by
    have hall : ∀ d < 10, isalpha (Char.ofNat (48 + d)) = false := by decide
    intro w v text c hc
    obtain rfl := Option.some.inj hc
    exact hall _ (Nat.mod_lt _ (by decide))
  cases i with
  | text c hspace hpercent hnull =>
      intro c' hc'
      obtain rfl := Option.some.inj hc'
      exact h
  | space c hspace =>
      intro c' hc'
      obtain rfl := Option.some.inj hc'
      exact isalpha_space hspace
  | percent =>
      intro c' hc'
      obtain rfl := Option.some.inj hc'
      decide
  | conv k => cases k <;> first | exact hdigit _ _ _ | cases h
  | group g =>
      cases g <;> rw [TimeItem.print, TimeGroup.items, List.flatMap_cons, List.append_assoc] <;>
        exact hdigit _ _ _

/-- A short name of a separated format is in front of a text that begins with no letter. -/
theorem separated.noLetter (hsep : separated items) {pre post : List TimeItem} {i : TimeItem}
    (hitems : items = pre ++ i :: post) (habbr : i.isAbbr = true) :
    NoLetter (strftime post tm) := by
  subst hitems
  cases post with
  | nil => exact nofun
  | cons j post =>
      exact noLetter_print ((List.isChain_append_cons_cons.mp hsep).2.1 habbr)

/-- The loop of `strptime` over what was printed by its format. -/
theorem readsFormat {depth : ℕ} (htm : tm.Valid) (hsep : separated items)
    (hclock : (convs items).foldlM clock false = some false)
    (hyear : .year2 ∈ convs items → 69 ≤ tm.year ∧ tm.year ≤ 168) :
    strptimeAt tzname (depth + 3) (fmtText items) (strftime items tm) cur =
      .ok ([], restore ((convs items).map TimeConv.field) tm cur) := by
  have hitems : ∀ i ∈ items, ReadsItem tzname (strptimeAt tzname (depth + 2)) tm i := by
    intro i hi
    have hmem : ∀ k ∈ i.convs, k ∈ convs items :=
      fun k hk => List.mem_flatMap.mpr ⟨i, hi, hk⟩
    refine readsItem i htm (fun g hg => ?_) fun hk => hyear (hmem _ hk)
    subst hg
    exact readsGroup g htm fun hk => hyear (hmem _ hk)
  have hstep : InStep tm cur false false := ⟨nofun, nofun⟩
  have hletter : ∀ pre i post, items = pre ++ i :: post → i.isAbbr = true →
      NoLetter (strftime post tm ++ []) := by
    intro pre i post heq habbr
    rw [List.append_nil]
    exact hsep.noLetter heq habbr
  obtain ⟨b, split, hb, hfold⟩ := readsItems hitems hclock hstep hletter (.inl rfl)
  obtain rfl : b = [] := by
    rcases hb with h | h <;> exact h
  rw [List.append_nil] at hfold
  rw [strptimeAt, lex_fmtText, hfold, ← foldl_read hclock]
  rfl

end

/-- The format `%a %d %b %y, %r`. -/
def shortFormat : List TimeItem :=
  [.conv .dayAbbr, blank, .conv .mday, blank, .conv .monAbbr, blank, .conv .year2,
    .text ',' (by decide) (by decide) (by decide), blank, .group .r]

/-- The afternoon of the first of May 2024. -/
def mayDay : Tm := ⟨9, 5, 13, 1, 4, 124, 3, 121, 1⟩

theorem mayDay_valid : mayDay.Valid := by
  constructor <;> first | decide | (constructor <;> decide)

theorem shortFormat_separated : separated shortFormat := by decide

/-- A letter behind a short name may be taken for a letter of the long one. -/
example : strptime none ['%', 'b', 'c', 'h'] ['M', 'a', 'r', 'c', 'h'] mayDay = .error .null := by
  decide +kernel

/-- Behind `%H` the afternoon has gone already. -/
example : strptime none ['%', 'H', '%', 'p'] ['1', '3', 'P', 'M'] mayDay = .error .null := by
  decide +kernel

/-! ## `sys.date` and `sys.time` -/

/-- `sys_date` with a format: the text has a place of 256 characters, and the null character is one
of them. -/
def sysDate (items : List TimeItem) (tm : Tm) : Except String (List Char) :=
  let s := strftime items tm
  if s.length = 0 ∨ 256 ≤ s.length then .error "date: format too long" else .ok s

/-- The time before it is read. -/
def clearedTm : Tm := ⟨0, 0, 0, 0, 0, 0, 0, 0, -1⟩

/-- The end of `sys_time`; `mktime` gives -1 if there is no such time. -/
def timeOf (mktime : Tm → ℤ) (tm : Tm) : Except ParseFail ℤ :=
  if mktime tm = -1 then .error .null else .ok (mktime tm)

/-- `sys_time` with a text and a format. -/
def sysTime (tzname : Option (List (List Char))) (mktime : Tm → ℤ) (s format : List Char) :
    Except ParseFail ℤ := do
  let r ← strptime tzname format s clearedTm
  timeOf mktime r.2

/-- A date as a table; a field may be missing. -/
structure DateTable where
  sec : Option ℤ
  min : Option ℤ
  hour : Option ℤ
  day : Option ℤ
  month : Option ℤ
  year : Option ℤ
  wday : Option ℤ
  yday : Option ℤ
  isdst : Option ℤ
  deriving DecidableEq, Repr

/-- `date_setfield`. -/
def dateSetfield (value : ℤ) : Option ℤ := if value = -1 then none else some value

/-- `date_getfield`. -/
def dateGetfield (field : Option ℤ) (key : String) (value : ℤ) : Except String ℤ :=
  match field with
  | some res => .ok res
  | none => if value = -2 then .error ("date: \"" ++ key ++ "\" expected") else .ok value

/-- `sys_date` with a table. -/
def dateTable (tm : Tm) : DateTable where
  sec := dateSetfield tm.sec
  min := dateSetfield tm.min
  hour := dateSetfield tm.hour
  day := dateSetfield tm.mday
  month := dateSetfield (tm.mon + 1)
  year := dateSetfield (tm.year + 1900)
  wday := dateSetfield tm.wday
  yday := dateSetfield (tm.yday + 1)
  isdst := dateSetfield tm.isdst

/-- `sys_time` with a table, before `mktime`.  Two of the fields are not set. -/
def timeOfTable (unset : Tm) (t : DateTable) : Except String Tm := do
  let sec ← dateGetfield t.sec "sec" 0
  let min ← dateGetfield t.min "min" 0
  let hour ← dateGetfield t.hour "hour" 0
  let mday ← dateGetfield t.day "day" (-2)
  let month ← dateGetfield t.month "month" (-2)
  let year ← dateGetfield t.year "year" (-2)
  let isdst ← dateGetfield t.isdst "isdst" (-1)
  .ok ⟨sec, min, hour, mday, month - 1, year - 1900, unset.wday, unset.yday, isdst⟩

section
variable {tzname : Option (List (List Char))} {mktime : Tm → ℤ} {tm : Tm} {items : List TimeItem}
variable {s : List Char}

/-- **Only times in range are looked for.**  Whatever the text and the format are, `sys.time` has
read a part of the text when it comes to `mktime`, and the fields are in their ranges. -/
theorem strptime_clearedTm {format : List Char} :
    Spec (fun _ => True) (fun r => r.1 <:+ s ∧ r.2.InRange)
      (strptime tzname format s clearedTm) :=
  strptimeAt_keeps 3 (by constructor <;> decide)

theorem dateGetfield_setfield {value default : ℤ} {key : String} (h : value ≠ -1) :
    dateGetfield (dateSetfield value) key default = .ok value := by
  rw [dateSetfield, if_neg h, dateGetfield]

theorem dateGetfield_isdst {value : ℤ} {key : String} :
    dateGetfield (dateSetfield value) key (-1) = .ok value := by
  by_cases h : value = -1
  · subst h
    rfl
  · exact dateGetfield_setfield h

/-- A table gives the date back, but for the year -1. -/
theorem timeOfTable_dateTable (unset : Tm) (htm : tm.InRange) :
    timeOfTable unset (dateTable tm) =
      if tm.year = -1901 then .error "date: \"year\" expected"
      else .ok { tm with wday := unset.wday, yday := unset.yday } := by
  obtain ⟨hsec, hmin, hhour, hmday, hmon, hwday, hyday⟩ := htm
  rw [timeOfTable, dateTable]
  dsimp only
  rw [dateGetfield_setfield (by omega), dateGetfield_setfield (by omega),
    dateGetfield_setfield (by omega), dateGetfield_setfield (by omega),
    dateGetfield_setfield (by omega), dateGetfield_isdst]
  split
  next h =>
    rw [h]
    rfl
  next h =>
    rw [dateGetfield_setfield (by omega)]
    change Except.ok _ = _
    rw [Int.add_sub_cancel, Int.add_sub_cancel]

end

theorem timeOfTable_dateTable_mayDay :
    timeOfTable clearedTm (dateTable mayDay) = .ok { mayDay with wday := 0, yday := 0 } :=
  timeOfTable_dateTable clearedTm mayDay_valid.toInRange

end LuaSys.Date
