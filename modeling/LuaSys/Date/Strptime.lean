import LuaSys.Lib.Checked
import Mathlib.Algebra.Group.Int.Defs
import Mathlib.Data.Int.Basic
import Mathlib.Data.List.Basic
import Mathlib.Tactic.Common

/-!
# Reading a date

`strptime` goes through its format once.  White space of the format skips white space of the
text, other characters have to be there, and a conversion reads a number or a name and sets a
field of the time.  Some conversions stand for a format of others and are done by recursion.

The text ends at a null character, which is the end of the list here.  Everything looks at a
character before it goes on to the next, but for the conversion `%G`: it skips one character without
a look.  The reads themselves are those of `Date/Memory.lean`.

The zone fields of `struct tm` are those of a library that has none of them, so that a zone only
sets `tm_isdst`.

## Main definitions

* `Tm` — `struct tm`.
* `lex` — the items of a format.
* `convNum`, `findString` — the two functions that read numbers and names.
* `conversion`, `perform`, `convert` — the switch over the conversions.
* `strptime` — the function, with a depth for its recursion.

## Main results

* `strptime_ends` — the recursion is not deeper than three calls.
* `strptime_overrun_iff` — where the function runs over: it comes to `%G` when nothing is left.
* `strptimeAt_keeps` — it ends in the text, and with fields in their ranges.
-/

namespace LuaSys.Date

open LuaSys.Lib

/-- `struct tm`. -/
structure Tm where
  sec : ℤ
  min : ℤ
  hour : ℤ
  mday : ℤ
  mon : ℤ
  year : ℤ
  wday : ℤ
  yday : ℤ
  isdst : ℤ
  deriving DecidableEq, Repr

/-- Why no date is read. -/
inductive ParseFail
  /-- The result is a null pointer. -/
  | null
  /-- A character behind the null character is read. -/
  | overrun
  /-- The calls are nested deeper than the depth that is given. -/
  | depth
  deriving DecidableEq, Repr

/-- `isspace`, for the locale "C". -/
def isspace (c : Char) : Bool := c = ' ' ∨ 9 ≤ c.toNat ∧ c.toNat ≤ 13

/-- `isdigit`. -/
def isdigit (c : Char) : Bool := '0' ≤ c ∧ c ≤ '9'

/-- The value of a digit. -/
def digitVal (c : Char) : ℕ := c.toNat - '0'.toNat

/-! ## The format -/

/-- The modifiers `ALT_E` and `ALT_O`. -/
inductive Alt
  | altE
  | altO
  deriving DecidableEq, Repr

/-- An item of a format.  A conversion that is cut off has the null character. -/
inductive FmtItem
  | space
  | literal (c : Char)
  | conv (alt : Option Alt) (c : Char)
  deriving DecidableEq, Repr

/-- Where the scan of a format is: outside of a conversion, behind `%`, or behind a modifier. -/
inductive LexMode
  | text
  | percent
  | modifier (alt : Alt)

/-- The items of a format from a place on. -/
def lexFrom : LexMode → List Char → List FmtItem
  | .text, [] => []
  | .percent, [] => [.conv none '\x00']
  | .modifier alt, [] => [.conv (some alt) '\x00']
  | .text, c :: fmt =>
      if isspace c then .space :: lexFrom .text fmt
      else if c = '%' then lexFrom .percent fmt
      else .literal c :: lexFrom .text fmt
  | .percent, c :: fmt =>
      if c = 'E' then lexFrom (.modifier .altE) fmt
      else if c = 'O' then lexFrom (.modifier .altO) fmt
      else .conv none c :: lexFrom .text fmt
  | .modifier alt, c :: fmt => .conv (some alt) c :: lexFrom .text fmt

/-- The items of a format. -/
def lex (fmt : List Char) : List FmtItem := lexFrom .text fmt

/-! ## Numbers and names -/

/-- The loop of `conv_num`, at the digit `ch`. -/
def convDigits (ulim : ℕ) : ℕ → ℕ → Char → List Char → ℕ × List Char
  | result, _, ch, [] => (result * 10 + digitVal ch, [])
  | result, rulim, ch, c :: buf =>
      if (result * 10 + digitVal ch) * 10 ≤ ulim ∧ rulim / 10 ≠ 0 ∧ isdigit c = true then
        convDigits ulim (result * 10 + digitVal ch) (rulim / 10) c buf
      else (result * 10 + digitVal ch, c :: buf)

/-- `conv_num`. -/
def convNum (buf : List Char) (llim ulim : ℕ) : Option (ℕ × List Char) :=
  match buf with
  | [] => none
  | ch :: buf =>
      if isdigit ch then
        let r := convDigits ulim 0 ulim ch buf
        if r.1 < llim ∨ ulim < r.1 then none else some r
      else none

/-- `strncasecmp` with the length of the name is zero. -/
def matchesName (name bp : List Char) : Bool :=
  (bp.take name.length).map Char.toLower = name.map Char.toLower

/-- The loop of `find_string` over one table. -/
def findName (bp : List Char) : ℕ → List (List Char) → Option (ℕ × List Char)
  | _, [] => none
  | i, name :: names =>
      if matchesName name bp then some (i, bp.drop name.length) else findName bp (i + 1) names

/-- `find_string`: the full names, then the short ones. -/
def findString (bp : List Char) (n1 n2 : List (List Char)) : Option (ℕ × List Char) :=
  (findName bp 0 n1).or (findName bp 0 n2)

def day : List (List Char) :=
  [['S', 'u', 'n', 'd', 'a', 'y'], ['M', 'o', 'n', 'd', 'a', 'y'],
    ['T', 'u', 'e', 's', 'd', 'a', 'y'], ['W', 'e', 'd', 'n', 'e', 's', 'd', 'a', 'y'],
    ['T', 'h', 'u', 'r', 's', 'd', 'a', 'y'], ['F', 'r', 'i', 'd', 'a', 'y'],
    ['S', 'a', 't', 'u', 'r', 'd', 'a', 'y']]

def abday : List (List Char) :=
  [['S', 'u', 'n'], ['M', 'o', 'n'], ['T', 'u', 'e'], ['W', 'e', 'd'], ['T', 'h', 'u'],
    ['F', 'r', 'i'], ['S', 'a', 't']]

def mon : List (List Char) :=
  [['J', 'a', 'n', 'u', 'a', 'r', 'y'], ['F', 'e', 'b', 'r', 'u', 'a', 'r', 'y'],
    ['M', 'a', 'r', 'c', 'h'], ['A', 'p', 'r', 'i', 'l'], ['M', 'a', 'y'], ['J', 'u', 'n', 'e'],
    ['J', 'u', 'l', 'y'], ['A', 'u', 'g', 'u', 's', 't'],
    ['S', 'e', 'p', 't', 'e', 'm', 'b', 'e', 'r'], ['O', 'c', 't', 'o', 'b', 'e', 'r'],
    ['N', 'o', 'v', 'e', 'm', 'b', 'e', 'r'], ['D', 'e', 'c', 'e', 'm', 'b', 'e', 'r']]

def abmon : List (List Char) :=
  [['J', 'a', 'n'], ['F', 'e', 'b'], ['M', 'a', 'r'], ['A', 'p', 'r'], ['M', 'a', 'y'],
    ['J', 'u', 'n'], ['J', 'u', 'l'], ['A', 'u', 'g'], ['S', 'e', 'p'], ['O', 'c', 't'],
    ['N', 'o', 'v'], ['D', 'e', 'c']]

def amPm : List (List Char) := [['A', 'M'], ['P', 'M']]

def nast : List (List Char) :=
  [['E', 'S', 'T'], ['C', 'S', 'T'], ['M', 'S', 'T'], ['P', 'S', 'T']]

def nadt : List (List Char) :=
  [['E', 'D', 'T'], ['C', 'D', 'T'], ['M', 'D', 'T'], ['P', 'D', 'T']]

/-! ## Conversions -/

/-- What a conversion does. -/
inductive Action
  /-- `%%`. -/
  | percent
  /-- A format of other conversions. -/
  | format (fmt : List Char)
  | names (n1 n2 : List (List Char)) (set : Tm → ℤ → Tm)
  /-- A number between two limits; the century and the year in it also know of each other. -/
  | number (llim ulim : ℕ) (set : Tm → Bool → ℤ → Tm × Bool)
  /-- `%p`. -/
  | meridiem
  /-- `%G`. -/
  | isoYear
  /-- `%Z`. -/
  | zone
  /-- `%z`. -/
  | offset
  /-- `%n` and `%t`. -/
  | space

/-- A case of the switch: the modifiers that it allows, and what it does. -/
structure Conversion where
  legal : List Alt
  action : Action

def TM_YEAR_BASE : ℤ := 1900

/-- A number that sets a field. -/
def Action.field (llim ulim : ℕ) (set : Tm → ℤ → Tm) : Action :=
  .number llim ulim fun tm split i => (set tm i, split)

/-- A number that is not used. -/
def Action.skip (llim ulim : ℕ) : Action := .field llim ulim fun tm _ => tm

/-- `%C`. -/
def setCentury (tm : Tm) (split : Bool) (i : ℤ) : Tm × Bool :=
  let i := i * 100 - TM_YEAR_BASE
  ({ tm with year := if split then i + tm.year.tmod 100 else i }, true)

/-- `%y`. -/
def setYear (tm : Tm) (split : Bool) (i : ℤ) : Tm × Bool :=
  if split then ({ tm with year := i + tm.year.tdiv 100 * 100 }, split)
  else
    ({ tm with year := if i ≤ 68 then i + 2000 - TM_YEAR_BASE else i + 1900 - TM_YEAR_BASE }, true)

/-- The switch over the conversions. -/
def conversion : Char → Option Conversion
  | '%' => some ⟨[], .percent⟩
  | 'c' => some ⟨[.altE], .format ['%', 'x', ' ', '%', 'X']⟩
  | 'D' => some ⟨[], .format ['%', 'm', '/', '%', 'd', '/', '%', 'y']⟩
  | 'F' => some ⟨[], .format ['%', 'Y', '-', '%', 'm', '-', '%', 'd']⟩
  | 'R' => some ⟨[], .format ['%', 'H', ':', '%', 'M']⟩
  | 'r' => some ⟨[], .format ['%', 'I', ':', '%', 'M', ':', '%', 'S', ' ', '%', 'p']⟩
  | 'T' => some ⟨[], .format ['%', 'H', ':', '%', 'M', ':', '%', 'S']⟩
  | 'X' => some ⟨[.altE], .format ['%', 'H', ':', '%', 'M', ':', '%', 'S']⟩
  | 'x' => some ⟨[.altE], .format ['%', 'm', '/', '%', 'd', '/', '%', 'y']⟩
  | 'A' | 'a' => some ⟨[], .names day abday fun tm i => { tm with wday := i }⟩
  | 'B' | 'b' | 'h' => some ⟨[], .names mon abmon fun tm i => { tm with mon := i }⟩
  | 'C' => some ⟨[.altE], .number 0 99 setCentury⟩
  | 'd' | 'e' => some ⟨[.altO], .field 1 31 fun tm i => { tm with mday := i }⟩
  | 'k' => some ⟨[], .field 0 23 fun tm i => { tm with hour := i }⟩
  | 'H' => some ⟨[.altO], .field 0 23 fun tm i => { tm with hour := i }⟩
  | 'l' => some ⟨[], .field 1 12 fun tm i => { tm with hour := if i = 12 then 0 else i }⟩
  | 'I' => some ⟨[.altO], .field 1 12 fun tm i => { tm with hour := if i = 12 then 0 else i }⟩
  | 'j' => some ⟨[], .field 1 366 fun tm i => { tm with yday := i - 1 }⟩
  | 'M' => some ⟨[.altO], .field 0 59 fun tm i => { tm with min := i }⟩
  | 'm' => some ⟨[.altO], .field 1 12 fun tm i => { tm with mon := i - 1 }⟩
  | 'p' => some ⟨[], .meridiem⟩
  | 'S' => some ⟨[.altO], .field 0 61 fun tm i => { tm with sec := i }⟩
  | 'U' | 'W' => some ⟨[.altO], .skip 0 53⟩
  | 'w' => some ⟨[.altO], .field 0 6 fun tm i => { tm with wday := i }⟩
  | 'u' => some ⟨[.altO], .field 1 7 fun tm i => { tm with wday := i % 7 }⟩
  | 'g' => some ⟨[.altE, .altO], .skip 0 99⟩
  | 'G' => some ⟨[.altE, .altO], .isoYear⟩
  | 'V' => some ⟨[.altE, .altO], .skip 0 53⟩
  | 'Y' => some ⟨[.altE], .field 0 9999 fun tm i => { tm with year := i - TM_YEAR_BASE }⟩
  | 'y' => some ⟨[.altE, .altO], .number 0 99 setYear⟩
  | 'Z' => some ⟨[.altE, .altO], .zone⟩
  | 'z' => some ⟨[.altE, .altO], .offset⟩
  | 'n' | 't' => some ⟨[], .space⟩
  | _ => none

/-- The state of the loop: the rest of the text, the time, and `split_year`. -/
structure ParseState where
  buf : List Char
  tm : Tm
  splitYear : Bool
  deriving DecidableEq, Repr

/-- A null pointer ends the loop. -/
def orNull {α : Type} (x : Option α) : Except ParseFail α := x.elim (.error .null) .ok

/-- The loop over the digits of an offset: how many there are, their value, and the rest. -/
def offsetDigits : ℕ → ℕ → List Char → ℕ × ℕ × List Char
  | i, offs, [] => (i, offs, [])
  | i, offs, c :: buf =>
      if 4 ≤ i then (i, offs, c :: buf)
      else if isdigit c then offsetDigits (i + 1) (offs * 10 + digitVal c) buf
      else if i = 2 ∧ c = ':' then offsetDigits i offs buf
      else (i, offs, c :: buf)

/-- The offset behind its sign. -/
def performOffset (s : ParseState) (buf : List Char) : Option ParseState :=
  let r := offsetDigits 0 0 buf
  if r.1 = 2 ∨ r.1 = 4 ∧ r.2.1 % 100 < 60 then
    some { s with buf := r.2.2, tm := { s.tm with isdst := 0 } }
  else none

/-- `%z`, at the first character that is not white space. -/
def performZone (s : ParseState) : List Char → Option ParseState
  | 'G' :: 'M' :: 'T' :: buf => some { s with buf := buf, tm := { s.tm with isdst := 0 } }
  | 'G' :: _ => none
  | 'U' :: 'T' :: buf => some { s with buf := buf, tm := { s.tm with isdst := 0 } }
  | 'U' :: _ => none
  | 'Z' :: buf => some { s with buf := buf, tm := { s.tm with isdst := 0 } }
  | '+' :: buf => performOffset s buf
  | '-' :: buf => performOffset s buf
  | buf =>
      match findString buf nast [] with
      | some r => some { s with buf := r.2 }
      | none =>
          match findString buf nadt [] with
          | some r => some { s with buf := r.2, tm := { s.tm with isdst := 1 } }
          | none =>
              match buf with
              | c :: buf =>
                  if 'A' ≤ c ∧ c ≤ 'I' ∨ 'L' ≤ c ∧ c ≤ 'Y' then some { s with buf := buf } else none
              | [] => none

section
variable (tzname : Option (List (List Char)))

/-- What a conversion does to the state; `recurse` is the recursive call.  The names of the zones
are not there if the library does not have them. -/
def perform (recurse : List Char → List Char → Tm → Except ParseFail (List Char × Tm))
    (s : ParseState) : Action → Except ParseFail ParseState
  | .percent =>
      match s.buf with
      | '%' :: buf => .ok { s with buf := buf }
      | _ => .error .null
  | .format fmt => (recurse fmt s.buf s.tm).map fun r => { s with buf := r.1, tm := r.2 }
  | .names n1 n2 set =>
      orNull ((findString s.buf n1 n2).map fun r => { s with buf := r.2, tm := set s.tm r.1 })
  | .number llim ulim set =>
      orNull ((convNum s.buf llim ulim).map fun r =>
        ⟨r.2, (set s.tm s.splitYear r.1).1, (set s.tm s.splitYear r.1).2⟩)
  | .meridiem =>
      orNull ((findString s.buf amPm []).bind fun r =>
        if 11 < s.tm.hour then none
        else some { s with buf := r.2, tm := { s.tm with hour := s.tm.hour + r.1 * 12 } })
  | .isoYear =>
      match s.buf with
      | [] => .error .overrun
      | _ :: buf => .ok { s with buf := buf.dropWhile isdigit }
  | .zone =>
      match s.buf with
      | 'G' :: 'M' :: 'T' :: buf => .ok { s with buf := buf, tm := { s.tm with isdst := 0 } }
      | buf =>
          match tzname with
          | none => .ok s
          | some names =>
              orNull ((findString buf names []).map fun r =>
                { s with buf := r.2, tm := { s.tm with isdst := r.1 } })
  | .offset => orNull (performZone s (s.buf.dropWhile isspace))
  | .space => .ok { s with buf := s.buf.dropWhile isspace }

/-- `LEGAL_ALT`: a modifier that is not allowed gives a null pointer. -/
def legalAlt (legal : List Alt) (alt : Option Alt) : Bool := alt.all fun a => a ∈ legal

/-- One item of the format. -/
def convert (recurse : List Char → List Char → Tm → Except ParseFail (List Char × Tm))
    (s : ParseState) : FmtItem → Except ParseFail ParseState
  | .space => .ok { s with buf := s.buf.dropWhile isspace }
  | .literal c =>
      match s.buf with
      | [] => .error .null
      | b :: buf => if c = b then .ok { s with buf := buf } else .error .null
  | .conv alt c =>
      match conversion c with
      | none => .error .null
      | some k => do
          let s' ← perform tzname recurse s k.action
          if legalAlt k.legal alt then .ok s' else .error .null

/-- `strptime`, with the depth of its recursion. -/
def strptimeAt : ℕ → List Char → List Char → Tm → Except ParseFail (List Char × Tm)
  | 0, _, _, _ => .error .depth
  | depth + 1, fmt, buf, tm => do
      let s ← (lex fmt).foldlM (convert tzname (strptimeAt depth)) ⟨buf, tm, false⟩
      .ok (s.buf, s.tm)

/-- `strptime`. -/
def strptime (fmt buf : List Char) (tm : Tm) : Except ParseFail (List Char × Tm) :=
  strptimeAt tzname 3 fmt buf tm

end

/-! ## The recursion -/

/-- The format that a conversion stands for. -/
def subFormat (c : Char) : Option (List Char) :=
  match conversion c with
  | some ⟨_, .format fmt⟩ => some fmt
  | _ => none

/-- There are eight of them. -/
theorem subFormat_mem {c : Char} {fmt : List Char} (h : subFormat c = some fmt) :
    fmt ∈ ['c', 'D', 'F', 'R', 'r', 'T', 'X', 'x'].filterMap subFormat := by
  have hc : c ∈ ['c', 'D', 'F', 'R', 'r', 'T', 'X', 'x'] := by
    unfold subFormat conversion at h
    split at h
    next hk => split at hk <;> first | decide | cases hk
    next => cases h
  exact List.mem_filterMap.mpr ⟨c, hc, h⟩

theorem subFormat_eq {c : Char} {k : Conversion} {fmt : List Char} (h : conversion c = some k)
    (hk : k.action = .format fmt) : subFormat c = some fmt := by
  obtain ⟨legal, action⟩ := k
  obtain rfl : action = .format fmt := hk
  rw [subFormat, h]

/-- The format stands for others that are not nested deeper than that. -/
def nested : ℕ → List Char → Bool
  | 0, _ => false
  | depth + 1, fmt => (lex fmt).all fun
      | .conv _ c => (subFormat c).all (nested depth)
      | _ => true

theorem nested_three (fmt : List Char) : nested 3 fmt = true := by
  rw [nested, List.all_eq_true]
  intro item _
  cases item with
  | space => rfl
  | literal => rfl
  | conv alt c =>
      dsimp only
      cases h : subFormat c with
      | none => rw [Option.all_none]
      | some sub =>
          have hall : ∀ sub ∈ ['c', 'D', 'F', 'R', 'r', 'T', 'X', 'x'].filterMap subFormat,
              nested 2 sub = true := by decide
          rw [Option.all_some]
          exact hall sub (subFormat_mem h)

section
variable {tzname : Option (List (List Char))} {fmt buf : List Char} {tm : Tm}
variable {recurse recurse' : List Char → List Char → Tm → Except ParseFail (List Char × Tm)}
variable {s : ParseState} {item : FmtItem}

/-- A recursive call is of the format that the conversion stands for. -/
theorem convert_congr (h : ∀ alt c sub, item = .conv alt c → subFormat c = some sub →
    ∀ buf tm, recurse sub buf tm = recurse' sub buf tm) :
    convert tzname recurse s item = convert tzname recurse' s item := by
  cases item with
  | space => rfl
  | literal => rfl
  | conv alt c =>
      rw [convert, convert]
      cases hc : conversion c with
      | none => rfl
      | some k =>
          have hperform :
              perform tzname recurse s k.action = perform tzname recurse' s k.action := by
            cases hk : k.action with
            | format sub =>
                rw [perform, perform, h alt c sub rfl (subFormat_eq hc hk)]
            | _ => rfl
          dsimp only
          rw [hperform]

theorem foldlM_convert_congr {items : List FmtItem}
    (h : ∀ item ∈ items, ∀ s, convert tzname recurse s item = convert tzname recurse' s item) :
    items.foldlM (convert tzname recurse) s = items.foldlM (convert tzname recurse') s := by
  induction items generalizing s with
  | nil => rfl
  | cons item items ih =>
      rw [List.foldlM_cons, List.foldlM_cons, h item List.mem_cons_self s]
      exact bind_congr fun s' => ih fun item' hmem => h item' (List.mem_cons_of_mem item hmem)

/-- More depth does not matter. -/
theorem strptimeAt_nested {depth more : ℕ} (h : nested depth fmt = true) :
    strptimeAt tzname (depth + more) fmt buf tm = strptimeAt tzname depth fmt buf tm := by
  induction depth generalizing fmt buf tm with
  | zero => cases h
  | succ depth ih =>
      rw [Nat.add_right_comm, strptimeAt, strptimeAt]
      congr 1
      refine foldlM_convert_congr fun item hmem s => convert_congr ?_
      rintro alt c sub rfl hsub buf tm
      have hall := List.all_eq_true.mp h _ hmem
      dsimp only at hall
      rw [hsub, Option.all_some] at hall
      exact ih hall

theorem spec_orNull {α : Type} {E : ParseFail → Prop} {Q : α → Prop} {x : Option α}
    (hnull : E .null) (h : ∀ a, x = some a → Q a) : Spec E Q (orNull x) := by
  cases x with
  | none => exact hnull
  | some a => exact h a rfl

/-- A conversion is at the end of its depth only if a recursive call is. -/
theorem perform_depth {a : Action} (hrec : ∀ sub, a = .format sub → ∀ buf tm,
      Spec (· ≠ .depth) (fun _ => True) (recurse sub buf tm)) :
    Spec (· ≠ .depth) (fun _ => True) (perform tzname recurse s a) := by
  have hnull : ParseFail.null ≠ .depth := nofun
  cases a with
  | percent =>
      rw [perform]
      split
      next => trivial
      next => exact hnull
  | format sub => exact (hrec sub rfl s.buf s.tm).map fun _ _ => trivial
  | names => exact spec_orNull hnull fun _ _ => trivial
  | number => exact spec_orNull hnull fun _ _ => trivial
  | meridiem => exact spec_orNull hnull fun _ _ => trivial
  | isoYear =>
      rw [perform]
      split
      next => exact nofun
      next => trivial
  | zone =>
      rw [perform]
      split
      next => trivial
      next =>
        split
        next => trivial
        next => exact spec_orNull hnull fun _ _ => trivial
  | offset => exact spec_orNull hnull fun _ _ => trivial
  | space => trivial

theorem convert_depth (hrec : ∀ alt c sub, item = .conv alt c → subFormat c = some sub →
      ∀ buf tm, Spec (· ≠ .depth) (fun _ => True) (recurse sub buf tm)) :
    Spec (· ≠ .depth) (fun _ => True) (convert tzname recurse s item) := by
  have hnull : ParseFail.null ≠ .depth := nofun
  cases item with
  | space => trivial
  | literal c =>
      rw [convert]
      split
      next => exact hnull
      next =>
        split
        next => trivial
        next => exact hnull
  | conv alt c =>
      rw [convert]
      cases hc : conversion c with
      | none => exact hnull
      | some k =>
          have hperform : Spec (· ≠ .depth) (fun _ => True) (perform tzname recurse s k.action) :=
            perform_depth fun sub hk => hrec alt c sub rfl (subFormat_eq hc hk)
          refine hperform.bind fun s' _ _ => ?_
          split
          next => trivial
          next => exact hnull

/-- A format that is not nested deeper does not come to the end of the depth. -/
theorem strptimeAt_depth {depth : ℕ} (h : nested depth fmt = true) :
    Spec (· ≠ .depth) (fun _ => True) (strptimeAt tzname depth fmt buf tm) := by
  induction depth generalizing fmt buf tm with
  | zero => cases h
  | succ depth ih =>
      have hloop : ∀ items : List FmtItem, items ⊆ lex fmt → ∀ s,
          Spec (· ≠ .depth) (fun _ => True)
            (items.foldlM (convert tzname (strptimeAt tzname depth)) s) := by
        intro items
        induction items with
        | nil => exact fun _ _ => trivial
        | cons item items ihitems =>
            intro hsub s
            obtain ⟨hmem, hsub⟩ := List.cons_subset.mp hsub
            rw [List.foldlM_cons]
            refine (convert_depth ?_).bind fun s' _ _ => ihitems hsub s'
            rintro alt c sub rfl hc buf tm
            have hall := List.all_eq_true.mp h _ hmem
            dsimp only at hall
            rw [hc, Option.all_some] at hall
            exact ih hall
      exact (hloop (lex fmt) (List.Subset.refl _) ⟨buf, tm, false⟩).bind fun _ _ _ => trivial

/-- **The recursion ends.**  It is not deeper than three calls, whatever the format is, and more
depth does not matter. -/
theorem strptime_ends : strptime tzname fmt buf tm ≠ .error .depth ∧
    ∀ more, strptimeAt tzname (3 + more) fmt buf tm = strptime tzname fmt buf tm :=
  ⟨(strptimeAt_depth (nested_three fmt)).ne_error fun h => h rfl,
    fun _ => strptimeAt_nested (nested_three fmt)⟩

/-! ## Behind the text -/

theorem conversion_isoYear {c : Char} {k : Conversion} (h : conversion c = some k)
    (hk : k.action = .isoYear) : c = 'G' := by
  unfold conversion at h
  split at h <;> first | rfl | (cases h <;> cases hk)

theorem orNull_ne_overrun {α : Type} {x : Option α} : orNull x ≠ .error .overrun := by
  cases x <;> exact nofun

/-- Only `%G` goes behind the text, or a recursive call. -/
theorem perform_overrun {a : Action} (h : perform tzname recurse s a = .error .overrun) :
    (∃ sub, a = .format sub ∧ recurse sub s.buf s.tm = .error .overrun) ∨
      a = .isoYear ∧ s.buf = [] := by
  cases a with
  | percent =>
      rw [perform] at h
      split at h <;> cases h
  | format sub =>
      refine .inl ⟨sub, rfl, ?_⟩
      rw [perform] at h
      cases hr : recurse sub s.buf s.tm with
      | error e =>
          rw [hr] at h
          exact congrArg _ (Except.error.inj h)
      | ok r =>
          rw [hr] at h
          cases h
  | names => exact absurd h orNull_ne_overrun
  | number => exact absurd h orNull_ne_overrun
  | meridiem => exact absurd h orNull_ne_overrun
  | isoYear =>
      refine .inr ⟨rfl, ?_⟩
      rw [perform] at h
      split at h
      next hbuf => exact hbuf
      next => cases h
  | zone =>
      rw [perform] at h
      split at h
      · cases h
      · split at h
        · cases h
        · exact absurd h orNull_ne_overrun
  | offset => exact absurd h orNull_ne_overrun
  | space => cases h

/-- One item goes behind the text if and only if it is `%G` and nothing is left. -/
theorem convert_overrun_iff
    (hrec : ∀ c sub, subFormat c = some sub → ∀ buf tm, recurse sub buf tm ≠ .error .overrun) :
    convert tzname recurse s item = .error .overrun ↔
      s.buf = [] ∧ ∃ alt, item = .conv alt 'G' := by
  constructor
  · intro h
    cases item with
    | space => cases h
    | literal c =>
        rw [convert] at h
        split at h
        · cases h
        · split at h <;> cases h
    | conv alt c =>
        rw [convert] at h
        cases hc : conversion c with
        | none =>
            rw [hc] at h
            cases h
        | some k =>
            rw [hc] at h
            dsimp only at h
            cases hp : perform tzname recurse s k.action with
            | error e =>
                rw [hp] at h
                obtain rfl : e = .overrun := Except.error.inj h
                rcases perform_overrun hp with ⟨sub, hk, hover⟩ | ⟨hk, hbuf⟩
                · exact absurd hover (hrec c sub (subFormat_eq hc hk) _ _)
                · exact ⟨hbuf, alt, by rw [conversion_isoYear hc hk]⟩
            | ok s' =>
                rw [hp] at h
                change (if _ then _ else _) = _ at h
                split at h <;> cases h
  · rintro ⟨hbuf, alt, rfl⟩
    have hperform : perform tzname recurse s .isoYear = .error .overrun := by
      rw [perform, hbuf]
    change (perform tzname recurse s .isoYear >>= _) = _
    rw [hperform]
    rfl

/-- No format that a conversion stands for has `%G`. -/
theorem subFormat_isoYear {c : Char} {sub : List Char} (h : subFormat c = some sub)
    (alt : Option Alt) : .conv alt 'G' ∉ lex sub := by
  have hall : ∀ sub ∈ ['c', 'D', 'F', 'R', 'r', 'T', 'X', 'x'].filterMap subFormat,
      (lex sub).all (fun item => item ≠ .conv none 'G' ∧ item ≠ .conv (some .altE) 'G' ∧
        item ≠ .conv (some .altO) 'G') = true := by decide
  intro hmem
  have hitem := of_decide_eq_true (List.all_eq_true.mp (hall sub (subFormat_mem h)) _ hmem)
  cases alt with
  | none => exact hitem.1 rfl
  | some a =>
      cases a with
      | altE => exact hitem.2.1 rfl
      | altO => exact hitem.2.2 rfl

theorem strptimeAt_overrun {depth : ℕ} (h : strptimeAt tzname depth fmt buf tm = .error .overrun) :
    ∃ pre alt post s, lex fmt = pre ++ .conv alt 'G' :: post ∧ s.buf = [] ∧
      pre.foldlM (convert tzname (strptimeAt tzname (depth - 1))) ⟨buf, tm, false⟩ = .ok s := by
  induction depth generalizing fmt buf tm with
  | zero => cases h
  | succ depth ih =>
      rw [strptimeAt] at h
      have hfold : (lex fmt).foldlM (convert tzname (strptimeAt tzname depth)) ⟨buf, tm, false⟩ =
          .error .overrun := by
        cases hr : (lex fmt).foldlM (convert tzname (strptimeAt tzname depth))
            ⟨buf, tm, false⟩ with
        | error e =>
            rw [hr] at h
            exact congrArg _ (Except.error.inj h)
        | ok r =>
            rw [hr] at h
            cases h
      obtain ⟨pre, item, post, s, hitems, hpre, hitem⟩ := foldlM_error_iff.mp hfold
      have hrec : ∀ c sub, subFormat c = some sub → ∀ buf tm,
          strptimeAt tzname depth sub buf tm ≠ .error .overrun := by
        intro c sub hsub buf tm hover
        obtain ⟨pre', alt, post', s', hitems', -⟩ := ih hover
        exact subFormat_isoYear hsub alt (hitems' ▸ List.mem_append_right pre' List.mem_cons_self)
      obtain ⟨hbuf, alt, rfl⟩ := (convert_overrun_iff hrec).mp hitem
      exact ⟨pre, alt, post, s, hitems, hbuf, hpre⟩

/-- The function runs over if and only if the format has a `%G` that it comes to when nothing of
the text is left. -/
theorem strptime_overrun_iff : strptime tzname fmt buf tm = .error .overrun ↔
    ∃ pre alt post s, lex fmt = pre ++ .conv alt 'G' :: post ∧ s.buf = [] ∧
      pre.foldlM (convert tzname (strptimeAt tzname 2)) ⟨buf, tm, false⟩ = .ok s := by
  refine ⟨strptimeAt_overrun, ?_⟩
  rintro ⟨pre, alt, post, s, hitems, hbuf, hpre⟩
  have hrec : ∀ c sub, subFormat c = some sub → ∀ buf tm,
      strptimeAt tzname 2 sub buf tm ≠ .error .overrun := by
    intro c sub hsub buf tm hover
    obtain ⟨pre', alt', post', s', hitems', -⟩ := strptimeAt_overrun hover
    exact subFormat_isoYear hsub alt' (hitems' ▸ List.mem_append_right pre' List.mem_cons_self)
  have hfold := foldlM_error_iff.mpr
    ⟨pre, _, post, s, hitems, hpre, (convert_overrun_iff hrec).mpr ⟨hbuf, alt, rfl⟩⟩
  change ((lex fmt).foldlM _ _ >>= _) = _
  rw [hfold]
  rfl

/-! ## What is read -/

/-- The fields are in the ranges that the conversions have: the day of the month is zero before it
is read, and a minute may have two leap seconds, as `%S` takes 61. -/
structure Tm.InRange (tm : Tm) : Prop where
  sec : 0 ≤ tm.sec ∧ tm.sec ≤ 61
  min : 0 ≤ tm.min ∧ tm.min ≤ 59
  hour : 0 ≤ tm.hour ∧ tm.hour ≤ 23
  mday : 0 ≤ tm.mday ∧ tm.mday ≤ 31
  mon : 0 ≤ tm.mon ∧ tm.mon ≤ 11
  wday : 0 ≤ tm.wday ∧ tm.wday ≤ 6
  yday : 0 ≤ tm.yday ∧ tm.yday ≤ 365

theorem convDigits_suffix (ulim result rulim : ℕ) (ch : Char) (buf : List Char) :
    (convDigits ulim result rulim ch buf).2 <:+ buf := by
  induction buf generalizing result rulim ch with
  | nil => exact List.suffix_rfl
  | cons c buf ih =>
      rw [convDigits]
      split
      · exact (ih _ _ c).trans (List.suffix_cons c buf)
      · exact List.suffix_rfl

/-- A number that is read is between the limits. -/
theorem convNum_spec {llim ulim : ℕ} {r : ℕ × List Char} (h : convNum buf llim ulim = some r) :
    llim ≤ r.1 ∧ r.1 ≤ ulim ∧ r.2 <:+ buf := by
  unfold convNum at h
  split at h
  · cases h
  next ch buf =>
    split at h
    · obtain ⟨hlim, hr⟩ := Option.ite_none_left_eq_some.mp h
      obtain rfl := Option.some.inj hr
      have hsuffix := (convDigits_suffix ulim 0 ulim ch buf).trans (List.suffix_cons ch buf)
      exact ⟨by omega, by omega, hsuffix⟩
    · cases h

theorem findName_spec {names : List (List Char)} {i : ℕ} {r : ℕ × List Char}
    (h : findName buf i names = some r) : r.1 < i + names.length ∧ r.2 <:+ buf := by
  induction names generalizing i with
  | nil => cases h
  | cons name names ih =>
      rw [findName] at h
      rw [List.length_cons]
      split at h
      · obtain rfl := Option.some.inj h
        exact ⟨by dsimp only; omega, List.drop_suffix _ _⟩
      · obtain ⟨hlt, hsuffix⟩ := ih h
        exact ⟨by omega, hsuffix⟩

/-- A name that is found is one of the tables. -/
theorem findString_spec {n1 n2 : List (List Char)} {n : ℕ} {r : ℕ × List Char}
    (h : findString buf n1 n2 = some r) (h1 : n1.length ≤ n) (h2 : n2.length ≤ n) :
    r.1 < n ∧ r.2 <:+ buf := by
  rcases Option.or_eq_some_iff.mp h with hr | ⟨-, hr⟩
  · obtain ⟨hlt, hsuffix⟩ := findName_spec hr
    exact ⟨by omega, hsuffix⟩
  · obtain ⟨hlt, hsuffix⟩ := findName_spec hr
    exact ⟨by omega, hsuffix⟩

theorem offsetDigits_suffix (i offs : ℕ) (buf : List Char) :
    (offsetDigits i offs buf).2.2 <:+ buf := by
  induction buf generalizing i offs with
  | nil => exact List.suffix_rfl
  | cons c buf ih =>
      rw [offsetDigits]
      split
      · exact List.suffix_rfl
      · split
        · exact (ih _ _).trans (List.suffix_cons c buf)
        · split
          · exact (ih _ _).trans (List.suffix_cons c buf)
          · exact List.suffix_rfl

/-- The rest of the state is a part of the text, and its fields are in their ranges. -/
def Keeps (buf : List Char) (s : ParseState) : Prop := s.buf <:+ buf ∧ s.tm.InRange

theorem Keeps.rest {s : ParseState} (h : Keeps buf s) {rest : List Char} (hrest : rest <:+ s.buf) :
    Keeps buf { s with buf := rest } :=
  ⟨hrest.trans h.1, h.2⟩

theorem Keeps.isdst {s : ParseState} (h : Keeps buf s) (z : ℤ) :
    Keeps buf { s with tm := { s.tm with isdst := z } } :=
  ⟨h.1, h.2.sec, h.2.min, h.2.hour, h.2.mday, h.2.mon, h.2.wday, h.2.yday⟩

/-- The numbers that the conversions read are in the ranges of the fields that they set. -/
theorem conversion_number {c : Char} {k : Conversion} {llim ulim : ℕ}
    {set : Tm → Bool → ℤ → Tm × Bool} (h : conversion c = some k)
    (hk : k.action = .number llim ulim set) (htm : tm.InRange) (b : Bool) {i : ℕ}
    (hlow : llim ≤ i) (hhigh : i ≤ ulim) : (set tm b i).1.InRange := by
  obtain ⟨hsec, hmin, hhour, hmday, hmon, hwday, hyday⟩ := htm
  unfold conversion at h
  split at h <;> cases h <;> cases hk <;>
    first
    | exact ⟨hsec, hmin, hhour, hmday, hmon, hwday, hyday⟩
    | (cases b <;> exact ⟨hsec, hmin, hhour, hmday, hmon, hwday, hyday⟩)
    | (constructor <;> dsimp only <;> omega)

theorem day_range {r : ℕ × List Char} (h : findString buf day abday = some r) :
    0 ≤ (r.1 : ℤ) ∧ (r.1 : ℤ) ≤ 6 := by
  have hlt := (findString_spec h (show day.length ≤ 7 by decide)
    (show abday.length ≤ 7 by decide)).1
  omega

theorem mon_range {r : ℕ × List Char} (h : findString buf mon abmon = some r) :
    0 ≤ (r.1 : ℤ) ∧ (r.1 : ℤ) ≤ 11 := by
  have hlt := (findString_spec h (show mon.length ≤ 12 by decide)
    (show abmon.length ≤ 12 by decide)).1
  omega

/-- The names that the conversions read are in the ranges of the fields that they set. -/
theorem conversion_names {c : Char} {k : Conversion} {n1 n2 : List (List Char)}
    {set : Tm → ℤ → Tm} (h : conversion c = some k) (hk : k.action = .names n1 n2 set)
    (htm : tm.InRange) {r : ℕ × List Char} (hr : findString buf n1 n2 = some r) :
    (set tm r.1).InRange := by
  obtain ⟨hsec, hmin, hhour, hmday, hmon, hwday, hyday⟩ := htm
  unfold conversion at h
  split at h <;> cases h <;> cases hk <;>
    first
    | exact ⟨hsec, hmin, hhour, hmday, hmon, day_range hr, hyday⟩
    | exact ⟨hsec, hmin, hhour, hmday, mon_range hr, hwday, hyday⟩

theorem performOffset_keeps {s' : ParseState} {b : List Char} (h : Keeps buf s)
    (hb : b <:+ s.buf) (hs' : performOffset s b = some s') : Keeps buf s' := by
  obtain ⟨-, heq⟩ := Option.ite_none_right_eq_some.mp hs'
  obtain rfl := Option.some.inj heq
  exact (h.isdst 0).rest ((offsetDigits_suffix 0 0 b).trans hb)

theorem performZone_keeps {s' : ParseState} {b : List Char} (h : Keeps buf s)
    (hb : b <:+ s.buf) (hs' : performZone s b = some s') : Keeps buf s' := by
  unfold performZone at hs'
  split at hs'
  next rest =>
    obtain rfl := Option.some.inj hs'
    exact (h.isdst 0).rest ((List.suffix_append ['G', 'M', 'T'] rest).trans hb)
  · cases hs'
  next rest =>
    obtain rfl := Option.some.inj hs'
    exact (h.isdst 0).rest ((List.suffix_append ['U', 'T'] rest).trans hb)
  · cases hs'
  next rest =>
    obtain rfl := Option.some.inj hs'
    exact (h.isdst 0).rest ((List.suffix_cons 'Z' rest).trans hb)
  next rest => exact performOffset_keeps h ((List.suffix_cons '+' rest).trans hb) hs'
  next rest => exact performOffset_keeps h ((List.suffix_cons '-' rest).trans hb) hs'
  · split at hs'
    next r hr =>
      obtain rfl := Option.some.inj hs'
      exact h.rest ((findString_spec hr (Nat.le_refl _) (Nat.zero_le _)).2.trans hb)
    · split at hs'
      next r hr =>
        obtain rfl := Option.some.inj hs'
        exact (h.isdst 1).rest ((findString_spec hr (Nat.le_refl _) (Nat.zero_le _)).2.trans hb)
      · split at hs'
        · obtain ⟨-, heq⟩ := Option.ite_none_right_eq_some.mp hs'
          obtain rfl := Option.some.inj heq
          exact h.rest ((List.suffix_cons _ _).trans hb)
        · cases hs'

/-- A conversion keeps the ranges. -/
theorem perform_keeps {c : Char} {k : Conversion} (hc : conversion c = some k)
    (hrec : ∀ sub b tm, tm.InRange → Spec (fun _ => True)
      (fun r => r.1 <:+ b ∧ r.2.InRange) (recurse sub b tm)) (h : Keeps buf s) :
    Spec (fun _ => True) (Keeps buf) (perform tzname recurse s k.action) := by
  cases hk : k.action with
  | percent =>
      rw [perform]
      split
      next rest hbuf => exact h.rest (hbuf ▸ List.suffix_cons '%' rest)
      next => trivial
  | format sub =>
      exact (hrec sub s.buf s.tm h.2).map fun r hr => ⟨hr.1.trans h.1, hr.2⟩
  | names n1 n2 set =>
      refine spec_orNull trivial fun s' hs' => ?_
      obtain ⟨r, hr, rfl⟩ := Option.map_eq_some_iff.mp hs'
      have hsuffix := (findString_spec hr (Nat.le_max_left _ _) (Nat.le_max_right _ _)).2
      exact ⟨hsuffix.trans h.1, conversion_names hc hk h.2 hr⟩
  | number llim ulim set =>
      refine spec_orNull trivial fun s' hs' => ?_
      obtain ⟨r, hr, rfl⟩ := Option.map_eq_some_iff.mp hs'
      obtain ⟨hlow, hhigh, hsuffix⟩ := convNum_spec hr
      exact ⟨hsuffix.trans h.1, conversion_number hc hk h.2 s.splitYear hlow hhigh⟩
  | meridiem =>
      refine spec_orNull trivial fun s' hs' => ?_
      obtain ⟨r, hr, heq⟩ := Option.bind_eq_some_iff.mp hs'
      obtain ⟨hhour, hs''⟩ := Option.ite_none_left_eq_some.mp heq
      obtain rfl := Option.some.inj hs''
      obtain ⟨hlt, hsuffix⟩ :=
        findString_spec hr (show amPm.length ≤ 2 by decide) (show 0 ≤ 2 by decide)
      obtain ⟨hsec, hmin, hhour', hmday, hmon, hwday, hyday⟩ := h.2
      exact ⟨hsuffix.trans h.1, hsec, hmin, by dsimp only; omega, hmday, hmon, hwday, hyday⟩
  | isoYear =>
      rw [perform]
      split
      next => trivial
      next c rest hbuf =>
        exact h.rest (hbuf ▸ (List.dropWhile_suffix _).trans (List.suffix_cons c rest))
  | zone =>
      rw [perform]
      split
      next rest hbuf =>
        exact (h.isdst 0).rest (hbuf ▸ List.suffix_append ['G', 'M', 'T'] rest)
      next =>
        split
        next => exact h
        next names =>
          refine spec_orNull trivial fun s' hs' => ?_
          obtain ⟨r, hr, rfl⟩ := Option.map_eq_some_iff.mp hs'
          exact (h.isdst r.1).rest (findString_spec hr (Nat.le_refl _) (Nat.zero_le _)).2
  | offset =>
      exact spec_orNull trivial fun s' hs' =>
        performZone_keeps h (List.dropWhile_suffix _) hs'
  | space => exact h.rest (List.dropWhile_suffix _)

theorem convert_keeps
    (hrec : ∀ sub b tm, tm.InRange → Spec (fun _ => True)
      (fun r => r.1 <:+ b ∧ r.2.InRange) (recurse sub b tm)) (h : Keeps buf s) :
    Spec (fun _ => True) (Keeps buf) (convert tzname recurse s item) := by
  cases item with
  | space => exact h.rest (List.dropWhile_suffix _)
  | literal c =>
      rw [convert]
      split
      next => trivial
      next b rest hbuf =>
        split
        next => exact h.rest (hbuf ▸ List.suffix_cons b rest)
        next => trivial
  | conv alt c =>
      rw [convert]
      cases hc : conversion c with
      | none => trivial
      | some k =>
          refine (perform_keeps hc hrec h).bind fun s' _ hs' => ?_
          split
          next => exact hs'
          next => trivial

/-- **What is read is in range.**  Whatever the format and the text are, the function ends with a
part of the text and with fields in their ranges. -/
theorem strptimeAt_keeps (depth : ℕ) (htm : tm.InRange) :
    Spec (fun _ => True) (fun r => r.1 <:+ buf ∧ r.2.InRange)
      (strptimeAt tzname depth fmt buf tm) := by
  induction depth generalizing fmt buf tm with
  | zero => trivial
  | succ depth ih =>
      have hloop : ∀ (items : List FmtItem) s, Keeps buf s → Spec (fun _ => True) (Keeps buf)
          (items.foldlM (convert tzname (strptimeAt tzname depth)) s) := by
        intro items
        induction items with
        | nil => exact fun s hs => hs
        | cons item items ihitems =>
            intro s hs
            rw [List.foldlM_cons]
            exact (convert_keeps (fun sub b tm htm => ih htm) hs).bind
              fun s' _ hs' => ihitems s' hs'
      exact (hloop (lex fmt) ⟨buf, tm, false⟩ ⟨List.suffix_rfl, htm⟩).bind fun s _ hs => hs

end

end LuaSys.Date
