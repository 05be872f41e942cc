import LuaSys.Date.Strptime

/-!
# The text of a date in memory

`strptime` has a pointer to its text.  Here a pointer is what is left of the memory from it on, and
every read through a pointer finds out whether there is something left.  The memory ends behind the
null character of the text, so that each function that reads may run over the end.

These are the functions of `Date/Strptime.lean`, with their reads.  They do what those on lists do,
where the end of the list stands for the null character, and only `%G` runs over: it goes behind
the null character without a look at it.

The text may have null characters in it, as the strings of Lua do.  The format and the names of the
zones are strings of C.

## Main definitions

* `CString` — a string of C.
* `inMemory` — the memory of a text.
* `Memory.convNum`, `Memory.findString` — numbers and names.
* `Memory.perform`, `Memory.convert` — the conversions.
* `Memory.strptime` — the function.

## Main results

* `strptime_inMemory` — the function does what it does on a list.
* `strptime_readsBehind_iff` — it reads behind the text if and only if it comes to `%G` at the null
  character.
-/

namespace LuaSys.Date

open LuaSys.Lib

/-- A string of C: the characters up to the null character. -/
structure CString where
  chars : List Char
  noNull : '\x00' ∉ chars

/-- The memory of a text. -/
def inMemory (text : List Char) : List Char := text ++ ['\x00']

/-! ## The reads -/

namespace Memory

/-- `if (c != *bp++) return NULL`. -/
def expect (c : Char) : List Char → Except ParseFail (List Char)
  | [] => .error .overrun
  | b :: bp => if c = b then .ok bp else .error .null

/-- `while (p(*bp)) bp++`. -/
def skip (p : Char → Bool) : List Char → Except ParseFail (List Char)
  | [] => .error .overrun
  | c :: bp => if p c then skip p bp else .ok (c :: bp)

/-- The loop of `conv_num`, at the digit `ch`. -/
def convDigits (ulim : ℕ) : ℕ → ℕ → Char → List Char → Except ParseFail (ℕ × List Char)
  | _, _, _, [] => .error .overrun
  | result, rulim, ch, c :: bp =>
      if (result * 10 + digitVal ch) * 10 ≤ ulim ∧ rulim / 10 ≠ 0 ∧ isdigit c = true then
        convDigits ulim (result * 10 + digitVal ch) (rulim / 10) c bp
      else .ok (result * 10 + digitVal ch, c :: bp)

/-- `conv_num`. -/
def convNum (bp : List Char) (llim ulim : ℕ) : Except ParseFail (ℕ × List Char) :=
  match bp with
  | [] => .error .overrun
  | ch :: bp =>
      if isdigit ch then do
        let r ← convDigits ulim 0 ulim ch bp
        if r.1 < llim ∨ ulim < r.1 then .error .null else .ok r
      else .error .null

/-- `strncmp` and `strncasecmp` with the length of the name: the text is read up to the first
character that differs.  The name has no null character. -/
def sameChars (f : Char → Char) : List Char → List Char → Except ParseFail Bool
  | [], _ => .ok true
  | _ :: _, [] => .error .overrun
  | n :: name, c :: bp => if f c = f n then sameChars f name bp else .ok false

/-- The loop of `find_string` over one table. -/
def findName (bp : List Char) : ℕ → List (List Char) → Except ParseFail (Option (ℕ × List Char))
  | _, [] => .ok none
  | i, name :: names => do
      let same ← sameChars Char.toLower name bp
      if same then .ok (some (i, bp.drop name.length)) else findName bp (i + 1) names

/-- `find_string`. -/
def findString (bp : List Char) (n1 n2 : List (List Char)) :
    Except ParseFail (Option (ℕ × List Char)) := do
  match ← findName bp 0 n1 with
  | some r => .ok (some r)
  | none => findName bp 0 n2

/-- The loop over the digits of an offset. -/
def offsetDigits : ℕ → ℕ → List Char → Except ParseFail (ℕ × ℕ × List Char)
  | i, offs, [] => if 4 ≤ i then .ok (i, offs, []) else .error .overrun
  | i, offs, c :: bp =>
      if 4 ≤ i then .ok (i, offs, c :: bp)
      else if isdigit c then offsetDigits (i + 1) (offs * 10 + digitVal c) bp
      else if i = 2 ∧ c = ':' then offsetDigits i offs bp
      else .ok (i, offs, c :: bp)

/-- The offset behind its sign. -/
def performOffset (s : ParseState) (bp : List Char) : Except ParseFail ParseState := do
  let r ← offsetDigits 0 0 bp
  if r.1 = 2 ∨ r.1 = 4 ∧ r.2.1 % 100 < 60 then
    .ok { s with buf := r.2.2, tm := { s.tm with isdst := 0 } }
  else .error .null

/-- The last cases of `%z`, at the letter `c`. -/
def performLetter (s : ParseState) (c : Char) (bp : List Char) : Except ParseFail ParseState := do
  match ← findString (c :: bp) nast [] with
  | some r => .ok { s with buf := r.2 }
  | none =>
      match ← findString (c :: bp) nadt [] with
      | some r => .ok { s with buf := r.2, tm := { s.tm with isdst := 1 } }
      | none =>
          if 'A' ≤ c ∧ c ≤ 'I' ∨ 'L' ≤ c ∧ c ≤ 'Y' then .ok { s with buf := bp }
          else .error .null

/-- `%z`, at the first character that is not white space. -/
def performZone (s : ParseState) : List Char → Except ParseFail ParseState
  | [] => .error .overrun
  | c :: bp =>
      if c = 'G' then do
        let bp ← expect 'M' bp
        let bp ← expect 'T' bp
        .ok { s with buf := bp, tm := { s.tm with isdst := 0 } }
      else if c = 'U' then do
        let bp ← expect 'T' bp
        .ok { s with buf := bp, tm := { s.tm with isdst := 0 } }
      else if c = 'Z' then .ok { s with buf := bp, tm := { s.tm with isdst := 0 } }
      else if c = '+' ∨ c = '-' then performOffset s bp
      else performLetter s c bp

def gmt : List Char := ['G', 'M', 'T']

section
variable (tzname : Option (List CString))

/-- What a conversion does to the state, as on a list. -/
def perform (recurse : List Char → List Char → Tm → Except ParseFail (List Char × Tm))
    (s : ParseState) : Action → Except ParseFail ParseState
  | .percent => do
      let bp ← expect '%' s.buf
      .ok { s with buf := bp }
  | .format fmt => (recurse fmt s.buf s.tm).map fun r => { s with buf := r.1, tm := r.2 }
  | .names n1 n2 set => do
      let r ← findString s.buf n1 n2
      orNull (r.map fun r => { s with buf := r.2, tm := set s.tm r.1 })
  | .number llim ulim set =>
      (convNum s.buf llim ulim).map fun r =>
        ⟨r.2, (set s.tm s.splitYear r.1).1, (set s.tm s.splitYear r.1).2⟩
  | .meridiem => do
      let r ← findString s.buf amPm []
      orNull (r.bind fun r =>
        if 11 < s.tm.hour then none
        else some { s with buf := r.2, tm := { s.tm with hour := s.tm.hour + r.1 * 12 } })
  | .isoYear => do
      -- the first step of the pointer is made without a read
      let bp ← skip isdigit s.buf.tail
      .ok { s with buf := bp }
  | .zone => do
      let same ← sameChars id gmt s.buf
      if same then .ok { s with buf := s.buf.drop 3, tm := { s.tm with isdst := 0 } }
      else
        match tzname with
        | none => .ok s
        | some names =>
            let r ← findString s.buf (names.map CString.chars) []
            orNull (r.map fun r => { s with buf := r.2, tm := { s.tm with isdst := r.1 } })
  | .offset => do
      let bp ← skip isspace s.buf
      performZone s bp
  | .space => do
      let bp ← skip isspace s.buf
      .ok { s with buf := bp }

/-- One item of the format. -/
def convert (recurse : List Char → List Char → Tm → Except ParseFail (List Char × Tm))
    (s : ParseState) : FmtItem → Except ParseFail ParseState
  | .space => do
      let bp ← skip isspace s.buf
      .ok { s with buf := bp }
  | .literal c => do
      let bp ← expect c s.buf
      .ok { s with buf := bp }
  | .conv alt c =>
      match conversion c with
      | none => .error .null
      | some k => do
          let s' ← perform tzname recurse s k.action
          if legalAlt k.legal alt then .ok s' else .error .null

/-- `strptime`, with the depth of its recursion. -/
def strptimeAt : ℕ → List Char → List Char → Tm → Except ParseFail (List Char × Tm)
  | 0, _, _, _ => .error .depth
  | depth + 1, fmt, bp, tm => do
      let s ← (lex fmt).foldlM (convert tzname (strptimeAt depth)) ⟨bp, tm, false⟩
      .ok (s.buf, s.tm)

/-- `strptime`. -/
def strptime (fmt : CString) (bp : List Char) (tm : Tm) : Except ParseFail (List Char × Tm) :=
  strptimeAt tzname 3 fmt.chars bp tm

end

/-! ## The same as on a list -/

section
variable {rest : List Char}

/-- A result, with its pointer in memory. -/
def result {α : Type} (r : α × List Char) : α × List Char := (r.1, inMemory r.2)

/-- A state, with its pointer in memory. -/
def state (s : ParseState) : ParseState := { s with buf := inMemory s.buf }

/-- A null pointer under a condition. -/
theorem ite_ok {α β : Type} {p : Prop} [Decidable p] (f : α → β) (a : α) :
    (if p then Except.ok (f a) else .error .null) =
      (orNull (if p then some a else none)).map f := by
  split <;> rfl

theorem ite_null {α β : Type} {p : Prop} [Decidable p] (f : α → β) (a : α) :
    (if p then .error .null else Except.ok (f a)) =
      (orNull (if p then none else some a)).map f := by
  split <;> rfl

theorem orNull_ite {α β : Type} {p : Prop} [Decidable p] (f : α → β) (a : α) :
    orNull (if p then none else some (f a)) =
      (orNull (if p then none else some a)).map f := by
  split <;> rfl

theorem inMemory_nil : inMemory [] = ['\x00'] := rfl

theorem inMemory_cons (c : Char) : inMemory (c :: rest) = c :: inMemory rest := rfl

theorem inMemory_drop {n : ℕ} (h : n ≤ rest.length) :
    (inMemory rest).drop n = inMemory (rest.drop n) :=
  List.drop_append_of_le_length h

theorem inMemory_eq_null : inMemory rest = ['\x00'] ↔ rest = [] := by
  rw [inMemory, List.append_left_eq_self]

theorem expect_nil {c : Char} (hc : c ≠ '\x00') : expect c (inMemory []) = .error .null :=
  if_neg hc

theorem expect_cons (c b : Char) :
    expect c (inMemory (b :: rest)) = if c = b then .ok (inMemory rest) else .error .null := rfl

theorem skip_inMemory {p : Char → Bool} (hnull : p '\x00' = false) :
    skip p (inMemory rest) = .ok (inMemory (rest.dropWhile p)) := by
  induction rest with
  | nil =>
      rw [inMemory_nil, skip, hnull]
      rfl
  | cons c rest ih =>
      rw [inMemory_cons, skip, List.dropWhile_cons, ih]
      split <;> rfl

theorem convDigits_inMemory (ulim result rulim : ℕ) (ch : Char) :
    convDigits ulim result rulim ch (inMemory rest) =
      .ok (Memory.result (Date.convDigits ulim result rulim ch rest)) := by
  induction rest generalizing result rulim ch with
  | nil =>
      have hnull : isdigit '\x00' ≠ true := by decide
      rw [inMemory_nil, convDigits, if_neg fun h => hnull h.2.2]
      rfl
  | cons c rest ih =>
      rw [inMemory_cons, convDigits, Date.convDigits, ih]
      split <;> rfl

theorem convNum_inMemory (llim ulim : ℕ) :
    convNum (inMemory rest) llim ulim =
      (orNull (Date.convNum rest llim ulim)).map Memory.result := by
  cases rest with
  | nil => rfl
  | cons ch rest =>
      rw [inMemory_cons, convNum, Date.convNum, convDigits_inMemory]
      generalize Date.convDigits ulim 0 ulim ch rest = r
      by_cases hch : isdigit ch = true
      · rw [if_pos hch, if_pos hch]
        exact ite_null Memory.result r
      · rw [if_neg hch, if_neg hch]
        rfl

/-- The characters of a name are compared, and none of them is the null character. -/
theorem sameChars_inMemory {f : Char → Char} (hf : ∀ c, f c = f '\x00' → c = '\x00')
    {name : List Char} (hname : '\x00' ∉ name) :
    sameChars f name (inMemory rest) =
      .ok (decide ((rest.take name.length).map f = name.map f)) := by
  induction name generalizing rest with
  | nil => rfl
  | cons n name ih =>
      obtain ⟨hn, hname⟩ := not_or.mp (fun h => hname (List.mem_cons.mpr h))
      cases rest with
      | nil =>
          rw [inMemory_nil, sameChars, if_neg fun h => hn (hf n h.symm).symm]
          rfl
      | cons c rest =>
          rw [inMemory_cons, sameChars, ih hname, List.length_cons, List.take_succ_cons,
            List.map_cons, List.map_cons]
          by_cases hc : f c = f n
          · rw [if_pos hc, hc]
            exact congrArg _ (decide_eq_decide.mpr (List.cons_inj_right _).symm)
          · rw [if_neg hc, decide_eq_false fun h => hc (List.cons.inj h).1]

/-- A name that is found is not longer than the text. -/
theorem length_le_of_map_take {f : Char → Char} {name : List Char}
    (h : (rest.take name.length).map f = name.map f) : name.length ≤ rest.length := by
  have hlen := congrArg List.length h
  rw [List.length_map, List.length_map, List.length_take] at hlen
  omega

theorem toLower_null {c : Char} (h : c.toLower = Char.toLower '\x00') : c = '\x00' := by
  unfold Char.toLower at h
  split at h
  next hc =>
    obtain ⟨hge, hle⟩ := hc
    have hval : c.val + ('a'.val - 'A'.val) = 0 := congrArg Char.val h
    exact absurd hval (by grind)
  next => exact h

theorem findName_inMemory {names : List (List Char)} (hnames : ∀ name ∈ names, '\x00' ∉ name)
    (i : ℕ) : findName (inMemory rest) i names =
      .ok ((Date.findName rest i names).map Memory.result) := by
  induction names generalizing i with
  | nil => rfl
  | cons name names ih =>
      obtain ⟨hname, hnames⟩ := List.forall_mem_cons.mp hnames
      rw [findName, sameChars_inMemory (fun _ => toLower_null) hname, Date.findName, ih hnames]
      by_cases h : matchesName name rest = true
      · rw [if_pos h]
        have hlen := length_le_of_map_take (of_decide_eq_true h)
        change (if matchesName name rest then _ else _) = _
        rw [if_pos h, inMemory_drop hlen]
        rfl
      · rw [if_neg h]
        exact if_neg h

theorem findString_inMemory {n1 n2 : List (List Char)} (h1 : ∀ name ∈ n1, '\x00' ∉ name)
    (h2 : ∀ name ∈ n2, '\x00' ∉ name) : findString (inMemory rest) n1 n2 =
      .ok ((Date.findString rest n1 n2).map Memory.result) := by
  rw [findString, findName_inMemory h1, findName_inMemory h2, Date.findString]
  cases Date.findName rest 0 n1 with
  | none => rfl
  | some r => rfl

/-- An offset, with the pointer behind it in memory. -/
def offsetResult (r : ℕ × ℕ × List Char) : ℕ × ℕ × List Char := (r.1, r.2.1, inMemory r.2.2)

theorem offsetDigits_inMemory (i offs : ℕ) : offsetDigits i offs (inMemory rest) =
    .ok (offsetResult (Date.offsetDigits i offs rest)) := by
  induction rest generalizing i offs with
  | nil =>
      have hcolon : ¬(i = 2 ∧ '\x00' = ':') := fun h => absurd h.2 (by decide)
      rw [inMemory_nil, offsetDigits, if_neg (show isdigit '\x00' ≠ true by decide),
        if_neg hcolon, ite_self]
      rfl
  | cons c rest ih =>
      rw [inMemory_cons, offsetDigits, Date.offsetDigits, ih, ih]
      split
      · rfl
      · split
        · rfl
        · split <;> rfl

theorem performOffset_inMemory (s : ParseState) : performOffset (Memory.state s) (inMemory rest) =
    (orNull (Date.performOffset s rest)).map Memory.state := by
  rw [performOffset, offsetDigits_inMemory, Date.performOffset]
  generalize Date.offsetDigits 0 0 rest = r
  exact ite_ok Memory.state { s with buf := r.2.2, tm := { s.tm with isdst := 0 } }

theorem nast_noNull : ∀ name ∈ nast, '\x00' ∉ name := by decide

theorem nadt_noNull : ∀ name ∈ nadt, '\x00' ∉ name := by decide

/-- The cases of `%z` for the letters that are not tried before. -/
theorem performLetter_inMemory (s : ParseState) {c : Char} (hG : c ≠ 'G') (hU : c ≠ 'U')
    (hZ : c ≠ 'Z') (hplus : c ≠ '+') (hminus : c ≠ '-') :
    performLetter (Memory.state s) c (inMemory rest) =
      (orNull (Date.performZone s (c :: rest))).map Memory.state := by
  rw [performLetter, ← inMemory_cons, findString_inMemory nast_noNull (List.forall_mem_nil _),
    findString_inMemory nadt_noNull (List.forall_mem_nil _), Date.performZone]
  · cases Date.findString (c :: rest) nast [] with
    | some r => rfl
    | none =>
        cases Date.findString (c :: rest) nadt [] with
        | some r => rfl
        | none => exact ite_ok Memory.state { s with buf := rest }
  · exact fun _ h => hG (List.cons.inj h).1
  · exact fun _ h => hG (List.cons.inj h).1
  · exact fun _ h => hU (List.cons.inj h).1
  · exact fun _ h => hU (List.cons.inj h).1
  · exact fun _ h => hZ (List.cons.inj h).1
  · exact fun _ h => hplus (List.cons.inj h).1
  · exact fun _ h => hminus (List.cons.inj h).1

/-- `"MT"` behind a `G`, and `"T"` behind a `U`. -/
theorem performZone_G (s : ParseState) : performZone (Memory.state s) (inMemory ('G' :: rest)) =
    (orNull (Date.performZone s ('G' :: rest))).map Memory.state := by
  change (expect 'M' (inMemory rest) >>= _) = _
  cases rest with
  | nil => rfl
  | cons m rest =>
      rw [expect_cons]
      by_cases hm : 'M' = m
      · subst hm
        rw [if_pos rfl]
        change (expect 'T' (inMemory rest) >>= _) = _
        cases rest with
        | nil => rfl
        | cons t rest =>
            rw [expect_cons]
            by_cases ht : 'T' = t
            · subst ht
              rfl
            · rw [if_neg ht, Date.performZone]
              · rfl
              · rintro _ ⟨⟩
                exact ht rfl
      · rw [if_neg hm, Date.performZone]
        · rfl
        · rintro _ ⟨⟩
          exact hm rfl

theorem performZone_U (s : ParseState) : performZone (Memory.state s) (inMemory ('U' :: rest)) =
    (orNull (Date.performZone s ('U' :: rest))).map Memory.state := by
  change (expect 'T' (inMemory rest) >>= _) = _
  cases rest with
  | nil => rfl
  | cons t rest =>
      rw [expect_cons]
      by_cases ht : 'T' = t
      · subst ht
        rfl
      · rw [if_neg ht, Date.performZone]
        · rfl
        · rintro _ ⟨⟩
          exact ht rfl

theorem performZone_inMemory (s : ParseState) : performZone (Memory.state s) (inMemory rest) =
    (orNull (Date.performZone s rest)).map Memory.state := by
  cases rest with
  | nil => rfl
  | cons c rest =>
      by_cases hG : c = 'G'
      · exact hG ▸ performZone_G s
      by_cases hU : c = 'U'
      · exact hU ▸ performZone_U s
      by_cases hZ : c = 'Z'
      · subst hZ
        rfl
      by_cases hplus : c = '+'
      · subst hplus
        exact performOffset_inMemory s
      by_cases hminus : c = '-'
      · subst hminus
        exact performOffset_inMemory s
      rw [inMemory_cons, performZone, if_neg hG, if_neg hU, if_neg hZ,
        if_neg (not_or.mpr ⟨hplus, hminus⟩)]
      exact performLetter_inMemory s hG hU hZ hplus hminus

end

/-- What a call returns, with its pointer in memory. -/
def finish (r : List Char × Tm) : List Char × Tm := (inMemory r.1, r.2)

/-- The names of the zones, as lists. -/
def zones (tzname : Option (List CString)) : Option (List (List Char)) :=
  tzname.map (List.map CString.chars)

theorem chars_noNull (names : List CString) :
    ∀ name ∈ names.map CString.chars, '\x00' ∉ name := by
  intro name hmem
  obtain ⟨name, -, rfl⟩ := List.mem_map.mp hmem
  exact name.noNull

/-- The tables have no null character. -/
theorem conversion_noNull {c : Char} {k : Conversion} {n1 n2 : List (List Char)}
    {set : Tm → ℤ → Tm} (h : conversion c = some k) (hk : k.action = .names n1 n2 set) :
    (∀ name ∈ n1, '\x00' ∉ name) ∧ ∀ name ∈ n2, '\x00' ∉ name := by
  unfold conversion at h
  split at h <;> cases h <;> cases hk <;> decide

/-- The formats that conversions stand for have none. -/
theorem subFormat_noNull {c : Char} {sub : List Char} (h : subFormat c = some sub) :
    '\x00' ∉ sub := by
  have hall : ∀ sub ∈ ['c', 'D', 'F', 'R', 'r', 'T', 'X', 'x'].filterMap subFormat,
      '\x00' ∉ sub := by decide
  exact hall sub (subFormat_mem h)

theorem lexFrom_noNull {mode : LexMode} {fmt : List Char} (h : '\x00' ∉ fmt) :
    .literal '\x00' ∉ lexFrom mode fmt := by
  induction fmt generalizing mode with
  | nil => cases mode <;> simp [lexFrom]
  | cons c fmt ih =>
      obtain ⟨hc, hfmt⟩ := not_or.mp (fun hmem => h (List.mem_cons.mpr hmem))
      have hcons : ∀ {item : FmtItem} {mode : LexMode}, item ≠ .literal '\x00' →
          .literal '\x00' ∉ item :: lexFrom mode fmt :=
        fun hitem hmem => (List.mem_cons.mp hmem).elim (fun heq => hitem heq.symm) (ih hfmt)
      cases mode with
      | text =>
          rw [lexFrom]
          split
          · exact hcons nofun
          · split
            · exact ih hfmt
            · exact hcons fun heq => hc (FmtItem.literal.inj heq).symm
      | percent =>
          rw [lexFrom]
          split
          · exact ih hfmt
          · split
            · exact ih hfmt
            · exact hcons nofun
      | modifier alt => exact hcons nofun

theorem lex_noNull {fmt : List Char} (h : '\x00' ∉ fmt) : .literal '\x00' ∉ lex fmt :=
  lexFrom_noNull h

section
variable {tzname : Option (List CString)}
variable {recurse recurse' : List Char → List Char → Tm → Except ParseFail (List Char × Tm)}

theorem perform_percent_inMemory (s : ParseState) :
    perform tzname recurse' (Memory.state s) .percent =
      (Date.perform (zones tzname) recurse s .percent).map Memory.state := by
  obtain ⟨buf, tm, split⟩ := s
  rw [perform]
  cases buf with
  | nil => rfl
  | cons b buf =>
      change (expect '%' (inMemory (b :: buf)) >>= _) = _
      rw [expect_cons]
      by_cases hb : '%' = b
      · subst hb
        rfl
      · rw [if_neg hb, Date.perform]
        split
        next heq => exact absurd (List.cons.inj heq).1.symm hb
        next => rfl

/-- `%Z`, where the text is another zone. -/
theorem perform_zone {zones : Option (List (List Char))} {buf : List Char} {tm : Tm} {split : Bool}
    (h : buf.take 3 ≠ gmt) : Date.perform zones recurse ⟨buf, tm, split⟩ .zone =
      match zones with
      | none => .ok ⟨buf, tm, split⟩
      | some names => orNull ((Date.findString buf names []).map fun r =>
          ⟨r.2, { tm with isdst := r.1 }, split⟩) := by
  rw [Date.perform]
  split
  next rest heq =>
    dsimp only at heq
    subst heq
    exact absurd rfl h
  next => rfl

theorem perform_zone_inMemory (s : ParseState) :
    perform tzname recurse' (Memory.state s) .zone =
      (Date.perform (zones tzname) recurse s .zone).map Memory.state := by
  obtain ⟨buf, tm, split⟩ := s
  have hsame : sameChars id gmt (inMemory buf) =
      .ok (decide ((buf.take 3).map id = gmt.map id)) :=
    sameChars_inMemory (fun _ h => h) (by decide)
  rw [List.map_id, List.map_id] at hsame
  change (sameChars id gmt (inMemory buf) >>= _) = _
  rw [hsame]
  by_cases h : buf.take 3 = gmt
  · obtain ⟨rest, rfl⟩ : ∃ rest, buf = 'G' :: 'M' :: 'T' :: rest :=
      ⟨buf.drop 3, by rw [← List.take_append_drop 3 buf, h]; rfl⟩
    rfl
  · rw [decide_eq_false h, perform_zone h]
    cases tzname with
    | none => rfl
    | some names =>
        change (findString (inMemory buf) (names.map CString.chars) [] >>= _) = _
        rw [findString_inMemory (chars_noNull names) (List.forall_mem_nil _)]
        change _ = (orNull ((Date.findString buf (names.map CString.chars) []).map _)).map _
        cases Date.findString buf (names.map CString.chars) [] with
        | none => rfl
        | some r => rfl

/-- A conversion, if the recursive calls go along with each other. -/
theorem perform_inMemory (hrec : ∀ c sub, subFormat c = some sub → ∀ buf tm,
      recurse' sub (inMemory buf) tm = (recurse sub buf tm).map finish)
    {c : Char} {k : Conversion} (hc : conversion c = some k) (s : ParseState) :
    perform tzname recurse' (Memory.state s) k.action =
      (Date.perform (zones tzname) recurse s k.action).map Memory.state := by
  obtain ⟨buf, tm, split⟩ := s
  cases hk : k.action with
  | percent => exact perform_percent_inMemory ⟨buf, tm, split⟩
  | format sub =>
      rw [perform, Date.perform]
      change (recurse' sub (inMemory buf) tm).map _ = _
      rw [hrec c sub (subFormat_eq hc hk)]
      dsimp only
      cases recurse sub buf tm with
      | error e => rfl
      | ok r => rfl
  | names n1 n2 set =>
      obtain ⟨h1, h2⟩ := conversion_noNull hc hk
      rw [perform, Date.perform]
      change (findString (inMemory buf) n1 n2 >>= _) = _
      rw [findString_inMemory h1 h2]
      dsimp only
      cases Date.findString buf n1 n2 with
      | none => rfl
      | some r => rfl
  | number llim ulim set =>
      rw [perform, Date.perform]
      change (convNum (inMemory buf) llim ulim).map _ = _
      rw [convNum_inMemory]
      dsimp only
      cases Date.convNum buf llim ulim with
      | none => rfl
      | some r => rfl
  | meridiem =>
      rw [perform, Date.perform]
      change (findString (inMemory buf) amPm [] >>= _) = _
      rw [findString_inMemory (by decide) (List.forall_mem_nil _)]
      dsimp only
      cases Date.findString buf amPm [] with
      | none => rfl
      | some r =>
          exact orNull_ite Memory.state
            ⟨r.2, { tm with hour := tm.hour + r.1 * 12 }, split⟩
  | isoYear =>
      rw [perform, Date.perform]
      cases buf with
      | nil => rfl
      | cons b buf =>
          change (skip isdigit (inMemory buf) >>= _) = _
          rw [skip_inMemory rfl]
          rfl
  | zone => exact perform_zone_inMemory ⟨buf, tm, split⟩
  | offset =>
      rw [perform, Date.perform]
      change (skip isspace (inMemory buf) >>= _) = _
      rw [skip_inMemory rfl]
      exact performZone_inMemory ⟨buf, tm, split⟩
  | space =>
      rw [perform, Date.perform]
      change (skip isspace (inMemory buf) >>= _) = _
      rw [skip_inMemory rfl]
      rfl

theorem convert_inMemory (hrec : ∀ c sub, subFormat c = some sub → ∀ buf tm,
      recurse' sub (inMemory buf) tm = (recurse sub buf tm).map finish)
    {item : FmtItem} (hnull : item ≠ .literal '\x00') (s : ParseState) :
    convert tzname recurse' (Memory.state s) item =
      (Date.convert (zones tzname) recurse s item).map Memory.state := by
  obtain ⟨buf, tm, split⟩ := s
  cases item with
  | space =>
      change (skip isspace (inMemory buf) >>= _) = _
      rw [skip_inMemory rfl]
      rfl
  | literal c =>
      change (expect c (inMemory buf) >>= _) = _
      cases buf with
      | nil =>
          rw [expect_nil fun h => hnull (congrArg _ h)]
          rfl
      | cons b buf =>
          rw [expect_cons, Date.convert]
          dsimp only
          by_cases hb : c = b
          · rw [if_pos hb, if_pos hb]
            rfl
          · rw [if_neg hb, if_neg hb]
            rfl
  | conv alt c =>
      rw [convert, Date.convert]
      cases hc : conversion c with
      | none => rfl
      | some k =>
          dsimp only
          rw [perform_inMemory hrec hc]
          cases Date.perform (zones tzname) recurse ⟨buf, tm, split⟩ k.action with
          | error e => rfl
          | ok s' =>
              change (if legalAlt k.legal alt = true then _ else _) =
                (if legalAlt k.legal alt = true then _ else _ : Except _ _).map _
              split <;> rfl

/-- The loop over items that have no null character. -/
theorem foldlM_convert_inMemory (hrec : ∀ c sub, subFormat c = some sub → ∀ buf tm,
      recurse' sub (inMemory buf) tm = (recurse sub buf tm).map finish)
    {items : List FmtItem} (hnull : .literal '\x00' ∉ items) (s : ParseState) :
    items.foldlM (convert tzname recurse') (Memory.state s) =
      (items.foldlM (Date.convert (zones tzname) recurse) s).map Memory.state :=
  foldlM_image (fun _ hmem => convert_inMemory hrec fun h => hnull (h ▸ hmem)) s

theorem strptimeAt_inMemory (depth : ℕ) {fmt : List Char} (hfmt : '\x00' ∉ fmt)
    (buf : List Char) (tm : Tm) : strptimeAt tzname depth fmt (inMemory buf) tm =
      (Date.strptimeAt (zones tzname) depth fmt buf tm).map finish := by
  induction depth generalizing fmt buf tm with
  | zero => rfl
  | succ depth ih =>
      have hrec : ∀ c sub, subFormat c = some sub → ∀ buf tm,
          strptimeAt tzname depth sub (inMemory buf) tm =
            (Date.strptimeAt (zones tzname) depth sub buf tm).map finish :=
        fun c sub hsub => ih (subFormat_noNull hsub)
      rw [strptimeAt, Date.strptimeAt]
      change ((lex fmt).foldlM _ (Memory.state ⟨buf, tm, false⟩) >>= _) = _
      rw [foldlM_convert_inMemory hrec (lex_noNull hfmt)]
      cases (lex fmt).foldlM (Date.convert (zones tzname) (Date.strptimeAt (zones tzname) depth))
          ⟨buf, tm, false⟩ with
      | error e => rfl
      | ok s => rfl

end

end Memory

section
variable {tzname : Option (List CString)} {fmt : CString} {text : List Char} {tm : Tm}

/-- **In memory as on a list.** -/
theorem strptime_inMemory : Memory.strptime tzname fmt (inMemory text) tm =
    (strptime (Memory.zones tzname) fmt.chars text tm).map Memory.finish :=
  Memory.strptimeAt_inMemory 3 fmt.noNull text tm

/-- **Behind the text.**  The function reads behind the null character of its text if and only if
the format has a `%G` that it comes to when its pointer is at the null character. -/
theorem strptime_readsBehind_iff :
    Memory.strptime tzname fmt (inMemory text) tm = .error .overrun ↔
      ∃ pre alt post s, lex fmt.chars = pre ++ .conv alt 'G' :: post ∧ s.buf = ['\x00'] ∧
        pre.foldlM (Memory.convert tzname (Memory.strptimeAt tzname 2))
          ⟨inMemory text, tm, false⟩ = .ok s := by
  rw [strptime_inMemory, map_eq_error_iff, strptime_overrun_iff]
  have hloop : ∀ {pre post : List FmtItem} {alt : Option Alt},
      lex fmt.chars = pre ++ .conv alt 'G' :: post →
      pre.foldlM (Memory.convert tzname (Memory.strptimeAt tzname 2)) ⟨inMemory text, tm, false⟩ =
        (pre.foldlM (convert (Memory.zones tzname) (strptimeAt (Memory.zones tzname) 2))
          ⟨text, tm, false⟩).map Memory.state := by
    intro pre post alt hitems
    have hpre : .literal '\x00' ∉ pre := fun hmem =>
      Memory.lex_noNull fmt.noNull (hitems ▸ List.mem_append_left _ hmem)
    exact Memory.foldlM_convert_inMemory
      (fun c sub hsub => Memory.strptimeAt_inMemory 2 (Memory.subFormat_noNull hsub)) hpre
      ⟨text, tm, false⟩
  constructor
  · rintro ⟨pre, alt, post, s, hitems, hbuf, hpre⟩
    refine ⟨pre, alt, post, Memory.state s, hitems, Memory.inMemory_eq_null.mpr hbuf, ?_⟩
    rw [hloop hitems, hpre]
    rfl
  · rintro ⟨pre, alt, post, s, hitems, hbuf, hpre⟩
    rw [hloop hitems] at hpre
    obtain ⟨s', hs', rfl⟩ := map_eq_ok_iff.mp hpre
    exact ⟨pre, alt, post, s', hitems, Memory.inMemory_eq_null.mp hbuf, hs'⟩

/-- The second `%G` finds nothing left. -/
example : Memory.strptime tzname ⟨['%', 'G', '%', 'G'], by decide⟩ (inMemory ['7']) tm =
    .error .overrun := rfl

end

end LuaSys.Date
