import LuaSys.Lib.Word
import LuaSys.Proc.Spawn
import Mathlib.Data.List.Chain
import Mathlib.Tactic.Linarith

/-!
# The command line of a new process

The model of the part of `sys_spawn` for Windows that writes the name of the program and the
quoted arguments into one line.  A new program splits the line again, by rules in which the
backslashes in front of a quote stand for half as many, and the other ones for themselves.
The source writes two backslashes for each one, so those that are not in front of a quote
come out twice as many.

The bytes of the line are written one behind the other, so the highest one written is
given by their number.

## Main definitions

* `escapeArg`, `quoteArgs`, `spawnLine` — the loops of the source.
* `splitArgs` — the rules of the runtime library.
* `reread` — what an argument becomes.
* `LineOk` — the round trip, and that the buffer is not left.

## Main results

* `splitFrom_escape` — the quoted form of an argument is read as `reread`.
* `reread_eq_iff` — that is the argument if and only if its backslashes are in front of
  quotes or at its end.
* `spawnLine_eq` — the line, and when the source refuses it.
* `lineOk_iff` — exactly which command lines come back.
* `backslash_is_doubled` — the argument `a\b`.
-/

namespace LuaSys.Proc

open LuaSys.Lib

/-! ## The line -/

/-- The bytes `'"'`, `'\\'`, `' '` and `'\t'`. -/
def quote : UInt8 := 34
def backslash : UInt8 := 92
def space : UInt8 := 32
def tab : UInt8 := 9

/-- `sizeof(line)`, which is `MAX_PATHNAME*2`. -/
def lineSize : ℕ := 512 * 2

/-- `endp`. -/
def lineEnd : ℕ := lineSize - 2

/-- The bytes for one byte of an argument: "escape special chars". -/
def escapeByte (c : UInt8) : List UInt8 :=
  if c = quote ∨ c = backslash then [backslash, c] else [c]

/-- The loop over the bytes of an argument, which are written from `cp` on. -/
def escapeArg : List UInt8 → ℕ → List UInt8
  | [], _ => []
  | c :: arg, cp =>
      if cp < lineEnd then escapeByte c ++ escapeArg arg (cp + (escapeByte c).length) else []

/-- The bytes in front of `cp`; `refused` after `return 0`. -/
structure CommandLine where
  text : List UInt8
  refused : Bool
  deriving DecidableEq, Repr

section Line

variable {ν : Type*} (fmt : ν → List UInt8)

/-- The loop over the entries of the table from `i` on. -/
def quoteArgs : List (LuaValue ν) → ℕ → List UInt8 → CommandLine
  | [], _, text => ⟨text, false⟩
  | v :: t, i, text =>
      if i < maxArgs then
        match v.toString fmt with
        | none => ⟨text, false⟩
        | some arg =>
            let text := text ++ [quote]
            let text := text ++ escapeArg (cString arg) text.length
            if lineEnd ≤ text.length + 3 then ⟨text, true⟩
            else quoteArgs t (i + 1) (text ++ [quote, space])
      else ⟨text, false⟩

/-- The number of the bytes of the buffer up to the last one written, and the line up to its
NUL unless the source refuses it. -/
structure SpawnLine where
  high : ℕ
  line : Option (List UInt8)
  deriving DecidableEq, Repr

/-- "Fill command line"; `none` is an argument that is no table.  A copy of a negative length
leaves the buffer, and nothing is said about what follows. -/
def spawnLine (cmd : List UInt8) (table : Option (List (LuaValue ν))) : SpawnLine :=
  let len := int32 cmd.length
  if (lineSize : ℤ) - 2 ≤ len then ⟨0, none⟩
  else if len < 0 then ⟨sizeT len, none⟩
  else
    let r := quoteArgs fmt (table.getD []) 1 (cmd.take len.toNat ++ [space])
    ⟨r.text.length, if r.refused then none else some r.text.dropLast⟩

end Line

/-! ## The runtime library -/

/-- The rules for a command line.  A quote begins or ends a part with blanks; `arg` is the
argument read so far, and `n` backslashes have been met behind it. -/
def splitFrom (inQuotes : Bool) (arg : Option (List UInt8)) (n : ℕ) :
    List UInt8 → List (List UInt8)
  | [] => if arg = none ∧ n = 0 then [] else [arg.getD [] ++ List.replicate n backslash]
  | c :: s =>
      if c = backslash then splitFrom inQuotes arg (n + 1) s
      else if c = quote then
        -- `2n` backslashes and a delimiter, or `2n + 1` and a quote
        if n % 2 = 0 then
          splitFrom (!inQuotes) (some (arg.getD [] ++ List.replicate (n / 2) backslash)) 0 s
        else splitFrom inQuotes (some (arg.getD [] ++ List.replicate (n / 2) backslash ++ [quote])) 0 s
      else if (c = space ∨ c = tab) ∧ inQuotes = false then
        if arg = none ∧ n = 0 then splitFrom false none 0 s
        else (arg.getD [] ++ List.replicate n backslash) :: splitFrom false none 0 s
      else splitFrom inQuotes (some (arg.getD [] ++ List.replicate n backslash ++ [c])) 0 s

/-- The arguments behind the name of the program. -/
def splitArgs (line : List UInt8) : List (List UInt8) := splitFrom false none 0 line

/-! ## The property and its condition -/

/-- The quoted form of an argument, with the blank in front of it. -/
def quoted (arg : List UInt8) : List UInt8 :=
  space :: quote :: arg.flatMap escapeByte ++ [quote]

/-- The line for some arguments. -/
def fullLine (cmd : List UInt8) (args : List (List UInt8)) : List UInt8 :=
  cmd ++ args.flatMap quoted

/-- The line and its NUL fit into the buffer. -/
abbrev Fits (cmd : List UInt8) (args : List (List UInt8)) : Prop :=
  (fullLine cmd args).length < lineSize

/-- The arguments of a call of `sys_spawn` with `MAX_ARGS - 1` strings at most, whose line
fits. -/
structure Spawnable {ν : Type*} (cmd : List UInt8) (table : Option (List (LuaValue ν)))
    (args : List (List UInt8)) : Prop where
  table_eq : table.getD [] = args.map .string
  length_lt : args.length < maxArgs
  no_nul : ∀ arg ∈ args, (0 : UInt8) ∉ arg
  fits : Fits cmd args

/-- The buffer is not left, and the arguments come back. -/
structure LineOk {ν : Type*} (fmt : ν → List UInt8) (cmd : List UInt8)
    (table : Option (List (LuaValue ν))) : Prop where
  inBounds : (spawnLine fmt cmd table).high ≤ lineSize
  roundTrip : ∀ args, Spawnable cmd table args →
    ∃ line, (spawnLine fmt cmd table).line = some line ∧ splitArgs (line.drop cmd.length) = args

/-- The room that the source asks for: two bytes more without arguments, four with them. -/
def Spare (cmd : List UInt8) (args : List (List UInt8)) : Prop :=
  (fullLine cmd args).length + (if args = [] then 2 else 4) < lineSize

/-- Behind a backslash there is another one, or a quote, or the end. -/
def Plain (arg : List UInt8) : Prop :=
  arg.IsChain fun a b => a = backslash → b = quote ∨ b = backslash

/-! ## Reading the quoted form -/

/-- What is read for an argument behind `n` backslashes. -/
def reread (n : ℕ) : List UInt8 → List UInt8
  | [] => List.replicate n backslash
  | c :: s =>
      if c = backslash then reread (n + 1) s
      else if c = quote then List.replicate n backslash ++ quote :: reread 0 s
      else List.replicate (2 * n) backslash ++ c :: reread 0 s

section Rules

variable {inQuotes : Bool} {arg : Option (List UInt8)} {n : ℕ} {c : UInt8} {s : List UInt8}

theorem splitFrom_backslash :
    splitFrom inQuotes arg n (backslash :: s) = splitFrom inQuotes arg (n + 1) s := by
  rw [splitFrom, if_pos rfl]

theorem splitFrom_quote_even (h : n % 2 = 0) : splitFrom inQuotes arg n (quote :: s) =
    splitFrom (!inQuotes) (some (arg.getD [] ++ List.replicate (n / 2) backslash)) 0 s := by
  rw [splitFrom, if_neg (by decide), if_pos rfl, if_pos h]

theorem splitFrom_quote_odd (h : n % 2 ≠ 0) : splitFrom inQuotes arg n (quote :: s) =
    splitFrom inQuotes (some (arg.getD [] ++ List.replicate (n / 2) backslash ++ [quote])) 0 s := by
  rw [splitFrom, if_neg (by decide), if_pos rfl, if_neg h]

theorem splitFrom_inQuotes (hb : c ≠ backslash) (hq : c ≠ quote) : splitFrom true arg n (c :: s) =
    splitFrom true (some (arg.getD [] ++ List.replicate n backslash ++ [c])) 0 s := by
  rw [splitFrom, if_neg hb, if_neg hq, if_neg (by simp)]

theorem splitFrom_space_none : splitFrom false none 0 (space :: s) = splitFrom false none 0 s := by
  rw [splitFrom, if_neg (by decide), if_neg (by decide), if_pos (by simp), if_pos (by simp)]

theorem splitFrom_space_some (w : List UInt8) :
    splitFrom false (some w) 0 (space :: s) = w :: splitFrom false none 0 s := by
  rw [splitFrom, if_neg (by decide), if_neg (by decide), if_pos (by simp), if_neg (by simp)]
  simp

end Rules

/-- An escaped argument up to its closing quote, behind `2 * n` backslashes. -/
theorem splitFrom_escape (arg w rest : List UInt8) (n : ℕ) :
    splitFrom true (some w) (2 * n) (arg.flatMap escapeByte ++ quote :: rest) =
      splitFrom false (some (w ++ reread n arg)) 0 rest := by
  induction arg generalizing w n with
  | nil =>
      rw [List.flatMap_nil, List.nil_append, splitFrom_quote_even (Nat.mul_mod_right 2 n),
        Nat.mul_div_cancel_left n (by decide)]
      rfl
  | cons c arg ih =>
      rw [List.flatMap_cons, List.append_assoc, escapeByte, reread]
      by_cases hb : c = backslash
      · rw [if_pos (Or.inr hb), if_pos hb, hb]
        have htwo : 2 * n + 1 + 1 = 2 * (n + 1) := by omega
        rw [List.cons_append, List.singleton_append, splitFrom_backslash, splitFrom_backslash, htwo]
        exact ih w (n + 1)
      · by_cases hq : c = quote
        · rw [if_pos (Or.inl hq), if_neg hb, if_pos hq, hq]
          have hhalf : (2 * n + 1) / 2 = n := by omega
          rw [List.cons_append, List.singleton_append, splitFrom_backslash,
            splitFrom_quote_odd (by omega), hhalf]
          have hrest := ih (w ++ List.replicate n backslash ++ [quote]) 0
          simpa using hrest
        · rw [if_neg (not_or.mpr ⟨hq, hb⟩), if_neg hb, if_neg hq, List.singleton_append,
            splitFrom_inQuotes hb hq]
          have hrest := ih (w ++ List.replicate (2 * n) backslash ++ [c]) 0
          simpa using hrest

theorem quoted_append (arg rest : List UInt8) :
    quoted arg ++ rest = space :: quote :: (arg.flatMap escapeByte ++ quote :: rest) := by
  simp [quoted]

/-- A quoted argument from its first quote on. -/
theorem splitFrom_quoted (arg rest : List UInt8) :
    splitFrom false none 0 (quote :: (arg.flatMap escapeByte ++ quote :: rest)) =
      splitFrom false (some (reread 0 arg)) 0 rest := by
  rw [splitFrom_quote_even rfl]
  exact splitFrom_escape arg [] rest 0

/-- Quoted arguments behind another one. -/
theorem splitFrom_some_quoted (w : List UInt8) (args : List (List UInt8)) :
    splitFrom false (some w) 0 (args.flatMap quoted) = w :: args.map (reread 0) := by
  induction args generalizing w with
  | nil => simp [splitFrom]
  | cons arg args ih =>
      rw [List.flatMap_cons, quoted_append, splitFrom_space_some, splitFrom_quoted, ih,
        List.map_cons]

/-- The arguments that are read. -/
theorem splitArgs_quoted (args : List (List UInt8)) :
    splitArgs (args.flatMap quoted) = args.map (reread 0) := by
  cases args with
  | nil => rfl
  | cons arg args =>
      rw [splitArgs, List.flatMap_cons, quoted_append, splitFrom_space_none, splitFrom_quoted,
        splitFrom_some_quoted, List.map_cons]

/-! ## The arguments that come back -/

theorem plain_replicate (n : ℕ) : Plain (List.replicate n backslash) := by
  induction n with
  | zero => exact .nil
  | succ n ih =>
      rw [List.replicate_succ]
      refine List.isChain_cons.mpr ⟨fun b hb _ => ?_, ih⟩
      exact Or.inr (List.eq_of_mem_replicate (List.mem_of_mem_head? hb))

/-- What may follow on some backslashes. -/
theorem plain_replicate_append {n : ℕ} {c : UInt8} {s : List UInt8} :
    Plain (List.replicate n backslash ++ c :: s) ↔
      (n ≠ 0 → c = quote ∨ c = backslash) ∧ Plain (c :: s) := by
  unfold Plain
  rw [List.isChain_append]
  constructor
  · rintro ⟨-, hs, hjoin⟩
    refine ⟨fun hn => ?_, hs⟩
    obtain ⟨m, rfl⟩ := Nat.exists_eq_succ_of_ne_zero hn
    exact hjoin backslash (by simp [List.replicate_succ']) c (by simp) rfl
  · rintro ⟨hc, hs⟩
    refine ⟨plain_replicate n, hs, fun a ha b hb _ => ?_⟩
    obtain rfl : c = b := by simpa using hb
    refine hc ?_
    rintro rfl
    exact absurd ha (by simp)

theorem plain_cons_of_ne {c : UInt8} {s : List UInt8} (hc : c ≠ backslash) :
    Plain (c :: s) ↔ Plain s := by
  unfold Plain
  rw [List.isChain_cons]
  exact and_iff_right fun _ _ heq => absurd heq hc

/-- An argument comes back if and only if its backslashes are in front of quotes or at its
end. -/
theorem reread_eq_iff (arg : List UInt8) (n : ℕ) :
    reread n arg = List.replicate n backslash ++ arg ↔ Plain (List.replicate n backslash ++ arg) := by
  induction arg generalizing n with
  | nil =>
      rw [List.append_nil]
      exact iff_of_true rfl (plain_replicate n)
  | cons c s ih =>
      have hzero := ih 0
      rw [List.replicate_zero, List.nil_append] at hzero
      rw [reread]
      by_cases hb : c = backslash
      · have hsucc := ih (n + 1)
        rw [List.replicate_succ', List.append_assoc, List.singleton_append] at hsucc
        rw [if_pos hb, hb]
        exact hsucc
      · rw [if_neg hb, plain_replicate_append, plain_cons_of_ne hb, ← hzero]
        by_cases hq : c = quote
        · rw [if_pos hq, hq, List.append_cancel_left_eq, List.cons.injEq]
          exact ⟨fun h => ⟨fun _ => Or.inl rfl, h.2⟩, fun h => ⟨rfl, h.2⟩⟩
        · rw [if_neg hq]
          constructor
          · intro h
            have hn : n = 0 := by
              by_contra hne
              -- the byte behind `n` backslashes is one more of them
              have hat := congrArg (fun l : List UInt8 => l[n]?) h
              rw [List.getElem?_append_left (by rw [List.length_replicate]; omega),
                List.getElem?_replicate, if_pos (by omega),
                List.getElem?_append_right (by rw [List.length_replicate])] at hat
              simp only [List.length_replicate, Nat.sub_self, List.getElem?_cons_zero,
                Option.some.injEq] at hat
              exact hb hat.symm
            subst hn
            exact ⟨fun hne => absurd rfl hne, by simpa using h⟩
          · rintro ⟨hn, hs⟩
            have hz : n = 0 := by
              by_contra hne
              rcases hn hne with h | h
              · exact hq h
              · exact hb h
            subst hz
            simp [hs]

theorem map_reread_eq_iff (args : List (List UInt8)) :
    args.map (reread 0) = args ↔ ∀ arg ∈ args, Plain arg := by
  have hiff : ∀ arg, reread 0 arg = arg ↔ Plain arg := fun arg => reread_eq_iff arg 0
  conv_lhs => rw [← List.map_id args, List.map_map]
  rw [List.map_inj_left]
  exact forall₂_congr fun arg _ => hiff arg

/-! ## Writing the quoted form -/

theorem cString_eq {s : List UInt8} (h : (0 : UInt8) ∉ s) : cString s = s := by
  refine List.takeWhile_eq_self_iff.mpr fun c hc => ?_
  simp only [ne_eq, decide_eq_true_eq]
  rintro rfl
  exact h hc

theorem length_escapeByte_le (c : UInt8) : (escapeByte c).length ≤ 2 := by
  unfold escapeByte
  split
  · exact le_refl 2
  · exact Nat.le_succ 1

/-- The loop writes the whole argument unless it meets the end of the buffer, where it writes
one byte too many at most. -/
theorem escapeArg_spec (arg : List UInt8) (cp : ℕ) :
    (escapeArg arg cp).length ≤ (arg.flatMap escapeByte).length ∧
      (escapeArg arg cp = arg.flatMap escapeByte ∨ lineEnd ≤ cp + (escapeArg arg cp).length) ∧
      cp + (escapeArg arg cp).length ≤ max cp (lineEnd + 1) := by
  induction arg generalizing cp with
  | nil => exact ⟨le_rfl, Or.inl rfl, le_max_left _ _⟩
  | cons c arg ih =>
      obtain ⟨hle, hfull, hbound⟩ := ih (cp + (escapeByte c).length)
      have htwo := length_escapeByte_le c
      rw [escapeArg]
      by_cases hcp : cp < lineEnd
      · rw [if_pos hcp, List.flatMap_cons, List.length_append, List.length_append]
        refine ⟨by omega, ?_, by omega⟩
        rcases hfull with hfull | hfull
        · exact Or.inl (by rw [hfull])
        · exact Or.inr (by omega)
      · rw [if_neg hcp, List.length_nil]
        exact ⟨Nat.zero_le _, Or.inr (by omega), by omega⟩

/-- What the loop over the table writes for an argument. -/
def quotedSpace (arg : List UInt8) : List UInt8 :=
  quote :: arg.flatMap escapeByte ++ [quote, space]

theorem length_quotedSpace (arg : List UInt8) :
    (quotedSpace arg).length = (arg.flatMap escapeByte).length + 3 := by
  simp [quotedSpace]

theorem space_cons_quotedSpace (args : List (List UInt8)) :
    space :: args.flatMap quotedSpace = args.flatMap quoted ++ [space] := by
  induction args with
  | nil => rfl
  | cons arg args ih =>
      rw [List.flatMap_cons, List.flatMap_cons, List.append_assoc, ← ih, quotedSpace, quoted]
      simp

section Line

variable {ν : Type*} (fmt : ν → List UInt8) {cmd : List UInt8}
  {table : Option (List (LuaValue ν))} {args : List (List UInt8)}

/-- The loop does not leave the buffer. -/
theorem length_quoteArgs_le (t : List (LuaValue ν)) (i : ℕ) {text : List UInt8}
    (h : text.length ≤ lineEnd) : (quoteArgs fmt t i text).text.length ≤ lineSize := by
  have hsize : lineSize = lineEnd + 2 := rfl
  induction t generalizing i text with
  | nil =>
      rw [quoteArgs]
      exact h.trans (by decide)
  | cons v t ih =>
      have hlast : text.length ≤ lineSize := h.trans (by decide)
      rw [quoteArgs]
      split
      · cases v.toString fmt with
        | none => exact hlast
        | some arg =>
            dsimp only
            obtain ⟨-, -, hbound⟩ := escapeArg_spec (cString arg) (text ++ [quote]).length
            rw [List.length_append, List.length_singleton, max_eq_right (by omega)] at hbound
            split
            · rw [List.length_append, List.length_append, List.length_singleton]
              omega
            · next hroom =>
                refine ih (i + 1) ?_
                rw [List.length_append, List.length_cons, List.length_singleton]
                omega
      · exact hlast

/-- The loop over strings without NUL. -/
theorem quoteArgs_strings {i : ℕ} {text : List UInt8} (hnul : ∀ arg ∈ args, (0 : UInt8) ∉ arg)
    (hi : i + args.length ≤ maxArgs) :
    ((quoteArgs fmt (args.map .string) i text).refused = true ↔
        args ≠ [] ∧ lineEnd ≤ text.length + (args.flatMap quotedSpace).length + 1) ∧
      ((quoteArgs fmt (args.map .string) i text).refused = false →
        (quoteArgs fmt (args.map .string) i text).text = text ++ args.flatMap quotedSpace) := by
  induction args generalizing i text with
  | nil => simp [quoteArgs]
  | cons arg args ih =>
      rw [List.length_cons] at hi
      have hz : cString arg = arg := cString_eq (hnul arg List.mem_cons_self)
      have hlen := length_quotedSpace arg
      obtain ⟨hle, hfull, -⟩ := escapeArg_spec arg (text.length + 1)
      rw [List.map_cons, quoteArgs, if_pos (by omega), List.flatMap_cons, List.length_append]
      simp only [LuaValue.toString, hz, List.length_append, List.length_singleton]
      split
      · next hfar =>
          refine ⟨iff_of_true rfl ⟨List.cons_ne_nil _ _, by omega⟩, fun h => ?_⟩
          exact absurd h (by simp)
      · next hroom =>
          have hall : escapeArg arg (text.length + 1) = arg.flatMap escapeByte := by
            rcases hfull with hfull | hfull
            · exact hfull
            · omega
          rw [hall] at hroom ⊢
          have htext : text ++ [quote] ++ arg.flatMap escapeByte ++ [quote, space] =
              text ++ quotedSpace arg := by simp [quotedSpace]
          rw [htext]
          obtain ⟨hrefused, hwritten⟩ := @ih (i + 1) (text ++ quotedSpace arg)
            (fun a ha => hnul a (List.mem_cons_of_mem _ ha)) (by omega)
          refine ⟨hrefused.trans ?_, fun h => by rw [hwritten h, List.append_assoc]⟩
          rw [List.length_append]
          cases args with
          | nil =>
              rw [List.flatMap_nil, List.length_nil]
              exact iff_of_false (fun h => h.1 rfl) fun h => by omega
          | cons arg' args =>
              refine and_congr (iff_of_true (List.cons_ne_nil _ _) (List.cons_ne_nil _ _)) ?_
              omega

/-- The ways through the function. -/
theorem spawnLine_of_long (h : (lineSize : ℤ) - 2 ≤ int32 cmd.length) :
    spawnLine fmt cmd table = ⟨0, none⟩ := by
  simp only [spawnLine, if_pos h]

theorem spawnLine_of_neg (h : int32 cmd.length < 0) :
    spawnLine fmt cmd table = ⟨sizeT (int32 cmd.length), none⟩ := by
  have hshort : ¬(lineSize : ℤ) - 2 ≤ int32 cmd.length := fun hle =>
    absurd (hle.trans_lt h) (by decide)
  simp only [spawnLine, if_neg hshort, if_pos h]

theorem spawnLine_of_short {r : CommandLine} (hshort : ¬(lineSize : ℤ) - 2 ≤ int32 cmd.length)
    (hpos : ¬int32 cmd.length < 0)
    (hr : quoteArgs fmt (table.getD []) 1 (cmd.take (int32 cmd.length).toNat ++ [space]) = r) :
    spawnLine fmt cmd table =
      ⟨r.text.length, if r.refused then none else some r.text.dropLast⟩ := by
  simp only [spawnLine, if_neg hshort, if_neg hpos, hr]

/-- The line that is built, and when there is none. -/
theorem spawnLine_eq (h : Spawnable cmd table args) :
    (Spare cmd args → (spawnLine fmt cmd table).line = some (fullLine cmd args)) ∧
      (¬Spare cmd args → (spawnLine fmt cmd table).line = none) := by
  have hsize : lineSize = 1024 := rfl
  have hend : lineEnd = 1022 := rfl
  have hfits : (fullLine cmd args).length < lineSize := h.fits
  have hlen : (fullLine cmd args).length = cmd.length + (args.flatMap quoted).length :=
    List.length_append
  have hspace := congrArg List.length (space_cons_quotedSpace args)
  rw [List.length_cons, List.length_append, List.length_singleton] at hspace
  obtain ⟨hrefused, hwritten⟩ := @quoteArgs_strings ν fmt args 1 (cmd ++ [space]) h.no_nul
    (by have := h.length_lt; omega)
  rw [List.length_append, List.length_singleton] at hrefused
  rw [List.append_assoc, List.singleton_append, space_cons_quotedSpace, ← List.append_assoc] at hwritten
  have hnil : args = [] → (args.flatMap quoted).length = 0 := by
    rintro rfl
    rfl
  have hint : int32 cmd.length = cmd.length := int32_of_range (by omega) (by omega)
  have hshort : ((lineSize : ℤ) - 2 ≤ int32 cmd.length) ↔ lineSize ≤ cmd.length + 2 := by
    rw [hint]
    clear hint
    omega
  have hpos : ¬int32 cmd.length < 0 := by
    rw [hint]
    exact not_lt.mpr (Int.natCast_nonneg _)
  have htake : cmd.take (int32 cmd.length).toNat = cmd := by
    rw [hint, Int.toNat_natCast, List.take_length]
  clear hint
  have hline : ¬(lineSize : ℤ) - 2 ≤ int32 cmd.length → spawnLine fmt cmd table =
      ⟨(quoteArgs fmt (args.map .string) 1 (cmd ++ [space])).text.length,
        if (quoteArgs fmt (args.map .string) 1 (cmd ++ [space])).refused then none
          else some (quoteArgs fmt (args.map .string) 1 (cmd ++ [space])).text.dropLast⟩ := by
    intro hle
    refine spawnLine_of_short fmt hle hpos ?_
    rw [htake, h.table_eq]
  unfold Spare
  constructor
  · intro hspare
    have haccept : (quoteArgs fmt (args.map .string) 1 (cmd ++ [space])).refused = false := by
      rw [← Bool.not_eq_true, hrefused]
      rintro ⟨hne, hfar⟩
      rw [if_neg hne] at hspare
      omega
    have hroom : ¬lineSize ≤ cmd.length + 2 := by
      split at hspare <;> omega
    rw [hline (hshort.not.mpr hroom)]
    simp only [haccept, hwritten haccept, Bool.false_eq_true, if_false, List.dropLast_concat,
      fullLine]
  · intro hspare
    by_cases hlong : lineSize ≤ cmd.length + 2
    · rw [spawnLine_of_long fmt (hshort.mpr hlong)]
    · have hne : args ≠ [] := by
        intro heq
        have hzero := hnil heq
        rw [if_pos heq] at hspare
        omega
      rw [if_neg hne] at hspare
      have hrefuse : (quoteArgs fmt (args.map .string) 1 (cmd ++ [space])).refused = true :=
        hrefused.mpr ⟨hne, by omega⟩
      rw [hline (hshort.not.mpr hlong)]
      simp only [hrefuse, if_true]

/-- A negative `int` is a size beyond every buffer. -/
theorem lt_sizeT_of_neg {i : ℤ} (hneg : i < 0) (hrange : -2 ^ 31 ≤ i) : lineSize < sizeT i := by
  have hsize : lineSize = 1024 := rfl
  rw [hsize]
  simp only [sizeT]
  omega

/-- The buffer is left if and only if the length of the name is negative as an `int`. -/
theorem high_spawnLine_le_iff :
    (spawnLine fmt cmd table).high ≤ lineSize ↔ 0 ≤ int32 cmd.length := by
  by_cases hneg : int32 cmd.length < 0
  · have hfar := lt_sizeT_of_neg hneg (int32_range cmd.length).1
    rw [spawnLine_of_neg fmt hneg]
    generalize sizeT (int32 cmd.length) = high at hfar
    exact iff_of_false (not_le.mpr hfar) (not_le.mpr hneg)
  · refine iff_of_true ?_ (not_lt.mp hneg)
    by_cases hlong : (lineSize : ℤ) - 2 ≤ int32 cmd.length
    · rw [spawnLine_of_long fmt hlong]
      exact Nat.zero_le _
    · rw [spawnLine_of_short fmt hlong hneg rfl]
      refine length_quoteArgs_le fmt _ 1 ?_
      have hend : lineEnd = lineSize - 2 := rfl
      rw [List.length_append, List.length_take, List.length_singleton]
      generalize int32 (cmd.length : ℤ) = len at hlong hneg
      omega

/-- **The command line of a new process.**  The buffer is not left and the arguments come
back if and only if the length of the name is an `int`, and for arguments that fit the source
finds room enough and their backslashes are in front of quotes or at the end. -/
theorem lineOk_iff (cmd : List UInt8) (table : Option (List (LuaValue ν))) :
    LineOk fmt cmd table ↔ 0 ≤ int32 cmd.length ∧
      ∀ args, Spawnable cmd table args → Spare cmd args ∧ ∀ arg ∈ args, Plain arg := by
  have hback : ∀ args, splitArgs ((fullLine cmd args).drop cmd.length) = args.map (reread 0) := by
    intro args
    rw [fullLine, List.drop_left, splitArgs_quoted]
  constructor
  · intro h
    refine ⟨(high_spawnLine_le_iff fmt).mp h.inBounds, fun args hargs => ?_⟩
    obtain ⟨line, hline, hsplit⟩ := h.roundTrip args hargs
    obtain ⟨hbuilt, hnone⟩ := spawnLine_eq fmt hargs
    have hspare : Spare cmd args := by
      by_contra hno
      rw [hnone hno] at hline
      exact absurd hline (by simp)
    rw [hbuilt hspare, Option.some.injEq] at hline
    rw [← hline, hback, map_reread_eq_iff] at hsplit
    exact ⟨hspare, hsplit⟩
  · rintro ⟨hlen, h⟩
    refine ⟨(high_spawnLine_le_iff fmt).mpr hlen, fun args hargs => ?_⟩
    obtain ⟨hspare, hplain⟩ := h args hargs
    refine ⟨_, (spawnLine_eq fmt hargs).1 hspare, ?_⟩
    rw [hback, map_reread_eq_iff]
    exact hplain

end Line

/-- The argument `a\b` of the program `p` is read as `a\\b`. -/
theorem backslash_is_doubled :
    ¬∀ (fmt : ℕ → List UInt8) (cmd : List UInt8) (table : Option (List (LuaValue ℕ))),
      LineOk fmt cmd table := by
  intro h
  obtain ⟨line, hline, hsplit⟩ := (h (fun _ => []) [112] (some [.string [97, 92, 98]])).roundTrip
    [[97, 92, 98]] ⟨rfl, by decide, by decide, by decide⟩
  have hbuilt : (spawnLine (fun _ : ℕ => []) [112] (some [.string [97, 92, 98]])).line =
      some [112, 32, 34, 97, 92, 92, 98, 34] := by
    decide
  rw [hbuilt, Option.some.injEq] at hline
  rw [← hline] at hsplit
  exact absurd hsplit (by decide)

end LuaSys.Proc
