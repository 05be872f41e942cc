import Mathlib.Data.List.Induction
import Mathlib.Data.List.Nodup
import Mathlib.Data.List.TakeWhile
import Mathlib.Logic.Function.Basic

/-!
# The arguments of a new process

The model of the first part of `sys_spawn` in `sys_proc.c` on POSIX systems: it fills an
array of `MAX_ARGS` pointers for `execvp`.  The loop ends at the first entry of the table
that is no string, or when the array is full, and the terminator goes behind the last
argument in both cases.

For a number `lua_tostring` makes a string, in the copy of the number on the stack.  The loop
pops it, and from then on only the array points to the string.  Making another string may run
the collector, which frees it.  What the collector does is a parameter, since it depends on
the rest of the program: `gc i s` says that it runs while a number becomes the string for
`argv[i]`, and that it frees the string `s` then.  The strings of the table and the command
stay alive, because the arguments of the function are on its stack.

## Main definitions

* `LuaValue`, `LuaValue.toString`, `cString` — the values of the table as strings of C.
* `fillArgv`, `spawnArgv` — the loop, and all the assignments to the array.
* `Argv`, `argvAfter` — the array after assignments, with the strings that have been freed.
* `ValidArgv` — what `execvp` may rely on.

## Main results

* `elems_of_mem`, `freed_argvAfter` — the array after assignments to different elements.
* `validArgv_iff` — the array is valid if and only if the loop does not fill it, no other
  value ends the arguments, and no string of a number is freed.
* `spawn_full_table` — a table of `MAX_ARGS - 1` strings.
-/

namespace LuaSys.Proc

/-! ## Values and strings -/

/-- A Lua value, as `lua_tostring` tells them apart. -/
inductive LuaValue (ν : Type*)
  | nil
  | string (s : List UInt8)
  | number (x : ν)
  /-- A value without a string. -/
  | other

namespace LuaValue

variable {ν : Type*}

def isNil : LuaValue ν → Bool
  | .nil => true
  | _ => false

/-- `lua_tostring` makes a string of the value. -/
def isNumber : LuaValue ν → Bool
  | .number _ => true
  | _ => false

/-- The bytes of `lua_tostring`; `fmt` is the format of the numbers. -/
def toString (fmt : ν → List UInt8) : LuaValue ν → Option (List UInt8)
  | .string s => some s
  | .number x => some (fmt x)
  | _ => none

theorem isNil_of_toString {fmt : ν → List UInt8} {v : LuaValue ν} {s : List UInt8}
    (h : v.toString fmt = some s) : v.isNil = false := by
  cases v <;> simp_all [toString, isNil]

end LuaValue

/-- The string of C that a pointer to `s` stands for. -/
def cString (s : List UInt8) : List UInt8 := s.takeWhile (· ≠ 0)

/-- The byte `'/'`. -/
def slash : UInt8 := 47

/-- `strrchr`, with the bytes behind the pointer. -/
def strrchr (c : UInt8) : List UInt8 → Option (List UInt8)
  | [] => none
  | a :: s => (strrchr c s).or (if a = c then some (a :: s) else none)

/-! ## The array -/

/-- `MAX_ARGS`. -/
def maxArgs : ℕ := 32

/-- A pointer to a string. -/
structure Arg where
  bytes : List UInt8
  /-- `lua_tostring` has made the string of a number, and only the array points to it. -/
  made : Bool
  deriving DecidableEq

/-- An assignment to an element of `argv`; `none` is NULL. -/
abbrev ArgvWrite := ℕ × Option Arg

section Argv

variable {ν : Type*} (fmt : ν → List UInt8)

/-- The loop over the entries of the table from `argv[i]` on, with the index behind it. -/
def fillArgv : List (LuaValue ν) → ℕ → List ArgvWrite × ℕ
  | [], i => ([], i)
  | v :: t, i =>
      match v.toString fmt with
      | none => ([], i)
      | some arg =>
          let w : ArgvWrite := (i, some ⟨arg, v.isNumber⟩)
          if i + 1 < maxArgs then (w :: (fillArgv t (i + 1)).1, (fillArgv t (i + 1)).2)
          else ([w], i + 1)

/-- "Filename in `argv[0]`". -/
def argvName (cmd : List UInt8) : List UInt8 :=
  match strrchr slash (cString cmd) with
  | some arg => arg.drop 1
  | none => cString cmd

/-- "Fill arguments array"; `none` is an argument that is no table. -/
def spawnArgv (cmd : List UInt8) (table : Option (List (LuaValue ν))) : List ArgvWrite :=
  let r := fillArgv fmt (table.getD []) 1
  (0, some ⟨argvName cmd, false⟩) :: r.1 ++ [(r.2, none)]

end Argv

/-- The array. -/
structure Argv where
  /-- The elements; `none` has not been assigned. -/
  elems : ℕ → Option (Option Arg)
  /-- The string that the element points to has been freed. -/
  freed : ℕ → Bool

namespace Argv

/-- An assignment.  If the string is made for it, then the collector may run before. -/
def assign (gc : ℕ → List UInt8 → Bool) (argv : Argv) (w : ArgvWrite) : Argv where
  elems := Function.update argv.elems w.1 (some w.2)
  freed j := argv.freed j ||
    (w.2.any (·.made) && (argv.elems j).join.any fun arg => arg.made && gc w.1 arg.bytes)

/-- The element points to the string `s`. -/
def Points (argv : Argv) (i : ℕ) (s : List UInt8) : Prop :=
  (∃ arg, argv.elems i = some (some arg) ∧ arg.bytes = s) ∧ argv.freed i = false

end Argv

/-- The array after the assignments. -/
def argvAfter (gc : ℕ → List UInt8 → Bool) (writes : List ArgvWrite) : Argv :=
  writes.foldl (Argv.assign gc) ⟨fun _ => none, fun _ => false⟩

section Argv

variable {ν : Type*} (fmt : ν → List UInt8) (gc : ℕ → List UInt8 → Bool)

/-! ## The property and its condition -/

/-- The entries of the table in front of the first nil. -/
def leadingEntries (table : Option (List (LuaValue ν))) : List (LuaValue ν) :=
  (table.getD []).takeWhile fun v => !v.isNil

/-- The part of a path behind its last slash. -/
def AfterLastSlash (path name : List UInt8) : Prop :=
  slash ∉ name ∧ (path = name ∨ ∃ dir, path = dir ++ slash :: name)

/-- The array holds the name, the arguments and NULL, and nothing is written behind it.
The arguments are the leading entries, or as many of them as fit. -/
structure ValidArgv (cmd : List UInt8) (table : Option (List (LuaValue ν)))
    (writes : List ArgvWrite) : Prop where
  inBounds : ∀ w ∈ writes, w.1 < maxArgs
  name : ∃ name, (argvAfter gc writes).Points 0 name ∧ AfterLastSlash (cString cmd) name
  args : ∃ args : List (List UInt8),
    args.map some <+: (leadingEntries table).map (·.toString fmt) ∧
    (args.length = (leadingEntries table).length ∨ args.length + 2 = maxArgs) ∧
    (∀ j (hj : j < args.length), (argvAfter gc writes).Points (j + 1) args[j]) ∧
    (argvAfter gc writes).elems (args.length + 1) = some none

/-- The entries that the loop can use. -/
def leadingStrings : List (LuaValue ν) → List Arg
  | [] => []
  | v :: t =>
      match v.toString fmt with
      | none => []
      | some arg => ⟨arg, v.isNumber⟩ :: leadingStrings t

end Argv

/-! ## The name of the program -/

theorem strrchr_eq_none {c : UInt8} {s : List UInt8} (h : strrchr c s = none) : c ∉ s := by
  induction s with
  | nil => exact List.not_mem_nil
  | cons a s ih =>
      rw [strrchr, Option.or_eq_none_iff] at h
      obtain ⟨hs, ha⟩ := h
      have hne : a ≠ c := fun heq => by simp [heq] at ha
      rw [List.mem_cons, not_or]
      exact ⟨Ne.symm hne, ih hs⟩

theorem strrchr_eq_some {c : UInt8} {s r : List UInt8} (h : strrchr c s = some r) :
    ∃ dir name, s = dir ++ r ∧ r = c :: name ∧ c ∉ name := by
  induction s with
  | nil => exact absurd h (by simp [strrchr])
  | cons a s ih =>
      rw [strrchr] at h
      cases hs : strrchr c s with
      | some r' =>
          rw [hs, Option.some_or, Option.some.injEq] at h
          subst h
          obtain ⟨dir, name, heq, hr, hname⟩ := ih hs
          exact ⟨a :: dir, name, by rw [heq, List.cons_append], hr, hname⟩
      | none =>
          rw [hs, Option.none_or] at h
          obtain ⟨rfl, hr⟩ := Option.ite_none_right_eq_some.mp h
          exact ⟨[], s, by simpa using hr, (Option.some.inj hr).symm, strrchr_eq_none hs⟩

/-- The first element of the array. -/
theorem argvName_spec (cmd : List UInt8) : AfterLastSlash (cString cmd) (argvName cmd) := by
  unfold argvName
  cases h : strrchr slash (cString cmd) with
  | none => exact ⟨strrchr_eq_none h, Or.inl rfl⟩
  | some r =>
      obtain ⟨dir, name, heq, rfl, hname⟩ := strrchr_eq_some h
      exact ⟨hname, Or.inr ⟨dir, heq⟩⟩

/-! ## The assignments -/

/-- The assignments of `l` to the elements from `argv[i]` on. -/
def argvWrites (i : ℕ) (l : List Arg) : List ArgvWrite := (l.zipIdx i).map fun p => (p.2, some p.1)

theorem argvWrites_cons (i : ℕ) (arg : Arg) (l : List Arg) :
    argvWrites i (arg :: l) = (i, some arg) :: argvWrites (i + 1) l := by
  simp [argvWrites, List.zipIdx_cons]

theorem map_fst_argvWrites (i : ℕ) (l : List Arg) :
    (argvWrites i l).map Prod.fst = List.range' i l.length := by
  rw [← List.zipIdx_map_snd i l, argvWrites, List.map_map]
  rfl

theorem mem_argvWrites {i j : ℕ} {l : List Arg} {p : Option Arg} :
    (i + j, p) ∈ argvWrites i l ↔ ∃ arg, l[j]? = some arg ∧ p = some arg := by
  simp only [argvWrites, List.mem_map, Prod.mk.injEq]
  constructor
  · rintro ⟨⟨arg, k⟩, hmem, rfl, rfl⟩
    rw [List.mk_mem_zipIdx_iff_le_and_getElem?_sub] at hmem
    exact ⟨arg, by simpa using hmem.2, rfl⟩
  · rintro ⟨arg, hl, rfl⟩
    refine ⟨(arg, i + j), ?_, rfl, rfl⟩
    rw [List.mk_mem_zipIdx_iff_le_and_getElem?_sub]
    simpa using hl

section Assign

variable {gc : ℕ → List UInt8 → Bool} {writes : List ArgvWrite} {w : ArgvWrite} {i j : ℕ}

theorem argvAfter_concat (gc : ℕ → List UInt8 → Bool) (writes : List ArgvWrite) (w : ArgvWrite) :
    argvAfter gc (writes ++ [w]) = (argvAfter gc writes).assign gc w := by
  simp [argvAfter]

theorem elems_concat : (argvAfter gc (writes ++ [w])).elems =
    Function.update (argvAfter gc writes).elems w.1 (some w.2) := by
  rw [argvAfter_concat, Argv.assign]

/-- What one more assignment frees. -/
theorem freed_concat : (argvAfter gc (writes ++ [w])).freed j = true ↔
    (argvAfter gc writes).freed j = true ∨ (∃ arg', w.2 = some arg' ∧ arg'.made = true) ∧
      ∃ arg, (argvAfter gc writes).elems j = some (some arg) ∧ arg.made = true ∧
        gc w.1 arg.bytes = true := by
  simp only [argvAfter_concat, Argv.assign, Bool.or_eq_true, Bool.and_eq_true, Option.any_eq_true,
    Option.join_eq_some_iff]

theorem elems_of_notMem (hi : i ∉ writes.map Prod.fst) : (argvAfter gc writes).elems i = none := by
  induction writes using List.reverseRecOn with
  | nil => rfl
  | append_singleton writes w ih =>
      rw [List.map_append, List.mem_append, not_or, List.map_singleton, List.mem_singleton] at hi
      rw [elems_concat, Function.update_of_ne hi.2, ih hi.1]

/-- An assignment to an element that is assigned once. -/
theorem elems_of_mem (hnd : (writes.map Prod.fst).Nodup) (hw : w ∈ writes) :
    (argvAfter gc writes).elems w.1 = some w.2 := by
  induction writes using List.reverseRecOn with
  | nil => exact absurd hw List.not_mem_nil
  | append_singleton writes w' ih =>
      rw [List.map_append, List.nodup_append] at hnd
      obtain ⟨hnd, -, hdisj⟩ := hnd
      rw [elems_concat]
      rcases List.mem_append.mp hw with hw | hw
      · have hne : w.1 ≠ w'.1 := hdisj _ (List.mem_map_of_mem hw) _ (by simp)
        rw [Function.update_of_ne hne, ih hnd hw]
      · rw [List.mem_singleton.mp hw, Function.update_self]

/-- The strings that have been freed, if the elements are assigned in their order. -/
theorem freed_argvAfter (hlt : (writes.map Prod.fst).Pairwise (· < ·)) :
    (argvAfter gc writes).freed j = true ↔ ∃ arg k arg', (j, some arg) ∈ writes ∧
      (k, some arg') ∈ writes ∧ j < k ∧ arg.made = true ∧ arg'.made = true ∧
      gc k arg.bytes = true := by
  induction writes using List.reverseRecOn with
  | nil => simp [argvAfter]
  | append_singleton writes w ih =>
      rw [List.map_append, List.pairwise_append] at hlt
      obtain ⟨hlt, -, hlast⟩ := hlt
      have hnd := hlt.imp (S := (· ≠ ·)) fun h => Nat.ne_of_lt h
      have hbelow : ∀ w' ∈ writes, w'.1 < w.1 := fun w' hw' =>
        hlast _ (List.mem_map_of_mem hw') _ (by simp)
      rw [freed_concat, ih hlt]
      simp only [List.mem_append, List.mem_singleton]
      constructor
      · rintro (⟨arg, k, arg', hj, hk, h⟩ | ⟨⟨arg', hw, hmade'⟩, arg, helem, hmade, hgc⟩)
        · exact ⟨arg, k, arg', Or.inl hj, Or.inl hk, h⟩
        · have hj : (j, some arg) ∈ writes := by
            by_contra hnot
            by_cases hmem : j ∈ writes.map Prod.fst
            · obtain ⟨w', hw', rfl⟩ := List.mem_map.mp hmem
              rw [elems_of_mem hnd hw', Option.some.injEq] at helem
              exact hnot (helem ▸ hw')
            · rw [elems_of_notMem hmem] at helem
              exact absurd helem (by simp)
          exact ⟨arg, w.1, arg', Or.inl hj, Or.inr (by rw [← hw]), hbelow _ hj, hmade, hmade', hgc⟩
      · rintro ⟨arg, k, arg', hj, hk, hjk, hmade, hmade', hgc⟩
        have hj' : (j, some arg) ∈ writes := by
          refine hj.resolve_right fun heq => ?_
          rcases hk with hk | hk
          · have hkw := hbelow _ hk
            have hjw := congrArg Prod.fst heq
            dsimp only at hkw hjw
            omega
          · have hkw := congrArg Prod.fst hk
            have hjw := congrArg Prod.fst heq
            dsimp only at hkw hjw
            omega
        rcases hk with hk | rfl
        · exact Or.inl ⟨arg, k, arg', hj', hk, hjk, hmade, hmade', hgc⟩
        · exact Or.inr ⟨⟨arg', rfl, hmade'⟩, arg, elems_of_mem hnd (w := (j, _)) hj', hmade, hgc⟩

end Assign

section Argv

variable {ν : Type*} {fmt : ν → List UInt8} {gc : ℕ → List UInt8 → Bool} {t : List (LuaValue ν)}
  {cmd : List UInt8} {table : Option (List (LuaValue ν))} {i : ℕ}

/-- The loop assigns the leading strings, as long as there is room. -/
theorem fillArgv_eq (hi : i < maxArgs) :
    fillArgv fmt t i = (argvWrites i ((leadingStrings fmt t).take (maxArgs - i)),
      i + ((leadingStrings fmt t).take (maxArgs - i)).length) := by
  induction t generalizing i with
  | nil => simp [fillArgv, leadingStrings, argvWrites]
  | cons v t ih =>
      rw [fillArgv, leadingStrings]
      cases hv : v.toString fmt with
      | none => simp [argvWrites]
      | some arg =>
          dsimp only
          have hroom : maxArgs - i = maxArgs - (i + 1) + 1 := by omega
          rw [hroom, List.take_succ_cons, argvWrites_cons, List.length_cons]
          split
          · next hlt =>
              rw [ih hlt]
              dsimp only
              rw [Nat.add_right_comm, Nat.add_assoc i]
          · next hlast =>
              have hzero : maxArgs - (i + 1) = 0 := by omega
              simp [hzero, argvWrites]

/-- The leading strings are those of leading entries. -/
theorem leadingStrings_isInitial (fmt : ν → List UInt8) (t : List (LuaValue ν)) :
    (leadingStrings fmt t).map some <+: (t.takeWhile fun v => !v.isNil).map fun v =>
      (v.toString fmt).map (Arg.mk · v.isNumber) := by
  induction t with
  | nil => exact List.prefix_rfl
  | cons v t ih =>
      rw [leadingStrings]
      cases hv : v.toString fmt with
      | none => exact List.nil_prefix
      | some arg =>
          have hnil := LuaValue.isNil_of_toString hv
          rw [List.takeWhile_cons_of_pos (by simp [hnil]), List.map_cons, List.map_cons, hv,
            Option.map_some, List.prefix_cons_inj]
          exact ih

/-- A leading string that has been made is the one of a number. -/
theorem getElem?_leadingStrings {j : ℕ} {arg : Arg} (hj : (leadingStrings fmt t)[j]? = some arg)
    (hmade : arg.made = true) :
    ∃ x, (t.takeWhile fun v => !v.isNil)[j]? = some (.number x) ∧ arg.bytes = fmt x := by
  obtain ⟨rest, hrest⟩ := leadingStrings_isInitial fmt t
  have hmap : ((t.takeWhile fun v => !v.isNil).map fun v =>
      (v.toString fmt).map (Arg.mk · v.isNumber))[j]? = some (some arg) := by
    rw [← hrest, List.getElem?_append_left, List.getElem?_map, hj, Option.map_some]
    rw [List.length_map]
    exact (List.getElem?_eq_some_iff.mp hj).1
  rw [List.getElem?_map, Option.map_eq_some_iff] at hmap
  obtain ⟨v, hv, harg⟩ := hmap
  rw [Option.map_eq_some_iff] at harg
  obtain ⟨s, hs, rfl⟩ := harg
  cases v with
  | number x => exact ⟨x, hv, (Option.some.inj hs).symm⟩
  | _ => exact absurd hmade (by simp [LuaValue.isNumber])

/-- The string of a number among them. -/
theorem leadingStrings_of_number {j : ℕ} {x : ν} (hj : j < (leadingStrings fmt t).length)
    (hx : (t.takeWhile fun v => !v.isNil)[j]? = some (.number x)) :
    (leadingStrings fmt t)[j]? = some ⟨fmt x, true⟩ := by
  obtain ⟨rest, hrest⟩ := leadingStrings_isInitial fmt t
  have hmap : ((leadingStrings fmt t).map some ++ rest)[j]? = some (some ⟨fmt x, true⟩) := by
    rw [hrest, List.getElem?_map, hx]
    rfl
  rw [List.getElem?_append_left (by rwa [List.length_map]), List.getElem?_map,
    Option.map_eq_some_iff] at hmap
  obtain ⟨arg, harg, heq⟩ := hmap
  rw [harg, heq]

/-- The strings that the loop assigns. -/
def spawnArgs (fmt : ν → List UInt8) (table : Option (List (LuaValue ν))) : List Arg :=
  (leadingStrings fmt (table.getD [])).take (maxArgs - 1)

theorem spawnArgv_eq (fmt : ν → List UInt8) (cmd : List UInt8) (table : Option (List (LuaValue ν))) :
    spawnArgv fmt cmd table =
      (0, some ⟨argvName cmd, false⟩) :: argvWrites 1 (spawnArgs fmt table) ++
        [(1 + (spawnArgs fmt table).length, none)] := by
  rw [spawnArgv, fillArgv_eq (by decide)]
  rfl

theorem map_fst_spawnArgv (fmt : ν → List UInt8) (cmd : List UInt8)
    (table : Option (List (LuaValue ν))) :
    (spawnArgv fmt cmd table).map Prod.fst = List.range' 0 ((spawnArgs fmt table).length + 2) := by
  rw [spawnArgv_eq, List.map_append, List.map_cons, map_fst_argvWrites, List.range'_succ,
    List.range'_concat]
  simp

theorem mem_spawnArgv {j : ℕ} {arg : Arg} :
    (j, some arg) ∈ spawnArgv fmt cmd table ↔ (j = 0 ∧ arg = ⟨argvName cmd, false⟩) ∨
      ∃ k, j = k + 1 ∧ (spawnArgs fmt table)[k]? = some arg := by
  rw [spawnArgv_eq, List.mem_append, List.mem_cons]
  simp only [Prod.mk.injEq, Option.some.injEq, List.mem_singleton, reduceCtorEq, and_false,
    or_false]
  refine or_congr_right ⟨fun h => ?_, ?_⟩
  · obtain ⟨k, rfl⟩ : ∃ k, j = 1 + k := by
      have hmem := List.mem_map_of_mem (f := Prod.fst) h
      rw [map_fst_argvWrites, List.mem_range'_1] at hmem
      exact Nat.exists_eq_add_of_le hmem.1
    obtain ⟨arg', hk, heq⟩ := mem_argvWrites.mp h
    exact ⟨k, Nat.add_comm 1 k, by rw [hk, heq]⟩
  · rintro ⟨k, rfl, hk⟩
    rw [Nat.add_comm]
    exact mem_argvWrites.mpr ⟨arg, hk, rfl⟩

/-- The strings that have been freed behind the loop. -/
theorem freed_spawnArgv {j : ℕ} : (argvAfter gc (spawnArgv fmt cmd table)).freed j = true ↔
    ∃ i k arg arg', j = i + 1 ∧ i < k ∧ (spawnArgs fmt table)[i]? = some arg ∧
      (spawnArgs fmt table)[k]? = some arg' ∧ arg.made = true ∧ arg'.made = true ∧
      gc (k + 1) arg.bytes = true := by
  rw [freed_argvAfter (by rw [map_fst_spawnArgv]; exact List.pairwise_lt_range')]
  constructor
  · rintro ⟨arg, k, arg', hj, hk, hjk, hmade, hmade', hgc⟩
    obtain ⟨i, rfl, hi⟩ := (mem_spawnArgv.mp hj).resolve_left fun h => by simp [h.2] at hmade
    obtain ⟨k, rfl, hk'⟩ := (mem_spawnArgv.mp hk).resolve_left fun h => by simp [h.2] at hmade'
    exact ⟨i, k, arg, arg', rfl, by omega, hi, hk', hmade, hmade', hgc⟩
  · rintro ⟨i, k, arg, arg', rfl, hik, hi, hk, hmade, hmade', hgc⟩
    exact ⟨arg, k + 1, arg', mem_spawnArgv.mpr (Or.inr ⟨i, rfl, hi⟩),
      mem_spawnArgv.mpr (Or.inr ⟨k, rfl, hk⟩), by omega, hmade, hmade', hgc⟩

/-- The elements behind the loop. -/
theorem elems_spawnArgv (fmt : ν → List UInt8) (gc : ℕ → List UInt8 → Bool) (cmd : List UInt8)
    (table : Option (List (LuaValue ν))) :
    (argvAfter gc (spawnArgv fmt cmd table)).elems 0 = some (some ⟨argvName cmd, false⟩) ∧
      (∀ j (hj : j < (spawnArgs fmt table).length),
        (argvAfter gc (spawnArgv fmt cmd table)).elems (j + 1) =
          some (some (spawnArgs fmt table)[j])) ∧
      (argvAfter gc (spawnArgv fmt cmd table)).elems ((spawnArgs fmt table).length + 1) =
        some none := by
  have hnd : ((spawnArgv fmt cmd table).map Prod.fst).Nodup := by
    rw [map_fst_spawnArgv]
    exact List.nodup_range'
  refine ⟨elems_of_mem hnd (w := (0, _)) (mem_spawnArgv.mpr (Or.inl ⟨rfl, rfl⟩)),
    fun j hj => elems_of_mem hnd (w := (j + 1, _)) (mem_spawnArgv.mpr (Or.inr ⟨j, rfl, ?_⟩)), ?_⟩
  · exact List.getElem?_eq_getElem hj
  · refine elems_of_mem hnd (w := (_ + 1, none)) ?_
    rw [spawnArgv_eq, Nat.add_comm]
    exact List.mem_append_right _ List.mem_cons_self

/-! ## The result -/

/-- The loop does not fill the array, and ends at a nil unless the arguments take all of the
room. -/
def LeavesRoom (fmt : ν → List UInt8) (table : Option (List (LuaValue ν))) : Prop :=
  (leadingStrings fmt (table.getD [])).length = min (leadingEntries table).length (maxArgs - 2)

/-- While a number becomes a string, no string of a number before it is freed. -/
def NumbersKept (fmt : ν → List UInt8) (gc : ℕ → List UInt8 → Bool)
    (table : Option (List (LuaValue ν))) : Prop :=
  ∀ i k x y, i < k → k < maxArgs - 2 → (leadingEntries table)[i]? = some (.number x) →
    (leadingEntries table)[k]? = some (.number y) → gc (k + 1) (fmt x) = false

/-- If there is room, then the loop assigns all of the leading strings. -/
theorem spawnArgs_of_leavesRoom (h : LeavesRoom fmt table) :
    spawnArgs fmt table = leadingStrings fmt (table.getD []) := by
  refine List.take_of_length_le ?_
  unfold LeavesRoom at h
  simp only [maxArgs] at h ⊢
  omega

/-- If there is room, then what is freed is the string of a number. -/
theorem numbersKept_iff (cmd : List UInt8) (h : LeavesRoom fmt table) :
    NumbersKept fmt gc table ↔
      ∀ j, (argvAfter gc (spawnArgv fmt cmd table)).freed j = false := by
  have hlen := h
  unfold LeavesRoom at hlen
  simp only [← Bool.not_eq_true, freed_spawnArgv, spawnArgs_of_leavesRoom h]
  constructor
  · rintro hkept j ⟨i, k, arg, arg', rfl, hik, hi, hk, hmade, hmade', hgc⟩
    obtain ⟨x, hx, harg⟩ := getElem?_leadingStrings hi hmade
    obtain ⟨y, hy, -⟩ := getElem?_leadingStrings hk hmade'
    have hlt := (List.getElem?_eq_some_iff.mp hk).1
    have hfalse := hkept i k x y hik (by omega) hx hy
    rw [← harg] at hfalse
    exact absurd (hgc.symm.trans hfalse) (by simp)
  · intro hfreed i k x y hik hlt hx hy
    have hlen' : k < (leadingEntries table).length := (List.getElem?_eq_some_iff.mp hy).1
    refine Bool.not_eq_true _ ▸ fun hgc => hfreed (i + 1) ⟨i, k, ⟨fmt x, true⟩, ⟨fmt y, true⟩, rfl,
      hik, ?_, ?_, rfl, rfl, hgc⟩
    · exact leadingStrings_of_number (by omega) hx
    · exact leadingStrings_of_number (by omega) hy

/-- Where NULL ends the arguments. -/
theorem length_eq_spawnArgs {args : List (List UInt8)}
    (hpoints : ∀ j (hj : j < args.length),
      (argvAfter gc (spawnArgv fmt cmd table)).Points (j + 1) args[j])
    (hnull : (argvAfter gc (spawnArgv fmt cmd table)).elems (args.length + 1) = some none) :
    args.length = (spawnArgs fmt table).length := by
  obtain ⟨-, hargs, hend⟩ := elems_spawnArgv fmt gc cmd table
  rcases Nat.lt_trichotomy args.length (spawnArgs fmt table).length with hlt | heq | hgt
  · rw [hargs _ hlt] at hnull
    exact absurd hnull (by simp)
  · exact heq
  · obtain ⟨⟨arg, harg, -⟩, -⟩ := hpoints _ hgt
    rw [hend] at harg
    exact absurd harg (by simp)

/-- A valid array has room for NULL. -/
theorem ValidArgv.leavesRoom (h : ValidArgv fmt gc cmd table (spawnArgv fmt cmd table)) :
    LeavesRoom fmt table := by
  have hle := (leadingStrings_isInitial fmt (table.getD [])).length_le
  rw [List.length_map, List.length_map] at hle
  have hlen : (spawnArgs fmt table).length =
      min (maxArgs - 1) (leadingStrings fmt (table.getD [])).length := List.length_take
  -- the assignment of NULL is inside of the array
  have hbound : (spawnArgs fmt table).length + 1 < maxArgs := by
    refine h.inBounds (_, none) ?_
    rw [spawnArgv_eq, Nat.add_comm]
    exact List.mem_append_right _ List.mem_cons_self
  obtain ⟨args, -, hfull, hpoints, hnull⟩ := h.args
  have hsame := length_eq_spawnArgs hpoints hnull
  unfold leadingEntries at hfull
  unfold LeavesRoom leadingEntries
  simp only [maxArgs] at hlen hbound hfull ⊢
  omega

/-- A valid array has no string that is freed. -/
theorem ValidArgv.freed (h : ValidArgv fmt gc cmd table (spawnArgv fmt cmd table)) (j : ℕ) :
    (argvAfter gc (spawnArgv fmt cmd table)).freed j = false := by
  obtain ⟨args, -, -, hpoints, hnull⟩ := h.args
  have hsame := length_eq_spawnArgs hpoints hnull
  by_contra hfreed
  obtain ⟨i, k, arg, arg', rfl, hik, hi, -⟩ := freed_spawnArgv.mp (by simpa using hfreed)
  have hlt := (List.getElem?_eq_some_iff.mp hi).1
  exact hfreed (hpoints i (by omega)).2

/-- **The arguments of a new process.**  The array is valid if and only if the loop leaves
room for the terminator, stops at no other value, and the strings of the numbers are kept. -/
theorem validArgv_iff (fmt : ν → List UInt8) (gc : ℕ → List UInt8 → Bool) (cmd : List UInt8)
    (table : Option (List (LuaValue ν))) :
    ValidArgv fmt gc cmd table (spawnArgv fmt cmd table) ↔
      LeavesRoom fmt table ∧ NumbersKept fmt gc table := by
  obtain ⟨hname, hargs, hend⟩ := elems_spawnArgv fmt gc cmd table
  constructor
  · intro h
    exact ⟨h.leavesRoom, (numbersKept_iff cmd h.leavesRoom).mpr h.freed⟩
  · rintro ⟨hroom, hkept⟩
    have hfreed := (numbersKept_iff cmd hroom).mp hkept
    have hall := spawnArgs_of_leavesRoom hroom
    have hlen : (leadingStrings fmt (table.getD [])).length =
      min (leadingEntries table).length (maxArgs - 2) := hroom
    rw [← hall] at hlen
    refine ⟨fun w hw => ?_, ⟨_, ⟨⟨_, hname, rfl⟩, hfreed 0⟩, argvName_spec cmd⟩,
      (spawnArgs fmt table).map Arg.bytes, ?_, ?_, fun j hj => ⟨⟨_, hargs j (by simpa using hj), ?_⟩,
        hfreed _⟩, by simpa using hend⟩
    · have hmem := List.mem_map_of_mem (f := Prod.fst) hw
      rw [map_fst_spawnArgv, List.mem_range'_1] at hmem
      simp only [maxArgs] at hlen ⊢
      omega
    · have hprefix := (leadingStrings_isInitial fmt (table.getD [])).map (Option.map Arg.bytes)
      rw [← hall] at hprefix
      simpa [Function.comp_def, leadingEntries] using hprefix
    · rw [List.length_map]
      simp only [maxArgs] at hlen ⊢
      omega
    · simp

end Argv

-- two numbers, and the collector frees the first string while the second one is made
example : (argvAfter (fun i s => i == 2 && s == [49])
    (spawnArgv (fun n => [UInt8.ofNat n]) [97] (some [.number 49, .number 50]))).freed 1 = true := by
  decide

/-- A table of `MAX_ARGS - 1` strings: NULL is written behind the array. -/
theorem spawn_full_table :
    ¬∀ (fmt : ℕ → List UInt8) (gc : ℕ → List UInt8 → Bool) (cmd : List UInt8)
      (table : Option (List (LuaValue ℕ))),
      ValidArgv fmt gc cmd table (spawnArgv fmt cmd table) := by
  intro h
  have hvalid := h (fun _ => []) (fun _ _ => false) [97] (some (List.replicate 31 (.string [98])))
  have hwrite : (32, none) ∈ spawnArgv (fun _ : ℕ => []) [97]
      (some (List.replicate 31 (LuaValue.string [98]))) := by
    decide
  exact absurd (hvalid.inBounds _ hwrite) (by decide)

end LuaSys.Proc
