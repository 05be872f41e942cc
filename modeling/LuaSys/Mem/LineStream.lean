import LuaSys.Mem.Queue

/-!
# Reading lines from an input stream

`read_line` on a buffer with an input stream.  If the buffer holds no newline then the
stream is read, chunk by chunk, until a chunk with a newline or the end.  The bytes before
the newline go to the buffer and become the line; those behind it are kept in the buffer for
the next call.

The first byte of a chunk is tested apart from the others: if it is the newline then the line
is the content of the buffer, and an empty buffer gives nil.

## Main definitions

* `Membuf.readLineStream` — the function of the source.
* `nextLine` — what it does to the bytes in the buffer and the chunks.
* `lines` — the lines of a stream.
* `GoodChunks` — no chunk starts with a newline at the start of a line.

## Main results

* `Keeps.readLineStream` — the call on the buffer is `nextLine` on the bytes.
* `reads_lines_iff` — successive calls give the lines of the stream if and only if the chunks
  are good.
-/

namespace LuaSys.Mem

open LuaSys.Lib

/-! ## The call -/

namespace Membuf

/-- `memchr (s + 1, '\\n', n - 1)`, as an index of `s`. -/
def laterNewline (s : List UInt8) : Option ℕ := (s.tail.findIdx? (· == newline)).map (· + 1)

/-- The loop ends: with the bytes behind the newline, or none if the buffer could not grow; the
buffer, and the chunks that have not been read. -/
structure LineEnd where
  tail : Option (List UInt8)
  mb : Membuf
  chunks : List (List UInt8)

/-- The loop of `read_line`; behind the last chunk the stream returns nil. -/
def lineLoop (fuel : ℕ) (mb : Membuf) (reallocs : ℕ → Option Lib.Mem) :
    List (List UInt8) → Option LineEnd
  | [] => some ⟨some [], mb, []⟩
  | s :: chunks =>
      if s = [] then some ⟨some [], mb, chunks⟩
      else if s.head? = some newline then some ⟨some s.tail, mb, chunks⟩
      else do
        let (ok, mb) ← mb.addlstring fuel (s.take ((laterNewline s).getD s.length)) (reallocs 0)
        if ok then
          match laterNewline s with
          | some l => some ⟨some (s.drop (l + 1)), mb, chunks⟩
          | none => mb.lineLoop fuel (fun i => reallocs (i + 1)) chunks
        else some ⟨none, mb, chunks⟩

/-- `read_line` with an input stream: what it returns, the buffer, and the chunks left. -/
def readLineStream (fuel : ℕ) (mb : Membuf) (chunks : List (List UInt8))
    (reallocs : ℕ → Option Lib.Mem) (last : Option Lib.Mem) :
    Option (MemResult × Membuf × List (List UInt8)) := do
  let n := sizeT mb.offset
  let nl ← mb.findNewline n
  match nl with
  | some l =>
      (mb.consume l (l + 1) (sizeT ((n : ℤ) - (l + 1)))).map fun r => (.string r.1, r.2, chunks)
  | none =>
      let e ← mb.lineLoop fuel reallocs chunks
      match e.tail with
      | none => some (.nothing, e.mb, e.chunks)
      | some tail =>
          let bs ← e.mb.fetch (sizeT e.mb.offset)
          let mb := { e.mb with offset := 0 }
          if tail = [] then some (pushString bs, mb, e.chunks)
          else
            (mb.addlstring fuel tail last).map fun r =>
              (if r.1 then pushString bs else .nothing, r.2, e.chunks)

/-- Calls until one returns no string, at most `k` of them; the blocks are those of the
allocations, by call. -/
def readLines (fuel : ℕ) (mb : Membuf) (chunks : List (List UInt8))
    (blocks : ℕ → ℕ → Lib.Mem) : ℕ → Option (List (List UInt8) × Membuf × List (List UInt8))
  | 0 => none
  | k + 1 => do
      let (res, mb, chunks) ←
        mb.readLineStream fuel chunks (fun i => some (blocks 0 (i + 1))) (some (blocks 0 0))
      match res with
      | .string l =>
          (mb.readLines fuel chunks (fun i => blocks (i + 1)) k).map fun r => (l :: r.1, r.2)
      | _ => some ([], mb, chunks)

end Membuf

open Membuf (newline laterNewline pushString)

/-! ## The bytes -/

/-- The loop on bytes: the line, the bytes behind its newline, and the chunks left. -/
def takeChunks (q : List UInt8) :
    List (List UInt8) → List UInt8 × List UInt8 × List (List UInt8)
  | [] => (q, [], [])
  | s :: chunks =>
      if s = [] then (q, [], chunks)
      else if s.head? = some newline then (q, s.tail, chunks)
      else
        match laterNewline s with
        | some l => (q ++ s.take l, s.drop (l + 1), chunks)
        | none => takeChunks (q ++ s) chunks

/-- The call on bytes: what it returns, the bytes in the buffer, and the chunks left. -/
def nextLine (q : List UInt8) (chunks : List (List UInt8)) :
    MemResult × List UInt8 × List (List UInt8) :=
  match q.findIdx? (· == newline) with
  | some l => (.string (q.take l), q.drop (l + 1), chunks)
  | none => (pushString (takeChunks q chunks).1, (takeChunks q chunks).2)

/-- The lines of a stream: what is between the newlines, and what is behind the last one, unless
this is empty. -/
def lines (bs : List UInt8) : List (List UInt8) :=
  if (bs.splitOn newline).getLast? = some [] then (bs.splitOn newline).dropLast
  else bs.splitOn newline

/-- Nothing of the current line has been read. -/
def AtLineStart (q : List UInt8) : Prop := q = [] ∨ q.getLast? = some newline

instance : DecidablePred AtLineStart := fun _ => inferInstanceAs (Decidable (_ ∨ _))

/-- No chunk starts with a newline at the start of a line, behind the bytes `q`. -/
def GoodChunks (q : List UInt8) : List (List UInt8) → Prop
  | [] => True
  | s :: chunks => (AtLineStart q → s.head? ≠ some newline) ∧ GoodChunks (q ++ s) chunks

/-! ## Lines -/

theorem lines_nil : lines [] = [] := rfl

/-- The first line. -/
theorem lines_append {l : List UInt8} (hl : newline ∉ l) (rest : List UInt8) :
    lines (l ++ newline :: rest) = l :: lines rest := by
  obtain ⟨x, xs, hxs⟩ := List.exists_cons_of_ne_nil (List.splitOn_ne_nil newline rest)
  unfold lines
  rw [List.splitOn_append_cons_self_of_not_mem hl, hxs, List.getLast?_cons_cons,
    List.dropLast_cons_cons]
  split
  · rfl
  · rfl

/-- The last line, without a newline. -/
theorem lines_of_notMem {l : List UInt8} (hl : newline ∉ l) (hne : l ≠ []) : lines l = [l] := by
  unfold lines
  rw [List.splitOn_eq_singleton hl, List.getLast?_singleton, if_neg (by simpa using hne)]

/-! ## Line starts -/

theorem atLineStart_append_newline (l rest : List UInt8) :
    AtLineStart (l ++ newline :: rest) ↔ AtLineStart rest := by
  unfold AtLineStart
  cases rest with
  | nil => simp
  | cons b rest => simp [List.getLast?_append]

theorem atLineStart_of_notMem {q : List UInt8} (hq : newline ∉ q) : AtLineStart q ↔ q = [] := by
  unfold AtLineStart
  constructor
  · rintro (hnil | hlast)
    · exact hnil
    · exact absurd (List.mem_of_getLast? hlast) hq
  · exact Or.inl

/-- Only the end of the bytes before counts. -/
theorem goodChunks_congr {q q' : List UInt8} (h : AtLineStart q ↔ AtLineStart q')
    (chunks : List (List UInt8)) : GoodChunks q chunks ↔ GoodChunks q' chunks := by
  induction chunks generalizing q q' with
  | nil => exact Iff.rfl
  | cons s chunks ih =>
      have hnext : AtLineStart (q ++ s) ↔ AtLineStart (q' ++ s) := by
        cases s with
        | nil => simpa using h
        | cons b s => simp [AtLineStart, List.getLast?_append, List.getLast?_cons]
      rw [GoodChunks, GoodChunks, h, ih hnext]

/-! ## What the loop takes -/

section chunks
variable {q s : List UInt8} {chunks : List (List UInt8)} {l n : ℕ}

/-- The first newline. -/
theorem findNewline_split (h : s.findIdx? (· == newline) = some l) :
    s = s.take l ++ newline :: s.drop (l + 1) ∧ newline ∉ s.take l := by
  obtain ⟨hlt, hnl, hbefore⟩ := List.findIdx?_eq_some_iff_getElem.mp h
  have hbyte : s[l] = newline := by simpa using hnl
  constructor
  · rw [← hbyte, ← List.drop_eq_getElem_cons hlt, List.take_append_drop]
  · intro hmem
    obtain ⟨j, hj, hjnl⟩ := List.mem_take_iff_getElem.mp hmem
    have hfalse := hbefore j (by omega)
    rw [hjnl] at hfalse
    simp at hfalse

theorem notMem_of_findNewline (h : s.findIdx? (· == newline) = none) : newline ∉ s := by
  intro hmem
  exact absurd (List.findIdx?_eq_none_iff.mp h newline hmem) (by simp)

/-- A newline that is not the first byte. -/
theorem laterNewline_eq_some (hs : s ≠ []) (hhead : s.head? ≠ some newline)
    (h : laterNewline s = some l) :
    s = s.take l ++ newline :: s.drop (l + 1) ∧ newline ∉ s.take l := by
  obtain ⟨b, t, rfl⟩ := List.exists_cons_of_ne_nil hs
  obtain ⟨i, hi, rfl⟩ := Option.map_eq_some_iff.mp h
  obtain ⟨hsplit, hno⟩ := findNewline_split (s := t) hi
  rw [List.take_succ_cons, List.drop_succ_cons]
  refine ⟨?_, fun hmem => ?_⟩
  · rw [List.cons_append, ← hsplit]
  · rcases List.mem_cons.mp hmem with hb | hmem
    · exact hhead (by rw [hb]; rfl)
    · exact hno hmem

theorem laterNewline_eq_none (hhead : s.head? ≠ some newline) (h : laterNewline s = none) :
    newline ∉ s := by
  cases s with
  | nil => simp
  | cons b t =>
      intro hmem
      rcases List.mem_cons.mp hmem with hb | hmem
      · exact hhead (by rw [hb]; rfl)
      · exact notMem_of_findNewline (Option.map_eq_none_iff.mp h) hmem

/-- What the loop takes has no newline.  Either a newline follows, and the chunks are good if the
line is not empty and the chunks left are; or everything has been read. -/
structure TakesLine (q : List UInt8) (chunks : List (List UInt8)) (line rest : List UInt8)
    (left : List (List UInt8)) : Prop where
  noNewline : newline ∉ line
  splits : q ++ chunks.flatten = line ++ newline :: (rest ++ left.flatten) ∧
      (GoodChunks q chunks ↔ line ≠ [] ∧ GoodChunks rest left) ∨
    q ++ chunks.flatten = line ∧ rest = [] ∧ left = [] ∧ GoodChunks q chunks
  fromChunks : ∀ s ∈ left, s ∈ chunks
  shorter : rest = [] ∨ ∃ s ∈ chunks, rest.length < s.length
  starts : q <+: line

/-- A newline in the first chunk, behind `a`. -/
theorem takesLine_of_newline {a rest : List UInt8} (hq : newline ∉ q) (ha : newline ∉ a)
    (hs : s = a ++ newline :: rest) (chunks : List (List UInt8)) :
    TakesLine q (s :: chunks) (q ++ a) rest chunks := by
  have hline : newline ∉ q ++ a := by simp [hq, ha]
  refine ⟨hline, Or.inl ⟨?_, ?_⟩, fun s hs => List.mem_cons_of_mem _ hs,
    Or.inr ⟨s, List.mem_cons_self, ?_⟩, List.prefix_append q a⟩
  · rw [hs, List.flatten_cons]
    simp only [List.append_assoc, List.cons_append]
  · have hnext : AtLineStart (q ++ s) ↔ AtLineStart rest := by
      rw [hs, ← List.append_assoc]
      exact atLineStart_append_newline (q ++ a) rest
    rw [GoodChunks, goodChunks_congr hnext, atLineStart_of_notMem hq]
    refine and_congr_left fun _ => ?_
    rw [hs]
    cases a with
    | nil => simp
    | cons b a =>
        have hb : b ≠ newline := fun hb => ha (by rw [hb]; exact List.mem_cons_self)
        simp [hb]
  · rw [hs, List.length_append, List.length_cons]
    omega

theorem takeChunks_spec (hq : newline ∉ q) (hne : ∀ s ∈ chunks, s ≠ []) :
    TakesLine q chunks (takeChunks q chunks).1 (takeChunks q chunks).2.1
      (takeChunks q chunks).2.2 := by
  induction chunks generalizing q with
  | nil =>
      refine ⟨hq, Or.inr ⟨?_, rfl, rfl, trivial⟩, fun s hs => hs, Or.inl rfl, List.prefix_rfl⟩
      rw [List.flatten_nil, List.append_nil]
      rfl
  | cons s chunks ih =>
      have hs := hne s List.mem_cons_self
      rw [takeChunks, if_neg hs]
      by_cases hhead : s.head? = some newline
      · rw [if_pos hhead]
        have hcons : s = [] ++ newline :: s.tail := (List.cons_head?_tail hhead).symm
        have htakes := takesLine_of_newline hq List.not_mem_nil hcons chunks
        rw [List.append_nil] at htakes
        exact htakes
      · rw [if_neg hhead]
        cases hlater : laterNewline s with
        | some l =>
            obtain ⟨hsplit, hno⟩ := laterNewline_eq_some hs hhead hlater
            exact takesLine_of_newline hq hno hsplit chunks
        | none =>
            have hno := laterNewline_eq_none hhead hlater
            have h := ih (q := q ++ s) (by simp [hq, hno]) fun s hs => hne s (List.mem_cons_of_mem _ hs)
            have hgood : GoodChunks q (s :: chunks) ↔ GoodChunks (q ++ s) chunks := by
              rw [GoodChunks]
              exact and_iff_right fun _ => hhead
            refine ⟨h.noNewline, ?_, fun s hs => List.mem_cons_of_mem _ (h.fromChunks s hs), ?_,
              (List.prefix_append q s).trans h.starts⟩
            · rw [List.flatten_cons, ← List.append_assoc, hgood]
              exact h.splits
            · rcases h.shorter with hnil | ⟨t, ht, hlt⟩
              · exact Or.inl hnil
              · exact Or.inr ⟨t, List.mem_cons_of_mem _ ht, hlt⟩

end chunks

/-! ## The call on the buffer -/

/-- A growable buffer of a length other than zero, with the bytes below its offset. -/
structure Keeps (mb : Membuf) (q : List UInt8) : Prop where
  growable : mb.Growable
  len : mb.len ≠ 0
  offset : mb.offset = q.length
  bytes : Lib.readBytes mb.data 0 q.length = q

section keeps
variable {mb : Membuf} {q s : List UInt8} {chunks : List (List UInt8)} {fuel : ℕ}

theorem Keeps.sizeT_offset (h : Keeps mb q) : sizeT mb.offset = q.length := by
  have hoff := h.growable.offset
  rw [h.offset] at hoff ⊢
  exact sizeT_natCast (by omega)

/-- Another offset, or other bytes, in the same block. -/
theorem Keeps.replace (h : Keeps mb q) {data : Lib.Mem} {r : List UInt8} (hr : r.length ≤ mb.size)
    (hlt : r.length < 2 ^ 31) (hdata : Lib.readBytes data 0 r.length = r) :
    Keeps { mb with data := data, offset := r.length } r := by
  refine ⟨⟨h.growable.alloc, h.growable.len, ?_⟩, h.len, rfl, hdata⟩
  exact ⟨Int.natCast_nonneg _, by dsimp only; omega, by dsimp only; omega⟩

/-- A write appends. -/
theorem Keeps.addlstring (h : Keeps mb q) (hsize : (q ++ s).length < 2 ^ 31) (hfuel : 31 ≤ fuel)
    (block : Lib.Mem) :
    ∃ mb', mb.addlstring fuel s (some block) = some (true, mb') ∧ Keeps mb' (q ++ s) := by
  have hoff := h.offset
  rw [List.length_append] at hsize
  have hlimit : mb.offset + s.length < 2 ^ 31 := by omega
  have hnew := h.growable.newlen_eq hlimit
  obtain ⟨ok, mb₁, hrun, hok⟩ := h.growable.reserve_isSome h.len hlimit hfuel (some block)
  obtain rfl := hok rfl
  have hlen₁ : mb₁.len ≠ 0 := by
    rw [Membuf.reserve_eq] at hrun
    split at hrun
    · rename_i hge
      exact Membuf.growTo_len hge (by omega) hrun
    · obtain ⟨-, rfl⟩ := Prod.mk.inj (Option.some.inj hrun)
      exact h.len
  rcases h.growable.reserve hlimit hrun with ⟨hfalse, -⟩ | ⟨-, hgrow, hsame, hroom, hdata⟩
  · exact absurd hfalse (by simp)
  · have hin := h.growable.offset
    have h₁ : Keeps mb₁ q := by
      refine ⟨hgrow, hlen₁, hsame.trans hoff, ?_⟩
      rw [← h.bytes, length_readBytes]
      exact readBytes_congr fun i _ hi => hdata i (by omega)
    have hstore : mb₁.store mb₁.offset s = some _ :=
      Membuf.store_eq h₁.offset (by have := h₁.offset; omega)
    have hend : int32 (mb₁.offset + int32 s.length) = (q ++ s).length := by
      rw [h₁.offset, List.length_append, int32_of_range (i := (s.length : ℤ)) (by omega) (by omega),
        int32_of_range (by omega) (by omega), Int.natCast_add]
    have hbytes : Lib.readBytes (writeBytes mb₁.data q.length s) 0 (q ++ s).length = q ++ s := by
      rw [List.length_append, readBytes_add, Nat.zero_add, readBytes_writeBytes_self,
        readBytes_writeBytes_of_disjoint (by omega), h₁.bytes]
    refine ⟨_, ?_, h₁.replace (r := q ++ s) ?_ ?_ hbytes⟩
    · unfold Membuf.addlstring Membuf.putString
      rw [hrun]
      dsimp only [bind, Option.bind]
      rw [if_pos rfl, hstore, Option.map_some, Option.map_some, hend]
    · rw [List.length_append]
      omega
    · rw [List.length_append]
      exact hsize

/-- The loop leaves the line in the buffer. -/
theorem Keeps.lineLoop (h : Keeps mb q) (hfuel : 31 ≤ fuel) (blocks : ℕ → Lib.Mem)
    (hq : newline ∉ q) (hne : ∀ s ∈ chunks, s ≠ [])
    (hline : (takeChunks q chunks).1.length < 2 ^ 31) :
    ∃ mb', mb.lineLoop fuel (fun i => some (blocks i)) chunks =
        some ⟨some (takeChunks q chunks).2.1, mb', (takeChunks q chunks).2.2⟩ ∧
      Keeps mb' (takeChunks q chunks).1 := by
  induction chunks generalizing mb q blocks with
  | nil => exact ⟨mb, rfl, h⟩
  | cons s chunks ih =>
      have hs := hne s List.mem_cons_self
      have hrest : ∀ s ∈ chunks, s ≠ [] := fun s hs => hne s (List.mem_cons_of_mem _ hs)
      rw [takeChunks, if_neg hs] at hline ⊢
      rw [Membuf.lineLoop, if_neg hs]
      by_cases hhead : s.head? = some newline
      · rw [if_pos hhead, if_pos hhead]
        exact ⟨mb, rfl, h⟩
      · rw [if_neg hhead] at hline ⊢
        rw [if_neg hhead]
        cases hlater : laterNewline s with
        | some l =>
            rw [hlater] at hline
            obtain ⟨mb', hrun, h'⟩ := h.addlstring (s := s.take l) hline hfuel (blocks 0)
            rw [Option.getD_some, hrun]
            exact ⟨mb', rfl, h'⟩
        | none =>
            rw [hlater] at hline
            have hno := laterNewline_eq_none hhead hlater
            have hnext : newline ∉ q ++ s := by simp [hq, hno]
            have hstarts := (takeChunks_spec hnext hrest).starts.length_le
            obtain ⟨mb₁, hrun, h₁⟩ := h.addlstring (s := s) (Nat.lt_of_le_of_lt hstarts hline) hfuel
              (blocks 0)
            obtain ⟨mb', hloop, h'⟩ := ih h₁ (fun i => blocks (i + 1)) hnext hrest hline
            rw [Option.getD_none, List.take_length, hrun]
            exact ⟨mb', hloop, h'⟩

/-- The call on the buffer is the call on the bytes. -/
theorem Keeps.readLineStream (h : Keeps mb q) (hfuel : 31 ≤ fuel) (blocks : ℕ → Lib.Mem)
    (last : Lib.Mem) (hne : ∀ s ∈ chunks, s ≠ [])
    (hline : newline ∉ q → (takeChunks q chunks).1.length < 2 ^ 31)
    (htail : newline ∉ q → (takeChunks q chunks).2.1.length < 2 ^ 31) :
    ∃ mb', mb.readLineStream fuel chunks (fun i => some (blocks i)) (some last) =
        some ((nextLine q chunks).1, mb', (nextLine q chunks).2.2) ∧
      Keeps mb' (nextLine q chunks).2.1 := by
  have hoff := h.offset
  have hin := h.growable.offset
  have hsize : q.length ≤ mb.size := by omega
  unfold Membuf.readLineStream nextLine
  dsimp only [bind, Option.bind]
  rw [h.sizeT_offset, Membuf.findNewline_eq h.bytes hsize]
  dsimp only
  cases hnl : q.findIdx? (· == newline) with
  | some l =>
      have hl : l < q.length := (List.findIdx?_eq_some_iff_getElem.mp hnl).1
      have hcount : sizeT ((q.length : ℤ) - (l + 1)) = q.length - (l + 1) := by
        simp only [sizeT]
        omega
      obtain ⟨data, hrun, hdata⟩ := Membuf.consume_eq h.bytes hsize (by omega)
        (show l ≤ l + 1 by omega) (show l + 1 + (q.length - (l + 1)) = q.length by omega)
      have hlen := List.length_drop (i := l + 1) (l := q)
      dsimp only
      rw [hcount, hrun]
      exact ⟨_, rfl, h.replace (by omega) (by omega) hdata⟩
  | none =>
      have hq := notMem_of_findNewline hnl
      obtain ⟨mb₁, hloop, h₁⟩ := h.lineLoop hfuel blocks hq hne (hline hq)
      have hin₁ := h₁.growable.offset
      have hoff₁ := h₁.offset
      have hfetch : mb₁.fetch (takeChunks q chunks).1.length = some (takeChunks q chunks).1 := by
        rw [Membuf.fetch, if_pos (by omega), h₁.bytes]
      have hempty : Keeps { mb₁ with offset := 0 } [] := h₁.replace (r := []) (Nat.zero_le _) (by decide) rfl
      dsimp only
      rw [hloop]
      dsimp only
      rw [h₁.sizeT_offset, hfetch]
      dsimp only
      by_cases htaken : (takeChunks q chunks).2.1 = []
      · rw [if_pos htaken, htaken]
        exact ⟨_, rfl, hempty⟩
      · obtain ⟨mb', hrun, h'⟩ := hempty.addlstring (s := (takeChunks q chunks).2.1) (htail hq) hfuel
          last
        rw [if_neg htaken, hrun]
        exact ⟨mb', rfl, h'⟩

/-! ## Successive calls -/

/-- Successive calls give the lines of what is in the buffer and the chunks, and the call that
returns nil leaves nothing. -/
def ReadsLines (fuel : ℕ) (mb : Membuf) (q : List UInt8) (chunks : List (List UInt8))
    (blocks : ℕ → ℕ → Lib.Mem) : Prop :=
  ∃ k mb', mb.readLines fuel chunks blocks k = some (lines (q ++ chunks.flatten), mb', []) ∧
    mb'.offset = 0

/-- The chunks are not empty, and they and the lines are shorter than `2 ^ 31` bytes. -/
structure Short (q : List UInt8) (chunks : List (List UInt8)) : Prop where
  nonempty : ∀ s ∈ chunks, s ≠ []
  chunk : ∀ s ∈ chunks, s.length < 2 ^ 31
  line : ∀ l ∈ lines (q ++ chunks.flatten), l.length < 2 ^ 31

variable {mb' : Membuf} {left : List (List UInt8)} {l rest : List UInt8} {blocks : ℕ → ℕ → Lib.Mem}
  {k : ℕ}

theorem readLines_string (h : mb.readLineStream fuel chunks (fun i => some (blocks 0 (i + 1)))
    (some (blocks 0 0)) = some (.string l, mb', left)) (k : ℕ) :
    mb.readLines fuel chunks blocks (k + 1) =
      (mb'.readLines fuel left (fun i => blocks (i + 1)) k).map fun r => (l :: r.1, r.2) := by
  rw [Membuf.readLines, h]
  rfl

theorem readLines_nil (h : mb.readLineStream fuel chunks (fun i => some (blocks 0 (i + 1)))
    (some (blocks 0 0)) = some (.nil, mb', left)) (k : ℕ) :
    mb.readLines fuel chunks blocks (k + 1) = some ([], mb', left) := by
  rw [Membuf.readLines, h]
  rfl

/-- A call that returns the first line. -/
theorem readsLines_string (h : mb.readLineStream fuel chunks (fun i => some (blocks 0 (i + 1)))
    (some (blocks 0 0)) = some (.string l, mb', left))
    (hlines : lines (q ++ chunks.flatten) = l :: lines (rest ++ left.flatten)) :
    ReadsLines fuel mb q chunks blocks ↔
      ReadsLines fuel mb' rest left (fun i => blocks (i + 1)) := by
  constructor
  · rintro ⟨k, mb₁, hrun, hoff⟩
    cases k with
    | zero => exact absurd hrun (by simp [Membuf.readLines])
    | succ k =>
        rw [readLines_string h, hlines] at hrun
        obtain ⟨⟨ls, r⟩, hrest, heq⟩ := Option.map_eq_some_iff.mp hrun
        obtain ⟨hls, rfl⟩ := Prod.mk.inj heq
        obtain ⟨-, rfl⟩ := List.cons.inj hls
        exact ⟨k, mb₁, hrest, hoff⟩
  · rintro ⟨k, mb₁, hrun, hoff⟩
    refine ⟨k + 1, mb₁, ?_, hoff⟩
    rw [readLines_string h, hlines, hrun]
    rfl

/-- A call that returns nil. -/
theorem readsLines_nil (h : mb.readLineStream fuel chunks (fun i => some (blocks 0 (i + 1)))
    (some (blocks 0 0)) = some (.nil, mb', left)) :
    ReadsLines fuel mb q chunks blocks ↔
      lines (q ++ chunks.flatten) = [] ∧ left = [] ∧ mb'.offset = 0 := by
  constructor
  · rintro ⟨k, mb₁, hrun, hoff⟩
    cases k with
    | zero => exact absurd hrun (by simp [Membuf.readLines])
    | succ k =>
        rw [readLines_nil h] at hrun
        obtain ⟨hlines, heq⟩ := Prod.mk.inj (Option.some.inj hrun)
        obtain ⟨rfl, hleft⟩ := Prod.mk.inj heq
        exact ⟨hlines.symm, hleft, hoff⟩
  · rintro ⟨hlines, hleft, hoff⟩
    exact ⟨1, mb', by rw [readLines_nil h, hlines, hleft], hoff⟩

/-- What is left after a line is short as well. -/
theorem Short.next (h : Short q chunks) (hlines : lines (q ++ chunks.flatten) =
    l :: lines (rest ++ left.flatten)) (hleft : ∀ s ∈ left, s ∈ chunks) : Short rest left := by
  refine ⟨fun s hs => h.nonempty s (hleft s hs), fun s hs => h.chunk s (hleft s hs), ?_⟩
  intro line hline
  exact h.line line (by rw [hlines]; exact List.mem_cons_of_mem _ hline)

/-- The line that the loop takes is short, and so are the bytes behind it. -/
theorem TakesLine.short (h : TakesLine q chunks l rest left) (hshort : Short q chunks) :
    l.length < 2 ^ 31 ∧ rest.length < 2 ^ 31 := by
  constructor
  · rcases h.splits with ⟨hbytes, -⟩ | ⟨hbytes, -⟩
    · refine hshort.line l ?_
      rw [hbytes, lines_append h.noNewline]
      exact List.mem_cons_self
    · by_cases hl : l = []
      · rw [hl]
        decide
      · refine hshort.line l ?_
        rw [hbytes, lines_of_notMem h.noNewline hl]
        exact List.mem_singleton_self l
  · rcases h.shorter with hnil | ⟨s, hs, hlt⟩
    · rw [hnil]
      decide
    · exact Nat.lt_trans hlt (hshort.chunk s hs)

/-- Successive calls give the lines if and only if the chunks are good. -/
theorem Keeps.readsLines_iff (h : Keeps mb q) (hfuel : 31 ≤ fuel) (hshort : Short q chunks)
    (blocks : ℕ → ℕ → Lib.Mem) : ReadsLines fuel mb q chunks blocks ↔ GoodChunks q chunks := by
  induction htotal : (q ++ chunks.flatten).length using Nat.strong_induction_on
    generalizing mb q chunks blocks with
  | _ n ih =>
    have hspec : newline ∉ q → TakesLine q chunks _ _ _ := fun hq =>
      takeChunks_spec hq hshort.nonempty
    obtain ⟨mb', hrun, h'⟩ := h.readLineStream hfuel (fun i => blocks 0 (i + 1)) (blocks 0 0)
      hshort.nonempty (fun hq => ((hspec hq).short hshort).1) fun hq => ((hspec hq).short hshort).2
    unfold nextLine at hrun h'
    cases hnl : q.findIdx? (· == newline) with
    | some i =>
        rw [hnl] at hrun h'
        dsimp only at hrun h'
        obtain ⟨hsplit, hno⟩ := findNewline_split hnl
        have hbytes : q ++ chunks.flatten =
            q.take i ++ newline :: (q.drop (i + 1) ++ chunks.flatten) := by
          conv_lhs => rw [hsplit]
          rw [List.append_assoc, List.cons_append]
        have hlines := congrArg lines hbytes
        rw [lines_append hno] at hlines
        have hlen := congrArg List.length hbytes
        rw [htotal, List.length_append, List.length_cons] at hlen
        have hgood : GoodChunks q chunks ↔ GoodChunks (q.drop (i + 1)) chunks := by
          refine goodChunks_congr ?_ chunks
          conv_lhs => rw [hsplit]
          exact atLineStart_append_newline _ _
        rw [readsLines_string hrun hlines, hgood]
        exact ih _ (by omega) h' (hshort.next hlines fun s hs => hs) _ rfl
    | none =>
        have htakes := hspec (notMem_of_findNewline hnl)
        rw [hnl] at hrun h'
        dsimp only at hrun h'
        generalize (takeChunks q chunks).1 = line at hrun htakes
        generalize hrest : (takeChunks q chunks).2.1 = rest at hrun h' htakes
        generalize hleft : (takeChunks q chunks).2.2 = left at hrun h' htakes
        by_cases hline : line = []
        · rw [hline] at hrun
          rw [readsLines_nil hrun]
          rcases htakes.splits with ⟨hbytes, hgood⟩ | ⟨hbytes, hnil, hnone, hgood⟩
          · rw [hgood, hbytes, lines_append htakes.noNewline]
            constructor
            · rintro ⟨hlines, -⟩
              exact absurd hlines (by simp)
            · rintro ⟨hne, -⟩
              exact absurd hline hne
          · rw [hbytes, hline]
            refine iff_of_true ⟨lines_nil, hnone, ?_⟩ hgood
            rw [h'.offset, hnil]
            rfl
        · have hstring : pushString line = .string line := if_neg hline
          rw [hstring] at hrun
          rcases htakes.splits with ⟨hbytes, hgood⟩ | ⟨hbytes, hnil, hnone, hgood⟩
          · have hlines := congrArg lines hbytes
            rw [lines_append htakes.noNewline] at hlines
            have hlen := congrArg List.length hbytes
            rw [htotal, List.length_append, List.length_cons] at hlen
            rw [readsLines_string hrun hlines, hgood, and_iff_right hline]
            exact ih _ (by omega) h' (hshort.next hlines htakes.fromChunks) _ rfl
          · -- The last line has no newline; the next call finds nothing.
            have hempty : rest ++ left.flatten = [] := by
              rw [hnil, hnone]
              rfl
            have hlines : lines (q ++ chunks.flatten) = line :: lines (rest ++ left.flatten) := by
              rw [hbytes, hempty, lines_of_notMem htakes.noNewline hline, lines_nil]
            have hpos := List.length_pos_iff.mpr hline
            rw [readsLines_string hrun hlines]
            refine iff_of_true ((ih _ ?_ h' (hshort.next hlines htakes.fromChunks) _ rfl).mpr ?_) hgood
            · rw [hempty, ← htotal, hbytes]
              exact hpos
            · rw [hnone]
              trivial

end keeps

/-- Successive calls of `read ("*l")` on a growable buffer with an input stream give the lines of
its content and the chunks of the stream, and leave nothing, if and only if no chunk starts with
a newline at the start of a line. -/
theorem reads_lines_iff {mb : Membuf} (hmb : mb.Growable) (hlen : mb.len ≠ 0)
    {chunks : List (List UInt8)}
    (hshort : Short (Lib.readBytes mb.data 0 mb.offset.toNat) chunks)
    (blocks : ℕ → ℕ → Lib.Mem) {fuel : ℕ} (hfuel : 31 ≤ fuel) :
    ReadsLines fuel mb (Lib.readBytes mb.data 0 mb.offset.toNat) chunks blocks ↔
      GoodChunks (Lib.readBytes mb.data 0 mb.offset.toNat) chunks := by
  have hoff := hmb.offset
  have hkeeps : Keeps mb (Lib.readBytes mb.data 0 mb.offset.toNat) := by
    refine ⟨hmb, hlen, ?_, ?_⟩
    · rw [length_readBytes]
      omega
    · rw [length_readBytes]
  exact hkeeps.readsLines_iff hfuel hshort blocks

/-- A new buffer with a block of `n` bytes. -/
def newLineBuf (n : ℕ) : Membuf := ⟨fun _ => 0, n, n, 0, true⟩

theorem newLineBuf_growable : (newLineBuf 4).Growable :=
  ⟨rfl, Or.inl (by decide), by decide⟩

/-- The stream `a`, newline, `bc`, newline, newline, `d` in three chunks. -/
theorem reads_lines_iff_threeChunks :
    ReadsLines 31 (newLineBuf 4) [] [[97], [10, 98, 99], [10, 10, 100]] (fun _ _ _ => 0) ∧
      lines [97, 10, 98, 99, 10, 10, 100] = [[97], [98, 99], [], [100]] := by
  have hlines : lines ([] ++ [[97], [10, 98, 99], [10, 10, 100]].flatten) =
      [[97], [98, 99], [], [100]] := by decide
  refine ⟨(reads_lines_iff newLineBuf_growable (by decide) ⟨by decide, by decide, ?_⟩ _
    (Nat.le_refl 31)).mpr ?_, hlines⟩
  · intro l hl
    rw [show lines (Lib.readBytes (newLineBuf 4).data 0 (newLineBuf 4).offset.toNat ++ _) = _
      from hlines] at hl
    revert l
    decide
  · exact ⟨fun _ => by decide, fun hstart => absurd hstart (by decide),
      fun hstart => absurd hstart (by decide), trivial⟩

/-- The stream newline, `a` in one chunk: the first call returns nil, and `a` is in the buffer. -/
theorem empty_line_is_nil :
    (∃ mb', (newLineBuf 4).readLines 31 [[10, 97]] (fun _ _ _ => 0) 1 = some ([], mb', []) ∧
      mb'.offset = 1) ∧
    lines [10, 97] = [[], [97]] ∧ ¬ReadsLines 31 (newLineBuf 4) [] [[10, 97]] (fun _ _ _ => 0) := by
  have hobs : ((newLineBuf 4).readLines 31 [[10, 97]] (fun _ _ _ => 0) 1).map
      (fun r => (r.1, r.2.1.offset, r.2.2)) = some ([], 1, []) := by
    decide +kernel
  obtain ⟨⟨ls, mb', left⟩, hrun, heq⟩ := Option.map_eq_some_iff.mp hobs
  obtain ⟨rfl, heq⟩ := Prod.mk.inj heq
  obtain ⟨hoff, rfl⟩ := Prod.mk.inj heq
  refine ⟨⟨mb', hrun, hoff⟩, by decide, fun h => ?_⟩
  have hkeeps : Keeps (newLineBuf 4) [] := ⟨newLineBuf_growable, by decide, rfl, rfl⟩
  have hshort : Short [] [[10, 97]] := ⟨by decide, by decide, by decide⟩
  have hgood := (hkeeps.readsLines_iff (Nat.le_refl 31) hshort _).mp h
  exact hgood.1 (Or.inl rfl) rfl

end LuaSys.Mem
