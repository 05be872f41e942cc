import LuaSys.Lib.Run
import LuaSys.Mem.Stream

/-!
# What the output streams receive

A run is a sequence of associations, writes and flushes on one buffer.  The streams get the
bytes written, in order and once, and what they have not got yet is the content of the
buffer.

The flag for `bufio__` is set by an association and never cleared, so a stream without the
tag gets the buffer if an earlier stream had the tag.  And a write in whose middle a stream
takes bytes and returns false goes on at the old offset.

## Main definitions

* `OutRun`, `OutRun.step` — the state of a run and one call.
* `Receives` — what the streams have got and what they have not.
* `OutCall.Safe` — every flush fits its stream, and no write goes on behind a part.

## Main results

* `safe_run_receives` — the streams receive every byte once, and every call returns.
-/

namespace LuaSys.Mem

open LuaSys.Lib LuaSys.File Relation

/-! ## Runs -/

/-- A buffer, the stream of the last association, the bytes that calls have written with
success, and every delivery beside the stream that was associated then. -/
structure OutRun where
  buf : StreamBuf
  current : Option Stream
  written : List UInt8
  log : List (Option Stream × Delivery)

/-- The calls from Lua, with what the streams and the allocations do, by argument. -/
inductive OutCall
  | output (stream : Option Stream)
  | write (args : List (List UInt8)) (answers : ℕ → Answer) (reallocs : ℕ → Option Lib.Mem)
  | writeln (args : List (List UInt8)) (answers : ℕ → Answer) (reallocs : ℕ → Option Lib.Mem)
  | flush (a : Answer)

namespace OutRun

/-- A call of `membuf_addlstring`. -/
def add (fuel : ℕ) (r : OutRun) (s : List UInt8) (a : Answer) (realloc : Option Lib.Mem) :
    Option (Bool × OutRun) :=
  (r.buf.addlstring fuel s a realloc).map fun x =>
    (x.1, { r with
      buf := x.2.1
      written := r.written ++ (if x.1 then s else [])
      log := r.log ++ x.2.2.map (r.current, ·) })

/-- The loop of `membuf_write` over its arguments. -/
def writeArgs (fuel : ℕ) (r : OutRun) (answers : ℕ → Answer) (reallocs : ℕ → Option Lib.Mem) :
    List (List UInt8) → Option (Bool × OutRun)
  | [] => some (true, r)
  | s :: args =>
      if s = [] then r.writeArgs fuel (fun i => answers (i + 1)) (fun i => reallocs (i + 1)) args
      else do
        let (ok, r) ← r.add fuel s (answers 0) (reallocs 0)
        if ok then r.writeArgs fuel (fun i => answers (i + 1)) (fun i => reallocs (i + 1)) args
        else some (false, r)

/-- One call. -/
def step (fuel : ℕ) (r : OutRun) : OutCall → Option OutRun
  | .output stream => some { r with buf := r.buf.assosiate stream, current := stream }
  | .write args answers reallocs => (r.writeArgs fuel answers reallocs args).map Prod.snd
  | .writeln args answers reallocs =>
      (r.writeArgs fuel answers reallocs (args ++ [[Membuf.newline]])).map Prod.snd
  | .flush a =>
      (r.buf.flush a).map fun x =>
        { r with buf := x.2.1, log := r.log ++ x.2.2.map (r.current, ·) }

/-- The content stays below `2 ^ 31` bytes, and a flush in the middle is safe. -/
def AddSafe (r : OutRun) (s : List UInt8) (a : Answer) (realloc : Option Lib.Mem) : Prop :=
  r.buf.mb.offset + s.length < 2 ^ 31 ∧ r.buf.FlushSafe s.length a realloc

/-- Each argument is safe when its turn comes. -/
def ArgsSafe (fuel : ℕ) (r : OutRun) (answers : ℕ → Answer) (reallocs : ℕ → Option Lib.Mem) :
    List (List UInt8) → Prop
  | [] => True
  | s :: args =>
      if s = [] then r.ArgsSafe fuel (fun i => answers (i + 1)) (fun i => reallocs (i + 1)) args
      else
        r.AddSafe s (answers 0) (reallocs 0) ∧
          ∀ r', r.add fuel s (answers 0) (reallocs 0) = some (true, r') →
            r'.ArgsSafe fuel (fun i => answers (i + 1)) (fun i => reallocs (i + 1)) args

/-- A safe call: a flush happens only if the flag fits the stream, and a stream that takes
bytes in the middle of a write and returns false is not followed by the rest of the write. -/
def Safe (fuel : ℕ) (r : OutRun) : OutCall → Prop
  | .output _ => True
  | .write args answers reallocs => r.ArgsSafe fuel answers reallocs args
  | .writeln args answers reallocs =>
      r.ArgsSafe fuel answers reallocs (args ++ [[Membuf.newline]])
  | .flush _ => r.buf.ostream = true → r.buf.Matched

/-- The transitions of safe calls. -/
def SafeStep (r r' : OutRun) : Prop :=
  ∃ fuel call, r.Safe fuel call ∧ r.step fuel call = some r'

/-- A growable buffer that has had no stream; its content counts as written. -/
structure Start (r : OutRun) : Prop where
  growable : r.buf.mb.Growable
  ostream : r.buf.ostream = false
  ostreamBufio : r.buf.ostreamBufio = false
  current : r.buf.output = none ∧ r.current = none
  written : r.written = contents r.buf.mb
  log : r.log = []

end OutRun

/-- The bytes written are the bytes delivered, in order, followed by the bytes still in the
buffer; and each delivery went to the stream associated then, as the buffer if this stream has
the tag and as a string if not. -/
structure Receives (r : OutRun) : Prop where
  once : r.written = delivered (r.log.map Prod.snd) ++ contents r.buf.mb
  form : ∀ e ∈ r.log, e.2.Fits e.1

/-! ## The invariant -/

/-- The buffer calls the stream of the last association. -/
structure OutRun.Inv (r : OutRun) : Prop where
  growable : r.buf.mb.Growable
  ostream : r.buf.ostream = r.current.isSome
  output : r.buf.output = r.current
  receives : Receives r

section step
variable {r r' : OutRun} {fuel : ℕ} {s : List UInt8} {a : Answer} {realloc : Option Lib.Mem}
  {answers : ℕ → Answer} {reallocs : ℕ → Option Lib.Mem} {args : List (List UInt8)} {ok : Bool}

theorem OutRun.Inv.isSome (h : r.Inv) (hstream : r.buf.ostream = true) :
    r.buf.output.isSome := by
  rw [h.output, ← h.ostream]
  exact hstream

theorem delivered_append (log log' : List Delivery) :
    delivered (log ++ log') = delivered log ++ delivered log' := List.flatMap_append ..

/-- Some deliveries to the current stream. -/
theorem OutRun.Inv.deliver (h : r.Inv) {buf : StreamBuf} {new : List UInt8} {log : List Delivery}
    (hcontents : contents r.buf.mb ++ new = delivered log ++ contents buf.mb)
    (hsame : SameStream r.buf buf) (hgrowable : buf.mb.Growable)
    (hfits : ∀ d ∈ log, d.Fits r.buf.output) :
    OutRun.Inv ⟨buf, r.current, r.written ++ new, r.log ++ log.map (r.current, ·)⟩ := by
  have hsnd : (log.map (r.current, ·)).map Prod.snd = log := by
    rw [List.map_map]
    exact List.map_id' log
  refine ⟨hgrowable, hsame.ostream.trans h.ostream, hsame.output.trans h.output, ?_, ?_⟩
  · dsimp only
    rw [List.map_append, hsnd, delivered_append, List.append_assoc, ← hcontents, ← List.append_assoc,
      ← h.receives.once]
  · intro e he
    rcases List.mem_append.mp he with he | he
    · exact h.receives.form e he
    · obtain ⟨d, hd, rfl⟩ := List.mem_map.mp he
      rw [← h.output]
      exact hfits d hd

theorem OutRun.Inv.add (h : r.Inv) (hsafe : r.AddSafe s a realloc)
    (hrun : r.add fuel s a realloc = some (ok, r')) :
    r'.Inv ∧ (r.buf.mb.len ≠ 0 → r'.buf.mb.len ≠ 0) := by
  obtain ⟨⟨ok', buf, log⟩, hadd, heq⟩ := Option.map_eq_some_iff.mp hrun
  obtain ⟨rfl, rfl⟩ := Prod.mk.inj heq
  obtain ⟨hcontents, hsame, hgrowable, hlen, hfits⟩ :=
    addlstring_spec h.growable hsafe.1 h.isSome hsafe.2 hadd
  exact ⟨h.deliver hcontents hsame hgrowable hfits, hlen⟩

/-- The loop over the arguments. -/
theorem OutRun.Inv.writeArgs (h : r.Inv) (hsafe : r.ArgsSafe fuel answers reallocs args)
    (hrun : r.writeArgs fuel answers reallocs args = some (ok, r')) : r'.Inv := by
  induction args generalizing r answers reallocs with
  | nil =>
      obtain ⟨-, rfl⟩ := Prod.mk.inj (Option.some.inj hrun)
      exact h
  | cons s args ih =>
      rw [OutRun.writeArgs] at hrun
      rw [OutRun.ArgsSafe] at hsafe
      split at hrun
      · rename_i hempty
        rw [if_pos hempty] at hsafe
        exact ih h hsafe hrun
      · rename_i hne
        rw [if_neg hne] at hsafe
        obtain ⟨⟨ok', r₁⟩, hadd, hrest⟩ := Option.bind_eq_some_iff.mp hrun
        have h₁ := (h.add hsafe.1 hadd).1
        cases ok' with
        | false =>
            obtain ⟨-, rfl⟩ := Prod.mk.inj (Option.some.inj hrest)
            exact h₁
        | true => exact ih h₁ (hsafe.2 r₁ hadd) hrest

/-- Unless the length is zero, the loop over the arguments ends. -/
theorem OutRun.Inv.writeArgs_isSome (h : r.Inv) (hlen : r.buf.mb.len ≠ 0) (hfuel : 31 ≤ fuel)
    (hsafe : r.ArgsSafe fuel answers reallocs args) :
    ∃ res, r.writeArgs fuel answers reallocs args = some res := by
  induction args generalizing r answers reallocs with
  | nil => exact ⟨_, rfl⟩
  | cons s args ih =>
      rw [OutRun.writeArgs]
      rw [OutRun.ArgsSafe] at hsafe
      split
      · rename_i hempty
        rw [if_pos hempty] at hsafe
        exact ih h hlen hsafe
      · rename_i hne
        rw [if_neg hne] at hsafe
        obtain ⟨res, hres⟩ := addlstring_isSome h.growable hlen s (answers 0) (reallocs 0)
          hsafe.1.1 h.isSome hsafe.1.2 hfuel
        obtain ⟨⟨ok, r₁⟩, hadd⟩ : ∃ res, r.add fuel s (answers 0) (reallocs 0) = some res :=
          ⟨_, Option.map_eq_some_iff.mpr ⟨res, hres, rfl⟩⟩
        obtain ⟨h₁, hlen₁⟩ := h.add hsafe.1 hadd
        rw [hadd]
        dsimp only [bind, Option.bind]
        cases ok with
        | false => exact ⟨_, rfl⟩
        | true => exact ih h₁ (hlen₁ hlen) (hsafe.2 r₁ hadd)

/-- An association changes no byte. -/
theorem OutRun.Inv.assosiate (h : r.Inv) (stream : Option Stream) :
    OutRun.Inv { r with buf := r.buf.assosiate stream, current := stream } := by
  cases stream with
  | none => exact ⟨h.growable, rfl, rfl, h.receives.once, h.receives.form⟩
  | some stream => exact ⟨h.growable, rfl, rfl, h.receives.once, h.receives.form⟩

/-- An explicit flush. -/
theorem OutRun.Inv.flush (h : r.Inv) (hsafe : r.buf.ostream = true → r.buf.Matched) (fuel : ℕ)
    (a : Answer) :
    ∃ r', r.step fuel (.flush a) = some r' ∧ r'.Inv := by
  have hcase : ∃ x, r.buf.flush a = some x ∧
      contents r.buf.mb ++ [] = delivered x.2.2 ++ contents x.2.1.mb ∧ SameStream r.buf x.2.1 ∧
      x.2.1.mb.Growable ∧ ∀ d ∈ x.2.2, d.Fits r.buf.output := by
    unfold StreamBuf.flush
    split
    · rename_i hstream
      obtain ⟨stream, hstream'⟩ := Option.isSome_iff_exists.mp (h.isSome hstream)
      obtain ⟨o', d, hwrite, hfits, hsame, hgrowable, -, hcontents, -⟩ :=
        streamWrite_spec (a := a) h.growable hstream' (hsafe hstream)
      refine ⟨_, Option.map_eq_some_iff.mpr ⟨_, hwrite, rfl⟩, ?_, hsame, hgrowable, ?_⟩
      · rw [List.append_nil, delivered, List.flatMap_singleton]
        exact hcontents
      · intro d' hd'
        rw [List.mem_singleton.mp hd']
        exact hfits
    · exact ⟨_, rfl, by simp [delivered], ⟨rfl, rfl, rfl⟩, h.growable, by simp⟩
  obtain ⟨x, hflush, hcontents, hsame, hgrowable, hfits⟩ := hcase
  have hinv := h.deliver hcontents hsame hgrowable hfits
  rw [List.append_nil] at hinv
  exact ⟨_, Option.map_eq_some_iff.mpr ⟨x, hflush, rfl⟩, hinv⟩

/-- A safe call keeps the invariant. -/
theorem OutRun.Inv.step (h : r.Inv) {call : OutCall} (hsafe : r.Safe fuel call)
    (hstep : r.step fuel call = some r') : r'.Inv := by
  cases call with
  | output stream =>
      obtain rfl := Option.some.inj hstep
      exact h.assosiate stream
  | write args answers reallocs =>
      obtain ⟨res, hrun, rfl⟩ := Option.map_eq_some_iff.mp hstep
      exact h.writeArgs hsafe hrun
  | writeln args answers reallocs =>
      obtain ⟨res, hrun, rfl⟩ := Option.map_eq_some_iff.mp hstep
      exact h.writeArgs hsafe hrun
  | flush a =>
      obtain ⟨r₁, hrun, hinv⟩ := h.flush hsafe fuel a
      obtain rfl := Option.some.inj (hstep.symm.trans hrun)
      exact hinv

/-- Unless the length is zero, a safe call returns. -/
theorem OutRun.Inv.step_isSome (h : r.Inv) (hlen : r.buf.mb.len ≠ 0) (hfuel : 31 ≤ fuel)
    {call : OutCall} (hsafe : r.Safe fuel call) : ∃ r', r.step fuel call = some r' := by
  cases call with
  | output stream => exact ⟨_, rfl⟩
  | write args answers reallocs =>
      obtain ⟨res, hrun⟩ := h.writeArgs_isSome hlen hfuel hsafe
      exact ⟨res.2, Option.map_eq_some_iff.mpr ⟨res, hrun, rfl⟩⟩
  | writeln args answers reallocs =>
      obtain ⟨res, hrun⟩ := h.writeArgs_isSome hlen hfuel hsafe
      exact ⟨res.2, Option.map_eq_some_iff.mpr ⟨res, hrun, rfl⟩⟩
  | flush a =>
      obtain ⟨r₁, hrun, -⟩ := h.flush hsafe fuel a
      exact ⟨r₁, hrun⟩

theorem OutRun.Start.inv (h : r.Start) : r.Inv := by
  refine ⟨h.growable, ?_, ?_, ?_, ?_⟩
  · rw [h.ostream, h.current.2]
    rfl
  · rw [h.current.1, h.current.2]
  · rw [h.written, h.log]
    rfl
  · rw [h.log]
    simp

end step

/-- In every run of safe calls the streams have received every byte once, in the right form,
and the next safe call returns unless the length of the buffer is zero. -/
theorem safe_run_receives {r r' : OutRun} (hstart : r.Start)
    (hrun : ReflTransGen OutRun.SafeStep r r') :
    Receives r' ∧ ∀ fuel call, 31 ≤ fuel → r'.buf.mb.len ≠ 0 → r'.Safe fuel call →
      ∃ r'', r'.step fuel call = some r'' := by
  have hinv : r'.Inv := by
    refine inv_of_reach (I := OutRun.Inv) ?_ hstart.inv hrun
    rintro r₁ r₂ ⟨fuel, call, hsafe, hstep⟩ hinv
    exact hinv.step hsafe hstep
  exact ⟨hinv.receives, fun fuel call hfuel hlen hsafe => hinv.step_isSome hlen hfuel hsafe⟩

/-- A new buffer with a block of `n` bytes. -/
def newOutRun (n : ℕ) : OutRun := ⟨⟨⟨fun _ => 0, n, n, 0, true⟩, false, false, none⟩, none, [], []⟩

theorem newOutRun_start (n : ℕ) (h : n < 2 ^ 31) : (newOutRun n).Start := by
  refine ⟨⟨rfl, Or.inl ⟨Int.natCast_nonneg n, rfl, ?_⟩, ?_⟩, rfl, rfl, ⟨rfl, rfl⟩, rfl, rfl⟩
  · exact Int.ofNat_lt.mpr h
  · exact ⟨Int.le_refl 0, show (0 : ℤ) < 2 ^ 31 by decide, Int.natCast_nonneg n⟩

/-- A stream takes four of six bytes in the middle of a write. -/
theorem safe_run_receives_oneFlush :
    ∃ r, ReflTransGen OutRun.SafeStep (newOutRun 8) r ∧ Receives r ∧
      r.log = [(some ⟨1, true⟩, ⟨⟨1, true⟩, true, [1, 2, 3, 4]⟩)] ∧
      contents r.buf.mb = [5, 6, 7, 8, 9] := by
  have hstart := newOutRun_start 8 (by decide)
  have hobs : (((newOutRun 8).step 1 (.output (some ⟨1, true⟩))).bind fun r =>
      (r.step 1 (.write [[1, 2, 3, 4, 5, 6]] (fun _ => ⟨true, 0⟩) fun _ => none)).bind fun r =>
      if r.buf.mb.offset = 6 ∧ r.buf.output = some ⟨1, true⟩ ∧ r.buf.ostreamBufio = true then
        (r.step 1 (.write [[7, 8, 9]] (fun _ => ⟨true, 4⟩) fun _ => none)).map fun r =>
          (r.log, contents r.buf.mb)
      else none) =
      some ([(some ⟨1, true⟩, ⟨⟨1, true⟩, true, [1, 2, 3, 4]⟩)], [5, 6, 7, 8, 9]) := by
    decide +kernel
  obtain ⟨r₁, hstep₁, hrest⟩ := Option.bind_eq_some_iff.mp hobs
  obtain ⟨r₂, hstep₂, hrest⟩ := Option.bind_eq_some_iff.mp hrest
  obtain ⟨⟨hoffset, hout, hflag⟩, hmap⟩ := Option.ite_none_right_eq_some.mp hrest
  obtain ⟨r₃, hstep₃, heq⟩ := Option.map_eq_some_iff.mp hmap
  obtain ⟨hlog, hcontents⟩ := Prod.mk.inj heq
  have hmatched : r₂.buf.Matched := by
    intro stream hstream
    rw [hout] at hstream
    rw [hflag, ← Option.some.inj hstream]
  have hsafe₂ : r₁.Safe 1 (.write [[1, 2, 3, 4, 5, 6]] (fun _ => ⟨true, 0⟩) fun _ => none) := by
    obtain rfl := Option.some.inj hstep₁
    refine ⟨⟨by decide, fun hfull => absurd hfull (by decide)⟩, fun _ _ => trivial⟩
  have hsafe₃ : r₂.Safe 1 (.write [[7, 8, 9]] (fun _ => ⟨true, 4⟩) fun _ => none) := by
    refine ⟨⟨?_, fun _ _ => ⟨hmatched, fun hpart => absurd hpart.1 (by simp)⟩⟩, fun _ _ => trivial⟩
    rw [hoffset]
    decide
  have hrun : ReflTransGen OutRun.SafeStep (newOutRun 8) r₃ :=
    ((ReflTransGen.single ⟨1, .output (some ⟨1, true⟩), trivial, hstep₁⟩).tail ⟨1, _, hsafe₂, hstep₂⟩).tail
      ⟨1, _, hsafe₃, hstep₃⟩
  exact ⟨r₃, hrun, (safe_run_receives hstart hrun).1, hlog, hcontents⟩

/-- Two runs.  A stream without the tag is associated after one with the tag: it gets the
buffer, which keeps the byte that the stream has taken.  A stream takes two of six bytes in
the middle of a write and returns false: the write goes on at the old offset, and the bytes
that were moved down stand there twice. -/
theorem plain_stream_gets_buffer :
    (∃ r, runOps (OutRun.step 1) (newOutRun 8) [.output (some ⟨1, true⟩), .output (some ⟨2, false⟩),
        .write [[1]] (fun _ => ⟨true, 0⟩) (fun _ => none), .flush ⟨true, 0⟩] = some r ∧
      r.written = [1] ∧ r.log = [(some ⟨2, false⟩, ⟨⟨2, false⟩, true, [1]⟩)] ∧
      contents r.buf.mb = [1] ∧ ¬Receives r) ∧
    ∃ r, runOps (OutRun.step 1) (newOutRun 8) [.output (some ⟨1, true⟩),
        .write [[1, 2, 3, 4, 5, 6], [7, 8, 9]] (fun _ => ⟨false, 2⟩) (fun _ => some fun _ => 0)] =
          some r ∧
      r.written = [1, 2, 3, 4, 5, 6, 7, 8, 9] ∧
      r.log = [(some ⟨1, true⟩, ⟨⟨1, true⟩, true, [1, 2]⟩)] ∧
      contents r.buf.mb = [3, 4, 5, 6, 5, 6, 7, 8, 9] ∧ ¬Receives r := by
  constructor
  · have hobs : (runOps (OutRun.step 1) (newOutRun 8) [.output (some ⟨1, true⟩),
        .output (some ⟨2, false⟩), .write [[1]] (fun _ => ⟨true, 0⟩) (fun _ => none),
        .flush ⟨true, 0⟩]).map (fun r => (r.written, r.log, contents r.buf.mb)) =
        some ([1], [(some ⟨2, false⟩, ⟨⟨2, false⟩, true, [1]⟩)], [1]) := by
      decide +kernel
    obtain ⟨r, hrun, heq⟩ := Option.map_eq_some_iff.mp hobs
    obtain ⟨hwritten, heq⟩ := Prod.mk.inj heq
    obtain ⟨hlog, hcontents⟩ := Prod.mk.inj heq
    refine ⟨r, hrun, hwritten, hlog, hcontents, fun h => ?_⟩
    have honce := h.once
    rw [hwritten, hlog, hcontents] at honce
    exact absurd honce (by decide)
  · have hobs : (runOps (OutRun.step 1) (newOutRun 8) [.output (some ⟨1, true⟩),
        .write [[1, 2, 3, 4, 5, 6], [7, 8, 9]] (fun _ => ⟨false, 2⟩)
          (fun _ => some fun _ => 0)]).map (fun r => (r.written, r.log, contents r.buf.mb)) =
        some ([1, 2, 3, 4, 5, 6, 7, 8, 9], [(some ⟨1, true⟩, ⟨⟨1, true⟩, true, [1, 2]⟩)],
          [3, 4, 5, 6, 5, 6, 7, 8, 9]) := by
      decide +kernel
    obtain ⟨r, hrun, heq⟩ := Option.map_eq_some_iff.mp hobs
    obtain ⟨hwritten, heq⟩ := Prod.mk.inj heq
    obtain ⟨hlog, hcontents⟩ := Prod.mk.inj heq
    refine ⟨r, hrun, hwritten, hlog, hcontents, fun h => ?_⟩
    have honce := h.once
    rw [hwritten, hlog, hcontents] at honce
    exact absurd honce (by decide)

end LuaSys.Mem
