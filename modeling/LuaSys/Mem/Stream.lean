import LuaSys.File.Write

/-!
# Output streams of a memory buffer

A buffer may have an output stream.  When a write finds no room, the content is handed to
the stream before the block grows.  A stream with the field `bufio__` gets the buffer and
takes bytes out of it; any other stream gets a string.  Which of the two happens is decided
by a flag of the buffer, not by the stream.

What a stream does is an input of the model: `Answer` is the result of its method `write`,
with the number of bytes that it takes out of a buffer.

## Main definitions

* `Stream`, `Answer`, `Delivery` — a stream, what it does, and what it has taken.
* `StreamBuf` — a buffer with the flags and the output stream.
* `StreamBuf.streamWrite`, `StreamBuf.makeRoom`, `StreamBuf.addlstring`,
  `StreamBuf.assosiate`, `StreamBuf.flush` — the functions of the source.

## Main results

* `streamWrite_spec` — the stream takes the front of the content.
* `makeRoom_spec` — so does a flush in the middle of a write; behind the rest there is room.
-/

namespace LuaSys.Mem

open LuaSys.Lib LuaSys.File

/-! ## Streams -/

/-- A stream object; `bufio` says whether it has the field `SYS_BUFIO_TAG`. -/
structure Stream where
  name : ℕ
  bufio : Bool
  deriving DecidableEq, Repr

/-- What the method `write` does: its result, and how many bytes a stream with the tag takes
out of a buffer. -/
structure Answer where
  res : Bool
  taken : ℕ

/-- What a call of `write` has delivered. -/
structure Delivery where
  stream : Stream
  /-- The argument was the buffer, not a string. -/
  asBuffer : Bool
  bytes : List UInt8
  deriving DecidableEq, Repr

/-- `struct membuf`, with the output stream in its environment. -/
structure StreamBuf where
  mb : Membuf
  /-- `MEM_OSTREAM`. -/
  ostream : Bool
  /-- `MEM_OSTREAM_BUFIO`. -/
  ostreamBufio : Bool
  /-- `MEM_OUTPUT`. -/
  output : Option Stream

namespace StreamBuf

/-- `stream_write`: the result of `write`, the buffer, and what was delivered.  A stream
without the tag takes everything or nothing, and does not touch a buffer. -/
def streamWrite (o : StreamBuf) (a : Answer) : Option (Bool × StreamBuf × Delivery) := do
  let stream ← o.output
  let bs ← o.mb.fetch (sizeT o.mb.offset)
  let whole := if a.res then bs else []
  if o.ostreamBufio then
    if stream.bufio then
      let n := min a.taken bs.length
      (moveTail o.mb n).map fun mb => (a.res, { o with mb := mb }, ⟨stream, true, bs.take n⟩)
    else some (a.res, o, ⟨stream, true, whole⟩)
  else
    let offset := if a.res then 0 else o.mb.offset
    some (a.res, { o with mb := { o.mb with offset := offset } }, ⟨stream, false, whole⟩)

/-- `membuf_addlstring` up to `end`: its result, the buffer, the local variable `offset`, and
what was delivered. -/
structure Room where
  ok : Bool
  buf : StreamBuf
  offset : ℤ
  log : List Delivery

/-- Double the length, behind a call of the stream or without one. -/
def growRoom (fuel : ℕ) (o : StreamBuf) (newlen : ℕ) (offset : ℤ) (log : List Delivery)
    (realloc : Option Lib.Mem) : Option Room :=
  (o.mb.growTo fuel newlen realloc).map fun r => ⟨r.1, { o with mb := r.2 }, offset, log⟩

/-- `newlen >= len`. -/
def full (o : StreamBuf) (size : ℕ) : Prop := sizeT (o.mb.offset + size) ≥ sizeT o.mb.len

instance (o : StreamBuf) (size : ℕ) : Decidable (o.full size) :=
  inferInstanceAs (Decidable (_ ≥ _))

/-- `membuf_addlstring` up to `end`.  The local variables `offset` and `len` are loaded again
if the stream has accepted, and `newlen` is not. -/
def makeRoom (fuel : ℕ) (o : StreamBuf) (size : ℕ) (a : Answer) (realloc : Option Lib.Mem) :
    Option Room :=
  let newlen := sizeT (o.mb.offset + size)
  if o.full size then
    if o.ostream then do
      let (res, o', d) ← o.streamWrite a
      if res then
        if size < sizeT (sizeT o'.mb.len - o'.mb.offset) then some ⟨true, o', o'.mb.offset, [d]⟩
        else o'.growRoom fuel newlen o'.mb.offset [d] realloc
      else o'.growRoom fuel newlen o.mb.offset [d] realloc
    else o.growRoom fuel newlen o.mb.offset [] realloc
  else some ⟨true, o, o.mb.offset, []⟩

/-- `membuf_addlstring` with a string: its result, the buffer, and what was delivered. -/
def addlstring (fuel : ℕ) (o : StreamBuf) (s : List UInt8) (a : Answer)
    (realloc : Option Lib.Mem) : Option (Bool × StreamBuf × List Delivery) := do
  let r ← o.makeRoom fuel s.length a realloc
  if r.ok then
    (r.buf.mb.store r.offset s).map fun mb =>
      (true, { r.buf with mb := { mb with offset := int32 (r.offset + int32 s.length) } }, r.log)
  else some (false, r.buf, r.log)

/-- `membuf_assosiate (L, MEM_OSTREAM)`. -/
def assosiate (o : StreamBuf) : Option Stream → StreamBuf
  | none => { o with ostream := false, output := none }
  | some stream =>
      { o with
        ostream := true
        ostreamBufio := o.ostreamBufio || stream.bufio
        output := some stream }

/-- `membuf_flush`, without the closing. -/
def flush (o : StreamBuf) (a : Answer) : Option (Bool × StreamBuf × List Delivery) :=
  if o.ostream then (o.streamWrite a).map fun r => (r.1, r.2.1, [r.2.2]) else some (true, o, [])

/-- The flag fits the stream. -/
def Matched (o : StreamBuf) : Prop := ∀ stream ∈ o.output, o.ostreamBufio = stream.bufio

/-- The stream takes bytes out of the buffer and returns false. -/
def Partial (o : StreamBuf) (a : Answer) : Prop :=
  a.res = false ∧ o.ostreamBufio = true ∧ 0 < a.taken ∧ 0 < o.mb.offset

/-- A flush in the middle of a write: the flag fits the stream, and if the block grows
afterwards then a stream that refuses has taken nothing. -/
def FlushSafe (o : StreamBuf) (size : ℕ) (a : Answer) (realloc : Option Lib.Mem) : Prop :=
  o.full size → o.ostream = true → o.Matched ∧ (o.Partial a → realloc = none)

end StreamBuf

/-- The bytes of some deliveries. -/
def delivered (log : List Delivery) : List UInt8 := log.flatMap Delivery.bytes

/-- A delivery to the stream in the form that it can use. -/
def Delivery.Fits (d : Delivery) (stream : Option Stream) : Prop :=
  stream = some d.stream ∧ d.asBuffer = d.stream.bufio

/-! ## The specifications -/

section spec
variable {o o' : StreamBuf} {a : Answer} {stream : Stream} {d : Delivery} {res : Bool}
  {fuel size : ℕ} {realloc : Option Lib.Mem} {r : StreamBuf.Room}

/-- What a flush leaves as it is. -/
structure SameStream (o o' : StreamBuf) : Prop where
  ostream : o'.ostream = o.ostream
  ostreamBufio : o'.ostreamBufio = o.ostreamBufio
  output : o'.output = o.output

theorem moveTail_frame {mb mb' : Membuf} {n : ℕ} (h : moveTail mb n = some mb') :
    mb'.alloc = mb.alloc ∧ mb'.len = mb.len ∧ mb'.size = mb.size := by
  unfold moveTail Membuf.moveDown at h
  split at h
  · obtain rfl := Option.some.inj h
    exact ⟨rfl, rfl, rfl⟩
  · obtain ⟨-, heq⟩ := Option.ite_none_right_eq_some.mp h
    obtain rfl := Option.some.inj heq
    exact ⟨rfl, rfl, rfl⟩

/-- A stream that the flag fits takes the front of the content. -/
theorem streamWrite_spec (h : o.mb.Growable) (hout : o.output = some stream)
    (hmatched : o.Matched) :
    ∃ o' d, o.streamWrite a = some (a.res, o', d) ∧ d.Fits o.output ∧ SameStream o o' ∧
      o'.mb.Growable ∧ o'.mb.len = o.mb.len ∧
      contents o.mb = d.bytes ++ contents o'.mb ∧
      (a.res = false → ¬o.Partial a → d.bytes = []) ∧
      (a.res = true → o.mb.offset ≤ a.taken → o'.mb.offset = 0) := by
  have hoff := h.offset
  have hflag : o.ostreamBufio = stream.bufio := hmatched stream hout
  have hsize : sizeT o.mb.offset = o.mb.offset.toNat := by
    simp only [sizeT]
    omega
  have hfetch : o.mb.fetch (sizeT o.mb.offset) = some (contents o.mb) := by
    rw [hsize]
    exact if_pos (by omega)
  unfold StreamBuf.streamWrite
  rw [hout, hfetch]
  dsimp only [bind, Option.bind]
  rw [hflag]
  by_cases hbufio : stream.bufio = true
  · rw [if_pos hbufio, if_pos hbufio]
    obtain ⟨mb', hmove, hcontents, hin⟩ := moveTail_spec ⟨hoff.1, hoff.2.2⟩ hoff.2.1
      (show ((min a.taken (contents o.mb).length : ℕ) : ℤ) ≤ o.mb.offset by
        rw [length_contents]
        omega)
    obtain ⟨halloc, hlen, hsize'⟩ := moveTail_frame hmove
    have hlength := congrArg List.length hcontents
    rw [length_contents, List.length_drop, length_contents] at hlength
    have hpos := hin.nonneg
    rw [hmove]
    refine ⟨_, _, rfl, ⟨rfl, hbufio.symm⟩, ⟨rfl, hflag.symm, hout.symm⟩,
      ⟨?_, ?_, ?_⟩, hlen, ?_, ?_, ?_⟩
    · exact halloc.trans h.alloc
    · dsimp only
      rw [hlen, hsize']
      exact h.len
    · exact ⟨hpos, by dsimp only; omega, hin.le⟩
    · dsimp only
      rw [hcontents, List.take_append_drop]
    · intro hres hwhole
      have hnone : min a.taken (contents o.mb).length = 0 := by
        rw [length_contents]
        by_contra htaken
        exact hwhole ⟨hres, hflag.trans hbufio, by omega, by omega⟩
      dsimp only
      rw [hnone, List.take_zero]
    · intro _ htaken
      dsimp only
      omega
  · have hplain : stream.bufio = false := by simpa using hbufio
    rw [if_neg hbufio]
    refine ⟨_, _, rfl, ⟨rfl, hplain.symm⟩, ⟨rfl, hflag.symm, hout.symm⟩,
      ⟨h.alloc, h.len, ?_⟩, rfl, ?_, ?_, ?_⟩
    · dsimp only
      split
      · omega
      · exact hoff
    · dsimp only
      by_cases hres : a.res = true
      · rw [if_pos hres, if_pos hres]
        exact (List.append_nil _).symm
      · rw [if_neg hres, if_neg hres]
        rfl
    · intro hres _
      dsimp only
      rw [if_neg (by simp [hres])]
    · intro hres _
      exact if_pos hres

/-- Doubling the length keeps the content. -/
theorem growRoom_spec (h : o.mb.Growable) {newlen : ℕ} {offset : ℤ} {log : List Delivery}
    (hge : sizeT o.mb.len ≤ newlen) (hnew : newlen < 2 ^ 31) (hoffset : o.mb.offset ≤ newlen)
    (hrun : o.growRoom fuel newlen offset log realloc = some r) :
    contents r.buf.mb = contents o.mb ∧ SameStream o r.buf ∧ r.buf.mb.Growable ∧
      (o.mb.len ≠ 0 → r.buf.mb.len ≠ 0) ∧
      r.buf.mb.offset = o.mb.offset ∧ r.offset = offset ∧ r.log = log ∧
      (r.ok = true → newlen ≤ r.buf.mb.size ∧ realloc ≠ none) := by
  have hoff := h.offset
  obtain ⟨⟨ok, mb'⟩, hgrow, rfl⟩ := Option.map_eq_some_iff.mp hrun
  rcases h.growTo hge hnew hoffset hgrow with ⟨rfl, rfl⟩ | ⟨rfl, hmb', hsame, hsize, hdata⟩
  · exact ⟨rfl, ⟨rfl, rfl, rfl⟩, h, fun hlen => hlen, rfl, rfl, rfl, fun hok => absurd hok (by simp)⟩
  · refine ⟨?_, ⟨rfl, rfl, rfl⟩, hmb', fun _ => Membuf.growTo_len hge hnew hgrow, hsame, rfl, rfl,
      fun _ => ⟨hsize, ?_⟩⟩
    · unfold contents
      rw [hsame]
      exact readBytes_congr fun i _ hi => hdata i (by omega)
    · rintro rfl
      exact absurd hgrow Membuf.growTo_none

/-- The test behind an accepted flush. -/
theorem room_of_small {mb : Membuf} (h : mb.Growable)
    (hsmall : size < sizeT (sizeT mb.len - mb.offset)) (hlimit : mb.offset + size < 2 ^ 31) :
    mb.offset + size ≤ mb.size := by
  have hoff := h.offset
  rcases h.len with hlen | hlen
  · simp only [sizeT] at hsmall
    omega
  · omega

/-- What `makeRoom` promises: the stream has got the front of the content, and there is room
behind the rest. -/
structure HasRoom (o : StreamBuf) (size : ℕ) (r : StreamBuf.Room) : Prop where
  content : contents o.mb = delivered r.log ++ contents r.buf.mb
  same : SameStream o r.buf
  growable : r.buf.mb.Growable
  len : o.mb.len ≠ 0 → r.buf.mb.len ≠ 0
  log : ∀ d ∈ r.log, d.Fits o.output
  offset : r.ok = true → r.offset = r.buf.mb.offset
  fits : r.ok = true → r.offset + size ≤ r.buf.mb.size
  limit : r.ok = true → r.offset + size < 2 ^ 31

/-- Doubling the length, behind a flush or without one. -/
theorem hasRoom_of_grow (hlimit : o.mb.offset + size < 2 ^ 31) (h : o.mb.Growable)
    (h' : o'.mb.Growable) (hge : sizeT o'.mb.len ≤ sizeT (o.mb.offset + size))
    (hlen : o'.mb.len = o.mb.len) (hsame : SameStream o o') {log : List Delivery}
    (hlog : ∀ d ∈ log, d.Fits o.output)
    (hcontents : contents o.mb = delivered log ++ contents o'.mb) {offset : ℤ}
    (hoffset : offset = o'.mb.offset ∨ realloc = none)
    (hrun : o'.growRoom fuel (sizeT (o.mb.offset + size)) offset log realloc = some r) :
    HasRoom o size r := by
  have hnew := h.newlen_eq hlimit
  have hoff := h.offset
  have hoff' := h'.offset
  have hlength := congrArg List.length hcontents
  rw [List.length_append, length_contents, length_contents] at hlength
  obtain ⟨hkeep, hsame', hgrown, hlen', hback, hlocal, rfl, hok⟩ :=
    growRoom_spec h' hge (by omega) (by omega) hrun
  have hlocal' : r.ok = true → r.offset = r.buf.mb.offset := by
    intro hr
    rcases hoffset with heq | hnone
    · rw [hlocal, heq, hback]
    · exact absurd hnone (hok hr).2
  refine ⟨by rw [hkeep]; exact hcontents, ⟨hsame'.ostream.trans hsame.ostream,
    hsame'.ostreamBufio.trans hsame.ostreamBufio, hsame'.output.trans hsame.output⟩, hgrown,
    fun hne => hlen' (by rw [hlen]; exact hne), hlog, hlocal', fun hr => ?_, fun hr => ?_⟩
  · have := (hok hr).1
    rw [hlocal' hr, hback]
    omega
  · rw [hlocal' hr, hback]
    omega

/-- A flush in the middle of a write takes the front of the content, and there is room behind
the rest. -/
theorem makeRoom_spec (h : o.mb.Growable) (hlimit : o.mb.offset + size < 2 ^ 31)
    (hout : o.ostream = true → o.output.isSome) (hsafe : o.FlushSafe size a realloc)
    (hrun : o.makeRoom fuel size a realloc = some r) : HasRoom o size r := by
  have hoff := h.offset
  unfold StreamBuf.makeRoom at hrun
  dsimp only at hrun
  split at hrun
  · rename_i hfull
    have hge : sizeT o.mb.len ≤ sizeT (o.mb.offset + size) := hfull
    split at hrun
    · rename_i hstream
      obtain ⟨stream, hstream'⟩ := Option.isSome_iff_exists.mp (hout hstream)
      obtain ⟨hmatched, htaken⟩ := hsafe hfull hstream
      obtain ⟨o', d, hwrite, hfits, hsame, hgrowable, hlen, hcontents, hnone, -⟩ :=
        streamWrite_spec (a := a) h hstream' hmatched
      have hlog : ∀ d' ∈ [d], d'.Fits o.output := by
        intro d' hd'
        rw [List.mem_singleton.mp hd']
        exact hfits
      have hcontents' : contents o.mb = delivered [d] ++ contents o'.mb := by
        rw [delivered, List.flatMap_singleton]
        exact hcontents
      rw [← hlen] at hge
      rw [hwrite] at hrun
      dsimp only [bind, Option.bind] at hrun
      split at hrun
      · split at hrun
        · rename_i hsmall
          obtain rfl := Option.some.inj hrun
          have hroom := room_of_small hgrowable hsmall
          have hoff' := hgrowable.offset
          have hlength := congrArg List.length hcontents'
          rw [List.length_append, length_contents, length_contents] at hlength
          exact ⟨hcontents', hsame, hgrowable, fun hne => by rw [hlen]; exact hne, hlog, fun _ => rfl,
            fun _ => hroom (by omega), fun _ => by dsimp only; omega⟩
        · exact hasRoom_of_grow hlimit h hgrowable hge hlen hsame hlog hcontents' (Or.inl rfl) hrun
      · rename_i hres
        refine hasRoom_of_grow hlimit h hgrowable hge hlen hsame hlog hcontents' ?_ hrun
        by_cases hpart : o.Partial a
        · exact Or.inr (htaken hpart)
        · left
          have hlength := congrArg List.length hcontents
          rw [hnone (by simpa using hres) hpart, List.nil_append, length_contents,
            length_contents] at hlength
          have hoff' := hgrowable.offset
          omega
    · exact hasRoom_of_grow hlimit h h hge rfl ⟨rfl, rfl, rfl⟩ (by simp) rfl (Or.inl rfl) hrun
  · rename_i hfull
    obtain rfl := Option.some.inj hrun
    exact ⟨rfl, ⟨rfl, rfl, rfl⟩, h, fun hne => hne, by simp, fun _ => rfl, fun _ => h.le_size hlimit hfull,
      fun _ => hlimit⟩

/-- A stream that takes everything leaves an empty buffer, if it is called at all. -/
theorem makeRoom_all (h : o.mb.Growable) (hlimit : o.mb.offset + size < 2 ^ 31)
    (hstream : o.ostream = true) (hout : o.output.isSome) (hmatched : o.Matched)
    (hres : a.res = true) (htaken : o.mb.offset ≤ a.taken)
    (hrun : o.makeRoom fuel size a realloc = some r) :
    (o.full size → r.buf.mb.offset = 0) ∧ (¬o.full size → r = ⟨true, o, o.mb.offset, []⟩) := by
  have hnew := h.newlen_eq hlimit
  have hoff := h.offset
  obtain ⟨stream, hstream'⟩ := Option.isSome_iff_exists.mp hout
  obtain ⟨o', d, hwrite, -, -, hgrowable, hlen, -, -, hall⟩ :=
    streamWrite_spec (a := a) h hstream' hmatched
  have hzero := hall hres htaken
  unfold StreamBuf.makeRoom at hrun
  dsimp only at hrun
  by_cases hfull : o.full size
  · refine ⟨fun _ => ?_, fun hnot => absurd hfull hnot⟩
    have hge : sizeT o'.mb.len ≤ sizeT (o.mb.offset + size) := by
      rw [hlen]
      exact hfull
    rw [if_pos hfull, if_pos hstream, hwrite] at hrun
    dsimp only [bind, Option.bind] at hrun
    rw [if_pos hres] at hrun
    split at hrun
    · obtain rfl := Option.some.inj hrun
      exact hzero
    · obtain ⟨-, -, -, -, hback, -⟩ := growRoom_spec hgrowable hge (by omega) (by omega) hrun
      exact hback.trans hzero
  · refine ⟨fun hnot => absurd hnot hfull, fun _ => ?_⟩
    rw [if_neg hfull] at hrun
    exact (Option.some.inj hrun).symm

/-- Unless the length is zero, the loop ends, and room is made if there is memory. -/
theorem makeRoom_isSome (h : o.mb.Growable) (hlen : o.mb.len ≠ 0)
    (hlimit : o.mb.offset + size < 2 ^ 31) (hout : o.ostream = true → o.output.isSome)
    (hsafe : o.FlushSafe size a realloc) (hfuel : 31 ≤ fuel) :
    ∃ r, o.makeRoom fuel size a realloc = some r ∧ (realloc.isSome → r.ok = true) := by
  have hnew := h.newlen_eq hlimit
  have hgrow : ∀ {o' : StreamBuf} (offset : ℤ) (log : List Delivery), o'.mb.Growable →
      o'.mb.len = o.mb.len → o.full size →
      ∃ r, o'.growRoom fuel (sizeT (o.mb.offset + size)) offset log realloc = some r ∧
        (realloc.isSome → r.ok = true) := by
    intro o' offset log h' hlen' hfull
    have hge : sizeT o'.mb.len ≤ sizeT (o.mb.offset + size) := by
      rw [hlen']
      exact hfull
    obtain ⟨ok, mb', hrun, hok⟩ := h'.growTo_isSome (by rw [hlen']; exact hlen) hge (by omega)
      hfuel realloc
    exact ⟨_, Option.map_eq_some_iff.mpr ⟨_, hrun, rfl⟩, hok⟩
  unfold StreamBuf.makeRoom
  dsimp only
  split
  · rename_i hfull
    split
    · rename_i hstream
      obtain ⟨stream, hstream'⟩ := Option.isSome_iff_exists.mp (hout hstream)
      obtain ⟨o', d, hwrite, -, -, hgrowable, hlen', -⟩ :=
        streamWrite_spec (a := a) h hstream' (hsafe hfull hstream).1
      rw [hwrite]
      dsimp only [bind, Option.bind]
      split
      · split
        · exact ⟨_, rfl, fun _ => rfl⟩
        · exact hgrow _ _ hgrowable hlen' hfull
      · exact hgrow _ _ hgrowable hlen' hfull
    · exact hgrow _ _ h rfl hfull
  · exact ⟨_, rfl, fun _ => rfl⟩

/-- A string goes behind the content, or nothing does. -/
theorem addlstring_spec (h : o.mb.Growable) {s : List UInt8}
    (hlimit : o.mb.offset + s.length < 2 ^ 31) (hout : o.ostream = true → o.output.isSome)
    (hsafe : o.FlushSafe s.length a realloc) {ok : Bool} {log : List Delivery}
    (hrun : o.addlstring fuel s a realloc = some (ok, o', log)) :
    contents o.mb ++ (if ok then s else []) = delivered log ++ contents o'.mb ∧
      SameStream o o' ∧ o'.mb.Growable ∧ (o.mb.len ≠ 0 → o'.mb.len ≠ 0) ∧
      ∀ d ∈ log, d.Fits o.output := by
  obtain ⟨r, hroom, hrest⟩ := Option.bind_eq_some_iff.mp hrun
  have hr := makeRoom_spec h hlimit hout hsafe hroom
  have hoff := hr.growable.offset
  dsimp only at hrest
  split at hrest
  · rename_i hok
    obtain ⟨mb, hstore, heq⟩ := Option.map_eq_some_iff.mp hrest
    obtain ⟨rfl, rfl, rfl⟩ := heq
    obtain ⟨n, hn⟩ := Int.eq_ofNat_of_zero_le hoff.1
    have hfits := hr.fits hok
    have hsmall := hr.limit hok
    rw [hr.offset hok] at hstore hfits hsmall
    rw [Membuf.store_eq hn (by omega)] at hstore
    obtain rfl := Option.some.inj hstore
    have hend : int32 (r.offset + int32 s.length) = (n + s.length : ℕ) := by
      rw [hr.offset hok, hn, int32_of_range (i := (s.length : ℤ)) (by omega) (by omega),
        int32_of_range (by omega) (by omega), Int.natCast_add]
    refine ⟨?_, ⟨hr.same.ostream, hr.same.ostreamBufio, hr.same.output⟩, ?_, hr.len, hr.log⟩
    · have hbytes : contents r.buf.mb = readBytes r.buf.mb.data 0 n := by
        rw [contents, hn]
        rfl
      have hput : readBytes (writeBytes r.buf.mb.data n s) 0 n = readBytes r.buf.mb.data 0 n :=
        readBytes_writeBytes_of_disjoint (Or.inl (by omega))
      have hself : readBytes (writeBytes r.buf.mb.data n s) (0 + n) s.length = s := by
        rw [Nat.zero_add]
        exact readBytes_writeBytes_self _ _ _
      rw [hr.content, hbytes, List.append_assoc]
      dsimp only [contents]
      rw [hend, Int.toNat_natCast, readBytes_add, hput, hself]
      rfl
    · dsimp only
      rw [hend]
      exact ⟨hr.growable.alloc, hr.growable.len, ⟨by dsimp only; omega, by dsimp only; omega,
        by dsimp only; omega⟩⟩
  · obtain ⟨rfl, rfl, rfl⟩ := Option.some.inj hrest
    exact ⟨by rw [if_neg (by simp), List.append_nil]; exact hr.content, hr.same, hr.growable, hr.len,
      hr.log⟩

/-- Unless the length is zero, a write ends. -/
theorem addlstring_isSome (h : o.mb.Growable) (hlen : o.mb.len ≠ 0) (s : List UInt8) (a : Answer)
    (realloc : Option Lib.Mem) (hlimit : o.mb.offset + s.length < 2 ^ 31)
    (hout : o.ostream = true → o.output.isSome) (hsafe : o.FlushSafe s.length a realloc)
    (hfuel : 31 ≤ fuel) : ∃ res, o.addlstring fuel s a realloc = some res := by
  obtain ⟨r, hroom, -⟩ := makeRoom_isSome h hlen hlimit hout hsafe hfuel
  have hr := makeRoom_spec h hlimit hout hsafe hroom
  have hoff := hr.growable.offset
  unfold StreamBuf.addlstring
  rw [hroom]
  dsimp only [bind, Option.bind]
  by_cases hok : r.ok = true
  · obtain ⟨n, hn⟩ := Int.eq_ofNat_of_zero_le hoff.1
    have hfits := hr.fits hok
    rw [hr.offset hok] at hfits
    rw [if_pos hok, hr.offset hok, Membuf.store_eq hn (by omega)]
    exact ⟨_, rfl⟩
  · rw [if_neg hok]
    exact ⟨_, rfl⟩

end spec

end LuaSys.Mem
