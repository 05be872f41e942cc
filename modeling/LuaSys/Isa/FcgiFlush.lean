import LuaSys.Isa.FcgiOutput
import LuaSys.Mem.Stream

/-!
# FastCGI output with an output stream

`fcgi_encode` on a buffer whose output stream takes everything it is given.  The stream is
called when the bytes of a call do not fit any more, so this happens between two records,
unless the call goes on with the record before: then the stream has got this record, and the
call still writes to the place where it stood.

## Main definitions

* `fcgiEncodeFlush` — the function of the source.
* `FlushOutput.step` — one call of a run.
* `CarriedBytes` — some bytes are records that carry the data of the calls.
* `FlushOutput.FlushesRecord` — the call flushes the record that it goes on with.

## Main results

* `safe_run_carried` — the bytes for the stream, followed by those in the buffer, are records
  that carry the data of the calls; the next call stays inside the block if and only if it does
  not flush the record that it goes on with.
-/

namespace LuaSys.Isa

open LuaSys.Lib LuaSys.Mem Relation
open LuaSys.File (contents length_contents)

/-! ## The call -/

/-- The ways a call on a buffer with an output stream ends, with what the stream has got. -/
inductive FlushResult
  /-- `luaL_argerror (L, 4, "too long")`. -/
  | tooLong
  /-- The buffer could not grow; nothing is returned. -/
  | noMemory (buf : StreamBuf) (log : List Delivery)
  /-- The buffer and the offset returned. -/
  | encoded (buf : StreamBuf) (log : List Delivery) (offset : ℤ)

/-- The second half of the call: go on with the record before, or write a new one. -/
def writeRecord (mb : Membuf) (id : ℕ) (prevOffset : ℤ) (data : List UInt8) :
    Option (ℕ × ℕ) → Option (Membuf × ℤ)
  | some prev => extendRecord mb prevOffset prev data
  | none => newRecord mb id data

/-- `fcgi_encode` on a buffer with an output stream. -/
def fcgiEncodeFlush (fuel : ℕ) (o : StreamBuf) (id : ℕ) (prevOffset : ℤ) (data : List UInt8)
    (a : Answer) (realloc : Option Lib.Mem) : Option FlushResult :=
  if data.length > 65535 then some .tooLong
  else
    let prev := prevRecord o.mb id prevOffset data
    let room := if rawLen prev data ≤ 0 then some ⟨true, o, o.mb.offset, []⟩
      else o.makeRoom fuel (dataLen prev data) a realloc
    room.bind fun r =>
      if r.ok then
        (writeRecord r.buf.mb id prevOffset data prev).map fun w =>
          .encoded { r.buf with mb := w.1 } r.log w.2
      else some (.noMemory r.buf r.log)

/-! ## Runs -/

/-- The call with the request id that is written: the low 16 bits. -/
def EncodeCall.low16 (c : EncodeCall) : EncodeCall := { c with id := c.id % 65536 }

/-- The buffer, the offset to pass on, the calls that have returned an offset, and the bytes
that the stream has got. -/
structure FlushOutput where
  buf : StreamBuf
  prev : ℤ
  calls : List OutItem
  sent : List UInt8

namespace FlushOutput

/-- The offset that a call gets. -/
def prevOffset (s : FlushOutput) (c : EncodeCall) : ℤ := if c.usePrev then s.prev else 0

/-- What the call finds at this offset. -/
def prevRecord (s : FlushOutput) (c : EncodeCall) : Option (ℕ × ℕ) :=
  Isa.prevRecord s.buf.mb c.id (s.prevOffset c) c.data

/-- The room that is made for the call. -/
def room (fuel : ℕ) (s : FlushOutput) (c : EncodeCall) (a : Answer) : Option StreamBuf.Room :=
  if rawLen (s.prevRecord c) c.data ≤ 0 then some ⟨true, s.buf, s.buf.mb.offset, []⟩
  else s.buf.makeRoom fuel (dataLen (s.prevRecord c) c.data) a c.realloc

/-- One call.  After a call without data, or one that fails, there is no offset to pass on. -/
def step (fuel : ℕ) (s : FlushOutput) (c : EncodeCall) (a : Answer) : Option FlushOutput :=
  (fcgiEncodeFlush fuel s.buf c.id (s.prevOffset c) c.data a c.realloc).map fun
    | .tooLong => s
    | .noMemory buf log => ⟨buf, 0, s.calls, s.sent ++ Mem.delivered log⟩
    | .encoded buf log offset =>
        ⟨buf, if c.data = [] then 0 else offset, s.calls ++ [c.low16.item],
          s.sent ++ Mem.delivered log⟩

/-- The stream takes everything. -/
def Accepts (s : FlushOutput) (a : Answer) : Prop := a.res = true ∧ s.buf.mb.offset ≤ a.taken

/-- The buffer stays below `2 ^ 31` bytes. -/
def Small (s : FlushOutput) (c : EncodeCall) : Prop :=
  c.data.length ≤ 65535 → s.buf.mb.offset + dataLen (s.prevRecord c) c.data < 2 ^ 31

/-- The call goes on with the record before, more bytes are wanted for it, and they do not fit
into the buffer. -/
def FlushesRecord (s : FlushOutput) (c : EncodeCall) : Prop :=
  (s.prevRecord c).isSome ∧ 0 < rawLen (s.prevRecord c) c.data ∧
    s.buf.full (dataLen (s.prevRecord c) c.data)

/-- The transitions that do not flush the record that they go on with. -/
def SafeStep (s s' : FlushOutput) : Prop :=
  ∃ fuel c a, s.Accepts a ∧ s.Small c ∧ ¬s.FlushesRecord c ∧ s.step fuel c a = some s'

/-- A growable buffer with a stream, before the first call. -/
structure Start (s : FlushOutput) : Prop where
  growable : s.buf.mb.Growable
  ostream : s.buf.ostream = true
  output : s.buf.output.isSome
  matched : s.buf.Matched
  prev : s.prev = 0
  calls : s.calls = []
  sent : s.sent = []

/-- The bytes that the call looks at for a record before lie in the block. -/
def ReadsInside (s : FlushOutput) (c : EncodeCall) : Prop :=
  s.prevOffset c ≠ 0 → 0 ≤ s.buf.mb.offset - s.prevOffset c - 2 ∧
    s.buf.mb.offset - s.prevOffset c + 2 < s.buf.mb.size

end FlushOutput

/-- The bytes are, in exactly one way, records whose length is a multiple of eight, and they
carry for every request the data of the calls. -/
def CarriedBytes (bytes : List UInt8) (calls : List OutItem) : Prop :=
  ∃ rs : List OutRecord,
    (∀ r ∈ rs, r.Valid ∧ 8 ∣ r.wire.length) ∧
    bytes = rs.flatMap OutRecord.wire ∧
    (∀ rs' : List OutRecord, (∀ r ∈ rs', r.Valid) → bytes = rs'.flatMap OutRecord.wire → rs' = rs) ∧
    Carries rs calls

/-! ## The invariant -/

/-- The stream has got `sent`, the buffer holds some bytes from before the first call and the
records `rs'` behind them; together these are the bytes from before and all records. -/
structure Split (pre sent : List UInt8) (mb : Membuf) (rs rs' : List OutRecord)
    (front : List UInt8) : Prop where
  layout : Layout front.length mb rs'
  kept : readBytes mb.data 0 front.length = front
  passed : sent ++ front = pre ++ wireAll rs
  valid : ∀ r ∈ rs, r.Valid ∧ 8 ∣ r.wire.length

section split
variable {pre sent front : List UInt8} {mb mb' : Membuf} {rs rs' new : List OutRecord}

theorem wireAll_append (rs rs' : List OutRecord) : wireAll (rs ++ rs') = wireAll rs ++ wireAll rs' :=
  List.flatMap_append ..

theorem Split.contents_eq (h : Split pre sent mb rs rs' front) :
    contents mb = front ++ wireAll rs' := by
  have hbytes : readBytes mb.data (0 + front.length) (wireAll rs').length = wireAll rs' := by
    rw [Nat.zero_add]
    exact h.layout.bytes
  rw [File.contents, h.layout.offset, Int.toNat_natCast, readBytes_add, h.kept, hbytes]

/-- All bytes, for the stream and in the buffer. -/
theorem Split.total (h : Split pre sent mb rs rs' front) :
    sent ++ contents mb = pre ++ wireAll (rs ++ rs') := by
  rw [h.contents_eq, wireAll_append, ← List.append_assoc, h.passed, List.append_assoc]

/-- The records behind the front have changed. -/
theorem Split.records (h : Split pre sent mb rs rs' front) (hlayout : Layout front.length mb' new)
    (hfront : ∀ i < front.length, mb'.data i = mb.data i) : Split pre sent mb' rs new front := by
  refine ⟨hlayout, ?_, h.passed, h.valid⟩
  exact (readBytes_congr fun i _ hi => hfront i (by omega)).trans h.kept

/-- The stream has got everything. -/
theorem Split.flushed (h : Split pre sent mb rs rs' front) (hmb : mb'.Growable)
    (hoff : mb'.offset = 0) : Split pre (sent ++ contents mb) mb' (rs ++ rs') [] [] := by
  refine ⟨⟨hmb, hoff, rfl, by simp⟩, rfl, ?_, ?_⟩
  · rw [List.append_nil]
    exact h.total
  · intro r hr
    rcases List.mem_append.mp hr with hr | hr
    · exact h.valid r hr
    · exact h.layout.valid r hr

/-- A new record, or the end of a request, behind the others. -/
theorem Split.newRecord (h : Split pre sent mb rs rs' front) {c : EncodeCall}
    (hshort : c.data.length ≤ 65535) (hsize : mb.offset + dataLen none c.data ≤ mb.size)
    (hlimit : mb.offset + dataLen none c.data < 2 ^ 31) :
    ∃ mb' offset new, Isa.newRecord mb c.id c.data = some (mb', offset) ∧
      Split pre sent mb' rs (rs' ++ new) front ∧
      (∀ calls, Carries (rs ++ rs') calls →
        Carries (rs ++ (rs' ++ new)) (calls ++ [c.low16.item])) ∧
      (c.data ≠ [] → ∃ r, new = [r] ∧ r.type = 6 ∧ r.content ≠ [] ∧
        offset = (r.wire.length : ℤ) - 4) := by
  have hid : c.id % 65536 < 65536 := Nat.mod_lt _ (by omega)
  rw [← newRecord_mod]
  by_cases hdata : c.data = []
  · rw [hdata] at hsize hlimit ⊢
    obtain ⟨mb', hnew, hlayout, hfront⟩ := h.layout.closeRequest hid hsize hlimit
    rw [List.append_assoc] at hlayout
    refine ⟨mb', 12, _, hnew, h.records hlayout hfront, fun calls hcalls => ?_,
      fun hne => absurd rfl hne⟩
    rw [item_of_nil (c := c.low16) hdata, ← List.append_assoc, ← List.append_assoc]
    exact hcalls.close _
  · obtain ⟨mb', hnew, hlayout, hfront⟩ := h.layout.newRecord hid hdata hshort hsize hlimit
    refine ⟨mb', _, _, hnew, h.records hlayout hfront, fun calls hcalls => ?_,
      fun _ => ⟨_, rfl, rfl, hdata, ?_⟩⟩
    · rw [item_of_data (c := c.low16) hdata, ← List.append_assoc]
      exact hcalls.data rfl hdata
    · rw [OutRecord.length_wire, (dataLen_none hdata).1]

end split

/-- The offset to pass on is that of the last record, and this record is in the buffer. -/
structure FlushInv (pre : List UInt8) (s : FlushOutput) (rs rs' : List OutRecord)
    (front : List UInt8) : Prop where
  ostream : s.buf.ostream = true
  output : s.buf.output.isSome
  matched : s.buf.Matched
  split : Split pre s.sent s.buf.mb rs rs' front
  carries : Carries (rs ++ rs') s.calls
  prev : s.prev = 0 ∨ ∃ rs₀ r items, rs' = rs₀ ++ [r] ∧ outItems (rs ++ rs₀) = some items ∧
    r.type = 6 ∧ r.content ≠ [] ∧ s.prev = (r.wire.length : ℤ) - 4

section step
variable {pre front : List UInt8} {s s' : FlushOutput} {rs rs' : List OutRecord}
  {c : EncodeCall} {a : Answer} {fuel : ℕ} {r : StreamBuf.Room}

theorem FlushInv.flushSafe (h : FlushInv pre s rs rs' front) (haccepts : s.Accepts a)
    (size : ℕ) (realloc : Option Lib.Mem) : s.buf.FlushSafe size a realloc := by
  intro _ _
  exact ⟨h.matched, fun hpart => absurd (hpart.1.symm.trans haccepts.1) (by simp)⟩

/-- Without a flush the buffer stays as it is. -/
theorem FlushInv.room_of_fits (h : FlushInv pre s rs rs' front) (haccepts : s.Accepts a)
    (hlimit : s.buf.mb.offset + dataLen (s.prevRecord c) c.data < 2 ^ 31)
    (hroom : s.room fuel c a = some r)
    (hfits : ¬(0 < rawLen (s.prevRecord c) c.data ∧
      s.buf.full (dataLen (s.prevRecord c) c.data))) :
    r = ⟨true, s.buf, s.buf.mb.offset, []⟩ ∧
      s.buf.mb.offset + dataLen (s.prevRecord c) c.data ≤ s.buf.mb.size := by
  have hgrowable := h.split.layout.growable
  have hoff := hgrowable.offset
  unfold FlushOutput.room at hroom
  split at hroom
  · rename_i hraw
    have hzero : dataLen (s.prevRecord c) c.data = 0 := if_pos hraw
    obtain rfl := Option.some.inj hroom
    exact ⟨rfl, by omega⟩
  · rename_i hraw
    have hnot : ¬s.buf.full (dataLen (s.prevRecord c) c.data) := fun hfull => hfits ⟨by omega, hfull⟩
    have hall := makeRoom_all hgrowable hlimit h.ostream h.output h.matched haccepts.1 haccepts.2
      hroom
    exact ⟨hall.2 hnot, hgrowable.le_size hlimit hnot⟩

/-- After a flush the buffer is empty, and the stream has got what was in it. -/
theorem FlushInv.room_of_full (h : FlushInv pre s rs rs' front) (haccepts : s.Accepts a)
    (hlimit : s.buf.mb.offset + dataLen (s.prevRecord c) c.data < 2 ^ 31)
    (hroom : s.room fuel c a = some r) (hraw : 0 < rawLen (s.prevRecord c) c.data)
    (hfull : s.buf.full (dataLen (s.prevRecord c) c.data)) :
    r.buf.mb.offset = 0 ∧ HasRoom s.buf (dataLen (s.prevRecord c) c.data) r ∧
      Mem.delivered r.log = contents s.buf.mb := by
  have hgrowable := h.split.layout.growable
  unfold FlushOutput.room at hroom
  rw [if_neg (by omega)] at hroom
  have hspec := makeRoom_spec hgrowable hlimit (fun _ => h.output) (h.flushSafe haccepts _ _) hroom
  have hzero := (makeRoom_all hgrowable hlimit h.ostream h.output h.matched haccepts.1 haccepts.2
    hroom).1 hfull
  have hempty : contents r.buf.mb = [] := by
    rw [File.contents, hzero]
    rfl
  have hcontent := hspec.content
  rw [hempty, List.append_nil] at hcontent
  exact ⟨hzero, hspec, hcontent.symm⟩

/-- What `room` leaves: some of the records have gone to the stream. -/
theorem FlushInv.room_spec (h : FlushInv pre s rs rs' front) (haccepts : s.Accepts a)
    (hlimit : s.buf.mb.offset + dataLen (s.prevRecord c) c.data < 2 ^ 31)
    (hroom : s.room fuel c a = some r) :
    ∃ rs₁ rs₁' front₁, rs₁ ++ rs₁' = rs ++ rs' ∧ SameStream s.buf r.buf ∧
      Split pre (s.sent ++ Mem.delivered r.log) r.buf.mb rs₁ rs₁' front₁ ∧
      (r.ok = true → r.buf.mb.offset + dataLen (s.prevRecord c) c.data ≤ r.buf.mb.size ∧
        r.buf.mb.offset + dataLen (s.prevRecord c) c.data < 2 ^ 31) := by
  by_cases hflush : 0 < rawLen (s.prevRecord c) c.data ∧ s.buf.full (dataLen (s.prevRecord c) c.data)
  · obtain ⟨hzero, hspec, hlog⟩ := h.room_of_full haccepts hlimit hroom hflush.1 hflush.2
    refine ⟨rs ++ rs', [], [], List.append_nil _, hspec.same, ?_, fun hok => ?_⟩
    · rw [hlog]
      exact h.split.flushed hspec.growable hzero
    · rw [← hspec.offset hok]
      exact ⟨hspec.fits hok, hspec.limit hok⟩
  · obtain ⟨rfl, hsize⟩ := h.room_of_fits haccepts hlimit hroom hflush
    refine ⟨rs, rs', front, rfl, ⟨rfl, rfl, rfl⟩, ?_, fun _ => ⟨hsize, hlimit⟩⟩
    rw [Mem.delivered, List.flatMap_nil, List.append_nil]
    exact h.split

theorem FlushOutput.prevOffset_of_ne (hne : s.prevOffset c ≠ 0) : s.prevOffset c = s.prev := by
  unfold FlushOutput.prevOffset at hne ⊢
  by_cases huse : c.usePrev = true
  · exact if_pos huse
  · exact absurd (if_neg huse) hne

/-- The record that a call goes on with is the last one. -/
theorem FlushInv.prevRecord (h : FlushInv pre s rs rs' front) {prev : ℕ × ℕ}
    (hprev : s.prevRecord c = some prev) :
    ∃ rs₀ r items, rs' = rs₀ ++ [r] ∧ outItems (rs ++ rs₀) = some items ∧ r.type = 6 ∧
      r.content ≠ [] ∧ s.prevOffset c = (r.wire.length : ℤ) - 4 ∧ c.id % 65536 = r.id ∧
      c.data ≠ [] ∧ r.content.length + c.data.length ≤ 65535 ∧
      prev = (r.content.length, r.padding) := by
  have hne : s.prevOffset c ≠ 0 := prevRecord_ne_zero hprev
  have huse := FlushOutput.prevOffset_of_ne hne
  rw [huse] at hne
  obtain ⟨rs₀, r, items, rfl, hitems, htype, hcontent, hp⟩ := h.prev.resolve_left hne
  rw [FlushOutput.prevRecord, huse, hp, ← prevRecord_mod] at hprev
  obtain ⟨hid, hdata, hlen, heq⟩ := h.split.layout.prevRecord (Nat.mod_lt _ (by omega)) hprev
  exact ⟨rs₀, r, items, rfl, hitems, htype, hcontent, huse.trans hp, hid, hdata, hlen, heq⟩

/-- The second half of a call that does not flush the record it goes on with. -/
theorem FlushInv.write (h : FlushInv pre s rs rs' front) (haccepts : s.Accepts a)
    (hshort : c.data.length ≤ 65535) (hsmall : s.Small c) (hsafe : ¬s.FlushesRecord c)
    (hroom : s.room fuel c a = some r) (hok : r.ok = true) :
    ∃ mb' offset rs₁ rs₁' front₁,
      writeRecord r.buf.mb c.id (s.prevOffset c) c.data (s.prevRecord c) = some (mb', offset) ∧
      FlushInv pre ⟨{ r.buf with mb := mb' }, if c.data = [] then 0 else offset,
        s.calls ++ [c.low16.item], s.sent ++ Mem.delivered r.log⟩ rs₁ rs₁' front₁ := by
  cases hprev : s.prevRecord c with
  | none =>
      obtain ⟨rs₁, rs₁', front₁, hrecords, hsame, hsplit, hfits⟩ :=
        h.room_spec haccepts (hsmall hshort) hroom
      obtain ⟨hsize, hlimit⟩ := hfits hok
      rw [hprev] at hsize hlimit
      obtain ⟨mb', offset, new, hnew, hsplit', hcarries, hlast⟩ :=
        hsplit.newRecord hshort hsize hlimit
      refine ⟨mb', offset, rs₁, rs₁' ++ new, front₁, hnew, hsame.ostream.trans h.ostream, ?_, ?_,
        hsplit', ?_, ?_⟩
      · rw [hsame.output]
        exact h.output
      · intro stream hstream
        rw [hsame.ostreamBufio]
        exact h.matched stream (hsame.output ▸ hstream)
      · apply hcarries
        rw [hrecords]
        exact h.carries
      · by_cases hdata : c.data = []
        · exact Or.inl (if_pos hdata)
        · obtain ⟨r', rfl, htype, hcontent, rfl⟩ := hlast hdata
          obtain ⟨items, hitems, -⟩ := h.carries
          rw [← hrecords] at hitems
          exact Or.inr ⟨rs₁', r', items, rfl, hitems, htype, hcontent, if_neg hdata⟩
  | some prev =>
      obtain ⟨rs₀, r', items, rfl, hitems, htype, hcontent, hp, hid, hdata, hlen, rfl⟩ :=
        h.prevRecord hprev
      have hnot : ¬(0 < rawLen (s.prevRecord c) c.data ∧
          s.buf.full (dataLen (s.prevRecord c) c.data)) :=
        fun hflush => hsafe ⟨by rw [hprev]; rfl, hflush⟩
      obtain ⟨rfl, hsize⟩ := h.room_of_fits haccepts (hsmall hshort) hroom hnot
      have hlimit := hsmall hshort
      rw [hprev] at hsize hlimit
      obtain ⟨mb', hext, hlayout, hfront⟩ := h.split.layout.extendRecord hlen hsize hlimit
      have hitem : c.low16.item = .data r'.id c.data := by
        rw [item_of_data (c := c.low16) hdata, ← hid]
        rfl
      rw [hp, Mem.delivered, List.flatMap_nil, List.append_nil, hitem]
      refine ⟨mb', _, rs, rs₀ ++ [r'.extend c.data], front, hext, h.ostream, h.output, h.matched,
        h.split.records hlayout hfront, ?_, Or.inr ⟨rs₀, _, items, rfl, hitems, htype, ?_, ?_⟩⟩
      · have hcarries := h.carries
        rw [← List.append_assoc] at hcarries ⊢
        exact hcarries.extend hitems htype hcontent c.data
      · simp [OutRecord.extend, hcontent]
      · exact if_neg hdata

/-- A call without the memory that it needs. -/
theorem FlushInv.refused (h : FlushInv pre s rs rs' front) (haccepts : s.Accepts a)
    (hlimit : s.buf.mb.offset + dataLen (s.prevRecord c) c.data < 2 ^ 31)
    (hroom : s.room fuel c a = some r) :
    ∃ rs₁ rs₁' front₁,
      FlushInv pre ⟨r.buf, 0, s.calls, s.sent ++ Mem.delivered r.log⟩ rs₁ rs₁' front₁ := by
  obtain ⟨rs₁, rs₁', front₁, hrecords, hsame, hsplit, -⟩ := h.room_spec haccepts hlimit hroom
  refine ⟨rs₁, rs₁', front₁, hsame.ostream.trans h.ostream, ?_, ?_, hsplit, ?_, Or.inl rfl⟩
  · rw [hsame.output]
    exact h.output
  · intro stream hstream
    rw [hsame.ostreamBufio]
    exact h.matched stream (hsame.output ▸ hstream)
  · rw [hrecords]
    exact h.carries

/-- The call, if the data are not too long. -/
theorem fcgiEncodeFlush_of_short (hshort : c.data.length ≤ 65535) :
    fcgiEncodeFlush fuel s.buf c.id (s.prevOffset c) c.data a c.realloc =
      (s.room fuel c a).bind fun r =>
        if r.ok then
          (writeRecord r.buf.mb c.id (s.prevOffset c) c.data (s.prevRecord c)).map fun w =>
            .encoded { r.buf with mb := w.1 } r.log w.2
        else some (.noMemory r.buf r.log) := by
  unfold fcgiEncodeFlush
  rw [if_neg (Nat.not_lt.mpr hshort)]
  rfl

/-- A call that does not flush the record it goes on with keeps the invariant. -/
theorem FlushInv.step (h : FlushInv pre s rs rs' front) (haccepts : s.Accepts a)
    (hsmall : s.Small c) (hsafe : ¬s.FlushesRecord c) (hstep : s.step fuel c a = some s') :
    ∃ rs₁ rs₁' front₁, FlushInv pre s' rs₁ rs₁' front₁ := by
  obtain ⟨res, hrun, rfl⟩ := Option.map_eq_some_iff.mp hstep
  by_cases hlong : c.data.length > 65535
  · unfold fcgiEncodeFlush at hrun
    rw [if_pos hlong] at hrun
    obtain rfl := Option.some.inj hrun
    exact ⟨rs, rs', front, h⟩
  · have hshort : c.data.length ≤ 65535 := Nat.not_lt.mp hlong
    rw [fcgiEncodeFlush_of_short hshort] at hrun
    obtain ⟨r, hroom, hrest⟩ := Option.bind_eq_some_iff.mp hrun
    split at hrest
    · rename_i hok
      obtain ⟨mb', offset, rs₁, rs₁', front₁, hwrite, hinv⟩ :=
        h.write haccepts hshort hsmall hsafe hroom hok
      rw [hwrite] at hrest
      obtain rfl := Option.some.inj hrest
      exact ⟨rs₁, rs₁', front₁, hinv⟩
    · obtain rfl := Option.some.inj hrest
      exact h.refused haccepts (hsmall hshort) hroom

/-- Unless the length is zero, room is made, or the block cannot grow. -/
theorem FlushInv.room_isSome (h : FlushInv pre s rs rs' front) (haccepts : s.Accepts a)
    (hlimit : s.buf.mb.offset + dataLen (s.prevRecord c) c.data < 2 ^ 31)
    (hlen : s.buf.mb.len ≠ 0) (hfuel : 31 ≤ fuel) :
    ∃ r, s.room fuel c a = some r ∧ (c.realloc.isSome → r.ok = true) := by
  unfold FlushOutput.room
  split
  · exact ⟨_, rfl, fun _ => rfl⟩
  · exact makeRoom_isSome h.split.layout.growable hlen hlimit (fun _ => h.output)
      (h.flushSafe haccepts _ _) hfuel

/-- Such a call returns. -/
theorem FlushInv.encode_isSome (h : FlushInv pre s rs rs' front) (haccepts : s.Accepts a)
    (hsmall : s.Small c) (hsafe : ¬s.FlushesRecord c) (hlen : s.buf.mb.len ≠ 0)
    (hfuel : 31 ≤ fuel) :
    ∃ res, fcgiEncodeFlush fuel s.buf c.id (s.prevOffset c) c.data a c.realloc = some res := by
  by_cases hlong : c.data.length > 65535
  · exact ⟨_, if_pos hlong⟩
  · have hshort : c.data.length ≤ 65535 := Nat.not_lt.mp hlong
    obtain ⟨r, hroom, -⟩ := h.room_isSome haccepts (hsmall hshort) hlen hfuel
    rw [fcgiEncodeFlush_of_short hshort, hroom, Option.bind_some]
    split
    · rename_i hok
      obtain ⟨mb', offset, -, -, -, hwrite, -⟩ := h.write haccepts hshort hsmall hsafe hroom hok
      rw [hwrite]
      exact ⟨_, rfl⟩
    · exact ⟨_, rfl⟩

/-- Behind a flush the length field of the record before is out of the block. -/
theorem extendRecord_of_flushed {mb : Membuf} {p : ℤ} (hoff : mb.offset = 0) (hp : 0 < p)
    (prev : ℕ × ℕ) (data : List UInt8) : extendRecord mb p prev data = none := by
  have hbelow : ∀ m : Membuf, m.store (mb.offset - p) [highByte (prev.1 + data.length),
      lowByte (prev.1 + data.length), lowByte (paddingLen (some prev) data)] = none :=
    fun m => if_neg (by omega)
  refine Option.eq_none_iff_forall_ne_some.mpr fun w hw => ?_
  obtain ⟨m, -, hfinish⟩ := Option.bind_eq_some_iff.mp hw
  obtain ⟨m', hstore, -⟩ := Option.bind_eq_some_iff.mp hfinish
  rw [hbelow] at hstore
  exact absurd hstore (by simp)

/-- A call that flushes the record it goes on with writes out of the block. -/
theorem FlushInv.encode_none (h : FlushInv pre s rs rs' front) (haccepts : s.Accepts a)
    (hsmall : s.Small c) (hflush : s.FlushesRecord c) (hlen : s.buf.mb.len ≠ 0)
    (hfuel : 31 ≤ fuel) (hrealloc : c.realloc.isSome) :
    fcgiEncodeFlush fuel s.buf c.id (s.prevOffset c) c.data a c.realloc = none := by
  obtain ⟨hsome, hraw, hfull⟩ := hflush
  obtain ⟨prev, hprev⟩ := Option.isSome_iff_exists.mp hsome
  obtain ⟨rs₀, r', items, rfl, -, -, hcontent, hp, -, hdata, hroomy, -⟩ := h.prevRecord hprev
  have hshort : c.data.length ≤ 65535 := by omega
  obtain ⟨r, hroom, hok⟩ := h.room_isSome haccepts (hsmall hshort) hlen hfuel
  obtain ⟨hzero, -⟩ := h.room_of_full haccepts (hsmall hshort) hroom hraw hfull
  have hpos : 0 < s.prevOffset c := by
    have := OutRecord.length_wire r'
    omega
  rw [fcgiEncodeFlush_of_short hshort, hroom, Option.bind_some, if_pos (hok hrealloc), hprev,
    writeRecord, extendRecord_of_flushed hzero hpos]
  rfl

/-- The record before is in the block. -/
theorem FlushInv.readsInside (h : FlushInv pre s rs rs' front) (c : EncodeCall) :
    s.ReadsInside c := by
  intro hne
  have huse := FlushOutput.prevOffset_of_ne hne
  rw [huse] at hne ⊢
  obtain ⟨rs₀, r, items, rfl, -, -, -, hp⟩ := h.prev.resolve_left hne
  have hend := h.split.layout.offset
  have hoff := h.split.layout.growable.offset
  have hlen := OutRecord.length_wire r
  rw [wireAll_concat, List.length_append] at hend
  omega

theorem FlushOutput.Start.inv (h : s.Start) :
    FlushInv (contents s.buf.mb) s [] [] (contents s.buf.mb) := by
  have hoff := h.growable.offset
  have hlen : ((contents s.buf.mb).length : ℤ) = s.buf.mb.offset := by
    rw [length_contents]
    omega
  refine ⟨h.ostream, h.output, h.matched, ⟨⟨h.growable, ?_, rfl, by simp⟩, ?_, ?_, by simp⟩, ?_,
    Or.inl h.prev⟩
  · exact hlen.symm
  · rw [length_contents]
    rfl
  · rw [h.sent]
    exact (List.append_nil _).symm
  · rw [h.calls]
    exact ⟨[], rfl, fun _ => rfl⟩

/-- The invariant says what the stream and the buffer hold. -/
theorem FlushInv.carried (h : FlushInv pre s rs rs' front) :
    ∃ bytes, s.sent ++ contents s.buf.mb = pre ++ bytes ∧ CarriedBytes bytes s.calls := by
  have hvalid : ∀ r ∈ rs ++ rs', r.Valid ∧ 8 ∣ r.wire.length := by
    intro r hr
    rcases List.mem_append.mp hr with hr | hr
    · exact h.split.valid r hr
    · exact h.split.layout.valid r hr
  refine ⟨wireAll (rs ++ rs'), h.split.total, rs ++ rs', hvalid, rfl, fun rs₁ hrs₁ heq => ?_, h.carries⟩
  exact OutRecord.flatMap_wire_inj hrs₁ (fun r hr => (hvalid r hr).1) heq.symm

end step

/-- In every run of such calls on a buffer whose stream takes everything, the bytes that the
stream has got, followed by those in the buffer, are the bytes from before the run, followed by
records that carry the data of the calls.  The next call looks at no byte out of the block.  It
writes to none and returns, if and only if it does not flush the record that it goes on with. -/
theorem safe_run_carried {s s' : FlushOutput} (hstart : s.Start)
    (hrun : ReflTransGen FlushOutput.SafeStep s s') :
    (∃ bytes, s'.sent ++ contents s'.buf.mb = contents s.buf.mb ++ bytes ∧
      CarriedBytes bytes s'.calls) ∧
    (∀ c, s'.ReadsInside c) ∧
    ∀ fuel c a, 31 ≤ fuel → s'.buf.mb.len ≠ 0 → s'.Accepts a → s'.Small c → c.realloc.isSome →
      ((∃ res, fcgiEncodeFlush fuel s'.buf c.id (s'.prevOffset c) c.data a c.realloc = some res) ↔
        ¬s'.FlushesRecord c) := by
  obtain ⟨rs, rs', front, hinv⟩ : ∃ rs rs' front, FlushInv (contents s.buf.mb) s' rs rs' front := by
    refine inv_of_reach (I := fun s' => ∃ rs rs' front, FlushInv (contents s.buf.mb) s' rs rs' front)
      ?_ ⟨[], [], _, hstart.inv⟩ hrun
    rintro s₁ s₂ ⟨fuel, c, a, haccepts, hsmall, hsafe, hstep⟩ ⟨rs, rs', front, hinv⟩
    exact hinv.step haccepts hsmall hsafe hstep
  refine ⟨hinv.carried, hinv.readsInside, fun fuel c a hfuel hlen haccepts hsmall hrealloc => ?_⟩
  constructor
  · rintro ⟨res, hres⟩ hflush
    rw [hinv.encode_none haccepts hsmall hflush hlen hfuel hrealloc] at hres
    exact absurd hres (by simp)
  · intro hsafe
    exact hinv.encode_isSome haccepts hsmall hsafe hlen hfuel

/-- A new buffer with a block of `n` bytes and a stream that gets strings. -/
def newFlushOutput (n : ℕ) : FlushOutput :=
  ⟨⟨⟨fun _ => 0, n, n, 0, true⟩, true, false, some ⟨1, false⟩⟩, 0, [], []⟩

theorem newFlushOutput_start (n : ℕ) (h : n < 2 ^ 31) : (newFlushOutput n).Start := by
  refine ⟨⟨rfl, Or.inl ⟨Int.natCast_nonneg n, rfl, Int.ofNat_lt.mpr h⟩, ?_⟩, rfl, rfl, ?_, rfl, rfl, rfl⟩
  · exact ⟨Int.le_refl 0, show (0 : ℤ) < 2 ^ 31 by decide, Int.natCast_nonneg n⟩
  · intro stream hstream
    obtain rfl := Option.some.inj hstream
    rfl

/-- The second call finds no room, and starts a new record behind the flush. -/
theorem safe_run_carried_twoCalls :
    ∃ s, ReflTransGen FlushOutput.SafeStep (newFlushOutput 32) s ∧
      s.calls = [.data 1 [65], .data 2 [66]] ∧ s.sent.length = 16 ∧
      ∃ bytes, s.sent ++ contents s.buf.mb = bytes ∧ CarriedBytes bytes s.calls := by
  have hstart := newFlushOutput_start 32 (by decide)
  have hobs : (((newFlushOutput 32).step 1 ⟨1, true, [65], none⟩ ⟨true, 0⟩).bind fun s =>
      if s.buf.mb.offset + dataLen (s.prevRecord ⟨2, true, [66], none⟩) [66] < 2 ^ 31 ∧
          s.buf.mb.offset ≤ 16 ∧ s.prevRecord ⟨2, true, [66], none⟩ = none then
        (s.step 1 ⟨2, true, [66], none⟩ ⟨true, 16⟩).map fun s => (s.calls, s.sent.length)
      else none) = some ([.data 1 [65], .data 2 [66]], 16) := by
    decide +kernel
  obtain ⟨s₁, hstep₁, hrest⟩ := Option.bind_eq_some_iff.mp hobs
  obtain ⟨⟨hsmall, haccepts, hnone⟩, hmap⟩ := Option.ite_none_right_eq_some.mp hrest
  obtain ⟨s₂, hstep₂, heq⟩ := Option.map_eq_some_iff.mp hmap
  obtain ⟨hcalls, hsent⟩ := Prod.mk.inj heq
  have hfirst : ¬(newFlushOutput 32).FlushesRecord ⟨1, true, [65], none⟩ :=
    fun hflush => absurd hflush.1 (by decide)
  have hsecond : ¬s₁.FlushesRecord ⟨2, true, [66], none⟩ := by
    intro hflush
    rw [FlushOutput.FlushesRecord, hnone] at hflush
    exact absurd hflush.1 (by simp)
  have hrun : ReflTransGen FlushOutput.SafeStep (newFlushOutput 32) s₂ :=
    (ReflTransGen.single ⟨1, ⟨1, true, [65], none⟩, ⟨true, 0⟩, ⟨rfl, Int.le_refl 0⟩,
      fun _ => by decide, hfirst, hstep₁⟩).tail
      ⟨1, ⟨2, true, [66], none⟩, ⟨true, 16⟩, ⟨rfl, haccepts⟩, fun _ => hsmall, hsecond, hstep₂⟩
  obtain ⟨bytes, hbytes, hcarried⟩ := (safe_run_carried hstart hrun).1
  exact ⟨s₂, hrun, hcalls, hsent, bytes, hbytes, hcarried⟩

/-- Sixteen bytes in a block of 24, and eight bytes more for the same record: the stream gets
the record, and the length field of the record before is twelve bytes before the block. -/
theorem flushed_record_is_patched :
    ∃ s, (newFlushOutput 24).step 1 ⟨1, true, [65], none⟩ ⟨true, 0⟩ = some s ∧
      ((s.room 1 ⟨1, true, [66, 67, 68, 69, 70, 71, 72, 73], none⟩ ⟨true, 16⟩).map fun r =>
        (r.ok, r.buf.mb.offset - s.prevOffset ⟨1, true, [66, 67, 68, 69, 70, 71, 72, 73], none⟩,
          Mem.delivered r.log)) =
        some (true, -12, wireAll [⟨6, 1, [65], 7⟩]) ∧
      s.step 1 ⟨1, true, [66, 67, 68, 69, 70, 71, 72, 73], none⟩ ⟨true, 16⟩ = none := by
  have hobs : (((newFlushOutput 24).step 1 ⟨1, true, [65], none⟩ ⟨true, 0⟩).bind fun s =>
      if (s.step 1 ⟨1, true, [66, 67, 68, 69, 70, 71, 72, 73], none⟩ ⟨true, 16⟩).isNone then
        (s.room 1 ⟨1, true, [66, 67, 68, 69, 70, 71, 72, 73], none⟩ ⟨true, 16⟩).map fun r =>
          (r.ok, r.buf.mb.offset - s.prevOffset ⟨1, true, [66, 67, 68, 69, 70, 71, 72, 73], none⟩,
            Mem.delivered r.log)
      else none) = some (true, -12, wireAll [⟨6, 1, [65], 7⟩]) := by
    decide +kernel
  obtain ⟨s, hstep, hrest⟩ := Option.bind_eq_some_iff.mp hobs
  obtain ⟨hnone, hroom⟩ := Option.ite_none_right_eq_some.mp hrest
  exact ⟨s, hstep, hroom, Option.isNone_iff_eq_none.mp hnone⟩

end LuaSys.Isa
