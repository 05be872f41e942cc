import LuaSys.Isa.FcgiEncode
import LuaSys.Lib.Run

/-!
# The FastCGI output of a channel

A run is a sequence of calls of `fcgi_encode` on one buffer, for any requests in any
order.  Every call gets no offset, or the one that the call before has returned; after a
call without data there is none.  A call fails if the buffer cannot grow.

The purpose of the calls is said without bytes: every call carries data for a request or
ends it, and the records carry the same data between the same ends.

## Main definitions

* `FcgiOutput.step` — one call of a run.
* `outItems`, `segments` — the data and the ends of requests.
* `Encoded` — the bytes appended are records that carry the data of the calls.

## Main results

* `safe_run_encoded` — as long as the buffer stays below `2 ^ 31` bytes, the bytes
  appended are such records, and every call returns.
-/

namespace LuaSys.Isa

open LuaSys.Lib LuaSys.Mem Relation

/-! ## Runs -/

/-- What a call, or a record, says about a request. -/
inductive OutItem
  | data (id : ℕ) (bs : List UInt8)
  | close (id : ℕ)
  deriving DecidableEq

/-- The arguments of a call; `usePrev` says whether the offset returned before is passed. -/
structure EncodeCall where
  id : ℕ
  usePrev : Bool
  data : List UInt8
  /-- What `realloc` returns. -/
  realloc : Option Lib.Mem

/-- Data for the request, or its end. -/
def EncodeCall.item (c : EncodeCall) : OutItem :=
  if c.data = [] then .close c.id else .data c.id c.data

/-- The buffer, the offset to pass on, and the calls that have returned an offset. -/
structure FcgiOutput where
  mb : Membuf
  prev : ℤ
  calls : List OutItem

namespace FcgiOutput

/-- The offset that a call gets. -/
def prevOffset (s : FcgiOutput) (c : EncodeCall) : ℤ := if c.usePrev then s.prev else 0

/-- One call.  A call that fails returns no offset. -/
def step (fuel : ℕ) (s : FcgiOutput) (c : EncodeCall) : Option FcgiOutput :=
  (fcgiEncode fuel s.mb c.id (s.prevOffset c) c.data c.realloc).map fun
    | .encoded mb offset => ⟨mb, if c.data = [] then 0 else offset, s.calls ++ [c.item]⟩
    | _ => { s with prev := 0 }

/-- The bytes that the call appends. -/
def growth (s : FcgiOutput) (c : EncodeCall) : ℕ :=
  dataLen (prevRecord s.mb c.id (s.prevOffset c) c.data) c.data

/-- The calls in question: a request id has 16 bits, and the data are not too long. -/
def Allowed (c : EncodeCall) : Prop := c.id < 65536 ∧ c.data.length ≤ 65535

instance : DecidablePred Allowed := fun _ => inferInstanceAs (Decidable (_ ∧ _))

/-- The buffer has a length other than zero, and stays below `2 ^ 31` bytes. -/
def Fits (s : FcgiOutput) (c : EncodeCall) : Prop :=
  s.mb.len ≠ 0 ∧ s.mb.offset + s.growth c < 2 ^ 31

instance (s : FcgiOutput) : DecidablePred s.Fits := fun _ => inferInstanceAs (Decidable (_ ∧ _))

/-- The transitions with these calls. -/
def SafeStep (s s' : FcgiOutput) : Prop :=
  ∃ fuel c, Allowed c ∧ s.Fits c ∧ s.step fuel c = some s'

/-- A growable buffer with any content, before the first call. -/
def Start (s : FcgiOutput) : Prop := s.mb.Growable ∧ s.prev = 0 ∧ s.calls = []

end FcgiOutput

/-! ## What the records are for -/

/-- The data and the ends of requests in a list of records: an empty STDOUT record must be
followed by the END_REQUEST record of the same request. -/
def outItems : List OutRecord → Option (List OutItem)
  | [] => some []
  | r :: rs =>
      if r.type = 6 ∧ r.content ≠ [] then (outItems rs).map (.data r.id r.content :: ·)
      else
        match rs with
        | [] => none
        | e :: rs =>
            if r.type = 6 ∧ e = endRequest r.id then
              (outItems rs).map (.close r.id :: ·)
            else none

/-- One item more: the finished parts of the data of a request, and the part not finished. -/
def segStep (id : ℕ) (seg : List (List UInt8) × List UInt8) :
    OutItem → List (List UInt8) × List UInt8
  | .data i bs => if i = id then (seg.1, seg.2 ++ bs) else seg
  | .close i => if i = id then (seg.1 ++ [seg.2], []) else seg

/-- The data of a request: the part for each end, and the part after the last end. -/
def segments (id : ℕ) (items : List OutItem) : List (List UInt8) × List UInt8 :=
  items.foldl (segStep id) ([], [])

/-- The bytes of the buffer from `start` on. -/
def appended (mb : Membuf) (start : ℤ) : List UInt8 :=
  readBytes mb.data start.toNat (mb.offset - start).toNat

/-- The bytes behind `start` are, in exactly one way, records whose length is a multiple of
eight, and they carry for every request the data of the calls. -/
def Encoded (start : ℤ) (s : FcgiOutput) : Prop :=
  ∃ rs : List OutRecord,
    (∀ r ∈ rs, r.Valid ∧ 8 ∣ r.wire.length) ∧
    appended s.mb start = rs.flatMap OutRecord.wire ∧
    (∀ rs' : List OutRecord, (∀ r ∈ rs', r.Valid) →
      appended s.mb start = rs'.flatMap OutRecord.wire → rs' = rs) ∧
    ∃ items, outItems rs = some items ∧ ∀ id, segments id items = segments id s.calls

/-! ## Items and segments -/

theorem outItems_data {r : OutRecord} (hr : r.type = 6 ∧ r.content ≠ []) (rs : List OutRecord) :
    outItems (r :: rs) = (outItems rs).map (.data r.id r.content :: ·) := by
  rw [outItems.eq_def]
  exact if_pos hr

theorem outItems_close {r e : OutRecord} (hr : ¬(r.type = 6 ∧ r.content ≠ []))
    (he : r.type = 6 ∧ e = endRequest r.id) (rs : List OutRecord) :
    outItems (r :: e :: rs) = (outItems rs).map (.close r.id :: ·) := by
  rw [outItems, if_neg hr, if_pos he]

theorem outItems_end (id : ℕ) (rs : List OutRecord) :
    outItems (stdoutEnd id :: endRequest id :: rs) = (outItems rs).map (.close id :: ·) :=
  outItems_close (by simp [stdoutEnd]) ⟨rfl, rfl⟩ rs

/-- The items of two lists of records. -/
theorem outItems_append {rs rs' : List OutRecord} {items : List OutItem}
    (h : outItems rs = some items) : outItems (rs ++ rs') = (outItems rs').map (items ++ ·) := by
  induction rs using outItems.induct generalizing items with
  | case1 =>
      obtain rfl := Option.some.inj h
      simp
  | case2 r rs hr ih =>
      rw [outItems_data hr] at h
      obtain ⟨items', hitems', rfl⟩ := Option.map_eq_some_iff.mp h
      rw [List.cons_append, outItems_data hr, ih hitems', Option.map_map]
      rfl
  | case3 r hr =>
      rw [outItems, if_neg hr] at h
      exact absurd h (by simp)
  | case4 r hr e rs he ih =>
      rw [outItems_close hr he] at h
      obtain ⟨items', hitems', rfl⟩ := Option.map_eq_some_iff.mp h
      rw [List.cons_append, List.cons_append, outItems_close hr he, ih hitems', Option.map_map]
      rfl
  | case5 r hr e rs he =>
      rw [outItems, if_neg hr, if_neg he] at h
      exact absurd h (by simp)

theorem segments_concat (id : ℕ) (items : List OutItem) (item : OutItem) :
    segments id (items ++ [item]) = segStep id (segments id items) item := by
  rw [segments, List.foldl_append]
  rfl

/-- Data of one request in two parts. -/
theorem segStep_data_append (id i : ℕ) (seg : List (List UInt8) × List UInt8)
    (bs bs' : List UInt8) :
    segStep id seg (.data i (bs ++ bs')) = segStep id (segStep id seg (.data i bs)) (.data i bs') := by
  by_cases hi : i = id
  · simp [segStep, hi]
  · simp [segStep, hi]

theorem segments_append {id : ℕ} {items items' : List OutItem}
    (h : segments id items = segments id items') (new : List OutItem) :
    segments id (items ++ new) = segments id (items' ++ new) := by
  rw [segments, segments, List.foldl_append, List.foldl_append]
  exact congrArg (List.foldl (segStep id) · new) h

/-- The records carry the data of the calls, between the same ends. -/
def Carries (rs : List OutRecord) (calls : List OutItem) : Prop :=
  ∃ items, outItems rs = some items ∧ ∀ id, segments id items = segments id calls

section carries
variable {rs : List OutRecord} {r : OutRecord} {calls items : List OutItem}

theorem Carries.append (h : Carries rs calls) {rs' : List OutRecord} {new : List OutItem}
    (hnew : outItems rs' = some new) : Carries (rs ++ rs') (calls ++ new) := by
  obtain ⟨items, hitems, hcalls⟩ := h
  refine ⟨items ++ new, ?_, fun id => segments_append (hcalls id) new⟩
  rw [outItems_append hitems, hnew]
  rfl

/-- A record with data. -/
theorem Carries.data (h : Carries rs calls) (htype : r.type = 6) (hcontent : r.content ≠ []) :
    Carries (rs ++ [r]) (calls ++ [.data r.id r.content]) := by
  refine h.append ?_
  rw [outItems_data ⟨htype, hcontent⟩]
  rfl

/-- The end of a request. -/
theorem Carries.close (h : Carries rs calls) (id : ℕ) :
    Carries (rs ++ [stdoutEnd id] ++ [endRequest id]) (calls ++ [.close id]) := by
  rw [List.append_assoc]
  refine h.append ?_
  rw [List.singleton_append, outItems_end]
  rfl

/-- More data in the last record. -/
theorem Carries.extend (h : Carries (rs ++ [r]) calls) (hitems : outItems rs = some items)
    (htype : r.type = 6) (hcontent : r.content ≠ []) (data : List UInt8) :
    Carries (rs ++ [r.extend data]) (calls ++ [.data r.id data]) := by
  obtain ⟨items', hitems', hcalls⟩ := h
  rw [outItems_append hitems, outItems_data ⟨htype, hcontent⟩] at hitems'
  obtain rfl := Option.some.inj hitems'
  have hextend : (r.extend data).type = 6 ∧ (r.extend data).content ≠ [] :=
    ⟨htype, by simp [OutRecord.extend, hcontent]⟩
  refine ⟨items ++ [.data r.id (r.content ++ data)], ?_, fun id => ?_⟩
  · rw [outItems_append hitems, outItems_data hextend]
    rfl
  · rw [segments_concat, segments_concat, ← hcalls]
    exact (segStep_data_append id r.id _ r.content data).trans
      (congrArg (segStep id · _) (segments_concat id items _).symm)

end carries

/-! ## The invariant -/

section holds
variable {m m' : Lib.Mem} {start : ℕ} {rs : List OutRecord} {r : OutRecord}

/-- The bytes of some records. -/
def wireAll (rs : List OutRecord) : List UInt8 := rs.flatMap OutRecord.wire

/-- The records stand in memory from `start` on. -/
def HoldsRecords (m : Lib.Mem) (start : ℕ) (rs : List OutRecord) : Prop :=
  readBytes m start (wireAll rs).length = wireAll rs

theorem wireAll_concat (rs : List OutRecord) (r : OutRecord) :
    wireAll (rs ++ [r]) = wireAll rs ++ r.wire := by
  rw [wireAll, List.flatMap_append, List.flatMap_singleton]
  rfl

theorem holdsRecords_concat :
    HoldsRecords m start (rs ++ [r]) ↔
      HoldsRecords m start rs ∧ HoldsRecord m (start + (wireAll rs).length) r := by
  unfold HoldsRecords HoldsRecord
  rw [wireAll_concat, List.length_append, readBytes_add]
  constructor
  · intro h
    exact List.append_inj h (by simp)
  · rintro ⟨h, h'⟩
    rw [h, h']

theorem HoldsRecords.congr (h : HoldsRecords m start rs)
    (heq : ∀ i < start + (wireAll rs).length, m' i = m i) : HoldsRecords m' start rs :=
  (readBytes_congr fun i _ hi => heq i hi).trans h

end holds

/-- Writing the data and the offset keeps a buffer growable. -/
theorem growable_write {mb : Membuf} (h : mb.Growable) {m : Lib.Mem} {n : ℕ} (hsize : n ≤ mb.size)
    (hlimit : n < 2 ^ 31) : Membuf.Growable { mb with data := m, offset := n } :=
  ⟨h.alloc, h.len, ⟨by dsimp only; omega, by dsimp only; omega, by dsimp only; omega⟩⟩

theorem valid_of_data {id : ℕ} {data : List UInt8} (hid : id < 65536)
    (hlen : data.length ≤ 65535) (hdata : data ≠ []) :
    OutRecord.Valid ⟨6, id, data, paddingLen none data⟩ ∧
      8 ∣ (⟨6, id, data, paddingLen none data⟩ : OutRecord).wire.length := by
  obtain ⟨-, halign, hpad⟩ := dataLen_none hdata
  refine ⟨⟨by dsimp only; omega, hid, Nat.lt_succ_of_le hlen, by dsimp only; omega⟩, ?_⟩
  rw [OutRecord.length_wire]
  exact halign

theorem valid_of_end {id : ℕ} (hid : id < 65536) :
    ((stdoutEnd id).Valid ∧ 8 ∣ (stdoutEnd id).wire.length) ∧
      (endRequest id).Valid ∧ 8 ∣ (endRequest id).wire.length := by
  refine ⟨⟨⟨?_, hid, ?_, ?_⟩, ?_⟩, ⟨?_, hid, ?_, ?_⟩, ?_⟩
  all_goals first | exact ⟨1, rfl⟩ | exact ⟨2, rfl⟩ | simp [stdoutEnd, endRequest]

theorem valid_of_extend {r : OutRecord} {data : List UInt8}
    (h : r.Valid ∧ 8 ∣ r.wire.length) (hlen : r.content.length + data.length ≤ 65535) :
    (r.extend data).Valid ∧ 8 ∣ (r.extend data).wire.length := by
  obtain ⟨hvalid, halign⟩ := h
  obtain ⟨-, hgrow, hpad⟩ := dataLen_some r.content.length r.padding data
  have hpad' := hvalid.padding
  refine ⟨⟨hvalid.type, hvalid.id, ?_, ?_⟩, ?_⟩
  · rw [OutRecord.extend, List.length_append]
    omega
  · dsimp only [OutRecord.extend]
    omega
  · rw [OutRecord.length_wire_extend]
    exact Nat.dvd_add halign hgrow

/-- The records `rs`, and nothing else, stand behind `start`. -/
structure Layout (start : ℕ) (mb : Membuf) (rs : List OutRecord) : Prop where
  growable : mb.Growable
  offset : mb.offset = (start + (wireAll rs).length : ℕ)
  bytes : HoldsRecords mb.data start rs
  valid : ∀ r ∈ rs, r.Valid ∧ 8 ∣ r.wire.length

namespace Layout

variable {start fuel id : ℕ} {mb mb' : Membuf} {rs : List OutRecord} {r : OutRecord}
  {data : List UInt8}

/-- The buffer after room has been made. -/
theorem room (h : Layout start mb rs) {prev : Option (ℕ × ℕ)} {realloc : Option Lib.Mem}
    (hlimit : mb.offset + dataLen prev data < 2 ^ 31)
    (hroom : (if rawLen prev data ≤ 0 then some (true, mb)
      else mb.reserve fuel (dataLen prev data) realloc) = some (true, mb')) :
    Layout start mb' rs ∧ mb'.offset = mb.offset ∧ mb.offset + dataLen prev data ≤ mb'.size := by
  have hoff := h.growable.offset
  have hend := h.offset
  split at hroom
  · rename_i hraw
    obtain ⟨-, rfl⟩ := Prod.mk.inj (Option.some.inj hroom)
    have hzero : dataLen prev data = 0 := if_pos hraw
    exact ⟨h, rfl, by omega⟩
  · rcases h.growable.reserve hlimit hroom with ⟨hok, -⟩ | ⟨-, hgrow, hsame, hsize, hdata⟩
    · exact absurd hok (by simp)
    · exact ⟨⟨hgrow, hsame.trans hend, h.bytes.congr fun i hi => hdata i (by omega), h.valid⟩,
        hsame, hsize⟩

/-- One record more. -/
theorem concat (h : Layout start mb rs) {m' : Lib.Mem}
    (hr : HoldsRecord m' (start + (wireAll rs).length) r)
    (hbelow : ∀ i < start + (wireAll rs).length, m' i = mb.data i)
    (hvalid : r.Valid ∧ 8 ∣ r.wire.length)
    (hsize : start + (wireAll rs).length + r.wire.length ≤ mb.size)
    (hlimit : start + (wireAll rs).length + r.wire.length < 2 ^ 31) :
    Layout start { mb with data := m', offset := (start + (wireAll rs).length + r.wire.length : ℕ) }
      (rs ++ [r]) := by
  refine ⟨growable_write h.growable hsize hlimit, ?_, ?_, ?_⟩
  · rw [wireAll_concat, List.length_append, Nat.add_assoc]
  · exact holdsRecords_concat.mpr ⟨h.bytes.congr hbelow, hr⟩
  · intro r' hr'
    rcases List.mem_append.mp hr' with hr' | hr'
    · exact h.valid r' hr'
    · rw [List.mem_singleton.mp hr']
      exact hvalid

/-- Without the last record. -/
theorem init (h : Layout start mb (rs ++ [r])) :
    Layout start { mb with offset := (start + (wireAll rs).length : ℕ) } rs := by
  have hoff := h.growable.offset
  have hend := h.offset
  rw [wireAll_concat, List.length_append] at hend
  exact ⟨growable_write h.growable (by omega) (by omega), rfl, (holdsRecords_concat.mp h.bytes).1,
    fun r' hr' => h.valid r' (List.mem_append_left _ hr')⟩

/-- A call with data that starts a new record. -/
theorem newRecord (h : Layout start mb rs) (hid : id < 65536) (hdata : data ≠ [])
    (hlen : data.length ≤ 65535) (hsize : mb.offset + dataLen none data ≤ mb.size)
    (hlimit : mb.offset + dataLen none data < 2 ^ 31) :
    ∃ mb', Isa.newRecord mb id data = some (mb', (dataLen none data : ℤ) - 4) ∧
      Layout start mb' (rs ++ [⟨6, id, data, paddingLen none data⟩]) ∧
      ∀ i < start, mb'.data i = mb.data i := by
  have hend := h.offset
  obtain ⟨m', hnew, hr, hbelow⟩ := newRecord_of_data id hend hdata (by omega) (by omega)
  have hwire : (⟨6, id, data, paddingLen none data⟩ : OutRecord).wire.length =
      dataLen none data := by
    rw [OutRecord.length_wire, (dataLen_none hdata).1]
  refine ⟨_, hnew, ?_, fun i hi => hbelow i (by omega)⟩
  rw [← hwire]
  exact h.concat hr hbelow (valid_of_data hid hlen hdata) (by omega) (by omega)

/-- A call without data ends the request. -/
theorem closeRequest (h : Layout start mb rs) (hid : id < 65536)
    (hsize : mb.offset + (24 : ℕ) ≤ mb.size) (hlimit : mb.offset + (24 : ℕ) < 2 ^ 31) :
    ∃ mb', Isa.newRecord mb id [] = some (mb', 12) ∧
      Layout start mb' (rs ++ [stdoutEnd id] ++ [endRequest id]) ∧
      ∀ i < start, mb'.data i = mb.data i := by
  have hend := h.offset
  obtain ⟨m', hnew, hr, hr', hbelow⟩ := newRecord_of_nil id hend (by omega) (by omega)
  have hfirst : (stdoutEnd id).wire.length = 8 := rfl
  have hsecond : (endRequest id).wire.length = 16 := rfl
  have hbefore : (wireAll (rs ++ [stdoutEnd id])).length = (wireAll rs).length + 8 := by
    rw [wireAll_concat, List.length_append, hfirst]
  have hone := h.concat hr hbelow (valid_of_end hid).1 (by omega) (by omega)
  have hlast : HoldsRecord m' (start + (wireAll (rs ++ [stdoutEnd id])).length) (endRequest id) := by
    rw [hbefore]
    exact hr'
  have htwo := hone.concat hlast (fun _ _ => rfl) (valid_of_end hid).2 (by dsimp only; omega) (by omega)
  refine ⟨_, hnew, ?_, fun i hi => hbelow i (by omega)⟩
  rw [hbefore, hsecond] at htwo
  exact htwo

/-- A call that goes on with the last record. -/
theorem extendRecord (h : Layout start mb (rs ++ [r]))
    (hlen : r.content.length + data.length ≤ 65535)
    (hsize : mb.offset + dataLen (some (r.content.length, r.padding)) data ≤ mb.size)
    (hlimit : mb.offset + dataLen (some (r.content.length, r.padding)) data < 2 ^ 31) :
    ∃ mb', Isa.extendRecord mb ((r.wire.length : ℤ) - 4) (r.content.length, r.padding) data =
        some (mb', ((r.extend data).wire.length : ℤ) - 4) ∧
      Layout start mb' (rs ++ [r.extend data]) ∧ ∀ i < start, mb'.data i = mb.data i := by
  have hend := h.offset
  have hgrow := OutRecord.length_wire_extend r data
  rw [wireAll_concat, List.length_append] at hend
  obtain ⟨-, hr⟩ := holdsRecords_concat.mp h.bytes
  have hsize' : start + (wireAll rs).length + (r.extend data).wire.length ≤ mb.size := by omega
  obtain ⟨m', hext, hnew, hbelow⟩ := extendRecord_eq hr (by omega) hsize' (by omega)
  exact ⟨_, hext, h.init.concat hnew hbelow (valid_of_extend (h.valid r (by simp)) hlen)
    (by dsimp only; omega) (by omega), fun i hi => hbelow i (by omega)⟩

/-- With the offset of the last record, a call finds this record, if it belongs to the
request and has room. -/
theorem prevRecord (h : Layout start mb (rs ++ [r])) (hid : id < 65536) {prev : ℕ × ℕ}
    (hprev : Isa.prevRecord mb id ((r.wire.length : ℤ) - 4) data = some prev) :
    id = r.id ∧ data ≠ [] ∧ r.content.length + data.length ≤ 65535 ∧
      prev = (r.content.length, r.padding) := by
  obtain ⟨-, hr⟩ := holdsRecords_concat.mp h.bytes
  have hend := h.offset
  rw [wireAll_concat, List.length_append, ← Nat.add_assoc] at hend
  exact prevRecord_eq hr (h.valid r (by simp)).1 hend hprev hid

/-- What stands behind `start`. -/
theorem appended_eq (h : Layout start mb rs) : appended mb start = rs.flatMap OutRecord.wire := by
  have hlen : (mb.offset - start).toNat = (wireAll rs).length := by
    have := h.offset
    omega
  rw [appended, hlen, Int.toNat_natCast]
  exact h.bytes

end Layout

/-- The records `rs` stand behind `start`, and the offset to pass on is that of the last. -/
structure OutInv (start : ℕ) (s : FcgiOutput) (rs : List OutRecord) : Prop where
  growable : s.mb.Growable
  offset : s.mb.offset = (start + (wireAll rs).length : ℕ)
  bytes : HoldsRecords s.mb.data start rs
  valid : ∀ r ∈ rs, r.Valid ∧ 8 ∣ r.wire.length
  carries : ∃ items, outItems rs = some items ∧ ∀ id, segments id items = segments id s.calls
  prev : s.prev = 0 ∨ ∃ rs₀ r items, rs = rs₀ ++ [r] ∧ outItems rs₀ = some items ∧
    r.type = 6 ∧ r.content ≠ [] ∧ s.prev = (r.wire.length : ℤ) - 4

section step
variable {start fuel : ℕ} {s s' : FcgiOutput} {rs : List OutRecord} {c : EncodeCall}

theorem OutInv.layout (h : OutInv start s rs) : Layout start s.mb rs :=
  ⟨h.growable, h.offset, h.bytes, h.valid⟩

theorem OutInv.carriesCalls (h : OutInv start s rs) : Carries rs s.calls := h.carries

/-- The invariant after a record with data. -/
theorem OutInv.of_record {mb : Membuf} {calls : List OutItem} {r : OutRecord}
    {items : List OutItem} (h : Layout start mb (rs ++ [r])) (hcarries : Carries (rs ++ [r]) calls)
    (hitems : outItems rs = some items) (htype : r.type = 6) (hcontent : r.content ≠ []) :
    OutInv start ⟨mb, (r.wire.length : ℤ) - 4, calls⟩ (rs ++ [r]) :=
  ⟨h.growable, h.offset, h.bytes, h.valid, hcarries,
    Or.inr ⟨rs, r, items, rfl, hitems, htype, hcontent, rfl⟩⟩

theorem item_of_data (hdata : c.data ≠ []) : c.item = .data c.id c.data := if_neg hdata

theorem item_of_nil (hdata : c.data = []) : c.item = .close c.id := if_pos hdata

/-- A call that starts a new record. -/
theorem OutInv.newRecord (h : OutInv start s rs) (hc : FcgiOutput.Allowed c) {mb : Membuf}
    (hmb : Layout start mb rs) (hsize : mb.offset + dataLen none c.data ≤ mb.size)
    (hlimit : mb.offset + dataLen none c.data < 2 ^ 31) :
    ∃ mb' offset rs', Isa.newRecord mb c.id c.data = some (mb', offset) ∧
      OutInv start ⟨mb', if c.data = [] then 0 else offset, s.calls ++ [c.item]⟩ rs' := by
  by_cases hdata : c.data = []
  · rw [hdata] at hsize hlimit
    rw [item_of_nil hdata, hdata]
    obtain ⟨mb', hnew, hlayout, -⟩ := hmb.closeRequest hc.1 hsize hlimit
    exact ⟨mb', 12, _, hnew, hlayout.growable, hlayout.offset, hlayout.bytes, hlayout.valid,
      h.carriesCalls.close c.id, Or.inl rfl⟩
  · obtain ⟨mb', hnew, hlayout, -⟩ := hmb.newRecord hc.1 hdata hc.2 hsize hlimit
    have hwire : (⟨6, c.id, c.data, paddingLen none c.data⟩ : OutRecord).wire.length =
        dataLen none c.data := by
      rw [OutRecord.length_wire, (dataLen_none hdata).1]
    rw [item_of_data hdata]
    rw [← hwire] at hnew
    refine ⟨mb', _, rs ++ [⟨6, c.id, c.data, paddingLen none c.data⟩], hnew, ?_⟩
    rw [if_neg hdata]
    obtain ⟨items, hitems, -⟩ := h.carries
    exact OutInv.of_record hlayout (h.carriesCalls.data rfl hdata) hitems rfl hdata

/-- A call that goes on with the last record. -/
theorem OutInv.extendRecord {rs₀ : List OutRecord} {r : OutRecord} {items : List OutItem}
    (h : OutInv start s (rs₀ ++ [r])) (hitems : outItems rs₀ = some items)
    (htype : r.type = 6) (hcontent : r.content ≠ []) (hid : c.id = r.id) (hdata : c.data ≠ [])
    (hlen : r.content.length + c.data.length ≤ 65535) {mb : Membuf}
    (hmb : Layout start mb (rs₀ ++ [r]))
    (hsize : mb.offset + dataLen (some (r.content.length, r.padding)) c.data ≤ mb.size)
    (hlimit : mb.offset + dataLen (some (r.content.length, r.padding)) c.data < 2 ^ 31) :
    ∃ mb' offset, Isa.extendRecord mb ((r.wire.length : ℤ) - 4) (r.content.length, r.padding) c.data =
        some (mb', offset) ∧
      OutInv start ⟨mb', offset, s.calls ++ [c.item]⟩ (rs₀ ++ [r.extend c.data]) := by
  obtain ⟨mb', hext, hlayout, -⟩ := hmb.extendRecord hlen hsize hlimit
  refine ⟨mb', _, hext, OutInv.of_record hlayout ?_ hitems htype
    (by simp [OutRecord.extend, hcontent])⟩
  rw [item_of_data hdata, hid]
  exact h.carriesCalls.extend hitems htype hcontent c.data

/-- An offset of zero is no record to go on with. -/
theorem prevRecord_ne_zero {mb : Membuf} {id : ℕ} {offset : ℤ} {data : List UInt8}
    {prev : ℕ × ℕ} (hprev : prevRecord mb id offset data = some prev) : offset ≠ 0 := by
  intro hzero
  unfold prevRecord at hprev
  exact (Option.ite_none_right_eq_some.mp hprev).1.1 hzero

/-- A call that gets an offset gets the one to pass on. -/
theorem FcgiOutput.prevOffset_of_ne (hne : s.prevOffset c ≠ 0) :
    c.usePrev = true ∧ s.prevOffset c = s.prev := by
  unfold FcgiOutput.prevOffset at hne ⊢
  by_cases huse : c.usePrev = true
  · exact ⟨huse, if_pos huse⟩
  · exact absurd (if_neg huse) hne

/-- The second half of the call, on a buffer with room. -/
theorem OutInv.write (h : OutInv start s rs) (hc : FcgiOutput.Allowed c) {mb : Membuf}
    (hmb : Layout start mb rs) (hoff : mb.offset = s.mb.offset)
    (hsize : s.mb.offset + s.growth c ≤ mb.size) (hlimit : s.mb.offset + s.growth c < 2 ^ 31) :
    ∃ mb' offset rs',
      (match prevRecord s.mb c.id (s.prevOffset c) c.data with
        | some prev =>
            (Isa.extendRecord mb (s.prevOffset c) prev c.data).map fun r =>
              EncodeResult.encoded r.1 r.2
        | none => (Isa.newRecord mb c.id c.data).map fun r => .encoded r.1 r.2) =
        some (.encoded mb' offset) ∧
      OutInv start ⟨mb', if c.data = [] then 0 else offset, s.calls ++ [c.item]⟩ rs' := by
  unfold FcgiOutput.growth at hsize hlimit
  rw [← hoff] at hsize hlimit
  cases hprev : prevRecord s.mb c.id (s.prevOffset c) c.data with
  | none =>
      rw [hprev] at hsize hlimit
      obtain ⟨mb', offset, rs', hrun, hinv⟩ := h.newRecord hc hmb hsize hlimit
      refine ⟨mb', offset, rs', ?_, hinv⟩
      rw [hrun]
      rfl
  | some prev =>
      have hne := prevRecord_ne_zero hprev
      obtain ⟨-, huse⟩ := FcgiOutput.prevOffset_of_ne hne
      rw [huse] at hne hprev ⊢
      obtain ⟨rs₀, r, items, rfl, hitems, htype, hcontent, hp⟩ := h.prev.resolve_left hne
      rw [hp] at hprev ⊢
      obtain ⟨hid, hdata, hlen, rfl⟩ := h.layout.prevRecord hc.1 hprev
      rw [huse, hp, hprev] at hsize hlimit
      obtain ⟨mb', offset, hrun, hinv⟩ :=
        h.extendRecord hitems htype hcontent hid hdata hlen hmb hsize hlimit
      refine ⟨mb', offset, _, ?_, by rw [if_neg hdata]; exact hinv⟩
      dsimp only
      rw [hrun]
      rfl

/-- A call keeps the invariant; it ends, and fails only if the buffer cannot grow. -/
theorem OutInv.encode (h : OutInv start s rs) (hc : FcgiOutput.Allowed c) (hfits : s.Fits c) :
    (∀ s', s.step fuel c = some s' → ∃ rs', OutInv start s' rs') ∧
      (31 ≤ fuel → ∃ res, fcgiEncode fuel s.mb c.id (s.prevOffset c) c.data c.realloc = some res ∧
        (c.realloc.isSome → ∃ mb offset, res = .encoded mb offset)) := by
  have hshort : ¬c.data.length > 65535 := Nat.not_lt.mpr hc.2
  unfold FcgiOutput.step fcgiEncode
  rw [if_neg hshort]
  dsimp only
  constructor
  · intro s' hstep
    obtain ⟨res, hrun, rfl⟩ := Option.map_eq_some_iff.mp hstep
    obtain ⟨⟨ok, mb⟩, hroom, hrest⟩ := Option.bind_eq_some_iff.mp hrun
    cases ok with
    | false =>
        obtain rfl := Option.some.inj hrest
        exact ⟨rs, h.growable, h.offset, h.bytes, h.valid, h.carries, Or.inl rfl⟩
    | true =>
        obtain ⟨hmb, hoff, hsize⟩ := h.layout.room hfits.2 hroom
        obtain ⟨mb', offset, rs', hwrite, hinv⟩ := h.write hc hmb hoff hsize hfits.2
        obtain rfl := Option.some.inj (hrest.symm.trans hwrite)
        exact ⟨rs', hinv⟩
  · intro hfuel
    have hroom : ∃ ok mb, (if rawLen (prevRecord s.mb c.id (s.prevOffset c) c.data) c.data ≤ 0 then
        some (true, s.mb) else s.mb.reserve fuel (s.growth c) c.realloc) = some (ok, mb) ∧
        (c.realloc.isSome → ok = true) := by
      split
      · exact ⟨true, s.mb, rfl, fun _ => rfl⟩
      · exact h.growable.reserve_isSome hfits.1 hfits.2 hfuel c.realloc
    obtain ⟨ok, mb, hroom, hok⟩ := hroom
    cases ok with
    | false =>
        refine ⟨.noMemory, Option.bind_eq_some_iff.mpr ⟨(false, mb), hroom, rfl⟩, fun hsome => ?_⟩
        exact absurd (hok hsome) (by simp)
    | true =>
        obtain ⟨hmb, hoff, hsize⟩ := h.layout.room hfits.2 hroom
        obtain ⟨mb', offset, rs', hwrite, -⟩ := h.write hc hmb hoff hsize hfits.2
        exact ⟨_, Option.bind_eq_some_iff.mpr ⟨(true, mb), hroom, hwrite⟩, fun _ => ⟨mb', offset, rfl⟩⟩

/-- The initial state. -/
theorem FcgiOutput.Start.inv (h : s.Start) : OutInv s.mb.offset.toNat s [] := by
  obtain ⟨hmb, hprev, hcalls⟩ := h
  refine ⟨hmb, ?_, rfl, by simp, ⟨[], rfl, fun id => by rw [hcalls]⟩, Or.inl hprev⟩
  have := hmb.offset
  simp only [wireAll, List.flatMap_nil, List.length_nil, Nat.add_zero]
  omega

/-- The invariant says what the output is for. -/
theorem OutInv.encoded (h : OutInv start s rs) : Encoded start s := by
  have hbytes : appended s.mb start = rs.flatMap OutRecord.wire := h.layout.appended_eq
  refine ⟨rs, h.valid, hbytes, fun rs' hrs' heq => ?_, h.carries⟩
  exact OutRecord.flatMap_wire_inj hrs' (fun r hr => (h.valid r hr).1) (heq.symm.trans hbytes)

end step

/-- As long as the length of the buffer is not zero and its content stays below `2 ^ 31`
bytes, the bytes appended are records that carry the data of the calls, and a call ends. -/
theorem safe_run_encoded {s s' : FcgiOutput} (hstart : s.Start)
    (hrun : ReflTransGen FcgiOutput.SafeStep s s') :
    Encoded s.mb.offset s' ∧
      ∀ c, FcgiOutput.Allowed c → s'.Fits c → ∀ fuel, 31 ≤ fuel →
        ∃ res, fcgiEncode fuel s'.mb c.id (s'.prevOffset c) c.data c.realloc = some res ∧
          (c.realloc.isSome → ∃ mb offset, res = .encoded mb offset) := by
  obtain ⟨rs, hinv⟩ : ∃ rs, OutInv s.mb.offset.toNat s' rs := by
    refine inv_of_reach (I := fun s' => ∃ rs, OutInv s.mb.offset.toNat s' rs) ?_ ⟨[], hstart.inv⟩ hrun
    rintro s₁ s₂ ⟨fuel, c, hc, hfits, hstep⟩ ⟨rs, hinv⟩
    exact (hinv.encode hc hfits).1 s₂ hstep
  have hoff : ((s.mb.offset.toNat : ℕ) : ℤ) = s.mb.offset := Int.toNat_of_nonneg hstart.1.offset.1
  refine ⟨hoff ▸ hinv.encoded, fun c hc hfits fuel hfuel => ?_⟩
  exact (hinv.encode hc hfits).2 hfuel

/-- A new buffer with a block of `n` bytes. -/
def newOutput (n : ℕ) : FcgiOutput := ⟨⟨fun _ => 0, n, n, 0, true⟩, 0, []⟩

theorem safe_run_encoded_twoCalls :
    ∃ s', ReflTransGen FcgiOutput.SafeStep (newOutput 128) s' ∧ Encoded 0 s' ∧
      s'.calls = [.data 1 [65], .data 1 [66]] := by
  have hstart : (newOutput 128).Start := ⟨⟨rfl, by decide, by decide⟩, rfl, rfl⟩
  have hobs : (((newOutput 128).step 1 ⟨1, true, [65], none⟩).bind fun s =>
      if s.Fits ⟨1, true, [66], none⟩ then (s.step 1 ⟨1, true, [66], none⟩).map FcgiOutput.calls
      else none) = some [.data 1 [65], .data 1 [66]] := by
    decide +kernel
  obtain ⟨s₁, hstep₁, hrest⟩ := Option.bind_eq_some_iff.mp hobs
  obtain ⟨hfits, hmap⟩ := Option.ite_none_right_eq_some.mp hrest
  obtain ⟨s₂, hstep₂, hcalls⟩ := Option.map_eq_some_iff.mp hmap
  have hrun : ReflTransGen FcgiOutput.SafeStep (newOutput 128) s₂ :=
    (ReflTransGen.single ⟨1, _, by decide, by decide, hstep₁⟩).tail
      ⟨1, _, by decide, hfits, hstep₂⟩
  exact ⟨s₂, hrun, (safe_run_encoded hstart hrun).1, hcalls⟩

/-- A growable buffer of length zero: the call never ends. -/
theorem empty_buffer_never_grows :
    (newOutput 0).Start ∧ FcgiOutput.Allowed ⟨1, false, [65], some fun _ => 0⟩ ∧
      ∀ fuel, (newOutput 0).step fuel ⟨1, false, [65], some fun _ => 0⟩ = none := by
  refine ⟨⟨⟨rfl, by decide, by decide⟩, rfl, rfl⟩, by decide, fun fuel => ?_⟩
  have hloop : (newOutput 0).mb.reserve fuel 16 (some fun _ => 0) = none := by
    have hzero : sizeT (newOutput 0).mb.len = 0 := rfl
    rw [Membuf.reserve, hzero, Membuf.doubleLen_zero]
    rfl
  have hcall : fcgiEncode fuel (newOutput 0).mb 1 0 [65] (some fun _ => 0) =
      ((newOutput 0).mb.reserve fuel 16 (some fun _ => 0)).bind _ := rfl
  rw [FcgiOutput.step, FcgiOutput.prevOffset, if_neg (by simp), hcall, hloop]
  rfl

end LuaSys.Isa
