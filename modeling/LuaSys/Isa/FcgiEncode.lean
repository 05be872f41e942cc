import LuaSys.Isa.FcgiDecode
import LuaSys.Mem.Membuf

/-!
# Encoding FastCGI records

The model of `fcgi_encode` on a memory buffer without an output stream.  A call appends
a STDOUT record with the data, padded to a multiple of eight bytes.  If the caller passes
the offset that the call before returned, and the record there belongs to the same
request, then the data goes into this record instead: first over its padding, then behind
it.  A call without data appends an empty STDOUT record and an END_REQUEST record.

The bytes of the records are given by `OutRecord.wire`, and the decoder reads them back.

## Main definitions

* `fcgiEncode` — the function of the source.
* `OutRecord`, `OutRecord.wire` — a record of the output and its bytes.
* `HoldsRecord` — the bytes of a record in memory.

## Main results

* `OutRecord.flatMap_wire_inj` — bytes are records in one way at most.
* `newRecord_of_data`, `newRecord_of_nil` — what a call appends.
* `extendRecord_eq` — the record before, with more data.
-/

namespace LuaSys.Isa

open LuaSys.Lib LuaSys.Mem

/-! ## The call -/

/-- The low byte of a number. -/
def lowByte (n : ℕ) : UInt8 := UInt8.ofNat n

/-- The byte above the low byte. -/
def highByte (n : ℕ) : UInt8 := UInt8.ofNat (n / 256)

/-- The content and padding length of the record at `prev_offset`, if this record belongs
to the request and has room for the data. -/
def prevRecord (mb : Membuf) (id : ℕ) (prevOffset : ℤ) (data : List UInt8) : Option (ℕ × ℕ) :=
  let cp := mb.offset - prevOffset
  let prevLen := 256 * (mb.byte cp).toNat + (mb.byte (cp + 1)).toNat
  if prevOffset ≠ 0 ∧ mb.byte (cp - 1) = lowByte id ∧ mb.byte (cp - 2) = highByte id ∧
      data ≠ [] ∧ prevLen + data.length ≤ 65535 then
    some (prevLen, (mb.byte (cp + 2)).toNat)
  else none

/-- `data_len` before the padding: the bytes by which the buffer must grow. -/
def rawLen (prev : Option (ℕ × ℕ)) (data : List UInt8) : ℤ :=
  match prev with
  | some (_, prevPadding) => data.length - prevPadding
  | none => if data = [] then 24 else data.length + 8

/-- `padding_len`. -/
def paddingLen (prev : Option (ℕ × ℕ)) (data : List UInt8) : ℕ :=
  match prev with
  | some (_, prevPadding) =>
      if rawLen prev data ≤ 0 then prevPadding - data.length
      else ((8 - rawLen prev data % 8) % 8).toNat
  | none => ((8 - rawLen prev data % 8) % 8).toNat

/-- `data_len`: the bytes that the call appends. -/
def dataLen (prev : Option (ℕ × ℕ)) (data : List UInt8) : ℕ :=
  if rawLen prev data ≤ 0 then 0 else (rawLen prev data).toNat + paddingLen prev data

/-- The end of a call: the lengths go to `lenp`, zeros to `cp`, and the buffer ends behind
these.  The result is the distance from `lenp` to the end. -/
def finishRecord (mb : Membuf) (lenp cp : ℤ) (len padding growth : ℕ) : Option (Membuf × ℤ) := do
  let mb ← mb.store lenp [highByte len, lowByte len, lowByte padding]
  let mb ← mb.store cp (List.replicate padding 0)
  some ({ mb with offset := int32 (mb.offset + growth) }, cp + padding - lenp)

/-- Add the data to the record before. -/
def extendRecord (mb : Membuf) (prevOffset : ℤ) (prev : ℕ × ℕ) (data : List UInt8) :
    Option (Membuf × ℤ) := do
  let cp := mb.offset - prev.2
  let mb₁ ← mb.store cp data
  finishRecord mb₁ (mb.offset - prevOffset) (cp + data.length) (prev.1 + data.length)
    (paddingLen (some prev) data) (dataLen (some prev) data)

/-- Write a new record, followed by END_REQUEST if there are no data. -/
def newRecord (mb : Membuf) (id : ℕ) (data : List UInt8) : Option (Membuf × ℤ) := do
  let cp := mb.offset
  let mb₁ ← mb.store cp [1, 6, highByte id, lowByte id]
  let mb₂ ← mb₁.store (cp + 7) [0]
  if data ≠ [] then
    let mb₃ ← mb₂.store (cp + 8) data
    finishRecord mb₃ (cp + 4) (cp + 8 + data.length) data.length (paddingLen none data)
      (dataLen none data)
  else
    let mb₃ ← mb₂.store (cp + 8) [1, 3, highByte id, lowByte id, 0, 8, 0, 0]
    let mb₄ ← mb₃.store (cp + 16) (List.replicate 8 0)
    finishRecord mb₄ (cp + 4) (cp + 16) 0 (paddingLen none data) (dataLen none data)

/-- The ways a call ends. -/
inductive EncodeResult
  /-- `luaL_argerror (L, 4, "too long")`. -/
  | tooLong
  /-- The buffer could not grow; nothing is returned. -/
  | noMemory
  /-- The buffer and the offset returned. -/
  | encoded (mb : Membuf) (offset : ℤ)

/-- `fcgi_encode`. -/
def fcgiEncode (fuel : ℕ) (mb : Membuf) (id : ℕ) (prevOffset : ℤ) (data : List UInt8)
    (realloc : Option Lib.Mem) : Option EncodeResult :=
  if data.length > 65535 then some .tooLong
  else
    let prev := prevRecord mb id prevOffset data
    let room := if rawLen prev data ≤ 0 then some (true, mb)
      else mb.reserve fuel (dataLen prev data) realloc
    room.bind fun
      | (false, _) => some .noMemory
      | (true, mb) =>
          match prev with
          | some prev =>
              (extendRecord mb prevOffset prev data).map fun r => .encoded r.1 r.2
          | none => (newRecord mb id data).map fun r => .encoded r.1 r.2

/-! ## The records written -/

/-- A record of the output. -/
structure OutRecord where
  type : ℕ
  id : ℕ
  content : List UInt8
  padding : ℕ
  deriving DecidableEq

namespace OutRecord

/-- The bytes of a record: version 1, and zeros for the padding. -/
def wire (r : OutRecord) : List UInt8 :=
  [1, lowByte r.type, highByte r.id, lowByte r.id] ++
    [highByte r.content.length, lowByte r.content.length, lowByte r.padding] ++ [0] ++
    r.content ++ List.replicate r.padding 0

/-- The fields fit into the header. -/
structure Valid (r : OutRecord) : Prop where
  type : r.type < 256
  id : r.id < 65536
  content : r.content.length < 65536
  padding : r.padding < 256

end OutRecord

/-- The empty STDOUT record of a request. -/
def stdoutEnd (id : ℕ) : OutRecord := ⟨6, id, [], 0⟩

/-- The END_REQUEST record of a request: status 0, FCGI_REQUEST_COMPLETE. -/
def endRequest (id : ℕ) : OutRecord := ⟨3, id, List.replicate 8 0, 0⟩

/-! ## The decoder reads the records back -/

namespace OutRecord

variable {r : OutRecord}

theorem length_wire (r : OutRecord) : r.wire.length = 8 + r.content.length + r.padding := by
  simp only [wire, List.length_append, List.length_cons, List.length_nil, List.length_replicate]

theorem two_bytes {n : ℕ} (h : n < 65536) :
    256 * (highByte n).toNat + (lowByte n).toNat = n := by
  simp only [highByte, lowByte, UInt8.toNat_ofNat']
  omega

theorem one_byte {n : ℕ} (h : n < 256) : (lowByte n).toNat = n := by
  simp only [lowByte, UInt8.toNat_ofNat']
  omega

/-- The record as the decoder sees it. -/
def toRecord (r : OutRecord) : FcgiRecord := (⟨1, r.type, r.id, r.content.length, r.padding⟩, r.content)

theorem toRecord_injective : Function.Injective toRecord := by
  intro r r' h
  obtain ⟨hheader, hcontent⟩ := Prod.mk.inj h
  obtain ⟨-, htype, hid, -, hpadding⟩ := FcgiHeader.mk.inj hheader
  cases r
  cases r'
  simp_all

theorem Valid.nextRecord (h : r.Valid) (rest : List UInt8) :
    nextRecord (r.wire ++ rest) = some (r.toRecord, rest) := by
  have hread : FcgiHeader.read (r.wire ++ rest) = some r.toRecord.1 := by
    simp only [wire, List.cons_append, List.nil_append, FcgiHeader.read, toRecord,
      one_byte h.type, one_byte h.padding, two_bytes h.id, two_bytes h.content]
    rfl
  have hlen : r.toRecord.1.len = r.wire.length := (length_wire r).symm
  refine nextRecord_eq_some.mpr ⟨hread, ?_, ?_, ?_⟩
  · rw [hlen, List.length_append]
    omega
  · simp [wire, toRecord]
  · rw [hlen, List.drop_left]

/-- Valid records are the records of their bytes. -/
theorem records_flatMap_wire {rs : List OutRecord} (h : ∀ r ∈ rs, r.Valid) :
    fcgiFraming.records (rs.flatMap wire) = rs.map toRecord := by
  induction rs with
  | nil => rfl
  | cons r rs ih =>
      have hnext : fcgiFraming.next (r.wire ++ rs.flatMap wire) = some (r.toRecord, rs.flatMap wire) :=
        (h r List.mem_cons_self).nextRecord _
      rw [List.flatMap_cons, Framing.records_of_some hnext,
        ih fun r hr => h r (List.mem_cons_of_mem _ hr), List.map_cons]

/-- Bytes are valid records in one way at most. -/
theorem flatMap_wire_inj {rs rs' : List OutRecord} (h : ∀ r ∈ rs, r.Valid)
    (h' : ∀ r ∈ rs', r.Valid) (heq : rs.flatMap wire = rs'.flatMap wire) : rs = rs' := by
  have hrecords := congrArg fcgiFraming.records heq
  rw [records_flatMap_wire h, records_flatMap_wire h'] at hrecords
  exact List.map_injective_iff.mpr toRecord_injective hrecords

end OutRecord

/-! ## The lengths of a call -/

theorem dataLen_none {data : List UInt8} (h : data ≠ []) :
    dataLen none data = 8 + data.length + paddingLen none data ∧
      8 ∣ 8 + data.length + paddingLen none data ∧ paddingLen none data < 8 := by
  have hraw : rawLen none data = data.length + 8 := if_neg h
  simp only [dataLen, paddingLen, hraw]
  rw [if_neg (by omega)]
  omega

theorem dataLen_some (l p : ℕ) (data : List UInt8) :
    p + dataLen (some (l, p)) data = data.length + paddingLen (some (l, p)) data ∧
      8 ∣ dataLen (some (l, p)) data ∧ paddingLen (some (l, p)) data ≤ max p 7 := by
  have hraw : rawLen (some (l, p)) data = data.length - p := rfl
  simp only [dataLen, paddingLen, hraw]
  by_cases hle : (data.length : ℤ) - p ≤ 0
  · rw [if_pos hle, if_pos hle]
    omega
  · rw [if_neg hle, if_neg hle]
    omega

/-! ## Records in memory -/

section memory
variable {m m' : Lib.Mem} {p : ℕ} {r : OutRecord}

/-- The bytes of a record stand at `p`. -/
def HoldsRecord (m : Lib.Mem) (p : ℕ) (r : OutRecord) : Prop := readBytes m p r.wire.length = r.wire

/-- A record stands at `p` if its fields do. -/
theorem holdsRecord_iff :
    HoldsRecord m p r ↔
      readBytes m p 4 = [1, lowByte r.type, highByte r.id, lowByte r.id] ∧
      readBytes m (p + 4) 3 =
        [highByte r.content.length, lowByte r.content.length, lowByte r.padding] ∧
      readBytes m (p + 7) 1 = [0] ∧ readBytes m (p + 8) r.content.length = r.content ∧
      readBytes m (p + 8 + r.content.length) r.padding = List.replicate r.padding 0 := by
  have hlen : r.wire.length = 4 + 3 + 1 + r.content.length + r.padding := by
    rw [OutRecord.length_wire]
  have hsplit : readBytes m p r.wire.length = readBytes m p 4 ++ readBytes m (p + 4) 3 ++
      readBytes m (p + 7) 1 ++ readBytes m (p + 8) r.content.length ++
      readBytes m (p + 8 + r.content.length) r.padding := by
    rw [hlen, readBytes_add, readBytes_add, readBytes_add, readBytes_add, Nat.add_assoc p 8]
  rw [HoldsRecord, hsplit, OutRecord.wire]
  constructor
  · intro h
    obtain ⟨h, h₅⟩ := List.append_inj h (by simp; omega)
    obtain ⟨h, h₄⟩ := List.append_inj h (by simp)
    obtain ⟨h, h₃⟩ := List.append_inj h (by simp)
    obtain ⟨h₁, h₂⟩ := List.append_inj h (by simp)
    exact ⟨h₁, h₂, h₃, h₄, h₅⟩
  · rintro ⟨h₁, h₂, h₃, h₄, h₅⟩
    rw [h₁, h₂, h₃, h₄, h₅]

/-- The bytes of a record, one by one. -/
theorem HoldsRecord.bytes (h : HoldsRecord m p r) :
    m (p + 2) = highByte r.id ∧ m (p + 3) = lowByte r.id ∧
      m (p + 4) = highByte r.content.length ∧ m (p + 5) = lowByte r.content.length ∧
      m (p + 6) = lowByte r.padding := by
  obtain ⟨h₁, h₂, -⟩ := holdsRecord_iff.mp h
  simp only [readBytes, List.range_succ, List.range_zero, List.nil_append, List.cons_append,
    List.map_cons, List.map_nil, List.cons.injEq, and_true] at h₁ h₂
  exact ⟨h₁.2.2.1, h₁.2.2.2, h₂.1, h₂.2.1, h₂.2.2⟩

/-- The bytes that `finishRecord` and the calls before it leave. -/
theorem holdsRecord_finish
    (hhead : readBytes m p 4 = [1, lowByte r.type, highByte r.id, lowByte r.id])
    (hzero : readBytes m (p + 7) 1 = [0])
    (hcontent : readBytes m (p + 8) r.content.length = r.content) :
    HoldsRecord (writeBytes (writeBytes m (p + 4)
      [highByte r.content.length, lowByte r.content.length, lowByte r.padding])
      (p + 8 + r.content.length) (List.replicate r.padding 0)) p r := by
  refine holdsRecord_iff.mpr ⟨?_, ?_, ?_, ?_, ?_⟩
  · rw [readBytes_writeBytes_of_disjoint (by omega),
      readBytes_writeBytes_of_disjoint (by omega), hhead]
  · rw [readBytes_writeBytes_of_disjoint (by omega)]
    exact readBytes_writeBytes_self m (p + 4) _
  · rw [readBytes_writeBytes_of_disjoint (by omega),
      readBytes_writeBytes_of_disjoint (by simp), hzero]
  · rw [readBytes_writeBytes_of_disjoint (by omega),
      readBytes_writeBytes_of_disjoint (by simp), hcontent]
  · have hself := readBytes_writeBytes_self (writeBytes m (p + 4)
      [highByte r.content.length, lowByte r.content.length, lowByte r.padding])
      (p + 8 + r.content.length) (List.replicate r.padding 0)
    rw [List.length_replicate] at hself
    exact hself

end memory

/-! ## What a call writes -/

section call
variable {mb : Membuf} {o p : ℕ} {data : List UInt8}

theorem finishRecord_eq {lenp cp : ℤ} {q len padding growth : ℕ} (hlenp : lenp = (p + 4 : ℕ))
    (hcp : cp = q) (hp : p + 8 ≤ q) (hsize : q + padding ≤ mb.size) :
    finishRecord mb lenp cp len padding growth =
      some ({ mb with
        data := writeBytes (writeBytes mb.data (p + 4)
          [highByte len, lowByte len, lowByte padding]) q (List.replicate padding 0)
        offset := int32 (mb.offset + growth) }, (q : ℤ) + padding - (p + 4 : ℕ)) := by
  have h₁ : mb.store lenp [highByte len, lowByte len, lowByte padding] = some { mb with
      data := writeBytes mb.data (p + 4) [highByte len, lowByte len, lowByte padding] } :=
    Membuf.store_eq hlenp (by simp only [List.length_cons, List.length_nil]; omega)
  rw [finishRecord, h₁]
  dsimp only [bind, Option.bind]
  rw [Membuf.store_eq hcp (by rw [List.length_replicate]; exact hsize)]
  dsimp only
  rw [hlenp, hcp]

/-- A new record stands behind the old bytes. -/
theorem newRecord_of_data (id : ℕ) (hoff : mb.offset = o) (hdata : data ≠ [])
    (hsize : o + dataLen none data ≤ mb.size) (hlimit : o + dataLen none data < 2 ^ 31) :
    ∃ m', newRecord mb id data =
        some ({ mb with data := m', offset := (o + dataLen none data : ℕ) },
          (dataLen none data : ℤ) - 4) ∧
      HoldsRecord m' o ⟨6, id, data, paddingLen none data⟩ ∧ ∀ i < o, m' i = mb.data i := by
  obtain ⟨hlen, -, -⟩ := dataLen_none hdata
  have h₁ : mb.store mb.offset [1, 6, highByte id, lowByte id] = some { mb with
      data := writeBytes mb.data o [1, 6, highByte id, lowByte id] } :=
    Membuf.store_eq hoff (by simp only [List.length_cons, List.length_nil]; omega)
  rw [newRecord, h₁]
  dsimp only [bind, Option.bind]
  rw [Membuf.store_eq (n := o + 7) (by omega) (by simp only [List.length_cons, List.length_nil]; omega)]
  dsimp only
  rw [if_pos hdata, Membuf.store_eq (n := o + 8) (by omega) (by dsimp only; omega)]
  dsimp only
  rw [finishRecord_eq (p := o) (q := o + 8 + data.length) (by omega) (by omega) (by omega)
    (by dsimp only; omega)]
  dsimp only
  have hint : int32 (mb.offset + dataLen none data) = (o + dataLen none data : ℕ) := by
    rw [hoff, int32_of_range (by omega) (by omega), Int.natCast_add]
  refine ⟨_, by rw [hint]; congr 2; omega, ?_, ?_⟩
  · refine holdsRecord_finish (r := ⟨6, id, data, paddingLen none data⟩) ?_ ?_ ?_
    · rw [readBytes_writeBytes_of_disjoint (by omega),
        readBytes_writeBytes_of_disjoint (by omega)]
      exact readBytes_writeBytes_self mb.data o _
    · rw [readBytes_writeBytes_of_disjoint (by omega)]
      exact readBytes_writeBytes_self _ (o + 7) _
    · exact readBytes_writeBytes_self _ (o + 8) data
  · intro i hi
    rw [writeBytes_of_lt (by omega), writeBytes_of_lt (by omega), writeBytes_of_lt (by omega),
      writeBytes_of_lt (by omega), writeBytes_of_lt hi]

theorem dataLen_nil : dataLen none [] = 24 := rfl

theorem paddingLen_nil : paddingLen none [] = 0 := rfl

/-- The end of a request: two records.  The offset returned is that of the second. -/
theorem newRecord_of_nil (id : ℕ) (hoff : mb.offset = o) (hsize : o + 24 ≤ mb.size)
    (hlimit : o + 24 < 2 ^ 31) :
    ∃ m', newRecord mb id [] = some ({ mb with data := m', offset := (o + 24 : ℕ) }, 12) ∧
      HoldsRecord m' o (stdoutEnd id) ∧ HoldsRecord m' (o + 8) (endRequest id) ∧
      ∀ i < o, m' i = mb.data i := by
  have h₁ : mb.store mb.offset [1, 6, highByte id, lowByte id] = some { mb with
      data := writeBytes mb.data o [1, 6, highByte id, lowByte id] } :=
    Membuf.store_eq hoff (by simp only [List.length_cons, List.length_nil]; omega)
  rw [newRecord, h₁]
  dsimp only [bind, Option.bind]
  rw [Membuf.store_eq (n := o + 7) (by omega) (by simp only [List.length_cons, List.length_nil]; omega)]
  dsimp only
  rw [if_neg (by simp), Membuf.store_eq (n := o + 8) (by omega)
    (by simp only [List.length_cons, List.length_nil]; omega)]
  dsimp only
  rw [Membuf.store_eq (n := o + 16) (by omega) (by rw [List.length_replicate]; dsimp only; omega)]
  dsimp only
  rw [paddingLen_nil, dataLen_nil, finishRecord_eq (p := o) (q := o + 16) (by omega) (by omega)
    (by omega) (by dsimp only; omega)]
  dsimp only
  have hint : int32 (mb.offset + (24 : ℕ)) = (o + 24 : ℕ) := by
    rw [hoff, int32_of_range (by omega) (by omega), Int.natCast_add]
  rw [hint]
  refine ⟨_, by congr 2; omega, ?_, ?_, ?_⟩
  · refine holdsRecord_iff.mpr ⟨?_, ?_, ?_, rfl, rfl⟩
    · rw [readBytes_writeBytes_of_disjoint (by omega), readBytes_writeBytes_of_disjoint (by omega),
        readBytes_writeBytes_of_disjoint (by omega), readBytes_writeBytes_of_disjoint (by omega),
        readBytes_writeBytes_of_disjoint (by omega)]
      exact readBytes_writeBytes_self mb.data o _
    · rw [readBytes_writeBytes_of_disjoint (by omega)]
      exact readBytes_writeBytes_self _ (o + 4) _
    · rw [readBytes_writeBytes_of_disjoint (by omega), readBytes_writeBytes_of_disjoint (by simp),
        readBytes_writeBytes_of_disjoint (by omega), readBytes_writeBytes_of_disjoint (by omega)]
      exact readBytes_writeBytes_self _ (o + 7) _
  · have hheader : ∀ m : Lib.Mem, readBytes (writeBytes (writeBytes (writeBytes (writeBytes m (o + 8)
        [1, 3, highByte id, lowByte id, 0, 8, 0, 0]) (o + 16) (List.replicate 8 0)) (o + 4)
        [highByte 0, lowByte 0, lowByte 0]) (o + 16) (List.replicate 0 0)) (o + 8) 8 =
        [1, 3, highByte id, lowByte id, 0, 8, 0, 0] := by
      intro m
      rw [readBytes_writeBytes_of_disjoint (by omega), readBytes_writeBytes_of_disjoint (by simp),
        readBytes_writeBytes_of_disjoint (by omega)]
      exact readBytes_writeBytes_self m (o + 8) _
    have hcontent : ∀ m : Lib.Mem, readBytes (writeBytes (writeBytes (writeBytes m (o + 16)
        (List.replicate 8 0)) (o + 4) [highByte 0, lowByte 0, lowByte 0]) (o + 16)
        (List.replicate 0 0)) (o + 16) 8 = List.replicate 8 0 := by
      intro m
      rw [readBytes_writeBytes_of_disjoint (by simp), readBytes_writeBytes_of_disjoint (by simp)]
      exact readBytes_writeBytes_self m (o + 16) (List.replicate 8 0)
    refine (readBytes_add _ (o + 8) 8 8).trans ?_
    rw [hheader, hcontent]
    simp only [OutRecord.wire, endRequest, List.length_replicate]
    rfl
  · intro i hi
    rw [writeBytes_of_lt (by omega), writeBytes_of_lt (by omega), writeBytes_of_lt (by omega),
      writeBytes_of_lt (by omega), writeBytes_of_lt (by omega), writeBytes_of_lt hi]

/-- The last record with more data. -/
def OutRecord.extend (r : OutRecord) (data : List UInt8) : OutRecord :=
  { r with
    content := r.content ++ data
    padding := paddingLen (some (r.content.length, r.padding)) data }

variable {r : OutRecord}

theorem OutRecord.length_wire_extend (r : OutRecord) (data : List UInt8) :
    (r.extend data).wire.length =
      r.wire.length + dataLen (some (r.content.length, r.padding)) data := by
  have hlen := (dataLen_some r.content.length r.padding data).1
  rw [length_wire, length_wire, extend, List.length_append]
  dsimp only
  omega

/-- The data goes over the padding of the last record. -/
theorem extendRecord_eq (hr : HoldsRecord mb.data p r) (hoff : mb.offset = (p + r.wire.length : ℕ))
    (hsize : p + (r.extend data).wire.length ≤ mb.size)
    (hlimit : p + (r.extend data).wire.length < 2 ^ 31) :
    ∃ m', extendRecord mb ((r.wire.length : ℤ) - 4) (r.content.length, r.padding) data =
        some ({ mb with data := m', offset := (p + (r.extend data).wire.length : ℕ) },
          ((r.extend data).wire.length : ℤ) - 4) ∧
      HoldsRecord m' p (r.extend data) ∧ ∀ i < p, m' i = mb.data i := by
  have hlen := OutRecord.length_wire r
  have hlen' := OutRecord.length_wire (r.extend data)
  have hgrow := OutRecord.length_wire_extend r data
  have hcontent : (r.extend data).content.length = r.content.length + data.length :=
    List.length_append
  have hpadding : (r.extend data).padding =
    paddingLen (some (r.content.length, r.padding)) data := rfl
  have h₁ : mb.store (mb.offset - r.padding) data = some { mb with
      data := writeBytes mb.data (p + 8 + r.content.length) data } :=
    Membuf.store_eq (by omega) (by omega)
  rw [extendRecord, h₁]
  dsimp only [bind, Option.bind]
  rw [← hcontent, ← hpadding, finishRecord_eq (p := p) (q := p + 8 + (r.extend data).content.length)
    (by omega) (by omega) (by omega) (by dsimp only; omega)]
  dsimp only
  have hint : int32 (mb.offset + dataLen (some (r.content.length, r.padding)) data) =
      (p + (r.extend data).wire.length : ℕ) := by
    rw [hoff, int32_of_range (by omega) (by omega)]
    omega
  rw [hint]
  refine ⟨_, by congr 2; omega, ?_, ?_⟩
  · obtain ⟨h₁, -, h₃, h₄, -⟩ := holdsRecord_iff.mp hr
    refine holdsRecord_finish (r := r.extend data) ?_ ?_ ?_
    · rw [readBytes_writeBytes_of_disjoint (by omega)]
      exact h₁
    · rw [readBytes_writeBytes_of_disjoint (by omega)]
      exact h₃
    · rw [hcontent, readBytes_add, readBytes_writeBytes_of_disjoint (by omega), h₄]
      exact congrArg _ (readBytes_writeBytes_self mb.data (p + 8 + r.content.length) data)
  · intro i hi
    rw [writeBytes_of_lt (by omega), writeBytes_of_lt (by omega), writeBytes_of_lt (by omega)]

/-- Two request ids are told apart by their bytes. -/
theorem id_eq_of_bytes {i j : ℕ} (hi : i < 65536) (hj : j < 65536) (hlow : lowByte i = lowByte j)
    (hhigh : highByte i = highByte j) : i = j := by
  rw [← OutRecord.two_bytes hi, ← OutRecord.two_bytes hj, hlow, hhigh]

/-- With the offset of the last record, the call looks at this record. -/
theorem prevRecord_last (hr : HoldsRecord mb.data p r) (hvalid : r.Valid)
    (hoff : mb.offset = (p + r.wire.length : ℕ)) (id : ℕ) (data : List UInt8) :
    prevRecord mb id ((r.wire.length : ℤ) - 4) data =
      if lowByte r.id = lowByte id ∧ highByte r.id = highByte id ∧ data ≠ [] ∧
          r.content.length + data.length ≤ 65535 then
        some (r.content.length, r.padding)
      else none := by
  obtain ⟨b₂, b₃, b₄, b₅, b₆⟩ := hr.bytes
  have hlen := OutRecord.length_wire r
  have hcp : mb.offset - ((r.wire.length : ℤ) - 4) = (p + 4 : ℕ) := by omega
  have hne : (r.wire.length : ℤ) - 4 ≠ 0 := by omega
  have hbyte : ∀ {i : ℤ} {n : ℕ}, i = n → mb.byte i = mb.data n := by
    rintro i n rfl
    rfl
  have h₂ : mb.byte ((p + 4 : ℕ) - 2) = mb.data (p + 2) := hbyte (by omega)
  have h₃ : mb.byte ((p + 4 : ℕ) - 1) = mb.data (p + 3) := hbyte (by omega)
  have h₄ : mb.byte (p + 4 : ℕ) = mb.data (p + 4) := rfl
  have h₅ : mb.byte ((p + 4 : ℕ) + 1) = mb.data (p + 5) := hbyte (by omega)
  have h₆ : mb.byte ((p + 4 : ℕ) + 2) = mb.data (p + 6) := hbyte (by omega)
  unfold prevRecord
  dsimp only
  rw [hcp, h₂, h₃, h₄, h₅, h₆, b₂, b₃, b₄, b₅, b₆,
    OutRecord.two_bytes hvalid.content, OutRecord.one_byte hvalid.padding]
  exact if_congr (and_iff_right hne) rfl rfl

/-- With the offset of the last record, the call finds this record, if it belongs to the
request and has room. -/
theorem prevRecord_eq (hr : HoldsRecord mb.data p r) (hvalid : r.Valid)
    (hoff : mb.offset = (p + r.wire.length : ℕ)) {id : ℕ} {prev : ℕ × ℕ}
    (h : prevRecord mb id ((r.wire.length : ℤ) - 4) data = some prev) (hid : id < 65536) :
    id = r.id ∧ data ≠ [] ∧ r.content.length + data.length ≤ 65535 ∧
      prev = (r.content.length, r.padding) := by
  rw [prevRecord_last hr hvalid hoff] at h
  obtain ⟨⟨hlow, hhigh, hdata, hroom⟩, heq⟩ := Option.ite_none_right_eq_some.mp h
  exact ⟨id_eq_of_bytes hid hvalid.id hlow.symm hhigh.symm, hdata, hroom, (Option.some.inj heq).symm⟩

end call

/-! ## Request ids of more than 16 bits -/

theorem lowByte_mod (id : ℕ) : lowByte (id % 65536) = lowByte id := by
  apply UInt8.toNat_inj.mp
  simp only [lowByte, UInt8.toNat_ofNat']
  omega

theorem highByte_mod (id : ℕ) : highByte (id % 65536) = highByte id := by
  apply UInt8.toNat_inj.mp
  simp only [highByte, UInt8.toNat_ofNat']
  omega

theorem prevRecord_mod (mb : Membuf) (id : ℕ) (prevOffset : ℤ) (data : List UInt8) :
    prevRecord mb (id % 65536) prevOffset data = prevRecord mb id prevOffset data := by
  unfold prevRecord
  rw [lowByte_mod, highByte_mod]

theorem newRecord_mod (mb : Membuf) (id : ℕ) (data : List UInt8) :
    newRecord mb (id % 65536) data = newRecord mb id data := by
  unfold newRecord
  rw [lowByte_mod, highByte_mod]

end LuaSys.Isa
