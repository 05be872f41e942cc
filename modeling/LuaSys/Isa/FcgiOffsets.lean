import LuaSys.Isa.FcgiOutput

/-!
# The offset that a call returns

`fcgi_encode` returns the distance from the length field of its last record to the end of
the buffer.  A call that gets this offset looks at the request id before the length field,
and at the two lengths; it does not look at the type.  Here the offset is always passed
on, also the one of an END_REQUEST record.

## Main definitions

* `FcgiOutput.passOn` — one call; the call before it may have ended a request.
* `KeepsRecords` — no record is changed, except that a STDOUT record of the request gets
  the data.
* `FcgiOutput.Reopens` — the call carries data for the request that the call before has
  ended.

## Main results

* `safe_run_keepsRecords` — a call keeps the records if and only if it does not reopen a
  request.
-/

namespace LuaSys.Isa

open LuaSys.Lib LuaSys.Mem Relation

/-! ## Runs -/

namespace FcgiOutput

/-- One call.  If the buffer cannot grow then the call returns no offset; data that are too
long raise an error, and the offset of the call before is still there. -/
def passOn (fuel : ℕ) (s : FcgiOutput) (c : EncodeCall) : Option FcgiOutput :=
  (fcgiEncode fuel s.mb c.id (s.prevOffset c) c.data c.realloc).map fun
    | .encoded mb offset => ⟨mb, offset, s.calls ++ [c.item]⟩
    | .noMemory => { s with prev := 0 }
    | .tooLong => s

/-- The buffer stays below `2 ^ 31` bytes. -/
def Small (s : FcgiOutput) (c : EncodeCall) : Prop :=
  c.data.length ≤ 65535 → s.mb.offset + s.growth c < 2 ^ 31

/-- The call gets the offset of the END_REQUEST record of its request, and has data that
fit into this record.  The source keeps the low 16 bits of a request id. -/
def Reopens (s : FcgiOutput) (c : EncodeCall) : Prop :=
  c.usePrev = true ∧ s.prev ≠ 0 ∧
    (∃ id, s.calls.getLast? = some (.close id) ∧ id % 65536 = c.id % 65536) ∧
    c.data ≠ [] ∧ c.data.length ≤ 65527

/-- The transitions that reopen no request. -/
def SafePass (s s' : FcgiOutput) : Prop :=
  ∃ fuel c, s.Small c ∧ ¬s.Reopens c ∧ s.passOn fuel c = some s'

end FcgiOutput

/-! ## What a call may change -/

/-- The bytes of the buffer from `start` on are these records. -/
structure Records (start : ℤ) (mb : Membuf) (rs : List OutRecord) : Prop where
  valid : ∀ r ∈ rs, r.Valid
  bytes : appended mb start = rs.flatMap OutRecord.wire

/-- The records before the call are still there, except that a STDOUT record of the same
request may have got the data of the call. -/
def KeepsRecords (c : EncodeCall) (rs rs' : List OutRecord) : Prop :=
  ∀ (i : ℕ) (r : OutRecord), rs[i]? = some r → rs'[i]? = some r ∨
    r.type = 6 ∧ r.id = c.id % 65536 ∧ rs'[i]? = some (r.extend c.data)

/-- What stands in the buffer before and after a call. -/
def CallKeeps (start : ℤ) (s : FcgiOutput) (c : EncodeCall) (s' : FcgiOutput) : Prop :=
  ∃ rs rs', Records start s.mb rs ∧ Records start s'.mb rs' ∧ KeepsRecords c rs rs'

theorem KeepsRecords.append (c : EncodeCall) (rs new : List OutRecord) :
    KeepsRecords c rs (rs ++ new) := by
  intro i r hr
  obtain ⟨hi, -⟩ := List.getElem?_eq_some_iff.mp hr
  exact Or.inl (by rw [List.getElem?_append_left hi, hr])

section records
variable {start : ℤ} {mb : Membuf} {rs rs' : List OutRecord} {r : OutRecord} {c : EncodeCall}

theorem Records.unique (h : Records start mb rs) (h' : Records start mb rs') : rs = rs' :=
  OutRecord.flatMap_wire_inj h.valid h'.valid (h.bytes.symm.trans h'.bytes)

theorem Layout.records {start : ℕ} (h : Layout start mb rs) : Records start mb rs :=
  ⟨fun r hr => (h.valid r hr).1, h.appended_eq⟩

/-- The data goes to the last record: this must be a STDOUT record of the request. -/
theorem keepsRecords_extend_iff (rs : List OutRecord) (r : OutRecord) (hdata : c.data ≠ []) :
    KeepsRecords c (rs ++ [r]) (rs ++ [r.extend c.data]) ↔ r.type = 6 ∧ r.id = c.id % 65536 := by
  have hlast : ∀ r : OutRecord, (rs ++ [r])[rs.length]? = some r := fun r => by
    rw [List.getElem?_append_right (Nat.le_refl _), Nat.sub_self]
    rfl
  constructor
  · intro h
    rcases h rs.length r (hlast r) with heq | ⟨htype, hid, -⟩
    · rw [hlast] at heq
      have hcontent : r.content ++ c.data = r.content :=
        congrArg OutRecord.content (Option.some.inj heq)
      exact absurd (List.append_right_eq_self.mp hcontent) hdata
    · exact ⟨htype, hid⟩
  · rintro ⟨htype, hid⟩ i r' hr'
    rcases Nat.lt_or_ge i rs.length with hi | hi
    · rw [List.getElem?_append_left hi] at hr' ⊢
      exact Or.inl hr'
    · obtain ⟨hlt, -⟩ := List.getElem?_eq_some_iff.mp hr'
      have hi' : i = rs.length := by
        rw [List.length_append, List.length_singleton] at hlt
        omega
      rw [hi', hlast] at hr' ⊢
      obtain rfl := Option.some.inj hr'
      exact Or.inr ⟨htype, hid, rfl⟩

end records

/-! ## The invariant -/

/-- A record that a call with this item can leave at the end of the buffer. -/
inductive Wrote : OutItem → OutRecord → Prop
  | data {id : ℕ} {bs : List UInt8} {r : OutRecord} (htype : r.type = 6)
      (hid : r.id = id % 65536) : Wrote (.data id bs) r
  | close {id : ℕ} : Wrote (.close id) (endRequest (id % 65536))

/-- The offset to pass on is that of the last record, which the last call has left. -/
structure PassInv (start : ℕ) (s : FcgiOutput) (rs : List OutRecord) : Prop where
  layout : Layout start s.mb rs
  prev : s.prev = 0 ∨ ∃ rs₀ r item, rs = rs₀ ++ [r] ∧ s.prev = (r.wire.length : ℤ) - 4 ∧
    s.calls.getLast? = some item ∧ Wrote item r

/-- What a call does to the records, and the record whose offset it returns. -/
inductive Changes (s : FcgiOutput) (c : EncodeCall) (rs : List OutRecord) :
    List OutRecord → OutRecord → Prop
  | appends {new : List OutRecord} {r : OutRecord} (hwrote : Wrote c.item r)
      (hprev : prevRecord s.mb c.id (s.prevOffset c) c.data = none) :
      Changes s c rs (rs ++ new ++ [r]) r
  | extends {rs₀ : List OutRecord} {r : OutRecord} {item : OutItem} (hrs : rs = rs₀ ++ [r])
      (hlast : s.calls.getLast? = some item) (hwrote : Wrote item r)
      (hprev : c.usePrev = true ∧ s.prev ≠ 0) (hid : r.id = c.id % 65536) (hdata : c.data ≠ [])
      (hroom : r.content.length + c.data.length ≤ 65535) :
      Changes s c rs (rs₀ ++ [r.extend c.data]) (r.extend c.data)

section call
variable {start fuel : ℕ} {s s' : FcgiOutput} {rs rs' : List OutRecord} {c : EncodeCall}
  {r : OutRecord} {mb : Membuf}

/-- A call that does not reopen a request goes on with STDOUT records only. -/
theorem Wrote.stdout {item : OutItem} (h : Wrote item r) (hlast : s.calls.getLast? = some item)
    (hprev : c.usePrev = true ∧ s.prev ≠ 0) (hid : r.id = c.id % 65536) (hdata : c.data ≠ [])
    (hroom : r.content.length + c.data.length ≤ 65535) (hsafe : ¬s.Reopens c) : r.type = 6 := by
  cases h with
  | data htype _ => exact htype
  | close =>
      have hlen : 8 + c.data.length ≤ 65535 := hroom
      exact absurd ⟨hprev.1, hprev.2, ⟨_, hlast, hid⟩, hdata, by omega⟩ hsafe

/-- The record whose offset is returned. -/
theorem Changes.wrote (h : Changes s c rs rs' r) (hsafe : ¬s.Reopens c) : Wrote c.item r := by
  cases h with
  | appends hwrote _ => exact hwrote
  | «extends» hrs hlast hwrote hprev hid hdata hroom =>
      rw [item_of_data hdata]
      exact Wrote.data (hwrote.stdout hlast hprev hid hdata hroom hsafe) hid

theorem Changes.keepsRecords (h : Changes s c rs rs' r) (hsafe : ¬s.Reopens c) :
    KeepsRecords c rs rs' := by
  cases h with
  | appends _ _ =>
      rw [List.append_assoc]
      exact KeepsRecords.append c rs _
  | «extends» hrs hlast hwrote hprev hid hdata hroom =>
      rw [hrs]
      exact (keepsRecords_extend_iff _ _ hdata).mpr
        ⟨hwrote.stdout hlast hprev hid hdata hroom hsafe, hid⟩

/-- The second half of a call, on a buffer with room. -/
theorem PassInv.write (h : PassInv start s rs) (hshort : c.data.length ≤ 65535)
    (hmb : Layout start mb rs) (hoff : mb.offset = s.mb.offset)
    (hsize : s.mb.offset + s.growth c ≤ mb.size) (hlimit : s.mb.offset + s.growth c < 2 ^ 31) :
    ∃ mb' r rs',
      (match prevRecord s.mb c.id (s.prevOffset c) c.data with
        | some prev =>
            (Isa.extendRecord mb (s.prevOffset c) prev c.data).map fun r =>
              EncodeResult.encoded r.1 r.2
        | none => (Isa.newRecord mb c.id c.data).map fun r => .encoded r.1 r.2) =
        some (.encoded mb' ((r.wire.length : ℤ) - 4)) ∧
      Layout start mb' rs' ∧ Changes s c rs rs' r := by
  have hid : c.id % 65536 < 65536 := Nat.mod_lt _ (by omega)
  unfold FcgiOutput.growth at hsize hlimit
  rw [← hoff] at hsize hlimit
  cases hprev : prevRecord s.mb c.id (s.prevOffset c) c.data with
  | none =>
      rw [hprev] at hsize hlimit
      dsimp only
      rw [← newRecord_mod]
      by_cases hdata : c.data = []
      · have hwrote : Wrote c.item (endRequest (c.id % 65536)) := by
          rw [item_of_nil hdata]
          exact Wrote.close
        rw [hdata] at hsize hlimit ⊢
        obtain ⟨mb', hnew, hlayout, -⟩ := hmb.closeRequest hid hsize hlimit
        exact ⟨mb', endRequest (c.id % 65536), _, by rw [hnew]; rfl, hlayout,
          Changes.appends hwrote hprev⟩
      · have hwrote : Wrote c.item ⟨6, c.id % 65536, c.data, paddingLen none c.data⟩ := by
          rw [item_of_data hdata]
          exact Wrote.data rfl rfl
        obtain ⟨mb', hnew, hlayout, -⟩ := hmb.newRecord hid hdata hshort hsize hlimit
        rw [← List.append_nil rs] at hlayout
        refine ⟨mb', ⟨6, c.id % 65536, c.data, paddingLen none c.data⟩, _, ?_, hlayout,
          Changes.appends hwrote hprev⟩
        rw [hnew, OutRecord.length_wire, (dataLen_none hdata).1]
        rfl
  | some prev =>
      have hne := prevRecord_ne_zero hprev
      have huse := FcgiOutput.prevOffset_of_ne hne
      rw [huse.2] at hne hprev ⊢
      obtain ⟨rs₀, r, item, rfl, hp, hlast, hwrote⟩ := h.prev.resolve_left hne
      rw [hp, ← prevRecord_mod] at hprev
      rw [hp]
      obtain ⟨hid', hdata, hroom, rfl⟩ := h.layout.prevRecord hid hprev
      rw [huse.2, hp, ← prevRecord_mod, hprev] at hsize hlimit
      obtain ⟨mb', hext, hlayout, -⟩ := hmb.extendRecord hroom hsize hlimit
      exact ⟨mb', r.extend c.data, _, by dsimp only; rw [hext]; rfl, hlayout,
        Changes.extends rfl hlast hwrote ⟨huse.1, hne⟩ hid'.symm hdata hroom⟩

/-- A call fails and leaves the buffer as it is, or it changes the records. -/
theorem PassInv.passOn (h : PassInv start s rs) (hsmall : s.Small c)
    (hstep : s.passOn fuel c = some s') :
    s'.mb = s.mb ∧ s'.calls = s.calls ∧ (s'.prev = s.prev ∨ s'.prev = 0) ∨
      ∃ r rs', s'.calls = s.calls ++ [c.item] ∧ s'.prev = (r.wire.length : ℤ) - 4 ∧
        Layout start s'.mb rs' ∧ Changes s c rs rs' r := by
  obtain ⟨res, hrun, rfl⟩ := Option.map_eq_some_iff.mp hstep
  unfold fcgiEncode at hrun
  split at hrun
  · obtain rfl := Option.some.inj hrun
    exact Or.inl ⟨rfl, rfl, Or.inl rfl⟩
  · rename_i hlong
    have hshort : c.data.length ≤ 65535 := Nat.not_lt.mp hlong
    obtain ⟨⟨ok, mb⟩, hroom, hrest⟩ := Option.bind_eq_some_iff.mp hrun
    cases ok with
    | false =>
        obtain rfl := Option.some.inj hrest
        exact Or.inl ⟨rfl, rfl, Or.inr rfl⟩
    | true =>
        obtain ⟨hmb, hoff, hsize⟩ := h.layout.room (hsmall hshort) hroom
        obtain ⟨mb', r, rs', hwrite, hlayout, hchanges⟩ :=
          h.write hshort hmb hoff hsize (hsmall hshort)
        obtain rfl := Option.some.inj (hrest.symm.trans hwrite)
        exact Or.inr ⟨r, rs', rfl, rfl, hlayout, hchanges⟩

/-- A call that reopens no request keeps the invariant and the records. -/
theorem PassInv.keeps (h : PassInv start s rs) (hsmall : s.Small c) (hsafe : ¬s.Reopens c)
    (hstep : s.passOn fuel c = some s') :
    ∃ rs', PassInv start s' rs' ∧ KeepsRecords c rs rs' := by
  rcases h.passOn hsmall hstep with ⟨hmb, hcalls, hprev⟩ | ⟨r, rs', hcalls, hprev, hlayout, hchanges⟩
  · refine ⟨rs, ⟨hmb ▸ h.layout, ?_⟩, fun i r hr => Or.inl hr⟩
    rw [hcalls]
    rcases hprev with hprev | hprev
    · rw [hprev]
      exact h.prev
    · exact Or.inl hprev
  · refine ⟨rs', ⟨hlayout, Or.inr ?_⟩, hchanges.keepsRecords hsafe⟩
    have hwrote := hchanges.wrote hsafe
    rw [hcalls, List.getLast?_concat]
    cases hchanges with
    | appends _ _ => exact ⟨_, _, _, rfl, hprev, rfl, hwrote⟩
    | «extends» _ _ _ _ _ _ _ => exact ⟨_, _, _, rfl, hprev, rfl, hwrote⟩

/-- A call that reopens a request changes the END_REQUEST record. -/
theorem PassInv.reopened (h : PassInv start s rs) (hsmall : s.Small c) (hopen : s.Reopens c)
    (hstep : s.passOn fuel c = some s') (hreturns : s'.calls ≠ s.calls) :
    ∃ rs', Layout start s'.mb rs' ∧ ¬KeepsRecords c rs rs' := by
  obtain ⟨-, hcalls, -⟩ | ⟨r, rs', -, -, hlayout, hchanges⟩ := h.passOn hsmall hstep
  · exact absurd hcalls hreturns
  · refine ⟨rs', hlayout, ?_⟩
    obtain ⟨huse, hne, ⟨id, hlast, hid⟩, hdata, hlen⟩ := hopen
    obtain ⟨rs₀, e, item, hrs, hp, hlast', hwrote⟩ := h.prev.resolve_left hne
    obtain rfl := Option.some.inj (hlast.symm.trans hlast')
    cases hwrote
    cases hchanges with
    | appends _ hnone =>
        have hlay := h.layout
        rw [hrs] at hlay
        obtain ⟨-, he⟩ := holdsRecords_concat.mp hlay.bytes
        have hend := hlay.offset
        rw [wireAll_concat, List.length_append, ← Nat.add_assoc] at hend
        have hfound := prevRecord_last he (hlay.valid _ (by simp)).1 hend (c.id % 65536) c.data
        have hroom : (endRequest (id % 65536)).content.length + c.data.length ≤ 65535 := by
          have : (endRequest (id % 65536)).content.length = 8 := rfl
          omega
        rw [if_pos ⟨by rw [← hid]; rfl, by rw [← hid]; rfl, hdata, hroom⟩, prevRecord_mod, ← hp] at hfound
        unfold FcgiOutput.prevOffset at hnone
        rw [if_pos huse, hfound] at hnone
        exact absurd hnone (by simp)
    | «extends» hrs' _ _ _ _ _ _ =>
        rw [hrs'] at hrs ⊢
        obtain ⟨-, hr⟩ := List.append_inj' hrs rfl
        intro hkeeps
        have htype := ((keepsRecords_extend_iff _ _ hdata).mp hkeeps).1
        rw [List.singleton_inj.mp hr] at htype
        exact absurd htype (show (3 : ℕ) ≠ 6 by decide)

theorem FcgiOutput.Start.passInv (h : s.Start) : PassInv s.mb.offset.toNat s [] := by
  have hinv := h.inv
  exact ⟨hinv.layout, Or.inl h.2.1⟩

end call

/-- In a run that reopens no request and stays below `2 ^ 31` bytes, the next call changes no
record that was there, except that a STDOUT record of its request gets the data; if the next
call reopens a request and returns, then this does not hold. -/
theorem safe_run_keepsRecords {s s' s'' : FcgiOutput} {fuel : ℕ} {c : EncodeCall}
    (hstart : s.Start) (hrun : ReflTransGen FcgiOutput.SafePass s s') (hsmall : s'.Small c)
    (hstep : s'.passOn fuel c = some s'') :
    (¬s'.Reopens c → CallKeeps s.mb.offset s' c s'') ∧
      (s'.Reopens c → s''.calls ≠ s'.calls → ¬CallKeeps s.mb.offset s' c s'') := by
  obtain ⟨rs, hinv⟩ : ∃ rs, PassInv s.mb.offset.toNat s' rs := by
    refine inv_of_reach (I := fun s' => ∃ rs, PassInv s.mb.offset.toNat s' rs) ?_ ⟨[], hstart.passInv⟩ hrun
    rintro s₁ s₂ ⟨fuel, c, hsmall, hsafe, hstep⟩ ⟨rs, hinv⟩
    obtain ⟨rs', hinv', -⟩ := hinv.keeps hsmall hsafe hstep
    exact ⟨rs', hinv'⟩
  have hoff : ((s.mb.offset.toNat : ℕ) : ℤ) = s.mb.offset := Int.toNat_of_nonneg hstart.1.offset.1
  rw [← hoff]
  constructor
  · intro hsafe
    obtain ⟨rs', hinv', hkeeps⟩ := hinv.keeps hsmall hsafe hstep
    exact ⟨rs, rs', hinv.layout.records, hinv'.layout.records, hkeeps⟩
  · rintro hopen hreturns ⟨rs₁, rs₂, h₁, h₂, hkeeps⟩
    obtain ⟨rs', hlayout, hnot⟩ := hinv.reopened hsmall hopen hstep hreturns
    rw [h₁.unique hinv.layout.records, h₂.unique hlayout.records] at hkeeps
    exact hnot hkeeps

theorem safe_run_keepsRecords_twoCalls :
    ∃ s s', ReflTransGen FcgiOutput.SafePass (newOutput 128) s ∧
      s.passOn 1 ⟨1, true, [66], none⟩ = some s' ∧
      s'.calls = [.data 1 [65], .data 1 [66]] ∧ CallKeeps 0 s ⟨1, true, [66], none⟩ s' := by
  have hstart : (newOutput 128).Start := ⟨⟨rfl, by decide, by decide⟩, rfl, rfl⟩
  have hobs : (((newOutput 128).passOn 1 ⟨1, true, [65], none⟩).bind fun s =>
      if s.calls = [.data 1 [65]] ∧ s.mb.offset + s.growth ⟨1, true, [66], none⟩ < 2 ^ 31 then
        (s.passOn 1 ⟨1, true, [66], none⟩).map FcgiOutput.calls
      else none) = some [.data 1 [65], .data 1 [66]] := by
    decide +kernel
  obtain ⟨s, hstep, hrest⟩ := Option.bind_eq_some_iff.mp hobs
  obtain ⟨⟨hfirst, hsmall⟩, hmap⟩ := Option.ite_none_right_eq_some.mp hrest
  obtain ⟨s', hstep', hcalls⟩ := Option.map_eq_some_iff.mp hmap
  have hrun : ReflTransGen FcgiOutput.SafePass (newOutput 128) s :=
    ReflTransGen.single ⟨1, ⟨1, true, [65], none⟩, fun _ => by decide, fun h => h.2.1 rfl, hstep⟩
  have hsafe : ¬s.Reopens ⟨1, true, [66], none⟩ := by
    rintro ⟨-, -, ⟨id, hlast, -⟩, -⟩
    rw [hfirst] at hlast
    exact absurd hlast (by simp)
  exact ⟨s, s', hrun, hstep', hcalls,
    (safe_run_keepsRecords hstart hrun (fun _ => hsmall) hstep').1 hsafe⟩

/-- The end of request 1, and data for request 1 with the offset 12 that was returned: the
data go into the END_REQUEST record. -/
theorem endRequest_gets_data :
    ∃ s s', (newOutput 128).passOn 1 ⟨1, true, [], none⟩ = some s ∧
      s.passOn 1 ⟨1, true, [65], none⟩ = some s' ∧ s.prev = 12 ∧
      Records 0 s.mb [stdoutEnd 1, endRequest 1] ∧
      Records 0 s'.mb [stdoutEnd 1, (endRequest 1).extend [65]] ∧
      ¬CallKeeps 0 s ⟨1, true, [65], none⟩ s' := by
  have hobs : (((newOutput 128).passOn 1 ⟨1, true, [], none⟩).bind fun s =>
      if s.prev = 12 ∧ appended s.mb 0 = wireAll [stdoutEnd 1, endRequest 1] then
        (s.passOn 1 ⟨1, true, [65], none⟩).map fun s' => appended s'.mb 0
      else none) = some (wireAll [stdoutEnd 1, (endRequest 1).extend [65]]) := by
    decide +kernel
  obtain ⟨s, hstep, hrest⟩ := Option.bind_eq_some_iff.mp hobs
  obtain ⟨⟨hprev, hbytes⟩, hmap⟩ := Option.ite_none_right_eq_some.mp hrest
  obtain ⟨s', hstep', hbytes'⟩ := Option.map_eq_some_iff.mp hmap
  have hvalid := valid_of_end (show 1 < 65536 by decide)
  have hextend := valid_of_extend hvalid.2 (show 8 + [(65 : UInt8)].length ≤ 65535 by decide)
  have hrecords : Records 0 s.mb [stdoutEnd 1, endRequest 1] := ⟨by simp [hvalid], hbytes⟩
  have hrecords' : Records 0 s'.mb [stdoutEnd 1, (endRequest 1).extend [65]] :=
    ⟨by simp [hvalid, hextend], hbytes'⟩
  refine ⟨s, s', hstep, hstep', hprev, hrecords, hrecords', ?_⟩
  rintro ⟨rs, rs', h, h', hkeeps⟩
  rw [h.unique hrecords, h'.unique hrecords'] at hkeeps
  have htype : (endRequest 1).type = 6 :=
    ((keepsRecords_extend_iff [stdoutEnd 1] (endRequest 1) (by simp)).mp hkeeps).1
  exact absurd htype (by decide)

end LuaSys.Isa
