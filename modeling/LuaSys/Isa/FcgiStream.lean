import LuaSys.Isa.FcgiDecode

/-!
# Decoding a stream that arrives in parts

The bytes of a connection are appended to a buffer as they come, and `fcgi_decode` is
called after each append; it takes the complete records off the buffer.  The records
are the same however the stream is cut.  What a record does to the fields of a request
other than `next_ready` does not depend on the chain either, so the requests have the
same contents in the end.

The chain starts again with every call, so the calls together report more requests
than one call on the whole stream, if a chain of this call is cut.

## Main definitions

* `decodeChunks` — the calls on a stream that arrives in parts.
* `SameContents` — the same requests with the same fields, but for the chain.
* `ArrivalFree` — contents, requests reported and tail are those of one call.
* `StdinText` — the `stdin` fields can be appended to.

## Main results

* `decodeChunks_spec` — the calls and one call go through the same records.
* `arrivalFree_iff` — the arrival does not matter if and only if one call on the whole
  stream shows every request that completes.
-/

namespace LuaSys.Isa

open LuaSys.Lib

/-! ## Calls on a stream that arrives in parts -/

/-- Append each part to the buffer and call `fcgi_decode`: the channel and the buffer in
the end, and the state after each call. -/
def decodeChunks (chan : Channel) (buf : List UInt8) :
    List (List UInt8) → Option (Channel × List UInt8 × List FcgiDecoder)
  | [] => some (chan, buf, [])
  | chunk :: chunks =>
      match fcgiDecode chan (buf ++ chunk) with
      | none => none
      | some (d, rest) =>
          (decodeChunks d.chan rest chunks).map fun (chan, buf, calls) => (chan, buf, d :: calls)

/-- The request is met on the chain from the id that the call returns. -/
def FcgiDecoder.Reports (d : FcgiDecoder) (id : ℕ) : Prop := d.links.Reaches .integer id

/-- The fields other than `next_ready` are the same. -/
def SameFields (req req' : Request) : Prop := ∀ k, k ≠ text "next_ready" → req k = req' k

/-- The same requests, with the same fields. -/
def SameContents (chan chan' : Channel) : Prop :=
  ∀ id, Option.Rel SameFields (chan id) (chan' id)

/-- The bytes are fewer than a header, or than the record they start. -/
def Incomplete (bs : List UInt8) : Prop :=
  bs.length < 8 ∨ ∃ h, FcgiHeader.read bs = some h ∧ bs.length < h.len

/-- However the stream is cut, the calls leave the contents and the tail of one call on
the whole stream, and report the same requests. -/
def ArrivalFree (chan : Channel) (stream : List UInt8) : Prop :=
  ∀ chunks : List (List UInt8), chunks.flatten = stream →
    ∃ d rest chan' calls, fcgiDecode chan stream = some (d, rest) ∧
      decodeChunks chan [] chunks = some (chan', rest, calls) ∧
      SameContents chan' d.chan ∧ (∀ id, (∃ c ∈ calls, c.Reports id) ↔ d.Reports id) ∧
      Incomplete rest

/-- Values that more bytes can be appended to. -/
def LuaValue.IsText : LuaValue → Prop
  | .nil | .string _ | .integer _ => True
  | _ => False

/-- No `stdin` field of the channel makes a concatenation fail.  This is so for the
requests that the decoder has made. -/
def StdinText (chan : Channel) : Prop := ∀ id req, chan id = some req → (req (text "stdin")).IsText

/-! ## The contents do not depend on the chain -/

section contents
variable {req req' : Request} {r : FcgiRecord}

theorem SameFields.refl (req : Request) : SameFields req req := fun _ _ => rfl

theorem SameFields.update (h : SameFields req req') (k : List UInt8) (v : LuaValue) :
    SameFields (Function.update req k v) (Function.update req' k v) := by
  intro k' hk'
  by_cases hk : k' = k
  · subst hk
    simp
  · rw [Function.update_of_ne hk, Function.update_of_ne hk, h k' hk']

theorem SameFields.setParams (h : SameFields req req') (pairs : List (List UInt8 × List UInt8)) :
    SameFields (setParams req pairs) (setParams req' pairs) := by
  induction pairs generalizing req req' with
  | nil => exact h
  | cons pair pairs ih => exact ih (h.update _ _)

theorem SameFields.setError (h : SameFields req req') (err : Option FcgiError) :
    SameFields (FcgiDecoder.setError req err) (FcgiDecoder.setError req' err) := by
  cases err with
  | none => exact h
  | some err => exact h.update _ _

theorem SameFields.beginRequest (h : SameFields req req') (content : List UInt8) :
    SameFields (decodeBeginRequest req content).1 (decodeBeginRequest req' content).1 := by
  unfold decodeBeginRequest
  split
  · split
    · exact h
    · exact h.update _ _
  · exact h

theorem SameFields.stdin {q : Request} (h : SameFields req req') {content : List UInt8}
    (hrun : decodeStdin req content = some q) :
    ∃ q', decodeStdin req' content = some q' ∧ SameFields q q' := by
  have hstdin : req' (text "stdin") = req (text "stdin") := (h _ (by decide)).symm
  unfold decodeStdin at hrun ⊢
  rw [hstdin]
  split at hrun
  case h_4 => exact absurd hrun (by simp)
  all_goals
    obtain rfl := Option.some.inj hrun
    exact ⟨_, rfl, h.update _ _⟩

theorem SameFields.content {q : Request} {err : Option FcgiError} {isReady : Bool}
    (h : SameFields req req') (hrun : decodeContent req r = some (q, err, isReady)) :
    ∃ q', decodeContent req' r = some (q', err, isReady) ∧ SameFields q q' := by
  rcases decodeContent_cases r with ⟨-, e, b, hr⟩ | ⟨-, hr⟩ | ⟨-, hr⟩ | ⟨-, hr⟩
  · rw [hr] at hrun
    obtain ⟨rfl, rfl, rfl⟩ := by simpa using hrun
    exact ⟨req', hr req', h⟩
  · rw [hr] at hrun
    obtain ⟨rfl, rfl, rfl⟩ := by simpa using hrun
    rw [hr, decodeBeginRequest_error req' req]
    exact ⟨_, rfl, h.beginRequest r.2⟩
  · rw [hr] at hrun
    obtain ⟨rfl, rfl, rfl⟩ := by simpa using hrun
    exact ⟨_, hr req', h.setParams _⟩
  · rw [hr] at hrun
    obtain ⟨q₁, hq, heq⟩ := Option.map_eq_some_iff.mp hrun
    obtain ⟨rfl, rfl, rfl⟩ := by simpa using heq
    obtain ⟨q', hq', hsame⟩ := h.stdin hq
    rw [hr, hq']
    exact ⟨q', rfl, hsame⟩

theorem SameContents.refl (chan : Channel) : SameContents chan chan := by
  intro id
  cases chan id with
  | none => exact Option.Rel.none
  | some req => exact Option.Rel.some (SameFields.refl req)

theorem SameContents.getD {chan chan' : Channel} (h : SameContents chan chan') (id : ℕ)
    (req : Request) : SameFields ((chan id).getD req) ((chan' id).getD req) := by
  have hrel := h id
  generalize chan id = o, chan' id = o' at hrel ⊢
  cases hrel with
  | none => exact SameFields.refl req
  | some h => exact h

theorem SameContents.update {chan chan' : Channel} (h : SameContents chan chan')
    (hreq : SameFields req req') (id : ℕ) :
    SameContents (Function.update chan id (some req)) (Function.update chan' id (some req')) := by
  intro x
  by_cases hx : x = id
  · subst hx
    simpa using Option.Rel.some hreq
  · rw [Function.update_of_ne hx, Function.update_of_ne hx]
    exact h x

theorem SameContents.decodeRecord {d d' e : FcgiDecoder} (h : SameContents d.chan e.chan)
    (hrun : d.decodeRecord r = some d') :
    ∃ e', e.decodeRecord r = some e' ∧ SameContents d'.chan e'.chan := by
  obtain ⟨⟨q, err, isReady⟩, hcontent, rfl⟩ := Option.map_eq_some_iff.mp hrun
  obtain ⟨q', hcontent', hsame⟩ := (h.getD r.1.requestId (newRequest r.1.requestId)).content hcontent
  refine ⟨_, Option.map_eq_some_iff.mpr ⟨_, hcontent', rfl⟩, ?_⟩
  dsimp only
  split
  · refine h.update (fun k hk => ?_) _
    rw [Function.update_of_ne hk, Function.update_of_ne hk]
    exact hsame.setError err k hk
  · exact h.update hsame _

/-- Records leave the same contents, whatever the chain is. -/
theorem SameContents.foldlM {rs : List FcgiRecord} {d d' e : FcgiDecoder}
    (h : SameContents d.chan e.chan) (hrun : rs.foldlM FcgiDecoder.decodeRecord d = some d') :
    ∃ e', rs.foldlM FcgiDecoder.decodeRecord e = some e' ∧ SameContents d'.chan e'.chan := by
  induction rs generalizing d e with
  | nil => exact ⟨e, rfl, Option.some.inj hrun ▸ h⟩
  | cons r rs ih =>
      rw [List.foldlM_cons] at hrun
      obtain ⟨d₁, hr, hrs⟩ := Option.bind_eq_some_iff.mp hrun
      obtain ⟨e₁, hr', h₁⟩ := h.decodeRecord hr
      obtain ⟨e', hrs', h'⟩ := ih h₁ hrs
      refine ⟨e', ?_, h'⟩
      rw [List.foldlM_cons, hr']
      exact hrs'

end contents

/-! ## The calls return -/

section total
variable {req : Request}

theorem isText_setParams (h : (req (text "stdin")).IsText)
    (pairs : List (List UInt8 × List UInt8)) : (setParams req pairs (text "stdin")).IsText := by
  induction pairs generalizing req with
  | nil => exact h
  | cons pair pairs ih =>
      refine ih ?_
      dsimp only
      by_cases hk : text "stdin" = pair.1
      · rw [hk, Function.update_self]
        trivial
      · rw [Function.update_of_ne hk]
        exact h

theorem isText_beginRequest (h : (req (text "stdin")).IsText) (content : List UInt8) :
    ((decodeBeginRequest req content).1 (text "stdin")).IsText := by
  unfold decodeBeginRequest
  split
  · split
    · exact h
    · dsimp only
      rw [Function.update_of_ne (show text "stdin" ≠ text "keep_conn" by decide)]
      exact h
  · exact h

theorem decodeStdin_of_isText (h : (req (text "stdin")).IsText) (content : List UInt8) :
    ∃ q, decodeStdin req content = some q ∧ (q (text "stdin")).IsText := by
  unfold decodeStdin
  split
  case h_4 hn hs hi =>
    cases hv : req (text "stdin") <;> simp_all [LuaValue.IsText]
  all_goals
    refine ⟨_, rfl, ?_⟩
    rw [Function.update_self]
    trivial

theorem decodeContent_of_isText (h : (req (text "stdin")).IsText) (r : FcgiRecord) :
    ∃ q err isReady, decodeContent req r = some (q, err, isReady) ∧ (q (text "stdin")).IsText := by
  rcases decodeContent_cases r with ⟨-, e, b, hr⟩ | ⟨-, hr⟩ | ⟨-, hr⟩ | ⟨-, hr⟩
  · exact ⟨req, e, b, hr req, h⟩
  · exact ⟨_, _, _, hr req, isText_beginRequest h r.2⟩
  · exact ⟨_, _, _, hr req, isText_setParams h _⟩
  · obtain ⟨q, hq, htext⟩ := decodeStdin_of_isText h r.2
    rw [hr, hq]
    exact ⟨q, none, false, rfl, htext⟩

theorem StdinText.decodeRecord {d : FcgiDecoder} (h : StdinText d.chan) (r : FcgiRecord) :
    ∃ d', d.decodeRecord r = some d' ∧ StdinText d'.chan := by
  have hold : ((d.chan r.1.requestId).getD (newRequest r.1.requestId) (text "stdin")).IsText := by
    cases hreq : d.chan r.1.requestId with
    | some req => exact h _ req hreq
    | none =>
        rw [Option.getD_none, newRequest,
          Function.update_of_ne (show text "stdin" ≠ text "channel" by decide),
          Function.update_of_ne (show text "stdin" ≠ text "id" by decide)]
        trivial
  obtain ⟨q, err, isReady, hq, htext⟩ := decodeContent_of_isText hold r
  have hset : ∀ q', q' (text "stdin") = q (text "stdin") →
      StdinText (Function.update d.chan r.1.requestId (some q')) := by
    intro q' hq' id req hreq
    by_cases hid : id = r.1.requestId
    · subst hid
      rw [Function.update_self] at hreq
      rw [← Option.some.inj hreq, hq']
      exact htext
    · rw [Function.update_of_ne hid] at hreq
      exact h id req hreq
  refine ⟨_, Option.map_eq_some_iff.mpr ⟨_, hq, rfl⟩, ?_⟩
  dsimp only
  split
  · refine hset _ ?_
    rw [Function.update_of_ne (show text "stdin" ≠ text "next_ready" by decide)]
    cases err with
    | none => rfl
    | some err => exact Function.update_of_ne (show text "stdin" ≠ text "error" by decide) _ _
  · exact hset q rfl

/-- Records never make a call fail, if no `stdin` field does. -/
theorem StdinText.foldlM {d : FcgiDecoder} (h : StdinText d.chan) (rs : List FcgiRecord) :
    ∃ d', rs.foldlM FcgiDecoder.decodeRecord d = some d' ∧ StdinText d'.chan := by
  induction rs generalizing d with
  | nil => exact ⟨d, rfl, h⟩
  | cons r rs ih =>
      obtain ⟨d₁, hr, h₁⟩ := h.decodeRecord r
      obtain ⟨d', hrs, h'⟩ := ih h₁
      refine ⟨d', ?_, h'⟩
      rw [List.foldlM_cons, hr]
      exact hrs

end total

/-! ## The calls and one call go through the same records -/

theorem readyEvents_append (a b : List UInt8) :
    readyEvents (a ++ b) = readyEvents a ++ readyEvents (fcgiFraming.tail a ++ b) := by
  rw [readyEvents, Framing.records_append, List.flatMap_append]
  rfl

theorem fcgiDecode_eq_some {chan : Channel} {bs : List UInt8} {d : FcgiDecoder}
    (h : (fcgiFraming.records bs).foldlM FcgiDecoder.decodeRecord ⟨chan, none⟩ = some d) :
    fcgiDecode chan bs = some (d, fcgiFraming.tail bs) := by
  rw [fcgiDecode_eq, h]
  rfl

/-- The events of the calls are the events of the stream, cut into parts. -/
def EventsOf (calls : List FcgiDecoder) (ess : List (List (StackEvent ℕ LuaValue))) : Prop :=
  List.Forall₂ (fun c es => ∃ next, c.links = LinkStack.run .integer ⟨.nil, next⟩ es) calls ess

theorem decodeChunks_spec {chan : Channel} (hchan : StdinText chan) {buf : List UInt8}
    (hbuf : fcgiFraming.next buf = none) {e : FcgiDecoder} (hsame : SameContents chan e.chan)
    (chunks : List (List UInt8)) :
    ∃ chan' calls ess e',
      decodeChunks chan buf chunks =
        some (chan', fcgiFraming.tail (buf ++ chunks.flatten), calls) ∧
      (fcgiFraming.records (buf ++ chunks.flatten)).foldlM FcgiDecoder.decodeRecord e = some e' ∧
      SameContents chan' e'.chan ∧ EventsOf calls ess ∧
      ess.flatten = readyEvents (buf ++ chunks.flatten) := by
  induction chunks generalizing chan buf e with
  | nil =>
      rw [List.flatten_nil, List.append_nil, readyEvents, Framing.records_of_none hbuf,
        Framing.tail_of_none hbuf]
      exact ⟨chan, [], [], e, rfl, rfl, hsame, List.Forall₂.nil, rfl⟩
  | cons chunk chunks ih =>
      obtain ⟨d, hrun, htext⟩ := StdinText.foldlM (d := ⟨chan, none⟩) hchan
        (fcgiFraming.records (buf ++ chunk))
      have hcall := fcgiDecode_eq_some hrun
      obtain ⟨e₁, hrun₁, hsame₁⟩ := SameContents.foldlM (d := ⟨chan, none⟩) hsame hrun
      obtain ⟨chan', calls, ess, e', hcalls, hrun', hsame', hevents, hflat⟩ :=
        ih htext (fcgiFraming.next_tail (buf ++ chunk)) hsame₁
      refine ⟨chan', d :: calls, readyEvents (buf ++ chunk) :: ess, e', ?_, ?_, hsame', ?_, ?_⟩
      · rw [decodeChunks, hcall, List.flatten_cons, ← List.append_assoc,
          Framing.tail_append _ (buf ++ chunk)]
        dsimp only
        rw [hcalls]
        rfl
      · rw [List.flatten_cons, ← List.append_assoc, Framing.records_append, List.foldlM_append,
          hrun₁]
        exact hrun'
      · exact List.Forall₂.cons ⟨_, (fcgiDecode_links hcall).1⟩ hevents
      · rw [List.flatten_cons, List.flatten_cons, ← List.append_assoc,
          readyEvents_append (buf ++ chunk), hflat]

/-- What is left over is no complete record. -/
theorem incomplete_tail (bs : List UInt8) : Incomplete (fcgiFraming.tail bs) := by
  have hnone : nextRecord (fcgiFraming.tail bs) = none := fcgiFraming.next_tail bs
  unfold nextRecord at hnone
  cases hread : FcgiHeader.read (fcgiFraming.tail bs) with
  | none => exact Or.inl (FcgiHeader.length_lt_of_read hread)
  | some h =>
      right
      rw [hread] at hnone
      by_cases hlen : h.len > (fcgiFraming.tail bs).length
      · exact ⟨h, hread, hlen⟩
      · exact absurd hnone (by simp [hlen])

/-! ## The requests reported -/

/-- A call reports the requests that its events show. -/
theorem reports_iff {d : FcgiDecoder} {es : List (StackEvent ℕ LuaValue)} {bs : List UInt8}
    (hes : ∀ ev ∈ es, ev ∈ readyEvents bs) {next : ℕ → LuaValue}
    (h : d.links = LinkStack.run .integer ⟨.nil, next⟩ es) (id : ℕ) : d.Reports id ↔ Shown id es := by
  unfold FcgiDecoder.Reports
  rw [h]
  exact reaches_iff_shown integer_injective integer_ne_nil
    (fun x v hv => foreign_of_mem x v (hes _ hv)) rfl id

theorem EventsOf.reports_iff {calls : List FcgiDecoder} {ess : List (List (StackEvent ℕ LuaValue))}
    {bs : List UInt8} (h : EventsOf calls ess) (hess : ∀ es ∈ ess, ∀ ev ∈ es, ev ∈ readyEvents bs)
    (id : ℕ) : (∃ c ∈ calls, c.Reports id) ↔ ∃ es ∈ ess, Shown id es := by
  induction h with
  | nil => simp
  | cons hcall _ ih =>
      obtain ⟨next, hlinks⟩ := hcall
      have hhead := Isa.reports_iff (hess _ List.mem_cons_self) hlinks id
      have htail := ih fun es hes => hess es (List.mem_cons_of_mem _ hes)
      simp only [List.mem_cons, exists_eq_or_imp, hhead, htail]

/-- A record alone is complete. -/
theorem nextRecord_take {bs rest : List UInt8} {r : FcgiRecord}
    (h : nextRecord bs = some (r, rest)) : nextRecord (bs.take r.1.len) = some (r, []) := by
  obtain ⟨hread, hlen, hcontent, -⟩ := nextRecord_eq_some.mp h
  have heq : r.1.len = 8 + r.1.contentLen + r.1.paddingLen := rfl
  refine nextRecord_eq_some.mpr ⟨?_, ?_, ?_, ?_⟩
  · obtain ⟨n, hn⟩ : ∃ n, r.1.len = n + 8 := ⟨r.1.len - 8, by omega⟩
    rw [hn]
    match bs with
    | _ :: _ :: _ :: _ :: _ :: _ :: _ :: _ :: _ => exact hread
  · rw [List.length_take]
    omega
  · rw [hcontent, List.drop_take, List.take_take, Nat.min_eq_left (by omega)]
  · rw [List.drop_take, Nat.sub_self, List.take_zero]

/-- The request that a record completes is reported by a call on this record alone. -/
theorem reports_of_ready {chan : Channel} {bs rest : List UInt8} {r : FcgiRecord} {d : FcgiDecoder}
    (hrecords : fcgiFraming.records bs = [r]) (hready : recordReady r = true)
    (h : fcgiDecode chan bs = some (d, rest)) : d.Reports r.1.requestId := by
  have hevents : readyEvents bs = recordEvents r := by
    rw [readyEvents, hrecords, List.flatMap_singleton]
  refine (reports_iff (fun _ => id) (fcgiDecode_links h).1 _).mpr ?_
  rw [hevents, recordEvents, hready]
  exact ⟨_, [], rfl, List.not_mem_nil, trivial⟩

theorem completed_of_some {bs rest : List UInt8} {r : FcgiRecord}
    (h : fcgiFraming.next bs = some (r, rest)) :
    completed bs = (if recordReady r then [r.1.requestId] else []) ++ completed rest := by
  rw [completed, completed, Framing.records_of_some h, List.filter_cons]
  cases recordReady r <;> rfl

/-- Cut between the records, the calls report every request that completes. -/
theorem exists_chunks_report (bs : List UInt8) : ∀ {chan : Channel}, StdinText chan →
    ∃ chunks : List (List UInt8), chunks.flatten = bs ∧
      ∀ chan' rest calls, decodeChunks chan [] chunks = some (chan', rest, calls) →
        ∀ id ∈ completed bs, ∃ c ∈ calls, c.Reports id := by
  induction bs using fcgiFraming.record_induction with
  | stop bs hnone =>
      intro chan _
      refine ⟨[bs], by simp, fun chan' rest calls _ id hid => ?_⟩
      rw [completed, Framing.records_of_none hnone] at hid
      exact absurd hid List.not_mem_nil
  | step bs r rest hsome ih =>
      intro chan hchan
      have hone : fcgiFraming.next (bs.take r.1.len) = some (r, []) := nextRecord_take hsome
      have hnil : fcgiFraming.next [] = none := rfl
      have hrecords : fcgiFraming.records (bs.take r.1.len) = [r] := by
        rw [Framing.records_of_some hone, Framing.records_of_none hnil]
      obtain ⟨d, hrun, htext⟩ := StdinText.foldlM (d := ⟨chan, none⟩) hchan
        (fcgiFraming.records (bs.take r.1.len))
      have hcall := fcgiDecode_eq_some hrun
      rw [Framing.tail_of_some hone, Framing.tail_of_none hnil] at hcall
      obtain ⟨chunks, rfl, hreport⟩ := ih htext
      obtain ⟨-, -, -, hrest⟩ := nextRecord_eq_some.mp hsome
      refine ⟨bs.take r.1.len :: chunks, ?_, fun chan' rest' calls hcalls id hid => ?_⟩
      · rw [List.flatten_cons, hrest, List.take_append_drop]
      rw [decodeChunks, List.nil_append, hcall] at hcalls
      obtain ⟨⟨chan₁, rest₁, calls₁⟩, hcalls₁, heq⟩ := Option.map_eq_some_iff.mp hcalls
      obtain ⟨rfl, rfl, rfl⟩ := by simpa using heq
      rw [completed_of_some hsome, List.mem_append] at hid
      rcases hid with hid | hid
      · by_cases hready : recordReady r = true
        · rw [if_pos hready, List.mem_singleton] at hid
          exact ⟨d, List.mem_cons_self, hid ▸ reports_of_ready hrecords hready hcall⟩
        · rw [if_neg hready] at hid
          exact absurd hid List.not_mem_nil
      · obtain ⟨c, hc, hrep⟩ := hreport _ _ _ hcalls₁ id hid
        exact ⟨c, List.mem_cons_of_mem _ hc, hrep⟩

/-- The arrival does not matter if and only if every request that completes does so last
at a point after which no request completes twice, or gets a parameter `next_ready`
after it has completed. -/
theorem arrivalFree_iff {chan : Channel} (hchan : StdinText chan) (stream : List UInt8) :
    ArrivalFree chan stream ↔ ∀ id ∈ completed stream, Shown id (readyEvents stream) := by
  obtain ⟨d, hrun, -⟩ := StdinText.foldlM (d := ⟨chan, none⟩) hchan (fcgiFraming.records stream)
  have hcall := fcgiDecode_eq_some hrun
  have hone : ∀ id, d.Reports id ↔ Shown id (readyEvents stream) :=
    reports_iff (fun _ => id) (fcgiDecode_links hcall).1
  constructor
  · intro hfree id hid
    obtain ⟨chunks, hflat, hreport⟩ := exists_chunks_report stream hchan
    obtain ⟨d', rest, chan', calls, hcall', hcalls, -, hsame, -⟩ := hfree chunks hflat
    obtain ⟨rfl, rfl⟩ := Prod.mk.inj (Option.some.inj (hcall'.symm.trans hcall))
    exact (hone id).mp ((hsame id).mp (hreport _ _ _ hcalls id hid))
  · rintro hshown chunks rfl
    obtain ⟨chan', calls, ess, e, hcalls, hrun', hsame, hevents, hflat⟩ :=
      decodeChunks_spec (e := ⟨chan, none⟩) hchan (show fcgiFraming.next [] = none from rfl)
        (SameContents.refl chan) chunks
    rw [List.nil_append] at hcalls hrun' hflat
    obtain rfl := Option.some.inj (hrun'.symm.trans hrun)
    refine ⟨e, _, chan', calls, hcall, hcalls, hsame, fun id => ?_, incomplete_tail _⟩
    have hess : ∀ es ∈ ess, ∀ ev ∈ es, ev ∈ readyEvents chunks.flatten := by
      intro es hes ev hev
      rw [← hflat]
      exact List.mem_flatten.mpr ⟨es, hes, hev⟩
    rw [hevents.reports_iff hess, hone]
    constructor
    · rintro ⟨es, hes, hid⟩
      refine hshown id ?_
      rw [← pushed_readyEvents, mem_pushed]
      exact hess es hes _ (mem_pushed.mp hid.mem_pushed)
    · intro hid
      exact Shown.of_flatten (hflat ▸ hid)

theorem stdinText_empty : StdinText fun _ => none := by
  intro id req h
  exact absurd h (by simp)

theorem arrivalFree_iff_twoRequests :
    ArrivalFree (fun _ => none) (stdinEnd 1 ++ stdinEnd 2) := by
  have hclean : Clean (readyEvents (stdinEnd 1 ++ stdinEnd 2)) := by decide +kernel
  refine (arrivalFree_iff stdinText_empty _).mpr fun id hid => ?_
  rw [hclean.shown_iff, pushed_readyEvents]
  exact hid

/-- Request 2 completes twice in one call: the chain comes back to it, and the call does
not report request 1.  Calls on the three records report both. -/
theorem merged_call_loses_request :
    ¬ArrivalFree (fun _ => none) (stdinEnd 1 ++ stdinEnd 2 ++ stdinEnd 2) := by
  intro hfree
  obtain ⟨d, rest, chan', calls, hone, hcalls, -, hsame, -⟩ :=
    hfree [stdinEnd 1, stdinEnd 2, stdinEnd 2] rfl
  have hobs : (fcgiDecode (fun _ => none) (stdinEnd 1 ++ stdinEnd 2 ++ stdinEnd 2)).map
      (fun p => (p.1.ready, nextReady p.1.chan 2)) = some (some 2, .integer 2) := by
    decide +kernel
  have hobs' : (decodeChunks (fun _ => none) [] [stdinEnd 1, stdinEnd 2, stdinEnd 2]).map
      (fun p => p.2.2.map FcgiDecoder.ready) = some [some 1, some 2, some 2] := by
    decide +kernel
  rw [hone, Option.map_some, Option.some.injEq, Prod.mk.injEq] at hobs
  rw [hcalls, Option.map_some, Option.some.injEq] at hobs'
  obtain ⟨c, hc, hready⟩ : ∃ c ∈ calls, c.ready = some 1 := by
    have hmem : some 1 ∈ calls.map FcgiDecoder.ready := by
      rw [hobs']
      exact List.mem_cons_self
    exact List.mem_map.mp hmem
  have hreport : c.Reports 1 := ⟨[], congrArg readyValue hready⟩
  obtain ⟨l, hpath⟩ := (hsame 1).mp ⟨c, hc, hreport⟩
  have hcycle : Path .integer d.links.next d.links.head [2] (.integer 2) :=
    ⟨congrArg readyValue hobs.1, hobs.2⟩
  have hmem : 1 ∈ [2] := hcycle.mem_of_reach integer_injective
    (fun b hb => List.mem_singleton.mpr (LuaValue.integer.inj hb).symm) hpath
  exact absurd hmem (by decide)

end LuaSys.Isa
