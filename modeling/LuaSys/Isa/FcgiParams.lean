import LuaSys.Isa.FcgiDecode
import Mathlib.Data.List.Forall2

/-!
# Parameters and the fields of the protocol

The names of the parameters come from the other side, and `fcgi_decode_params` stores them
with `lua_rawset` in the table where the decoder keeps its own fields.  A parameter that
is named like one of these fields overwrites it: the application then sees another `id`,
the ready chain is cut at a `next_ready`, and later content is appended to a `stdin` that
never arrived.

Two streams are compared whose records differ in the parameters only.  Both calls are
followed record by record, with the same fields of the protocol and the same ready request
on both sides.  A record that stores nothing under the name of a field leaves the value that it
finds there, so that two records may leave the same although only one of them has the name.  A
difference need not last: the decoder itself may set the field later on.  So the streams are
compared with all of their beginnings, which differ in parameters only as well.

## Main definitions

* `protocolFields` — the fields that the decoder keeps in a request.
* `lastParam` — what a record stores under a name.
* `DifferInParams` — streams with the same records but for the parameters.
* `SameStores` — corresponding records leave the same under the names of the fields.
* `NamesIn` — the records that differ take the names of their parameters from a set.
* `SameOutcome` — the calls return the same id and leave the same fields.

## Main results

* `sameOutcome_iff` — two streams and their beginnings have the same outcome if and only if
  corresponding records leave the same.
* `sameOutcome_of_sameStores` — so streams whose records leave the same have the same outcome.
* `namesIn_iff` — the sets of names with which parameters never reach the protocol are
  those without the names of the fields.
* `param_overwrites_id` — a parameter named `id`.
-/

namespace LuaSys.Isa

open LuaSys.Lib

/-- The fields that the decoder keeps in a request itself. -/
def protocolFields : List (List UInt8) :=
  [text "id", text "channel", text "keep_conn", text "stdin", text "error", text "next_ready"]

/-- The content is a list of complete name and value pairs. -/
def WellFormedParams (content : List UInt8) : Prop := (decodePairs content.length content).2 = none

instance (content : List UInt8) : Decidable (WellFormedParams content) :=
  inferInstanceAs (Decidable (_ = _))

/-- The last value that the pairs of a content give to a name. -/
def lastParam (content name : List UInt8) : Option (List UInt8) :=
  (((decodePairs content.length content).1.filter fun pair => pair.1 = name).map Prod.snd).getLast?

/-- The headers are the same, and so are the contents, unless they are well-formed
parameters. -/
def SameRecord (r r' : FcgiRecord) : Prop :=
  r.1 = r'.1 ∧ (r.2 = r'.2 ∨ r.1.type = 4 ∧ WellFormedParams r.2 ∧ WellFormedParams r'.2)

instance (r r' : FcgiRecord) : Decidable (SameRecord r r') := inferInstanceAs (Decidable (_ ∧ _))

/-- The streams differ in the names and the values of parameters only. -/
def DifferInParams (bs bs' : List UInt8) : Prop :=
  List.Forall₂ SameRecord (fcgiFraming.records bs) (fcgiFraming.records bs') ∧
    fcgiFraming.tail bs = fcgiFraming.tail bs'

/-- What a content leaves under a name in the request that it finds. -/
def stored (req : Request) (content name : List UInt8) : LuaValue :=
  ((lastParam content name).map LuaValue.string).getD (req name)

/-- The record is given to `fcgi_decode_params`. -/
def IsParams (h : FcgiHeader) : Prop := h.version = 1 ∧ h.type = 4 ∧ h.contentLen ≠ 0

instance (h : FcgiHeader) : Decidable (IsParams h) := inferInstanceAs (Decidable (_ ∧ _ ∧ _))

/-- In this request the same is left under the name of each field. -/
def SameStore (req : Request) (r r' : FcgiRecord) : Prop :=
  IsParams r.1 → ∀ k ∈ protocolFields, stored req r.2 k = stored req r'.2 k

instance (req : Request) (r r' : FcgiRecord) : Decidable (SameStore req r r') :=
  inferInstanceAs (Decidable (_ → _))

/-- Corresponding records leave the same, each in the request that it finds. -/
def SameStores : FcgiDecoder → List FcgiRecord → List FcgiRecord → Prop
  | d, r :: rs, r' :: rs' =>
      SameStore (d.request r.1.requestId) r r' ∧ ∀ d₁ ∈ d.decodeRecord r, SameStores d₁ rs rs'
  | _, _, _ => True

instance decidableSameStores :
    ∀ (rs rs' : List FcgiRecord) (d : FcgiDecoder), Decidable (SameStores d rs rs')
  | [], _, _ | _ :: _, [], _ => .isTrue (by simp [SameStores])
  | r :: rs, r' :: rs', d =>
      have : ∀ d₁, Decidable (SameStores d₁ rs rs') := decidableSameStores rs rs'
      inferInstanceAs (Decidable (SameStore _ r r' ∧ ∀ d₁ ∈ d.decodeRecord r, _))

/-- The names of the parameters in a content. -/
def paramNames (content : List UInt8) : List (List UInt8) :=
  (decodePairs content.length content).1.map Prod.fst

/-- Where the records differ, the names of their parameters are in the set. -/
def NamesIn (names : Set (List UInt8)) (bs bs' : List UInt8) : Prop :=
  List.Forall₂ (fun r r' => r.2 = r'.2 ∨ ∀ k ∈ paramNames r.2 ++ paramNames r'.2, k ∈ names)
    (fcgiFraming.records bs) (fcgiFraming.records bs')

/-- The fields of the protocol are the same in both requests. -/
def SameProtocol (req req' : Request) : Prop := ∀ k ∈ protocolFields, req k = req' k

/-- The channels have the same requests, with the same fields of the protocol, and the same
request is ready. -/
def SameView (d d' : FcgiDecoder) : Prop :=
  (∀ id, Option.Rel SameProtocol (d.chan id) (d'.chan id)) ∧ d.ready = d'.ready

/-- Both calls raise an error, or both return the same id and leave the same fields. -/
def SameOutcome (chan : Channel) (bs bs' : List UInt8) : Prop :=
  Option.Rel (fun p p' => SameView p.1 p'.1) (fcgiDecode chan bs) (fcgiDecode chan bs')

/-! ## One record -/

variable {req req' : Request}

theorem SameProtocol.refl (req : Request) : SameProtocol req req := fun _ _ => rfl

theorem SameProtocol.update (h : SameProtocol req req') (k : List UInt8) (v : LuaValue) :
    SameProtocol (Function.update req k v) (Function.update req' k v) := by
  intro k' hk'
  by_cases hk : k' = k
  · subst hk
    simp
  · rw [Function.update_of_ne hk, Function.update_of_ne hk]
    exact h k' hk'

theorem SameProtocol.setError (h : SameProtocol req req') (err : Option FcgiError) :
    SameProtocol (FcgiDecoder.setError req err) (FcgiDecoder.setError req' err) := by
  cases err with
  | none => exact h
  | some err => exact h.update _ _

/-- The last value counts. -/
theorem foldl_string (v : LuaValue) (vs : List (List UInt8)) :
    vs.foldl (fun _ s => .string s) v = (vs.getLast?.map LuaValue.string).getD v := by
  induction vs generalizing v with
  | nil => rfl
  | cons s vs ih =>
      rw [List.foldl_cons, ih]
      cases vs with
      | nil => rfl
      | cons s' vs => rw [List.getLast?_cons_cons, List.getLast?_cons, Option.map_some, Option.getD_some,
          Option.getD_some]

theorem decodeParams_apply (req : Request) (content k : List UInt8) :
    (decodeParams req content).1 k = stored req content k := by
  show setParams req _ k = _
  rw [setParams_apply, foldl_string]
  rfl

/-- A content leaves the same in both requests. -/
theorem SameProtocol.stored (h : SameProtocol req req') (content : List UInt8) {k : List UInt8}
    (hk : k ∈ protocolFields) : stored req content k = LuaSys.Isa.stored req' content k := by
  rw [LuaSys.Isa.stored, LuaSys.Isa.stored, h k hk]

/-- Contents that leave the same. -/
theorem SameProtocol.decodeParams (h : SameProtocol req req') {content content' : List UInt8}
    (hstore : ∀ k ∈ protocolFields, LuaSys.Isa.stored req content k = LuaSys.Isa.stored req content' k) :
    SameProtocol (decodeParams req content).1 (decodeParams req' content').1 := by
  intro k hk
  rw [decodeParams_apply, decodeParams_apply, hstore k hk, h.stored content' hk]

theorem SameProtocol.beginRequest (h : SameProtocol req req') (content : List UInt8) :
    SameProtocol (decodeBeginRequest req content).1 (decodeBeginRequest req' content).1 := by
  unfold decodeBeginRequest
  split
  · split
    · exact h
    · exact h.update _ _
  · exact h

theorem SameProtocol.stdin (h : SameProtocol req req') (content : List UInt8) :
    Option.Rel SameProtocol (decodeStdin req content) (decodeStdin req' content) := by
  have hstdin : req (text "stdin") = req' (text "stdin") := h _ (by decide)
  unfold decodeStdin
  rw [← hstdin]
  split
  · exact .some (h.update _ _)
  · exact .some (h.update _ _)
  · exact .some (h.update _ _)
  · exact .none

/-- The request, the error and the mark that a content leaves. -/
def SameContent (p p' : Request × Option FcgiError × Bool) : Prop :=
  SameProtocol p.1 p'.1 ∧ p.2 = p'.2

/-- The same content on both sides. -/
theorem SameProtocol.content (h : SameProtocol req req') (r : FcgiRecord) :
    Option.Rel SameContent (decodeContent req r) (decodeContent req' r) := by
  rcases decodeContent_cases r with ⟨-, e, b, hr⟩ | ⟨-, hr⟩ | ⟨-, hr⟩ | ⟨-, hr⟩
  · rw [hr, hr]
    exact .some ⟨h, rfl⟩
  · rw [hr, hr, decodeBeginRequest_error req req']
    exact .some ⟨h.beginRequest r.2, rfl⟩
  · rw [hr, hr]
    exact .some ⟨h.decodeParams fun _ _ => rfl, rfl⟩
  · rw [hr, hr]
    have hrel := h.stdin r.2
    generalize decodeStdin req r.2 = o, decodeStdin req' r.2 = o' at hrel ⊢
    cases hrel with
    | none => exact .none
    | some hq => exact .some ⟨hq, rfl⟩

/-- Well-formed parameters. -/
theorem decodeContent_wellFormed {r : FcgiRecord} (hparams : IsParams r.1)
    (hwf : WellFormedParams r.2) (req : Request) :
    decodeContent req r = some ((decodeParams req r.2).1, none, false) := by
  have herr : (decodeParams req r.2).2 = none := hwf
  rw [decodeContent_params hparams, herr]

/-- Both records have the same content, or both have well-formed parameters. -/
theorem SameRecord.cases {r r' : FcgiRecord} (h : SameRecord r r') :
    r = r' ∨ r.1 = r'.1 ∧ r.1.type = 4 ∧ WellFormedParams r.2 ∧ WellFormedParams r'.2 := by
  obtain ⟨hheader, hcontent | hwf⟩ := h
  · exact Or.inl (Prod.ext hheader hcontent)
  · exact Or.inr ⟨hheader, hwf⟩

theorem SameProtocol.record (h : SameProtocol req req') {r r' : FcgiRecord} (hr : SameRecord r r')
    (hstore : SameStore req r r') :
    Option.Rel SameContent (decodeContent req r) (decodeContent req' r') := by
  obtain rfl | ⟨hheader, htype, hwf, hwf'⟩ := hr.cases
  · exact h.content r
  · obtain ⟨hd, content⟩ := r
    obtain ⟨hd', content'⟩ := r'
    obtain rfl : hd = hd' := hheader
    have htype : hd.type = 4 := htype
    by_cases hparams : IsParams hd
    · rw [decodeContent_wellFormed hparams hwf, decodeContent_wellFormed hparams hwf']
      exact .some ⟨h.decodeParams (hstore hparams), rfl⟩
    · -- The content is not looked at.
      have hskip : ∀ req content, decodeContent req (hd, content) = decodeContent req (hd, []) := by
        intro req content
        by_cases hversion : hd.version = 1
        · have hlen : hd.contentLen = 0 := by
            by_contra hlen
            exact hparams ⟨hversion, htype, hlen⟩
          simp [decodeContent, hversion, htype, hlen]
        · simp [decodeContent, hversion]
      rw [hskip, hskip req' content']
      exact h.content _

/-- Parameters that leave the same protocol have stored the same. -/
theorem SameProtocol.sameStore (h : SameProtocol req req') {r r' : FcgiRecord}
    (hr : SameRecord r r')
    (h' : Option.Rel SameContent (decodeContent req r) (decodeContent req' r')) :
    SameStore req r r' := by
  intro hparams k hk
  obtain rfl | ⟨hheader, -, hwf, hwf'⟩ := hr.cases
  · rfl
  · have hparams' : IsParams r'.1 := hheader ▸ hparams
    rw [decodeContent_wellFormed hparams hwf, decodeContent_wellFormed hparams' hwf'] at h'
    obtain ⟨hsame, -⟩ := Option.rel_some_some.mp h'
    have hk' := hsame k hk
    rw [decodeParams_apply, decodeParams_apply] at hk'
    rw [hk', h.stored r'.2 hk]

theorem SameView.request {d d' : FcgiDecoder} (h : SameView d d') (id : ℕ) :
    SameProtocol (d.request id) (d'.request id) := by
  have hrel := h.1 id
  unfold FcgiDecoder.request
  generalize d.chan id = o, d'.chan id = o' at hrel ⊢
  cases hrel with
  | none => exact SameProtocol.refl _
  | some h => exact h

/-- The table of a request is set on both sides. -/
theorem SameView.update {d d' : FcgiDecoder} (h : SameView d d') (hreq : SameProtocol req req')
    (id : ℕ) {ready ready' : Option ℕ} (hready : ready = ready') :
    SameView ⟨Function.update d.chan id (some req), ready⟩
      ⟨Function.update d'.chan id (some req'), ready'⟩ := by
  refine ⟨fun x => ?_, hready⟩
  dsimp only
  by_cases hx : x = id
  · subst hx
    simpa using Option.Rel.some hreq
  · rw [Function.update_of_ne hx, Function.update_of_ne hx]
    exact h.1 x

/-- One record on both sides. -/
theorem SameView.decodeRecord {d d' : FcgiDecoder} (h : SameView d d') {r r' : FcgiRecord}
    (hr : SameRecord r r') (hstore : SameStore (d.request r.1.requestId) r r') :
    Option.Rel SameView (d.decodeRecord r) (d'.decodeRecord r') := by
  have hid : r.1.requestId = r'.1.requestId := by rw [hr.1]
  have hcontent := (h.request r.1.requestId).record hr hstore
  unfold FcgiDecoder.request at hcontent
  unfold FcgiDecoder.decodeRecord
  rw [← hid]
  dsimp only
  generalize decodeContent ((d.chan r.1.requestId).getD (newRequest r.1.requestId)) r = o,
    decodeContent ((d'.chan r.1.requestId).getD (newRequest r.1.requestId)) r' = o' at hcontent ⊢
  cases hcontent with
  | none => exact .none
  | @some p p' hp =>
      obtain ⟨q, err, isReady⟩ := p
      obtain ⟨q', err', isReady'⟩ := p'
      obtain ⟨hq, heq⟩ := hp
      obtain ⟨rfl, rfl⟩ := Prod.mk.inj heq
      simp only [Option.map_some]
      split
      · refine .some (h.update ?_ _ rfl)
        rw [h.2]
        exact (hq.setError err).update _ _
      · exact .some (h.update hq _ h.2)

/-- Records that leave the same protocol have stored the same. -/
theorem SameView.sameStore {d d' : FcgiDecoder} (h : SameView d d') {r r' : FcgiRecord}
    (hr : SameRecord r r') (h' : Option.Rel SameView (d.decodeRecord r) (d'.decodeRecord r')) :
    SameStore (d.request r.1.requestId) r r' := by
  obtain rfl | ⟨hheader, -, hwf, hwf'⟩ := hr.cases
  · exact fun _ _ _ => rfl
  · intro hparams
    have hparams' : IsParams r'.1 := hheader ▸ hparams
    have hid : r.1.requestId = r'.1.requestId := by rw [hheader]
    refine (h.request r.1.requestId).sameStore hr ?_ hparams
    rw [decodeContent_wellFormed hparams hwf, decodeContent_wellFormed hparams' hwf']
    unfold FcgiDecoder.decodeRecord at h'
    dsimp only at h'
    rw [decodeContent_wellFormed hparams hwf, decodeContent_wellFormed hparams' hwf', ← hid] at h'
    have hview := (Option.rel_some_some.mp h').1 r.1.requestId
    simp only [Bool.false_or, Option.isSome_none, Bool.false_eq_true, if_false,
      Function.update_self] at hview
    exact .some ⟨Option.rel_some_some.mp hview, rfl⟩

/-! ## The stream -/

/-- Both streams of records, and their beginnings. -/
theorem SameView.foldlM_iff {rs rs' : List FcgiRecord} (hrs : List.Forall₂ SameRecord rs rs')
    {d d' : FcgiDecoder} (h : SameView d d') :
    (∀ n, Option.Rel SameView ((rs.take n).foldlM FcgiDecoder.decodeRecord d)
      ((rs'.take n).foldlM FcgiDecoder.decodeRecord d')) ↔ SameStores d rs rs' := by
  induction hrs generalizing d d' with
  | nil =>
      refine iff_of_true (fun n => ?_) trivial
      rw [List.take_nil]
      exact .some h
  | @cons r r' rs rs' hr _ ih =>
      constructor
      · intro hall
        have hfirst : Option.Rel SameView (d.decodeRecord r) (d'.decodeRecord r') := by
          simpa using hall 1
        refine ⟨h.sameStore hr hfirst, fun d₁ hd₁ => ?_⟩
        rw [Option.mem_def.mp hd₁] at hfirst
        cases hd₁' : d'.decodeRecord r' with
        | none =>
            rw [hd₁'] at hfirst
            cases hfirst
        | some d₁' =>
            rw [hd₁'] at hfirst
            refine (ih (Option.rel_some_some.mp hfirst)).mp fun n => ?_
            have hnext := hall (n + 1)
            rw [List.take_succ_cons, List.take_succ_cons, List.foldlM_cons, List.foldlM_cons,
              Option.mem_def.mp hd₁, hd₁'] at hnext
            exact hnext
      · rintro ⟨hstore, hstores⟩ n
        cases n with
        | zero => exact .some h
        | succ n =>
            rw [List.take_succ_cons, List.take_succ_cons, List.foldlM_cons, List.foldlM_cons]
            have hrel := h.decodeRecord hr hstore
            cases hd₁ : d.decodeRecord r with
            | none =>
                rw [hd₁] at hrel
                cases hd₁' : d'.decodeRecord r' with
                | none => exact .none
                | some d₁' =>
                    rw [hd₁'] at hrel
                    cases hrel
            | some d₁ =>
                rw [hd₁] at hrel
                cases hd₁' : d'.decodeRecord r' with
                | none =>
                    rw [hd₁'] at hrel
                    cases hrel
                | some d₁' =>
                    rw [hd₁'] at hrel
                    exact (ih (Option.rel_some_some.mp hrel)).mpr (hstores d₁ hd₁) n

theorem SameView.start (chan : Channel) : SameView ⟨chan, none⟩ ⟨chan, none⟩ := by
  refine ⟨fun id => ?_, rfl⟩
  dsimp only
  cases chan id with
  | none => exact .none
  | some req => exact .some (SameProtocol.refl req)

/-- The outcome is that of the records. -/
theorem sameOutcome_iff_foldlM (chan : Channel) (bs bs' : List UInt8) :
    SameOutcome chan bs bs' ↔
      Option.Rel SameView ((fcgiFraming.records bs).foldlM FcgiDecoder.decodeRecord ⟨chan, none⟩)
        ((fcgiFraming.records bs').foldlM FcgiDecoder.decodeRecord ⟨chan, none⟩) := by
  unfold SameOutcome
  rw [fcgiDecode_eq, fcgiDecode_eq]
  generalize List.foldlM FcgiDecoder.decodeRecord ⟨chan, none⟩ (fcgiFraming.records bs) = o,
    List.foldlM FcgiDecoder.decodeRecord ⟨chan, none⟩ (fcgiFraming.records bs') = o'
  constructor
  · intro h
    cases o <;> cases o' <;> cases h <;> constructor
    assumption
  · intro h
    cases h with
    | none => exact .none
    | some h => exact .some h

/-- A stream begins with any number of its records. -/
theorem exists_beginning (bs : List UInt8) (n : ℕ) :
    ∃ pre, pre <+: bs ∧ fcgiFraming.records pre = (fcgiFraming.records bs).take n := by
  induction bs using fcgiFraming.record_induction generalizing n with
  | stop bs h => exact ⟨bs, List.prefix_refl bs, by simp [Framing.records_of_none h]⟩
  | step bs r rest h ih =>
      cases n with
      | zero =>
          have hnone : fcgiFraming.next [] = none := rfl
          exact ⟨[], List.nil_prefix, by simp [Framing.records_of_none hnone]⟩
      | succ n =>
          obtain ⟨pre, hpre, hrecords⟩ := ih n
          obtain ⟨hread, hlen, hcontent, rfl⟩ := nextRecord_eq_some.mp h
          have hbody : 8 + r.1.contentLen ≤ r.1.len := by simp only [FcgiHeader.len]; omega
          -- The first record alone.
          have hfirst : fcgiFraming.next (bs.take r.1.len) = some (r, []) := by
            refine nextRecord_eq_some.mpr ⟨?_, ?_, ?_, ?_⟩
            · cases hhead : FcgiHeader.read (bs.take r.1.len) with
              | none =>
                  have hshort := FcgiHeader.length_lt_of_read hhead
                  rw [List.length_take] at hshort
                  omega
              | some hd =>
                  have happend := FcgiHeader.read_append hhead (bs.drop r.1.len)
                  rw [List.take_append_drop, hread] at happend
                  exact happend.symm
            · rw [List.length_take]
              omega
            · rw [hcontent, List.drop_take, List.take_take]
              congr 1
              omega
            · simp
          refine ⟨bs.take r.1.len ++ pre, ?_, ?_⟩
          · conv_rhs => rw [← List.take_append_drop r.1.len bs]
            exact (List.prefix_append_right_inj _).mpr hpre
          · have hnext := fcgiFraming.extend pre hfirst
            rw [List.nil_append] at hnext
            rw [Framing.records_of_some hnext, Framing.records_of_some h, List.take_succ_cons, hrecords]

/-- The records of a beginning are the first ones of the stream. -/
theorem records_of_isPrefix {pre bs : List UInt8} (h : pre <+: bs) :
    fcgiFraming.records pre = (fcgiFraming.records bs).take (fcgiFraming.records pre).length := by
  obtain ⟨rest, rfl⟩ := h
  rw [Framing.records_append, List.take_left]

/-- Two streams whose records leave the same have the same outcome. -/
theorem sameOutcome_of_sameStores {chan : Channel} {bs bs' : List UInt8}
    (hdiffer : DifferInParams bs bs')
    (hstores : SameStores ⟨chan, none⟩ (fcgiFraming.records bs) (fcgiFraming.records bs')) :
    SameOutcome chan bs bs' := by
  have hall := (SameView.foldlM_iff hdiffer.1 (SameView.start chan)).mpr hstores
    (fcgiFraming.records bs).length
  have hlen := hdiffer.1.length_eq
  rw [List.take_length, hlen, List.take_length] at hall
  exact (sameOutcome_iff_foldlM chan bs bs').mpr hall

/-- **Parameters and the protocol.**  Two streams that differ in parameters only have the same
outcome, and so have their beginnings, if and only if corresponding records leave the same under
the names of the fields that the decoder keeps itself. -/
theorem sameOutcome_iff {chan : Channel} {bs bs' : List UInt8} (hdiffer : DifferInParams bs bs') :
    (∀ pre pre', pre <+: bs → pre' <+: bs' →
      (fcgiFraming.records pre).length = (fcgiFraming.records pre').length →
        SameOutcome chan pre pre') ↔
      SameStores ⟨chan, none⟩ (fcgiFraming.records bs) (fcgiFraming.records bs') := by
  rw [← SameView.foldlM_iff hdiffer.1 (SameView.start chan)]
  constructor
  · intro hall n
    obtain ⟨pre, hpre, hrecords⟩ := exists_beginning bs n
    obtain ⟨pre', hpre', hrecords'⟩ := exists_beginning bs' n
    rw [← hrecords, ← hrecords']
    refine (sameOutcome_iff_foldlM chan pre pre').mp (hall pre pre' hpre hpre' ?_)
    rw [hrecords, hrecords', List.length_take, List.length_take, hdiffer.1.length_eq]
  · intro hall pre pre' hpre hpre' hlen
    rw [sameOutcome_iff_foldlM, records_of_isPrefix hpre, records_of_isPrefix hpre', ← hlen]
    exact hall _

/-! ## The names of the parameters -/

/-- A name that does not occur is not stored. -/
theorem lastParam_eq_none {content k : List UInt8} (h : k ∉ paramNames content) :
    lastParam content k = none := by
  have hfilter : ((decodePairs content.length content).1.filter fun pair => pair.1 = k) = [] := by
    rw [List.filter_eq_nil_iff]
    intro pair hpair
    rw [decide_eq_true_iff]
    intro hk
    exact h (hk ▸ List.mem_map_of_mem hpair)
  rw [lastParam, hfilter]
  rfl

/-- Names that are none of the fields. -/
theorem NamesIn.sameStores {names : Set (List UInt8)} (hnames : ∀ k ∈ protocolFields, k ∉ names)
    {bs bs' : List UInt8} (h : NamesIn names bs bs') (d : FcgiDecoder) :
    SameStores d (fcgiFraming.records bs) (fcgiFraming.records bs') := by
  unfold NamesIn at h
  generalize fcgiFraming.records bs = rs, fcgiFraming.records bs' = rs' at h ⊢
  induction h generalizing d with
  | nil => exact trivial
  | @cons r r' rs rs' hr _ ih =>
      refine ⟨fun _ k hk => ?_, fun d₁ _ => ih d₁⟩
      rcases hr with hcontent | hin
      · rw [hcontent]
      · have hleft : k ∉ paramNames r.2 := fun hmem =>
          hnames k hk (hin k (List.mem_append_left _ hmem))
        have hright : k ∉ paramNames r'.2 := fun hmem =>
          hnames k hk (hin k (List.mem_append_right _ hmem))
        rw [stored, stored, lastParam_eq_none hleft, lastParam_eq_none hright]

/-- A field of a request after the call. -/
def fieldAfter (chan : Channel) (bs : List UInt8) (id : ℕ) (k : List UInt8) :
    Option (Option LuaValue) :=
  (fcgiDecode chan bs).map fun p => (p.1.chan id).map fun req => req k

/-- The same outcome shows in each field. -/
theorem SameOutcome.fieldAfter {chan : Channel} {bs bs' : List UInt8} (h : SameOutcome chan bs bs')
    (id : ℕ) {k : List UInt8} (hk : k ∈ protocolFields) :
    LuaSys.Isa.fieldAfter chan bs id k = LuaSys.Isa.fieldAfter chan bs' id k := by
  unfold SameOutcome at h
  unfold LuaSys.Isa.fieldAfter
  generalize fcgiDecode chan bs = o, fcgiDecode chan bs' = o' at h ⊢
  cases h with
  | none => rfl
  | @some p p' h =>
      have hrel := h.1 id
      rw [Option.map_some, Option.map_some, Option.some.injEq]
      generalize p.1.chan id = q, p'.1.chan id = q' at hrel ⊢
      cases hrel with
      | none => rfl
      | some hreq => rw [Option.map_some, Option.map_some, hreq k hk]

/-- A PARAMS record of request 1 with one short name and a value of one byte. -/
def paramRecord (name : List UInt8) (value : UInt8) : List UInt8 :=
  [1, 4, 0, 1, 0, UInt8.ofNat (name.length + 3), 0, 0, UInt8.ofNat name.length, 1] ++ name ++ [value]

/-- The records of two values for one field. -/
theorem paramRecord_field : ∀ k ∈ protocolFields,
    DifferInParams (paramRecord k 120) (paramRecord k 121) ∧
      (∀ r ∈ fcgiFraming.records (paramRecord k 120) ++ fcgiFraming.records (paramRecord k 121),
        ∀ name ∈ paramNames r.2, name = k) ∧
      fieldAfter (fun _ => none) (paramRecord k 120) 1 k = some (some (.string [120])) ∧
      fieldAfter (fun _ => none) (paramRecord k 121) 1 k = some (some (.string [121])) := by
  unfold DifferInParams
  decide +kernel

/-- The field that a parameter is named after differs. -/
theorem not_sameOutcome_paramRecord {k : List UInt8} (hk : k ∈ protocolFields) :
    ¬SameOutcome (fun _ => none) (paramRecord k 120) (paramRecord k 121) := by
  intro hsame
  obtain ⟨-, -, hleft, hright⟩ := paramRecord_field k hk
  have hfield := hsame.fieldAfter 1 hk
  rw [hleft, hright] at hfield
  cases hfield

theorem namesIn_paramRecord {names : Set (List UInt8)} {k : List UInt8} (hk : k ∈ protocolFields)
    (hmem : k ∈ names) : NamesIn names (paramRecord k 120) (paramRecord k 121) := by
  obtain ⟨hdiffer, hnames, -⟩ := paramRecord_field k hk
  refine List.forall₂_iff_zip.mpr ⟨hdiffer.1.length_eq, ?_⟩
  intro r r' hzip
  refine .inr fun name hname => ?_
  have hr := List.of_mem_zip hzip
  rcases List.mem_append.mp hname with hname | hname
  · rw [hnames r (List.mem_append_left _ hr.1) name hname]
    exact hmem
  · rw [hnames r' (List.mem_append_right _ hr.2) name hname]
    exact hmem

/-- Streams whose parameters take their names from a set have the same outcome whenever they
differ in these parameters only, if and only if the set has none of the names of the fields that
the decoder keeps itself. -/
theorem namesIn_iff (names : Set (List UInt8)) :
    (∀ chan bs bs', DifferInParams bs bs' → NamesIn names bs bs' → SameOutcome chan bs bs') ↔
      ∀ k ∈ protocolFields, k ∉ names := by
  constructor
  · intro hsame k hk hmem
    have hdiffer := (paramRecord_field k hk).1
    exact not_sameOutcome_paramRecord hk (hsame _ _ _ hdiffer (namesIn_paramRecord hk hmem))
  · intro hnames chan bs bs' hdiffer hin
    exact sameOutcome_of_sameStores hdiffer (hin.sameStores hnames ⟨chan, none⟩)

/-- One of the streams stores the same `id` twice. -/
theorem sameOutcome_iff_twice :
    DifferInParams (paramRecord (text "id") 120 ++ paramRecord (text "id") 120 ++ stdinEnd 1)
      (paramRecord (text "id") 120 ++ paramRecord (text "ad") 121 ++ stdinEnd 1) ∧
    SameOutcome (fun _ => none)
      (paramRecord (text "id") 120 ++ paramRecord (text "id") 120 ++ stdinEnd 1)
      (paramRecord (text "id") 120 ++ paramRecord (text "ad") 121 ++ stdinEnd 1) := by
  have hdiffer : DifferInParams
      (paramRecord (text "id") 120 ++ paramRecord (text "id") 120 ++ stdinEnd 1)
      (paramRecord (text "id") 120 ++ paramRecord (text "ad") 121 ++ stdinEnd 1) :=
    ⟨by decide +kernel, by decide +kernel⟩
  exact ⟨hdiffer, (sameOutcome_iff hdiffer).mpr (by decide +kernel) _ _ (List.prefix_refl _)
    (List.prefix_refl _) hdiffer.1.length_eq⟩

/-- The parameters `id` and `ad`: with the first one the `id` of the request is a string. -/
theorem param_overwrites_id :
    DifferInParams (paramRecord (text "id") 120) (paramRecord (text "ad") 120) ∧
      ¬SameOutcome (fun _ => none) (paramRecord (text "id") 120) (paramRecord (text "ad") 120) := by
  refine ⟨⟨by decide +kernel, by decide +kernel⟩, fun hsame => ?_⟩
  have hfield := hsame.fieldAfter 1 (show text "id" ∈ protocolFields by decide)
  have hleft : fieldAfter (fun _ => none) (paramRecord (text "id") 120) 1 (text "id") =
      some (some (.string [120])) := by
    decide +kernel
  have hright : fieldAfter (fun _ => none) (paramRecord (text "ad") 120) 1 (text "id") =
      some (some (.integer 1)) := by
    decide +kernel
  rw [hleft, hright] at hfield
  cases hfield

end LuaSys.Isa
