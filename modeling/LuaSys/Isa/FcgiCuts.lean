import LuaSys.Isa.FcgiPairs
import LuaSys.Isa.FcgiStream

/-!
# Parameters in several records

The front-end may cut the encoding of the parameters into records wherever it likes, with
records of other requests in between.  `fcgi_decode_record` decodes each record of its own:
nothing is carried over from one record to the next.  So a record that ends inside a pair
is refused, and the rest of the pair is taken for the beginning of another one.

The stream is followed record by record.  The records of other requests do not touch the
table of the request; a record that is accepted stores its pairs in it.

## Main definitions

* `ParamStream` — a stream whose records of one request are parameters.
* `Accepted` — a content is a list of whole pairs, and does not end with a long empty one.
* `ErrorFree` — no record of the request sets an error.
* `StoresWhole` — the outcome is that of the whole encoding in one record.

## Main results

* `paramRecords_run` — the records of the request, one after the other.
* `storesWhole_iff` — the cuts do not matter exactly if each record has whole pairs.
-/

namespace LuaSys.Isa

open LuaSys.Lib

/-! ## The streams and their outcome -/

/-- The records of a request are parameters with these contents, which are not empty. -/
structure ParamStream (id : ℕ) (bs : List UInt8) (chunks : List (List UInt8)) : Prop where
  params : ∀ r ∈ fcgiFraming.records bs, r.1.requestId = id →
    r.1.version = 1 ∧ r.1.type = 4 ∧ r.1.contentLen ≠ 0
  contents : ((fcgiFraming.records bs).filter fun r => r.1.requestId = id).map Prod.snd = chunks

/-- The content of a record is a list of whole pairs, without a long empty one at the end. -/
def Accepted (content : List UInt8) : Prop :=
  ∃ ps, content = pairBytes ps ∧ ∀ p ∈ ps.getLast?, ¬p.LongEmpty

/-- The error that a record sets. -/
def FcgiDecoder.recordError (d : FcgiDecoder) (r : FcgiRecord) : Option FcgiError :=
  (decodeContent (d.request r.1.requestId) r).bind fun p => p.2.1

/-- No record of the request sets an error. -/
def ErrorFree (id : ℕ) : FcgiDecoder → List FcgiRecord → Prop
  | _, [] => True
  | d, r :: rs => (r.1.requestId = id → d.recordError r = none) ∧
      ∀ d', d.decodeRecord r = some d' → ErrorFree id d' rs

/-- The call returns, no record of the request sets an error, and the request gets the
parameters that it gets, without an error, from the whole encoding in one record. -/
def StoresWhole (chan : Channel) (bs : List UInt8) (id : ℕ) (ps : List ParamPair) : Prop :=
  ∃ d rest, fcgiDecode chan bs = some (d, rest) ∧ ErrorFree id ⟨chan, none⟩ (fcgiFraming.records bs) ∧
    decodeParams ((chan id).getD (newRequest id)) (pairBytes ps) = (d.request id, none) ∧
    d.request id = setParams ((chan id).getD (newRequest id)) (ps.map ParamPair.pair)

/-! ## Contents one behind the other -/

theorem accepted_iff {content : List UInt8} : Accepted content ↔ (pairsOf content).2 = none := by
  constructor
  · rintro ⟨ps, rfl, hlast⟩
    rw [(pairsOf_pairBytes ps).1 hlast]
  · intro hnone
    obtain ⟨ps, hps, hlast, -⟩ := pairBytes_of_pairsOf hnone
    exact ⟨ps, hps, hlast⟩

/-- Without an error the pairs are those of the encoding. -/
theorem pairsOf_of_error_none {ps : List ParamPair} (h : (pairsOf (pairBytes ps)).2 = none) :
    (pairsOf (pairBytes ps)).1 = ps.map ParamPair.pair := by
  have hlast : ∀ p ∈ ps.getLast?, ¬p.LongEmpty := fun p hp hempty =>
    (pairsOf_pairBytes ps).2 ⟨p, hp, hempty⟩ h
  rw [(pairsOf_pairBytes ps).1 hlast]

/-- A pair is read in the same way when more follows. -/
theorem nextParam_append {bs rest : List UInt8} {pair : List UInt8 × List UInt8}
    (h : nextParam bs = some (pair, rest)) (more : List UInt8) :
    nextParam (bs ++ more) = some (pair, rest ++ more) := by
  obtain ⟨p, rfl, rfl⟩ := paramPair_of_nextParam h
  obtain ⟨b, tail, -, hread⟩ := p.nextParam rest
  obtain ⟨b', tail', -, hread'⟩ := p.nextParam (rest ++ more)
  rw [hread] at h
  have hnot : ¬(p.valueLen.length = 4 ∧ p.name ++ p.value ++ rest = []) := by
    intro hboth
    rw [if_pos hboth] at h
    exact absurd h (by simp)
  rw [List.append_assoc, hread', if_neg]
  rintro ⟨hlen, hnil⟩
  rw [← List.append_assoc, List.append_eq_nil_iff] at hnil
  exact hnot ⟨hlen, hnil.1⟩

/-- Behind an accepted content the pairs of the next one follow. -/
theorem pairsOf_append {c : List UInt8} (h : (pairsOf c).2 = none) (more : List UInt8) :
    pairsOf (c ++ more) = ((pairsOf c).1 ++ (pairsOf more).1, (pairsOf more).2) := by
  induction hlen : c.length using Nat.strongRecOn generalizing c with
  | _ n ih =>
      by_cases hnil : c = []
      · subst hnil
        rfl
      · cases hnext : nextParam c with
        | none =>
            rw [pairsOf_of_none hnil hnext] at h
            exact absurd h (by simp)
        | some first =>
            obtain ⟨pair, rest⟩ := first
            rw [pairsOf_of_some hnext] at h ⊢
            rw [pairsOf_of_some (nextParam_append hnext more),
              ih rest.length (hlen ▸ length_lt_of_nextParam hnext) h rfl]
            rfl

/-- The pairs of accepted contents are those of the whole. -/
theorem pairsOf_flatten {chunks : List (List UInt8)} (h : ∀ c ∈ chunks, Accepted c) :
    pairsOf chunks.flatten = (chunks.flatMap fun c => (pairsOf c).1, none) := by
  induction chunks with
  | nil => rfl
  | cons c chunks ih =>
      have hc := accepted_iff.mp (h c List.mem_cons_self)
      rw [List.flatten_cons, pairsOf_append hc, ih fun c hc => h c (List.mem_cons_of_mem _ hc),
        List.flatMap_cons]

theorem setParams_append (req : Request) (pairs more : List (List UInt8 × List UInt8)) :
    setParams req (pairs ++ more) = setParams (setParams req pairs) more := by
  rw [setParams, List.foldl_append]
  rfl

/-! ## The records -/

section Records

variable {id : ℕ} {d d' : FcgiDecoder} {r : FcgiRecord} {rs : List FcgiRecord}

/-- A record of another request does not touch the table. -/
theorem request_of_other (hid : r.1.requestId ≠ id) (h : d.decodeRecord r = some d') :
    d'.request id = d.request id := by
  obtain ⟨⟨req, err, isReady⟩, -, rfl⟩ := Option.map_eq_some_iff.mp h
  rw [FcgiDecoder.request, FcgiDecoder.request]
  dsimp only
  split
  · dsimp only
    rw [Function.update_of_ne hid.symm]
  · dsimp only
    rw [Function.update_of_ne hid.symm]

theorem recordError_params (hparams : r.1.version = 1 ∧ r.1.type = 4 ∧ r.1.contentLen ≠ 0) :
    d.recordError r = (pairsOf r.2).2 := by
  rw [FcgiDecoder.recordError, decodeContent_params hparams]
  rfl

/-- A record that is accepted stores its pairs. -/
theorem request_of_params (hparams : r.1.version = 1 ∧ r.1.type = 4 ∧ r.1.contentLen ≠ 0)
    (hid : r.1.requestId = id) (hnone : (pairsOf r.2).2 = none) (h : d.decodeRecord r = some d') :
    d'.request id = setParams (d.request id) (pairsOf r.2).1 := by
  subst hid
  have hcontent := decodeContent_params hparams (d.request r.1.requestId)
  have herr : (decodeParams (d.request r.1.requestId) r.2).2 = none := hnone
  rw [herr] at hcontent
  obtain ⟨p, hp, rfl⟩ := Option.map_eq_some_iff.mp h
  obtain rfl := Option.some.inj (hcontent.symm.trans hp)
  rw [FcgiDecoder.request, FcgiDecoder.request]
  dsimp only
  rw [if_neg (by simp)]
  dsimp only
  rw [Function.update_self]
  rfl

/-- The contents of the records of a request. -/
def chunksOf (id : ℕ) (rs : List FcgiRecord) : List (List UInt8) :=
  (rs.filter fun r => r.1.requestId = id).map Prod.snd

theorem chunksOf_cons_self (hid : r.1.requestId = id) :
    chunksOf id (r :: rs) = r.2 :: chunksOf id rs := by
  rw [chunksOf, List.filter_cons_of_pos (by simpa using hid)]
  rfl

theorem chunksOf_cons_other (hid : r.1.requestId ≠ id) :
    chunksOf id (r :: rs) = chunksOf id rs := by
  rw [chunksOf, List.filter_cons_of_neg (by simpa using hid)]
  rfl

/-- From every record on: the records set no error exactly if their contents are accepted,
and then the pairs of all of them are stored. -/
theorem paramRecords_run
    (hparams : ∀ r ∈ rs, r.1.requestId = id → r.1.version = 1 ∧ r.1.type = 4 ∧ r.1.contentLen ≠ 0)
    (hrun : rs.foldlM FcgiDecoder.decodeRecord d = some d') :
    (ErrorFree id d rs ↔ ∀ c ∈ chunksOf id rs, Accepted c) ∧
      ((∀ c ∈ chunksOf id rs, Accepted c) → d'.request id =
        setParams (d.request id) ((chunksOf id rs).flatMap fun c => (pairsOf c).1)) := by
  induction rs generalizing d with
  | nil =>
      obtain rfl := Option.some.inj hrun
      exact ⟨⟨fun _ c hc => absurd hc (by simp [chunksOf]), fun _ => trivial⟩, fun _ => rfl⟩
  | cons r rs ih =>
      rw [List.foldlM_cons] at hrun
      obtain ⟨d₁, hr, hrest⟩ := Option.bind_eq_some_iff.mp hrun
      obtain ⟨hfree, hstores⟩ := ih (fun r hr => hparams r (List.mem_cons_of_mem _ hr)) hrest
      have hsplit : ErrorFree id d (r :: rs) ↔
          (r.1.requestId = id → d.recordError r = none) ∧ ErrorFree id d₁ rs := by
        refine and_congr_right fun _ => ⟨fun h => h d₁ hr, fun h d₂ hr₂ => ?_⟩
        obtain rfl := Option.some.inj (hr.symm.trans hr₂)
        exact h
      by_cases hid : r.1.requestId = id
      · have hthis := hparams r List.mem_cons_self hid
        rw [hsplit, hfree, chunksOf_cons_self hid, List.forall_mem_cons, recordError_params hthis,
          ← accepted_iff]
        refine ⟨and_congr_left fun _ => ⟨fun h => h hid, fun h _ => h⟩, ?_⟩
        rintro ⟨hc, hcs⟩
        rw [hstores hcs, request_of_params hthis hid (accepted_iff.mp hc) hr, List.flatMap_cons,
          setParams_append]
      · rw [hsplit, hfree, chunksOf_cons_other hid, ← request_of_other hid hr]
        exact ⟨⟨fun h => h.2, fun h => ⟨fun h' => absurd h' hid, h⟩⟩, hstores⟩

end Records

/-- **The cuts do not matter if no pair is cut.**  For every list of pairs, every way to cut
its encoding into the contents of records, and every stream with these records of a request
and any records of others, the request gets the parameters of the whole encoding without an
error, if and only if each record has a list of whole pairs that does not end with a long
empty one. -/
theorem storesWhole_iff {chan : Channel} (hchan : StdinText chan) {bs : List UInt8} {id : ℕ}
    {chunks : List (List UInt8)} (hstream : ParamStream id bs chunks) {ps : List ParamPair}
    (hcut : chunks.flatten = pairBytes ps) :
    StoresWhole chan bs id ps ↔ ∀ c ∈ chunks, Accepted c := by
  obtain ⟨d, hrun, -⟩ := StdinText.foldlM (d := ⟨chan, none⟩) hchan (fcgiFraming.records bs)
  have hcall := fcgiDecode_eq_some hrun
  have hchunks : chunksOf id (fcgiFraming.records bs) = chunks := hstream.contents
  obtain ⟨hfree, hstores⟩ := paramRecords_run hstream.params hrun
  rw [hchunks] at hfree hstores
  constructor
  · rintro ⟨d', rest, -, herror, -⟩
    exact hfree.mp herror
  · intro haccepted
    have hwhole := pairsOf_flatten haccepted
    rw [hcut] at hwhole
    have hpairs := pairsOf_of_error_none (congrArg Prod.snd hwhole)
    have hrequest := hstores haccepted
    have hsame : decodeParams ((chan id).getD (newRequest id)) (pairBytes ps) =
        (d.request id, none) := by
      have hdecode : decodeParams ((chan id).getD (newRequest id)) (pairBytes ps) =
          (setParams ((chan id).getD (newRequest id)) (pairsOf (pairBytes ps)).1,
            (pairsOf (pairBytes ps)).2) := rfl
      rw [hdecode, hwhole, hrequest]
      rfl
    refine ⟨d, _, hcall, hfree.mpr haccepted, hsame, ?_⟩
    rw [hrequest, ← hpairs, hwhole]
    rfl

/-- A PARAMS record of request 1. -/
def paramsRecord (content : List UInt8) : List UInt8 :=
  [1, 4, 0, 1, 0, UInt8.ofNat content.length, 0, 0] ++ content

/-- The pair `a`, `b` and the pair `c`, `d`, one in each record. -/
theorem storesWhole_iff_twoPairs :
    let p : ParamPair := ⟨[1], [1], [97], [98], .short 1 (by decide), .short 1 (by decide)⟩
    let q : ParamPair := ⟨[1], [1], [99], [100], .short 1 (by decide), .short 1 (by decide)⟩
    StoresWhole (fun _ => none) (paramsRecord p.wire ++ paramsRecord q.wire) 1 [p, q] := by
  intro p q
  have hstream : ParamStream 1 (paramsRecord p.wire ++ paramsRecord q.wire) [p.wire, q.wire] := by
    refine ⟨?_, by decide +kernel⟩
    decide +kernel
  refine (storesWhole_iff stdinText_empty hstream rfl).mpr ?_
  have hone : ∀ p : ParamPair, p.name ≠ [] → Accepted p.wire := by
    intro p hname
    refine ⟨[p], (List.append_nil _).symm, fun p' hp' hempty => ?_⟩
    obtain rfl : p' = p := by simpa [eq_comm] using hp'
    exact hname hempty.1
  intro c hc
  rcases List.mem_cons.mp hc with rfl | hc
  · exact hone p (by simp [p])
  · rw [List.mem_singleton.mp hc]
    exact hone q (by simp [q])

/-- The pair `a`, `b` cut behind its name. -/
theorem cut_pair_refused :
    let p : ParamPair := ⟨[1], [1], [97], [98], .short 1 (by decide), .short 1 (by decide)⟩
    let bs := paramsRecord [1, 1, 97] ++ paramsRecord [98]
    ParamStream 1 bs [[1, 1, 97], [98]] ∧ [[1, 1, 97], [98]].flatten = pairBytes [p] ∧
      ¬StoresWhole (fun _ => none) bs 1 [p] := by
  intro p bs
  have hstream : ParamStream 1 bs [[1, 1, 97], [98]] := by
    refine ⟨?_, by decide +kernel⟩
    decide +kernel
  refine ⟨hstream, rfl, fun hwhole => ?_⟩
  obtain ⟨d, rest, -, hfree, -⟩ := hwhole
  obtain ⟨d', hrun, -⟩ := StdinText.foldlM (d := ⟨fun _ => none, none⟩) stdinText_empty
    (fcgiFraming.records bs)
  have haccepted := (paramRecords_run hstream.params hrun).1.mp hfree
  have hchunks : chunksOf 1 (fcgiFraming.records bs) = [[1, 1, 97], [98]] := hstream.contents
  rw [hchunks] at haccepted
  exact absurd (accepted_iff.mp (haccepted [1, 1, 97] List.mem_cons_self)) (by decide)

end LuaSys.Isa
