import LuaSys.Lib.Framing
import LuaSys.Lib.LinkStack

/-!
# Decoding FastCGI records

The model of `fcgi_decode` and the functions it calls.  A channel table maps request
ids to request tables; a request table maps names to values.  The parameters that the
front-end sends go into the request table under their own names, beside the fields
that the decoder keeps there itself: `id`, `channel`, `keep_conn`, `stdin`, `error`
and `next_ready`.

A request that completes or fails gets the request that did so before it as
`next_ready`, and the call returns the last one: a stack threaded through the request
tables.

Concatenation to a `stdin` field that is neither a string nor a number raises an error
in Lua; the call is `none` then.  The tables are plain: they have no metatables, and two
ids do not share a request table.

## Main definitions

* `Request`, `Channel` — the tables.
* `FcgiHeader`, `fcgiFraming` — the records of a buffer.
* `FcgiDecoder.decodeRecord`, `fcgiDecode` — the functions of the source.
* `ReadySound` — the chain from the returned id holds the requests of this call.
* `readyEvents` — what the records of a buffer do to the chain.

## Main results

* `readySound_iff_clean` — the chain is sound if and only if no request completes
  twice, or gets a parameter `next_ready` after it has completed.
-/

namespace LuaSys.Isa

open LuaSys.Lib

/-! ## Tables -/

/-- The bytes of a C string. -/
def text (s : String) : List UInt8 := s.toUTF8.data.toList

/-- A Lua value. -/
inductive LuaValue
  | nil
  | boolean (b : Bool)
  /-- A number; the decoder stores request ids only. -/
  | integer (n : ℕ)
  | string (s : List UInt8)
  /-- The channel table. -/
  | channel
  /-- Any other object, by its identity. -/
  | other (ref : ℕ)
  deriving DecidableEq

/-- A request table. -/
abbrev Request := List UInt8 → LuaValue

/-- The request tables of a channel; `none` stands for a value that is no table. -/
abbrev Channel := ℕ → Option Request

/-- A new request table with its `id` and `channel` fields. -/
def newRequest (id : ℕ) : Request :=
  Function.update (Function.update (fun _ => .nil) (text "id") (.integer id))
    (text "channel") .channel

/-- The `next_ready` field of a request; `nil` if there is no such request. -/
def nextReady (chan : Channel) (id : ℕ) : LuaValue :=
  match chan id with
  | some req => req (text "next_ready")
  | none => .nil

/-- `ready_request_id` as a Lua value; `none` is `FCGI_NULL_REQUEST_ID`. -/
def readyValue : Option ℕ → LuaValue
  | some id => .integer id
  | none => .nil

/-! ## Records -/

/-- The header of a record. -/
structure FcgiHeader where
  version : ℕ
  type : ℕ
  requestId : ℕ
  contentLen : ℕ
  paddingLen : ℕ
  deriving DecidableEq

namespace FcgiHeader

/-- The length of the record with its header, content and padding. -/
def len (h : FcgiHeader) : ℕ := 8 + h.contentLen + h.paddingLen

/-- The first eight bytes, if there are as many. -/
def read : List UInt8 → Option FcgiHeader
  | version :: type :: id₁ :: id₀ :: len₁ :: len₀ :: padding :: _ :: _ =>
      some ⟨version.toNat, type.toNat, 256 * id₁.toNat + id₀.toNat,
        256 * len₁.toNat + len₀.toNat, padding.toNat⟩
  | _ => none

end FcgiHeader

/-- A record: its header and its content. -/
abbrev FcgiRecord := FcgiHeader × List UInt8

/-- The first record of a buffer and what follows it; `none` if the buffer is shorter
than a header or than the record. -/
def nextRecord (bs : List UInt8) : Option (FcgiRecord × List UInt8) :=
  match FcgiHeader.read bs with
  | none => none
  | some h =>
      if h.len > bs.length then none
      else some ((h, (bs.drop 8).take h.contentLen), bs.drop h.len)

/-! ## The content of a record -/

/-- The error messages of the decoder. -/
inductive FcgiError
  | badContent
  | badRole
  | badVersion
  | badType
  deriving DecidableEq

def FcgiError.message : FcgiError → List UInt8
  | badContent => text "bad content"
  | badRole => text "bad role"
  | badVersion => text "bad version"
  | badType => text "bad type"

/-- `fcgi_decode_begin_request`. -/
def decodeBeginRequest (req : Request) : List UInt8 → Request × Option FcgiError
  | [role₁, role₀, flags, _, _, _, _, _] =>
      if 256 * role₁.toNat + role₀.toNat ≠ 1 then (req, some .badRole)
      else (Function.update req (text "keep_conn") (.boolean (flags &&& 1 != 0)), none)
  | _ => (req, some .badContent)

/-- The rest of a length whose first byte is `len`: three more bytes if its top bit is
set, and at least one byte must follow these. -/
def paramLen (len : UInt8) (cp : List UInt8) : Option (ℕ × List UInt8) :=
  if len &&& 0x80 ≠ 0 then
    match cp with
    | b₂ :: b₁ :: b₀ :: next :: cp =>
        some (((((len ^^^ 0x80).toNat * 256 + b₂.toNat) * 256 + b₁.toNat) * 256 + b₀.toNat),
          next :: cp)
    | _ => none
  else some (len.toNat, cp)

/-- The first pair of a PARAMS record: name, value and what follows. -/
def nextParam : List UInt8 → Option ((List UInt8 × List UInt8) × List UInt8)
  | [] => none
  | nameLen :: cp =>
      match paramLen nameLen cp with
      | none => none
      | some (_, []) => none
      | some (nameLen, valueLen :: cp) =>
          match paramLen valueLen cp with
          | none => none
          | some (valueLen, cp) =>
              if nameLen + valueLen > cp.length then none
              else some ((cp.take nameLen, (cp.drop nameLen).take valueLen),
                cp.drop (nameLen + valueLen))

/-- The loop of `fcgi_decode_params`: the pairs in order, up to the first that does not
fit.  The fuel is the number of bytes. -/
def decodePairs : ℕ → List UInt8 → List (List UInt8 × List UInt8) × Option FcgiError
  | 0, _ => ([], none)
  | _ + 1, [] => ([], none)
  | fuel + 1, b :: cp =>
      match nextParam (b :: cp) with
      | none => ([], some .badContent)
      | some (pair, cp) => (pair :: (decodePairs fuel cp).1, (decodePairs fuel cp).2)

/-- Store pairs in a request table. -/
def setParams (req : Request) (pairs : List (List UInt8 × List UInt8)) : Request :=
  pairs.foldl (fun req pair => Function.update req pair.1 (.string pair.2)) req

/-- `fcgi_decode_params`. -/
def decodeParams (req : Request) (content : List UInt8) : Request × Option FcgiError :=
  (setParams req (decodePairs content.length content).1, (decodePairs content.length content).2)

/-- `fcgi_decode_stdin`. -/
def decodeStdin (req : Request) (content : List UInt8) : Option Request :=
  match req (text "stdin") with
  | .nil => some (Function.update req (text "stdin") (.string content))
  | .string s => some (Function.update req (text "stdin") (.string (s ++ content)))
  | .integer n =>
      some (Function.update req (text "stdin") (.string (text (toString n) ++ content)))
  | _ => none

/-- The request table, `err` and `is_ready` after the `switch` of `fcgi_decode_record`. -/
def decodeContent (req : Request) (r : FcgiRecord) : Option (Request × Option FcgiError × Bool) :=
  if r.1.version ≠ 1 then some (req, some .badVersion, false)
  else match r.1.type with
    -- FCGI_BEGIN_REQUEST
    | 1 => some ((decodeBeginRequest req r.2).1, (decodeBeginRequest req r.2).2, false)
    -- FCGI_ABORT_REQUEST
    | 2 => some (req, none, false)
    -- FCGI_PARAMS
    | 4 =>
        if r.1.contentLen ≠ 0 then some ((decodeParams req r.2).1, (decodeParams req r.2).2, false)
        else some (req, none, false)
    -- FCGI_STDIN
    | 5 =>
        if r.1.contentLen ≠ 0 then (decodeStdin req r.2).map fun req => (req, none, false)
        else some (req, none, true)
    | _ => some (req, some .badType, false)

/-- The content of a record with parameters. -/
theorem decodeContent_params {r : FcgiRecord}
    (hparams : r.1.version = 1 ∧ r.1.type = 4 ∧ r.1.contentLen ≠ 0)
    (req : Request) :
    decodeContent req r = some ((decodeParams req r.2).1, (decodeParams req r.2).2, false) := by
  obtain ⟨hversion, htype, hlen⟩ := hparams
  simp [decodeContent, hversion, htype, hlen]

/-! ## The decoder -/

/-- The channel table and `ready_request_id` during a call. -/
structure FcgiDecoder where
  chan : Channel
  ready : Option ℕ

namespace FcgiDecoder

/-- The table of a request, or the one that the decoder makes for it. -/
def request (d : FcgiDecoder) (id : ℕ) : Request := (d.chan id).getD (newRequest id)

/-- Set the `error` field. -/
def setError (req : Request) : Option FcgiError → Request
  | some err => Function.update req (text "error") (.string err.message)
  | none => req

/-- `fcgi_decode_record` on a complete record. -/
def decodeRecord (d : FcgiDecoder) (r : FcgiRecord) : Option FcgiDecoder :=
  let id := r.1.requestId
  (decodeContent ((d.chan id).getD (newRequest id)) r).map fun (req, err, isReady) =>
    if isReady || err.isSome then
      ⟨Function.update d.chan id (some (Function.update (setError req err) (text "next_ready")
        (readyValue d.ready))), some id⟩
    else ⟨Function.update d.chan id (some req), d.ready⟩

/-- The loop of `fcgi_decode`.  Every record takes some bytes, so the number of bytes is
enough fuel. -/
def decodeLoop : ℕ → FcgiDecoder → List UInt8 → Option (FcgiDecoder × List UInt8)
  | 0, d, bs => some (d, bs)
  | fuel + 1, d, bs =>
      match nextRecord bs with
      | none => some (d, bs)
      | some (r, rest) => (d.decodeRecord r).bind fun d => decodeLoop fuel d rest

end FcgiDecoder

/-- `fcgi_decode`: the channel, the returned request id, and what stays in the buffer. -/
def fcgiDecode (chan : Channel) (bs : List UInt8) : Option (FcgiDecoder × List UInt8) :=
  FcgiDecoder.decodeLoop bs.length ⟨chan, none⟩ bs

/-! ## The records of a buffer -/

theorem FcgiHeader.read_append {bs : List UInt8} {h : FcgiHeader} (hread : read bs = some h)
    (more : List UInt8) : read (bs ++ more) = some h := by
  match bs with
  | _ :: _ :: _ :: _ :: _ :: _ :: _ :: _ :: _ => exact hread

theorem FcgiHeader.length_lt_of_read {bs : List UInt8} (hread : read bs = none) :
    bs.length < 8 := by
  by_contra hlen
  match bs with
  | _ :: _ :: _ :: _ :: _ :: _ :: _ :: _ :: _ => exact absurd hread (by simp [read])
  | [] | [_] | [_, _] | [_, _, _] | [_, _, _, _] | [_, _, _, _, _] | [_, _, _, _, _, _]
  | [_, _, _, _, _, _, _] => simp at hlen

theorem nextRecord_eq_some {bs rest : List UInt8} {r : FcgiRecord} :
    nextRecord bs = some (r, rest) ↔
      FcgiHeader.read bs = some r.1 ∧ r.1.len ≤ bs.length ∧
        r.2 = (bs.drop 8).take r.1.contentLen ∧ rest = bs.drop r.1.len := by
  unfold nextRecord
  cases hread : FcgiHeader.read bs with
  | none => simp
  | some h =>
      dsimp only
      by_cases hlen : h.len > bs.length
      · simp only [hlen, if_true, reduceCtorEq, false_iff, Option.some.injEq]
        rintro ⟨rfl, hle, -⟩
        omega
      · rw [if_neg hlen]
        constructor
        · intro heq
          obtain ⟨rfl, rfl⟩ := Prod.mk.inj (Option.some.inj heq)
          exact ⟨rfl, Nat.le_of_not_lt hlen, rfl, rfl⟩
        · rintro ⟨heq, -, hcontent, hrest⟩
          obtain rfl := Option.some.inj heq
          rw [hrest, ← hcontent]

/-- The records of a FastCGI stream. -/
def fcgiFraming : Framing UInt8 FcgiRecord where
  next := nextRecord
  shorter := by
    intro bs r rest h
    obtain ⟨-, hlen, -, rfl⟩ := nextRecord_eq_some.mp h
    rw [List.length_drop]
    have : 8 ≤ r.1.len := by simp only [FcgiHeader.len]; omega
    omega
  extend := by
    intro bs r rest more h
    obtain ⟨hread, hlen, hcontent, rfl⟩ := nextRecord_eq_some.mp h
    have hbody : 8 + r.1.contentLen ≤ r.1.len := by simp only [FcgiHeader.len]; omega
    refine nextRecord_eq_some.mpr ⟨FcgiHeader.read_append hread more, ?_, ?_, ?_⟩
    · rw [List.length_append]
      omega
    · rw [hcontent, List.drop_append_of_le_length (by omega),
        List.take_append_of_le_length (by rw [List.length_drop]; omega)]
    · rw [List.drop_append_of_le_length hlen]

/-- The loop decodes the complete records one after the other. -/
theorem decodeLoop_eq {fuel : ℕ} {bs : List UInt8} (hfuel : bs.length ≤ fuel) (d : FcgiDecoder) :
    d.decodeLoop fuel bs = ((fcgiFraming.records bs).foldlM FcgiDecoder.decodeRecord d).map
      fun d => (d, fcgiFraming.tail bs) := by
  induction fuel generalizing bs d with
  | zero =>
      obtain rfl := List.eq_nil_of_length_eq_zero (Nat.le_zero.mp hfuel)
      have hnone : fcgiFraming.next [] = none := rfl
      rw [Framing.records_of_none hnone, Framing.tail_of_none hnone]
      rfl
  | succ fuel ih =>
      unfold FcgiDecoder.decodeLoop
      cases h : nextRecord bs with
      | none =>
          have hnone : fcgiFraming.next bs = none := h
          rw [Framing.records_of_none hnone, Framing.tail_of_none hnone]
          rfl
      | some p =>
          obtain ⟨r, rest⟩ := p
          have hsome : fcgiFraming.next bs = some (r, rest) := h
          have hlt := fcgiFraming.shorter hsome
          rw [Framing.records_of_some hsome, Framing.tail_of_some hsome, List.foldlM_cons]
          dsimp only
          cases d.decodeRecord r with
          | none => rfl
          | some d₁ => exact ih (by omega) d₁

theorem fcgiDecode_eq (chan : Channel) (bs : List UInt8) :
    fcgiDecode chan bs = ((fcgiFraming.records bs).foldlM FcgiDecoder.decodeRecord ⟨chan, none⟩).map
      fun d => (d, fcgiFraming.tail bs) :=
  decodeLoop_eq (Nat.le_refl _) _

/-! ## What a record does to the ready chain -/

/-- `is_ready` at the end of `fcgi_decode_record`; it does not depend on the request. -/
def recordReady (r : FcgiRecord) : Bool :=
  match decodeContent (fun _ => .nil) r with
  | some (_, err, isReady) => isReady || err.isSome
  | none => false

/-- The values of the parameters named `next_ready` that the record stores. -/
def nextReadyParams (r : FcgiRecord) : List (List UInt8) :=
  if r.1.version = 1 ∧ r.1.type = 4 ∧ r.1.contentLen ≠ 0 then
    ((decodePairs r.2.length r.2).1.filter fun pair => pair.1 = text "next_ready").map Prod.snd
  else []

/-- The accesses of a record to `next_ready` fields. -/
def recordEvents (r : FcgiRecord) : List (StackEvent ℕ LuaValue) :=
  (nextReadyParams r).map (fun v => .spoil r.1.requestId (.string v)) ++
    if recordReady r then [.push r.1.requestId] else []

/-- The accesses of the records of a buffer to `next_ready` fields. -/
def readyEvents (bs : List UInt8) : List (StackEvent ℕ LuaValue) :=
  (fcgiFraming.records bs).flatMap recordEvents

/-- The requests that complete or fail in a call, once for each record that says so. -/
def completed (bs : List UInt8) : List ℕ :=
  ((fcgiFraming.records bs).filter recordReady).map fun r => r.1.requestId

/-- The chain: the returned id and the `next_ready` fields. -/
def FcgiDecoder.links (d : FcgiDecoder) : LinkStack ℕ LuaValue :=
  ⟨readyValue d.ready, nextReady d.chan⟩

/-- Parameters of one name: the last value counts. -/
theorem setParams_apply (req : Request) (pairs : List (List UInt8 × List UInt8))
    (k : List UInt8) :
    setParams req pairs k = ((pairs.filter fun pair => pair.1 = k).map Prod.snd).foldl
      (fun _ v => .string v) (req k) := by
  induction pairs generalizing req with
  | nil => rfl
  | cons pair pairs ih =>
      rw [setParams, List.foldl_cons, ← setParams, ih]
      by_cases hk : pair.1 = k
      · subst hk
        simp
      · simp [hk, Function.update_of_ne (Ne.symm hk)]

/-- Some writes to one link. -/
theorem run_spoils {α β : Type*} [DecidableEq α] (ptr : α → β) (x : α) (vs : List β)
    (s : LinkStack α β) :
    s.run ptr (vs.map (.spoil x)) =
      ⟨s.head, Function.update s.next x (vs.foldl (fun _ v => v) (s.next x))⟩ := by
  induction vs generalizing s with
  | nil => simp [LinkStack.run]
  | cons v vs ih =>
      rw [List.map_cons, run_cons, ih]
      simp [LinkStack.apply]

theorem decodeBeginRequest_error (req req' : Request) (content : List UInt8) :
    (decodeBeginRequest req content).2 = (decodeBeginRequest req' content).2 := by
  unfold decodeBeginRequest
  split
  · split <;> rfl
  · rfl

theorem decodeBeginRequest_nextReady (req : Request) (content : List UInt8) :
    (decodeBeginRequest req content).1 (text "next_ready") = req (text "next_ready") := by
  unfold decodeBeginRequest
  split
  · split
    · rfl
    · dsimp only
      rw [Function.update_of_ne (show text "next_ready" ≠ text "keep_conn" by decide)]
  · rfl

theorem decodeStdin_nextReady {req req' : Request} {content : List UInt8}
    (h : decodeStdin req content = some req') :
    req' (text "next_ready") = req (text "next_ready") := by
  unfold decodeStdin at h
  split at h
  case h_4 => exact absurd h (by simp)
  all_goals
    obtain rfl := Option.some.inj h
    exact Function.update_of_ne (show text "next_ready" ≠ text "stdin" by decide) _ _

/-- The content of a record leaves the request as it is, or it is handled by one of the
functions for the types of records. -/
theorem decodeContent_cases (r : FcgiRecord) :
    (nextReadyParams r = [] ∧ ∃ err isReady, ∀ req, decodeContent req r = some (req, err, isReady)) ∨
    (nextReadyParams r = [] ∧ ∀ req, decodeContent req r =
      some ((decodeBeginRequest req r.2).1, (decodeBeginRequest req r.2).2, false)) ∨
    (nextReadyParams r = ((decodePairs r.2.length r.2).1.filter fun pair =>
        pair.1 = text "next_ready").map Prod.snd ∧
      ∀ req, decodeContent req r =
        some ((decodeParams req r.2).1, (decodeParams req r.2).2, false)) ∨
    (nextReadyParams r = [] ∧ ∀ req, decodeContent req r =
      (decodeStdin req r.2).map fun req => (req, none, false)) := by
  by_cases hv : r.1.version = 1
  · by_cases h₁ : r.1.type = 1
    · refine Or.inr (Or.inl ⟨if_neg fun h => by omega, fun req => ?_⟩)
      simp [decodeContent, hv, h₁]
    by_cases h₂ : r.1.type = 2
    · refine Or.inl ⟨if_neg fun h => by omega, none, false, fun req => ?_⟩
      simp [decodeContent, hv, h₂]
    by_cases h₄ : r.1.type = 4
    · by_cases hlen : r.1.contentLen = 0
      · refine Or.inl ⟨if_neg fun h => h.2.2 hlen, none, false, fun req => ?_⟩
        simp [decodeContent, hv, h₄, hlen]
      · refine Or.inr (Or.inr (Or.inl ⟨if_pos ⟨hv, h₄, hlen⟩, fun req => ?_⟩))
        simp [decodeContent, hv, h₄, hlen]
    have hparams : nextReadyParams r = [] := if_neg fun h => h₄ h.2.1
    by_cases h₅ : r.1.type = 5
    · by_cases hlen : r.1.contentLen = 0
      · refine Or.inl ⟨hparams, none, true, fun req => ?_⟩
        simp [decodeContent, hv, h₅, hlen]
      · refine Or.inr (Or.inr (Or.inr ⟨hparams, fun req => ?_⟩))
        simp [decodeContent, hv, h₅, hlen]
    · refine Or.inl ⟨hparams, some .badType, false, fun req => ?_⟩
      rw [decodeContent, if_neg (not_not.mpr hv)]
      split <;> first | contradiction | rfl
  · refine Or.inl ⟨if_neg fun h => hv h.1, some .badVersion, false, fun req => ?_⟩
    rw [decodeContent, if_pos hv]

/-- The content of a record decides alone whether the request is ready, and stores in
`next_ready` what the parameters say. -/
theorem decodeContent_nextReady {req req' : Request} {r : FcgiRecord} {err : Option FcgiError}
    {isReady : Bool} (h : decodeContent req r = some (req', err, isReady)) :
    (isReady || err.isSome) = recordReady r ∧
      req' (text "next_ready") =
        (nextReadyParams r).foldl (fun _ v => .string v) (req (text "next_ready")) := by
  unfold recordReady
  rcases decodeContent_cases r with ⟨hp, e, b, hrun⟩ | ⟨hp, hrun⟩ | ⟨hp, hrun⟩ | ⟨hp, hrun⟩
  · rw [hrun] at h
    obtain ⟨rfl, rfl, rfl⟩ := by simpa using h
    rw [hp, hrun]
    exact ⟨rfl, rfl⟩
  · rw [hrun] at h
    obtain ⟨rfl, rfl, rfl⟩ := by simpa using h
    rw [hp, hrun, decodeBeginRequest_error req fun _ => .nil]
    exact ⟨rfl, decodeBeginRequest_nextReady req r.2⟩
  · rw [hrun] at h
    obtain ⟨rfl, rfl, rfl⟩ := by simpa using h
    rw [hp, hrun]
    exact ⟨rfl, setParams_apply req _ _⟩
  · rw [hrun] at h
    obtain ⟨q, hq, heq⟩ := Option.map_eq_some_iff.mp h
    obtain ⟨rfl, rfl, rfl⟩ := by simpa using heq
    rw [hp, hrun]
    exact ⟨rfl, decodeStdin_nextReady hq⟩

/-- A record acts on the chain by its events. -/
theorem decodeRecord_links {d d' : FcgiDecoder} {r : FcgiRecord}
    (h : d.decodeRecord r = some d') :
    d'.links = d.links.run .integer (recordEvents r) := by
  obtain ⟨⟨req, err, isReady⟩, hcontent, rfl⟩ := Option.map_eq_some_iff.mp h
  obtain ⟨hready, hlink⟩ := decodeContent_nextReady hcontent
  have hold : ((d.chan r.1.requestId).getD (newRequest r.1.requestId)) (text "next_ready") =
      nextReady d.chan r.1.requestId := by
    unfold nextReady
    cases d.chan r.1.requestId with
    | none =>
        rw [Option.getD_none, newRequest,
          Function.update_of_ne (show text "next_ready" ≠ text "channel" by decide),
          Function.update_of_ne (show text "next_ready" ≠ text "id" by decide)]
    | some req => rfl
  have hspoils : d.links.run .integer
      ((nextReadyParams r).map fun v => .spoil r.1.requestId (.string v)) =
        ⟨readyValue d.ready, Function.update (nextReady d.chan) r.1.requestId
          (req (text "next_ready"))⟩ := by
    have hmap : (nextReadyParams r).map (fun v => StackEvent.spoil r.1.requestId (.string v)) =
        ((nextReadyParams r).map LuaValue.string).map (.spoil r.1.requestId) := by
      rw [List.map_map]
      rfl
    rw [hmap, run_spoils, List.foldl_map, hlink, hold]
    rfl
  rw [recordEvents, run_append, hspoils]
  dsimp only
  rw [hready]
  have hnext : ∀ req', nextReady (Function.update d.chan r.1.requestId (some req')) =
      Function.update (nextReady d.chan) r.1.requestId (req' (text "next_ready")) := by
    intro req'
    funext x
    by_cases hx : x = r.1.requestId
    · subst hx
      simp [nextReady]
    · simp [nextReady, Function.update_of_ne hx]
  cases hr : recordReady r with
  | false => simp [FcgiDecoder.links, hnext, LinkStack.run]
  | true => simp [FcgiDecoder.links, hnext, LinkStack.run, LinkStack.apply, readyValue]

/-- So do the records of a buffer. -/
theorem foldlM_links {rs : List FcgiRecord} {d d' : FcgiDecoder}
    (h : rs.foldlM FcgiDecoder.decodeRecord d = some d') :
    d'.links = d.links.run .integer (rs.flatMap recordEvents) := by
  induction rs generalizing d with
  | nil => rw [Option.some.inj h]; rfl
  | cons r rs ih =>
      rw [List.foldlM_cons] at h
      obtain ⟨d₁, hr, hrs⟩ := Option.bind_eq_some_iff.mp h
      rw [ih hrs, decodeRecord_links hr, List.flatMap_cons, run_append]

theorem fcgiDecode_links {chan : Channel} {bs rest : List UInt8} {d : FcgiDecoder}
    (h : fcgiDecode chan bs = some (d, rest)) :
    d.links = LinkStack.run .integer ⟨.nil, nextReady chan⟩ (readyEvents bs) ∧
      rest = fcgiFraming.tail bs := by
  rw [fcgiDecode_eq] at h
  obtain ⟨d', hrun, heq⟩ := Option.map_eq_some_iff.mp h
  obtain ⟨rfl, rfl⟩ := Prod.mk.inj heq
  exact ⟨foldlM_links hrun, rfl⟩

theorem pushed_recordEvents (r : FcgiRecord) :
    pushed (recordEvents r) = if recordReady r then [r.1.requestId] else [] := by
  have hspoils : ∀ vs : List (List UInt8),
      pushed (vs.map fun v => StackEvent.spoil r.1.requestId (LuaValue.string v)) = [] := by
    intro vs
    induction vs with
    | nil => rfl
    | cons v vs ih => exact ih
  rw [recordEvents, pushed_append, hspoils]
  cases recordReady r <;> rfl

theorem pushed_readyEvents (bs : List UInt8) : pushed (readyEvents bs) = completed bs := by
  rw [readyEvents, completed]
  induction fcgiFraming.records bs with
  | nil => rfl
  | cons r rs ih =>
      rw [List.flatMap_cons, pushed_append, ih, pushed_recordEvents, List.filter_cons]
      cases recordReady r <;> rfl

/-- Only strings are stored over a link. -/
theorem spoil_mem_readyEvents {bs : List UInt8} {x : ℕ} {v : LuaValue}
    (h : .spoil x v ∈ readyEvents bs) : ∃ s, v = .string s := by
  obtain ⟨r, -, hr⟩ := List.mem_flatMap.mp h
  rcases List.mem_append.mp hr with hr | hr
  · obtain ⟨s, -, hs⟩ := List.mem_map.mp hr
    exact ⟨s, (StackEvent.spoil.inj hs).2.symm⟩
  · split at hr
    · exact absurd (List.mem_singleton.mp hr) (by simp)
    · exact absurd hr List.not_mem_nil

theorem integer_injective : Function.Injective LuaValue.integer := fun _ _ => LuaValue.integer.inj

theorem integer_ne_nil (n : ℕ) : LuaValue.integer n ≠ .nil := by simp

theorem foreign_of_mem {bs : List UInt8} (x : ℕ) (v : LuaValue)
    (h : .spoil x v ∈ readyEvents bs) : v ≠ .nil ∧ ∀ n, LuaValue.integer n ≠ v := by
  obtain ⟨s, rfl⟩ := spoil_mem_readyEvents h
  simp

/-! ## The ready chain -/

/-- Following `next_ready` from the returned id ends at `nil` and meets the requests
that have completed or failed in the call, each once, and no other. -/
def ReadySound (bs : List UInt8) (d : FcgiDecoder) : Prop :=
  ∃ l, Path .integer (nextReady d.chan) (readyValue d.ready) l .nil ∧ l.Nodup ∧
    ∀ x, x ∈ l ↔ x ∈ completed bs

/-- The chain is sound if and only if no request completes or fails twice in the call,
and none gets a parameter named `next_ready` after it has completed or failed. -/
theorem readySound_iff_clean {chan : Channel} {bs rest : List UInt8} {d : FcgiDecoder}
    (h : fcgiDecode chan bs = some (d, rest)) : ReadySound bs d ↔ Clean (readyEvents bs) := by
  obtain ⟨hlinks, -⟩ := fcgiDecode_links h
  have hhead : readyValue d.ready = _ := congrArg LinkStack.head hlinks
  have hnext : nextReady d.chan = _ := congrArg LinkStack.next hlinks
  unfold ReadySound
  rw [hhead, hnext]
  constructor
  · rintro ⟨l, hpath, -, -⟩
    exact (exists_null_path_iff integer_injective integer_ne_nil foreign_of_mem rfl).mp ⟨l, hpath⟩
  · intro hclean
    have hpath : Path LuaValue.integer _ _ _ .nil := path_of_clean hclean ⟨.nil, nextReady chan⟩
    refine ⟨_, hpath, hpath.nodup_of integer_injective integer_ne_nil, fun x => ?_⟩
    rw [List.mem_reverse, pushed_readyEvents]

/-- The empty STDIN record of a request. -/
def stdinEnd (id : UInt8) : List UInt8 := [1, 5, 0, id, 0, 0, 0, 0]

theorem readySound_iff_clean_twoRequests :
    ∃ d rest, fcgiDecode (fun _ => none) (stdinEnd 1 ++ stdinEnd 2) = some (d, rest) ∧
      ReadySound (stdinEnd 1 ++ stdinEnd 2) d := by
  have hsome : (fcgiDecode (fun _ => none) (stdinEnd 1 ++ stdinEnd 2)).isSome := by decide +kernel
  obtain ⟨⟨d, rest⟩, hrun⟩ := Option.isSome_iff_exists.mp hsome
  exact ⟨d, rest, hrun, (readySound_iff_clean hrun).mpr (by decide +kernel)⟩

/-- Two empty STDIN records of one request: it becomes its own successor. -/
theorem repeated_stdin_cycles :
    ∃ d rest, fcgiDecode (fun _ => none) (stdinEnd 1 ++ stdinEnd 1) = some (d, rest) ∧
      ¬ReadySound (stdinEnd 1 ++ stdinEnd 1) d := by
  have hobs : (fcgiDecode (fun _ => none) (stdinEnd 1 ++ stdinEnd 1)).map
      (fun p => (p.1.ready, nextReady p.1.chan 1)) = some (some 1, .integer 1) := by
    decide +kernel
  obtain ⟨⟨d, rest⟩, hrun, hlinks⟩ := Option.map_eq_some_iff.mp hobs
  obtain ⟨hready, hnext⟩ := Prod.mk.inj hlinks
  refine ⟨d, rest, hrun, ?_⟩
  rintro ⟨l, hpath, -⟩
  have hcycle : Path .integer (nextReady d.chan) (readyValue d.ready) [1] (.integer 1) := by
    rw [hready]
    exact ⟨rfl, hnext⟩
  refine hcycle.not_of_cycle integer_injective integer_ne_nil (integer_ne_nil 1) ?_ hpath
  intro b hb
  exact List.mem_singleton.mpr (LuaValue.integer.inj hb).symm

end LuaSys.Isa
