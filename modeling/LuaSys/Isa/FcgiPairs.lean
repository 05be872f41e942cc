import LuaSys.Isa.FcgiDecode

/-!
# The name and value pairs of FastCGI

The format of the parameters is said without the decoder: a pair is the length of the
name, the length of the value, the name and the value, and a length is one byte below 128
or four bytes with the top bit set.

`fcgi_decode_params` is modelled with its pointer: a byte outside the content would be
`none`.  It reads no such byte and comes to an end.  What it accepts is the format but for
one case: after a length of four bytes it wants one byte more.  Behind the length of a name
there always is one, the length of the value.  Behind the length of a value there is none
if the name and the value are empty and the pair is the last one.

## Main definitions

* `IsLength`, `ParamPair` — lengths and pairs, with what makes them well formed.
* `wireAll` — the bytes of a list of pairs.
* `fcgiDecodeParams` — the function of the source, with its pointer.
* `EndsLongEmpty` — the content ends with an empty pair in the long form.

## Main results

* `fcgiDecodeParams_eq` — the pointer stays inside the content.
* `paramsExact_iff` — the format is accepted exactly unless it ends in this way.
-/

namespace LuaSys.Isa

open LuaSys.Lib

/-! ## The format -/

/-- The bytes of a length: one byte below 128, or four bytes with the top bit set. -/
inductive IsLength : List UInt8 → ℕ → Prop
  | short (b : UInt8) (h : b.toNat < 128) : IsLength [b] b.toNat
  | long (b₃ b₂ b₁ b₀ : UInt8) (h : 128 ≤ b₃.toNat) : IsLength [b₃, b₂, b₁, b₀]
      ((((b₃.toNat - 128) * 256 + b₂.toNat) * 256 + b₁.toNat) * 256 + b₀.toNat)

/-- A pair with the bytes of its lengths. -/
structure ParamPair where
  nameLen : List UInt8
  valueLen : List UInt8
  name : List UInt8
  value : List UInt8
  isNameLen : IsLength nameLen name.length
  isValueLen : IsLength valueLen value.length

namespace ParamPair

/-- The bytes of a pair. -/
def wire (p : ParamPair) : List UInt8 := p.nameLen ++ p.valueLen ++ p.name ++ p.value

/-- The name and the value. -/
def pair (p : ParamPair) : List UInt8 × List UInt8 := (p.name, p.value)

/-- A pair without a name and a value, whose value has the long form of its length. -/
def LongEmpty (p : ParamPair) : Prop := p.name = [] ∧ p.value = [] ∧ p.valueLen.length = 4

end ParamPair

/-- The bytes of a list of pairs. -/
def pairBytes (ps : List ParamPair) : List UInt8 := ps.flatMap ParamPair.wire

/-- The content ends with an empty pair in the long form. -/
def EndsLongEmpty (content : List UInt8) : Prop :=
  ∃ ps p, content = pairBytes (ps ++ [p]) ∧ p.LongEmpty

/-! ## The function -/

/-- The `n` bytes at `cp`, as `lua_pushlstring` reads them. -/
def bytesAt (content : List UInt8) (cp n : ℕ) : Option (List UInt8) :=
  if cp + n ≤ content.length then some ((content.drop cp).take n) else none

/-- The length at `cp` and the pointer behind it; the inner `none` is "bad content". -/
def lengthAt (content : List UInt8) (cp : ℕ) : Option (Option (ℕ × ℕ)) := do
  let len ← content[cp]?
  let cp := cp + 1
  if len &&& 0x80 ≠ 0 then
    if cp + 3 ≥ content.length then some none
    else do
      let b₂ ← content[cp]?
      let b₁ ← content[cp + 1]?
      let b₀ ← content[cp + 2]?
      some (some ((((len ^^^ 0x80).toNat * 256 + b₂.toNat) * 256 + b₁.toNat) * 256 + b₀.toNat,
        cp + 3))
  else some (some (len.toNat, cp))

/-- `fcgi_decode_params` from `cp` on: the request table and the error.  A byte outside the
content is `none`, and so is a loop that does not end. -/
def fcgiDecodeParams (content : List UInt8) :
    (fuel cp : ℕ) → Request → Option (Request × Option FcgiError)
  | 0, _, _ => none
  | fuel + 1, cp, req =>
      if cp < content.length then do
        match ← lengthAt content cp with
        | none => some (req, some .badContent)
        | some (nameLen, cp) =>
            if cp ≥ content.length then some (req, some .badContent)
            else do
              match ← lengthAt content cp with
              | none => some (req, some .badContent)
              | some (valueLen, cp) =>
                  if cp + nameLen + valueLen > content.length then some (req, some .badContent)
                  else do
                    let name ← bytesAt content cp nameLen
                    let value ← bytesAt content (cp + nameLen) valueLen
                    fcgiDecodeParams content fuel (cp + nameLen + valueLen)
                      (Function.update req name (.string value))
      else some (req, none)

/-- What the function should do with a content: it ends without reading a byte outside,
it returns no error exactly if the content is a list of pairs, and then it stores these. -/
def ParamsExact (content : List UInt8) (req : Request) : Prop :=
  ∃ out, (∀ fuel, content.length < fuel → fcgiDecodeParams content fuel 0 req = some out) ∧
    (out.2 = none ↔ ∃ ps, content = pairBytes ps) ∧
    ∀ ps, content = pairBytes ps → out.2 = none → out.1 = setParams req (ps.map ParamPair.pair)

/-! ## Lengths -/

/-- The top bit of a byte. -/
theorem topBit (b : UInt8) :
    (b &&& 0x80 ≠ 0 ↔ 128 ≤ b.toNat) ∧ (128 ≤ b.toNat → (b ^^^ 0x80).toNat = b.toNat - 128) := by
  have hall : ∀ n : Fin 256, (UInt8.ofNat n &&& 0x80 ≠ 0 ↔ 128 ≤ (UInt8.ofNat n).toNat) ∧
      (128 ≤ (UInt8.ofNat n).toNat → (UInt8.ofNat n ^^^ 0x80).toNat = (UInt8.ofNat n).toNat - 128) := by
    decide +kernel
  have hb := hall ⟨b.toNat, b.toNat_lt⟩
  rwa [UInt8.ofNat_toNat] at hb

/-- The bytes of a length are not empty, and the first one decides about the form. -/
theorem IsLength.paramLen {bs : List UInt8} {n : ℕ} (h : IsLength bs n) (rest : List UInt8) :
    ∃ b tail, bs = b :: tail ∧ paramLen b (tail ++ rest) =
      if bs.length = 4 ∧ rest = [] then none else some (n, rest) := by
  cases h with
  | short b h =>
      refine ⟨b, [], rfl, ?_⟩
      have hbit : ¬b &&& 0x80 ≠ 0 := by
        rw [(topBit b).1]
        omega
      unfold Isa.paramLen
      rw [if_neg hbit, if_neg (by simp), List.nil_append]
  | long b₃ b₂ b₁ b₀ h =>
      refine ⟨b₃, [b₂, b₁, b₀], rfl, ?_⟩
      unfold Isa.paramLen
      rw [if_pos ((topBit b₃).1.mpr h)]
      cases rest with
      | nil =>
          rw [if_pos ⟨rfl, rfl⟩]
          rfl
      | cons b rest =>
          rw [if_neg (by simp), ← (topBit b₃).2 h]
          rfl

/-- What is read as a length is one. -/
theorem isLength_of_paramLen {b : UInt8} {cp rest : List UInt8} {n : ℕ}
    (h : paramLen b cp = some (n, rest)) : ∃ bs, IsLength bs n ∧ b :: cp = bs ++ rest := by
  unfold paramLen at h
  split at h
  · rename_i hbit
    have hlong := (topBit b).1.mp hbit
    split at h
    · rename_i b₂ b₁ b₀ next cp
      obtain ⟨rfl, rfl⟩ := Prod.mk.inj (Option.some.inj h)
      rw [(topBit b).2 hlong]
      exact ⟨[b, b₂, b₁, b₀], .long b b₂ b₁ b₀ hlong, rfl⟩
    · exact absurd h (by simp)
  · rename_i hbit
    obtain ⟨rfl, rfl⟩ := Prod.mk.inj (Option.some.inj h)
    refine ⟨[b], .short b ?_, rfl⟩
    rw [(topBit b).1] at hbit
    omega

theorem IsLength.pos {bs : List UInt8} {n : ℕ} (h : IsLength bs n) : 0 < bs.length := by
  cases h with
  | short b h => exact Nat.one_pos
  | long b₃ b₂ b₁ b₀ h => exact Nat.succ_pos 3

/-! ## One pair -/

theorem ParamPair.wire_pos (p : ParamPair) : 0 < p.wire.length := by
  have hpos := p.isNameLen.pos
  simp only [wire, List.length_append]
  omega

/-- The first pair of a content is read, unless it is a long empty one and the last. -/
theorem ParamPair.nextParam (p : ParamPair) (rest : List UInt8) :
    ∃ b tail, p.wire ++ rest = b :: tail ∧ Isa.nextParam (p.wire ++ rest) =
      if p.valueLen.length = 4 ∧ p.name ++ p.value ++ rest = [] then none
      else some (p.pair, rest) := by
  obtain ⟨v, vtail, hv, hvalue⟩ := p.isValueLen.paramLen (p.name ++ p.value ++ rest)
  obtain ⟨b, tail, hb, hname⟩ := p.isNameLen.paramLen (p.valueLen ++ (p.name ++ p.value ++ rest))
  have hwire : p.wire ++ rest = b :: (tail ++ (p.valueLen ++ (p.name ++ p.value ++ rest))) := by
    rw [wire, hb]
    simp only [List.append_assoc, List.cons_append]
  -- Behind the length of the name stands that of the value.
  have hnext : p.valueLen ++ (p.name ++ p.value ++ rest) =
      v :: (vtail ++ (p.name ++ p.value ++ rest)) := by
    rw [hv, List.cons_append]
  refine ⟨b, _, hwire, ?_⟩
  rw [hnext] at hname
  rw [if_neg (by simp)] at hname
  rw [hwire, hnext, Isa.nextParam, hname]
  dsimp only
  rw [hvalue]
  by_cases hlast : p.valueLen.length = 4 ∧ p.name ++ p.value ++ rest = []
  · rw [if_pos hlast, if_pos hlast]
  · rw [if_neg hlast, if_neg hlast]
    dsimp only
    have hfits : ¬p.name.length + p.value.length > (p.name ++ p.value ++ rest).length := by
      rw [List.length_append, List.length_append]
      omega
    have hdrop : (p.name ++ p.value ++ rest).drop (p.name.length + p.value.length) = rest := by
      rw [← List.length_append, List.drop_left]
    rw [if_neg hfits, hdrop, List.append_assoc, List.take_left, List.drop_left, List.take_left]
    rfl

/-- What is read as a pair is one. -/
theorem paramPair_of_nextParam {bs rest : List UInt8} {pair : List UInt8 × List UInt8}
    (h : nextParam bs = some (pair, rest)) :
    ∃ p : ParamPair, bs = p.wire ++ rest ∧ p.pair = pair := by
  cases bs with
  | nil => exact absurd h (by simp [nextParam])
  | cons b cp =>
      rw [nextParam] at h
      cases hname : paramLen b cp with
      | none =>
          rw [hname] at h
          exact absurd h (by simp)
      | some first =>
          obtain ⟨n, behind⟩ := first
          rw [hname] at h
          cases behind with
          | nil => exact absurd h (by simp)
          | cons c cp' =>
              dsimp only at h
              cases hvalue : paramLen c cp' with
              | none =>
                  rw [hvalue] at h
                  exact absurd h (by simp)
              | some second =>
                  obtain ⟨m, body⟩ := second
                  rw [hvalue] at h
                  dsimp only at h
                  split at h
                  · exact absurd h (by simp)
                  · rename_i hfits
                    obtain ⟨rfl, rfl⟩ := Prod.mk.inj (Option.some.inj h)
                    obtain ⟨nameLen, hn, hsplit⟩ := isLength_of_paramLen hname
                    obtain ⟨valueLen, hm, hsplit'⟩ := isLength_of_paramLen hvalue
                    have hnameLen : (body.take n).length = n := by
                      rw [List.length_take]
                      omega
                    have hvalueLen : ((body.drop n).take m).length = m := by
                      rw [List.length_take, List.length_drop]
                      omega
                    refine ⟨⟨nameLen, valueLen, body.take n, (body.drop n).take m, ?_, ?_⟩, ?_, rfl⟩
                    · rwa [hnameLen]
                    · rwa [hvalueLen]
                    · rw [hsplit, hsplit', ParamPair.wire]
                      simp only [List.append_assoc]
                      rw [← List.drop_drop, List.take_append_drop, List.take_append_drop]

theorem length_lt_of_nextParam {bs rest : List UInt8} {pair : List UInt8 × List UInt8}
    (h : nextParam bs = some (pair, rest)) : rest.length < bs.length := by
  obtain ⟨p, hwire, -⟩ := paramPair_of_nextParam h
  have hpos := p.wire_pos
  rw [hwire, List.length_append]
  omega

/-! ## All pairs -/

/-- The fuel of `decodePairs` is the number of bytes; more does not matter. -/
theorem decodePairs_fuel {fuel : ℕ} {bs : List UInt8} (h : bs.length ≤ fuel) :
    decodePairs fuel bs = decodePairs bs.length bs := by
  induction fuel using Nat.strongRecOn generalizing bs with
  | _ fuel ih =>
      cases bs with
      | nil =>
          cases fuel with
          | zero => rfl
          | succ fuel => rfl
      | cons b cp =>
          obtain ⟨fuel, rfl⟩ : ∃ k, fuel = k + 1 := ⟨fuel - 1, by simp at h; omega⟩
          rw [List.length_cons, decodePairs, decodePairs]
          cases hnext : nextParam (b :: cp) with
          | none => rfl
          | some first =>
              obtain ⟨pair, rest⟩ := first
              have hshort : rest.length ≤ cp.length := Nat.le_of_lt_succ (length_lt_of_nextParam hnext)
              rw [List.length_cons] at h
              dsimp only
              rw [ih fuel (by omega) (show rest.length ≤ fuel by omega),
                ← ih cp.length (by omega) hshort]

/-- The pairs and the error of a content. -/
def pairsOf (content : List UInt8) : List (List UInt8 × List UInt8) × Option FcgiError :=
  decodePairs content.length content

theorem pairsOf_nil : pairsOf [] = ([], none) := rfl

/-- The pairs of a content that starts with a pair. -/
theorem pairsOf_of_some {bs rest : List UInt8} {pair : List UInt8 × List UInt8}
    (h : nextParam bs = some (pair, rest)) :
    pairsOf bs = (pair :: (pairsOf rest).1, (pairsOf rest).2) := by
  cases bs with
  | nil => exact absurd h (by simp [nextParam])
  | cons b cp =>
      have hshort : rest.length ≤ cp.length := Nat.le_of_lt_succ (length_lt_of_nextParam h)
      rw [pairsOf, List.length_cons, decodePairs, h]
      dsimp only
      rw [decodePairs_fuel hshort]
      rfl

theorem pairsOf_of_none {bs : List UInt8} (hne : bs ≠ []) (h : nextParam bs = none) :
    pairsOf bs = ([], some .badContent) := by
  cases bs with
  | nil => exact absurd rfl hne
  | cons b cp => rw [pairsOf, List.length_cons, decodePairs, h]

/-- The bytes of pairs are decoded to them, but for a long empty pair at the end. -/
theorem pairsOf_pairBytes (ps : List ParamPair) :
    ((∀ p ∈ ps.getLast?, ¬p.LongEmpty) → pairsOf (pairBytes ps) = (ps.map ParamPair.pair, none)) ∧
      ((∃ p ∈ ps.getLast?, p.LongEmpty) → (pairsOf (pairBytes ps)).2 ≠ none) := by
  induction ps with
  | nil => exact ⟨fun _ => rfl, fun ⟨p, hp, _⟩ => absurd hp (by simp)⟩
  | cons p ps ih =>
      have hbytes : pairBytes (p :: ps) = p.wire ++ pairBytes ps := List.flatMap_cons ..
      obtain ⟨b, tail, hwire, hnext⟩ := p.nextParam (pairBytes ps)
      rw [hbytes]
      cases ps with
      | nil =>
          have hiff : p.valueLen.length = 4 ∧ p.name ++ p.value ++ pairBytes [] = [] ↔ p.LongEmpty := by
            rw [pairBytes, List.flatMap_nil, List.append_nil, List.append_eq_nil_iff,
              ParamPair.LongEmpty, and_comm, and_assoc]
          have hlast : ∀ q, q ∈ [p].getLast? ↔ q = p := by
            intro q
            simp [eq_comm]
          constructor
          · intro hnot
            rw [if_neg fun hboth => hnot p ((hlast p).mpr rfl) (hiff.mp hboth)] at hnext
            rw [pairsOf_of_some hnext]
            rfl
          · rintro ⟨q, hq, hempty⟩
            obtain rfl := (hlast q).mp hq
            rw [if_pos (hiff.mpr hempty)] at hnext
            rw [pairsOf_of_none (by rw [hwire]; simp) hnext]
            simp
      | cons q qs =>
          -- A pair follows, so that there is one byte more.
          have hmore : p.name ++ p.value ++ pairBytes (q :: qs) ≠ [] := by
            have hpos := q.wire_pos
            intro hnil
            have hlength := congrArg List.length hnil
            simp only [pairBytes, List.flatMap_cons, List.length_append, List.length_nil] at hlength
            omega
          rw [if_neg fun hboth => hmore hboth.2] at hnext
          have hlast : (p :: q :: qs).getLast? = (q :: qs).getLast? := List.getLast?_cons_cons
          rw [pairsOf_of_some hnext, hlast]
          constructor
          · intro hnot
            rw [ih.1 hnot]
            rfl
          · exact ih.2

/-- A content without an error is a list of pairs. -/
theorem pairBytes_of_pairsOf {content : List UInt8} (h : (pairsOf content).2 = none) :
    ∃ ps, content = pairBytes ps ∧ (∀ p ∈ ps.getLast?, ¬p.LongEmpty) ∧
      (pairsOf content).1 = ps.map ParamPair.pair := by
  have hps : ∃ ps, content = pairBytes ps := by
    induction hlen : content.length using Nat.strongRecOn generalizing content with
    | _ n ih =>
        by_cases hnil : content = []
        · exact ⟨[], hnil⟩
        · cases hnext : nextParam content with
          | none =>
              rw [pairsOf_of_none hnil hnext] at h
              exact absurd h (by simp)
          | some first =>
              obtain ⟨pair, rest⟩ := first
              rw [pairsOf_of_some hnext] at h
              obtain ⟨p, hwire, -⟩ := paramPair_of_nextParam hnext
              obtain ⟨ps, hrest⟩ := ih rest.length (hlen ▸ length_lt_of_nextParam hnext) h rfl
              refine ⟨p :: ps, ?_⟩
              rw [hwire, hrest]
              rfl
  obtain ⟨ps, rfl⟩ := hps
  have hlast : ∀ p ∈ ps.getLast?, ¬p.LongEmpty := by
    intro p hp hempty
    exact (pairsOf_pairBytes ps).2 ⟨p, hp, hempty⟩ h
  refine ⟨ps, rfl, hlast, ?_⟩
  rw [(pairsOf_pairBytes ps).1 hlast]

/-! ## The pointer -/

section Pointer

variable {content tail : List UInt8} {b : UInt8} {cp : ℕ}

theorem length_of_drop (h : content.drop cp = b :: tail) :
    cp < content.length ∧ content.length = cp + 1 + tail.length := by
  have hlength := congrArg List.length h
  rw [List.length_drop, List.length_cons] at hlength
  omega

theorem getElem?_of_drop (h : content.drop cp = b :: tail) (j : ℕ) :
    content[cp + j]? = (b :: tail)[j]? := by
  rw [← h, List.getElem?_drop]

theorem drop_succ_of_drop (h : content.drop cp = b :: tail) : content.drop (cp + 1) = tail := by
  rw [← List.drop_drop, h, List.drop_one, List.tail_cons]

/-- The length at the pointer is the one at the front of what is left. -/
theorem lengthAt_eq (h : content.drop cp = b :: tail) :
    (paramLen b tail = none → lengthAt content cp = some none) ∧
      ∀ n rest, paramLen b tail = some (n, rest) → ∃ cp', lengthAt content cp = some (some (n, cp')) ∧
        content.drop cp' = rest ∧ cp < cp' ∧ cp' ≤ content.length := by
  obtain ⟨-, hlength⟩ := length_of_drop h
  have hfirst : content[cp]? = some b := getElem?_of_drop h 0
  have hbehind := drop_succ_of_drop h
  unfold lengthAt paramLen
  rw [hfirst, Option.bind_eq_bind, Option.bind_some]
  dsimp only
  by_cases hbit : b &&& 0x80 ≠ 0
  · rw [if_pos hbit, if_pos hbit]
    by_cases hshort : cp + 1 + 3 ≥ content.length
    · rw [if_pos hshort]
      refine ⟨fun _ => rfl, fun n rest hsome => ?_⟩
      split at hsome
      · rw [List.length_cons, List.length_cons, List.length_cons, List.length_cons] at hlength
        omega
      · exact absurd hsome (by simp)
    · rw [if_neg hshort]
      obtain ⟨b₂, b₁, b₀, next, more, rfl⟩ :
          ∃ b₂ b₁ b₀ next more, tail = b₂ :: b₁ :: b₀ :: next :: more := by
        match tail with
        | b₂ :: b₁ :: b₀ :: next :: more => exact ⟨b₂, b₁, b₀, next, more, rfl⟩
        | [] | [_] | [_, _] | [_, _, _] => simp at hlength; omega
      have h₂ : content[cp + 1]? = some b₂ := getElem?_of_drop h 1
      have h₁ : content[cp + 1 + 1]? = some b₁ := getElem?_of_drop h 2
      have h₀ : content[cp + 1 + 2]? = some b₀ := getElem?_of_drop h 3
      refine ⟨fun hnone => absurd hnone (by simp), fun n rest hsome => ?_⟩
      obtain ⟨rfl, rfl⟩ := Prod.mk.inj (Option.some.inj hsome)
      refine ⟨cp + 1 + 3, ?_, ?_, by omega, by omega⟩
      · rw [h₂, Option.bind_some, h₁, Option.bind_some, h₀, Option.bind_some]
      · rw [← List.drop_drop, hbehind]
        rfl
  · rw [if_neg hbit, if_neg hbit]
    refine ⟨fun hnone => absurd hnone (by simp), fun n rest hsome => ?_⟩
    obtain ⟨rfl, rfl⟩ := Prod.mk.inj (Option.some.inj hsome)
    exact ⟨cp + 1, rfl, hbehind, by omega, by omega⟩

theorem bytesAt_eq {n : ℕ} (h : cp + n ≤ content.length) :
    bytesAt content cp n = some ((content.drop cp).take n) := if_pos h

/-- One round of the loop takes the pair at the front of what is left. -/
theorem fcgiDecodeParams_step (h : content.drop cp = b :: tail) (fuel : ℕ) (req : Request) :
    (nextParam (b :: tail) = none →
        fcgiDecodeParams content (fuel + 1) cp req = some (req, some .badContent)) ∧
      ∀ pair rest, nextParam (b :: tail) = some (pair, rest) → ∃ cp', content.drop cp' = rest ∧
        cp < cp' ∧ cp' ≤ content.length ∧ fcgiDecodeParams content (fuel + 1) cp req =
          fcgiDecodeParams content fuel cp' (Function.update req pair.1 (.string pair.2)) := by
  obtain ⟨hlt, -⟩ := length_of_drop h
  obtain ⟨hnone, hsome⟩ := lengthAt_eq h
  rw [fcgiDecodeParams, if_pos hlt]
  cases hname : paramLen b tail with
  | none =>
      rw [hnone hname, nextParam, hname]
      exact ⟨fun _ => rfl, fun pair rest hnext => absurd hnext (by simp)⟩
  | some first =>
      obtain ⟨nameLen, rest⟩ := first
      obtain ⟨cp₁, hat, hrest, hcp₁, hle₁⟩ := hsome nameLen rest hname
      rw [hat, Option.bind_eq_bind, Option.bind_some]
      dsimp only
      cases hcase : rest with
      | nil =>
          rw [hcase] at hrest hname
          have hend : content.length ≤ cp₁ := List.drop_eq_nil_iff.mp hrest
          rw [if_pos hend, nextParam, hname]
          exact ⟨fun _ => rfl, fun pair rest hnext => absurd hnext (by simp)⟩
      | cons v vtail =>
          rw [hcase] at hrest hname
          obtain ⟨hlt₁, -⟩ := length_of_drop hrest
          obtain ⟨hnone', hsome'⟩ := lengthAt_eq hrest
          rw [if_neg (by omega), nextParam, hname]
          dsimp only
          cases hvalue : paramLen v vtail with
          | none =>
              rw [hnone' hvalue]
              exact ⟨fun _ => rfl, fun pair rest hnext => absurd hnext (by simp)⟩
          | some second =>
              obtain ⟨valueLen, body⟩ := second
              obtain ⟨cp₂, hat', hbody, hcp₂, hle₂⟩ := hsome' valueLen body hvalue
              have hlength : content.length = cp₂ + body.length := by
                rw [← hbody, List.length_drop]
                omega
              rw [hat', Option.bind_some]
              dsimp only
              by_cases hlong : nameLen + valueLen > body.length
              · rw [if_pos hlong, if_pos (by omega)]
                exact ⟨fun _ => rfl, fun pair rest hnext => absurd hnext (by simp)⟩
              · rw [if_neg hlong, if_neg (by omega), bytesAt_eq (by omega), Option.bind_eq_bind,
                  Option.bind_some, bytesAt_eq (by omega), Option.bind_some]
                refine ⟨fun hnext => absurd hnext (by simp), fun pair rest hnext => ?_⟩
                obtain ⟨rfl, rfl⟩ := Prod.mk.inj (Option.some.inj hnext)
                refine ⟨cp₂ + nameLen + valueLen, ?_, by omega, by omega, ?_⟩
                · rw [← hbody, List.drop_drop, Nat.add_assoc]
                · rw [hbody, ← List.drop_drop, hbody]

/-- From the pointer on, the function decodes the pairs of what is left.  It reads no byte
outside the content, and it ends. -/
theorem fcgiDecodeParams_eq (content : List UInt8) {fuel cp : ℕ} (hcp : cp ≤ content.length)
    (hfuel : content.length < cp + fuel) (req : Request) :
    fcgiDecodeParams content fuel cp req =
      some (setParams req (pairsOf (content.drop cp)).1, (pairsOf (content.drop cp)).2) := by
  induction fuel generalizing cp req with
  | zero => omega
  | succ fuel ih =>
      cases hdrop : content.drop cp with
      | nil =>
          have hend : content.length ≤ cp := List.drop_eq_nil_iff.mp hdrop
          rw [fcgiDecodeParams, if_neg (by omega), pairsOf_nil]
          rfl
      | cons b tail =>
          obtain ⟨hnone, hsome⟩ := fcgiDecodeParams_step hdrop fuel req
          cases hnext : nextParam (b :: tail) with
          | none =>
              rw [hnone hnext, pairsOf_of_none (by simp) hnext]
              rfl
          | some first =>
              obtain ⟨pair, rest⟩ := first
              obtain ⟨cp', hrest, hlt, hle, hrun⟩ := hsome pair rest hnext
              rw [hrun, ih hle (by omega), hrest, pairsOf_of_some hnext]
              rfl

/-- What the decoder of records uses is the whole content. -/
theorem fcgiDecodeParams_decodeParams (content : List UInt8) {fuel : ℕ}
    (hfuel : content.length < fuel) (req : Request) :
    fcgiDecodeParams content fuel 0 req = some (decodeParams req content) := by
  rw [fcgiDecodeParams_eq content (Nat.zero_le _) (by omega), List.drop_zero]
  rfl

end Pointer

/-- **The format is accepted, but for one case.**  For every content, `fcgi_decode_params`
ends without reading a byte outside, returns no error exactly if the content is a list of
pairs, and then stores these, if and only if the content does not end with a pair without
name and value whose value has the long form of its length. -/
theorem paramsExact_iff (content : List UInt8) (req : Request) :
    ParamsExact content req ↔ ¬EndsLongEmpty content := by
  have hrun : ∀ fuel, content.length < fuel → fcgiDecodeParams content fuel 0 req =
      some (setParams req (pairsOf content).1, (pairsOf content).2) := by
    intro fuel hfuel
    rw [fcgiDecodeParams_eq content (Nat.zero_le _) (by omega), List.drop_zero]
  constructor
  · rintro ⟨out, hout, hiff, -⟩ ⟨ps, p, hbytes, hempty⟩
    obtain rfl := Option.some.inj ((hrun _ (Nat.lt_succ_self _)).symm.trans (hout _ (Nat.lt_succ_self _)))
    have hnone : (pairsOf content).2 = none := hiff.mpr ⟨ps ++ [p], hbytes⟩
    rw [hbytes] at hnone
    exact (pairsOf_pairBytes (ps ++ [p])).2 ⟨p, by simp, hempty⟩ hnone
  · intro hnot
    -- No list of pairs with these bytes ends with a long empty one.
    have hlast : ∀ ps, content = pairBytes ps → ∀ p ∈ ps.getLast?, ¬p.LongEmpty := by
      intro ps hps p hp hempty
      obtain ⟨front, rfl⟩ := List.getLast?_eq_some_iff.mp hp
      exact hnot ⟨front, p, hps, hempty⟩
    refine ⟨_, hrun, ⟨fun hnone => ?_, ?_⟩, ?_⟩
    · obtain ⟨ps, hps, -⟩ := pairBytes_of_pairsOf hnone
      exact ⟨ps, hps⟩
    · rintro ⟨ps, hps⟩
      have hpairs := (pairsOf_pairBytes ps).1 (hlast ps hps)
      dsimp only
      rw [hps, hpairs]
    · intro ps hps _
      have hpairs := (pairsOf_pairBytes ps).1 (hlast ps hps)
      dsimp only
      rw [hps, hpairs]

/-- One pair without a name and a value, its value length in four bytes: five bytes that
follow the format and are refused. -/
theorem long_empty_pair_refused :
    fcgiDecodeParams [0, 0x80, 0, 0, 0] 6 0 (newRequest 1) =
        some (newRequest 1, some .badContent) ∧
      (∃ ps, [0, 0x80, 0, 0, 0] = pairBytes ps) ∧
      ¬ParamsExact [0, 0x80, 0, 0, 0] (newRequest 1) := by
  have hrun : fcgiDecodeParams [0, 0x80, 0, 0, 0] 6 0 (newRequest 1) =
      some (newRequest 1, some .badContent) := rfl
  have hpair : ∃ ps, [0, 0x80, 0, 0, 0] = pairBytes ps :=
    ⟨[⟨[0], [0x80, 0, 0, 0], [], [], .short 0 (by decide), .long 0x80 0 0 0 (by decide)⟩], rfl⟩
  refine ⟨hrun, hpair, ?_⟩
  rintro ⟨out, hout, hiff, -⟩
  obtain rfl := Option.some.inj (hrun.symm.trans (hout 6 (by decide)))
  exact absurd (hiff.mpr hpair) (by simp)

end LuaSys.Isa
