import LuaSys.Thread.Pipe
import Mathlib.Algebra.Ring.Nat

/-!
# The messages of a pipe

The model of `pipe_msg_build` and `pipe_msg_parse`.  A message is an array of items, each
of them a header with the type and the length of the value, and the value, padded to a
multiple of four bytes.  Offsets are relative to `msg->items`.

The header is `int type: 8` and `int len: 16` in one word, and the union behind it is
aligned for a pointer and a `lua_Number`, so it begins at the eighth byte.  What lies
between is never written.  An access outside of `items` is `none`.

The limit is checked for the unpadded length of a string, and for the size of the union
with all the other values.  Offsets and limit are multiples of four, so the padding of a
value that passes the check stays inside.

## Main definitions

* `LuaItem` — the values that are passed, as `lua_type` tells them apart.
* `pipeMsgBuild`, `pipeMsgParse` — the functions of the source.
* `Sendable` — the lists that fit into a message.
* `HoldsItems` — the bytes of a list of values.

## Main results

* `pipeMsgParse_build` — what is built is parsed to the same list.
-/

namespace LuaSys.Thread

open LuaSys.Lib

/-- `MSG_ITEM_ALIGN`. -/
def msgItemAlign : ℕ := 4

/-- `offsetof(struct message_item, v)`. -/
def msgItemHeader : ℕ := 8

/-- `sizeof(item->v)`. -/
def msgItemValue : ℕ := 8

/-- A Lua value.  A number is a `lua_Number` of 64 bits, a userdata its address, and other
values are told apart by nothing here. -/
inductive LuaItem
  | nil
  | boolean (b : Bool)
  | lightuserdata (ptr : UInt64)
  | number (num : UInt64)
  | string (str : List UInt8)
  | userdata (ptr : UInt64)
  | other
  deriving DecidableEq, Repr

namespace LuaItem

/-- The length that is compared with the limit. -/
def checkLen : LuaItem → ℕ
  | .string str => str.length
  | _ => msgItemValue

/-- The type and the bytes of the value; `none` for other types. -/
def encode : LuaItem → Option (UInt8 × List UInt8)
  | .nil => some (0, [])
  | .boolean b => some (1, [if b then 1 else 0])
  | .lightuserdata ptr => some (2, le64 ptr)
  | .number num => some (3, le64 num)
  | .string str => some (4, str)
  | .userdata ptr => some (7, le64 ptr)
  | .other => none

/-- The value on the other side: a userdata arrives as its address. -/
def received : LuaItem → LuaItem
  | .userdata ptr => .lightuserdata ptr
  | v => v

end LuaItem

/-- `(len + (MSG_ITEM_ALIGN-1)) & ~(MSG_ITEM_ALIGN-1)`. -/
def msgAlign (len : ℕ) : ℕ := (len + (msgItemAlign - 1)) / msgItemAlign * msgItemAlign

/-- The error of `luaL_argerror`. -/
structure MsgError where
  arg : ℕ
  text : String
  deriving DecidableEq, Repr

/-- A write to `items`. -/
def storeItems (items : Mem) (off : ℕ) (bs : List UInt8) : Option Mem :=
  if off + bs.length ≤ msgMaxSize then some (writeBytes items off bs) else none

/-- A read from `items`. -/
def loadItems (items : Mem) (off n : ℕ) : Option (List UInt8) :=
  if off + n ≤ msgMaxSize then some (readBytes items off n) else none

/-- `item->type` and `item->len`. -/
def itemHeader (type : UInt8) (len : ℕ) : List UInt8 := type :: le16 (len % 2 ^ 16)

/-- The loop of `pipe_msg_build` from the argument `idx` on, with the offset of `cp`. -/
def buildLoop (items : Mem) (cp idx : ℕ) : List LuaItem → Option (Except MsgError (Mem × ℕ))
  | [] => some (.ok (items, cp))
  | v :: vs =>
      if cp + msgItemHeader + v.checkLen ≥ msgMaxSize - msgItemAlign then
        some (.error ⟨idx, "too big message"⟩)
      else
        match v.encode with
        | none => some (.error ⟨idx, "primitive type expected"⟩)
        | some (type, bytes) => do
            let items ← storeItems items (cp + msgItemHeader) bytes
            let items ← storeItems items cp (itemHeader type bytes.length)
            buildLoop items (cp + msgItemHeader + msgAlign bytes.length) (idx + 1) vs

/-- `pipe_msg_build` of the values from `idx` on: the items and `msg->size`. -/
def pipeMsgBuild (items : Mem) (idx : ℕ) (vs : List LuaItem) :
    Option (Except MsgError (Mem × ℕ)) :=
  (buildLoop items 0 idx vs).map fun r => r.map fun p => (p.1, (2 + p.2) % 2 ^ 16)

/-- The value that `pipe_msg_parse` pushes for an item.  A string of a negative length is
undefined. -/
def parseItem (items : Mem) (cp : ℕ) (type : UInt8) (len : ℕ) : Option LuaItem :=
  let v := cp + msgItemHeader
  if type = 4 then (loadItems items v len).map .string
  else if type = 3 then (loadItems items v 8).map fun _ => .number (load64 items v)
  else if type = 1 then (loadItems items v 1).map fun _ => .boolean (items v ≠ 0)
  else if type = 0 then some .nil
  else (loadItems items v 8).map fun _ => .lightuserdata (load64 items v)

/-- The loop of `pipe_msg_parse`: the values and the offset at which it stops.  A negative
length, which moves back, is `none`. -/
def parseLoop (items : Mem) (endp : ℕ) : ℕ → ℕ → Option (List LuaItem × ℕ)
  | 0, _ => none
  | fuel + 1, cp =>
      if cp < endp then do
        let _ ← loadItems items cp 3
        let len := load16 items (cp + 1)
        if len ≥ 2 ^ 15 then none else
          let v ← parseItem items cp (items cp) len
          let (vs, stop) ← parseLoop items endp fuel (cp + msgItemHeader + msgAlign len)
          some (v :: vs, stop)
      else some ([], cp)

/-- `pipe_msg_parse` of a message: the values and the offset in `items` where it stops. -/
def pipeMsgParse (items : Mem) (size : ℕ) : Option (List LuaItem × ℕ) :=
  parseLoop items (size - 2) (size + 1) 0

/-! ## What fits into a message -/

namespace LuaItem

/-- The number of bytes of the value. -/
def valueLen (v : LuaItem) : ℕ := (v.encode.map fun p => p.2.length).getD 0

/-- The bytes that an item takes. -/
def itemSize (v : LuaItem) : ℕ := msgItemHeader + msgAlign v.valueLen

end LuaItem

/-- The bytes that the items of a list take. -/
def itemsSize (vs : List LuaItem) : ℕ := (vs.map LuaItem.itemSize).sum

/-- The values are primitive, and none of them comes to the limit behind those before it. -/
def FitsFrom (cp : ℕ) (vs : List LuaItem) : Prop :=
  ∀ pre v post, vs = pre ++ v :: post → v ≠ .other ∧
    cp + itemsSize pre + msgItemHeader + v.checkLen < msgMaxSize - msgItemAlign

/-- The values fit into one message. -/
def Sendable (vs : List LuaItem) : Prop := FitsFrom 0 vs

theorem itemsSize_cons (v : LuaItem) (vs : List LuaItem) :
    itemsSize (v :: vs) = v.itemSize + itemsSize vs := List.sum_cons

theorem fitsFrom_nil (cp : ℕ) : FitsFrom cp [] := by
  intro pre v post h
  simp at h

theorem fitsFrom_cons {cp : ℕ} {v : LuaItem} {vs : List LuaItem} :
    FitsFrom cp (v :: vs) ↔ (v ≠ .other ∧ cp + msgItemHeader + v.checkLen < msgMaxSize - msgItemAlign) ∧
      FitsFrom (cp + v.itemSize) vs := by
  constructor
  · intro h
    refine ⟨h [] v vs rfl, fun pre w post heq => ?_⟩
    have hw := h (v :: pre) w post (by rw [heq, List.cons_append])
    rw [itemsSize_cons, ← Nat.add_assoc cp] at hw
    exact hw
  · rintro ⟨hv, hvs⟩ pre w post heq
    cases pre with
    | nil =>
        obtain ⟨rfl, -⟩ := List.cons.inj heq
        exact hv
    | cons u pre =>
        obtain ⟨rfl, htail⟩ := List.cons.inj heq
        rw [itemsSize_cons, ← Nat.add_assoc cp]
        exact hvs pre w post htail

/-! ## One item -/

theorem msgAlign_spec (n : ℕ) : n ≤ msgAlign n ∧ msgAlign n < n + 4 ∧ msgAlign n % 4 = 0 := by
  simp only [msgAlign, msgItemAlign]
  omega

theorem itemSize_spec (v : LuaItem) : 8 ≤ v.itemSize ∧ v.itemSize % 4 = 0 := by
  have := msgAlign_spec v.valueLen
  simp only [LuaItem.itemSize, msgItemHeader]
  omega

namespace LuaItem

/-- The type and the bytes of a value that is not refused. -/
theorem exists_encode {v : LuaItem} (h : v ≠ .other) : ∃ type bytes, v.encode = some (type, bytes) ∧
    v.valueLen = bytes.length ∧ bytes.length ≤ v.checkLen := by
  cases v with
  | nil => exact ⟨_, _, rfl, rfl, Nat.zero_le _⟩
  | boolean b => exact ⟨_, _, rfl, rfl, Nat.le_of_ble_eq_true rfl⟩
  | lightuserdata ptr => exact ⟨_, _, rfl, rfl, le_refl 8⟩
  | number num => exact ⟨_, _, rfl, rfl, le_refl 8⟩
  | string str => exact ⟨_, _, rfl, rfl, le_refl _⟩
  | userdata ptr => exact ⟨_, _, rfl, rfl, le_refl 8⟩
  | other => exact absurd rfl h

end LuaItem

/-- An item with the header and the value at an offset. -/
def HoldsItem (items : Mem) (cp : ℕ) (v : LuaItem) : Prop :=
  ∃ type bytes, v.encode = some (type, bytes) ∧ bytes.length < 2 ^ 15 ∧
    readBytes items cp 3 = itemHeader type bytes.length ∧
    readBytes items (cp + msgItemHeader) bytes.length = bytes

/-- The items lie one behind the other. -/
def HoldsItems (items : Mem) : ℕ → List LuaItem → Prop
  | _, [] => True
  | cp, v :: vs => HoldsItem items cp v ∧ HoldsItems items (cp + v.itemSize) vs

variable {items items' : Mem} {cp : ℕ} {v : LuaItem} {vs : List LuaItem}

theorem HoldsItem.congr (h : HoldsItem items cp v)
    (heq : ∀ i, cp ≤ i → i < cp + v.itemSize → items' i = items i) : HoldsItem items' cp v := by
  obtain ⟨type, bytes, henc, hlen, hheader, hvalue⟩ := h
  have hval : v.valueLen = bytes.length := by rw [LuaItem.valueLen, henc]; rfl
  have halign := msgAlign_spec v.valueLen
  simp only [LuaItem.itemSize, msgItemHeader] at heq
  refine ⟨type, bytes, henc, hlen, ?_, ?_⟩
  · rw [← hheader]
    exact readBytes_congr fun i h₁ h₂ => heq i h₁ (by omega)
  · refine Eq.trans (readBytes_congr fun i h₁ h₂ => ?_) hvalue
    simp only [msgItemHeader] at h₁ h₂
    exact heq i (by omega) (by omega)

/-- The items depend on their own bytes only. -/
theorem HoldsItems.congr (h : HoldsItems items cp vs)
    (heq : ∀ i, cp ≤ i → i < cp + itemsSize vs → items' i = items i) : HoldsItems items' cp vs := by
  induction vs generalizing cp with
  | nil => trivial
  | cons v vs ih =>
      rw [itemsSize_cons] at heq
      refine ⟨h.1.congr fun i h₁ h₂ => heq i h₁ (by omega), ?_⟩
      exact ih h.2 fun i h₁ h₂ => heq i (by omega) (by omega)

/-- An item is written. -/
theorem exists_storeItem (items : Mem) (cp : ℕ) {type : UInt8} {bytes : List UInt8}
    (henc : v.encode = some (type, bytes)) (hlen : cp + 8 + bytes.length ≤ 508) :
    ∃ items₁ items₂, storeItems items (cp + msgItemHeader) bytes = some items₁ ∧
      storeItems items₁ cp (itemHeader type bytes.length) = some items₂ ∧
      HoldsItem items₂ cp v ∧ ∀ i < cp, items₂ i = items i := by
  have hheader : (itemHeader type bytes.length).length = 3 := rfl
  refine ⟨_, _, if_pos ?_, if_pos ?_, ⟨type, bytes, henc, by omega, ?_, ?_⟩, fun i hi => ?_⟩
  · simp only [msgItemHeader, msgMaxSize]
    omega
  · rw [hheader]
    simp only [msgMaxSize]
    omega
  · rw [← hheader]
    exact readBytes_writeBytes_self ..
  · rw [readBytes_writeBytes_of_disjoint (Or.inr (by rw [hheader]; simp only [msgItemHeader]; omega))]
    exact readBytes_writeBytes_self ..
  · rw [writeBytes_of_lt hi, writeBytes_of_lt (by simp only [msgItemHeader]; omega)]

/-- An item is read. -/
theorem HoldsItem.parse (h : HoldsItem items cp v) (hend : cp + v.itemSize ≤ 508) :
    load16 items (cp + 1) = v.valueLen ∧ v.valueLen < 2 ^ 15 ∧
      parseItem items cp (items cp) v.valueLen = some v.received := by
  obtain ⟨type, bytes, henc, hlen, hheader, hvalue⟩ := h
  have hval : v.valueLen = bytes.length := by rw [LuaItem.valueLen, henc]; rfl
  have halign := msgAlign_spec v.valueLen
  simp only [LuaItem.itemSize, msgItemHeader] at hend hvalue
  rw [readBytes_add items cp 1 2, itemHeader] at hheader
  have htype : items cp = type := (List.cons.inj hheader).1
  have hload : load16 items (cp + 1) = bytes.length := by
    rw [load16_of_readBytes (List.cons.inj hheader).2 (by omega)]
    omega
  refine ⟨hload.trans hval.symm, by omega, ?_⟩
  have hbound : ∀ n, n ≤ bytes.length → loadItems items (cp + 8) n = some (readBytes items (cp + 8) n) := by
    intro n hn
    exact if_pos (by simp only [msgMaxSize]; omega)
  rw [hval, htype]
  unfold parseItem
  simp only [msgItemHeader]
  cases v with
  | nil =>
      obtain ⟨rfl, rfl⟩ := Prod.mk.inj (Option.some.inj henc)
      rfl
  | boolean b =>
      obtain ⟨rfl, rfl⟩ := Prod.mk.inj (Option.some.inj henc)
      have hbyte : items (cp + 8) = if b then 1 else 0 := (List.cons.inj hvalue).1
      rw [if_neg (by decide), if_neg (by decide), if_pos rfl, hbound 1 (le_refl 1)]
      simp only [hbyte, Option.map_some]
      cases b <;> rfl
  | lightuserdata ptr =>
      obtain ⟨rfl, rfl⟩ := Prod.mk.inj (Option.some.inj henc)
      rw [if_neg (by decide), if_neg (by decide), if_neg (by decide), if_neg (by decide),
        hbound 8 (le_refl 8), load64_of_readBytes hvalue]
      rfl
  | number num =>
      obtain ⟨rfl, rfl⟩ := Prod.mk.inj (Option.some.inj henc)
      rw [if_neg (by decide), if_pos rfl, hbound 8 (le_refl 8), load64_of_readBytes hvalue]
      rfl
  | string str =>
      obtain ⟨rfl, rfl⟩ := Prod.mk.inj (Option.some.inj henc)
      rw [if_pos rfl, hbound _ (le_refl _), hvalue]
      rfl
  | userdata ptr =>
      obtain ⟨rfl, rfl⟩ := Prod.mk.inj (Option.some.inj henc)
      rw [if_neg (by decide), if_neg (by decide), if_neg (by decide), if_neg (by decide),
        hbound 8 (le_refl 8), load64_of_readBytes hvalue]
      rfl
  | other => cases henc

/-! ## The loops -/

/-- Values that fit are written one behind the other. -/
theorem buildLoop_of_fits (items : Mem) (hcp : cp % 4 = 0) (hle : cp ≤ 508) (idx : ℕ) (h : FitsFrom cp vs) :
    ∃ items', buildLoop items cp idx vs = some (.ok (items', cp + itemsSize vs)) ∧
      HoldsItems items' cp vs ∧ (∀ i < cp, items' i = items i) ∧ cp + itemsSize vs ≤ 508 := by
  induction vs generalizing items cp idx with
  | nil => exact ⟨items, rfl, trivial, fun _ _ => rfl, hle⟩
  | cons v vs ih =>
      obtain ⟨⟨hother, hlimit⟩, hrest⟩ := fitsFrom_cons.mp h
      obtain ⟨type, bytes, henc, hval, hcheck⟩ := LuaItem.exists_encode hother
      simp only [msgMaxSize, msgItemAlign, msgItemHeader] at hlimit
      obtain ⟨items₁, items₂, hstore₁, hstore₂, hitem, hsame⟩ :=
        exists_storeItem items cp henc (by omega)
      have halign := msgAlign_spec bytes.length
      have hsize : v.itemSize = 8 + msgAlign bytes.length := by rw [← hval]; rfl
      obtain ⟨items', hloop, hitems, hsame', hend⟩ :=
        ih items₂ (by omega) (by omega) (idx + 1) hrest
      refine ⟨items', ?_, ⟨?_, hitems⟩, fun i hi => ?_, ?_⟩
      · rw [buildLoop, if_neg (by simp only [msgMaxSize, msgItemAlign, msgItemHeader]; omega), henc]
        dsimp only
        rw [hstore₁]
        dsimp only [bind, Option.bind]
        rw [hstore₂]
        dsimp only
        rw [itemsSize_cons, ← Nat.add_assoc, ← hloop, hsize, ← Nat.add_assoc]
        rfl
      · exact hitem.congr fun i _ hi => hsame' i hi
      · rw [hsame' i (by omega), hsame i hi]
      · rw [itemsSize_cons]
        omega

/-- Other values are refused. -/
theorem buildLoop_of_not_fits (items : Mem) (hcp : cp % 4 = 0) (hle : cp ≤ 508) (idx : ℕ) (h : ¬FitsFrom cp vs) :
    ∃ err : MsgError, buildLoop items cp idx vs = some (.error err) ∧
      (err.text = "too big message" ∨ err.text = "primitive type expected") := by
  induction vs generalizing items cp idx with
  | nil => exact absurd (fitsFrom_nil cp) h
  | cons v vs ih =>
      rw [buildLoop]
      split
      · exact ⟨_, rfl, Or.inl rfl⟩
      · next hlimit =>
        by_cases hother : v = .other
        · subst hother
          exact ⟨_, rfl, Or.inr rfl⟩
        · obtain ⟨type, bytes, henc, hval, hcheck⟩ := LuaItem.exists_encode hother
          have hrest : ¬FitsFrom (cp + v.itemSize) vs := fun hrest =>
            h (fitsFrom_cons.mpr ⟨⟨hother, Nat.lt_of_not_le hlimit⟩, hrest⟩)
          simp only [msgMaxSize, msgItemAlign, msgItemHeader] at hlimit
          obtain ⟨items₁, items₂, hstore₁, hstore₂, -, -⟩ :=
            exists_storeItem items cp henc (by omega)
          have halign := msgAlign_spec bytes.length
          have hsize : v.itemSize = 8 + msgAlign bytes.length := by rw [← hval]; rfl
          rw [henc]
          dsimp only
          rw [hstore₁]
          dsimp only [bind, Option.bind]
          rw [hstore₂]
          dsimp only
          obtain ⟨err, herr, htext⟩ :=
            ih items₂ (by omega) (by omega) (idx + 1) hrest
          refine ⟨err, ?_, htext⟩
          rw [← herr, hsize, ← Nat.add_assoc]
          rfl

/-- Items are read back up to their end. -/
theorem parseLoop_of_holds (h : HoldsItems items cp vs) {endp fuel : ℕ}
    (hend : cp + itemsSize vs = endp) (hle : endp ≤ 508) (hfuel : vs.length < fuel) :
    parseLoop items endp fuel cp = some (vs.map LuaItem.received, endp) := by
  induction vs generalizing cp fuel with
  | nil =>
      obtain ⟨fuel, rfl⟩ := Nat.exists_eq_add_of_lt hfuel
      have hcp : cp = endp := hend
      rw [hcp, parseLoop, if_neg (lt_irrefl endp)]
      rfl
  | cons v vs ih =>
      obtain ⟨fuel, rfl⟩ := Nat.exists_eq_add_of_lt hfuel
      have hsize := itemSize_spec v
      rw [itemsSize_cons, ← Nat.add_assoc] at hend
      obtain ⟨hload, hlen, hitem⟩ := h.1.parse (by omega)
      rw [parseLoop, if_pos (by omega), loadItems, if_pos (by simp only [msgMaxSize]; omega)]
      dsimp only [bind, Option.bind]
      rw [hload, if_neg (by omega), hitem]
      dsimp only
      have hfuel' : vs.length < (v :: vs).length + fuel := by
        rw [List.length_cons]
        omega
      have htail := ih h.2 hend hfuel'
      rw [LuaItem.itemSize, ← Nat.add_assoc] at htail
      rw [htail]
      rfl

theorem length_le_itemsSize (vs : List LuaItem) : vs.length ≤ itemsSize vs := by
  induction vs with
  | nil => exact le_refl 0
  | cons v vs ih =>
      have := itemSize_spec v
      rw [itemsSize_cons, List.length_cons]
      omega

/-- **Messages are parsed to what they were built of.**  A list of values that fits is
written inside of `items`, and whoever has the `size` bytes of the message reads the same
list from them, up to their end; other lists are refused. -/
theorem pipeMsgParse_build (items : Mem) (idx : ℕ) (vs : List LuaItem) :
    (Sendable vs ∧ ∃ items' size, pipeMsgBuild items idx vs = some (.ok (items', size)) ∧
      2 ≤ size ∧ size ≤ 514 ∧
      ∀ copy : Mem, readBytes copy 0 (size - 2) = readBytes items' 0 (size - 2) →
        pipeMsgParse copy size = some (vs.map LuaItem.received, size - 2)) ∨
    (¬Sendable vs ∧ ∃ err : MsgError, pipeMsgBuild items idx vs = some (.error err) ∧
      (err.text = "too big message" ∨ err.text = "primitive type expected")) := by
  by_cases hfits : Sendable vs
  · left
    obtain ⟨items', hloop, hitems, -, hend⟩ :=
      buildLoop_of_fits items (by rfl) (by omega) idx hfits
    rw [Nat.zero_add] at hloop hend
    have hsize : (2 + itemsSize vs) % 2 ^ 16 = 2 + itemsSize vs := Nat.mod_eq_of_lt (by omega)
    refine ⟨hfits, items', 2 + itemsSize vs, ?_, by omega, by omega, fun copy hcopy => ?_⟩
    · rw [pipeMsgBuild, hloop, ← hsize]
      rfl
    · rw [Nat.add_sub_cancel_left] at hcopy ⊢
      have hbyte : ∀ i, 0 ≤ i → i < 0 + itemsSize vs → copy i = items' i := by
        intro i _ hi
        have hget := congrArg (fun l => l[i]?) hcopy
        have hi' : i < itemsSize vs := by omega
        simpa [readBytes, List.getElem?_range hi'] using hget
      rw [pipeMsgParse, Nat.add_sub_cancel_left]
      refine parseLoop_of_holds (hitems.congr hbyte) (Nat.zero_add _) hend ?_
      have := length_le_itemsSize vs
      omega
  · right
    obtain ⟨err, herr, htext⟩ :=
      buildLoop_of_not_fits items (by rfl) (by omega) idx hfits
    refine ⟨hfits, err, ?_, htext⟩
    rw [pipeMsgBuild, herr]
    rfl

end LuaSys.Thread
