import LuaSys.Lib.Checked
import LuaSys.Lib.Run
import LuaSys.Mem.Growth
import LuaSys.Mem.Pointer

/-!
# Bounds of a memory buffer

The fields `len` and `offset` describe the block as long as no call leaves them behind: `free`
and `close` release the block and keep `len`, an allocation that fails sets it, `realloc` takes
blocks that are not from `malloc` and shrinks the block below the offset, and a length from
`2 ^ 31` on is stored as a negative `int`.

In runs without these steps the fields are in order and all the accesses are inside of the block.
Streams may do what they want with the buffer, as long as they leave it in order; in the middle of
a write they must not leave more content than there was.

## Main definitions

* `MemPtr.Bounded` — the fields describe a live block.
* `MemPtr.Sound` — the same with what the calls need.
* `MemOp.Safe` — the condition on the state before a call.

## Main results

* `step_spec` — a safe call keeps the invariant and stops only for lack of fuel.
* `safe_run_bounded` — the same for runs.
* `free_leaves_length` — a released buffer keeps its length, and a write goes to its null block.
-/

namespace LuaSys.Mem

open LuaSys.Lib
open Membuf (newline laterNewline)

/-- The block exists. -/
def Block.Live (b : Block) : Prop := b = .udata ∨ b = .malloc

namespace MemPtr

/-- The offset is inside of the length, and the length is inside of a live block. -/
def Bounded (m : MemPtr) : Prop :=
  0 ≤ m.mb.offset ∧ m.mb.offset ≤ m.mb.len ∧
    (0 < m.mb.len → m.block.Live ∧ m.mb.len ≤ m.mb.size)

/-- The fields describe the block, and the flag its kind. -/
structure Sound (m : MemPtr) : Prop where
  bounded : m.Bounded
  len_lt : m.mb.len < 2 ^ 31
  notStale : m.block ≠ .stale
  owned : m.mb.alloc = true → m.block ≠ .udata

/-! ## Safe calls -/

/-- What a stream leaves: a buffer in order, and one that has been allocated does not become a part
of the userdata. -/
def Leaves (m m' : MemPtr) : Prop := m'.Sound ∧ (m.mb.alloc = true → m'.block ≠ .udata)

/-- A growth that succeeds gives a length below `2 ^ 31`.  From a length of zero, or to one that
wraps around, the loop does not end. -/
def GrowSafe (alloc : Bool) (len : ℤ) (newlen : ℕ) (block : Option Lib.Mem) : Prop :=
  alloc = true → block ≠ none → 0 < len → newlen < 2 ^ 64 - 2 ^ 31 →
    ∃ k : ℕ, newlen < len * 2 ^ k ∧ len * 2 ^ k < 2 ^ 31

/-- A call of `membuf_addlstring` for `size` bytes. -/
def AddSafe (m : MemPtr) (size : ℕ) (c : WriteCall) (block : Option Lib.Mem) : Prop :=
  m.full size →
    if m.ostream = true then
      m.Leaves (c.leaves m) ∧
        match c.result with
        | none => True
        | some true => (m.afterWrite c).hasSpace size ∨ (m.afterWrite c).mb.offset ≤ m.mb.offset ∧
            GrowSafe m.mb.alloc (c.leaves m).mb.len (sizeT (m.mb.offset + size)) block
        | some false => (c.leaves m).mb.offset ≤ m.mb.offset ∧
            GrowSafe m.mb.alloc m.mb.len (sizeT (m.mb.offset + size)) block
    else GrowSafe m.mb.alloc m.mb.len (sizeT (m.mb.offset + size)) block

/-- A string of Lua, which has less than `2 ^ 63` bytes, is written. -/
def StringSafe (m : MemPtr) (s : List UInt8) (c : WriteCall) (block : Option Lib.Mem) : Prop :=
  s.length < 2 ^ 63 ∧ m.AddSafe s.length c block

/-- Each argument of a write is safe when its turn comes. -/
def WriteSafe (fuel : ℕ) (m : MemPtr) : List Chunk → Prop
  | [] => True
  | s :: args =>
      if s.bytes = [] then m.WriteSafe fuel args
      else m.StringSafe s.bytes s.call s.realloc ∧
        ∀ m', m.addlstring fuel s.bytes s.call s.realloc = .ok (true, m') → m'.WriteSafe fuel args

/-- Each call of the stream by `read_line` is safe when its turn comes. -/
def LoopSafe (fuel : ℕ) (m : MemPtr) : List LineCall → Prop
  | [] => True
  | c :: calls =>
      m.Leaves (c.leaves m) ∧ ∀ s ∈ c.bytes, s ≠ [] → s.head? ≠ some newline →
        (c.leaves m).StringSafe (s.take ((laterNewline s).getD s.length)) c.call c.realloc ∧
          ∀ m', (c.leaves m).addlstring fuel (s.take ((laterNewline s).getD s.length)) c.call
            c.realloc = .ok (true, m') → m'.LoopSafe fuel calls

/-- The bytes behind the newline are written to the empty buffer. -/
def EndSafe (m : MemPtr) (rest : Chunk) : Prop :=
  rest.bytes ≠ [] → StringSafe { m with mb := { m.mb with offset := 0 } } rest.bytes rest.call rest.realloc

/-- The block may be released: the fields would describe it. -/
def FreeSafe (m : MemPtr) : Prop := m.block ≠ .null → m.mb.len = 0

end MemPtr

/-- The condition on the state before a call. -/
def MemOp.Safe (fuel : ℕ) (m : MemPtr) : MemOp → Prop
  | .alloc n block => 0 ≤ int32 n ∧ (block = none → int32 n = 0)
  | .realloc n block => m.block ≠ .udata ∧
      if block = none then int32 n = 0 → m.block = .null else m.mb.offset ≤ int32 n
  | .reserve n call block => m.AddSafe (sizeT (int32 n)) call block
  | .write args => m.WriteSafe fuel args
  | .writeln args call block => m.WriteSafe fuel (args ++ [⟨[newline], call, block⟩])
  | .read _ leaves | .readAll leaves => m.mb.offset = 0 → m.istream = true → m.Leaves (leaves m)
  | .readLine calls last block => m.mb.findNewline (sizeT m.mb.offset) = some none →
      m.istream = true → m.LoopSafe fuel calls ∧
        ∀ rest m', m.lineLoop fuel calls = .ok (some rest, m') → m'.EndSafe ⟨rest, last, block⟩
  | .flush close call => m.ostream = true → m.Leaves (call.leaves m) ∧
      (close = true → call.result ≠ none → (m.afterWrite call).FreeSafe)
  | .free => m.FreeSafe
  | .output _ | .input _ => True

namespace MemPtr

/-- The only reason to stop. -/
def LacksFuel (e : Stop) : Prop := e = .fuel

section spec

variable {m m' : MemPtr} {size fuel : ℕ} {c : WriteCall} {block : Option Lib.Mem} {s : List UInt8}

theorem Sound.len_le_size (h : m.Sound) : m.mb.len ≤ m.mb.size := by
  obtain ⟨hoff, hle, hlive⟩ := h.bounded
  by_cases hpos : 0 < m.mb.len
  · exact (hlive hpos).2
  · omega

theorem Sound.sizeT_offset (h : m.Sound) : sizeT m.mb.offset = m.mb.offset.toNat := by
  obtain ⟨hoff, hle, -⟩ := h.bounded
  have hlt := h.len_lt
  simp only [sizeT]
  omega

theorem Sound.sizeT_len (h : m.Sound) : (sizeT m.mb.len : ℤ) = m.mb.len := by
  obtain ⟨hoff, hle, -⟩ := h.bounded
  have hlt := h.len_lt
  simp only [sizeT]
  omega

/-- The offset goes back. -/
theorem Sound.withOffset (h : m.Sound) {n : ℤ} (hn : 0 ≤ n) (hle : n ≤ m.mb.len) :
    Sound { m with mb := { m.mb with offset := n } } :=
  ⟨⟨hn, hle, h.bounded.2.2⟩, h.len_lt, h.notStale, h.owned⟩

/-- The content may be read. -/
theorem Sound.fetch (h : m.Sound) {Q : List UInt8 → Prop} (hQ : ∀ bs, Q bs) :
    Spec LacksFuel Q (inBlock (m.mb.fetch (sizeT m.mb.offset))) := by
  have hsize := h.len_le_size
  obtain ⟨hoff, hle, -⟩ := h.bounded
  rw [h.sizeT_offset, Membuf.fetch, if_pos (by omega)]
  exact hQ _

/-! ## Growth -/

/-- The doubled length is enough, and it is the value of its field. -/
theorem grown_spec {len newlen len' : ℕ} (hlen : len < 2 ^ 31) (hge : len ≤ newlen)
    (hnew : newlen < 2 ^ 64) (hsafe : 0 < len → newlen < 2 ^ 64 - 2 ^ 31 →
      ∃ k : ℕ, (newlen : ℤ) < len * 2 ^ k ∧ (len : ℤ) * 2 ^ k < 2 ^ 31)
    (h : doubleLen fuel len newlen = some len') : newlen < len' ∧ len' < 2 ^ 31 := by
  have hpos : 0 < len := by
    by_contra hzero
    obtain rfl : len = 0 := by omega
    rw [Membuf.doubleLen_zero] at h
    exact absurd h (by simp)
  have hlow : newlen < 2 ^ 64 - 2 ^ 31 := by
    by_contra hhigh
    -- Seen as an `int`, what is wanted is below zero.
    obtain ⟨want, hwant⟩ : ∃ want : ℤ, want = (newlen : ℤ) - 2 ^ 64 := ⟨_, rfl⟩
    have hnewlen : sizeT want = newlen := by
      simp only [sizeT]
      omega
    have hdoubles : ∀ k, 1 ≤ k → sizeT (2 ^ k * (len : ℤ)) ≤ newlen := by
      intro k hk
      rw [← hnewlen]
      exact Membuf.sizeT_pow_mul_le ⟨by omega, by omega⟩ ⟨by omega, by omega⟩ (Or.inl (by omega)) k hk
    have hnone := doubleLen_none hdoubles fuel
    rw [sizeT_natCast (by omega), h] at hnone
    exact absurd hnone (by simp)
  obtain ⟨k, hk, hlt⟩ := hsafe hpos hlow
  have hbound : newlen < 2 ^ 63 := by omega
  obtain ⟨-, hleast⟩ := doubleLen_first hge hbound h
  refine ⟨Membuf.lt_of_doubleLen h, ?_⟩
  have hle := hleast k (by exact_mod_cast hk)
  have hlt' : len * 2 ^ k < 2 ^ 31 := by exact_mod_cast hlt
  omega

/-- The call of `realloc`: the old block stays, or there is a new one. -/
theorem moveBlock_spec (hblock : m.block ≠ .udata ∧ m.block ≠ .stale)
    (hsize : block = none → size = 0 → m.block = .null) :
    Spec LacksFuel (fun r => r = (false, m) ∧ block = none ∨
        ∃ data, r = (true, { m with mb := { m.mb with data := data, size := size }, block := .malloc }) ∧
          block ≠ none) (m.moveBlock size block) := by
  unfold moveBlock
  rw [if_neg (not_or.mpr hblock)]
  cases block with
  | none =>
      have hkeep : ¬(size = 0 ∧ m.block = .malloc) := by
        rintro ⟨hzero, hmalloc⟩
        rw [hsize rfl hzero] at hmalloc
        exact absurd hmalloc (by decide)
      dsimp only
      rw [if_neg hkeep]
      exact Or.inl ⟨rfl, rfl⟩
  | some data => exact Or.inr ⟨_, rfl, by simp⟩

/-- The length is doubled, or the buffer stays. -/
theorem grow_spec (h : m.Sound) {alloc : Bool} {len newlen : ℕ} {offset : ℤ}
    (howned : alloc = true → m.block ≠ .udata) (hlen : len < 2 ^ 31) (hge : len ≤ newlen)
    (hnew : newlen < 2 ^ 64) (hoff : m.mb.offset ≤ newlen) (hsafe : GrowSafe alloc len newlen block) :
    Spec LacksFuel (fun r => r.buf.Sound ∧ r.offset = offset ∧ (r.ok = true → (newlen : ℤ) < r.buf.mb.len))
      (m.grow fuel alloc len newlen offset block) := by
  unfold grow
  split
  · exact rfl
  · next len' hlen' =>
    cases alloc with
    | false => exact ⟨h, rfl, fun hok => absurd hok (by simp)⟩
    | true =>
        have hpos : len' ≠ 0 := Nat.ne_zero_of_lt (Membuf.lt_of_doubleLen hlen')
        rw [if_pos rfl]
        refine (moveBlock_spec ⟨howned rfl, h.notStale⟩ fun _ hzero => absurd hzero hpos).bind ?_
        rintro r - (⟨rfl, -⟩ | ⟨data, rfl, hblock⟩)
        · exact ⟨h, rfl, fun hok => absurd hok (by simp)⟩
        · obtain ⟨hlt, hsmall⟩ := grown_spec hlen hge hnew
            (fun hpos hlow => hsafe rfl hblock (by omega) hlow) hlen'
          have hint : int32 (len' : ℤ) = len' := int32_of_range (by omega) (by omega)
          refine ⟨⟨⟨h.bounded.1, ?_, fun _ => ⟨Or.inr rfl, ?_⟩⟩, ?_, by simp, by simp⟩, rfl, fun _ => ?_⟩
          · dsimp only
            omega
          · dsimp only
            omega
          · dsimp only
            omega
          · dsimp only
            omega

/-! ## Writes -/

/-- What is wanted does not wrap around if there is no room. -/
theorem Sound.newlen_of_full (h : m.Sound) (hsize : size < 2 ^ 64) (hfull : m.full size) :
    (sizeT (m.mb.offset + size) : ℤ) = m.mb.offset + size := by
  have hlen := h.sizeT_len
  obtain ⟨hoff, hle, -⟩ := h.bounded
  have hlt := h.len_lt
  have hge : sizeT m.mb.len ≤ sizeT (m.mb.offset + size) := hfull
  by_cases hwrap : m.mb.offset + size < 2 ^ 64
  · simp only [sizeT]
    omega
  · have hnew : (sizeT (m.mb.offset + size) : ℤ) = m.mb.offset + size - 2 ^ 64 := by
      simp only [sizeT]
      omega
    omega

theorem streamWrite_spec (h : m.Sound) :
    Spec LacksFuel (fun r => r = (c.result, m.afterWrite c)) (m.streamWrite c) := by
  unfold streamWrite
  split
  · exact rfl
  · exact (h.fetch fun _ => trivial).bind fun _ _ _ => rfl

/-- The buffer behind a call of the stream. -/
theorem Leaves.afterWrite (h : m.Leaves (c.leaves m)) :
    m.Leaves (m.afterWrite c) ∧ (m.afterWrite c).mb.offset ≤ (c.leaves m).mb.offset ∧
      (m.afterWrite c).mb.len = (c.leaves m).mb.len := by
  obtain ⟨hsound, howned⟩ := h
  obtain ⟨hoff, hle, -⟩ := hsound.bounded
  unfold MemPtr.afterWrite
  split
  · exact ⟨⟨hsound.withOffset le_rfl (by omega), howned⟩, hoff, rfl⟩
  · exact ⟨⟨hsound, howned⟩, le_rfl, rfl⟩

/-- The buffer is in order, and with success there is room for a string behind the offset. -/
def Room.Fits (size : ℕ) (r : Room) : Prop :=
  r.buf.Sound ∧ (r.ok = true → 0 ≤ r.offset ∧ (size < 2 ^ 63 → r.offset + size ≤ r.buf.mb.len))

/-- A buffer that has grown to what is wanted has room. -/
theorem grow_fits (h : m.Sound) {alloc : Bool} {len : ℤ} {newlen : ℕ} {offset : ℤ}
    (howned : alloc = true → m.block ≠ .udata) (hlen : 0 ≤ len ∧ len < 2 ^ 31)
    (hge : sizeT len ≤ newlen) (hnew : newlen < 2 ^ 64) (hoff : m.mb.offset ≤ newlen)
    (hlocal : 0 ≤ offset) (hroom : offset + size ≤ newlen) (hsafe : GrowSafe alloc len newlen block) :
    Spec LacksFuel (Room.Fits size) (m.grow fuel alloc (sizeT len) newlen offset block) := by
  have hcast : (sizeT len : ℤ) = len := by
    simp only [sizeT]
    omega
  have hsmall : sizeT len < 2 ^ 31 := by omega
  have hgrow : GrowSafe alloc (sizeT len : ℕ) newlen block := by rwa [hcast]
  refine (grow_spec h howned hsmall hge hnew hoff hgrow).mono ?_
  rintro r ⟨hsound, hoffset, hok⟩
  refine ⟨hsound, fun hr => ?_⟩
  have hlt := hok hr
  exact ⟨by omega, fun _ => by omega⟩

/-- What `membuf_addlstring` does up to `end`. -/
theorem makeRoom_spec (h : m.Sound) (hsize : size < 2 ^ 64) (hsafe : m.AddSafe size c block) :
    Spec LacksFuel (Room.Fits size) (m.makeRoom fuel size c block) := by
  have hlen := h.sizeT_len
  obtain ⟨hoff, hle, -⟩ := h.bounded
  have hlt := h.len_lt
  unfold makeRoom
  dsimp only
  by_cases hfull : m.full size
  · have hnew := h.newlen_of_full hsize hfull
    have hge : sizeT m.mb.len ≤ sizeT (m.mb.offset + size) := hfull
    have hbound : sizeT (m.mb.offset + size) < 2 ^ 64 := sizeT_lt _
    have hsafe := hsafe hfull
    rw [if_pos hfull]
    by_cases hstream : m.ostream = true
    · rw [if_pos hstream] at hsafe ⊢
      obtain ⟨hleaves, hresult⟩ := hsafe
      obtain ⟨⟨hsound, howned⟩, hback, hsame⟩ := hleaves.afterWrite
      have hlen' := hsound.sizeT_len
      have hlt' := hsound.len_lt
      obtain ⟨hoff', hle', -⟩ := hsound.bounded
      refine (streamWrite_spec h).bind ?_
      rintro r - rfl
      dsimp only
      cases hres : c.result with
      | none => exact ⟨hsound, fun hok => absurd hok (by simp)⟩
      | some res =>
          rw [hres] at hresult
          cases res with
          | true =>
              dsimp only at hresult ⊢
              -- The space behind what the stream has left.
              have hspace : (m.afterWrite c).hasSpace size ↔
                  (m.afterWrite c).mb.offset + size < (m.afterWrite c).mb.len := by
                have hdiff : (sizeT (sizeT (m.afterWrite c).mb.len - (m.afterWrite c).mb.offset) : ℤ) =
                    (m.afterWrite c).mb.len - (m.afterWrite c).mb.offset := by
                  rw [hlen']
                  simp only [sizeT]
                  omega
                unfold hasSpace
                omega
              by_cases hsmall : (m.afterWrite c).hasSpace size
              · rw [if_pos hsmall]
                have hroom := hspace.mp hsmall
                exact ⟨hsound, fun _ => ⟨hoff', fun _ => hroom.le⟩⟩
              · rw [if_neg hsmall]
                obtain ⟨hless, hgrow⟩ := hresult.resolve_left hsmall
                rw [← hsame] at hgrow
                rw [hspace] at hsmall
                exact grow_fits hsound howned ⟨by omega, hlt'⟩ (by omega) hbound (by omega) hoff' (by omega)
                  hgrow
          | false =>
              obtain ⟨hless, hgrow⟩ := hresult
              exact grow_fits hsound howned ⟨by omega, hlt⟩ hge hbound (by omega) hoff (by omega) hgrow
    · rw [if_neg hstream] at hsafe ⊢
      exact grow_fits h h.owned ⟨by omega, hlt⟩ hge hbound (by omega) hoff (by omega) hsafe
  · rw [if_neg hfull]
    refine ⟨h, fun _ => ⟨hoff, fun hsmall => ?_⟩⟩
    have hlow : sizeT (m.mb.offset + size) < sizeT m.mb.len := Nat.not_le.mp hfull
    have hnew : (sizeT (m.mb.offset + size) : ℤ) = m.mb.offset + size := by
      simp only [sizeT]
      omega
    dsimp only
    omega

/-- A string is copied into the room. -/
theorem addlstring_spec (h : m.Sound) (hsafe : m.StringSafe s c block) :
    Spec LacksFuel (fun r => r.2.Sound) (m.addlstring fuel s c block) := by
  have hlimit := hsafe.1
  refine (makeRoom_spec h (by omega) hsafe.2).bind ?_
  rintro r - ⟨hsound, hok⟩
  by_cases hr : r.ok = true
  · rw [if_pos hr]
    obtain ⟨hoff, hroom⟩ := hok hr
    have hfits := hroom hlimit
    have hsize := hsound.len_le_size
    have hlt := hsound.len_lt
    obtain ⟨n, hn⟩ := Int.eq_ofNat_of_zero_le hoff
    have hend : int32 (r.offset + int32 s.length) = r.offset + s.length := by
      rw [int32_of_range (i := (s.length : ℤ)) (by omega) (by omega), int32_of_range (by omega) (by omega)]
    rw [Membuf.store_eq hn (by omega), hend]
    exact ⟨⟨by dsimp only; omega, hfits, hsound.bounded.2.2⟩, hsound.len_lt, hsound.notStale, hsound.owned⟩
  · rw [if_neg hr]
    exact hsound

/-- The loop over the arguments. -/
theorem write_spec {args : List Chunk} (h : m.Sound) (hsafe : m.WriteSafe fuel args) :
    Spec LacksFuel Sound (m.write fuel args) := by
  induction args generalizing m with
  | nil => exact h
  | cons s args ih =>
      rw [WriteSafe] at hsafe
      rw [write]
      by_cases hempty : s.bytes = []
      · rw [if_pos hempty] at hsafe ⊢
        exact ih h hsafe
      · rw [if_neg hempty] at hsafe ⊢
        refine (addlstring_spec h hsafe.1).bind ?_
        rintro ⟨ok, m'⟩ hadd hsound
        cases ok with
        | false => exact hsound
        | true => exact ih hsound (hsafe.2 m' hadd)

/-! ## Reads -/

theorem inBlock_map {α β : Type} (x : Option α) (f : α → β) : inBlock (x.map f) = f <$> inBlock x := by
  cases x <;> rfl

/-- The first bytes are taken out. -/
theorem consume_spec (h : m.Sound) {l src n : ℕ} (hl : (l : ℤ) ≤ m.mb.offset)
    (hn : (src : ℤ) + n ≤ m.mb.offset) :
    Spec LacksFuel (fun r => Sound { m with mb := r.2 }) (inBlock (m.mb.consume l src n)) := by
  have hsize := h.len_le_size
  obtain ⟨hoff, hle, hlive⟩ := h.bounded
  have hlt := h.len_lt
  have hint : int32 (n : ℤ) = n := int32_of_range (by omega) (by omega)
  have hsound := h.withOffset (n := (n : ℤ)) (by omega) (by omega)
  unfold Membuf.consume
  rw [Membuf.fetch, if_pos (by omega)]
  dsimp only [bind, Option.bind]
  rw [hint]
  by_cases hzero : n = 0
  · rw [if_pos hzero]
    exact hsound
  · rw [if_neg hzero, Membuf.moveDown, if_pos (by dsimp only; omega)]
    exact ⟨hsound.bounded, hsound.len_lt, hsound.notStale, hsound.owned⟩

theorem readBytes_spec (h : m.Sound) {l : ℕ} {leaves : MemPtr → MemPtr}
    (hsafe : m.mb.offset = 0 → m.istream = true → m.Leaves (leaves m)) :
    Spec LacksFuel Sound (m.readBytes l leaves) := by
  obtain ⟨hoff, hle, -⟩ := h.bounded
  have hlt := h.len_lt
  unfold readBytes
  split
  · next hstream => exact (hsafe hstream.1 hstream.2).1
  · refine Spec.map (P := fun r => Sound { m with mb := r.2 }) ?_ fun r hr => hr
    unfold Membuf.readBytes
    dsimp only
    rw [h.sizeT_offset]
    -- The number of bytes is cut to the content.
    obtain ⟨k, hk⟩ : ∃ k, k = if l > m.mb.offset.toNat then m.mb.offset.toNat else l := ⟨_, rfl⟩
    have hkle : k ≤ m.mb.offset.toNat := by
      rw [hk]
      split <;> omega
    rw [← hk]
    by_cases hzero : k = 0
    · rw [if_pos hzero]
      exact h
    · rw [if_neg hzero, inBlock_map]
      have hint : int32 (k : ℤ) = k := int32_of_range (by omega) (by omega)
      have hrest : int32 (m.mb.offset - int32 k) = m.mb.offset - k := by
        rw [hint]
        exact int32_of_range (by omega) (by omega)
      have hcast : (sizeT (m.mb.offset - k) : ℤ) = m.mb.offset - k := by
        simp only [sizeT]
        omega
      rw [hrest]
      exact (consume_spec h (by omega) (by omega)).map fun r hr => hr

/-- The loop over the calls of the stream. -/
theorem lineLoop_spec {calls : List LineCall} (h : m.Sound) (hsafe : m.LoopSafe fuel calls) :
    Spec LacksFuel (fun r => r.2.Sound) (m.lineLoop fuel calls) := by
  induction calls generalizing m with
  | nil => exact h
  | cons c calls ih =>
      rw [LoopSafe] at hsafe
      obtain ⟨⟨hsound, -⟩, hstring⟩ := hsafe
      rw [lineLoop]
      cases hbytes : c.bytes with
      | none => exact hsound
      | some s =>
          dsimp only
          by_cases hempty : s = []
          · rw [if_pos hempty]
            exact hsound
          · rw [if_neg hempty]
            by_cases hnl : s.head? = some newline
            · rw [if_pos hnl]
              exact hsound
            · rw [if_neg hnl]
              obtain ⟨hadd, hrest⟩ := hstring s hbytes hempty hnl
              refine (addlstring_spec hsound hadd).bind ?_
              rintro ⟨ok, m'⟩ hrun hsound'
              cases ok with
              | false => exact hsound'
              | true =>
                  dsimp only
                  rw [if_pos rfl]
                  cases hlater : laterNewline s with
                  | some l => exact hsound'
                  | none => exact ih hsound' (hrest m' hrun)

/-- The line is taken out, and the bytes behind it are put in. -/
theorem endLine_spec {rest : Chunk} (h : m.Sound) (hsafe : m.EndSafe rest) :
    Spec LacksFuel Sound (m.endLine fuel rest) := by
  obtain ⟨hoff, hle, -⟩ := h.bounded
  have hempty := h.withOffset le_rfl (show 0 ≤ m.mb.len by omega)
  unfold endLine
  refine (h.fetch fun _ => trivial).bind fun _ _ _ => ?_
  dsimp only
  by_cases hrest : rest.bytes = []
  · rw [if_pos hrest]
    exact hempty
  · rw [if_neg hrest]
    exact (addlstring_spec hempty (hsafe hrest)).map fun r hr => hr

/-- The search looks at the content only. -/
theorem findNewline_lt (h : m.Sound) :
    ∃ nl, m.mb.findNewline (sizeT m.mb.offset) = some nl ∧ ∀ l ∈ nl, l < sizeT m.mb.offset := by
  have hsize := h.len_le_size
  obtain ⟨hoff, hle, -⟩ := h.bounded
  obtain ⟨q, hq⟩ : ∃ q, q = Lib.readBytes m.mb.data 0 (sizeT m.mb.offset) := ⟨_, rfl⟩
  have hlength : q.length = sizeT m.mb.offset := by rw [hq, length_readBytes]
  have hbytes : Lib.readBytes m.mb.data 0 q.length = q := by rw [hlength, ← hq]
  rw [← hlength]
  refine ⟨_, Membuf.findNewline_eq hbytes ?_, fun l hl => ?_⟩
  · rw [hlength, h.sizeT_offset]
    omega
  · exact (List.findIdx?_eq_some_iff_getElem.mp hl).1

theorem readLine_spec (h : m.Sound) {calls : List LineCall} {last : WriteCall}
    (hsafe : (MemOp.readLine calls last block).Safe fuel m) :
    Spec LacksFuel Sound (m.readLine fuel calls last block) := by
  obtain ⟨hoff, hle, -⟩ := h.bounded
  have hlt := h.len_lt
  have hn := h.sizeT_offset
  obtain ⟨nl, hnl, hfirst⟩ := findNewline_lt h
  unfold readLine
  dsimp only
  rw [hnl]
  cases nl with
  | some l =>
      have hl := hfirst l rfl
      have hcast : (sizeT ((sizeT m.mb.offset : ℤ) - (l + 1)) : ℤ) = sizeT m.mb.offset - (l + 1) := by
        generalize sizeT m.mb.offset = n at hl hn
        simp only [sizeT]
        omega
      exact (consume_spec h (by omega) (by push_cast; omega)).map fun r hr => hr
  | none =>
      show Spec LacksFuel Sound (if m.istream then _ else _)
      by_cases hstream : m.istream = true
      · rw [if_pos hstream]
        obtain ⟨hloop, hend⟩ := hsafe hnl hstream
        refine (lineLoop_spec h hloop).bind ?_
        rintro ⟨rest, m'⟩ hrun hsound
        cases rest with
        | none => exact hsound
        | some rest => exact endLine_spec hsound (hend rest m' hrun)
      · rw [if_neg hstream]
        exact endLine_spec h fun hne => absurd rfl hne

/-! ## Blocks -/

theorem alloc_spec {n : ℤ} (hn : 0 ≤ int32 n) (hblock : block = none → int32 n = 0) :
    (m.alloc n block).Sound := by
  have hlt := (int32_range n).2
  have hcast : (sizeT (int32 n) : ℤ) = int32 n := by
    generalize int32 n = len at hn hlt
    simp only [sizeT]
    omega
  cases block with
  | none =>
      have hzero := hblock rfl
      refine ⟨⟨le_rfl, hn, fun hpos => ?_⟩, hlt, by simp [alloc], fun _ => by simp [alloc]⟩
      exact absurd hzero hpos.ne'
  | some data =>
      exact ⟨⟨le_rfl, hn, fun _ => ⟨Or.inr rfl, hcast.ge⟩⟩, hlt, by simp [alloc], fun _ => by simp [alloc]⟩

theorem realloc_spec (h : m.Sound) {n : ℤ} (hsafe : (MemOp.realloc n block).Safe fuel m) :
    Spec LacksFuel Sound (m.realloc n block) := by
  obtain ⟨hudata, hsafe⟩ := hsafe
  obtain ⟨hoff, hle, -⟩ := h.bounded
  have hrange := int32_range n
  have hnull : block = none → sizeT (int32 n) = 0 → m.block = .null := by
    intro hblock hzero
    rw [if_pos hblock] at hsafe
    refine hsafe ?_
    generalize int32 n = len at hzero hrange
    simp only [sizeT] at hzero
    omega
  refine (moveBlock_spec ⟨hudata, h.notStale⟩ hnull).bind ?_
  rintro r - (⟨rfl, -⟩ | ⟨data, rfl, hblock⟩)
  · exact h
  · rw [if_neg hblock] at hsafe
    have hcast : (sizeT (int32 n) : ℤ) = int32 n := by
      generalize int32 n = len at hsafe hrange
      simp only [sizeT]
      omega
    exact ⟨⟨hoff, hsafe, fun _ => ⟨Or.inr rfl, hcast.ge⟩⟩, hrange.2, by simp, fun _ => by simp⟩

theorem reserve_spec (h : m.Sound) {n : ℤ} (hsafe : (MemOp.reserve n c block).Safe fuel m) :
    Spec LacksFuel Sound (m.reserve fuel n c block) :=
  (makeRoom_spec h (sizeT_lt _) hsafe).map fun _ hfits => hfits.1

/-- A block that is freed is from `malloc`. -/
theorem free_spec (h : m.Sound) (hsafe : m.FreeSafe) : Spec LacksFuel Sound m.free := by
  obtain ⟨hoff, hle, -⟩ := h.bounded
  unfold free
  by_cases hnull : m.block = .null
  · rw [if_pos hnull]
    exact h
  · have hmalloc : ¬(m.mb.alloc = true ∧ m.block ≠ .malloc) := by
      rintro ⟨halloc, hother⟩
      have hudata := h.owned halloc
      have hstale := h.notStale
      cases hblock : m.block <;> contradiction
    have hzero := hsafe hnull
    rw [if_neg hnull, if_neg hmalloc]
    refine ⟨⟨hoff, hle, fun hpos => ?_⟩, h.len_lt, by simp [clear], by simp [clear]⟩
    exact absurd hzero hpos.ne'

theorem flush_spec (h : m.Sound) {close : Bool} (hsafe : (MemOp.flush close c).Safe fuel m) :
    Spec LacksFuel Sound (m.flush close c) := by
  unfold flush
  by_cases hstream : m.ostream = true
  · obtain ⟨hleaves, hclose⟩ := hsafe hstream
    obtain ⟨⟨hsound, -⟩, -⟩ := hleaves.afterWrite
    rw [if_pos hstream]
    refine (streamWrite_spec h).bind ?_
    rintro r - rfl
    dsimp only
    by_cases hends : close = true ∧ c.result ≠ none
    · rw [if_pos hends]
      exact free_spec hsound (hclose hends.1 hends.2)
    · rw [if_neg hends]
      exact hsound
  · rw [if_neg hstream]
    exact h

/-! ## Runs -/

/-- A safe call keeps the invariant and stops only for lack of fuel. -/
theorem step_spec (h : m.Sound) {op : MemOp} (hsafe : op.Safe fuel m) :
    Spec LacksFuel Sound (m.step fuel op) := by
  cases op with
  | alloc n block => exact alloc_spec hsafe.1 hsafe.2
  | realloc n block => exact realloc_spec h hsafe
  | reserve n call block => exact reserve_spec h hsafe
  | write args => exact write_spec h hsafe
  | writeln args call block => exact write_spec h hsafe
  | read n leaves => exact readBytes_spec h hsafe
  | readAll leaves => exact readBytes_spec h hsafe
  | readLine calls last block => exact readLine_spec h hsafe
  | flush close call => exact flush_spec h hsafe
  | free => exact free_spec h hsafe
  | output stream => cases stream <;> exact ⟨h.bounded, h.len_lt, h.notStale, h.owned⟩
  | input stream => cases stream <;> exact ⟨h.bounded, h.len_lt, h.notStale, h.owned⟩

end spec

/-- A new buffer is in order if the number of bytes is not negative as an `int`. -/
theorem new_spec {n : ℤ} (hn : 0 ≤ int32 n) : ∃ m₀, new n = .ok m₀ ∧ m₀.Sound := by
  obtain ⟨hlen, hle, hlow⟩ : int32 (sizeT n : ℕ) = int32 n ∧ int32 n ≤ sizeT n ∧
      sizeofMembuf + sizeT n < 2 ^ 64 := by
    simp only [int32, sizeT, sizeofMembuf] at hn ⊢
    omega
  have hlt := (int32_range n).2
  have hsize : sizeT (sizeofMembuf + sizeT n : ℕ) = sizeofMembuf + sizeT n := sizeT_natCast hlow
  unfold new
  dsimp only
  rw [hsize, if_neg (by omega), hlen]
  by_cases hzero : sizeT n = 0
  · simp only [if_pos hzero]
    exact ⟨_, rfl, ⟨le_rfl, le_rfl, fun hpos => absurd hpos (lt_irrefl 0)⟩, by simp, by simp, by simp⟩
  · simp only [if_neg hzero]
    refine ⟨_, rfl, ⟨le_rfl, hn, fun _ => ⟨Or.inl rfl, ?_⟩⟩, hlt, by simp, by simp⟩
    dsimp only
    omega

/-- A safe call that returns. -/
def SafeStep (m m' : MemPtr) : Prop := ∃ fuel op, MemOp.Safe fuel m op ∧ m.step fuel op = .ok m'

theorem Sound.safeStep {m m' : MemPtr} (h : m.Sound) (hstep : SafeStep m m') : m'.Sound := by
  obtain ⟨fuel, op, hsafe, hop⟩ := hstep
  exact (step_spec h hsafe).result hop

/-- **Safe runs stay inside of the block.**  In every state that a buffer reaches by safe calls
the fields describe a live block, and no safe call goes outside of it or gives another block to
`realloc` or `free`. -/
theorem safe_run_bounded {n : ℤ} (hn : 0 ≤ int32 n) :
    ∃ m₀, new n = .ok m₀ ∧ ∀ m, Relation.ReflTransGen SafeStep m₀ m →
      m.Bounded ∧ ∀ fuel op, op.Safe fuel m →
        m.step fuel op ≠ .error .outside ∧ m.step fuel op ≠ .error .badBlock := by
  obtain ⟨m₀, hnew, hsound⟩ := new_spec hn
  refine ⟨m₀, hnew, fun m hrun => ?_⟩
  have h := inv_of_reach (I := Sound) (fun _ _ hstep h => h.safeStep hstep) hsound hrun
  refine ⟨h.bounded, fun fuel op hsafe => ?_⟩
  have hspec := step_spec h hsafe
  exact ⟨hspec.ne_error (by simp [LacksFuel]), hspec.ne_error (by simp [LacksFuel])⟩

/-- Three bytes are written to a new block of 128 bytes. -/
theorem safe_run_bounded_threeBytes :
    ∃ m₀ m, new 0 = .ok m₀ ∧ Relation.ReflTransGen SafeStep m₀ m ∧ m.mb.len = 128 ∧ m.mb.offset = 3 ∧
      m.Bounded ∧ m.step 0 (.read 2 id) ≠ .error .outside := by
  obtain ⟨m₀, hnew, h⟩ := safe_run_bounded (n := 0) (by decide)
  have hm₀ := Except.ok.inj (hnew.symm.trans rfl)
  obtain ⟨m₁, hm₁⟩ : ∃ m₁, m₁ = m₀.alloc 128 (some fun _ => 0) := ⟨_, rfl⟩
  have halloc : SafeStep m₀ m₁ :=
    ⟨0, .alloc 128 (some fun _ => 0), ⟨by decide, by simp⟩, by rw [hm₁]; rfl⟩
  have hroom : ¬m₁.full 3 := by
    subst hm₁ hm₀
    decide
  obtain ⟨m, hm, hlen, hoff⟩ : ∃ m, m₁.step 0 (.write [⟨[97, 98, 99], ⟨id, none⟩, none⟩]) = .ok m ∧
      m.mb.len = 128 ∧ m.mb.offset = 3 := by
    subst hm₁ hm₀
    exact ⟨_, rfl, rfl, rfl⟩
  have hwrite : SafeStep m₁ m := by
    refine ⟨0, _, ?_, hm⟩
    exact ⟨⟨by simp, fun hfull => absurd hfull hroom⟩, fun _ _ => trivial⟩
  have hrun : Relation.ReflTransGen SafeStep m₀ m := (Relation.ReflTransGen.single halloc).tail hwrite
  obtain ⟨hbounded, hsteps⟩ := h m hrun
  have hread : (MemOp.read 2 id).Safe 0 m := by
    intro hempty
    rw [hoff] at hempty
    exact absurd hempty (by decide)
  exact ⟨m₀, m, hnew, hrun, hlen, hoff, hbounded, (hsteps 0 _ hread).1⟩

/-- A released buffer keeps its length, and a write goes to its null block. -/
theorem free_leaves_length :
    ∃ m₀ m, new 16 = .ok m₀ ∧ m₀.step 0 .free = .ok m ∧ ¬m.Bounded ∧ m.block = .null ∧ m.mb.len = 16 ∧
      m.step 0 (.write [⟨[65], ⟨id, none⟩, none⟩]) = .error .outside := by
  refine ⟨_, _, rfl, rfl, ?_, rfl, rfl, rfl⟩
  rintro ⟨-, -, hlive⟩
  exact absurd (hlive (by decide)).1 (by simp [Block.Live, clear])

end MemPtr

end LuaSys.Mem
