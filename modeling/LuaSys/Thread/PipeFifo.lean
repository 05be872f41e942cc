import LuaSys.Lib.Path
import LuaSys.Lib.Run
import LuaSys.Thread.PipeLayout
import Mathlib.Algebra.BigOperators.Group.List.Basic
import Mathlib.Algebra.Order.BigOperators.Group.List
import Mathlib.Algebra.Ring.Nat

/-!
# A pipe is a lossless queue

The buffers of a pipe form a ring.  Read from `rbuf`, it consists of the buffers
before the write buffer, which all hold messages, of the write buffer, and of the
buffers behind it, which are all empty.  The queue of a pipe is the concatenation
of the buffers in this order; `Pipe.Rep pp queue` states the correspondence and
each pass is shown to perform the queue operation.

Two of the passes need a condition on the state.  A write buffer that is exactly
full looks straight to the writer, which then overwrites the oldest message; and
when the total size has wrapped to zero, the next buffer is allocated with no
room.  Both conditions concern the state before a put pass, see `PutSafe`.

## Main definitions

* `Pipe.Ring`, `Pipe.Rep` — the representation of the queue.
* `PutSafe` — the states in which a put pass is correct.
* `PipeSys.Step`, `PipeSys.SafeStep` — the transitions of a run.

## Main results

* `putPass_spec`, `getPass_nil`, `getPass_cons` — each pass performs the queue operation.
* `safe_run_fifo` — a run of safe steps is a lossless queue.
-/

namespace LuaSys.Thread

open LuaSys.Lib

namespace Pipe

/-- The buffers `l` form the ring, read from `rbuf`, and their sizes add up. -/
structure Shape (pp : Pipe) (l : List ℕ) : Prop where
  linked : Path id (fun b => (pp.bufs b).nextBuf) pp.rbuf l pp.rbuf
  nodup : l.Nodup
  allocated : ∀ b ∈ l, b < pp.nbufs
  sized : ∀ b ∈ l, (pp.bufs b).Sized
  /-- The total size is `bufSize`, until the last doubling wraps it to zero. -/
  total : (l.map fun b => (pp.bufs b).len + pipeBufExtraSize).sum =
    if pp.bufSize = 0 then 2 ^ 32 else pp.bufSize
  bufSize_le : pp.bufSize ≤ pp.bufMaxSize
  max_le : pp.bufMaxSize ≤ pipeBufMaxSize

/-- The ring consists of the buffers before the write buffer, which hold messages,
of the write buffer, and of the empty buffers behind it. -/
structure Ring (pp : Pipe) (act rest : List ℕ) (q : ℕ → List Message) : Prop
    extends Shape pp (act ++ pp.wbuf :: rest) where
  holds : ∀ b ∈ act ++ pp.wbuf :: rest, (pp.bufs b).Holds (q b)
  act_ne : ∀ b ∈ act, q b ≠ []
  rest_nil : ∀ b ∈ rest, q b = []

/-- The pipe holds the messages of the queue, oldest first. -/
def Rep (pp : Pipe) (queue : List Message) : Prop :=
  ∃ act rest q, Ring pp act rest q ∧ (act ≠ [] → q pp.wbuf ≠ []) ∧
    queue = act.flatMap q ++ q pp.wbuf ∧ pp.nmsg = queue.length

variable {pp : Pipe} {act rest : List ℕ} {q : ℕ → List Message} {queue : List Message}
  {msg : Message}

theorem Ring.mem_wbuf (pp : Pipe) (act rest : List ℕ) : pp.wbuf ∈ act ++ pp.wbuf :: rest := by
  simp

/-- The messages of some buffers take at most their total length. -/
private theorem length_flatMap_le {bufs : ℕ → PipeBuf} {l : List ℕ}
    (h : ∀ b ∈ l, (bufs b).Holds (q b)) :
    2 * (l.flatMap q).length ≤ (l.map fun b => (bufs b).len + pipeBufExtraSize).sum := by
  induction l with
  | nil => simp
  | cons b l ih =>
      have hb := (h b (by simp)).length_le
      have hl := ih fun c hc => h c (by simp [hc])
      simp only [List.flatMap_cons, List.length_append, List.map_cons, List.sum_cons]
      omega

/-- The number of queued messages stays far below the range of `nmsg`. -/
theorem Ring.length_lt (h : Ring pp act rest q) :
    (act.flatMap q ++ q pp.wbuf).length ≤ 2 ^ 31 := by
  have hle := length_flatMap_le h.holds
  rw [h.total] at hle
  have hmax := h.bufSize_le.trans h.max_le
  simp only [pipeBufMaxSize] at hmax
  have hlen : (act.flatMap q ++ q pp.wbuf).length ≤ ((act ++ pp.wbuf :: rest).flatMap q).length := by
    simp only [List.flatMap_append, List.flatMap_cons, List.length_append]
    omega
  split at hle <;> omega

theorem Ring.wbuf_notMem_act (h : Ring pp act rest q) : pp.wbuf ∉ act := by
  intro hmem
  exact (List.nodup_append.mp h.nodup).2.2 _ hmem _ (by simp) rfl

theorem Ring.wbuf_notMem_rest (h : Ring pp act rest q) : pp.wbuf ∉ rest :=
  (List.nodup_cons.mp (List.nodup_append.mp h.nodup).2.1).1

/-! ### Replacing a buffer -/

/-- A buffer is replaced by one of the same frame. -/
theorem Shape.update {l : List ℕ} {buf : PipeBuf} {b : ℕ} (h : Shape pp l)
    (hbuf : PipeBuf.SameFrame buf (pp.bufs b)) (n : ℕ) :
    Shape { pp with bufs := Function.update pp.bufs b buf, nmsg := n } l := by
  have hfield : ∀ {β : Type} (f : PipeBuf → β) (c : ℕ), f buf = f (pp.bufs b) →
      f (Function.update pp.bufs b buf c) = f (pp.bufs c) := by
    intro β f c hf
    by_cases hc : c = b
    · subst hc; simpa using hf
    · rw [Function.update_of_ne hc]
  have hlen : ∀ c, (Function.update pp.bufs b buf c).len = (pp.bufs c).len :=
    fun c => hfield PipeBuf.len c hbuf.len
  refine ⟨?_, h.nodup, h.allocated, ?_, ?_, h.bufSize_le, h.max_le⟩
  · exact (path_congr fun c _ => (hfield PipeBuf.nextBuf c hbuf.nextBuf).symm).mp h.linked
  · intro c hc
    have hok := h.sized c hc
    refine ⟨?_, ?_, ?_⟩
    · simpa only [hfield PipeBuf.size c hbuf.size, hlen] using hok.size_eq
    · simpa only [hlen] using hok.min_le
    · simpa only [hlen] using hok.le_max
  · simpa only [hlen] using h.total

/-- The reader moves to the next buffer. -/
theorem Shape.rotate {l : List ℕ} {b : ℕ} (h : Shape pp (b :: l)) :
    Shape { pp with rbuf := (pp.bufs b).nextBuf } (l ++ [b]) := by
  have hmem : ∀ c, c ∈ l ++ [b] ↔ c ∈ b :: l := by simp [or_comm]
  refine ⟨?_, ?_, ?_, ?_, ?_, h.bufSize_le, h.max_le⟩
  · obtain ⟨hb, hl⟩ := h.linked
    exact path_concat.mpr ⟨hb ▸ hl, rfl⟩
  · exact (List.perm_append_singleton b l).nodup_iff.mpr h.nodup
  · exact fun c hc => h.allocated c ((hmem c).mp hc)
  · exact fun c hc => h.sized c ((hmem c).mp hc)
  · rw [← h.total]
    exact ((List.perm_append_singleton b l).map _).sum_eq

/-- The contents of the other buffers after one of them has been replaced. -/
theorem Ring.holds_update {buf : PipeBuf} {ms : List Message} {b : ℕ} (h : Ring pp act rest q)
    (hbuf : buf.Holds ms) : ∀ c ∈ act ++ pp.wbuf :: rest,
      (Function.update pp.bufs b buf c).Holds (Function.update q b ms c) := by
  intro c hc
  by_cases hcb : c = b
  · subst hcb; simpa using hbuf
  · simpa [Function.update_of_ne hcb] using h.holds c hc

/-- The write buffer is replaced by one of the same frame. -/
theorem Ring.update_wbuf {buf : PipeBuf} {ms : List Message} (h : Ring pp act rest q)
    (hbuf : buf.Holds ms) (hframe : PipeBuf.SameFrame buf (pp.bufs pp.wbuf)) (n : ℕ) :
    Ring { pp with bufs := Function.update pp.bufs pp.wbuf buf, nmsg := n } act rest
      (Function.update q pp.wbuf ms) := by
  refine ⟨h.toShape.update hframe n, h.holds_update hbuf, ?_, ?_⟩
  · intro b hb
    rw [Function.update_of_ne (by rintro rfl; exact h.wbuf_notMem_act hb)]
    exact h.act_ne b hb
  · intro b hb
    rw [Function.update_of_ne (by rintro rfl; exact h.wbuf_notMem_rest hb)]
    exact h.rest_nil b hb

/-- The write buffer moves to the next buffer of the ring, which is empty. -/
theorem Ring.advance {r : ℕ} (h : Ring pp act (r :: rest) q) (hne : q pp.wbuf ≠ []) :
    Ring { pp with wbuf := r } (act ++ [pp.wbuf]) rest q := by
  have hlist : (act ++ [pp.wbuf]) ++ r :: rest = act ++ pp.wbuf :: r :: rest := by simp
  refine ⟨?_, hlist ▸ h.holds, ?_, fun b hb => h.rest_nil b (by simp [hb])⟩
  · rw [hlist]
    exact ⟨h.linked, h.nodup, h.allocated, h.sized, h.total, h.bufSize_le, h.max_le⟩
  · intro b hb
    rcases List.mem_append.mp hb with hb | hb
    · exact h.act_ne b hb
    · rw [List.mem_singleton.mp hb]
      exact hne

/-- The buffer behind the write buffer. -/
theorem Ring.next_wbuf (h : Ring pp act rest q) :
    (pp.bufs pp.wbuf).nextBuf = rest.headD pp.rbuf := by
  obtain ⟨r, -, -, hrest⟩ := path_append.mp h.linked
  cases rest with
  | nil => exact hrest
  | cons b rest => exact hrest.1

/-- The read buffer is the first of the ring. -/
theorem Ring.rbuf_eq (h : Ring pp act rest q) : pp.rbuf = act.headD pp.wbuf := by
  have hp := h.linked
  cases act with
  | nil => exact hp.1
  | cons b act => exact hp.1

theorem Ring.bufSize_ge (h : Ring pp act rest q) (h0 : pp.bufSize ≠ 0) :
    pipeBufMinSize ≤ pp.bufSize := by
  have hmin := (h.sized pp.wbuf (by simp)).min_le
  have htotal := h.total
  rw [if_neg h0] at htotal
  simp only [List.map_append, List.map_cons, List.sum_append, List.sum_cons] at htotal
  omega

/-! ### Growing -/

/-- The length of a new buffer, without the wrap-around of the subtraction. -/
theorem Ring.freshBuf_len (h : Ring pp act rest q) (h0 : pp.bufSize ≠ 0) (buf : PipeBuf)
    (block : Mem) : (pipeFreshBuf pp buf block).len + pipeBufExtraSize = pp.bufSize := by
  have hmin := h.bufSize_ge h0
  have hle := h.bufSize_le.trans h.max_le
  simp only [pipeBufMinSize, pipeBufMaxSize, msgMaxSize] at hmin hle
  change u32sub pp.bufSize 26 + 26 = pp.bufSize
  rw [u32sub_of_le (by omega) (by omega)]
  omega

theorem Ring.freshBuf_sized (h : Ring pp act rest q) (h0 : pp.bufSize ≠ 0) (buf : PipeBuf)
    (block : Mem) : (pipeFreshBuf pp buf block).Sized := by
  have hlen := h.freshBuf_len h0 buf block
  refine ⟨?_, ?_, ?_⟩
  · change pp.bufSize - 24 = _
    change _ + 26 = _ at hlen
    omega
  · rw [hlen]
    exact h.bufSize_ge h0
  · rw [hlen]
    exact h.bufSize_le.trans h.max_le

theorem pipeGrow_bufs_new (pp : Pipe) (block : Mem) :
    (pipeGrow pp block).bufs pp.nbufs = pipeFreshBuf pp (pp.bufs pp.wbuf) block := by
  simp [pipeGrow]

theorem pipeGrow_bufs_wbuf {pp : Pipe} (h : pp.wbuf ≠ pp.nbufs) (block : Mem) :
    (pipeGrow pp block).bufs pp.wbuf = { pp.bufs pp.wbuf with nextBuf := pp.nbufs } := by
  simp [pipeGrow, h]

theorem pipeGrow_bufs_of_ne {pp : Pipe} {b : ℕ} (hn : b ≠ pp.nbufs) (hw : b ≠ pp.wbuf)
    (block : Mem) : (pipeGrow pp block).bufs b = pp.bufs b := by
  simp [pipeGrow, hn, hw]

/-- A property of the buffers of a ring that does not look at the links is kept by
growing, when it holds of the new buffer. -/
private theorem forall_pipeGrow {P : ℕ → PipeBuf → Prop} {block : Mem}
    (hnew : ∀ b ∈ act ++ [pp.wbuf], b ≠ pp.nbufs)
    (hP : ∀ b ∈ act ++ [pp.wbuf], P b (pp.bufs b))
    (hrelink : P pp.wbuf (pp.bufs pp.wbuf) →
      P pp.wbuf { pp.bufs pp.wbuf with nextBuf := pp.nbufs })
    (hfresh : P pp.nbufs (pipeFreshBuf pp (pp.bufs pp.wbuf) block)) :
    ∀ b ∈ (act ++ [pp.wbuf]) ++ [pp.nbufs], P b ((pipeGrow pp block).bufs b) := by
  intro b hb
  rcases List.mem_append.mp hb with hb | hb
  · by_cases hw : b = pp.wbuf
    · rw [hw, pipeGrow_bufs_wbuf (hnew _ (by simp))]
      exact hrelink (hP _ (by simp))
    · rw [pipeGrow_bufs_of_ne (hnew b hb) hw]
      exact hP b hb
  · rw [List.mem_singleton.mp hb, pipeGrow_bufs_new]
    exact hfresh

/-- A new buffer is linked behind the write buffer of a ring without free buffers. -/
theorem Ring.grow (h : Ring pp act [] q) (hne : q pp.wbuf ≠ []) (h0 : pp.bufSize ≠ 0)
    (hmax : u32 (2 * pp.bufSize) ≤ pp.bufMaxSize) (block : Mem) :
    Ring (pipeGrow pp block) (act ++ [pp.wbuf]) [] (Function.update q pp.nbufs []) := by
  have hnew : ∀ b ∈ act ++ [pp.wbuf], b ≠ pp.nbufs := by
    intro b hb
    exact (h.allocated b hb).ne
  have hwbuf : (pipeGrow pp block).wbuf = pp.nbufs := rfl
  refine ⟨⟨?_, ?_, ?_, ?_, ?_, hmax, h.max_le⟩, ?_, ?_, by simp⟩
  · -- The old ring up to the write buffer, then the new buffer.
    rw [hwbuf, path_append]
    refine ⟨pp.nbufs, path_concat.mpr ⟨?_, ?_⟩, rfl, ?_⟩
    · refine (path_congr fun b hb => ?_).mp (path_concat.mp h.linked).1
      rw [pipeGrow_bufs_of_ne (hnew b (by simp [hb])) (by rintro rfl; exact h.wbuf_notMem_act hb)]
    · rw [pipeGrow_bufs_wbuf (hnew _ (by simp))]
    · change ((pipeGrow pp block).bufs pp.nbufs).nextBuf = pp.rbuf
      rw [pipeGrow_bufs_new]
      exact h.next_wbuf
  · refine List.nodup_append.mpr ⟨h.nodup, by simp, ?_⟩
    intro b hb c hc
    rw [List.mem_singleton.mp hc]
    exact hnew b hb
  · intro b hb
    change b < pp.nbufs + 1
    rcases List.mem_append.mp hb with hb | hb
    · exact Nat.lt_succ_of_lt (h.allocated b hb)
    · rw [List.mem_singleton.mp hb, hwbuf]
      exact Nat.lt_succ_self _
  · exact forall_pipeGrow (P := fun _ buf => buf.Sized) hnew h.sized (fun hs => hs.relink _)
      (h.freshBuf_sized h0 _ _)
  · have hmap : ((act ++ [pp.wbuf]).map fun b =>
        ((pipeGrow pp block).bufs b).len + pipeBufExtraSize) =
        (act ++ [pp.wbuf]).map fun b => (pp.bufs b).len + pipeBufExtraSize := by
      refine List.map_congr_left fun b hb => ?_
      by_cases hw : b = pp.wbuf
      · rw [hw, pipeGrow_bufs_wbuf (hnew _ (by simp))]
      · rw [pipeGrow_bufs_of_ne (hnew b hb) hw]
    have htotal := h.total
    rw [if_neg h0] at htotal
    have hle := h.bufSize_le.trans h.max_le
    simp only [pipeBufMaxSize] at hle
    rw [hwbuf, List.map_append, List.sum_append, hmap, htotal, List.map_singleton,
      List.sum_singleton, pipeGrow_bufs_new, h.freshBuf_len h0]
    change pp.bufSize + pp.bufSize =
      if (2 * pp.bufSize) % 2 ^ 32 = 0 then 2 ^ 32 else (2 * pp.bufSize) % 2 ^ 32
    split <;> omega
  · refine forall_pipeGrow (P := fun b buf => buf.Holds (Function.update q pp.nbufs [] b)) hnew
      ?_ (fun hh => hh.relink _) ?_
    · intro b hb
      rw [Function.update_of_ne (hnew b hb)]
      exact h.holds b hb
    · rw [Function.update_self]
      exact .empty rfl rfl
  · intro b hb
    rw [Function.update_of_ne (hnew b hb)]
    rcases List.mem_append.mp hb with hb | hb
    · exact h.act_ne b hb
    · rw [List.mem_singleton.mp hb]
      exact hne

end Pipe

/-! ## The passes perform the queue operations -/

/-- The states in which a put pass is correct: the write buffer is not exactly full
and the total size has not wrapped to zero. -/
def PutSafe (pp : Pipe) : Prop := ¬(pp.bufs pp.wbuf).ExactlyFull ∧ pp.bufSize ≠ 0

instance (pp : Pipe) : Decidable (PutSafe pp) :=
  inferInstanceAs (Decidable (¬(pp.bufs pp.wbuf).ExactlyFull ∧ pp.bufSize ≠ 0))

namespace Pipe

variable {pp : Pipe} {act rest : List ℕ} {q : ℕ → List Message} {queue : List Message}
  {msg : Message}

/-- The counters of blocked callers are no part of the queue. -/
theorem Rep.signals (h : Rep pp queue) (m n : ℕ) :
    Rep { pp with signalOnPut := m, signalOnGet := n } queue := by
  obtain ⟨act, rest, q, hr, hw, hq, hn⟩ := h
  exact ⟨act, rest, q, ⟨⟨hr.linked, hr.nodup, hr.allocated, hr.sized, hr.total, hr.bufSize_le,
    hr.max_le⟩, hr.holds, hr.act_ne, hr.rest_nil⟩, hw, hq, hn⟩

/-- Storing a message into the write buffer appends it to the queue. -/
theorem Ring.store {buf buf' : PipeBuf} (h : Ring pp act rest q)
    (hn : pp.nmsg = (act.flatMap q ++ q pp.wbuf).length) (happ : buf.append msg = some buf')
    (hbuf : buf'.Holds (q pp.wbuf ++ [msg])) (hframe : PipeBuf.SameFrame buf' (pp.bufs pp.wbuf)) :
    ∃ pp' sig, pipePutStore pp pp.wbuf buf msg = some (.stored pp' sig) ∧
      Rep pp' (act.flatMap q ++ q pp.wbuf ++ [msg]) := by
  have hbound := h.length_lt
  have hflat : act.flatMap (Function.update q pp.wbuf (q pp.wbuf ++ [msg])) = act.flatMap q := by
    refine List.flatMap_congr fun b hb => ?_
    rw [Function.update_of_ne (by rintro rfl; exact h.wbuf_notMem_act hb)]
  refine ⟨_, _, by rw [pipePutStore, happ]; rfl, act, rest, _,
    h.update_wbuf hbuf hframe _, ?_, ?_, ?_⟩
  · intro _
    simp
  · rw [hflat]
    simp
  · change u32 (pp.nmsg + 1) = _
    rw [u32_of_lt (by omega), hn]
    simp only [List.length_append, List.length_singleton]

/-- The write buffer of a pipe that a message does not fit into is not empty. -/
theorem Ring.wbuf_ne_of_room_lt (h : Ring pp act rest q)
    (hroom : (pp.bufs pp.wbuf).room < msg.size) : q pp.wbuf ≠ [] := by
  intro hnil
  have hmem := Ring.mem_wbuf pp act rest
  have hh := h.holds _ hmem
  have hok := h.sized _ hmem
  obtain ⟨hb, he⟩ := hh.eq_nil_iff.mp hnil
  rw [hh.room_eq hok, if_neg (by simp [PipeBuf.wrapped, hb]), he] at hroom
  have hmin := hok.min_le
  have hmsg := msg.size_le
  simp only [pipeBufMinSize, pipeBufExtraSize, pipeBufHeader, msgMaxSize] at hmin
  omega

/-- The buffer behind the write buffer is free exactly when the ring has free
buffers. -/
theorem Ring.next_free_iff (h : Ring pp act rest q) (hne : q pp.wbuf ≠ []) :
    (pp.wbuf ≠ (pp.bufs pp.wbuf).nextBuf ∧
      (pp.bufs (pp.bufs pp.wbuf).nextBuf).beginIdx = 0 ∧
      (pp.bufs (pp.bufs pp.wbuf).nextBuf).endIdx = 0) ↔ rest ≠ [] := by
  rw [h.next_wbuf]
  cases rest with
  | nil =>
      -- The next buffer is the read buffer, which holds messages.
      have hmem : pp.rbuf ∈ act ++ [pp.wbuf] := by
        rw [h.rbuf_eq]
        cases act <;> simp
      have hq : q pp.rbuf ≠ [] := by
        rcases List.mem_append.mp hmem with hr | hr
        · exact h.act_ne _ hr
        · rw [List.mem_singleton.mp hr]
          exact hne
      have hiff := (h.holds _ hmem).eq_nil_iff
      simp only [List.headD_nil, ne_eq, not_true_eq_false, iff_false]
      exact fun hfree => hq (hiff.mpr hfree.2)
  | cons r rest =>
      have hmem : r ∈ act ++ pp.wbuf :: r :: rest := by simp
      have hnil := h.rest_nil r (by simp)
      have hne : pp.wbuf ≠ r := by
        rintro rfl
        exact (List.nodup_cons.mp (List.nodup_append.mp h.nodup).2.1).1 (by simp)
      simp only [List.headD_cons, ne_eq, List.cons_ne_nil, not_false_eq_true, iff_true]
      exact ⟨hne, (h.holds _ hmem).eq_nil_iff.mp hnil⟩

end Pipe

open Pipe in
/-- **A put pass appends its message to the queue or leaves the queue alone.** -/
theorem putPass_spec {pp : Pipe} {queue : List Message} (h : Rep pp queue) (hsafe : PutSafe pp)
    (msg : Message) (malloc : Option Mem) :
    (∃ pp' sig, pipePutPass pp msg malloc = some (.stored pp' sig) ∧ Rep pp' (queue ++ [msg])) ∨
      pipePutPass pp msg malloc =
        some (.blocked { pp with signalOnGet := u32 (pp.signalOnGet + 1) }) := by
  obtain ⟨act, rest, q, hr, hw, hq, hn⟩ := h
  obtain ⟨hnf, h0⟩ := hsafe
  have hmem := Ring.mem_wbuf pp act rest
  have hh := hr.holds _ hmem
  have hok := hr.sized _ hmem
  subst hq
  simp only [pipePutPass]
  by_cases hroom : msg.size > (pp.bufs pp.wbuf).room
  · rw [if_pos hroom]
    have hne := hr.wbuf_ne_of_room_lt hroom
    by_cases hwrap : ¬(pp.bufs pp.wbuf).wrapped ∧ (pp.bufs pp.wbuf).beginIdx > msg.size
    · rw [if_pos hwrap]
      obtain ⟨buf₁, buf', hw₁, happ, hbuf, hframe⟩ :=
        hh.wrap_append hok hnf hwrap.1 hwrap.2
      rw [hw₁]
      exact Or.inl (hr.store hn happ hbuf hframe)
    · rw [if_neg hwrap]
      cases rest with
      | cons r rest =>
          rw [if_pos ((hr.next_free_iff hne).mpr (by simp)), hr.next_wbuf]
          have hadv := hr.advance hne
          have hrnil := hr.rest_nil r (by simp)
          have hrmem : r ∈ act ++ pp.wbuf :: r :: rest := by simp
          obtain ⟨hb, he⟩ := (hr.holds r hrmem).eq_nil_iff.mp hrnil
          obtain ⟨buf', happ, hbuf, hframe⟩ :=
            PipeBuf.append_of_empty (hr.sized r hrmem) hb he msg
          have hstore := hadv.store (by simp [hn, hrnil]) happ
            (by simpa [hrnil] using hbuf) hframe
          left
          simpa [hrnil] using hstore
      | nil =>
          rw [if_neg (fun hfree => (hr.next_free_iff hne).mp hfree rfl)]
          by_cases hmax : u32 (2 * pp.bufSize) ≤ pp.bufMaxSize
          · rw [if_pos hmax]
            cases malloc with
            | none => exact Or.inr rfl
            | some block =>
                have hgrow := hr.grow hne h0 hmax block
                have hq' : ∀ b ∈ act ++ [pp.wbuf], Function.update q pp.nbufs [] b = q b := by
                  intro b hb
                  rw [Function.update_of_ne (hr.allocated b hb).ne]
                have hflat : (act ++ [pp.wbuf]).flatMap (Function.update q pp.nbufs []) =
                    act.flatMap q ++ q pp.wbuf := by
                  rw [List.flatMap_congr hq']
                  simp
                obtain ⟨buf', happ, hbuf, hframe⟩ :=
                  PipeBuf.append_of_empty (hr.freshBuf_sized h0 (pp.bufs pp.wbuf) block)
                    rfl rfl msg
                have hnew : Function.update q pp.nbufs [] (pipeGrow pp block).wbuf = [] :=
                  Function.update_self ..
                rw [← pipeGrow_bufs_new] at hframe
                have hstore := hgrow.store (by rw [hnew, hflat, List.append_nil]; exact hn)
                  happ (by rw [hnew]; exact hbuf) hframe
                rw [hnew, hflat, List.append_nil] at hstore
                exact Or.inl hstore
          · rw [if_neg hmax]
            exact Or.inr rfl
  · rw [if_neg hroom]
    obtain ⟨buf', happ, hbuf, hframe⟩ := hh.append_of_room hok hnf (not_lt.mp hroom)
    exact Or.inl (hr.store hn happ hbuf hframe)

namespace Pipe

variable {pp : Pipe} {act rest : List ℕ} {q : ℕ → List Message} {ms : List Message}
  {buf : PipeBuf} {b : ℕ}

/-- The first buffer gives a message and keeps others. -/
theorem Ring.update_first (h : Ring pp (b :: act) rest q) (hbuf : buf.Holds ms) (hms : ms ≠ [])
    (hframe : PipeBuf.SameFrame buf (pp.bufs b)) (n : ℕ) :
    Ring { pp with bufs := Function.update pp.bufs b buf, nmsg := n } (b :: act) rest
      (Function.update q b ms) := by
  refine ⟨h.toShape.update hframe n, h.holds_update hbuf, ?_, ?_⟩
  · intro c hc
    by_cases hcb : c = b
    · subst hcb; simpa using hms
    · rw [Function.update_of_ne hcb]
      exact h.act_ne c hc
  · intro c hc
    have hcb : c ≠ b := by
      rintro rfl
      exact (List.nodup_cons.mp h.nodup).1 (by simp [hc])
    rw [Function.update_of_ne hcb]
    exact h.rest_nil c hc

/-- The first buffer gives its last message and goes to the end of the ring. -/
theorem Ring.drop_first (h : Ring pp (b :: act) rest q) (hbuf : buf.Holds [])
    (hframe : PipeBuf.SameFrame buf (pp.bufs b)) (n : ℕ) :
    Ring { pp with rbuf := buf.nextBuf, bufs := Function.update pp.bufs b buf, nmsg := n }
      act (rest ++ [b]) (Function.update q b []) := by
  have hshape : Shape
      { pp with rbuf := buf.nextBuf, bufs := Function.update pp.bufs b buf, nmsg := n }
      (act ++ pp.wbuf :: (rest ++ [b])) := by
    have hrot := (h.toShape.update hframe n).rotate
    simpa using hrot
  have hmem : ∀ c, c ∈ act ++ pp.wbuf :: (rest ++ [b]) → c ∈ b :: act ++ pp.wbuf :: rest := by
    intro c hc
    simp only [List.mem_append, List.mem_cons, List.not_mem_nil, or_false,
      List.cons_append] at hc ⊢
    tauto
  have hact : b ∉ act := fun hb => (List.nodup_cons.mp h.nodup).1 (by simp [hb])
  refine ⟨hshape, fun c hc => h.holds_update hbuf c (hmem c hc), ?_, ?_⟩
  · intro c hc
    rw [Function.update_of_ne (by rintro rfl; exact hact hc)]
    exact h.act_ne c (by simp [hc])
  · intro c hc
    by_cases hcb : c = b
    · rw [hcb, Function.update_self]
    · rw [Function.update_of_ne hcb]
      exact h.rest_nil c (by simpa [hcb] using hc)

/-- The queue of the buffers that a write to another buffer does not touch. -/
theorem flatMap_update_of_notMem {l : List ℕ} (hb : b ∉ l) :
    l.flatMap (Function.update q b ms) = l.flatMap q := by
  refine List.flatMap_congr fun c hc => ?_
  rw [Function.update_of_ne (by rintro rfl; exact hb hc)]

end Pipe

/-- The state and the signals of a get pass that finds a message. -/
theorem pipeGetPass_of_take {pp : Pipe} {m : List UInt8} {buf : PipeBuf} {emptied : Bool}
    (hpos : pp.nmsg ≠ 0) (htake : (pp.bufs pp.rbuf).take = some (m, buf, emptied)) :
    pipeGetPass pp = some (.taken
      { pp with
        rbuf := if emptied ∧ pp.nmsg > 1 then buf.nextBuf else pp.rbuf
        bufs := Function.update pp.bufs pp.rbuf buf
        nmsg := u32sub pp.nmsg 1 }
      m (u32sub pp.nmsg 1 ≠ 0 ∧ pp.signalOnPut ≠ 0) (pp.signalOnGet ≠ 0)) := by
  rw [pipeGetPass, if_pos hpos, htake]
  rfl

open Pipe in
/-- A get pass on an empty queue blocks. -/
theorem getPass_nil {pp : Pipe} (h : Rep pp []) :
    pipeGetPass pp = some (.blocked { pp with signalOnPut := u32 (pp.signalOnPut + 1) }) := by
  obtain ⟨act, rest, q, hr, hw, hq, hn⟩ := h
  rw [pipeGetPass, if_neg (by simp [hn])]

open Pipe in
/-- **A get pass returns the oldest message and removes it from the queue.** -/
theorem getPass_cons {pp : Pipe} {msg : Message} {queue : List Message}
    (h : Rep pp (msg :: queue)) :
    ∃ pp' sp sg, pipeGetPass pp = some (.taken pp' msg.bytes sp sg) ∧ Rep pp' queue := by
  obtain ⟨act, rest, q, hr, hw, hq, hn⟩ := h
  have hbound := hr.length_lt
  rw [← hq] at hbound
  have hn' : u32sub pp.nmsg 1 = queue.length := by
    rw [hn, u32sub_of_le (by simp) (by omega)]
    simp
  have hpos : pp.nmsg ≠ 0 := by simp [hn]
  cases act with
  | nil =>
      -- All messages are in the write buffer, from which the reader takes.
      have hrw : pp.rbuf = pp.wbuf := hr.rbuf_eq
      rw [List.flatMap_nil, List.nil_append] at hq
      have hmem := Ring.mem_wbuf pp [] rest
      obtain ⟨buf', htake, hbuf, hframe⟩ := (hq ▸ hr.holds _ hmem).take (hr.sized _ hmem)
      have hstay : ¬(queue.isEmpty = true ∧ pp.nmsg > 1) := by
        rw [hn, List.isEmpty_iff, List.length_cons]
        intro hc
        simp [hc.1] at hc
      rw [pipeGetPass_of_take hpos (hrw ▸ htake), if_neg hstay, hn']
      refine ⟨_, _, _, rfl, [], rest, Function.update q pp.wbuf queue, ?_, by simp, by simp, rfl⟩
      simpa only [hrw] using hr.update_wbuf hbuf hframe queue.length
  | cons b act =>
      have hrb : pp.rbuf = b := hr.rbuf_eq
      have hwne : q pp.wbuf ≠ [] := hw (by simp)
      have hbw : pp.wbuf ≠ b := by
        rintro rfl
        exact hr.wbuf_notMem_act (by simp)
      have hact : b ∉ act := fun hb => (List.nodup_cons.mp hr.nodup).1 (by simp [hb])
      obtain ⟨m, ms, hqb⟩ := List.exists_cons_of_ne_nil (hr.act_ne b (by simp))
      rw [List.flatMap_cons, hqb, List.cons_append, List.cons_append, List.cons.injEq] at hq
      obtain ⟨rfl, rfl⟩ := hq
      have hmem : b ∈ b :: act ++ pp.wbuf :: rest := by simp
      obtain ⟨buf', htake, hbuf, hframe⟩ := (hqb ▸ hr.holds b hmem).take (hr.sized b hmem)
      have hmany : pp.nmsg > 1 := by
        have := List.length_pos_iff.mpr hwne
        simp only [hn, List.length_cons, List.length_append]
        omega
      rw [pipeGetPass_of_take hpos (hrb ▸ htake), hn']
      simp only [hmany, and_true]
      cases hms : ms with
      | nil =>
          subst hms
          rw [List.isEmpty_nil, if_pos rfl, hrb]
          refine ⟨_, _, _, rfl, act, rest ++ [b], Function.update q b [],
            hr.drop_first hbuf hframe _, ?_, ?_, ?_⟩
          · intro _
            simpa [Function.update_of_ne hbw] using hwne
          · simp [Function.update_of_ne hbw, flatMap_update_of_notMem hact]
          · simp
      | cons m' ms' =>
          have hne : ms ≠ [] := by simp [hms]
          rw [← hms, show ms.isEmpty = false by simpa using hne, if_neg (by simp)]
          refine ⟨_, _, _, rfl, b :: act, rest, Function.update q b ms, ?_, ?_, ?_, ?_⟩
          · simpa only [hrb] using hr.update_first hbuf hne hframe _
          · intro _
            simpa [Function.update_of_ne hbw] using hwne
          · simp [Function.update_of_ne hbw, flatMap_update_of_notMem hact]
          · simp

/-! ## Runs -/

namespace Pipe

/-- The messages that the next `n` calls of `pipe_get` return. -/
def drain : ℕ → Pipe → Option (List (List UInt8))
  | 0, _ => some []
  | n + 1, pp =>
      match pipeGetPass pp with
      | some (.taken pp' msg _ _) => (drain n pp').map (msg :: ·)
      | _ => none

/-- The queued messages, as a reader will see them. -/
def queued (pp : Pipe) : Option (List (List UInt8)) := drain pp.nmsg pp

theorem Rep.nmsg_eq {pp : Pipe} {queue : List Message} (h : Rep pp queue) :
    pp.nmsg = queue.length := by
  obtain ⟨act, rest, q, hr, hw, hq, hn⟩ := h
  exact hn

theorem Rep.drain_eq {pp : Pipe} {queue : List Message} (h : Rep pp queue) :
    drain queue.length pp = some (queue.map Message.bytes) := by
  induction queue generalizing pp with
  | nil => rfl
  | cons msg queue ih =>
      obtain ⟨pp', sp, sg, hget, hrep⟩ := getPass_cons h
      simp only [List.length_cons, drain, hget, ih hrep, Option.map_some, List.map_cons]

theorem Rep.queued_eq {pp : Pipe} {queue : List Message} (h : Rep pp queue) :
    queued pp = some (queue.map Message.bytes) := by
  rw [queued, h.nmsg_eq, h.drain_eq]

/-- `pipe_new` builds the empty queue. -/
theorem rep_pipeNew {maxSize minSize : ℕ} {malloc : Option Mem} {pp : Pipe}
    (h : pipeNew maxSize minSize malloc = .ok pp) : Rep pp [] := by
  unfold pipeNew at h
  split at h
  · rename_i hchecks
    cases malloc with
    | none => exact absurd h (by simp)
    | some block =>
        obtain rfl : pipeInit maxSize minSize block = pp := by simpa using h
        simp only [PipeNewChecks, pipeBufMinSize, pipeBufMaxSize, msgMaxSize, not_or, Nat.not_lt,
          gt_iff_lt] at hchecks
        obtain ⟨hle, hmin, hmax, -⟩ := hchecks
        have hlen : u32sub minSize pipeBufExtraSize = minSize - 26 :=
          u32sub_of_le (by simp only [pipeBufExtraSize, pipeBufHeader]; omega) (by omega)
        have hextra : pipeBufExtraSize = 26 := rfl
        refine ⟨[], [], fun _ => [], ⟨⟨⟨rfl, rfl⟩, by simp, ?_, ?_, ?_, hle, hmax⟩, ?_, by simp,
          by simp⟩, by simp, by simp, rfl⟩
        · intro b hb
          rw [List.mem_singleton.mp hb]
          exact Nat.one_pos
        · intro b _
          have hblen : ((pipeInit maxSize minSize block).bufs b).len = minSize - 26 := hlen
          refine ⟨?_, ?_, ?_⟩
          · rw [hblen]
            change minSize - 24 = _
            omega
          · rw [hblen, hextra]
            change 4096 ≤ _
            omega
          · rw [hblen, hextra]
            change _ ≤ 2147483648
            omega
        · change u32sub minSize pipeBufExtraSize + 26 + 0 = if minSize = 0 then _ else minSize
          rw [hlen, if_neg (by omega)]
          omega
        · exact fun b _ => .empty rfl rfl
  · exact absurd h (by simp)

end Pipe

/-- The condition on the state before an atomic section: a section that makes a put
pass finds a state in which the pass is correct. -/
def PipeOp.Safe (s : PipeSys) : PipeOp → Prop
  | .put _ _ => PutSafe s.pp
  | .putWake _ res _ => res = .signalled → PutSafe s.pp
  | .get => True
  | .getWake _ => True

/-- The section ends a call because its wait has timed out. -/
def PipeOp.TimesOut : PipeOp → Prop
  | .putWake _ res _ => res = .timedOut
  | .getWake res => res = .timedOut
  | _ => False

namespace PipeSys

/-- The transitions of a run. -/
def Step (s s' : PipeSys) : Prop := ∃ op, s.step op = some s'

/-- The transitions whose section is safe. -/
def SafeStep (s s' : PipeSys) : Prop := ∃ op : PipeOp, op.Safe s ∧ s.step op = some s'

/-- What a lossless queue guarantees of the history of a run. -/
structure Fifo (s : PipeSys) : Prop where
  /-- The messages got are those put first, byte for byte and in order. -/
  gets_isPrefix : s.gets <+: s.puts.map Message.bytes
  /-- The messages put and not yet got are the queued ones. -/
  queued_eq : s.pp.queued = some ((s.puts.map Message.bytes).drop s.gets.length)
  /-- The counter of the pipe is exact. -/
  nmsg_eq : s.pp.nmsg = s.puts.length - s.gets.length

/-- The invariant of a safe run: the pipe represents the messages not yet got. -/
def Inv (s : PipeSys) : Prop :=
  ∃ queue, s.pp.Rep queue ∧ s.puts.map Message.bytes = s.gets ++ queue.map Message.bytes

variable {s s' : PipeSys}

theorem Inv.fifo (h : s.Inv) : s.Fifo := by
  obtain ⟨queue, hrep, hq⟩ := h
  have hlen := congrArg List.length hq
  simp only [List.length_map, List.length_append] at hlen
  refine ⟨⟨_, hq.symm⟩, ?_, ?_⟩
  · rw [hrep.queued_eq, hq, List.drop_left]
  · rw [hrep.nmsg_eq]
    omega

/-- A put pass keeps the invariant; it stores its message or blocks. -/
theorem Inv.put (h : s.Inv) (hsafe : PutSafe s.pp) (msg : Message) (malloc : Option Mem) :
    ∃ s', s.put msg malloc = some s' ∧ s'.Inv := by
  obtain ⟨queue, hrep, hq⟩ := h
  rcases putPass_spec hrep hsafe msg malloc with ⟨pp', sig, hpass, hrep'⟩ | hpass
  · refine ⟨_, by rw [PipeSys.put, hpass]; rfl, queue ++ [msg], hrep', ?_⟩
    simp [endPut, hq]
  · exact ⟨s.endPut msg (.blocked _), by rw [PipeSys.put, hpass]; rfl, queue, hrep.signals _ _, hq⟩

/-- A get pass keeps the invariant. -/
theorem Inv.get (h : s.Inv) : ∃ s', s.get = some s' ∧ s'.Inv := by
  obtain ⟨queue, hrep, hq⟩ := h
  cases queue with
  | nil =>
      exact ⟨s.endGet (.blocked _), by rw [PipeSys.get, getPass_nil hrep]; rfl, [],
        hrep.signals _ _, hq⟩
  | cons msg queue =>
      obtain ⟨pp', sp, sg, hpass, hrep'⟩ := getPass_cons hrep
      refine ⟨_, by rw [PipeSys.get, hpass]; rfl, queue, hrep', ?_⟩
      simpa [endGet] using hq

theorem putSafe_putWake {pp : Pipe} (h : PutSafe pp) : PutSafe (putWake pp).1 := by
  simpa [PutSafe, putWake] using h

/-- Every safe section is defined and keeps the invariant. -/
theorem Inv.step (h : s.Inv) {op : PipeOp} (hsafe : op.Safe s) :
    ∃ s', s.step op = some s' ∧ s'.Inv := by
  have hsignals : ∀ m n : ℕ, Inv { s with pp := { s.pp with signalOnPut := m, signalOnGet := n } } := by
    intro m n
    obtain ⟨queue, hrep, hq⟩ := h
    exact ⟨queue, hrep.signals m n, hq⟩
  cases op with
  | put msg malloc => exact h.put hsafe msg malloc
  | putWake i res malloc =>
      simp only [PipeSys.step]
      cases s.putters[i]? with
      | none => exact ⟨s, rfl, h⟩
      | some msg =>
          have hwake : Inv
              { s with pp := (putWake s.pp).1, putters := s.putters.eraseIdx i } := hsignals _ _
          by_cases hres : res = .signalled
          · simp only [hres, if_true]
            exact hwake.put (putSafe_putWake (hsafe hres)) msg malloc
          · simp only [hres, if_false]
            exact ⟨_, rfl, hwake⟩
  | get => exact h.get
  | getWake res =>
      simp only [PipeSys.step]
      by_cases hg : s.getters = 0
      · exact ⟨s, by rw [if_pos hg], h⟩
      · have hwake : Inv { s with pp := getWake s.pp, getters := s.getters - 1 } := hsignals _ _
        rw [if_neg hg]
        by_cases hres : res = .signalled
        · simp only [hres, if_true]
          exact hwake.get
        · simp only [hres, if_false]
          exact ⟨_, rfl, hwake⟩

/-- A call that times out leaves no trace in the history. -/
theorem step_timesOut {op : PipeOp} (ht : op.TimesOut) (hs : s.step op = some s') :
    s'.puts = s.puts ∧ s'.gets = s.gets := by
  cases op with
  | put msg malloc => exact ht.elim
  | putWake i res malloc =>
      obtain rfl : res = .timedOut := ht
      simp only [PipeSys.step] at hs
      split at hs <;> obtain rfl := Option.some.inj hs <;> exact ⟨rfl, rfl⟩
  | get => exact ht.elim
  | getWake res =>
      obtain rfl : res = .timedOut := ht
      simp only [PipeSys.step] at hs
      split at hs <;> obtain rfl := Option.some.inj hs <;> exact ⟨rfl, rfl⟩

/-- The invariant holds in every state of a safe run. -/
theorem inv_of_safe_run {pp : Pipe} {maxSize minSize : ℕ} {malloc : Option Mem}
    (hnew : pipeNew maxSize minSize malloc = .ok pp)
    (hrun : Relation.ReflTransGen SafeStep (init pp) s) : s.Inv := by
  induction hrun with
  | refl => exact ⟨[], Pipe.rep_pipeNew hnew, rfl⟩
  | tail _ hstep ih =>
      obtain ⟨op, hsafe, hop⟩ := hstep
      obtain ⟨s', hs', hinv⟩ := ih.step hsafe
      obtain rfl := Option.some.inj (hs'.symm.trans hop)
      exact hinv

end PipeSys

/-- **A run of safe sections is a lossless queue.**  In every state reached, the
messages got are a prefix of the messages put and the counter is exact; every safe
section stays inside the allocated blocks, and a call that times out leaves the
queued messages as they were. -/
theorem safe_run_fifo {maxSize minSize : ℕ} {malloc : Option Mem} {pp : Pipe}
    (hnew : pipeNew maxSize minSize malloc = .ok pp) {s : PipeSys}
    (hrun : Relation.ReflTransGen PipeSys.SafeStep (PipeSys.init pp) s) :
    s.Fifo ∧ ∀ op : PipeOp, op.Safe s → ∃ s', s.step op = some s' ∧
      (op.TimesOut → s'.pp.queued = s.pp.queued ∧ s'.pp.nmsg = s.pp.nmsg) := by
  have hinv := PipeSys.inv_of_safe_run hnew hrun
  refine ⟨hinv.fifo, fun op hsafe => ?_⟩
  obtain ⟨s', hs', hinv'⟩ := hinv.step hsafe
  refine ⟨s', hs', fun ht => ?_⟩
  obtain ⟨hputs, hgets⟩ := PipeSys.step_timesOut ht hs'
  rw [hinv'.fifo.queued_eq, hinv.fifo.queued_eq, hinv'.fifo.nmsg_eq, hinv.fifo.nmsg_eq, hputs,
    hgets]
  exact ⟨rfl, rfl⟩

/-! ## An exactly full buffer -/

/-- The message of one string of 496 bytes: a header of eight bytes with the type
and the length, and the bytes. -/
def filledMessage (c : UInt8) : Message where
  items := [4, 240, 1, 0, 0, 0, 0, 0] ++ List.replicate 496 c
  items_le := by
    rw [List.length_append, List.length_replicate]
    decide

/-- Eight messages fill a buffer of the minimal size.  Two are read, two are written
into the place of these, and now the indexes meet; the next message goes over the
third one. -/
def overwriteOps : List PipeOp :=
  (List.range 8).map (fun i => .put (filledMessage (UInt8.ofNat i)) none) ++ [.get, .get] ++
    [.put (filledMessage 8) none, .put (filledMessage 9) none, .put (filledMessage 10) none, .get]

/-- The pipe is not a lossless queue: after a put into an exactly full buffer, the
third message got is not the third one put. -/
theorem pipe_overwrites_message :
    ∃ pp s, pipeNew 4096 4096 (some fun _ => 0) = .ok pp ∧
      Relation.ReflTransGen PipeSys.Step (PipeSys.init pp) s ∧
      ¬s.gets <+: s.puts.map Message.bytes := by
  have hrun : (runOps PipeSys.step (PipeSys.init (pipeInit 4096 4096 fun _ => 0)) overwriteOps).map
      (fun s => decide (s.gets[2]? = (s.puts.map Message.bytes)[2]? ∨ s.gets.length ≤ 2)) =
        some false := by
    decide +kernel
  obtain ⟨s, hs, hne⟩ := Option.map_eq_some_iff.mp hrun
  refine ⟨_, s, rfl, reach_of_runOps (fun _ op _ hop => ⟨op, hop⟩) hs, fun hpre => ?_⟩
  obtain ⟨hthird, hlen⟩ := not_or.mp (of_decide_eq_false hne)
  obtain ⟨t, ht⟩ := hpre
  exact hthird (by rw [← ht, List.getElem?_append_left (by omega)])

instance (s : PipeSys) (op : PipeOp) : Decidable (op.Safe s) :=
  match op with
  | .put _ _ => inferInstanceAs (Decidable (PutSafe s.pp))
  | .putWake _ res _ => inferInstanceAs (Decidable (res = .signalled → PutSafe s.pp))
  | .get | .getWake _ => inferInstanceAs (Decidable True)

/-- A message of a string of 504 bytes. -/
def wideMessage : Message where
  items := [4, 248, 1, 0, 0, 0, 0, 0] ++ List.replicate 504 11
  items_le := by
    rw [List.length_append, List.length_replicate]
    decide

/-- Eight messages fill a buffer and two are read; the next one is put into their place, and the
last one, which does not fit there, into a second buffer.  All are read. -/
def secondBufferOps : List PipeOp :=
  (List.range 8).map (fun i => .put (filledMessage (UInt8.ofNat i)) none) ++
    [.get, .get, .put (filledMessage 8) none, .put wideMessage (some fun _ => 0)] ++
    List.replicate 8 .get

theorem safe_run_fifo_secondBuffer :
    ∃ s, Relation.ReflTransGen PipeSys.SafeStep (PipeSys.init (pipeInit 8192 4096 fun _ => 0)) s ∧
      s.pp.nbufs = 2 ∧ s.puts.length = 10 ∧ s.gets.length = 10 ∧ s.Fifo := by
  have hnew : pipeNew 8192 4096 (some fun _ => 0) = .ok (pipeInit 8192 4096 fun _ => 0) := by rfl
  have hops : (runOps PipeSys.step (PipeSys.init (pipeInit 8192 4096 fun _ => 0))
      secondBufferOps).map (fun s => (s.pp.nbufs, s.puts.length, s.gets.length)) =
        some (2, 10, 10) := by
    decide +kernel
  obtain ⟨s, hs, heq⟩ := Option.map_eq_some_iff.mp hops
  simp only [Prod.mk.injEq] at heq
  have hsafe : SafeSteps PipeSys.step (fun s op => op.Safe s)
      (PipeSys.init (pipeInit 8192 4096 fun _ => 0)) secondBufferOps := by
    decide +kernel
  have hrun := hsafe.reach (R := PipeSys.SafeStep) (fun _ op _ hop hs => ⟨op, hop, hs⟩) hs
  exact ⟨s, hrun, heq.1, heq.2.1, heq.2.2, (safe_run_fifo hnew hrun).1⟩

end LuaSys.Thread
