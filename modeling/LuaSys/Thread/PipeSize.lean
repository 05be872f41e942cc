import LuaSys.Thread.PipeRing
import Mathlib.Algebra.Order.BigOperators.Group.Finset

/-!
# The size of a pipe

`pp->buf_size` is the number of bytes in all buffers of the pipe.  A new buffer is as large
as all the others together, so the total doubles, and `pipe_put` compares the doubled total
with `buf_max_size` before it allocates.  The product is a 32-bit one: for a total of `2 ^ 31`
bytes, which `PIPE_BUF_MAXSIZE` admits, it is zero and passes the test.  The buffer that is
allocated then breaks the limit, and the total is lost.

## Main definitions

* `Pipe.Accounted` — the total is the sum of the buffers and below the limit, and every
  buffer has room for a message and the sentinel.
* `PipeOp.Doubles` — the step allocates a buffer though the total cannot be doubled.

## Main results

* `accounted_run_iff` — the accounting is right all along a run if and only if no step of the
  run doubles a total of `2 ^ 31` bytes.
* `pipe_total_wraps` — a run in which one does.
-/

namespace LuaSys.Thread

open LuaSys.Lib

namespace Pipe

/-- The bytes of all buffers, headers included. -/
def total (pp : Pipe) : ℕ := ∑ b ∈ Finset.range pp.nbufs, ((pp.bufs b).size + pipeBufHeader)

/-- The accounting of the sizes. -/
structure Accounted (pp : Pipe) : Prop where
  total : pp.bufSize = pp.total
  le_max : pp.bufSize ≤ pp.bufMaxSize
  /-- `len` is the allocated size without the header and one size field. -/
  len : ∀ b < pp.nbufs, (pp.bufs b).len + pipeBufExtraSize = (pp.bufs b).size + pipeBufHeader
  /-- A message of the maximum size fits into `len`, and the sentinel behind it. -/
  capacity : ∀ b < pp.nbufs, 2 + msgMaxSize ≤ (pp.bufs b).len ∧
    (pp.bufs b).len + 2 ≤ (pp.bufs b).size

variable {pp pp' : Pipe}

theorem SameFrames.total_eq (h : SameFrames pp' pp) : pp'.total = pp.total := by
  rw [total, total, h.nbufs]
  exact Finset.sum_congr rfl fun b _ => by rw [(h.bufs b).size]

/-- The accounting depends on the frames of the buffers only. -/
theorem SameFrames.accounted_iff (h : SameFrames pp' pp) : pp'.Accounted ↔ pp.Accounted := by
  have hlen : ∀ b, (pp'.bufs b).len = (pp.bufs b).len := fun b => (h.bufs b).len
  have hsize : ∀ b, (pp'.bufs b).size = (pp.bufs b).size := fun b => (h.bufs b).size
  constructor
  · rintro ⟨h₁, h₂, h₃, h₄⟩
    rw [h.bufSize, h.total_eq] at h₁
    rw [h.bufSize, h.bufMaxSize] at h₂
    simp only [h.nbufs, hlen, hsize] at h₃ h₄
    exact ⟨h₁, h₂, h₃, h₄⟩
  · rintro ⟨h₁, h₂, h₃, h₄⟩
    refine ⟨?_, ?_, ?_, ?_⟩
    · rw [h.bufSize, h.total_eq, h₁]
    · rw [h.bufSize, h.bufMaxSize]
      exact h₂
    · simpa only [h.nbufs, hlen, hsize] using h₃
    · simpa only [h.nbufs, hlen, hsize] using h₄

/-! ## A new buffer -/

/-- Linking a new buffer leaves the sizes of the others. -/
theorem pipeGrow_size_len {b : ℕ} (hb : b < pp.nbufs) (block : Mem) :
    ((pipeGrow pp block).bufs b).size = (pp.bufs b).size ∧
      ((pipeGrow pp block).bufs b).len = (pp.bufs b).len := by
  simp only [pipeGrow]
  rw [Function.update_of_ne (Nat.ne_of_lt hb)]
  by_cases hw : b = pp.wbuf
  · subst hw
    rw [Function.update_self]
    exact ⟨rfl, rfl⟩
  · rw [Function.update_of_ne hw]
    exact ⟨rfl, rfl⟩

theorem total_pipeGrow (pp : Pipe) (block : Mem) :
    (pipeGrow pp block).total = pp.total + (pp.bufSize - pipeBufHeader + pipeBufHeader) := by
  have hold : ∀ b ∈ Finset.range pp.nbufs,
      ((pipeGrow pp block).bufs b).size + pipeBufHeader = (pp.bufs b).size + pipeBufHeader :=
    fun b hb => by rw [(pipeGrow_size_len (Finset.mem_range.mp hb) block).1]
  have hn : (pipeGrow pp block).nbufs = pp.nbufs + 1 := rfl
  rw [total, hn, Finset.sum_range_succ, Finset.sum_congr rfl hold, pipeGrow_bufs_new]
  rfl

/-- No buffer is smaller than the first one. -/
theorem Accounted.bufSize_ge (h : pp.Accounted) (hn : 0 < pp.nbufs) : 540 ≤ pp.bufSize := by
  have hfirst : (pp.bufs 0).size + pipeBufHeader ≤ pp.total :=
    Finset.single_le_sum (f := fun b => (pp.bufs b).size + pipeBufHeader)
      (fun _ _ => Nat.zero_le _) (Finset.mem_range.mpr hn)
  have hcap := h.capacity 0 hn
  have htotal := h.total
  simp only [msgMaxSize, pipeBufHeader] at *
  omega

/-- The accounting is right after a new buffer if and only if the doubled total is no more
than 32 bits wide. -/
theorem accounted_pipeGrow_iff {block : Mem} (h : pp.Accounted) (hn : 0 < pp.nbufs)
    (hmax : pp.bufMaxSize ≤ 2 ^ 31) (hbelow : u32 (2 * pp.bufSize) ≤ pp.bufMaxSize) :
    (pipeGrow pp block).Accounted ↔ pp.bufSize ≠ 2 ^ 31 := by
  have hge := h.bufSize_ge hn
  have hle := h.le_max
  have htotal := total_pipeGrow pp block
  have hgrown : (pipeGrow pp block).bufSize = u32 (2 * pp.bufSize) := rfl
  constructor
  · rintro ⟨hsum, -, -, -⟩ hfull
    rw [hgrown, htotal, hfull] at hsum
    simp only [u32, pipeBufHeader] at hsum
    omega
  · intro hne
    have hfit : u32 (2 * pp.bufSize) = 2 * pp.bufSize := u32_of_lt (by omega)
    have hfresh : u32sub pp.bufSize pipeBufExtraSize = pp.bufSize - pipeBufExtraSize :=
      u32sub_of_le (by simp only [pipeBufExtraSize, pipeBufHeader]; omega) (by omega)
    have hcases : ∀ b < pp.nbufs + 1, b = pp.nbufs ∨ b < pp.nbufs := fun b hb => by omega
    refine ⟨?_, ?_, fun b hb => ?_, fun b hb => ?_⟩
    · rw [hgrown, htotal, hfit, ← h.total]
      simp only [pipeBufHeader]
      omega
    · rw [hgrown]
      exact hbelow
    · rcases hcases b hb with rfl | hb
      · rw [pipeGrow_bufs_new, pipeFreshBuf, hfresh]
        simp only [pipeBufExtraSize, pipeBufHeader]
        omega
      · obtain ⟨hsize, hlen⟩ := pipeGrow_size_len hb block
        rw [hsize, hlen]
        exact h.len b hb
    · rcases hcases b hb with rfl | hb
      · rw [pipeGrow_bufs_new, pipeFreshBuf, hfresh]
        simp only [pipeBufExtraSize, pipeBufHeader, msgMaxSize]
        omega
      · obtain ⟨hsize, hlen⟩ := pipeGrow_size_len hb block
        rw [hsize, hlen]
        exact h.capacity b hb

/-- `pipe_new` starts with a right account. -/
theorem accounted_pipeNew {maxSize minSize : ℕ} {malloc : Option Mem}
    (h : pipeNew maxSize minSize malloc = .ok pp) :
    pp.Accounted ∧ pp.nbufs = 1 ∧ pp.bufMaxSize ≤ 2 ^ 31 := by
  simp only [pipeNew] at h
  split_ifs at h with hchecks
  cases malloc with
  | none => exact absurd h (by simp)
  | some block =>
      obtain rfl := Except.ok.inj h
      simp only [PipeNewChecks, pipeBufMinSize, pipeBufMaxSize, msgMaxSize, not_or, not_lt] at hchecks
      obtain ⟨hle, hmin, hmax, -⟩ := hchecks
      have hlen : u32sub minSize pipeBufExtraSize = minSize - pipeBufExtraSize :=
        u32sub_of_le (by simp only [pipeBufExtraSize, pipeBufHeader]; omega) (by omega)
      refine ⟨⟨?_, hle, fun b _ => ?_, fun b _ => ?_⟩, rfl, by simp only [pipeInit]; omega⟩
      · simp only [total, pipeInit, Finset.sum_range_one, pipeBufHeader]
        omega
      · simp only [pipeInit, hlen]
        simp only [pipeBufExtraSize, pipeBufHeader]
        omega
      · simp only [pipeInit, hlen]
        simp only [pipeBufExtraSize, pipeBufHeader, msgMaxSize]
        omega

end Pipe

/-! ## Runs -/

/-- The step allocates a buffer, and the total is too large to be doubled. -/
def PipeOp.Doubles (s : PipeSys) (op : PipeOp) : Prop := op.Allocates s ∧ s.pp.bufSize = 2 ^ 31

variable {s s' : PipeSys} {op : PipeOp}

/-- A step allocates only if the limit admits the doubled total. -/
theorem PipeOp.Allocates.below (h : op.Allocates s) : u32 (2 * s.pp.bufSize) ≤ s.pp.bufMaxSize := by
  cases op with
  | put msg malloc => exact h.2.1
  | putWake i res malloc =>
      obtain ⟨-, msg, -, hall⟩ := h
      exact hall.2.1
  | get => exact h.elim
  | getWake res => exact h.elim

namespace PipeSys

/-- What no step changes: there is a buffer, and the limit is a valid one. -/
structure Limited (s : PipeSys) : Prop where
  nbufs_pos : 0 < s.pp.nbufs
  bufMaxSize_le : s.pp.bufMaxSize ≤ 2 ^ 31

theorem Limited.step (h : s.Limited) (hs : s.step op = some s') : s'.Limited := by
  rcases move_step hs with ⟨-, ⟨block, hgrown⟩, -, -⟩ | ⟨-, hkeep⟩
  · refine ⟨?_, ?_⟩
    · rw [hgrown.nbufs]
      exact Nat.succ_pos _
    · rw [hgrown.bufMaxSize]
      exact h.bufMaxSize_le
  · refine ⟨?_, ?_⟩
    · rw [hkeep.nbufs]
      exact h.nbufs_pos
    · rw [hkeep.bufMaxSize]
      exact h.bufMaxSize_le

/-- The account stays right in every step but those that double too large a total. -/
theorem accounted_step_iff (hs : s.step op = some s') (hlim : s.Limited) (h : s.pp.Accounted) :
    s'.pp.Accounted ↔ ¬op.Doubles s := by
  rcases move_step hs with ⟨hall, ⟨block, hgrown⟩, -, -⟩ | ⟨hall, hkeep⟩
  · rw [hgrown.accounted_iff,
      Pipe.accounted_pipeGrow_iff h hlim.nbufs_pos hlim.bufMaxSize_le hall.below]
    exact ⟨fun hne hdouble => hne hdouble.2, fun hno hfull => hno ⟨hall, hfull⟩⟩
  · rw [hkeep.toSameFrames.accounted_iff]
    exact ⟨fun _ hdouble => hall hdouble.1, fun _ => h⟩

/-- **The sizes of a pipe are accounted for** in all states of a run if and only if no step
of it doubles a total of `2 ^ 31` bytes. -/
theorem accounted_run_iff {maxSize minSize : ℕ} {malloc : Option Mem} {pp : Pipe} {s : PipeSys}
    {ops : List PipeOp} (hnew : pipeNew maxSize minSize malloc = .ok pp)
    (hrun : runOps step (init pp) ops = some s) :
    (∀ pre s', pre <+: ops → runOps step (init pp) pre = some s' → s'.pp.Accounted) ↔
      ∀ pre op s', pre ++ [op] <+: ops → runOps step (init pp) pre = some s' → ¬op.Doubles s' := by
  obtain ⟨hacc, hn, hmax⟩ := Pipe.accounted_pipeNew hnew
  have hlim : (init pp).Limited := ⟨by show 0 < pp.nbufs; omega, hmax⟩
  exact forall_runOps_iff (A := fun s => s.Limited ∧ s.pp.Accounted)
    (I := fun s => s.pp.Accounted) (fun s h => h.2)
    (fun s op s' hs h hsafe => ⟨h.1.step hs, (accounted_step_iff hs h.1 h.2).mpr hsafe⟩)
    (fun s op s' hs h hacc => (accounted_step_iff hs h.1 h.2).mp hacc) ⟨hlim, hacc⟩ hrun

end PipeSys

/-- A pipe that gets a second buffer. -/
theorem accounted_run_iff_secondBuffer :
    ∃ s, runOps PipeSys.step (PipeSys.init (pipeInit 8192 4096 fun _ => 0)) secondBufferOps =
        some s ∧ s.pp.nbufs = 2 ∧ s.pp.Accounted := by
  have hnew : pipeNew 8192 4096 (some fun _ => 0) = .ok (pipeInit 8192 4096 fun _ => 0) := by rfl
  have hops : (runOps PipeSys.step (PipeSys.init (pipeInit 8192 4096 fun _ => 0))
      secondBufferOps).map (fun s => s.pp.nbufs) = some 2 := by
    decide +kernel
  obtain ⟨s, hs, hnbufs⟩ := Option.map_eq_some_iff.mp hops
  have hsmall : SafeSteps PipeSys.step (fun s _ => s.pp.bufSize ≠ 2 ^ 31)
      (PipeSys.init (pipeInit 8192 4096 fun _ => 0)) secondBufferOps := by
    decide +kernel
  refine ⟨s, hs, hnbufs, (PipeSys.accounted_run_iff hnew hs).mpr ?_ _ s (List.prefix_refl _) hs⟩
  exact fun pre op s' hpre hs' hdouble => hsmall.forall_steps pre op s' hpre hs' hdouble.2

/-! ## A total of `2 ^ 31` bytes -/

/-- A pipe of one buffer of the largest size, with `n` messages behind each other. -/
structure Pipe.Stacked (pp : Pipe) (n : ℕ) : Prop where
  nbufs : pp.nbufs = 1
  bufSize : pp.bufSize = 2 ^ 31
  bufMaxSize : pp.bufMaxSize = 2 ^ 31
  beginIdx : (pp.bufs pp.wbuf).beginIdx = 0
  endIdx : (pp.bufs pp.wbuf).endIdx = 506 * n
  len : (pp.bufs pp.wbuf).len = 2 ^ 31 - 26
  nextBuf : (pp.bufs pp.wbuf).nextBuf = pp.wbuf
  size : (pp.bufs pp.wbuf).size = 2 ^ 31 - 24

theorem size_filledMessage (c : UInt8) : (filledMessage c).size = 506 := by
  rw [Message.size, filledMessage, List.length_append, List.length_replicate]
  rfl

theorem Pipe.Stacked.room {pp : Pipe} {n : ℕ} (h : pp.Stacked n) (hn : 506 * n ≤ 2 ^ 31 - 26) :
    (pp.bufs pp.wbuf).room = 2 ^ 31 - 26 - 506 * n := by
  have hstraight : ¬(pp.bufs pp.wbuf).wrapped := by
    simp only [PipeBuf.wrapped, h.beginIdx]
    exact Nat.not_lt_zero _
  rw [PipeBuf.room, if_neg hstraight, h.endIdx, h.len]
  exact u32sub_of_le hn (by omega)

/-- One more message. -/
theorem Pipe.Stacked.put {s : PipeSys} {n : ℕ} (h : s.pp.Stacked n)
    (hn : 506 * (n + 1) ≤ 2 ^ 31 - 26) :
    ∃ s', s.step (.put (filledMessage 0) none) = some s' ∧ s'.pp.Stacked (n + 1) := by
  have hroom := h.room (by omega)
  have hfit : ¬(filledMessage 0).size > (s.pp.bufs s.pp.wbuf).room := by
    rw [hroom, size_filledMessage]
    omega
  have hend : u32 ((s.pp.bufs s.pp.wbuf).endIdx + (filledMessage 0).size) = 506 * (n + 1) := by
    rw [h.endIdx, size_filledMessage, u32_of_lt (by omega)]
    omega
  obtain ⟨buf, happ⟩ : ∃ buf, (s.pp.bufs s.pp.wbuf).append (filledMessage 0) = some buf :=
    ⟨_, PipeBuf.append_eq_some (by rw [h.endIdx, h.size, size_filledMessage]; omega)⟩
  have hframe := PipeBuf.sameFrame_append happ
  obtain ⟨hbegin, hend', -, -⟩ := PipeBuf.append_fields happ
  refine ⟨s.endPut (filledMessage 0) (.stored
    { s.pp with bufs := Function.update s.pp.bufs s.pp.wbuf buf, nmsg := u32 (s.pp.nmsg + 1) }
    (s.pp.signalOnPut ≠ 0)), ?_, ?_⟩
  · rw [PipeSys.step, PipeSys.put, pipePutPass, if_neg hfit, pipePutStore, happ]
    rfl
  · constructor
    case nbufs => exact h.nbufs
    case bufSize => exact h.bufSize
    case bufMaxSize => exact h.bufMaxSize
    all_goals simp only [PipeSys.endPut, Function.update_self]
    case beginIdx => rw [hbegin, h.beginIdx]
    case endIdx => rw [hend', hend]
    case len => rw [hframe.len, h.len]
    case nextBuf => rw [hframe.nextBuf, h.nextBuf]
    case size => rw [hframe.size, h.size]

/-- As many messages as fit. -/
theorem Pipe.Stacked.run {s : PipeSys} (h : s.pp.Stacked 0) (n : ℕ) (hn : 506 * n ≤ 2 ^ 31 - 26) :
    ∃ s', runOps PipeSys.step s (List.replicate n (.put (filledMessage 0) none)) = some s' ∧
      s'.pp.Stacked n := by
  induction n with
  | zero => exact ⟨s, rfl, h⟩
  | succ n ih =>
      obtain ⟨s₁, hrun, hs₁⟩ := ih (by omega)
      obtain ⟨s₂, hput, hs₂⟩ := hs₁.put hn
      rw [List.replicate_succ']
      exact ⟨s₂, runOps_trans hrun (by rw [runOps, List.foldlM_cons, hput]; rfl), hs₂⟩

/-- In a full buffer, the next message is put into a new one. -/
theorem Pipe.Stacked.overflow {s : PipeSys} {n : ℕ} (h : s.pp.Stacked n) (block : Mem)
    (hn : 506 * n ≤ 2 ^ 31 - 26) (hfull : 2 ^ 31 - 26 < 506 * (n + 1)) :
    ∃ s', s.step (.put (filledMessage 0) (some block)) = some s' ∧
      SameFrames s'.pp (pipeGrow s.pp block) := by
  have hroom := h.room hn
  have hno : (filledMessage 0).size > (s.pp.bufs s.pp.wbuf).room := by
    rw [hroom, size_filledMessage]
    omega
  have hwrap : ¬(¬(s.pp.bufs s.pp.wbuf).wrapped ∧
      (s.pp.bufs s.pp.wbuf).beginIdx > (filledMessage 0).size) := by
    rw [h.beginIdx]
    exact fun hlt => Nat.not_lt_zero _ hlt.2
  have hbelow : u32 (2 * s.pp.bufSize) ≤ s.pp.bufMaxSize := by
    rw [h.bufSize, h.bufMaxSize]
    decide
  obtain ⟨buf, happ⟩ : ∃ buf, (pipeFreshBuf s.pp (s.pp.bufs s.pp.wbuf) block).append
      (filledMessage 0) = some buf := by
    refine ⟨_, PipeBuf.append_eq_some ?_⟩
    rw [size_filledMessage]
    show 0 + 506 ≤ s.pp.bufSize - pipeBufHeader
    rw [h.bufSize, pipeBufHeader]
    decide
  refine ⟨s.endPut (filledMessage 0) (.stored
    { pipeGrow s.pp block with
      bufs := Function.update (pipeGrow s.pp block).bufs s.pp.nbufs buf
      nmsg := u32 (s.pp.nmsg + 1) } (s.pp.signalOnPut ≠ 0)), ?_, ?_⟩
  · rw [PipeSys.step, PipeSys.put, pipePutPass, if_pos hno, if_neg hwrap,
      if_neg fun hfree => hfree.1 h.nextBuf.symm, if_pos hbelow]
    dsimp only
    rw [pipePutStore, happ]
    rfl
  · have hnew : PipeBuf.SameFrame buf ((pipeGrow s.pp block).bufs s.pp.nbufs) := by
      rw [pipeGrow_bufs_new]
      exact PipeBuf.sameFrame_append happ
    exact .update hnew ..

/-- The buffer of two gigabytes is filled, and one more message is put. -/
def wrapOps : List PipeOp :=
  List.replicate 4244038 (.put (filledMessage 0) none) ++ [.put (filledMessage 0) (some fun _ => 0)]

/-- The account is lost: the pipe has two buffers of two gigabytes each, and the total is
zero. -/
theorem pipe_total_wraps :
    ∃ pp s, pipeNew (2 ^ 31) (2 ^ 31) (some fun _ => 0) = .ok pp ∧
      runOps PipeSys.step (PipeSys.init pp) wrapOps = some s ∧ s.pp.nbufs = 2 ∧ s.pp.bufSize = 0 ∧
      ¬s.pp.Accounted := by
  have hinit : (PipeSys.init (pipeInit (2 ^ 31) (2 ^ 31) fun _ => 0)).pp.Stacked 0 :=
    ⟨rfl, rfl, rfl, rfl, rfl, by decide, rfl, by decide⟩
  obtain ⟨s₁, hrun, hs₁⟩ := hinit.run 4244038 (by decide)
  obtain ⟨s, hs, hgrown⟩ := hs₁.overflow (fun _ => 0) (by decide) (by decide)
  have hzero : s.pp.bufSize = 0 := by
    rw [hgrown.bufSize]
    show u32 (2 * s₁.pp.bufSize) = 0
    rw [hs₁.bufSize]
    rfl
  refine ⟨_, s, rfl, runOps_trans hrun (by rw [runOps, List.foldlM_cons, hs]; rfl), ?_, hzero,
    fun hacc => ?_⟩
  · rw [hgrown.nbufs]
    exact congrArg (· + 1) hs₁.nbufs
  · have htotal := hacc.total
    rw [hzero, hgrown.total_eq, Pipe.total_pipeGrow, pipeBufHeader] at htotal
    omega

end LuaSys.Thread
