import LuaSys.Thread.PipeRing
import Mathlib.Data.List.Perm.Basic

/-!
# References to a pipe

A pipe is shared by the VM-threads that have got a reference to it with `pipe_xdup`, and
`pp->nref` counts the references besides the first one.  The `pipe_close` that finds no
other reference frees the buffers, from `rbuf` on along the ring, until it meets `wbuf`.

The buffers always form one circle through `rbuf` and `wbuf`, so the loop ends and frees no
buffer twice.  But it stops in front of the write buffer: where the reader and the writer
are at different buffers, the write buffer and the buffers behind it are not freed.

## Main definitions

* `Pipe.Circle` — the buffers form one circle.
* `SharedPipe`, `SharedPipe.step` — a pipe with its references.
* `SharedPipe.Releases` — a close frees everything if it is the last one, else nothing.

## Main results

* `circle_step` — the circle is kept in every step.
* `close_releases_iff` — what a close does in every state reached.
* `close_leaks_write_buffer` — a run to a close that frees one buffer of two.
-/

namespace LuaSys.Thread

open LuaSys.Lib Relation

/-! ## The circle of the buffers -/

namespace Pipe

/-- All buffers, from the read buffer on, along the links. -/
structure Circle (pp : Pipe) (l : List ℕ) : Prop where
  linked : Path id (fun b => (pp.bufs b).nextBuf) pp.rbuf l pp.rbuf
  perm : l.Perm (List.range pp.nbufs)
  wbuf_mem : pp.wbuf ∈ l

variable {pp pp' : Pipe} {l : List ℕ}

theorem Circle.nodup (h : Circle pp l) : l.Nodup := h.perm.nodup_iff.mpr List.nodup_range

theorem Circle.mem_iff (h : Circle pp l) {b : ℕ} : b ∈ l ↔ b < pp.nbufs := by
  rw [h.perm.mem_iff, List.mem_range]

/-- The circle starts at the read buffer. -/
theorem Circle.eq_cons (h : Circle pp l) : ∃ l', l = pp.rbuf :: l' := by
  cases l with
  | nil => exact absurd h.wbuf_mem List.not_mem_nil
  | cons b l' => exact ⟨l', by rw [h.linked.1]; rfl⟩

/-- The link of a buffer of the circle leads to one. -/
theorem Circle.next_mem (h : Circle pp l) {b : ℕ} (hb : b ∈ l) : (pp.bufs b).nextBuf ∈ l := by
  obtain ⟨l₁, l₂, hl⟩ := List.append_of_mem hb
  have hlinked := h.linked
  rw [hl, path_append] at hlinked
  obtain ⟨p, -, -, hnext⟩ := hlinked
  cases l₂ with
  | nil =>
      obtain ⟨l', hl'⟩ := h.eq_cons
      rw [show (pp.bufs b).nextBuf = pp.rbuf from hnext, hl']
      exact List.mem_cons_self
  | cons c l₂ =>
      rw [show (pp.bufs b).nextBuf = c from hnext.1, hl]
      simp

/-- The circle read from the next buffer on. -/
theorem Circle.rotate (h : Circle pp l) :
    ∃ l', Circle { pp with rbuf := (pp.bufs pp.rbuf).nextBuf } l' := by
  obtain ⟨l', rfl⟩ := h.eq_cons
  have hperm : (l' ++ [pp.rbuf]).Perm (pp.rbuf :: l') := List.perm_append_singleton _ _
  exact ⟨l' ++ [pp.rbuf], path_concat.mpr ⟨h.linked.2, rfl⟩, hperm.trans h.perm,
    hperm.mem_iff.mpr h.wbuf_mem⟩

/-- The circle depends on the links and the ends. -/
theorem Circle.congr (h : Circle pp l) (hf : SameFrames pp' pp) (hr : pp'.rbuf = pp.rbuf)
    (hw : pp'.wbuf ∈ l) : Circle pp' l := by
  refine ⟨?_, ?_, hw⟩
  · rw [hr]
    exact (path_congr fun b _ => ((hf.bufs b).nextBuf).symm).mp h.linked
  · rw [hf.nbufs]
    exact h.perm

theorem Circle.keeps (h : Circle pp l) (hk : Keeps pp pp') : ∃ l', Circle pp' l' := by
  have hw : pp'.wbuf ∈ l := by
    rcases hk.wbuf with heq | heq
    · exact heq ▸ h.wbuf_mem
    · exact heq ▸ h.next_mem h.wbuf_mem
  rcases hk.rbuf with hr | hr
  · exact ⟨l, h.congr hk.toSameFrames hr hw⟩
  · obtain ⟨l', hl'⟩ := h.rotate
    have hmem : pp'.wbuf ∈ l' := hl'.mem_iff.mpr (h.mem_iff.mp hw)
    exact ⟨l', hl'.congr ⟨hk.bufs, hk.nbufs, hk.bufSize, hk.bufMaxSize⟩ hr hmem⟩

/-- A new buffer is linked behind the write buffer. -/
theorem Circle.pipeGrow (h : Circle pp l) (block : Mem) : ∃ l', Circle (pipeGrow pp block) l' := by
  obtain ⟨l₁, l₂, rfl⟩ := List.append_of_mem h.wbuf_mem
  have hnew : pp.nbufs ∉ l₁ ++ pp.wbuf :: l₂ := fun hmem => lt_irrefl _ (h.mem_iff.mp hmem)
  have hnext : (fun b => ((Thread.pipeGrow pp block).bufs b).nextBuf) =
      Function.update (Function.update (fun b => (pp.bufs b).nextBuf) pp.wbuf pp.nbufs) pp.nbufs
        (pp.bufs pp.wbuf).nextBuf := by
    funext b
    by_cases hn : b = pp.nbufs
    · subst hn
      rw [pipeGrow_bufs_new, Function.update_self]
      rfl
    · by_cases hw : b = pp.wbuf
      · subst hw
        rw [pipeGrow_bufs_wbuf hn, Function.update_of_ne hn, Function.update_self]
      · rw [pipeGrow_bufs_of_ne hn hw, Function.update_of_ne hn, Function.update_of_ne hw]
  obtain ⟨p, hfirst, hp, hrest⟩ := path_append.mp h.linked
  have hnodup := List.nodup_append'.mp h.nodup
  have hw₁ : pp.wbuf ∉ l₁ := fun hmem => hnodup.2.2 hmem List.mem_cons_self
  have hw₂ : pp.wbuf ∉ l₂ := (List.nodup_cons.mp hnodup.2.1).1
  have hn₁ : pp.nbufs ∉ l₁ := fun hmem => hnew (List.mem_append_left _ hmem)
  have hn₂ : pp.nbufs ∉ l₂ := fun hmem => hnew (by simp [hmem])
  have hne : pp.wbuf ≠ pp.nbufs := fun heq => hnew (by simp [heq])
  refine ⟨l₁ ++ pp.wbuf :: pp.nbufs :: l₂, ?_, ?_, ?_⟩
  · rw [hnext]
    refine path_append.mpr ⟨p, ?_, hp, ?_, ?_⟩
    · rwa [path_update_of_notMem hn₁, path_update_of_notMem hw₁]
    · rw [Function.update_of_ne hne, Function.update_self]
      rfl
    · rw [Function.update_self, path_update_of_notMem hn₂, path_update_of_notMem hw₂]
      exact hrest
  · have hmid : (l₁ ++ pp.wbuf :: pp.nbufs :: l₂).Perm (pp.nbufs :: (l₁ ++ pp.wbuf :: l₂)) :=
      ((List.Perm.swap _ _ l₂).append_left l₁).trans List.perm_middle
    have hrange : (List.range (pp.nbufs + 1)).Perm (pp.nbufs :: List.range pp.nbufs) := by
      rw [List.range_succ]
      exact List.perm_append_singleton _ _
    exact hmid.trans ((h.perm.cons _).trans hrange.symm)
  · show pp.nbufs ∈ _
    simp

theorem Circle.grows (h : Circle pp l) (hg : Grows pp pp') : ∃ l', Circle pp' l' := by
  obtain ⟨⟨block, hframes⟩, hr, hw⟩ := hg
  obtain ⟨l', hl'⟩ := h.pipeGrow block
  exact ⟨l', hl'.congr hframes hr (hw ▸ hl'.wbuf_mem)⟩

theorem circle_pipeNew {maxSize minSize : ℕ} {malloc : Option Mem}
    (h : pipeNew maxSize minSize malloc = .ok pp) : Circle pp [0] := by
  simp only [pipeNew] at h
  split_ifs at h
  cases malloc with
  | none => exact absurd h (by simp)
  | some block =>
      obtain rfl := Except.ok.inj h
      exact ⟨⟨rfl, rfl⟩, List.Perm.refl _, List.mem_singleton.mpr rfl⟩

end Pipe

/-- **The buffers stay a circle.** -/
theorem PipeSys.circle_step {s s' : PipeSys} {op : PipeOp} (hs : s.step op = some s')
    (h : ∃ l, s.pp.Circle l) : ∃ l, s'.pp.Circle l := by
  obtain ⟨l, hl⟩ := h
  rcases move_step hs with ⟨-, hgrow⟩ | ⟨-, hkeep⟩
  · exact hl.grows hgrow
  · exact hl.keeps hkeep

/-! ## Freeing the buffers -/

/-- The loop of `pipe_close`.  It is undefined to read the link of a buffer that is freed. -/
def freeBufs (bufs : ℕ → PipeBuf) (wpb : ℕ) : ℕ → ℕ → List ℕ → Option (List ℕ)
  | 0, _, _ => none
  | fuel + 1, rpb, freed =>
      if rpb ∈ freed then none else
        let pb := (bufs rpb).nextBuf
        if pb ≠ wpb then freeBufs bufs wpb fuel pb (freed ++ [rpb]) else some (freed ++ [rpb])

/-- The loop frees the buffers up to the first one that points to `wpb`. -/
theorem freeBufs_of_path {bufs : ℕ → PipeBuf} {wpb rpb fuel : ℕ} {l : List ℕ} (freed : List ℕ)
    (h : Path id (fun b => (bufs b).nextBuf) rpb l wpb) (hl : l ≠ []) (hw : wpb ∉ l.tail)
    (hnodup : (freed ++ l).Nodup) (hfuel : l.length ≤ fuel) :
    freeBufs bufs wpb fuel rpb freed = some (freed ++ l) := by
  induction l generalizing rpb freed fuel with
  | nil => exact absurd rfl hl
  | cons b l ih =>
      obtain ⟨fuel, rfl⟩ := Nat.exists_eq_add_of_le' (Nat.one_le_of_lt hfuel)
      obtain ⟨hb, hnext⟩ := h
      obtain rfl : rpb = b := hb
      have hb : rpb ∉ freed := fun hmem =>
        (List.nodup_append'.mp hnodup).2.2 hmem List.mem_cons_self
      rw [freeBufs, if_neg hb]
      cases l with
      | nil => exact if_neg (not_not.mpr hnext)
      | cons c l =>
          have hne : (bufs rpb).nextBuf ≠ wpb := by
            rw [show (bufs rpb).nextBuf = c from hnext.1]
            exact fun heq => hw (heq ▸ List.mem_cons_self)
          rw [List.append_cons freed rpb (c :: l)] at hnodup ⊢
          refine (if_pos hne).trans ?_
          exact ih _ hnext (List.cons_ne_nil c l) (fun hmem => hw (List.mem_cons_of_mem c hmem)) hnodup
            (Nat.le_of_succ_le_succ hfuel)

/-- Closing a pipe frees all buffers if and only if the reader and the writer are at the
same one. -/
theorem Pipe.Circle.freeBufs {pp : Pipe} {l : List ℕ} (h : pp.Circle l) :
    ∃ freed, Thread.freeBufs pp.bufs pp.wbuf pp.nbufs pp.rbuf [] = some freed ∧
      (freed.Perm (List.range pp.nbufs) ↔ pp.rbuf = pp.wbuf) := by
  have hlength : l.length = pp.nbufs := by rw [h.perm.length_eq, List.length_range]
  obtain ⟨l', hl'⟩ := h.eq_cons
  by_cases heq : pp.rbuf = pp.wbuf
  · have hw : pp.wbuf ∉ l.tail := by
      rw [hl', ← heq]
      exact (List.nodup_cons.mp (hl' ▸ h.nodup)).1
    have hpath : Path id (fun b => (pp.bufs b).nextBuf) pp.rbuf l pp.wbuf := by
      rw [← heq]
      exact h.linked
    have hloop := freeBufs_of_path [] hpath (List.ne_nil_of_mem h.wbuf_mem) hw h.nodup hlength.le
    exact ⟨l, hloop, iff_of_true h.perm heq⟩
  · obtain ⟨l₁, l₂, rfl⟩ := List.append_of_mem h.wbuf_mem
    obtain ⟨p, hfirst, rfl, -⟩ := path_append.mp h.linked
    have hnodup := List.nodup_append'.mp h.nodup
    have hw : pp.wbuf ∉ l₁ := fun hmem => hnodup.2.2 hmem List.mem_cons_self
    have hne : l₁ ≠ [] := by
      rintro rfl
      exact heq hfirst
    have hle : l₁.length ≤ pp.nbufs := by
      rw [← hlength, List.length_append]
      exact Nat.le_add_right _ _
    have hloop := freeBufs_of_path [] hfirst hne (fun hmem => hw (List.mem_of_mem_tail hmem))
      hnodup.1 hle
    refine ⟨l₁, hloop, iff_of_false (fun hperm => hw ?_) heq⟩
    exact hperm.mem_iff.mpr (h.perm.mem_iff.mp h.wbuf_mem)

/-! ## References -/

/-- A pipe and the references to it. -/
structure SharedPipe where
  /-- The pipe, unless `pipe_new` has failed before it had a buffer. -/
  sys : Option PipeSys
  nref : ℕ
  /-- Number of the `pipe_ref` objects whose `pipe` is set. -/
  refs : ℕ
  /-- The buffers that were freed together with the pipe. -/
  freed : Option (List ℕ)

/-- What is done with a shared pipe. -/
inductive SharedPipeOp
  | op (o : PipeOp)
  | xdup
  | close

namespace SharedPipe

/-- The object that `pipe_new` leaves to the garbage collector.  After a failed allocation
it is not returned to the script, and its `rbuf` is null. -/
def ofNew : Except PipeError Pipe → Option SharedPipe
  | .ok pp => some ⟨some (.init pp), 0, 1, none⟩
  | .error .sysError => some ⟨none, 0, 1, none⟩
  | .error (.argError _ _) => none

/-- Number of the buffers. -/
def nbufs (s : SharedPipe) : ℕ := (s.sys.map fun sys => sys.pp.nbufs).getD 0

/-- The buffers that are freed with the pipe. -/
def freeAll (s : SharedPipe) : Option (List ℕ) :=
  match s.sys with
  | none => some []
  | some sys => freeBufs sys.pp.bufs sys.pp.wbuf sys.pp.nbufs sys.pp.rbuf []

/-- `pipe_close`. -/
def close (s : SharedPipe) : Option SharedPipe :=
  let s' := { s with nref := u32sub s.nref 1, refs := s.refs - 1 }
  if s.nref = 0 then s.freeAll.map fun freed => { s' with freed := some freed } else some s'

/-- One operation through a reference.  It is undefined if the pipe has been freed. -/
def step (s : SharedPipe) (op : SharedPipeOp) : Option SharedPipe :=
  if s.refs = 0 ∨ s.freed ≠ none then none else
    match op with
    | .op o => s.sys.bind fun sys => (sys.step o).map fun sys' => { s with sys := some sys' }
    | .xdup => s.sys.map fun _ => { s with nref := u32 (s.nref + 1), refs := s.refs + 1 }
    | .close => s.close

/-- A step of the system. -/
def Step (s s' : SharedPipe) : Prop := ∃ op, s.step op = some s'

/-- The close that leads from `s` to `s'` frees each buffer once if it gives up the last
reference, and none if it does not. -/
def Releases (s s' : SharedPipe) : Prop :=
  (s.refs = 1 → ∃ freed, s'.freed = some freed ∧ freed.Perm (List.range s.nbufs)) ∧
    (s.refs ≠ 1 → s'.freed = none)

/-- The counter is exact as far as 32 bits go, and the buffers form a circle. -/
structure Inv (s : SharedPipe) : Prop where
  count : s.refs ≠ 0 → s.freed = none → s.nref = (s.refs - 1) % 2 ^ 32
  circle : ∀ sys ∈ s.sys, ∃ l, sys.pp.Circle l

variable {s s' : SharedPipe}

theorem inv_ofNew {maxSize minSize : ℕ} {malloc : Option Mem}
    (h : ofNew (pipeNew maxSize minSize malloc) = some s) : s.Inv := by
  cases hnew : pipeNew maxSize minSize malloc with
  | error err =>
      rw [hnew] at h
      cases err with
      | argError arg msg => exact absurd h (by simp [ofNew])
      | sysError =>
          obtain rfl := Option.some.inj h
          exact ⟨fun _ _ => rfl, fun sys hsys => absurd hsys (by simp)⟩
  | ok pp =>
      rw [hnew] at h
      obtain rfl := Option.some.inj h
      refine ⟨fun _ _ => rfl, fun sys hsys => ?_⟩
      obtain rfl := Option.some.inj hsys
      exact ⟨[0], Pipe.circle_pipeNew hnew⟩

/-- Freeing a pipe ends, and frees no buffer twice. -/
theorem Inv.freeAll (h : s.Inv) :
    ∃ freed, s.freeAll = some freed ∧ (freed.Perm (List.range s.nbufs) ↔
      ∀ sys ∈ s.sys, sys.pp.rbuf = sys.pp.wbuf) := by
  obtain ⟨sys, nref, refs, freed⟩ := s
  cases sys with
  | none => exact ⟨[], rfl, iff_of_true (List.Perm.refl _) (by simp)⟩
  | some sys =>
      obtain ⟨l, hl⟩ := h.circle sys rfl
      obtain ⟨freed, hloop, hiff⟩ := hl.freeBufs
      refine ⟨freed, hloop, hiff.trans ⟨fun heq sys' hsys' => ?_, fun hall => hall sys rfl⟩⟩
      exact Option.some.inj hsys' ▸ heq

theorem close_of_zero {freed : List ℕ} (hzero : s.nref = 0) (hfree : s.freeAll = some freed) :
    s.close = some
      { s with nref := u32sub s.nref 1, refs := s.refs - 1, freed := some freed } := by
  rw [close, if_pos hzero, hfree]
  rfl

theorem close_of_ne_zero (hzero : s.nref ≠ 0) :
    s.close = some { s with nref := u32sub s.nref 1, refs := s.refs - 1 } := if_neg hzero

/-- The counter before a close. -/
theorem Inv.close_count (h : s.Inv) (hrefs : s.refs ≠ 0) (halive : s.freed = none) :
    s.nref = 0 ↔ 2 ^ 32 ∣ s.refs - 1 := by
  rw [h.count hrefs halive, Nat.dvd_iff_mod_eq_zero]

theorem Inv.step {op : SharedPipeOp} (h : s.Inv) (hs : s.step op = some s') : s'.Inv := by
  obtain ⟨hno, hs⟩ := Option.ite_none_left_eq_some.mp hs
  obtain ⟨hrefs, halive⟩ := not_or.mp hno
  rw [not_not] at halive
  have hcount := h.count hrefs halive
  cases op with
  | op o =>
      obtain ⟨sys, hsys, hs⟩ := Option.bind_eq_some_iff.mp hs
      obtain ⟨sys', hstep, rfl⟩ := Option.map_eq_some_iff.mp hs
      refine ⟨fun _ _ => hcount, fun sys₁ hsys₁ => ?_⟩
      obtain rfl := Option.some.inj hsys₁
      exact PipeSys.circle_step hstep (h.circle sys hsys)
  | xdup =>
      obtain ⟨sys, hsys, rfl⟩ := Option.map_eq_some_iff.mp hs
      refine ⟨fun _ _ => ?_, h.circle⟩
      simp only [hcount, u32]
      omega
  | close =>
      simp only [close] at hs
      split_ifs at hs with hlast
      · obtain ⟨freed, -, rfl⟩ := Option.map_eq_some_iff.mp hs
        exact ⟨fun _ hfreed => absurd hfreed (by simp), h.circle⟩
      · obtain rfl := Option.some.inj hs
        refine ⟨fun _ _ => ?_, h.circle⟩
        dsimp only at *
        rw [u32sub_of_le (Nat.one_le_iff_ne_zero.mpr hlast) (by omega)]
        omega

/-- **Closing a pipe**, in every state reached.  It ends and frees no buffer twice unless the
pipe has been freed already.  It frees each buffer if it is the last close, and none if it is
not, exactly if the reader and the writer are at one buffer, or the other references are not
a multiple of `2 ^ 32`. -/
theorem close_releases_iff {maxSize minSize : ℕ} {malloc : Option Mem} {s₀ s : SharedPipe}
    (hnew : ofNew (pipeNew maxSize minSize malloc) = some s₀) (hrun : ReflTransGen Step s₀ s)
    (hrefs : s.refs ≠ 0) :
    (s.freed = none → ∃ s', s.step .close = some s') ∧
      ((∃ s', s.step .close = some s' ∧ s.Releases s') ↔
        s.freed = none ∧ (s.refs = 1 → ∀ sys ∈ s.sys, sys.pp.rbuf = sys.pp.wbuf) ∧
          (s.refs ≠ 1 → ¬2 ^ 32 ∣ s.refs - 1)) := by
  have hinv : s.Inv := inv_of_reach (fun _ _ ⟨_, hop⟩ h => h.step hop) (inv_ofNew hnew) hrun
  obtain ⟨freed, hfree, hperm⟩ := hinv.freeAll
  have hstep : s.freed = none → s.step .close = s.close := fun halive =>
    if_neg (not_or.mpr ⟨hrefs, not_not.mpr halive⟩)
  have hcount := hinv.close_count hrefs
  refine ⟨fun halive => ?_, ?_, ?_⟩
  · rw [hstep halive]
    by_cases hzero : s.nref = 0
    · exact ⟨_, close_of_zero hzero hfree⟩
    · exact ⟨_, close_of_ne_zero hzero⟩
  · rintro ⟨s', hs, hrel⟩
    have halive : s.freed = none :=
      not_not.mp (not_or.mp (Option.ite_none_left_eq_some.mp hs).1).2
    rw [hstep halive] at hs
    refine ⟨halive, fun hone => ?_, fun hne hdvd => ?_⟩
    · have hzero : s.nref = 0 := (hcount halive).mpr (by rw [hone]; exact Nat.dvd_zero _)
      rw [close_of_zero hzero hfree] at hs
      obtain ⟨freed', hfreed', hperm'⟩ := hrel.1 hone
      rw [← Option.some.inj hs] at hfreed'
      exact hperm.mp (Option.some.inj hfreed' ▸ hperm')
    · rw [close_of_zero ((hcount halive).mpr hdvd) hfree] at hs
      have hnone := hrel.2 hne
      rw [← Option.some.inj hs] at hnone
      exact absurd hnone (by simp)
  · rintro ⟨halive, hlast, hearlier⟩
    rw [hstep halive]
    by_cases hone : s.refs = 1
    · have hzero : s.nref = 0 := (hcount halive).mpr (by rw [hone]; exact Nat.dvd_zero _)
      exact ⟨_, close_of_zero hzero hfree, fun _ => ⟨freed, rfl, hperm.mpr (hlast hone)⟩,
        fun hne => absurd hone hne⟩
    · have hzero : s.nref ≠ 0 := fun hzero => hearlier hone ((hcount halive).mp hzero)
      exact ⟨_, close_of_ne_zero hzero, fun hone' => absurd hone' hone, fun _ => halive⟩

/-- Two references to a pipe of one buffer, and the first of them is closed. -/
theorem close_releases_iff_shared :
    ∃ s, ReflTransGen Step ⟨some (.init (pipeInit 4096 4096 fun _ => 0)), 0, 1, none⟩ s ∧
      s.refs = 2 ∧ ∃ s', s.step .close = some s' ∧ s.Releases s' := by
  have hnew : ofNew (pipeNew 4096 4096 (some fun _ => 0)) =
      some ⟨some (.init (pipeInit 4096 4096 fun _ => 0)), 0, 1, none⟩ := rfl
  have hrun : ReflTransGen Step ⟨some (.init (pipeInit 4096 4096 fun _ => 0)), 0, 1, none⟩
      ⟨some (.init (pipeInit 4096 4096 fun _ => 0)), 1, 2, none⟩ := .single ⟨.xdup, rfl⟩
  exact ⟨_, hrun, rfl, (close_releases_iff hnew hrun (by decide)).2.mpr
    ⟨rfl, fun hone => absurd hone (by decide), fun _ => by decide⟩⟩

/-- Eight messages fill the first buffer, the ninth is put into a second one, and the pipe is
closed. -/
def leakOps : List SharedPipeOp :=
  List.replicate 9 (.op (.put (filledMessage 0) (some fun _ => 0)))

/-- The write buffer is not freed. -/
theorem close_leaks_write_buffer :
    ∃ s₀ s s', ofNew (pipeNew 8192 4096 (some fun _ => 0)) = some s₀ ∧ ReflTransGen Step s₀ s ∧
      s.refs = 1 ∧ s.nbufs = 2 ∧ s.step .close = some s' ∧ s'.freed = some [0] ∧ ¬s.Releases s' := by
  have hrun : (runOps step ⟨some (.init (pipeInit 8192 4096 fun _ => 0)), 0, 1, none⟩
      leakOps).bind (fun s => (s.step .close).map fun s' => (s.refs, s.nbufs, s'.freed)) =
        some (1, 2, some [0]) := by
    decide +kernel
  obtain ⟨s, hs, hclose⟩ := Option.bind_eq_some_iff.mp hrun
  obtain ⟨s', hs', hobs⟩ := Option.map_eq_some_iff.mp hclose
  obtain ⟨hrefs, hobs⟩ := Prod.mk.inj hobs
  obtain ⟨hnbufs, hfreed⟩ := Prod.mk.inj hobs
  refine ⟨_, s, s', rfl, reach_of_runOps (fun _ op _ hop => ⟨op, hop⟩) hs, hrefs, hnbufs, hs', hfreed,
    fun hrel => ?_⟩
  obtain ⟨freed, hfreed', hperm⟩ := hrel.1 hrefs
  obtain rfl := Option.some.inj (hfreed.symm.trans hfreed')
  rw [hnbufs] at hperm
  exact absurd hperm.length_eq (by decide)

end SharedPipe

end LuaSys.Thread
