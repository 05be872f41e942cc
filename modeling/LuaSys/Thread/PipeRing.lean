import LuaSys.Thread.PipeWake

/-!
# The buffers of a pipe

What a step can do to the buffers of a pipe, apart from their contents.  The lengths and
the links of the buffers stay, and the read buffer or the write buffer may move to the next
one; or a new buffer is linked behind the write buffer and becomes the write buffer.  This
holds in every run, whatever the contents of the buffers are.

## Main definitions

* `Pipe.Keeps`, `Pipe.Grows` — the two kinds of steps.
* `PipeOp.Allocates` — the operations that allocate a buffer.

## Main results

* `PipeSys.move_step` — every step is of one kind, and the operation decides of which.
-/

namespace LuaSys.Thread

open LuaSys.Lib

namespace PipeBuf

variable {buf buf' : PipeBuf} {msg : Message}

theorem SameFrame.refl (buf : PipeBuf) : SameFrame buf buf := ⟨rfl, rfl, rfl⟩

theorem SameFrame.trans {buf₁ buf₂ buf₃ : PipeBuf} (h₁ : SameFrame buf₁ buf₂)
    (h₂ : SameFrame buf₂ buf₃) : SameFrame buf₁ buf₃ :=
  ⟨h₁.len.trans h₂.len, h₁.size.trans h₂.size, h₁.nextBuf.trans h₂.nextBuf⟩

theorem sameFrame_append (h : buf.append msg = some buf') : SameFrame buf' buf := by
  obtain ⟨buf₁, hstore, rfl⟩ := Option.map_eq_some_iff.mp h
  rw [store_eq hstore]
  exact ⟨rfl, rfl, rfl⟩

theorem sameFrame_wrap (h : buf.wrap = some buf') : SameFrame buf' buf := by
  obtain ⟨buf₁, hstore, rfl⟩ := Option.map_eq_some_iff.mp h
  rw [store_eq hstore]
  exact ⟨rfl, rfl, rfl⟩

theorem sameFrame_take {bytes : List UInt8} {emptied : Bool}
    (h : buf.take = some (bytes, buf', emptied)) : SameFrame buf' buf := by
  obtain ⟨off, -, h⟩ := Option.bind_eq_some_iff.mp h
  obtain ⟨size, -, h⟩ := Option.bind_eq_some_iff.mp h
  obtain ⟨-, h⟩ := Option.ite_none_left_eq_some.mp h
  obtain ⟨bytes', -, h⟩ := Option.bind_eq_some_iff.mp h
  dsimp only at h
  split_ifs at h
  · obtain ⟨-, rfl, -⟩ := Prod.mk.inj (Option.some.inj h) |>.imp id Prod.mk.inj
    exact ⟨rfl, rfl, rfl⟩
  · obtain ⟨-, rfl, -⟩ := Prod.mk.inj (Option.some.inj h) |>.imp id Prod.mk.inj
    exact ⟨rfl, rfl, rfl⟩
  · obtain ⟨-, rfl, -⟩ := Prod.mk.inj (Option.some.inj h) |>.imp id Prod.mk.inj
    exact ⟨rfl, rfl, rfl⟩

end PipeBuf

namespace Pipe

/-- The lengths and the links of the buffers, and the total size. -/
structure SameFrames (pp' pp : Pipe) : Prop where
  bufs : ∀ b, PipeBuf.SameFrame (pp'.bufs b) (pp.bufs b)
  nbufs : pp'.nbufs = pp.nbufs
  bufSize : pp'.bufSize = pp.bufSize
  bufMaxSize : pp'.bufMaxSize = pp.bufMaxSize

/-- No buffer is allocated; the reader or the writer may go to the next one. -/
structure Keeps (pp pp' : Pipe) : Prop extends SameFrames pp' pp where
  rbuf : pp'.rbuf = pp.rbuf ∨ pp'.rbuf = (pp.bufs pp.rbuf).nextBuf
  wbuf : pp'.wbuf = pp.wbuf ∨ pp'.wbuf = (pp.bufs pp.wbuf).nextBuf

/-- A buffer is allocated, and the writer goes to it. -/
structure Grows (pp pp' : Pipe) : Prop where
  grown : ∃ block, SameFrames pp' (pipeGrow pp block)
  rbuf : pp'.rbuf = pp.rbuf
  wbuf : pp'.wbuf = pp.nbufs

/-- A put pass of the message allocates a buffer. -/
def Allocates (pp : Pipe) (msg : Message) (malloc : Option Mem) : Prop :=
  ¬pp.Accepts msg ∧ u32 (2 * pp.bufSize) ≤ pp.bufMaxSize ∧ malloc.isSome = true

instance (pp : Pipe) (msg : Message) (malloc : Option Mem) : Decidable (pp.Allocates msg malloc) :=
  inferInstanceAs (Decidable (_ ∧ _))

variable {pp pp' : Pipe} {msg : Message} {malloc : Option Mem}

theorem SameFrames.update {b : ℕ} {buf : PipeBuf} (h : PipeBuf.SameFrame buf (pp.bufs b)) (m n r w : ℕ)
    (k : ℕ) : SameFrames
      { pp with
        bufs := Function.update pp.bufs b buf, nmsg := k, rbuf := r, wbuf := w
        signalOnPut := m, signalOnGet := n } pp := by
  refine ⟨fun c => ?_, rfl, rfl, rfl⟩
  dsimp only
  by_cases hc : c = b
  · subst hc
    rw [Function.update_self]
    exact h
  · rw [Function.update_of_ne hc]
    exact .refl _

/-- The counters are no part of it. -/
theorem Keeps.signals (pp : Pipe) (m n : ℕ) :
    Keeps pp { pp with signalOnPut := m, signalOnGet := n } :=
  ⟨⟨fun _ => .refl _, rfl, rfl, rfl⟩, Or.inl rfl, Or.inl rfl⟩

theorem Keeps.of_signals {m n : ℕ} (h : Keeps { pp with signalOnPut := m, signalOnGet := n } pp') :
    Keeps pp pp' :=
  ⟨⟨h.bufs, h.nbufs, h.bufSize, h.bufMaxSize⟩, h.rbuf, h.wbuf⟩

theorem Grows.of_signals {m n : ℕ} (h : Grows { pp with signalOnPut := m, signalOnGet := n } pp') :
    Grows pp pp' := by
  obtain ⟨⟨block, hbufs, hnbufs, hsize, hmax⟩, hr, hw⟩ := h
  exact ⟨⟨block, hbufs, hnbufs, hsize, hmax⟩, hr, hw⟩

/-- A put pass that stores its message. -/
theorem move_of_stored {signalPut : Bool}
    (h : pipePutPass pp msg malloc = some (.stored pp' signalPut)) :
    (pp.Allocates msg malloc ∧ Grows pp pp') ∨ (¬pp.Allocates msg malloc ∧ Keeps pp pp') := by
  simp only [pipePutPass] at h
  split_ifs at h with hroom hwrap hfree hmax
  · obtain ⟨buf₁, hw, h⟩ := Option.bind_eq_some_iff.mp h
    obtain ⟨buf, happ, -, rfl⟩ := putStore_stored h
    refine Or.inr ⟨fun hall => hall.1 (Or.inr (Or.inl hwrap)), ?_, Or.inl rfl, Or.inl rfl⟩
    exact .update ((PipeBuf.sameFrame_append happ).trans (PipeBuf.sameFrame_wrap hw)) ..
  · obtain ⟨buf, happ, -, rfl⟩ := putStore_stored h
    refine Or.inr ⟨fun hall => hall.1 (Or.inr (Or.inr hfree)), ?_, Or.inl rfl, Or.inr rfl⟩
    exact .update (PipeBuf.sameFrame_append happ) ..
  · cases malloc with
    | none => exact absurd h (by simp)
    | some block =>
        obtain ⟨buf, happ, -, rfl⟩ := putStore_stored h
        refine Or.inl ⟨⟨?_, hmax, rfl⟩, ⟨block, ?_⟩, rfl, rfl⟩
        · rintro (hfits | hfits | hfits)
          · omega
          · exact hwrap hfits
          · exact hfree hfits
        · have hnew : PipeBuf.SameFrame buf ((pipeGrow pp block).bufs pp.nbufs) := by
            rw [pipeGrow_bufs_new]
            exact PipeBuf.sameFrame_append happ
          exact .update hnew ..
  · exact absurd h (by simp)
  · obtain ⟨buf, happ, -, rfl⟩ := putStore_stored h
    refine Or.inr ⟨fun hall => hall.1 (Or.inl (not_lt.mp hroom)), ?_, Or.inl rfl, Or.inl rfl⟩
    exact .update (PipeBuf.sameFrame_append happ) ..

/-- A put pass that blocks. -/
theorem keeps_of_blocked (h : pipePutPass pp msg malloc = some (.blocked pp')) :
    ¬pp.Allocates msg malloc ∧ Keeps pp pp' := by
  refine ⟨?_, (putPass_blocked h).2 ▸ Keeps.signals pp _ _⟩
  rintro ⟨hnot, hmax, hsome⟩
  obtain ⟨block, rfl⟩ := Option.isSome_iff_exists.mp hsome
  simp only [pipePutPass] at h
  split_ifs at h with hroom hwrap hfree
  · exact hnot (Or.inr (Or.inl hwrap))
  · exact hnot (Or.inr (Or.inr hfree))
  · exact putStore_ne_blocked h
  · exact hnot (Or.inl (not_lt.mp hroom))

/-- A get pass. -/
theorem keeps_of_getPass {r : GetPass} (h : pipeGetPass pp = some r) :
    (∀ pp' m sp sg, r = .taken pp' m sp sg → Keeps pp pp') ∧ ∀ pp', r = .blocked pp' → Keeps pp pp' := by
  constructor
  · rintro pp' m sp sg rfl
    simp only [pipeGetPass] at h
    split_ifs at h
    · obtain ⟨⟨bytes, buf, emptied⟩, htake, heq⟩ := Option.bind_eq_some_iff.mp h
      obtain ⟨rfl, -⟩ := GetPass.taken.inj (Option.some.inj heq)
      have hframe := PipeBuf.sameFrame_take htake
      refine ⟨.update hframe .., ?_, Or.inl rfl⟩
      dsimp only
      split
      · exact Or.inr hframe.nextBuf
      · exact Or.inl rfl
    · exact absurd h (by simp)
  · rintro pp' rfl
    exact (getPass_blocked h).2 ▸ Keeps.signals pp _ _

end Pipe

/-- The operation allocates a buffer. -/
def PipeOp.Allocates (s : PipeSys) : PipeOp → Prop
  | .put msg malloc => s.pp.Allocates msg malloc
  | .putWake i res malloc => res = .signalled ∧ ∃ msg ∈ s.putters[i]?, s.pp.Allocates msg malloc
  | _ => False

namespace PipeSys

variable {s s' : PipeSys}

theorem move_put {msg : Message} {malloc : Option Mem} (h : s.put msg malloc = some s') :
    (s.pp.Allocates msg malloc ∧ Pipe.Grows s.pp s'.pp) ∨
      (¬s.pp.Allocates msg malloc ∧ Pipe.Keeps s.pp s'.pp) := by
  obtain ⟨r, hpass, rfl⟩ := Option.map_eq_some_iff.mp h
  cases r with
  | stored pp signalPut => exact Pipe.move_of_stored hpass
  | blocked pp => exact Or.inr (Pipe.keeps_of_blocked hpass)

theorem keeps_get (h : s.get = some s') : Pipe.Keeps s.pp s'.pp := by
  obtain ⟨r, hpass, rfl⟩ := Option.map_eq_some_iff.mp h
  cases r with
  | taken pp msg sp sg => exact (Pipe.keeps_of_getPass hpass).1 _ _ _ _ rfl
  | blocked pp => exact (Pipe.keeps_of_getPass hpass).2 _ rfl

/-- **What a step does to the buffers.** -/
theorem move_step {op : PipeOp} (h : s.step op = some s') :
    (op.Allocates s ∧ Pipe.Grows s.pp s'.pp) ∨ (¬op.Allocates s ∧ Pipe.Keeps s.pp s'.pp) := by
  cases op with
  | put msg malloc => exact move_put h
  | putWake i res malloc =>
      obtain ⟨n, hn⟩ : ∃ n, (Thread.putWake s.pp).1 = { s.pp with signalOnGet := n } := ⟨_, rfl⟩
      simp only [step, hn] at h
      split at h
      · next hnone =>
        rw [← Option.some.inj h]
        refine Or.inr ⟨?_, .signals s.pp _ _⟩
        rintro ⟨-, msg, hmsg, -⟩
        exact absurd (hnone.symm.trans hmsg) (by simp)
      · next msg hsome =>
        split_ifs at h with hres
        · rcases move_put h with ⟨hall, hgrow⟩ | ⟨hall, hkeep⟩
          · exact Or.inl ⟨⟨hres, msg, hsome, hall⟩, hgrow.of_signals⟩
          · refine Or.inr ⟨?_, hkeep.of_signals⟩
            rintro ⟨-, msg', hmsg', hall'⟩
            obtain rfl := Option.some.inj (hsome.symm.trans hmsg')
            exact hall hall'
        · rw [← Option.some.inj h]
          exact Or.inr ⟨fun hall => hres hall.1, .signals s.pp _ _⟩
  | get => exact Or.inr ⟨id, keeps_get h⟩
  | getWake res =>
      obtain ⟨n, hn⟩ : ∃ n, Thread.getWake s.pp = { s.pp with signalOnPut := n } := ⟨_, rfl⟩
      simp only [step, hn] at h
      split_ifs at h with hnone hres
      · rw [← Option.some.inj h]
        exact Or.inr ⟨id, .signals s.pp _ _⟩
      · exact Or.inr ⟨id, (keeps_get h).of_signals⟩
      · rw [← Option.some.inj h]
        exact Or.inr ⟨id, .signals s.pp _ _⟩

end PipeSys

end LuaSys.Thread
