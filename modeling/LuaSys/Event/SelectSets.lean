import LuaSys.Event.Select
import LuaSys.Lib.Run

/-!
# What `select` is asked for

The queue of `select.c` keeps the two sets of descriptors up to date, and the largest of them in
`max_fd`.  If the event with the largest descriptor is deleted, `max_fd` is set to `-1`, and the
next wait searches the array of the events for the new maximum.  The pipe that interrupts a wait
is in the set for reading too, but it is not in the array.  So if its descriptor is larger than
those of the events that are left, `select` is not asked for it any more, and nothing interrupts
the wait: no signal, and no other thread that wants to change the queue.

The sets do not count.  If two events wait for the same descriptor in the same direction, the
deletion of one of them takes the bit of the other.  A descriptor from `FD_SETSIZE` on is written
behind the set, which the code does not check.

## Main definitions

* `SelectOp`, `SelectSet.step` — the calls of the backend, and a wait.
* `SelectSet.Watching` — the sets have the descriptors of the events and the pipe.
* `SelectSet.SelectOk` — `select` is asked for all of them.
* `SelectOp.Safe` — the calls that keep this.

## Main results

* `SelectSet.SetsInv.step` — the invariant of the safe calls.
* `safe_run_selectOk_iff` — when the next wait asks for everything.
* `pipe_not_watched` — a run after which it does not ask for the pipe.
-/

namespace LuaSys.Event

open LuaSys.Lib Relation

/-- A call of the backend. -/
inductive SelectOp (ε : Type*)
  /-- `levq_add` sets the fields of a free event and registers it. -/
  | add (ev : ε) (fd : ℕ) (flags : EventFlags) (signal : Bool)
  | del (ev : ε)
  /-- `levq_mod_socket`. -/
  | modify (ev : ε) (read : Bool)
  /-- `evq_wait`, and what `select` leaves of the sets. -/
  | wait (workRead workWrite : Finset ℕ) (sigs : List ε)
  /-- The loop changes other flags of an event, and the list of the ready events. -/
  | loop (ev : ε) (flags : EventFlags) (evReady : List ε)

/-- The flags are those of the same kind of event, for the same direction. -/
def SameDirection (f g : EventFlags) : Prop :=
  f.read = g.read ∧ f.write = g.write ∧ f.timer = g.timer

instance (f g : EventFlags) : Decidable (SameDirection f g) := inferInstanceAs (Decidable (_ ∧ _))

namespace SelectSet
variable {ε : Type*} [DecidableEq ε]

/-- `evq_init`; the array has the pipe at the place 0. -/
def init (sigFd : ℕ) : SelectSet ε where
  fd _ := 0
  flags _ := {}
  signal _ := false
  registered _ := false
  index _ := 0
  npolls := 1
  events _ := none
  evReady := []
  sigFd := sigFd
  maxFd := sigFd
  readset := fdSet sigFd ∅
  writeset := ∅

/-- `levq_add`: an event that could not be registered is free again.  A timer does not come to
the backend. -/
def levqAdd (s : SelectSet ε) (ev : ε) (fd : ℕ) (flags : EventFlags) (signal : Bool) :
    SelectSet ε :=
  let s := { s with
    fd := Function.update s.fd ev fd
    flags := Function.update s.flags ev flags
    signal := Function.update s.signal ev signal }
  if flags.timer then { s with registered := Function.update s.registered ev true }
  else
    let r := s.evqAdd ev
    if r.2 = 0 then r.1 else { r.1 with registered := Function.update r.1.registered ev false }

/-- `levq_mod_socket`: `evq_modify`, and the new flag. -/
def levqModSocket (s : SelectSet ε) (ev : ε) (read : Bool) : SelectSet ε :=
  let s := s.evqModify ev read
  { s with toWatch := s.setFlags ev { s.flags ev with read := read, write := !read } }

/-- The argument `nfds` of `select`. -/
def nfds (s : SelectSet ε) : ℤ := s.findMaxFd.maxFd + 1

/-- One call.  An event is added when it is free, and deleted or changed when it is registered;
the events of the signals in a wait are such. -/
def step (s : SelectSet ε) : SelectOp ε → Option (SelectSet ε)
  | .add ev fd flags signal =>
      if s.registered ev then none else some (s.levqAdd ev fd flags signal)
  | .del ev => if s.registered ev then some (s.evqDel ev) else none
  | .modify ev read => if s.polled ev then some (s.levqModSocket ev read) else none
  | .wait workRead workWrite sigs =>
      if ∀ ev ∈ sigs, s.signal ev then s.findMaxFd.evqSelect workRead workWrite sigs else none
  | .loop ev flags evReady =>
      if SameDirection flags (s.flags ev) then
        some { s with toWatch := { s.setFlags ev flags with evReady := evReady } }
      else none

/-! ## The invariant -/

/-- The sets have the descriptors of the registered events, in their directions, and the pipe. -/
structure Watching (s : SelectSet ε) : Prop where
  read : ∀ fd, fd ∈ s.readset ↔
    fd = s.sigFd ∨ ∃ ev, s.polled ev ∧ (s.flags ev).read ∧ s.fd ev = fd
  write : ∀ fd, fd ∈ s.writeset ↔ ∃ ev, s.polled ev ∧ (s.flags ev).read = false ∧ s.fd ev = fd

/-- `select` is asked for the events and the pipe: the sets are right, and it looks at all of
their members. -/
structure SelectOk (s : SelectSet ε) : Prop where
  watching : s.Watching
  wide : ∀ fd ∈ s.readset ∪ s.writeset, (fd : ℤ) < s.nfds

/-- No other event, nor the pipe, waits for the descriptor of `ev` in its direction. -/
def Unshared (s : SelectSet ε) (ev : ε) : Prop :=
  ((s.flags ev).read → s.fd ev ≠ s.sigFd) ∧
    ∀ x, s.polled x → (s.flags x).read = (s.flags ev).read → s.fd x = s.fd ev → x = ev

/-- The maximum is known, or the search for it will not miss the pipe. -/
def KnowsMax (s : SelectSet ε) : Prop := s.maxFd ≠ -1 ∨ ∃ ev, s.polled ev ∧ s.sigFd ≤ s.fd ev

/-- What the safe calls keep. -/
structure SetsInv (s : SelectSet ε) : Prop where
  pos : 1 ≤ s.npolls
  indexed : s.Indexed
  watching : s.Watching
  max : s.maxFd = -1 ∨ (s.sigFd ≤ s.maxFd ∧ ∀ ev, s.polled ev → s.fd ev ≤ s.maxFd)
  pipe_lt : s.sigFd < fdSetsize
  fd_lt : ∀ ev, s.polled ev → s.fd ev < fdSetsize

/-- The two states have the same sets, and their events differ in what does not matter to them. -/
structure SameSets (s s' : SelectSet ε) : Prop where
  polled : ∀ ev, s'.polled ev = s.polled ev
  read : ∀ ev, s.polled ev → (s'.flags ev).read = (s.flags ev).read
  fd : ∀ ev, s.polled ev → s'.fd ev = s.fd ev
  index : s'.index = s.index
  npolls : s'.npolls = s.npolls
  events : s'.events = s.events
  sigFd : s'.sigFd = s.sigFd
  maxFd : s'.maxFd = s.maxFd
  readset : s'.readset = s.readset
  writeset : s'.writeset = s.writeset

section
variable {s s' : SelectSet ε} {ev x : ε}

omit [DecidableEq ε] in
theorem SetsInv.congr (h : s.SetsInv) (hs : SameSets s s') : s'.SetsInv := by
  have hexists : ∀ (b : Bool) (fd : ℕ),
      (∃ ev, s'.polled ev ∧ (s'.flags ev).read = b ∧ s'.fd ev = fd) ↔
        ∃ ev, s.polled ev ∧ (s.flags ev).read = b ∧ s.fd ev = fd := by
    intro b fd
    refine exists_congr fun ev => ?_
    rw [hs.polled]
    refine and_congr_right fun hev => ?_
    rw [hs.read ev hev, hs.fd ev hev]
  have hset : { ev | s'.polled ev = true } = { ev | s.polled ev = true } := by
    ext ev
    simp [hs.polled]
  refine ⟨hs.npolls ▸ h.pos, ?_, ⟨fun fd => ?_, fun fd => ?_⟩, ?_, ?_, fun ev hev => ?_⟩
  · rw [Watch.Indexed, hset, hs.events, hs.index, hs.npolls]
    exact h.indexed
  · rw [hs.readset, h.watching.read, hs.sigFd, hexists]
  · rw [hs.writeset, h.watching.write, hexists]
  · rw [hs.maxFd, hs.sigFd]
    refine h.max.imp_right (And.imp_right fun hmax ev hev => ?_)
    rw [hs.polled] at hev
    rw [hs.fd ev hev]
    exact hmax ev hev
  · rw [hs.sigFd]
    exact h.pipe_lt
  · rw [hs.polled] at hev
    rw [hs.fd ev hev]
    exact h.fd_lt ev hev

/-- Other flags of an event are set. -/
theorem SetsInv.setFlags (h : s.SetsInv) {f : EventFlags} (hf : SameDirection f (s.flags ev))
    (evReady : List ε) :
    ({ s with toWatch := { s.setFlags ev f with evReady := evReady } } : SelectSet ε).SetsInv := by
  refine h.congr ⟨fun x => ?_, fun x _ => ?_, fun _ _ => rfl, rfl, rfl, rfl, rfl, rfl, rfl, rfl⟩
  · by_cases hx : x = ev
    · simp [hx, Watch.polled, Watch.setFlags, hf.2.2]
    · simp [hx, Watch.polled, Watch.setFlags]
  · by_cases hx : x = ev
    · simp [hx, Watch.setFlags, hf.1]
    · simp [hx, Watch.setFlags]

/-! ## The calls -/

theorem mem_fdSet {fd c : ℕ} {set : Finset ℕ} (hfd : fd < fdSetsize) :
    c ∈ fdSet fd set ↔ c = fd ∨ c ∈ set := by
  rw [fdSet, if_pos hfd, Finset.mem_insert]

omit [DecidableEq ε] in
theorem init_setsInv {sigFd : ℕ} (hsig : sigFd < fdSetsize) :
    (init sigFd : SelectSet ε).SetsInv := by
  have hpolled : ∀ ev : ε, (init sigFd : SelectSet ε).polled ev = false := fun _ => rfl
  refine ⟨Nat.le_refl 1, ?_, ⟨fun fd => ?_, fun fd => ?_⟩, Or.inr ⟨Int.le_refl _, ?_⟩, hsig, ?_⟩
  · refine ⟨fun ev hev => ?_, fun ev hev => ?_, fun ev hev => ?_, fun i hlo hi => ?_⟩
    · simp [hpolled] at hev
    · simp [hpolled] at hev
    · simp [hpolled] at hev
    · exact absurd hi (by simp only [init]; omega)
  · simp [init, fdSet, hsig, Watch.polled]
  · simp [init, Watch.polled]
  · simp [hpolled]
  · simp [hpolled]

/-- An event is added.  It may share its descriptor with others. -/
theorem SetsInv.append (h : s.SetsInv) (hnew : s.registered ev = false)
    (hsig : s.signal ev = false) (htimer : (s.flags ev).timer = false)
    (hfd : s.fd ev < fdSetsize) (hres : (s.evqAdd ev).2 = 0) : (s.evqAdd ev).1.SetsInv := by
  unfold evqAdd at hres ⊢
  dsimp only at hres ⊢
  rw [if_neg (by simp [hsig])] at hres ⊢
  split at hres
  · simp at hres
  · rename_i hroom
    rw [if_neg hroom]
    dsimp only
    have hev : s.polled ev = false := by simp [Watch.polled, hnew]
    let w : Watch ε := { s.toWatch with registered := Function.update s.registered ev true }
    have hpolled : ∀ x, (w.append ev).polled x = true ↔ x = ev ∨ s.polled x := by
      intro x
      by_cases hx : x = ev
      · simp [w, hx, Watch.append, Watch.polled, hsig, htimer]
      · simp [w, hx, Watch.append, Watch.polled]
    have hexists : ∀ (b : Bool) (fd : ℕ),
        (∃ x, (w.append ev).polled x ∧ (s.flags x).read = b ∧ s.fd x = fd) ↔
          (s.flags ev).read = b ∧ s.fd ev = fd ∨
            ∃ x, s.polled x ∧ (s.flags x).read = b ∧ s.fd x = fd := by
      intro b fd
      simp only [hpolled, or_and_right, exists_or, exists_eq_left]
    refine ⟨?_, ?_, ⟨fun fd => ?_, fun fd => ?_⟩, ?_, h.pipe_lt, fun x hx => ?_⟩
    · simp [Watch.append]
    · have hset : { x | (w.append ev).polled x = true } = insert ev { x | s.polled x = true } := by
        ext x
        exact hpolled x
      show Placed _ _ _ _ { x | (w.append ev).polled x = true }
      rw [hset]
      exact h.indexed.add h.pos (by simp [hev])
    · refine Iff.trans ?_ (or_congr_right (hexists true fd).symm)
      have hold := h.watching.read fd
      cases hread : (s.flags ev).read
      · simpa [hread] using hold
      · simp only [if_true, mem_fdSet hfd, hold]
        tauto
    · refine Iff.trans ?_ (hexists false fd).symm
      have hold := h.watching.write fd
      cases hread : (s.flags ev).read
      · simp only [Bool.false_eq_true, if_false, mem_fdSet hfd, hold]
        tauto
      · simpa [hread] using hold
    · split
      · rename_i hmax
        have hmax' := h.max.resolve_left hmax.1
        refine Or.inr ⟨Int.le_of_lt (Int.lt_of_le_of_lt hmax'.1 hmax.2), fun x hx => ?_⟩
        rcases (hpolled x).mp hx with rfl | hx
        · exact Int.le_refl _
        · exact Int.le_of_lt (Int.lt_of_le_of_lt (hmax'.2 x hx) hmax.2)
      · rename_i hmax
        by_cases hunknown : s.maxFd = -1
        · exact Or.inl hunknown
        · have hmax' := h.max.resolve_left hunknown
          refine Or.inr ⟨hmax'.1, fun x hx => ?_⟩
          rcases (hpolled x).mp hx with rfl | hx
          · exact Int.not_lt.mp fun hlt => hmax ⟨hunknown, hlt⟩
          · exact hmax'.2 x hx
    · rcases (hpolled x).mp hx with rfl | hx
      · exact hfd
      · exact h.fd_lt x hx

omit [DecidableEq ε] in
/-- Without the event `ev`, its descriptor is not asked for in its direction. -/
theorem exists_without_same (hshare : s.Unshared ev) (fd : ℕ) :
    (∃ x, (s.polled x ∧ x ≠ ev) ∧ (s.flags x).read = (s.flags ev).read ∧ s.fd x = fd) ↔
      fd ≠ s.fd ev ∧ ∃ x, s.polled x ∧ (s.flags x).read = (s.flags ev).read ∧ s.fd x = fd := by
  constructor
  · rintro ⟨x, ⟨hx, hne⟩, hread, hfd⟩
    exact ⟨fun heq => hne (hshare.2 x hx hread (hfd.trans heq)), x, hx, hread, hfd⟩
  · rintro ⟨hne, x, hx, hread, hfd⟩
    refine ⟨x, ⟨hx, ?_⟩, hread, hfd⟩
    rintro rfl
    exact hne hfd.symm

omit [DecidableEq ε] in
/-- In the other direction, nothing changes without it. -/
theorem exists_without_other {b : Bool} (hb : (s.flags ev).read ≠ b) (fd : ℕ) :
    (∃ x, (s.polled x ∧ x ≠ ev) ∧ (s.flags x).read = b ∧ s.fd x = fd) ↔
      ∃ x, s.polled x ∧ (s.flags x).read = b ∧ s.fd x = fd := by
  refine exists_congr fun x => ?_
  constructor
  · rintro ⟨⟨hx, -⟩, hrest⟩
    exact ⟨hx, hrest⟩
  · rintro ⟨hx, hread, hfd⟩
    refine ⟨⟨hx, ?_⟩, hread, hfd⟩
    rintro rfl
    exact hb hread

omit [DecidableEq ε] in
/-- The bit of an event leaves its set, and no other does. -/
theorem watching_erase (h : s.Watching) (hshare : s.Unshared ev) (fd : ℕ) :
    (fd ∈ (if (s.flags ev).read then s.readset.erase (s.fd ev) else s.readset) ↔
      fd = s.sigFd ∨ ∃ x, (s.polled x ∧ x ≠ ev) ∧ (s.flags x).read ∧ s.fd x = fd) ∧
    (fd ∈ (if (s.flags ev).read then s.writeset else s.writeset.erase (s.fd ev)) ↔
      ∃ x, (s.polled x ∧ x ≠ ev) ∧ (s.flags x).read = false ∧ s.fd x = fd) := by
  have hsame := exists_without_same hshare fd
  cases hdir : (s.flags ev).read with
  | true =>
      rw [hdir] at hsame
      have hpipe : fd = s.sigFd → fd ≠ s.fd ev := fun heq => heq ▸ (hshare.1 hdir).symm
      rw [hsame, exists_without_other (by simp [hdir]), ← h.write]
      simp only [if_true, Finset.mem_erase, h.read, and_true, iff_self]
      tauto
  | false =>
      rw [hdir] at hsame
      rw [hsame, exists_without_other (by simp [hdir]), ← h.read]
      simp only [Bool.false_eq_true, if_false, Finset.mem_erase, h.write, iff_self, and_self]

/-- An event is deleted that shares its descriptor with no other. -/
theorem SetsInv.evqDel (h : s.SetsInv) (hev : s.polled ev) (hshare : s.Unshared ev) :
    (s.evqDel ev).SetsInv := by
  have hplace : ((s.flags ev).timer || s.signal ev) = false := by
    simp only [Watch.polled, Bool.and_eq_true, Bool.not_eq_true'] at hev
    simp [hev]
  have hw : s.toWatch.evqDel ev =
      { s.toWatch.remove ev with registered := Function.update s.registered ev false } := by
    simp [Watch.evqDel, hplace, Watch.remove]
  have hpolled : ∀ x, (s.toWatch.evqDel ev).polled x = true ↔ s.polled x = true ∧ x ≠ ev := by
    intro x
    rw [hw]
    by_cases hx : x = ev
    · simp [hx, Watch.polled]
    · simp [hx, Watch.polled, Watch.remove]
  have hlt := h.indexed.lt ev hev
  have hlo := h.indexed.lo_le ev hev
  unfold SelectSet.evqDel
  dsimp only
  rw [if_neg (by simp [hplace])]
  refine ⟨?_, ?_, ⟨fun fd => ?_, fun fd => ?_⟩, ?_, ?_, fun x hx => ?_⟩
  · rw [hw]
    simp only [Watch.remove]
    omega
  · have hset : { x | (s.toWatch.evqDel ev).polled x = true } =
        { x | s.polled x = true } \ {ev} := by
      ext x
      exact hpolled x
    show Placed _ _ _ _ { x | (s.toWatch.evqDel ev).polled x = true }
    rw [hset, hw]
    exact h.indexed.delete hev
  · have herase := (watching_erase h.watching hshare fd).1
    rw [hw] at hpolled ⊢
    simp only [hpolled]
    exact herase
  · have herase := (watching_erase h.watching hshare fd).2
    rw [hw] at hpolled ⊢
    simp only [hpolled]
    exact herase
  · split
    · exact Or.inl rfl
    · refine h.max.imp_right fun hmax => ⟨hmax.1, fun x hx => ?_⟩
      rw [hw] at hpolled hx ⊢
      exact hmax.2 x ((hpolled x).mp hx).1
  · exact h.pipe_lt
  · rw [hw] at hpolled hx ⊢
    exact h.fd_lt x ((hpolled x).mp hx).1

theorem SetsInv.levqAdd (h : s.SetsInv) (hfree : s.registered ev = false) {fd : ℕ}
    {flags : EventFlags} {signal : Bool} (hsafe : signal ∨ flags.timer ∨ fd < fdSetsize) :
    (s.levqAdd ev fd flags signal).SetsInv := by
  -- The fields of a free event do not matter.
  let s₁ : SelectSet ε := { s with
    fd := Function.update s.fd ev fd
    flags := Function.update s.flags ev flags
    signal := Function.update s.signal ev signal }
  have hev : s.polled ev = false := by simp [Watch.polled, hfree]
  have hne : ∀ x, s.polled x → x ≠ ev := by
    rintro x hx rfl
    simp [hev] at hx
  have h₁ : s₁.SetsInv := by
    refine h.congr ⟨fun x => ?_, fun x hx => ?_, fun x hx => ?_, rfl, rfl, rfl, rfl, rfl, rfl, rfl⟩
    · by_cases hx : x = ev
      · simp [s₁, hx, Watch.polled, hfree]
      · simp [s₁, hx, Watch.polled]
    · simp [s₁, hne x hx]
    · simp [s₁, hne x hx]
  -- Registering a timer or a signal does not matter, nor does taking the event back.
  have hregister : ∀ b, (b = false ∨ flags.timer ∨ signal) →
      ({ s₁ with registered := Function.update s₁.registered ev b } : SelectSet ε).SetsInv := by
    intro b hb
    refine h₁.congr ⟨fun x => ?_, fun _ _ => rfl, fun _ _ => rfl, rfl, rfl, rfl, rfl, rfl, rfl, rfl⟩
    by_cases hx : x = ev
    · rcases hb with hb | hb | hb <;> simp [s₁, hx, Watch.polled, hfree, hb]
    · simp [s₁, hx, Watch.polled]
  change (if flags.timer then { s₁ with registered := Function.update s₁.registered ev true }
    else if (s₁.evqAdd ev).2 = 0 then (s₁.evqAdd ev).1
      else { (s₁.evqAdd ev).1 with
        registered := Function.update (s₁.evqAdd ev).1.registered ev false }).SetsInv
  by_cases htimer : flags.timer = true
  · rw [if_pos htimer]
    exact hregister true (Or.inr (Or.inl htimer))
  · rw [if_neg htimer]
    cases hsig : signal with
    | true =>
        have hadd : s₁.evqAdd ev =
            ({ s₁ with registered := Function.update s₁.registered ev true }, 0) := by
          simp [evqAdd, s₁, hsig]
        rw [hadd, if_pos rfl]
        exact hregister true (Or.inr (Or.inr hsig))
    | false =>
        have hfd : fd < fdSetsize := by simpa [hsig, htimer] using hsafe
        by_cases hres : (s₁.evqAdd ev).2 = 0
        · rw [if_pos hres]
          exact h₁.append hfree (by simp [s₁, hsig]) (by simpa [s₁] using htimer)
            (by simpa [s₁] using hfd) hres
        · have hfull : fdSetsize ≤ s.npolls := by
            by_contra hroom
            simp [evqAdd, s₁, hsig, hroom] at hres
          have hadd : s₁.evqAdd ev =
              ({ s₁ with registered := Function.update s₁.registered ev true }, -1) := by
            simp [evqAdd, s₁, hsig, hfull]
          rw [if_neg hres, hadd]
          simpa using hregister false (Or.inl rfl)

/-- What is asked for when the direction of an event is changed. -/
theorem exists_modified (hev : s.polled ev) {f : EventFlags} (b : Bool) (fd : ℕ) :
    (∃ x, s.polled x ∧ (Function.update s.flags ev f x).read = b ∧ s.fd x = fd) ↔
      f.read = b ∧ s.fd ev = fd ∨
        ∃ x, (s.polled x ∧ x ≠ ev) ∧ (s.flags x).read = b ∧ s.fd x = fd := by
  constructor
  · rintro ⟨x, hx, hread, hfd⟩
    by_cases hxe : x = ev
    · subst hxe
      exact Or.inl ⟨by simpa using hread, hfd⟩
    · exact Or.inr ⟨x, ⟨hx, hxe⟩, by simpa [hxe] using hread, hfd⟩
  · rintro (⟨hread, hfd⟩ | ⟨x, ⟨hx, hxe⟩, hread, hfd⟩)
    · exact ⟨ev, hev, by simpa using hread, hfd⟩
    · exact ⟨x, hx, by simpa [hxe] using hread, hfd⟩

/-- The direction of an event is changed, or its descriptor is its own. -/
theorem SetsInv.levqModSocket (h : s.SetsInv) (hev : s.polled ev) {read : Bool}
    (hsafe : (s.flags ev).read = read ∨ s.Unshared ev) : (s.levqModSocket ev read).SetsInv := by
  let f : EventFlags := { s.flags ev with read := read, write := !read }
  let readset := if (s.flags ev).read then s.readset.erase (s.fd ev) else s.readset
  let writeset := if (s.flags ev).read then s.writeset else s.writeset.erase (s.fd ev)
  have hpolled : ∀ x, (s.setFlags ev f).polled x = s.polled x := by
    intro x
    by_cases hx : x = ev
    · simp [hx, f, Watch.polled, Watch.setFlags]
    · simp [hx, f, Watch.polled, Watch.setFlags]
  have hfd := h.fd_lt ev hev
  have hsets : ∀ fd, (fd ∈ (if read then fdSet (s.fd ev) readset else readset) ↔
        fd = s.sigFd ∨ ∃ x, s.polled x ∧ (Function.update s.flags ev f x).read ∧ s.fd x = fd) ∧
      (fd ∈ (if read then writeset else fdSet (s.fd ev) writeset) ↔
        ∃ x, s.polled x ∧ (Function.update s.flags ev f x).read = false ∧ s.fd x = fd) := by
    intro fd
    rcases hsafe with hsame | hshare
    · -- The bit is cleared and set again.
      have hflags : ∀ x, (Function.update s.flags ev f x).read = (s.flags x).read := by
        intro x
        by_cases hx : x = ev
        · simp [hx, f, hsame]
        · simp [hx]
      simp only [hflags, ← h.watching.read fd, ← h.watching.write fd]
      have hbit : s.fd ev ∈ if read then s.readset else s.writeset := by
        cases hdir : read with
        | true => exact (h.watching.read _).mpr (Or.inr ⟨ev, hev, hsame.trans hdir, rfl⟩)
        | false => exact (h.watching.write _).mpr ⟨ev, hev, hsame.trans hdir, rfl⟩
      cases hdir : read with
      | true =>
          rw [hdir, if_pos rfl] at hbit
          simp [readset, writeset, hsame, hdir, fdSet, hfd, Finset.insert_erase hbit]
      | false =>
          rw [hdir, if_neg (by simp)] at hbit
          simp [readset, writeset, hsame, hdir, fdSet, hfd, Finset.insert_erase hbit]
    · rw [exists_modified hev, exists_modified hev]
      obtain ⟨hread, hwrite⟩ := watching_erase h.watching hshare fd
      cases hdir : read with
      | true =>
          simp only [if_true, mem_fdSet hfd, readset, writeset, hread, hwrite, f, hdir, true_and,
            eq_comm (a := s.fd ev)]
          exact ⟨or_left_comm, by simp⟩
      | false =>
          simp only [Bool.false_eq_true, if_false, mem_fdSet hfd, readset, writeset, hread, hwrite,
            f, hdir, true_and, eq_comm (a := s.fd ev)]
          exact ⟨by simp, trivial⟩
  have hset : { x | (s.setFlags ev f).polled x = true } = { x | s.polled x = true } := by
    ext x
    simp [hpolled]
  change ({ s with
    toWatch := s.setFlags ev f
    readset := if read then fdSet (s.fd ev) readset else readset
    writeset := if read then writeset else fdSet (s.fd ev) writeset } : SelectSet ε).SetsInv
  refine ⟨h.pos, ?_, ⟨fun fd => ?_, fun fd => ?_⟩, ?_, h.pipe_lt, ?_⟩
  · show Placed _ _ _ _ { x | (s.setFlags ev f).polled x = true }
    rw [hset]
    exact h.indexed
  · simp only [hpolled]
    exact (hsets fd).1
  · simp only [hpolled]
    exact (hsets fd).2
  · simp only [hpolled]
    exact h.max
  · simp only [hpolled]
    exact h.fd_lt

/-! ## The wait -/

omit [DecidableEq ε] in
/-- The search finds a descriptor from `c` on if and only if there is one. -/
theorem le_largestFd_iff {k i : ℕ} {m c : ℤ} : c ≤ s.largestFd k i m ↔
    c ≤ m ∨ ∃ j x, i ≤ j ∧ j < i + k ∧ s.events j = some x ∧ c ≤ s.fd x := by
  induction k generalizing i m with
  | zero =>
      rw [largestFd]
      refine ⟨Or.inl, fun h => h.resolve_right ?_⟩
      rintro ⟨j, x, hij, hj, -⟩
      omega
  | succ k ih =>
      rw [largestFd, ih]
      have hfirst : c ≤ (s.events i).elim m (fun ev => if m < s.fd ev then (s.fd ev : ℤ) else m) ↔
          c ≤ m ∨ ∃ x, s.events i = some x ∧ c ≤ s.fd x := by
        cases s.events i with
        | none => simp
        | some x =>
            simp only [Option.elim_some, Option.some.injEq, exists_eq_left']
            split <;> omega
      rw [hfirst, or_assoc]
      refine or_congr_right ⟨?_, ?_⟩
      · rintro (⟨x, hslot, hc⟩ | ⟨j, x, hij, hj, hslot, hc⟩)
        · exact ⟨i, x, Nat.le_refl i, by omega, hslot, hc⟩
        · exact ⟨j, x, by omega, by omega, hslot, hc⟩
      · rintro ⟨j, x, hij, hj, hslot, hc⟩
        rcases Nat.eq_or_lt_of_le hij with rfl | hlt
        · exact Or.inl ⟨x, hslot, hc⟩
        · exact Or.inr ⟨j, x, hlt, by omega, hslot, hc⟩

omit [DecidableEq ε] in
/-- If the maximum is not known, a wait searches the events for it. -/
theorem le_findMaxFd_iff (h : s.SetsInv) (hmax : s.maxFd = -1) (c : ℕ) :
    (c : ℤ) ≤ s.findMaxFd.maxFd ↔ ∃ x, s.polled x ∧ c ≤ s.fd x := by
  have hpos := h.pos
  rw [findMaxFd, if_pos hmax, le_largestFd_iff]
  constructor
  · rintro (hneg | ⟨j, x, hlo, hj, hslot, hc⟩)
    · omega
    · obtain ⟨hx, -⟩ := h.indexed.index_of_slot hlo (by omega) hslot
      exact ⟨x, hx, by omega⟩
  · rintro ⟨x, hx, hc⟩
    have hlt := h.indexed.lt x hx
    exact Or.inr ⟨s.index x, x, h.indexed.lo_le x hx, by omega, h.indexed.slot_index x hx, by omega⟩

omit [DecidableEq ε] in
/-- `select` is asked for everything if and only if the search does not miss the pipe. -/
theorem SetsInv.selectOk_iff (h : s.SetsInv) : s.SelectOk ↔ s.KnowsMax := by
  have hmem : ∀ fd ∈ s.readset ∪ s.writeset, fd = s.sigFd ∨ ∃ x, s.polled x ∧ s.fd x = fd := by
    intro fd hfd
    rcases Finset.mem_union.mp hfd with hfd | hfd
    · rcases (h.watching.read fd).mp hfd with hpipe | ⟨x, hx, -, hfx⟩
      · exact Or.inl hpipe
      · exact Or.inr ⟨x, hx, hfx⟩
    · obtain ⟨x, hx, -, hfx⟩ := (h.watching.write fd).mp hfd
      exact Or.inr ⟨x, hx, hfx⟩
  have hpipe : s.sigFd ∈ s.readset ∪ s.writeset :=
    Finset.mem_union_left _ ((h.watching.read _).mpr (Or.inl rfl))
  unfold KnowsMax
  by_cases hmax : s.maxFd = -1
  · have hle := le_findMaxFd_iff h hmax
    constructor
    · intro hok
      have hlt := hok.wide s.sigFd hpipe
      exact Or.inr ((hle s.sigFd).mp (by simp only [nfds] at hlt; omega))
    · intro hknows
      have hknows := hknows.resolve_left (fun hne => hne hmax)
      refine ⟨h.watching, fun fd hfd => ?_⟩
      have hfound : ∃ x, s.polled x ∧ fd ≤ s.fd x := by
        rcases hmem fd hfd with rfl | ⟨x, hx, hfx⟩
        · exact hknows
        · exact ⟨x, hx, Nat.le_of_eq hfx.symm⟩
      have := (hle fd).mpr hfound
      simp only [nfds]
      omega
  · refine iff_of_true ⟨h.watching, fun fd hfd => ?_⟩ (Or.inl hmax)
    obtain ⟨hsig, hevents⟩ := h.max.resolve_left hmax
    simp only [nfds, findMaxFd, if_neg hmax]
    rcases hmem fd hfd with rfl | ⟨x, hx, rfl⟩
    · omega
    · have := hevents x hx
      omega

omit [DecidableEq ε] in
theorem SetsInv.findMaxFd (h : s.SetsInv) (hknows : s.KnowsMax) : s.findMaxFd.SetsInv := by
  by_cases hmax : s.maxFd = -1
  · have hle := le_findMaxFd_iff h hmax
    have hknows := hknows.resolve_left (fun hne => hne hmax)
    have hbound : (s.sigFd : ℤ) ≤ s.findMaxFd.maxFd ∧
        ∀ x, s.polled x → (s.fd x : ℤ) ≤ s.findMaxFd.maxFd :=
      ⟨(hle s.sigFd).mpr hknows, fun x hx => (hle (s.fd x)).mpr ⟨x, hx, Nat.le_refl _⟩⟩
    rw [SelectSet.findMaxFd, if_pos hmax] at hbound ⊢
    exact ⟨h.pos, h.indexed, ⟨h.watching.read, h.watching.write⟩, Or.inr hbound, h.pipe_lt, h.fd_lt⟩
  · rw [SelectSet.findMaxFd, if_neg hmax]
    exact h

omit [DecidableEq ε] in
/-- The search changes nothing but the maximum. -/
theorem findMaxFd_fields (s : SelectSet ε) :
    s.findMaxFd.toWatch = s.toWatch ∧ s.findMaxFd.sigFd = s.sigFd := by
  unfold SelectSet.findMaxFd
  split <;> exact ⟨rfl, rfl⟩

/-- A ready event is reported, and is not deleted if it shares its descriptor. -/
theorem SetsInv.report (h : s.SetsInv) (hev : s.polled ev) (res : EventFlags)
    (hshare : (s.flags ev).active = false → (s.flags ev).oneshot → s.Unshared ev) :
    (s.report ev res).SetsInv ∧ (s.report ev res).sigFd = s.sigFd := by
  have hready : ∀ (t : SelectSet ε) (l : List ε), t.SetsInv → t.sigFd = s.sigFd →
      ({ t with evReady := l } : SelectSet ε).SetsInv ∧
        ({ t with evReady := l } : SelectSet ε).sigFd = s.sigFd := by
    intro t l ht hsig
    exact ⟨ht.congr ⟨fun _ => rfl, fun _ _ => rfl, fun _ _ => rfl, rfl, rfl, rfl, rfl, rfl, rfl, rfl⟩,
      hsig⟩
  cases hactive : (s.flags ev).active with
  | true =>
      have heq : s.report ev res = { s with toWatch := s.setRes ev res } := by
        simp [SelectSet.report, Watch.setRes, Watch.setFlags, hactive]
      have hdir : SameDirection ((s.setRes ev res).flags ev) (s.flags ev) := by
        simp [SameDirection, Watch.setRes, Watch.setFlags]
      have hset : s.setRes ev res = s.setFlags ev ((s.setRes ev res).flags ev) := by
        simp [Watch.setRes, Watch.setFlags]
      rw [heq, hset]
      exact ⟨h.setFlags hdir s.evReady, rfl⟩
  | false =>
      let f : EventFlags := { s.flags ev with
        active := true
        readRes := (s.flags ev).readRes || res.readRes
        writeRes := (s.flags ev).writeRes || res.writeRes
        eofRes := (s.flags ev).eofRes || res.eofRes }
      let s₁ : SelectSet ε := { s with toWatch := s.setFlags ev f }
      have hdir : SameDirection f (s.flags ev) := ⟨rfl, rfl, rfl⟩
      have h₁ : s₁.SetsInv := h.setFlags hdir s.evReady
      have hev₁ : s₁.polled ev := by
        simp only [Watch.polled] at hev ⊢
        simpa [s₁, f, Watch.setFlags] using hev
      cases hone : (s.flags ev).oneshot with
      | false =>
          have heq : s.report ev res = { s₁ with evReady := ev :: s₁.evReady } := by
            simp [SelectSet.report, s₁, f, Watch.setRes, Watch.setFlags, hactive, hone]
          rw [heq]
          exact hready s₁ _ h₁ rfl
      | true =>
          have heq : s.report ev res =
              { s₁.evqDel ev with evReady := ev :: (s₁.evqDel ev).evReady } := by
            simp [SelectSet.report, s₁, f, Watch.setRes, Watch.setFlags, hactive, hone]
          have hread : ∀ x, (s₁.flags x).read = (s.flags x).read := by
            intro x
            by_cases hx : x = ev
            · simp [s₁, f, hx, Watch.setFlags]
            · simp [s₁, hx, Watch.setFlags]
          have hshare₁ : s₁.Unshared ev := by
            obtain ⟨hpipe, hother⟩ := hshare hactive hone
            refine ⟨fun hr => hpipe (by rwa [hread] at hr), fun x hx hr hfd => ?_⟩
            rw [hread, hread] at hr
            refine hother x ?_ hr hfd
            by_cases hxe : x = ev
            · exact hxe ▸ hev
            · simpa [s₁, hxe, Watch.polled, Watch.setFlags] using hx
          rw [heq]
          refine hready _ _ (h₁.evqDel hev₁ hshare₁) ?_
          unfold SelectSet.evqDel
          split <;> rfl

/-- The body of the loop keeps the sets. -/
theorem visit_setsInv {s₀ : SelectSet ε} {workRead workWrite : Finset ℕ} {i : ℕ}
    (hscan : Watch.ScanInv (ready s₀.toWatch workRead workWrite) s₀.toWatch i s.toWatch)
    (hi : i < s₀.npolls) (h : s.SetsInv) (hsig : s.sigFd = s₀.sigFd)
    (hshare : ∀ x, s₀.polled x → ready s₀.toWatch workRead workWrite x →
      (s₀.flags x).oneshot → (s₀.flags x).active = false → s₀.Unshared x) :
    ∃ s' b, visit workRead workWrite i s = some (s', b) ∧
      (Watch.ScanInv (ready s₀.toWatch workRead workWrite) s₀.toWatch (i + 1) s'.toWatch ∧
        s'.SetsInv ∧ s'.sigFd = s₀.sigFd) := by
  obtain ⟨s', hvisit, hscan'⟩ := visit_scanInv hscan hi
  refine ⟨s', _, hvisit, hscan', ?_⟩
  obtain ⟨ev, hslot, hslot₀, hev₀, -, hev, -, hactive⟩ := hscan.current hi
  unfold visit at hvisit
  rw [hslot, hslot₀, Option.any_some] at hvisit
  simp only [Option.map_some, Option.some.injEq] at hvisit
  have hready := ready_eq_of_scanInv workRead workWrite hscan ev
  cases hrep : ready s₀.toWatch workRead workWrite ev with
  | false =>
      rw [hrep] at hready hvisit
      rw [if_neg (by simpa [ready] using hready)] at hvisit
      obtain rfl : s = s' := congrArg Prod.fst hvisit
      exact ⟨h, hsig⟩
  | true =>
      rw [hrep] at hready hvisit
      dsimp only [ready] at hready
      rw [if_pos hready] at hvisit
      obtain rfl : s.report ev _ = s' := congrArg Prod.fst hvisit
      -- What the event does not share at the start of the loop, it does not share now.
      have hone := (hscan.kind ev).oneshot
      obtain ⟨hs', hsig'⟩ := h.report hev _ fun hna ho => by
        have hold := hshare ev hev₀ hrep (hone.symm.trans ho) (hactive.symm.trans hna)
        refine ⟨fun hr => ?_, fun x hx hr hfd => ?_⟩
        · rw [hsig, hscan.fd]
          rw [(hscan.kind ev).read] at hr
          exact hold.1 hr
        · rw [(hscan.kind x).read, (hscan.kind ev).read] at hr
          rw [hscan.fd] at hfd
          refine hold.2 x ?_ hr hfd
          have hreg := hscan.registered x
          simp only [Watch.polled, Bool.and_eq_true, Bool.not_eq_true'] at hx ⊢
          rw [hscan.signal, (hscan.kind x).timer] at hx
          rw [hreg, Bool.and_eq_true] at hx
          exact ⟨⟨hx.1.1.1, hx.1.2⟩, hx.2⟩
      exact ⟨hs', hsig'.trans hsig⟩

/-- A wait keeps the sets if it deletes no event that shares its descriptor. -/
theorem SetsInv.evqSelect (h : s.SetsInv) {workRead workWrite : Finset ℕ} {sigs : List ε}
    (hsigs : ∀ x ∈ sigs, s.signal x)
    (hshare : ∀ x, s.polled x → ready s.toWatch workRead workWrite x →
      (s.flags x).oneshot → (s.flags x).active = false → s.Unshared x)
    (hs' : s.evqSelect workRead workWrite sigs = some s') : s'.SetsInv := by
  have hpos := h.pos
  obtain ⟨hw, -⟩ := entered_watch workRead hsigs
  have hsig : ∀ x, s.polled x → s.signal x = false := by
    intro x hx
    simp only [Watch.polled, Bool.and_eq_true, Bool.not_eq_true'] at hx
    exact hx.1.2
  have hfields : (s.entered workRead sigs).sigFd = s.sigFd ∧
      (s.entered workRead sigs).maxFd = s.maxFd ∧
      (s.entered workRead sigs).readset = s.readset ∧
      (s.entered workRead sigs).writeset = s.writeset := by
    unfold entered
    split <;> exact ⟨rfl, rfl, rfl, rfl⟩
  have h₀ : (s.entered workRead sigs).SetsInv :=
    h.congr ⟨hw.polled, fun x hx => by rw [hw.flags x (hsig x hx)], fun x _ => by rw [hw.fd],
      hw.index, hw.npolls, hw.events, hfields.1, hfields.2.1, hfields.2.2.1, hfields.2.2.2⟩
  have hshare₀ : ∀ x, (s.entered workRead sigs).polled x →
      ready (s.entered workRead sigs).toWatch workRead workWrite x →
      ((s.entered workRead sigs).flags x).oneshot →
      ((s.entered workRead sigs).flags x).active = false →
      (s.entered workRead sigs).Unshared x := by
    intro x hx hrep hone hactive
    have hx : s.polled x := (hw.polled x).symm.trans hx
    rw [ready_entered hsigs hx] at hrep
    rw [hw.flags x (hsig x hx)] at hone hactive
    obtain ⟨hpipe, hother⟩ := hshare x hx hrep hone hactive
    refine ⟨fun hr => ?_, fun y hy hr hfd => ?_⟩
    · rw [hw.flags x (hsig x hx)] at hr
      rw [hw.fd, hfields.1]
      exact hpipe hr
    · have hy : s.polled y := (hw.polled y).symm.trans hy
      rw [hw.flags x (hsig x hx), hw.flags y (hsig y hy)] at hr
      rw [hw.fd] at hfd
      exact hother y hy hr hfd
  have hvisit := fun i (t : SelectSet ε) (hi : i < s.npolls)
      (hinv : Watch.ScanInv (ready (s.entered workRead sigs).toWatch workRead workWrite)
        (s.entered workRead sigs).toWatch i t.toWatch ∧ t.SetsInv ∧
          t.sigFd = (s.entered workRead sigs).sigFd) =>
    visit_setsInv hinv.1 (by rw [hw.npolls]; exact hi) hinv.2.1 hinv.2.2 hshare₀
  obtain ⟨t, m, hscan, hinv⟩ := scan_keeps (k := s.npolls - 1) hvisit (by omega)
    ⟨Watch.ScanInv.begin h₀.indexed, h₀, rfl⟩
  have heq : s.evqSelect workRead workWrite sigs = some t := by
    rw [SelectSet.evqSelect]
    simpa [entered] using hscan
  rw [heq] at hs'
  exact Option.some.inj hs' ▸ hinv.2.1

/-- The end of a registration without a place in the array. -/
theorem SetsInv.evqDel_of_not_polled (h : s.SetsInv) (hev : s.polled ev = false)
    (hreg : s.registered ev) : (s.evqDel ev).SetsInv := by
  have hplace : ((s.flags ev).timer || s.signal ev) = true := by
    cases htimer : (s.flags ev).timer <;> cases hsig : s.signal ev <;>
      simp_all [Watch.polled]
  have heq : s.evqDel ev = { s with registered := Function.update s.registered ev false } := by
    simp [SelectSet.evqDel, Watch.evqDel, hplace]
  rw [heq]
  refine h.congr ⟨fun x => ?_, fun _ _ => rfl, fun _ _ => rfl, rfl, rfl, rfl, rfl, rfl, rfl, rfl⟩
  by_cases hx : x = ev
  · subst hx
    rw [hev]
    simp [Watch.polled]
  · simp [hx, Watch.polled]

end

end SelectSet

/-! ## Runs -/

section
variable {ε : Type*} [DecidableEq ε] {s s' : SelectSet ε}

/-- The calls that keep the sets right.  A descriptor is below `FD_SETSIZE`; an event is taken
from a set, by a deletion, by a change of its direction or as a oneshot event, only if no other
waits for the same there; and a wait either knows the maximum, or there is an event whose
descriptor is not below that of the pipe. -/
def SelectOp.Safe (s : SelectSet ε) : SelectOp ε → Prop
  | .add _ fd flags signal => signal ∨ flags.timer ∨ fd < fdSetsize
  | .del ev => s.polled ev → s.Unshared ev
  | .modify ev read => (s.flags ev).read = read ∨ s.Unshared ev
  | .wait workRead workWrite _ =>
      s.KnowsMax ∧ ∀ ev, s.polled ev → SelectSet.ready s.toWatch workRead workWrite ev →
        (s.flags ev).oneshot → (s.flags ev).active = false → s.Unshared ev
  | .loop _ _ _ => True

/-- A safe call. -/
def SafeCall (s s' : SelectSet ε) : Prop := ∃ op : SelectOp ε, op.Safe s ∧ s.step op = some s'

theorem SelectSet.SetsInv.step (h : s.SetsInv) (hstep : SafeCall s s') : s'.SetsInv := by
  obtain ⟨op, hsafe, hop⟩ := hstep
  cases op with
  | add ev fd flags signal =>
      rw [SelectSet.step, Option.ite_none_left_eq_some] at hop
      obtain ⟨hfree, hop⟩ := hop
      obtain rfl := Option.some.inj hop
      exact h.levqAdd (by simpa using hfree) hsafe
  | del ev =>
      rw [SelectSet.step, Option.ite_none_right_eq_some] at hop
      obtain ⟨hreg, hop⟩ := hop
      obtain rfl := Option.some.inj hop
      cases hev : s.polled ev with
      | true => exact h.evqDel hev (hsafe hev)
      | false => exact h.evqDel_of_not_polled hev hreg
  | modify ev read =>
      rw [SelectSet.step, Option.ite_none_right_eq_some] at hop
      obtain ⟨hev, hop⟩ := hop
      obtain rfl := Option.some.inj hop
      exact h.levqModSocket hev hsafe
  | wait workRead workWrite sigs =>
      rw [SelectSet.step, Option.ite_none_right_eq_some] at hop
      obtain ⟨hsigs, hop⟩ := hop
      obtain ⟨hw, hsig⟩ := SelectSet.findMaxFd_fields s
      refine (h.findMaxFd hsafe.1).evqSelect (by rwa [hw]) ?_ hop
      simpa only [SelectSet.Unshared, hw, hsig] using hsafe.2
  | loop ev flags evReady =>
      rw [SelectSet.step, Option.ite_none_right_eq_some] at hop
      obtain ⟨hdir, hop⟩ := hop
      obtain rfl := Option.some.inj hop
      exact h.setFlags hdir evReady

/-- In every state that safe calls lead to, the sets are right, and `select` will be asked for all
of them if and only if the next wait is safe too as to the maximum. -/
theorem safe_run_selectOk_iff {sigFd : ℕ} (hsig : sigFd < fdSetsize)
    (hrun : ReflTransGen SafeCall (SelectSet.init sigFd) s) : s.SelectOk ↔ s.KnowsMax :=
  (inv_of_reach (I := SelectSet.SetsInv) (fun _ _ hstep h => h.step hstep)
    (SelectSet.init_setsInv hsig) hrun).selectOk_iff

end

/-- An event for input. -/
def forInput : EventFlags := { read := true }

/-- The pipe is 5, and there are events for the descriptors 7 and 3. -/
theorem safe_run_selectOk_iff_twoEvents :
    ∃ s : SelectSet ℕ, ReflTransGen SafeCall (SelectSet.init 5) s ∧
      s.readset = {5, 7, 3} ∧ s.SelectOk := by
  have hfirst : SafeCall (SelectSet.init 5 : SelectSet ℕ) _ :=
    ⟨.add 0 7 forInput false, Or.inr (Or.inr (by decide)), rfl⟩
  have hrun : ReflTransGen SafeCall (SelectSet.init 5 : SelectSet ℕ) _ :=
    .tail (.single hfirst) ⟨.add 1 3 forInput false, Or.inr (Or.inr (by decide)), rfl⟩
  exact ⟨_, hrun, by decide,
    (safe_run_selectOk_iff (by decide) hrun).mpr (Or.inl (by decide))⟩

/-- The pipe is 5.  Events for the descriptors 7 and 3 are added, and the one for 7 is deleted:
the next wait looks at descriptors below 4 only. -/
theorem pipe_not_watched :
    ∃ s, runOps SelectSet.step (SelectSet.init 5)
        [.add 0 7 forInput false, .add 1 3 forInput false, .del 0] = some s ∧
      5 ∈ s.readset ∧ s.nfds = 4 ∧ ¬s.SelectOk := by
  refine ⟨_, rfl, by decide, by decide, fun hok => ?_⟩
  exact absurd (hok.wide 5 (by decide)) (by decide)

end LuaSys.Event
