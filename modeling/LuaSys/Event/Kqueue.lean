import LuaSys.Lib.Run
import Mathlib.Data.List.Basic
import Mathlib.Data.Prod.Basic
import Mathlib.Logic.Function.Basic

/-!
# The change list of the kqueue backend

`kqueue_set` does not tell the kernel of a filter at once.  It puts the change into `kev_list`,
and the next `kevent` hands over the whole list: the one in `evq_wait`, or one in `kqueue_set`
if the list is full.  The two differ.  In `evq_wait` there is room for results, so a change that
fails is reported as one and the rest of the list is performed; the call in `kqueue_set` has no
room, stops at the first change that fails and returns an error.  The deletion of a filter that
is not there fails, and each oneshot event leaves such a deletion behind, since the kernel has
removed its filter by then.

Results come into the same array that holds the changes.  While `evq_wait` goes through them,
`evq_del` of a oneshot event puts new changes there.

What the filters will be once the list is performed is `settled`.  Operations act on it as they
would on the filters if each change was performed at once.  There is one exception: a change
names its descriptor by number, and a change that waits for a descriptor that has been closed
meets the next descriptor of that number.

## Main definitions

* `Kevent`, `applyChange`, `flush`, `settle` — the changes and what `kevent` does with them.
* `Kqueue`, `Kqueue.step` — the queue with the kernel's side of it.
* `Kqueue.settled` — the filters after the changes.
* `Kqueue.Follows` — the filters are those of the registered events.
* `Kqueue.Safe` — the condition on the state before a step.

## Main results

* `evqWait_eq_foldl` — `evq_wait` comes to its results before the changes do.
* `safe_run_follows` — the filters follow the events in every run of safe steps.
-/

namespace LuaSys.Event

open LuaSys.Lib

/-- The filters `EVFILT_READ` and `EVFILT_WRITE`. -/
inductive KqFilter
  | read
  | write
  deriving DecidableEq, Repr

/-- The flags of a change, or of a result. -/
inductive KevFlags
  /-- `EV_ADD`, with or without `EV_ONESHOT`. -/
  | add (oneshot : Bool)
  /-- `EV_DELETE`. -/
  | delete
  /-- A filter has occurred, with or without `EV_EOF`. -/
  | occurred (eof : Bool)
  /-- `EV_ERROR`. -/
  | error
  deriving DecidableEq, Repr

/-- `struct kevent`. -/
structure Kevent (ε : Type*) where
  ident : ℕ
  filter : KqFilter
  flags : KevFlags
  udata : Option ε
  deriving DecidableEq

/-- The filter that a change or a result is about. -/
def Kevent.key {ε : Type*} (kev : Kevent ε) : ℕ × KqFilter := (kev.ident, kev.filter)

/-- The result is that a filter has occurred. -/
def Kevent.hasOccurred {ε : Type*} (kev : Kevent ε) : Bool :=
  match kev.flags with
  | .occurred _ => true
  | _ => false

/-- The filters of a kqueue: the event of each, and whether it has `EV_ONESHOT`. -/
abbrev KqFilters (ε : Type*) : Type _ := ℕ × KqFilter → Option (ε × Bool)

section changes
variable {ε : Type*}

/-- The kernel performs a change, or fails: `EV_ADD` needs an open descriptor, and `EV_DELETE`
a filter. -/
def applyChange (opened : ℕ → Bool) (f : KqFilters ε) (kev : Kevent ε) : Option (KqFilters ε) :=
  match kev.flags, kev.udata with
  | .add oneshot, some ev =>
      if opened kev.ident then some (Function.update f kev.key (some (ev, oneshot))) else none
  | .delete, _ =>
      if (f kev.key).isSome then some (Function.update f kev.key none) else none
  | _, _ => none

/-- `kevent` without room for results: the filters, and whether all changes were performed. -/
def flush (opened : ℕ → Bool) : KqFilters ε → List (Kevent ε) → KqFilters ε × Bool
  | f, [] => (f, true)
  | f, kev :: kevs =>
      match applyChange opened f kev with
      | some f' => flush opened f' kevs
      | none => (f, false)

/-- `kevent` with room for results: changes that fail are left out. -/
def settle (opened : ℕ → Bool) (f : KqFilters ε) (kevs : List (Kevent ε)) : KqFilters ε :=
  kevs.foldl (fun f kev => (applyChange opened f kev).getD f) f

variable {opened : ℕ → Bool} {f : KqFilters ε} {kev : Kevent ε} {kevs : List (Kevent ε)}

theorem settle_cons :
    settle opened f (kev :: kevs) = settle opened ((applyChange opened f kev).getD f) kevs :=
  rfl

theorem settle_concat : settle opened f (kevs ++ [kev]) =
    (applyChange opened (settle opened f kevs) kev).getD (settle opened f kevs) := by
  simp [settle]

/-- If no change fails, both ways are the same. -/
theorem flush_eq_settle (h : (flush opened f kevs).2 = true) :
    (flush opened f kevs).1 = settle opened f kevs := by
  induction kevs generalizing f with
  | nil => rfl
  | cons kev kevs ih =>
      rw [settle_cons]
      unfold flush at h ⊢
      split at h
      next f' hf =>
        rw [hf]
        exact ih h
      next => cases h

/-- A change of another filter does not matter. -/
theorem applyChange_of_ne {key : ℕ × KqFilter} (h : key ≠ kev.key) :
    ((applyChange opened f kev).getD f) key = f key := by
  unfold applyChange
  split
  · split
    · exact Function.update_of_ne h _ _
    · rfl
  · split
    · exact Function.update_of_ne h _ _
    · rfl
  · rfl

theorem applyChange_kernel {kev : Kevent ε} (h : ∀ key, f key ≠ none → opened key.1 = true) :
    ∀ key, (applyChange opened f kev).getD f key ≠ none → opened key.1 = true := by
  intro key hkey
  by_cases heq : key = kev.key
  · subst heq
    unfold applyChange at hkey
    split at hkey
    · split at hkey
      next hopened => exact hopened
      next => exact h _ hkey
    · split at hkey
      next => simp at hkey
      next => exact h _ hkey
    · exact h _ hkey
  · rw [applyChange_of_ne heq] at hkey
    exact h key hkey

/-- Only open descriptors have filters. -/
theorem settle_kernel (h : ∀ key, f key ≠ none → opened key.1 = true) :
    ∀ key, settle opened f kevs key ≠ none → opened key.1 = true := by
  induction kevs generalizing f with
  | nil => exact h
  | cons kev kevs ih =>
      rw [settle_cons]
      exact ih (applyChange_kernel h)

/-- Changes of a descriptor that has been closed do not matter. -/
theorem settle_close (fd : ℕ) :
    settle (Function.update opened fd false) (fun key => if key.1 = fd then none else f key) kevs =
      fun key => if key.1 = fd then none else settle opened f kevs key := by
  induction kevs generalizing f with
  | nil => rfl
  | cons kev kevs ih =>
      rw [settle_cons, settle_cons, ← ih]
      congr 1
      funext key
      by_cases hfd : kev.ident = fd
      · have hkey : key.1 = fd ∨ key ≠ kev.key := by
          by_cases hk : key = kev.key
          · exact .inl (hk ▸ hfd)
          · exact .inr hk
        have hfail : (applyChange (Function.update opened fd false)
            (fun key => if key.1 = fd then none else f key) kev).getD
              (fun key => if key.1 = fd then none else f key) =
            fun key => if key.1 = fd then none else f key := by
          unfold applyChange
          split
          · simp [hfd]
          · simp [Kevent.key, hfd]
          · rfl
        rw [hfail]
        rcases hkey with hk | hk
        · simp [hk]
        · rw [applyChange_of_ne hk]
      · have hopened : Function.update opened fd false kev.ident = opened kev.ident :=
          Function.update_of_ne hfd _ _
        have hfilter : (if kev.key.1 = fd then none else f kev.key) = f kev.key := if_neg hfd
        by_cases hk : key = kev.key
        · subst hk
          rw [if_neg (show kev.key.1 ≠ fd from hfd)]
          unfold applyChange
          rw [hopened]
          split
          · split
            · simp
            · exact hfilter
          · simp only [hfilter]
            split
            · simp
            · exact hfilter
          · exact hfilter
        · rw [applyChange_of_ne hk, applyChange_of_ne hk]

/-- A descriptor that is opened does not matter if no filter waits for its number. -/
theorem settle_open {fd : ℕ} (h : ∀ kev ∈ kevs, kev.ident = fd → kev.flags = .delete) :
    settle (Function.update opened fd true) f kevs = settle opened f kevs := by
  induction kevs generalizing f with
  | nil => rfl
  | cons kev kevs ih =>
      have hsame : applyChange (Function.update opened fd true) f kev =
          applyChange opened f kev := by
        unfold applyChange
        split
        next hflags hudata =>
          have hfd : kev.ident ≠ fd := by
            intro heq
            rw [h kev List.mem_cons_self heq] at hflags
            cases hflags
          rw [Function.update_of_ne hfd]
        next => rfl
        next => rfl
      rw [settle_cons, settle_cons, hsame]
      exact ih fun kev' hk => h kev' (List.mem_cons_of_mem kev hk)

end changes

/-- An event queue with the kernel's side of it. -/
structure Kqueue (ε : Type*) where
  kevList : ℕ → Kevent ε
  nchanges : ℕ
  /-- The filters in the kernel. -/
  filters : KqFilters ε
  /-- The open descriptors. -/
  opened : ℕ → Bool
  /-- The descriptors that the program still has to close. -/
  closing : ℕ → Bool
  fd : ε → ℕ
  /-- `EVENT_READ` or `EVENT_WRITE`. -/
  filter : ε → KqFilter
  /-- Whether an event has `EVENT_ONESHOT`. -/
  oneshot : ε → Bool
  /-- The field `evq` of an event is not null. -/
  registered : ε → Bool
  /-- The flag `EVENT_ACTIVE`. -/
  active : ε → Bool

namespace Kqueue

variable {ε : Type*} [DecidableEq ε]

/-- `NEVENT`. -/
def nevent : ℕ := 64

/-- The changes in `kev_list`. -/
def changes (s : Kqueue ε) : List (Kevent ε) := (List.range s.nchanges).map s.kevList

/-- The filters after the changes. -/
def settled (s : Kqueue ε) : KqFilters ε := settle s.opened s.filters s.changes

/-- `kqueue_set`: the queue, and whether it succeeds. -/
def kqueueSet (s : Kqueue ε) (ev : ε) (filter : KqFilter) (flags : KevFlags) : Kqueue ε × Bool :=
  let kev : Kevent ε := ⟨s.fd ev, filter, flags, some ev⟩
  if nevent ≤ s.nchanges then
    let r := flush s.opened s.filters s.changes
    if r.2 then
      ({ s with filters := r.1, kevList := Function.update s.kevList 0 kev, nchanges := 1 }, true)
    else ({ s with filters := r.1 }, false)
  else
    ({ s with
      kevList := Function.update s.kevList s.nchanges kev
      nchanges := s.nchanges + 1 }, true)

/-- `evq_add`, for an event on a descriptor. -/
def evqAdd (s : Kqueue ε) (ev : ε) (fd : ℕ) (filter : KqFilter) (oneshot : Bool) : Kqueue ε :=
  let s' := { s with
    fd := Function.update s.fd ev fd
    filter := Function.update s.filter ev filter
    oneshot := Function.update s.oneshot ev oneshot }
  let r := s'.kqueueSet ev filter (.add oneshot)
  if r.2 then { r.1 with registered := Function.update s.registered ev true } else r.1

/-- `evq_del`, for an event on a descriptor. -/
def evqDel (s : Kqueue ε) (ev : ε) (reuseFd : Bool) : Kqueue ε :=
  let s' := { s with registered := Function.update s.registered ev false }
  if reuseFd then (s'.kqueueSet ev (s.filter ev) .delete).1
  else { s' with closing := Function.update s.closing (s.fd ev) true }

/-- `evq_modify` and the end of `levq_mod_socket`. -/
def evqModify (s : Kqueue ε) (ev : ε) (filter : KqFilter) : Kqueue ε :=
  let r := s.kqueueSet ev (s.filter ev) .delete
  if r.2 then
    let r' := r.1.kqueueSet ev filter (.add (s.oneshot ev))
    if r'.2 then { r'.1 with filter := Function.update s.filter ev filter } else r'.1
  else r.1

/-- The body of the loop of `evq_wait`. -/
def waitBody (s : Kqueue ε) (kev : Kevent ε) : Kqueue ε :=
  match kev.flags, kev.udata with
  | .occurred _, some ev =>
      if s.active ev then s
      else
        let s' := { s with active := Function.update s.active ev true }
        if s.oneshot ev then s'.evqDel ev true else s'
  | _, _ => s

/-- The loop of `evq_wait`, with `n` results to go from the place `i` on. -/
def waitLoop : ℕ → ℕ → Kqueue ε → Kqueue ε
  | 0, _, s => s
  | n + 1, i, s => waitLoop n (i + 1) (s.waitBody (s.kevList i))

/-- The kernel removes a oneshot filter that occurs. -/
def deliver (f : KqFilters ε) (kev : Kevent ε) : KqFilters ε :=
  match kev.flags, f kev.key with
  | .occurred _, some (_, true) => Function.update f kev.key none
  | _, _ => f

/-- `kevent` in `evq_wait`: the changes are performed, and the results replace them. -/
def kevent (s : Kqueue ε) (results : List (Kevent ε)) : Kqueue ε :=
  { s with
    filters := results.foldl deliver s.settled
    kevList := fun i => results.getD i (s.kevList i)
    nchanges := 0 }

/-- `evq_wait`. -/
def evqWait (s : Kqueue ε) (results : List (Kevent ε)) : Kqueue ε :=
  waitLoop results.length 0 (s.kevent results)

/-- The results that `kevent` can give: failed changes, filters that are there, and the pipe
that wakes the queue, which has no event.  A filter is reported once. -/
def Reports (s : Kqueue ε) (results : List (Kevent ε)) : Prop :=
  results.length ≤ nevent ∧
    (∀ kev ∈ results, kev.hasOccurred = true → (s.settled kev.key).map Prod.fst = kev.udata) ∧
    results.Pairwise fun kev kev' =>
      kev.hasOccurred = true → kev'.hasOccurred = true → kev.key ≠ kev'.key

instance (s : Kqueue ε) (results : List (Kevent ε)) : Decidable (s.Reports results) :=
  inferInstanceAs (Decidable (_ ∧ _))

/-- `close`, which removes the filters of the descriptor. -/
def closeFd (s : Kqueue ε) (fd : ℕ) : Kqueue ε :=
  { s with
    filters := fun key => if key.1 = fd then none else s.filters key
    opened := Function.update s.opened fd false
    closing := Function.update s.closing fd false }

end Kqueue

/-- The steps. -/
inductive KqueueStep (ε : Type*)
  | add (ev : ε) (fd : ℕ) (filter : KqFilter) (oneshot : Bool)
  | del (ev : ε) (reuseFd : Bool)
  | modify (ev : ε) (filter : KqFilter)
  | wait (results : List (Kevent ε))
  /-- The loop over the ready events takes one. -/
  | dispatch (ev : ε)
  | openFd (fd : ℕ)
  | close (fd : ℕ)

namespace Kqueue

variable {ε : Type*} [DecidableEq ε]

/-- A queue without events. -/
def init (kevList : ℕ → Kevent ε) (opened : ℕ → Bool) : Kqueue ε where
  kevList := kevList
  nchanges := 0
  filters _ := none
  opened := opened
  closing _ := false
  fd _ := 0
  filter _ := .read
  oneshot _ := false
  registered _ := false
  active _ := false

/-- One step.  An event is added when it is free, and `levq_mod_socket` is for another filter. -/
def step (s : Kqueue ε) : KqueueStep ε → Option (Kqueue ε)
  | .add ev fd filter oneshot =>
      if s.registered ev then none else some (s.evqAdd ev fd filter oneshot)
  | .del ev reuseFd => if s.registered ev then some (s.evqDel ev reuseFd) else none
  | .modify ev filter =>
      if s.registered ev ∧ filter ≠ s.filter ev then some (s.evqModify ev filter) else none
  | .wait results => if s.Reports results then some (s.evqWait results) else none
  | .dispatch ev => some { s with active := Function.update s.active ev false }
  | .openFd fd =>
      if s.opened fd then none else some { s with opened := Function.update s.opened fd true }
  | .close fd => if s.opened fd then some (s.closeFd fd) else none

/-! ## The array of changes and results -/

section
variable {s : Kqueue ε} {kev : Kevent ε} {ev : ε}

/-- A result adds one change at most, at the end of the changes. -/
theorem waitBody_kevList (kev : Kevent ε) (h : s.nchanges < nevent) :
    (s.waitBody kev).nchanges ≤ s.nchanges + 1 ∧
      ∀ j, s.nchanges < j → (s.waitBody kev).kevList j = s.kevList j := by
  unfold waitBody
  split
  · split
    · exact ⟨Nat.le_succ _, fun _ _ => rfl⟩
    · dsimp only
      split
      · unfold evqDel kqueueSet
        simp only [if_true, if_neg (Nat.not_le_of_lt h)]
        exact ⟨Nat.le_refl _, fun j hj => Function.update_of_ne (Nat.ne_of_gt hj) _ _⟩
      · exact ⟨Nat.le_succ _, fun _ _ => rfl⟩
  · exact ⟨Nat.le_succ _, fun _ _ => rfl⟩

theorem waitLoop_eq {rest : List (Kevent ε)} {i : ℕ} (hchanges : s.nchanges ≤ i)
    (hlen : i + rest.length ≤ nevent)
    (hrest : ∀ j (hj : j < rest.length), s.kevList (i + j) = rest[j]) :
    waitLoop rest.length i s = rest.foldl waitBody s := by
  induction rest generalizing i s with
  | nil => rfl
  | cons kev rest ih =>
      rw [List.length_cons] at hlen
      have hfirst : s.kevList i = kev := hrest 0 (by simp)
      obtain ⟨hn, hlist⟩ := waitBody_kevList kev (show s.nchanges < nevent by omega)
      rw [List.length_cons, waitLoop, hfirst, List.foldl_cons]
      refine ih (by omega) (by omega) fun j hj => ?_
      rw [hlist _ (by omega)]
      have hnext := hrest (j + 1) (by simpa using hj)
      rw [show i + 1 + j = i + (j + 1) by omega]
      simpa using hnext

/-- **The results are not overwritten.**  The loop of `evq_wait` reads the array that it puts
its changes into, and does what it would do with a list of the results. -/
theorem evqWait_eq_foldl (s : Kqueue ε) (results : List (Kevent ε))
    (hlen : results.length ≤ nevent) :
    s.evqWait results = results.foldl waitBody (s.kevent results) := by
  refine waitLoop_eq (Nat.le_refl 0) (by simpa using hlen) fun j hj => ?_
  simp [kevent, hj]

end

/-- A queue without events, when the descriptor 5 is open. -/
def empty : Kqueue ℕ := init (fun _ => ⟨0, .read, .error, none⟩) fun fd => fd == 5

/-- A oneshot event on the descriptor has occurred. -/
def occurred : Kqueue ℕ :=
  (empty.evqAdd 0 5 .read true).evqWait [⟨5, .read, .occurred false, some 0⟩]

end Kqueue

namespace Kqueue

/-! ## The filters and the events -/

variable {ε : Type*}

/-- The filters, once the changes are performed, are those of the registered events.  A
descriptor that the program is going to close may still have one of an event that is gone. -/
structure Follows (s : Kqueue ε) : Prop where
  nchanges_le : s.nchanges ≤ nevent
  kernel : ∀ key, s.filters key ≠ none → s.opened key.1 = true
  sound : ∀ key ev oneshot, s.settled key = some (ev, oneshot) →
    s.closing key.1 = true ∨
      s.registered ev = true ∧ key = (s.fd ev, s.filter ev) ∧ oneshot = s.oneshot ev
  complete : ∀ ev, s.registered ev = true → s.opened (s.fd ev) = true ∧
    s.settled (s.fd ev, s.filter ev) = some (ev, s.oneshot ev)

/-- There is room for a change, or no change of the full list fails. -/
def Room (s : Kqueue ε) : Prop :=
  s.nchanges < nevent ∨ (flush s.opened s.filters s.changes).2 = true

/-- The condition on the state before a step. -/
def Safe (s : Kqueue ε) : KqueueStep ε → Prop
  | .add _ fd filter _ => s.opened fd = true ∧ s.settled (fd, filter) = none ∧ s.Room
  | .del _ reuseFd => reuseFd = true → s.Room
  | .modify ev filter => s.settled (s.fd ev, filter) = none ∧ s.Room ∧
      (s.kqueueSet ev (s.filter ev) .delete).1.Room
  | .wait _ => (∀ fd, s.closing fd = false) ∧ ∀ ev, s.registered ev = true → s.active ev = false
  | .dispatch _ => True
  | .openFd fd => ∀ kev ∈ s.changes, kev.ident = fd → kev.flags = .delete
  | .close fd => ∀ ev, s.registered ev = true → s.fd ev ≠ fd

theorem follows_init (kevList : ℕ → Kevent ε) (opened : ℕ → Bool) :
    (init kevList opened).Follows where
  nchanges_le := Nat.zero_le _
  kernel _ h := absurd rfl h
  sound _ _ _ h := nomatch h
  complete _ h := nomatch h

section
variable {s : Kqueue ε} {ev : ε} {filter : KqFilter}

/-- A change is put on the list, and performed in the settled filters. -/
structure Queued (s s' : Kqueue ε) (kev : Kevent ε) : Prop where
  same : s' = { s with kevList := s'.kevList, nchanges := s'.nchanges, filters := s'.filters }
  nchanges_le : s'.nchanges ≤ nevent
  kernel : (∀ key, s.filters key ≠ none → s.opened key.1 = true) →
    ∀ key, s'.filters key ≠ none → s.opened key.1 = true
  settled : s'.settled = (applyChange s.opened s.settled kev).getD s.settled

theorem kqueueSet_queued (s : Kqueue ε) (ev : ε) (filter : KqFilter) (flags : KevFlags)
    (hroom : s.Room) :
    (s.kqueueSet ev filter flags).2 = true ∧
      s.Queued (s.kqueueSet ev filter flags).1 ⟨s.fd ev, filter, flags, some ev⟩ := by
  unfold kqueueSet
  dsimp only
  by_cases hfull : nevent ≤ s.nchanges
  · have hflush : (flush s.opened s.filters s.changes).2 = true :=
      hroom.resolve_left (Nat.not_lt_of_le hfull)
    rw [if_pos hfull, if_pos hflush]
    have hsettled := flush_eq_settle hflush
    refine ⟨rfl, rfl, Nat.succ_le_of_lt (Nat.zero_lt_succ 63), fun hk key hkey => ?_, ?_⟩
    · change (flush s.opened s.filters s.changes).1 key ≠ none at hkey
      rw [hsettled] at hkey
      exact settle_kernel hk key hkey
    · show settle s.opened (flush s.opened s.filters s.changes).1
        ((List.range 1).map (Function.update s.kevList 0 _)) = _
      rw [hsettled]
      rfl
  · rw [if_neg hfull]
    refine ⟨rfl, rfl, Nat.succ_le_of_lt (Nat.lt_of_not_le hfull), fun hk => hk, ?_⟩
    have hchanges : (List.range (s.nchanges + 1)).map (Function.update s.kevList s.nchanges
        (⟨s.fd ev, filter, flags, some ev⟩ : Kevent ε)) =
          s.changes ++ [⟨s.fd ev, filter, flags, some ev⟩] := by
      rw [List.range_succ, List.map_append, List.map_singleton, Function.update_self, changes]
      congr 1
      refine List.map_congr_left fun j hj => ?_
      exact Function.update_of_ne (Nat.ne_of_lt (List.mem_range.mp hj)) _ _
    show settle s.opened s.filters ((List.range (s.nchanges + 1)).map _) = _
    rw [hchanges, settle_concat]
    rfl

theorem Queued.fields {s' : Kqueue ε} {kev : Kevent ε} (h : s.Queued s' kev) :
    s'.opened = s.opened ∧ s'.closing = s.closing ∧ s'.fd = s.fd ∧ s'.filter = s.filter ∧
      s'.oneshot = s.oneshot ∧ s'.registered = s.registered ∧ s'.active = s.active := by
  rw [h.same]
  exact ⟨rfl, rfl, rfl, rfl, rfl, rfl, rfl⟩

/-- A filter is added. -/
theorem Queued.settled_add {s' : Kqueue ε} {kev : Kevent ε} {oneshot : Bool} (h : s.Queued s' kev)
    (hflags : kev.flags = .add oneshot) (hudata : kev.udata = some ev)
    (hopened : s.opened kev.ident = true) :
    s'.settled = Function.update s.settled kev.key (some (ev, oneshot)) := by
  rw [h.settled, applyChange, hflags, hudata]
  simp [hopened]

/-- A filter is deleted, if it is there. -/
theorem Queued.settled_delete {s' : Kqueue ε} {kev : Kevent ε} (h : s.Queued s' kev)
    (hflags : kev.flags = .delete) : s'.settled = Function.update s.settled kev.key none := by
  rw [h.settled, applyChange, hflags]
  dsimp only
  split
  next => rfl
  next hnone =>
    have hkey : s.settled kev.key = none := by simpa using hnone
    funext key
    by_cases hk : key = kev.key
    · subst hk
      simp [hkey]
    · simp [hk]

/-- Two events have different filters. -/
theorem Follows.key_ne (h : s.Follows) {ev' : ε} (hev : s.registered ev = true)
    (hev' : s.registered ev' = true) (hne : ev' ≠ ev) :
    (s.fd ev', s.filter ev') ≠ (s.fd ev, s.filter ev) := by
  intro heq
  have hset := (h.complete ev' hev').2
  rw [heq, (h.complete ev hev).2] at hset
  exact hne (Prod.mk.inj (Option.some.inj hset)).1.symm

/-- `close`, of a descriptor without registered events. -/
theorem Follows.closeFd (h : s.Follows) {fd : ℕ}
    (hfree : ∀ ev, s.registered ev = true → s.fd ev ≠ fd) : (s.closeFd fd).Follows := by
  have hset : (s.closeFd fd).settled = fun key => if key.1 = fd then none else s.settled key :=
    settle_close fd
  refine ⟨h.nchanges_le, fun key hkey => ?_, fun key x one hkey => ?_, fun x hx => ?_⟩
  · change (if key.1 = fd then none else s.filters key) ≠ none at hkey
    show Function.update s.opened fd false key.1 = true
    by_cases hk : key.1 = fd
    · simp [hk] at hkey
    · rw [if_neg hk] at hkey
      rw [Function.update_of_ne hk]
      exact h.kernel key hkey
  · rw [hset] at hkey
    obtain ⟨hk, hkey⟩ := Option.ite_none_left_eq_some.mp hkey
    refine (h.sound key x one hkey).imp_left fun hcl => ?_
    exact (Function.update_of_ne hk _ _).trans hcl
  · obtain ⟨hopx, hsetx⟩ := h.complete x hx
    rw [hset]
    exact ⟨(Function.update_of_ne (hfree x hx) _ _).trans hopx,
      (if_neg (hfree x hx)).trans hsetx⟩

/-- A descriptor is opened for whose number no filter waits. -/
theorem Follows.openFd (h : s.Follows) {fd : ℕ} (hfd : s.opened fd = false)
    (hwait : ∀ kev ∈ s.changes, kev.ident = fd → kev.flags = .delete) :
    Follows { s with opened := Function.update s.opened fd true } := by
  have hset : ({ s with opened := Function.update s.opened fd true } : Kqueue ε).settled =
      s.settled := settle_open hwait
  have hmono : ∀ fd', s.opened fd' = true → Function.update s.opened fd true fd' = true := by
    intro fd' hopen
    have hne : fd' ≠ fd := by
      rintro rfl
      exact Bool.false_ne_true (hfd.symm.trans hopen)
    exact (Function.update_of_ne hne _ _).trans hopen
  refine ⟨h.nchanges_le, fun key hkey => hmono _ (h.kernel key hkey), fun key x one hkey => ?_,
    fun x hx => ?_⟩
  · rw [hset] at hkey
    exact h.sound key x one hkey
  · obtain ⟨hopx, hsetx⟩ := h.complete x hx
    rw [hset]
    exact ⟨hmono _ hopx, hsetx⟩

/-! ## The wait -/

theorem deliver_eq {f : KqFilters ε} {kev : Kevent ε} : deliver f kev = f ∨
    deliver f kev = Function.update f kev.key none ∧ kev.hasOccurred = true ∧
      ∃ ev, f kev.key = some (ev, true) := by
  unfold deliver
  split
  next ev hflags hf => exact .inr ⟨rfl, by rw [Kevent.hasOccurred, hflags], ev, hf⟩
  next => exact .inl rfl

/-- Delivery removes filters, and only those that have occurred. -/
theorem foldl_deliver (results : List (Kevent ε)) (f : KqFilters ε) (key : ℕ × KqFilter) :
    results.foldl deliver f key = f key ∨
      results.foldl deliver f key = none ∧ ∃ ev, f key = some (ev, true) ∧
        ∃ kev ∈ results, kev.hasOccurred = true ∧ kev.key = key := by
  induction results generalizing f with
  | nil => exact .inl rfl
  | cons kev results ih =>
      rw [List.foldl_cons]
      have hstep : deliver f kev key = f key ∨ deliver f kev key = none ∧ kev.key = key ∧
          kev.hasOccurred = true ∧ ∃ ev, f key = some (ev, true) := by
        rcases @deliver_eq _ f kev with heq | ⟨heq, hocc, hev⟩
        · exact .inl (congrFun heq key)
        · rw [heq]
          by_cases hk : key = kev.key
          · subst hk
            exact .inr ⟨Function.update_self _ _ _, rfl, hocc, hev⟩
          · exact .inl (Function.update_of_ne hk _ _)
      rcases ih (deliver f kev) with hsame | ⟨hnone, ev, hev, kev', hmem, hocc⟩
      · rw [hsame]
        refine hstep.imp_right fun ⟨hnone, hk, hocc, hev⟩ => ⟨hnone, ?_⟩
        obtain ⟨ev, hev⟩ := hev
        exact ⟨ev, hev, kev, List.mem_cons_self, hocc, hk⟩
      · rcases hstep with hsame | ⟨hnone', -⟩
        · exact .inr ⟨hnone, ev, hsame ▸ hev, kev', List.mem_cons_of_mem kev hmem, hocc⟩
        · rw [hnone'] at hev
          cases hev

/-- The loop of `evq_wait` has the results `todo` to go.  The oneshot events among them have no
filters any more. -/
structure Pending (s : Kqueue ε) (todo : List (Kevent ε)) : Prop where
  nchanges_le : s.nchanges + todo.length ≤ nevent
  kernel : ∀ key, s.filters key ≠ none → s.opened key.1 = true
  sound : ∀ key ev oneshot, s.settled key = some (ev, oneshot) →
    s.registered ev = true ∧ key = (s.fd ev, s.filter ev) ∧ oneshot = s.oneshot ev
  complete : ∀ ev, s.registered ev = true → s.opened (s.fd ev) = true ∧
    (s.settled (s.fd ev, s.filter ev) = some (ev, s.oneshot ev) ∨
      s.settled (s.fd ev, s.filter ev) = none ∧ s.oneshot ev = true ∧
        ∃ kev ∈ todo, kev.hasOccurred = true ∧ kev.key = (s.fd ev, s.filter ev))
  events : ∀ kev ∈ todo, kev.hasOccurred = true → ∀ ev, kev.udata = some ev →
    s.registered ev = true ∧ kev.key = (s.fd ev, s.filter ev) ∧ s.active ev = false
  others : ∀ kev ∈ todo, kev.hasOccurred = true → kev.udata = none →
    ∀ ev, s.registered ev = true → kev.key ≠ (s.fd ev, s.filter ev)
  distinct : todo.Pairwise fun kev kev' =>
    kev.hasOccurred = true → kev'.hasOccurred = true → kev.key ≠ kev'.key
  key_ne : ∀ ev ev', s.registered ev = true → s.registered ev' = true → ev' ≠ ev →
    (s.fd ev', s.filter ev') ≠ (s.fd ev, s.filter ev)

/-- The begin of the loop. -/
theorem Follows.pending (h : s.Follows) {results : List (Kevent ε)} (hreports : s.Reports results)
    (hclosing : ∀ fd, s.closing fd = false)
    (hactive : ∀ ev, s.registered ev = true → s.active ev = false) :
    (s.kevent results).Pending results := by
  obtain ⟨hlen, hresults, hdistinct⟩ := hreports
  have hset : (s.kevent results).settled = results.foldl deliver s.settled := rfl
  have hsound : ∀ key ev one, s.settled key = some (ev, one) →
      s.registered ev = true ∧ key = (s.fd ev, s.filter ev) ∧ one = s.oneshot ev := by
    intro key ev one hkey
    refine (h.sound key ev one hkey).resolve_left fun hcl => ?_
    exact Bool.false_ne_true ((hclosing _).symm.trans hcl)
  refine ⟨by simpa [kevent] using hlen, fun key hkey => ?_, fun key ev one hkey => ?_,
    fun ev hev => ?_, fun kev hkev hocc ev hudata => ?_, fun kev hkev hocc hudata ev hev heq => ?_,
    hdistinct, fun _ _ => h.key_ne⟩
  · have hkernel : ∀ key, s.settled key ≠ none → s.opened key.1 = true := settle_kernel h.kernel
    refine hkernel key fun hnone => hkey ?_
    rcases foldl_deliver results s.settled key with hsame | ⟨hgone, -⟩
    · exact hsame.trans hnone
    · exact hgone
  · rw [hset] at hkey
    rcases foldl_deliver results s.settled key with hsame | ⟨hgone, -⟩
    · exact hsound key ev one (hsame ▸ hkey)
    · rw [hgone] at hkey
      cases hkey
  · obtain ⟨hopened, hkey⟩ := h.complete ev hev
    refine ⟨hopened, ?_⟩
    rw [hset]
    rcases foldl_deliver results s.settled (s.fd ev, s.filter ev) with
      hsame | ⟨hgone, ev', hev', kev, hkev, hocc, hk⟩
    · exact .inl (hsame.trans hkey)
    · rw [hkey] at hev'
      obtain ⟨-, hone⟩ := Prod.mk.inj (Option.some.inj hev')
      exact .inr ⟨hgone, hone, kev, hkev, hocc, hk⟩
  · have hfilter := hresults kev hkev hocc
    rw [hudata, Option.map_eq_some_iff] at hfilter
    obtain ⟨⟨x, one⟩, hkey, rfl⟩ := hfilter
    obtain ⟨hreg, hk, -⟩ := hsound _ _ _ hkey
    exact ⟨hreg, hk, hactive _ hreg⟩
  · have hfilter := hresults kev hkev hocc
    change kev.key = (s.fd ev, s.filter ev) at heq
    rw [heq, (h.complete ev hev).2, hudata] at hfilter
    cases hfilter

/-- The loop has come to a result that is of no event. -/
theorem Pending.skip {kev : Kevent ε} {todo : List (Kevent ε)} (h : s.Pending (kev :: todo))
    (hkev : kev.hasOccurred = true → kev.udata = none) : s.Pending todo where
  nchanges_le := by
    have hle := h.nchanges_le
    rw [List.length_cons] at hle
    omega
  kernel := h.kernel
  sound := h.sound
  complete ev hev := by
    obtain ⟨hopened, hset⟩ := h.complete ev hev
    refine ⟨hopened, hset.imp_right fun ⟨hnone, hone, kev', hmem, hocc, hk⟩ =>
      ⟨hnone, hone, kev', ?_, hocc, hk⟩⟩
    rcases List.mem_cons.mp hmem with rfl | hmem
    · exact absurd hk (h.others _ List.mem_cons_self hocc (hkev hocc) ev hev)
    · exact hmem
  events kev' hmem := h.events kev' (List.mem_cons_of_mem kev hmem)
  others kev' hmem := h.others kev' (List.mem_cons_of_mem kev hmem)
  distinct := (List.pairwise_cons.mp h.distinct).2
  key_ne := h.key_ne

variable [DecidableEq ε]

/-- The loop has come to an event. -/
theorem Pending.event {kev : Kevent ε} {todo : List (Kevent ε)} (h : s.Pending (kev :: todo))
    (hocc : kev.hasOccurred = true) (hudata : kev.udata = some ev) :
    (s.waitBody kev).Pending todo := by
  obtain ⟨hreg, hk, hactive⟩ := h.events kev List.mem_cons_self hocc ev hudata
  have hle := h.nchanges_le
  rw [List.length_cons] at hle
  obtain ⟨hfirst, hdistinct⟩ := List.pairwise_cons.mp h.distinct
  -- The results behind this one are about other events.
  have hother : ∀ kev' ∈ todo, kev'.hasOccurred = true → ∀ x, kev'.udata = some x → x ≠ ev := by
    rintro kev' hmem hocc' x hx rfl
    exact hfirst kev' hmem hocc hocc'
      (hk.trans (h.events kev' (List.mem_cons_of_mem kev hmem) hocc' x hx).2.1.symm)
  have hrest : ∀ {x}, s.registered x = true → x ≠ ev → s.opened (s.fd x) = true ∧
      (s.settled (s.fd x, s.filter x) = some (x, s.oneshot x) ∨
        s.settled (s.fd x, s.filter x) = none ∧ s.oneshot x = true ∧
          ∃ kev ∈ todo, kev.hasOccurred = true ∧ kev.key = (s.fd x, s.filter x)) := by
    intro x hx hne
    obtain ⟨hopened, hset⟩ := h.complete x hx
    refine ⟨hopened, hset.imp_right fun ⟨hnone, hone, kev', hmem, hocc', hk'⟩ =>
      ⟨hnone, hone, kev', ?_, hocc', hk'⟩⟩
    rcases List.mem_cons.mp hmem with rfl | hmem
    · exact absurd (hk'.symm.trans hk) (h.key_ne ev x hreg hx hne)
    · exact hmem
  obtain ⟨hn, -⟩ := waitBody_kevList kev (show s.nchanges < nevent by omega)
  have hbody : s.waitBody kev = if s.oneshot ev
      then ({ s with active := Function.update s.active ev true } : Kqueue ε).evqDel ev true
      else { s with active := Function.update s.active ev true } := by
    unfold Kevent.hasOccurred at hocc
    split at hocc
    next hflags =>
      simp only [waitBody, hflags, hudata, hactive, Bool.false_eq_true, if_false]
    next => cases hocc
  have hnle : (s.waitBody kev).nchanges + todo.length ≤ nevent := by omega
  rw [hbody] at hnle ⊢
  by_cases hone : s.oneshot ev = true
  · rw [if_pos hone] at hnle ⊢
    unfold Kqueue.evqDel at hnle ⊢
    rw [if_pos rfl] at hnle ⊢
    dsimp only at hnle ⊢
    set s' : Kqueue ε := { s with
      active := Function.update s.active ev true
      registered := Function.update s.registered ev false } with hs'
    have hroom : s'.Room := .inl (show s.nchanges < nevent by omega)
    obtain ⟨-, hq⟩ := kqueueSet_queued s' ev (s.filter ev) .delete hroom
    generalize s'.kqueueSet ev (s.filter ev) .delete = r at hq hnle ⊢
    obtain ⟨hop, -, hfd, hfi, honer, hregr, hact⟩ := hq.fields
    have hset : r.1.settled = Function.update s.settled (s.fd ev, s.filter ev) none :=
      hq.settled_delete rfl
    have hne : ∀ {x}, r.1.registered x = true → x ≠ ev ∧ s.registered x = true := by
      intro x hx
      rw [hregr] at hx
      have hxe : x ≠ ev := by
        rintro rfl
        simp [hs'] at hx
      exact ⟨hxe, (Function.update_of_ne hxe _ _).symm.trans hx⟩
    have hreg' : ∀ {x}, s.registered x = true → x ≠ ev → r.1.registered x = true := by
      intro x hx hxe
      rw [hregr]
      exact (Function.update_of_ne hxe _ _).trans hx
    refine ⟨hnle, fun key hkey => hop ▸ hq.kernel h.kernel key hkey, fun key x one hkey => ?_,
      fun x hx => ?_, fun kev' hmem hocc' x hx => ?_, fun kev' hmem hocc' hnone x hx => ?_,
      hdistinct, fun x y hx hy hxy => ?_⟩
    · rw [hset] at hkey
      have hkne : key ≠ (s.fd ev, s.filter ev) := by
        rintro rfl
        simp at hkey
      rw [Function.update_of_ne hkne] at hkey
      obtain ⟨hregx, hkx, honex⟩ := h.sound key x one hkey
      rw [hfd, hfi, honer]
      exact ⟨hreg' hregx fun hxe => hkne (hxe ▸ hkx), hkx, honex⟩
    · obtain ⟨hxe, hregx⟩ := hne hx
      rw [hop, hfd, hfi, hset, honer,
        Function.update_of_ne (show (s'.fd x, s'.filter x) ≠ (s.fd ev, s.filter ev) from
          h.key_ne ev x hreg hregx hxe)]
      exact hrest hregx hxe
    · obtain ⟨hregx, hkx, hactx⟩ := h.events kev' (List.mem_cons_of_mem kev hmem) hocc' x hx
      have hxe := hother kev' hmem hocc' x hx
      rw [hfd, hfi, hact]
      exact ⟨hreg' hregx hxe, hkx, (Function.update_of_ne hxe _ _).trans hactx⟩
    · rw [hfd, hfi]
      exact h.others kev' (List.mem_cons_of_mem kev hmem) hocc' hnone x (hne hx).2
    · rw [hfd, hfi]
      exact h.key_ne x y (hne hx).2 (hne hy).2 hxy
  · rw [if_neg hone] at hnle ⊢
    refine ⟨hnle, h.kernel, h.sound, fun x hx => ?_, fun kev' hmem hocc' x hx => ?_,
      fun kev' hmem => h.others kev' (List.mem_cons_of_mem kev hmem), hdistinct, h.key_ne⟩
    · by_cases hxe : x = ev
      · subst hxe
        obtain ⟨hopened, hset⟩ := h.complete x hx
        exact ⟨hopened, .inl (hset.resolve_right fun ⟨_, hone', _⟩ => hone hone')⟩
      · exact hrest hx hxe
    · obtain ⟨hregx, hkx, hactx⟩ := h.events kev' (List.mem_cons_of_mem kev hmem) hocc' x hx
      have hxe := hother kev' hmem hocc' x hx
      exact ⟨hregx, hkx, (Function.update_of_ne hxe _ _).trans hactx⟩

/-- The loop keeps the invariant. -/
theorem Pending.foldl {todo : List (Kevent ε)} (h : s.Pending todo) :
    (todo.foldl waitBody s).Pending [] := by
  induction todo generalizing s with
  | nil => exact h
  | cons kev todo ih =>
      rw [List.foldl_cons]
      cases hocc : kev.hasOccurred with
      | false =>
          have hbody : s.waitBody kev = s := by
            unfold Kevent.hasOccurred at hocc
            unfold waitBody
            split at hocc
            · cases hocc
            next hne =>
              split
              next hflags _ => exact absurd hflags (hne _)
              next => rfl
          rw [hbody]
          exact ih (h.skip fun htrue => absurd (hocc.symm.trans htrue) Bool.false_ne_true)
      | true =>
          cases hudata : kev.udata with
          | none =>
              have hbody : s.waitBody kev = s := by
                unfold waitBody
                rw [hudata]
                cases kev.flags <;> rfl
              rw [hbody]
              exact ih (h.skip fun _ => hudata)
          | some ev => exact ih (h.event hocc hudata)

/-- `evq_wait`. -/
theorem Follows.evqWait (h : s.Follows) {results : List (Kevent ε)} (hreports : s.Reports results)
    (hclosing : ∀ fd, s.closing fd = false)
    (hactive : ∀ ev, s.registered ev = true → s.active ev = false) :
    (s.evqWait results).Follows := by
  rw [evqWait_eq_foldl s results hreports.1]
  have hend := (h.pending hreports hclosing hactive).foldl
  refine ⟨by simpa using hend.nchanges_le, hend.kernel,
    fun key ev one hkey => .inr (hend.sound key ev one hkey), fun ev hev => ?_⟩
  obtain ⟨hopened, hset⟩ := hend.complete ev hev
  refine ⟨hopened, hset.resolve_right ?_⟩
  rintro ⟨-, -, kev, hmem, -⟩
  cases hmem

/-! ## The steps -/

/-- `evq_add`. -/
theorem Follows.evqAdd (h : s.Follows) {fd : ℕ} {oneshot : Bool} (hev : s.registered ev = false)
    (hopened : s.opened fd = true) (hnone : s.settled (fd, filter) = none) (hroom : s.Room) :
    (s.evqAdd ev fd filter oneshot).Follows := by
  unfold Kqueue.evqAdd
  dsimp only
  set s' : Kqueue ε := { s with
    fd := Function.update s.fd ev fd
    filter := Function.update s.filter ev filter
    oneshot := Function.update s.oneshot ev oneshot } with hs'
  obtain ⟨hok, hq⟩ := kqueueSet_queued s' ev filter (.add oneshot) hroom
  generalize s'.kqueueSet ev filter (.add oneshot) = r at hok hq ⊢
  rw [if_pos hok]
  obtain ⟨hop, hcl, hfd, hfi, hone, -, -⟩ := hq.fields
  have hset : r.1.settled = Function.update s.settled (fd, filter) (some (ev, oneshot)) := by
    rw [hq.settled_add rfl rfl (by simpa [hs'] using hopened)]
    simp [Kevent.key, hs', settled, changes]
  have hold : ∀ {x}, s.registered x = true → x ≠ ev := by
    rintro x hx rfl
    exact Bool.false_ne_true (hev.symm.trans hx)
  refine ⟨hq.nchanges_le, fun key hkey => hop ▸ hq.kernel h.kernel key hkey,
    fun key x one hkey => ?_, fun x hx => ?_⟩
  · change r.1.settled key = some (x, one) at hkey
    show r.1.closing key.1 = true ∨ Function.update s.registered ev true x = true ∧
      key = (r.1.fd x, r.1.filter x) ∧ one = r.1.oneshot x
    rw [hcl, hfd, hfi, hone]
    rw [hset] at hkey
    by_cases hk : key = (fd, filter)
    · subst hk
      rw [Function.update_self] at hkey
      obtain ⟨rfl, rfl⟩ := Prod.mk.inj (Option.some.inj hkey)
      simp [hs']
    · rw [Function.update_of_ne hk] at hkey
      refine (h.sound key x one hkey).imp_right fun ⟨hreg, heq, hone⟩ => ?_
      simpa [hs', hold hreg] using ⟨hreg, heq, hone⟩
  · change Function.update s.registered ev true x = true at hx
    show r.1.opened (r.1.fd x) = true ∧
      r.1.settled (r.1.fd x, r.1.filter x) = some (x, r.1.oneshot x)
    rw [hset, hop, hfd, hfi, hone]
    by_cases hxe : x = ev
    · subst hxe
      simpa [hs'] using hopened
    · rw [Function.update_of_ne hxe] at hx
      obtain ⟨hopx, hsetx⟩ := h.complete x hx
      have hk : (s.fd x, s.filter x) ≠ (fd, filter) := by
        intro heq
        rw [heq, hnone] at hsetx
        cases hsetx
      simpa [hs', hxe, hk] using ⟨hopx, hsetx⟩

/-- `evq_del`. -/
theorem Follows.evqDel (h : s.Follows) {reuseFd : Bool} (hev : s.registered ev = true)
    (hroom : reuseFd = true → s.Room) : (s.evqDel ev reuseFd).Follows := by
  unfold Kqueue.evqDel
  dsimp only
  have hset := (h.complete ev hev).2
  cases reuseFd with
  | true =>
      rw [if_pos rfl]
      set s' : Kqueue ε := { s with registered := Function.update s.registered ev false } with hs'
      obtain ⟨-, hq⟩ := kqueueSet_queued s' ev (s.filter ev) .delete (hroom rfl)
      generalize s'.kqueueSet ev (s.filter ev) .delete = r at hq ⊢
      obtain ⟨hop, hcl, hfd, hfi, hone, hreg, -⟩ := hq.fields
      have hset' : r.1.settled = Function.update s.settled (s.fd ev, s.filter ev) none :=
        hq.settled_delete rfl
      refine ⟨hq.nchanges_le, fun key hkey => hop ▸ hq.kernel h.kernel key hkey,
        fun key x one hkey => ?_, fun x hx => ?_⟩
      · rw [hset'] at hkey
        rw [hcl, hreg, hfd, hfi, hone]
        have hk : key ≠ (s.fd ev, s.filter ev) := by
          rintro rfl
          simp at hkey
        rw [Function.update_of_ne hk] at hkey
        refine (h.sound key x one hkey).imp_right fun ⟨hregx, heq, honex⟩ => ?_
        have hxe : x ≠ ev := fun hxe => hk (hxe ▸ heq)
        exact ⟨(Function.update_of_ne hxe _ _).trans hregx, heq, honex⟩
      · rw [hreg] at hx
        rw [hop, hfd, hfi, hset', hone]
        have hxe : x ≠ ev := by
          rintro rfl
          simp [hs'] at hx
        have hregx : s.registered x = true := (Function.update_of_ne hxe _ _).symm.trans hx
        rw [show s'.fd x = s.fd x from rfl, show s'.filter x = s.filter x from rfl,
          Function.update_of_ne (h.key_ne hev hregx hxe)]
        exact h.complete x hregx
  | false =>
      rw [if_neg Bool.false_ne_true]
      refine ⟨h.nchanges_le, h.kernel, fun key x one hkey => ?_, fun x hx => ?_⟩
      · change s.settled key = some (x, one) at hkey
        show Function.update s.closing (s.fd ev) true key.1 = true ∨
          Function.update s.registered ev false x = true ∧ _
        by_cases hk : key.1 = s.fd ev
        · exact .inl (by rw [hk, Function.update_self])
        · rw [Function.update_of_ne hk]
          refine (h.sound key x one hkey).imp_right fun ⟨hregx, heq, honex⟩ => ?_
          have hxe : x ≠ ev := by
            rintro rfl
            exact hk (by rw [heq])
          exact ⟨(Function.update_of_ne hxe _ _).trans hregx, heq, honex⟩
      · change Function.update s.registered ev false x = true at hx
        have hxe : x ≠ ev := by
          rintro rfl
          simp at hx
        exact h.complete x ((Function.update_of_ne hxe _ _).symm.trans hx)

/-- `evq_modify`. -/
theorem Follows.evqModify (h : s.Follows) (hev : s.registered ev = true)
    (hne : filter ≠ s.filter ev) (hnone : s.settled (s.fd ev, filter) = none) (hroom : s.Room)
    (hroom' : (s.kqueueSet ev (s.filter ev) .delete).1.Room) :
    (s.evqModify ev filter).Follows := by
  unfold Kqueue.evqModify
  dsimp only
  obtain ⟨hok, hq⟩ := kqueueSet_queued s ev (s.filter ev) .delete hroom
  generalize s.kqueueSet ev (s.filter ev) .delete = r at hok hq hroom' ⊢
  rw [if_pos hok]
  obtain ⟨hop, hcl, hfd, hfi, hone, hreg, -⟩ := hq.fields
  have hdel : r.1.settled = Function.update s.settled (s.fd ev, s.filter ev) none :=
    hq.settled_delete rfl
  obtain ⟨hok', hq'⟩ := kqueueSet_queued r.1 ev filter (.add (s.oneshot ev)) hroom'
  generalize r.1.kqueueSet ev filter (.add (s.oneshot ev)) = r' at hok' hq' ⊢
  rw [if_pos hok']
  obtain ⟨hop', hcl', hfd', hfi', hone', hreg', -⟩ := hq'.fields
  obtain ⟨hopened, hold⟩ := h.complete ev hev
  have hset : r'.1.settled = Function.update (Function.update s.settled (s.fd ev, s.filter ev) none)
      (s.fd ev, filter) (some (ev, s.oneshot ev)) := by
    rw [hq'.settled_add rfl rfl (by rw [hop, hfd]; exact hopened), hdel, hfd]
    rfl
  refine ⟨hq'.nchanges_le, fun key hkey => ?_, fun key x one hkey => ?_, fun x hx => ?_⟩
  · show r'.1.opened key.1 = true
    have hk := hq'.kernel (fun key hkey => hop ▸ hq.kernel h.kernel key hkey) key hkey
    rw [hop']
    exact hk
  · change r'.1.settled key = some (x, one) at hkey
    show r'.1.closing key.1 = true ∨ r'.1.registered x = true ∧
      key = (r'.1.fd x, Function.update s.filter ev filter x) ∧ one = r'.1.oneshot x
    rw [hcl', hcl, hreg', hreg, hfd', hfd, hone', hone]
    rw [hset] at hkey
    by_cases hk : key = (s.fd ev, filter)
    · subst hk
      rw [Function.update_self] at hkey
      obtain ⟨rfl, rfl⟩ := Prod.mk.inj (Option.some.inj hkey)
      simp [hev]
    · rw [Function.update_of_ne hk] at hkey
      have hk' : key ≠ (s.fd ev, s.filter ev) := by
        rintro rfl
        simp at hkey
      rw [Function.update_of_ne hk'] at hkey
      refine (h.sound key x one hkey).imp_right fun ⟨hregx, heq, honex⟩ => ⟨hregx, ?_, honex⟩
      have hxe : x ≠ ev := fun hxe => hk' (hxe ▸ heq)
      rw [Function.update_of_ne hxe]
      exact heq
  · change r'.1.registered x = true at hx
    show r'.1.opened (r'.1.fd x) = true ∧
      r'.1.settled (r'.1.fd x, Function.update s.filter ev filter x) = some (x, r'.1.oneshot x)
    rw [hreg', hreg] at hx
    rw [hop', hop, hfd', hfd, hset, hone', hone]
    by_cases hxe : x = ev
    · subst hxe
      simpa using hopened
    · obtain ⟨hopx, hsetx⟩ := h.complete x hx
      have hk : (s.fd x, s.filter x) ≠ (s.fd ev, filter) := by
        intro heq
        rw [heq, hnone] at hsetx
        cases hsetx
      rw [Function.update_of_ne hxe, Function.update_of_ne hk,
        Function.update_of_ne (h.key_ne hev hx hxe)]
      exact ⟨hopx, hsetx⟩

/-- The filters follow the events after every safe step. -/
theorem follows_step {s' : Kqueue ε} {op : KqueueStep ε} (h : s.Follows) (hsafe : s.Safe op)
    (hstep : s.step op = some s') : s'.Follows := by
  cases op with
  | add ev fd filter oneshot =>
      obtain ⟨hev, hs'⟩ := Option.ite_none_left_eq_some.mp hstep
      obtain ⟨hopened, hnone, hroom⟩ := hsafe
      exact Option.some.inj hs' ▸ h.evqAdd (Bool.eq_false_iff.mpr hev) hopened hnone hroom
  | del ev reuseFd =>
      obtain ⟨hev, hs'⟩ := Option.ite_none_right_eq_some.mp hstep
      exact Option.some.inj hs' ▸ h.evqDel hev hsafe
  | modify ev filter =>
      obtain ⟨⟨hev, hne⟩, hs'⟩ := Option.ite_none_right_eq_some.mp hstep
      obtain ⟨hnone, hroom, hroom'⟩ := hsafe
      exact Option.some.inj hs' ▸ h.evqModify hev hne hnone hroom hroom'
  | wait results =>
      obtain ⟨hreports, hs'⟩ := Option.ite_none_right_eq_some.mp hstep
      exact Option.some.inj hs' ▸ h.evqWait hreports hsafe.1 hsafe.2
  | dispatch ev =>
      obtain rfl := Option.some.inj hstep
      exact ⟨h.nchanges_le, h.kernel, h.sound, h.complete⟩
  | openFd fd =>
      obtain ⟨hfd, hs'⟩ := Option.ite_none_left_eq_some.mp hstep
      exact Option.some.inj hs' ▸ h.openFd (Bool.eq_false_iff.mpr hfd) hsafe
  | close fd =>
      obtain ⟨-, hs'⟩ := Option.ite_none_right_eq_some.mp hstep
      exact Option.some.inj hs' ▸ h.closeFd hsafe

end

variable [DecidableEq ε]

/-- A step under its condition. -/
def SafeStep (s s' : Kqueue ε) : Prop := ∃ op, s.Safe op ∧ s.step op = some s'

/-- **The filters follow the events.**  In every run of safe steps the filters, once the changes
are performed, are those of the registered events; and what `kevent` reports, when the program
has closed what it had to close, is of registered events only. -/
theorem safe_run_follows {kevList : ℕ → Kevent ε} {opened : ℕ → Bool} {s : Kqueue ε}
    (hrun : Relation.ReflTransGen SafeStep (init kevList opened) s) :
    s.Follows ∧ ∀ results, s.Reports results → (∀ fd, s.closing fd = false) →
      ∀ kev ∈ results, kev.hasOccurred = true → ∀ ev, kev.udata = some ev →
        s.registered ev = true ∧ kev.key = (s.fd ev, s.filter ev) := by
  have h : s.Follows := inv_of_reach (I := Follows)
    (fun _ _ ⟨_, hsafe, hstep⟩ h => follows_step h hsafe hstep) (follows_init kevList opened) hrun
  refine ⟨h, fun results hreports hclosing kev hmem hocc ev hudata => ?_⟩
  have hfilter := hreports.2.1 kev hmem hocc
  rw [hudata, Option.map_eq_some_iff] at hfilter
  obtain ⟨⟨x, one⟩, hkey, rfl⟩ := hfilter
  have hsound := (h.sound _ _ _ hkey).resolve_left fun hcl =>
    Bool.false_ne_true ((hclosing _).symm.trans hcl)
  exact ⟨hsound.1, hsound.2.1⟩

/-- The descriptor has been closed, and another one has its number. -/
def reopened : Kqueue ℕ :=
  { occurred.closeFd 5 with opened := Function.update (occurred.closeFd 5).opened 5 true }

/-- A oneshot event occurs, its descriptor is closed, and another one gets the number. -/
theorem safe_run_follows_oneshot : ∃ s : Kqueue ℕ,
    Relation.ReflTransGen SafeStep (init (fun _ => ⟨0, .read, .error, none⟩) fun fd => fd == 5) s ∧
      s.registered 1 = true ∧ s.Follows := by
  have hadd : SafeStep empty (empty.evqAdd 0 5 .read true) :=
    ⟨.add 0 5 .read true, ⟨rfl, rfl, .inl (by decide)⟩, rfl⟩
  have hwait : SafeStep (empty.evqAdd 0 5 .read true) occurred := by
    refine ⟨.wait [⟨5, .read, .occurred false, some 0⟩], ⟨fun _ => rfl, fun _ _ => rfl⟩, ?_⟩
    rw [step, if_pos (by decide)]
    rfl
  have hclose : SafeStep occurred (occurred.closeFd 5) := by
    refine ⟨.close 5, fun ev hev => ?_, rfl⟩
    have hne : ev ≠ 0 := by
      rintro rfl
      cases hev
    rw [show occurred.fd = Function.update (fun _ => 0) 0 5 from rfl, Function.update_of_ne hne]
    decide
  have hopen : SafeStep (occurred.closeFd 5) reopened := by
    refine ⟨.openFd 5, fun kev hkev _ => ?_, rfl⟩
    rw [show (occurred.closeFd 5).changes = [⟨5, .read, .delete, some 0⟩] from rfl,
      List.mem_singleton] at hkev
    rw [hkev]
  have hagain : SafeStep reopened (reopened.evqAdd 1 5 .write false) :=
    ⟨.add 1 5 .write false, ⟨rfl, rfl, .inl (by decide)⟩, rfl⟩
  have hrun : Relation.ReflTransGen SafeStep empty (reopened.evqAdd 1 5 .write false) :=
    ((((Relation.ReflTransGen.single hadd).tail hwait).tail hclose).tail hopen).tail hagain
  exact ⟨_, hrun, rfl, (safe_run_follows hrun).1⟩

/-- The change of an event that has been deleted meets another descriptor of that number. -/
example : (Lib.runOps step empty [.add 0 5 .read false, .del 0 false, .close 5, .openFd 5]).map
    (fun s => (s.registered 0, s.closing 5, s.settled (5, .read))) =
      some (false, false, some (0, false)) := by
  decide

end Kqueue

end LuaSys.Event
