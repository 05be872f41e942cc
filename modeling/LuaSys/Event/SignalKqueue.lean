import LuaSys.Event.SignalList
import LuaSys.Lib.Run

/-!
# Signals with kqueue

With the kqueue backend a queue is told of a signal by the filter `EVFILT_SIGNAL` of its own
kqueue.  `signal_add` adds the filter when it links the first event into the list of the
signal, and `signal_del` removes it together with the last event.  But the list is shared by
all queues: of two queues with events for one signal, only the one that came first gets a
filter, and only the one that leaves last gives one up.

Calls of `kevent` and `sigaction` succeed, except that `kevent` does not delete a filter
that is not there.

## Main definitions

* `KqueueSignals`, `KqueueSignals.step` — the signal events and the filters of the queues.
* `FiltersFollow` — a queue has the filter exactly if it has an event for the signal.
* `KqueueOp.Alone` — an event is added for a signal that no other queue has events for.

## Main results

* `filters_follow_run_iff` — the filters follow the events all along a run if and only if
  every event is added alone.
* `second_queue_has_no_filter` — a run in which one is not.
-/

namespace LuaSys.Event

open LuaSys.Lib

/-- The signal events of the queues, and the filters of their kqueues. -/
structure KqueueSignals (ε κ : Type*) where
  g : SignalEvents ε
  /-- The field `evq` of an event: null for one that is not registered. -/
  evq : ε → Option κ
  /-- The signal of an event: `EVQ_SIGCHLD` if it is for a process, else its `fd`. -/
  signo : ε → SigNo
  /-- The queue has `EVFILT_SIGNAL` for the signal. -/
  filter : κ → SigNo → Bool
  /-- Number of the calls of `signal_add`, which bounds the loop of `signal_del`. -/
  nadds : ℕ

/-- The calls for the events of a queue. -/
inductive KqueueOp (ε κ : Type*)
  | add (evq : κ) (ev : ε) (signo : SigNo)
  | del (ev : ε)

namespace KqueueSignals

variable {ε κ : Type*} [DecidableEq ε] [DecidableEq κ]

/-- `signal_kqueue`: the filter of one queue. -/
def signalKqueue (s : KqueueSignals ε κ) (evq : κ) (signo : SigNo) (on : Bool) :
    KqueueSignals ε κ :=
  { s with filter := Function.update s.filter evq (Function.update (s.filter evq) signo on) }

/-- `signal_add`, for an event that is not registered.  An unknown signal is refused. -/
def signalAdd (s : KqueueSignals ε κ) (evq : κ) (ev : ε) (signo : SigNo) : KqueueSignals ε κ :=
  match signalGethead signo with
  | none => s
  | some i =>
      let s' := if (s.g.events i).isSome then s else s.signalKqueue evq signo true
      { s' with
        g := s.g.link i ev
        evq := Function.update s.evq ev (some evq)
        signo := Function.update s.signo ev signo
        nadds := s.nadds + 1 }

/-- `signal_del`, for an event of the queue `evq`. -/
def signalDel (s : KqueueSignals ε κ) (evq : κ) (ev : ε) : Option (KqueueSignals ε κ) :=
  (signalGethead (s.signo ev)).bind fun i =>
    (s.g.unlink s.nadds i ev).map fun g =>
      let s' := if s.g.events i = some ev ∧ s.g.nextObject ev = none then
        s.signalKqueue evq (s.signo ev) false else s
      { s' with g := g, evq := Function.update s.evq ev none }

/-- One call; an event is added when it is free, and deleted when it is registered. -/
def step (s : KqueueSignals ε κ) : KqueueOp ε κ → Option (KqueueSignals ε κ)
  | .add evq ev signo => if s.evq ev = none then some (s.signalAdd evq ev signo) else none
  | .del ev => (s.evq ev).bind fun evq => s.signalDel evq ev

/-- No events, and no filters. -/
def init (signo : ε → SigNo) : KqueueSignals ε κ where
  g := .init
  evq _ := none
  signo := signo
  filter _ _ := false
  nadds := 0

/-- A queue has the filter for a signal exactly if one of its events is for the signal. -/
def FiltersFollow (s : KqueueSignals ε κ) : Prop :=
  ∀ q signo, s.filter q signo = true ↔ ∃ ev, s.evq ev = some q ∧ s.signo ev = signo

end KqueueSignals

/-- No other queue has an event for the signal. -/
def KqueueOp.Alone {ε κ : Type*} (s : KqueueSignals ε κ) : KqueueOp ε κ → Prop
  | .add evq _ signo => signalGethead signo = none ∨
      ∀ ev' evq', s.evq ev' = some evq' → s.signo ev' = signo → evq' = evq
  | .del _ => True

namespace KqueueSignals

variable {ε κ : Type*}

/-- The registered events are those of the lists. -/
structure Listed (s : KqueueSignals ε κ) (l : ℕ → List ε) : Prop where
  lists : s.g.Lists l
  mem_iff : ∀ i ev, ev ∈ l i ↔ s.evq ev ≠ none ∧ signalGethead (s.signo ev) = some i
  length_le : ∀ i, (l i).length ≤ s.nadds

/-- The filters follow the events, and all events for a signal are of one queue. -/
structure Inv (s : KqueueSignals ε κ) : Prop where
  listed : ∃ l, s.Listed l
  follow : s.FiltersFollow
  single : ∀ ev ev' q q', s.evq ev = some q → s.evq ev' = some q' → s.signo ev = s.signo ev' →
    q = q'

variable {s s' : KqueueSignals ε κ} {l : ℕ → List ε} {ev : ε} {q : κ} {signo : SigNo} {i : ℕ}

/-- The list of a signal is empty exactly if no event for it is registered. -/
theorem Listed.events_eq_none (h : s.Listed l) (hi : signalGethead signo = some i) :
    s.g.events i = none ↔ ∀ ev q, s.evq ev = some q → s.signo ev ≠ signo := by
  rw [h.lists.head_eq i, List.head?_eq_none_iff, List.eq_nil_iff_forall_not_mem]
  constructor
  · intro hnone ev q hq hs
    exact hnone ev ((h.mem_iff i ev).mpr ⟨by simp [hq], hs ▸ hi⟩)
  · intro hnone ev hmem
    obtain ⟨hreg, hi'⟩ := (h.mem_iff i ev).mp hmem
    obtain ⟨q, hq⟩ := Option.ne_none_iff_exists'.mp hreg
    exact hnone ev q hq (signalGethead_inj hi' hi)

/-- An event is the only one of its list exactly if no other one is registered for its
signal. -/
theorem Listed.last_iff (h : s.Listed l) (hq : s.evq ev = some q)
    (hi : signalGethead (s.signo ev) = some i) :
    s.g.events i = some ev ∧ s.g.nextObject ev = none ↔
      ∀ e q', s.evq e = some q' → s.signo e = s.signo ev → e = ev := by
  rw [h.lists.eq_singleton_iff]
  constructor
  · intro hl e q' he hs
    have hmem : e ∈ l i := (h.mem_iff i e).mpr ⟨by simp [he], hs ▸ hi⟩
    rwa [hl, List.mem_singleton] at hmem
  · intro hall
    have hmem : ev ∈ l i := (h.mem_iff i ev).mpr ⟨by simp [hq], hi⟩
    have hsub : ∀ e ∈ l i, e = ev := by
      intro e he
      obtain ⟨hreg, hi'⟩ := (h.mem_iff i e).mp he
      obtain ⟨q', hq'⟩ := Option.ne_none_iff_exists'.mp hreg
      exact hall e q' hq' (signalGethead_inj hi' hi)
    refine List.perm_singleton.mp ((List.perm_ext_iff_of_nodup (h.lists.nodup i)
      (List.nodup_singleton ev)).mpr fun e => ?_)
    rw [List.mem_singleton]
    exact ⟨hsub e, fun heq => heq ▸ hmem⟩

variable [DecidableEq ε] [DecidableEq κ]

/-- An event that is not registered becomes the head of a list. -/
theorem Listed.add (h : s.Listed l) (hev : s.evq ev = none) (hi : signalGethead signo = some i)
    (q : κ) : (s.signalAdd q ev signo).Listed (Function.update l i (ev :: l i)) := by
  have hfresh : ∀ j, ev ∉ l j := fun j hmem => ((h.mem_iff j ev).mp hmem).1 hev
  simp only [signalAdd, hi]
  refine ⟨h.lists.link hfresh, fun j ev' => ?_, fun j => ?_⟩
  · dsimp only
    by_cases he : ev' = ev
    · subst he
      rw [Function.update_self, Function.update_self, hi]
      by_cases hj : j = i
      · subst hj
        simp
      · simp [Function.update_of_ne hj, hfresh j, Ne.symm hj]
    · rw [Function.update_of_ne he, Function.update_of_ne he, ← h.mem_iff j ev']
      by_cases hj : j = i
      · subst hj
        rw [Function.update_self, List.mem_cons, or_iff_right he]
      · rw [Function.update_of_ne hj]
  · by_cases hj : j = i
    · subst hj
      simpa using h.length_le j
    · rw [Function.update_of_ne hj]
      exact Nat.le_succ_of_le (h.length_le j)

/-- The filters after a call of `signal_add`. -/
theorem signalAdd_filter (hi : signalGethead signo = some i) (q : κ) (ev : ε) (q' : κ)
    (signo' : SigNo) :
    (s.signalAdd q ev signo).filter q' signo' = true ↔
      s.filter q' signo' = true ∨ (s.g.events i = none ∧ q' = q ∧ signo' = signo) := by
  simp only [signalAdd, hi]
  cases hhead : s.g.events i with
  | some ev₀ => simp
  | none =>
      by_cases hq : q' = q
      · subst hq
        by_cases hs : signo' = signo
        · simp [signalKqueue, hs]
        · simp [signalKqueue, hs]
      · simp [signalKqueue, hq]

/-- An event for a signal of its own queue keeps the filters right. -/
theorem Inv.add (h : s.Inv) (hev : s.evq ev = none)
    (halone : (KqueueOp.add q ev signo).Alone s) : (s.signalAdd q ev signo).Inv := by
  cases hi : signalGethead signo with
  | none =>
      simp only [signalAdd, hi]
      exact h
  | some i =>
      obtain ⟨l, hl⟩ := h.listed
      have hothers : ∀ ev' q', s.evq ev' = some q' → s.signo ev' = signo → q' = q :=
        halone.resolve_left (by simp [hi])
      have hevq : (s.signalAdd q ev signo).evq = Function.update s.evq ev (some q) := by
        simp only [signalAdd, hi]
      have hsigno : (s.signalAdd q ev signo).signo = Function.update s.signo ev signo := by
        simp only [signalAdd, hi]
      refine ⟨⟨_, hl.add hev hi q⟩, fun q' signo' => ?_, fun a b qa qb ha hb hab => ?_⟩
      · rw [signalAdd_filter hi, h.follow q' signo', hl.events_eq_none hi, hevq, hsigno]
        constructor
        · rintro (⟨e, he, hs⟩ | ⟨-, rfl, rfl⟩)
          · have hne : e ≠ ev := by
              rintro rfl
              exact absurd (hev.symm.trans he) (by simp)
            exact ⟨e, by rwa [Function.update_of_ne hne], by rwa [Function.update_of_ne hne]⟩
          · exact ⟨ev, Function.update_self .., Function.update_self ..⟩
        · rintro ⟨e, he, hs⟩
          by_cases hne : e = ev
          · subst hne
            rw [Function.update_self] at he hs
            obtain rfl := Option.some.inj he
            subst hs
            by_cases hnone : ∀ e q, s.evq e = some q → s.signo e ≠ signo
            · exact Or.inr ⟨hnone, rfl, rfl⟩
            · push Not at hnone
              obtain ⟨e₀, q₀, he₀, hs₀⟩ := hnone
              exact Or.inl ⟨e₀, hothers e₀ q₀ he₀ hs₀ ▸ he₀, hs₀⟩
          · rw [Function.update_of_ne hne] at he hs
            exact Or.inl ⟨e, he, hs⟩
      · rw [hevq] at ha hb
        rw [hsigno] at hab
        by_cases hea : a = ev
        · subst hea
          rw [Function.update_self] at ha hab
          obtain rfl := Option.some.inj ha
          by_cases heb : b = a
          · subst heb
            rw [Function.update_self] at hb
            exact Option.some.inj hb
          · rw [Function.update_of_ne heb] at hb hab
            exact (hothers b qb hb hab.symm).symm
        · rw [Function.update_of_ne hea] at ha hab
          by_cases heb : b = ev
          · subst heb
            rw [Function.update_self] at hb hab
            exact Option.some.inj hb ▸ hothers a qa ha hab
          · rw [Function.update_of_ne heb] at hb hab
            exact h.single a b qa qb ha hb hab

/-- An event that is not alone has no filter. -/
theorem Inv.alone (h : s.Inv)
    (hfollow : (s.signalAdd q ev signo).FiltersFollow) : (KqueueOp.add q ev signo).Alone s := by
  cases hi : signalGethead signo with
  | none => exact Or.inl hi
  | some i =>
      refine Or.inr fun e' q' he' hs' => ?_
      obtain ⟨l, hl⟩ := h.listed
      have hfilter : (s.signalAdd q ev signo).filter q signo = true := by
        refine (hfollow q signo).mpr ⟨ev, ?_, ?_⟩
        · simp only [signalAdd, hi, Function.update_self]
        · simp only [signalAdd, hi, Function.update_self]
      rw [signalAdd_filter hi, h.follow q signo, hl.events_eq_none hi] at hfilter
      rcases hfilter with ⟨e₀, he₀, hs₀⟩ | ⟨hnone, -⟩
      · exact h.single e' e₀ q' q he' he₀ (hs'.trans hs₀.symm)
      · exact absurd hs' (hnone e' q' he')

omit [DecidableEq κ] in
/-- A registered event is taken out of its list. -/
theorem Listed.del (h : s.Listed l) {g : SignalEvents ε} {f : κ → SigNo → Bool}
    (hg : g.Lists (Function.update l i ((l i).erase ev)))
    (hi : signalGethead (s.signo ev) = some i) :
    Listed { s with g := g, evq := Function.update s.evq ev none, filter := f }
      (Function.update l i ((l i).erase ev)) := by
  refine ⟨hg, fun j e => ?_, fun j => ?_⟩
  · dsimp only
    by_cases he : e = ev
    · subst he
      rw [Function.update_self]
      refine iff_of_false (fun hmem => ?_) fun hreg => hreg.1 rfl
      by_cases hj : j = i
      · subst hj
        rw [Function.update_self] at hmem
        exact (h.lists.nodup j).not_mem_erase hmem
      · rw [Function.update_of_ne hj] at hmem
        exact hj (Option.some.inj (((h.mem_iff j e).mp hmem).2.symm.trans hi))
    · rw [Function.update_of_ne he, ← h.mem_iff j e]
      by_cases hj : j = i
      · subst hj
        rw [Function.update_self, List.mem_erase_of_ne he]
      · rw [Function.update_of_ne hj]
  · by_cases hj : j = i
    · subst hj
      rw [Function.update_self]
      exact Nat.le_trans List.length_erase_le (h.length_le j)
    · rw [Function.update_of_ne hj]
      exact h.length_le j

/-- A deletion keeps the filters right. -/
theorem Inv.del (h : s.Inv) (hq : s.evq ev = some q) (hs : s.signalDel q ev = some s') : s'.Inv := by
  obtain ⟨i, hi, hs⟩ := Option.bind_eq_some_iff.mp hs
  obtain ⟨g, hg, rfl⟩ := Option.map_eq_some_iff.mp hs
  obtain ⟨l, hl⟩ := h.listed
  have hmem : ev ∈ l i := (hl.mem_iff i ev).mpr ⟨by simp [hq], hi⟩
  obtain ⟨g', hg', hlists⟩ := hl.lists.exists_unlink hmem (hl.length_le i)
  obtain rfl := Option.some.inj (hg.symm.trans hg')
  have hlast := hl.last_iff hq hi
  have hothers : ∀ e q' signo', Function.update s.evq ev none e = some q' ∧ s.signo e = signo' ↔
      e ≠ ev ∧ s.evq e = some q' ∧ s.signo e = signo' := by
    intro e q' signo'
    by_cases he : e = ev
    · simp [he]
    · simp [he]
  have hsingle : ∀ a b qa qb, Function.update s.evq ev none a = some qa →
      Function.update s.evq ev none b = some qb → s.signo a = s.signo b → qa = qb := by
    intro a b qa qb ha hb hab
    obtain ⟨-, ha, -⟩ := (hothers a qa _).mp ⟨ha, rfl⟩
    obtain ⟨-, hb, -⟩ := (hothers b qb _).mp ⟨hb, rfl⟩
    exact h.single a b qa qb ha hb hab
  have hsame : ∀ q' signo', ¬(q' = q ∧ signo' = s.signo ev) →
      ((∃ e, e ≠ ev ∧ s.evq e = some q' ∧ s.signo e = signo') ↔
        ∃ e, s.evq e = some q' ∧ s.signo e = signo') := by
    intro q' signo' hne
    constructor
    · rintro ⟨e, -, he⟩
      exact ⟨e, he⟩
    · rintro ⟨e, he, hsig⟩
      refine ⟨e, ?_, he, hsig⟩
      rintro rfl
      exact hne ⟨Option.some.inj (he.symm.trans hq), hsig.symm⟩
  split_ifs with hcase
  · -- The filter goes with the last event.
    refine ⟨⟨_, hl.del hlists hi⟩, fun q' signo' => ?_, hsingle⟩
    simp only [signalKqueue, hothers]
    by_cases hown : q' = q ∧ signo' = s.signo ev
    · obtain ⟨rfl, rfl⟩ := hown
      rw [Function.update_self, Function.update_self]
      refine iff_of_false (by simp) ?_
      rintro ⟨e, hne, he, hsig⟩
      exact hne (hlast.mp hcase e q' he hsig)
    · rw [hsame q' signo' hown, ← h.follow q' signo']
      by_cases hq' : q' = q
      · subst hq'
        rw [Function.update_self, Function.update_of_ne fun hsig => hown ⟨rfl, hsig⟩]
      · rw [Function.update_of_ne hq']
  · -- Another event for the signal is left, and it is of the same queue.
    refine ⟨⟨_, hl.del hlists hi⟩, fun q' signo' => ?_, hsingle⟩
    simp only [hothers]
    by_cases hown : q' = q ∧ signo' = s.signo ev
    · obtain ⟨rfl, rfl⟩ := hown
      rw [hlast] at hcase
      push Not at hcase
      obtain ⟨e₀, q₀, he₀, hs₀, hne₀⟩ := hcase
      obtain rfl := h.single e₀ ev q₀ q' he₀ hq hs₀
      exact iff_of_true ((h.follow q₀ _).mpr ⟨ev, hq, rfl⟩) ⟨e₀, hne₀, he₀, hs₀⟩
    · rw [hsame q' signo' hown, ← h.follow q' signo']

omit [DecidableEq ε] [DecidableEq κ] in
theorem inv_init (signo : ε → SigNo) : (init signo : KqueueSignals ε κ).Inv := by
  refine ⟨⟨fun _ => [], SignalEvents.lists_init, fun i ev => ?_, fun _ => Nat.le_refl 0⟩, ?_, ?_⟩
  · simp [init]
  · intro q signo'
    simp [init]
  · intro a b qa qb ha
    exact absurd ha (by simp [init])

/-- **The filters follow the events** in all states of a run if and only if no event is added
for a signal that another queue has events for. -/
theorem filters_follow_run_iff {signo : ε → SigNo} {s : KqueueSignals ε κ}
    {ops : List (KqueueOp ε κ)} (hrun : runOps step (init signo) ops = some s) :
    (∀ pre s', pre <+: ops → runOps step (init signo) pre = some s' → s'.FiltersFollow) ↔
      ∀ pre op s', pre ++ [op] <+: ops → runOps step (init signo) pre = some s' → op.Alone s' := by
  refine forall_runOps_iff (A := Inv) (fun s h => h.follow) (fun s op s' hs h hsafe => ?_)
    (fun s op s' hs h hfollow => ?_) (inv_init signo) hrun
  · cases op with
    | add q ev signo =>
        obtain ⟨hev, hs⟩ := Option.ite_none_right_eq_some.mp hs
        exact Option.some.inj hs ▸ h.add hev hsafe
    | del ev =>
        obtain ⟨q, hq, hs⟩ := Option.bind_eq_some_iff.mp hs
        exact h.del hq hs
  · cases op with
    | add q ev signo =>
        obtain ⟨hev, hs⟩ := Option.ite_none_right_eq_some.mp hs
        rw [← Option.some.inj hs] at hfollow
        exact h.alone hfollow
    | del ev => exact trivial

instance (s : KqueueSignals Bool Bool) (op : KqueueOp Bool Bool) : Decidable (op.Alone s) :=
  match op with
  | .add _ _ _ => inferInstanceAs (Decidable (_ ∨ _))
  | .del _ => inferInstanceAs (Decidable True)

/-- Two queues have events for two signals; one of the events is deleted, and the other queue gets
it for the same signal. -/
def twoQueueOps : List (KqueueOp Bool Bool) :=
  [.add true true .int, .add false false .term, .del true, .add false true .int]

theorem filters_follow_run_iff_twoQueues :
    ∃ s, runOps step (init fun _ => .int : KqueueSignals Bool Bool) twoQueueOps = some s ∧
      s.filter true .int = false ∧ s.filter false .int = true ∧ s.FiltersFollow := by
  obtain ⟨s, hrun, hold, hnew⟩ :
      ∃ s, runOps step (init fun _ => .int : KqueueSignals Bool Bool) twoQueueOps = some s ∧
        s.filter true .int = false ∧ s.filter false .int = true := ⟨_, rfl, rfl, rfl⟩
  have halone : SafeSteps step (fun s op => op.Alone s)
      (init fun _ => .int : KqueueSignals Bool Bool) twoQueueOps := by
    decide
  exact ⟨s, hrun, hold, hnew,
    (filters_follow_run_iff hrun).mpr halone.forall_steps _ s (List.prefix_refl _) hrun⟩

/-- Two queues have an event for one signal, and the second one has no filter. -/
theorem second_queue_has_no_filter :
    ∃ s, runOps step (init fun _ => .int : KqueueSignals Bool Bool)
      [.add true true .int, .add false false .int] = some s ∧ s.evq false = some false ∧
      s.filter false .int = false ∧ ¬s.FiltersFollow := by
  refine ⟨_, rfl, rfl, rfl, fun hfollow => ?_⟩
  have hfilter := (hfollow false .int).mpr ⟨false, rfl, rfl⟩
  exact absurd hfilter (by decide)

end KqueueSignals

end LuaSys.Event
