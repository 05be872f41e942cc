import LuaSys.Lib.Path
import Mathlib.Data.List.Basic
import Mathlib.Data.List.Perm.Basic

/-!
# The thread of the completion routines

With many sockets, the Windows backend hands its read and write requests to a thread of its
own.  `win32iocr_set` puts a request on the list of the queue, `win32iocr_submit` moves that
list to `ov_set`, and each round of `win32iocr_wait` takes `ov_set`, starts the operations with
`win32iocr_set_handle` and sleeps until some of them complete.  A request that is ready is put
on `ov_list`, which the next round hands back to the queue: this is done for an operation that
has completed, for one that cannot be started, and for one that was cancelled meanwhile.

All lists go through one field, `ov_next`.  The loop of the round reads it after
`win32iocr_set_handle` has had the request, and `win32iocr_list_put` has overwritten it by then
if the request was not started.  As `ov_list` is empty when the loop begins, the field is null
and the loop ends there: the requests behind it are in no list any more.

`submit` and the first part of a round run with the lock of the queue, so they do not
interleave.  Completion routines are run by the thread itself, and in `SleepEx` only.

## Main definitions

* `Iocr`, `Iocr.submit`, `Iocr.waitRound` — the lists, and one round of the thread.
* `Iocr.Holds` — which requests each list has.
* `Iocr.Refused` — a request that is cancelled, or whose operation fails at once.
* `Iocr.HandlesOnce` — the round starts every request once and loses none.

## Main results

* `Iocr.handleRequests_accepted`, `Iocr.handleRequests_refused` — how far the loop gets.
* `submit_handlesOnce_iff` — only the last request may be refused.
-/

namespace LuaSys.Event

open LuaSys.Lib

/-- The flag `EVENT_READ`. -/
def iocrEventRead : ℕ := 0x00000001

/-- The flag `EVENT_WRITE`. -/
def iocrEventWrite : ℕ := 0x00000002

/-- The code `WSA_IO_PENDING`. -/
def wsaIoPending : ℕ := 997

/-- A list of requests: `ov_head` and `ov_tail`. -/
structure OvList (ω : Type*) where
  head : Option ω
  tail : Option ω
  deriving DecidableEq

/-- A list without requests. -/
def OvList.empty {ω : Type*} : OvList ω := ⟨none, none⟩

section lists
variable {ω : Type*}

/-- The list has the requests `xs`, in this order. -/
structure OvList.Chain (next : ω → Option ω) (l : OvList ω) (xs : List ω) : Prop where
  path : Path some next l.head xs none
  tail : l.tail = xs.getLast?

section
variable {next next' : ω → Option ω} {l : OvList ω} {xs : List ω}

theorem OvList.Chain.head_none_iff (h : l.Chain next xs) : l.head = none ↔ xs = [] := by
  have hp := h.path
  cases xs with
  | nil => simpa using hp
  | cons a xs => simp [hp.1]

theorem OvList.chain_empty (next : ω → Option ω) : OvList.empty.Chain next [] := ⟨rfl, rfl⟩

theorem OvList.Chain.congr (h : l.Chain next xs) (heq : ∀ a ∈ xs, next a = next' a) :
    l.Chain next' xs :=
  ⟨(path_congr heq).mp h.path, h.tail⟩

end

variable [DecidableEq ω]

/-- `win32iocr_list_put`: the links and the list afterwards. -/
def listPut (next : ω → Option ω) (l : OvList ω) (ov : ω) : (ω → Option ω) × OvList ω :=
  (Function.update next ov l.head, ⟨some ov, if l.head = none then some ov else l.tail⟩)

/-- `win32iocr_list_move`: the links, the list and the destination afterwards.  The code goes
through `ov_tail`, which must not be null. -/
def listMove (next : ω → Option ω) (l : OvList ω) (dest : Option ω) :
    Option ((ω → Option ω) × OvList ω × Option ω) :=
  l.tail.map fun t => (Function.update next t dest, OvList.empty, l.head)

variable {next : ω → Option ω} {l : OvList ω} {xs ys : List ω} {dest : Option ω} {ov : ω}

/-- A request is put in front. -/
theorem OvList.Chain.put (h : l.Chain next xs) (hov : ov ∉ xs) :
    (listPut next l ov).2.Chain (listPut next l ov).1 (ov :: xs) := by
  constructor
  · refine ⟨rfl, ?_⟩
    simpa [listPut, hov] using h.path
  · cases xs with
    | nil => simp [listPut, h.head_none_iff.mpr rfl]
    | cons a xs =>
        have hhead : l.head ≠ none := by simp [h.head_none_iff]
        simp [listPut, hhead, h.tail]

/-- A list that has requests is moved in front of another one. -/
theorem OvList.Chain.move (h : l.Chain next xs) (hxs : xs ≠ [])
    (hdest : Path some next dest ys none) (hnodup : (xs ++ ys).Nodup) :
    ∃ next', listMove next l dest = some (next', OvList.empty, l.head) ∧
      Path some next' l.head (xs ++ ys) none ∧ ∀ a ∉ xs, next' a = next a := by
  obtain ⟨zs, t, rfl⟩ : ∃ zs t, xs = zs ++ [t] := by
    rw [← List.dropLast_append_getLast hxs]
    exact ⟨_, _, rfl⟩
  have htail : l.tail = some t := by simp [h.tail]
  have hzs : t ∉ zs := by
    simp only [List.append_assoc, List.nodup_append] at hnodup
    exact fun ht => hnodup.2.2 t ht t (by simp) rfl
  have hys : t ∉ ys := by
    intro ht
    exact (List.nodup_append.mp hnodup).2.2 t (by simp) t ht rfl
  refine ⟨Function.update next t dest, by rw [listMove, htail]; rfl, ?_, ?_⟩
  · rw [path_append]
    refine ⟨dest, path_concat.mpr ⟨?_, by simp⟩, ?_⟩
    · exact (path_update_of_notMem hzs).mpr (path_concat.mp h.path).1
    · exact (path_update_of_notMem hys).mpr hdest
  · intro a ha
    exact Function.update_of_ne (fun hat => ha (by simp [hat])) _ _

end lists

/-- The requests, the lists of the queue and the lists of the thread. -/
structure Iocr (ω ε : Type*) where
  /-- The field `o.ov_next`. -/
  next : ω → Option ω
  /-- The field `e.ev`: null once the request is cancelled. -/
  ev : ω → Option ε
  rwFlags : ω → ℕ
  err : ω → ℕ
  /-- `evq->iocr.ov_list`: requests to be queued. -/
  queued : OvList ω
  /-- `evq->iocr.ov_ready`. -/
  ovReady : Option ω
  /-- `iocr_thr->ov_list`: requests to be ready. -/
  ovList : OvList ω
  /-- `iocr_thr->ov_set`. -/
  ovSet : Option ω

/-- The calls of the system: `WSARecv` and `WSASend` on a descriptor with an empty buffer.  The
result is `none` for zero and else what `WSAGetLastError` returns. -/
structure IocrSys (ω ε δ : Type*) where
  /-- The field `fd` of an event. -/
  fd : ε → δ
  wsaRecv : δ → ω → Option ℕ
  wsaSend : δ → ω → Option ℕ

/-- The operation has been started: it is done, or pending. -/
def wsaStarted (r : Option ℕ) : Bool := r.all (· == wsaIoPending)

/-- One round of the thread: the state after it, the requests that `win32iocr_set_handle` was
called for, and those whose completion routine was run. -/
structure IocrRound (ω ε : Type*) where
  state : Iocr ω ε
  handled : List ω
  completed : List ω

namespace Iocr
variable {ω ε δ : Type*} [DecidableEq ω]

/-- `win32iocr_list_put` on the list of the queue, as `win32iocr_set` does with a new request. -/
def set (s : Iocr ω ε) (ov : ω) (ev : ε) (rwFlags : ℕ) : Iocr ω ε :=
  let p := listPut s.next s.queued ov
  { s with
    next := p.1
    queued := p.2
    ev := Function.update s.ev ov (some ev)
    rwFlags := Function.update s.rwFlags ov (rwFlags &&& (iocrEventRead ||| iocrEventWrite))
    err := Function.update s.err ov 0 }

/-- The assignment of `win32iocr_cancel`. -/
def cancel (s : Iocr ω ε) (ov : ω) : Iocr ω ε := { s with ev := Function.update s.ev ov none }

/-- `win32iocr_list_put` on the list of the thread; all that `win32iocr_completion` does. -/
def completion (s : Iocr ω ε) (ov : ω) : Iocr ω ε :=
  let p := listPut s.next s.ovList ov
  { s with next := p.1, ovList := p.2 }

/-- The call that `win32iocr_set_handle` makes for a request with an event. -/
def attempt (sys : IocrSys ω ε δ) (s : Iocr ω ε) (ov : ω) (ev : ε) : Option ℕ :=
  if s.rwFlags ov = iocrEventRead then sys.wsaRecv (sys.fd ev) ov
  else sys.wsaSend (sys.fd ev) ov

/-- `win32iocr_set_handle`. -/
def setHandle (sys : IocrSys ω ε δ) (s : Iocr ω ε) (ov : ω) : Iocr ω ε :=
  match s.ev ov with
  | none => s.completion ov
  | some ev =>
      let r := s.attempt sys ov ev
      let s := { s with rwFlags := Function.update s.rwFlags ov 0 }
      if wsaStarted r then s
      else { s with err := Function.update s.err ov (r.getD 0) }.completion ov

/-- `win32iocr_submit`. -/
def submit (s : Iocr ω ε) : Option (Iocr ω ε) :=
  (listMove s.next s.queued s.ovSet).map fun p =>
    { s with next := p.1, queued := p.2.1, ovSet := p.2.2 }

/-- The first part of a round: what is ready goes back to the queue. -/
def moveReady (s : Iocr ω ε) : Option (Iocr ω ε) :=
  if s.ovList.head = none then some s
  else (listMove s.next s.ovList s.ovReady).map fun p =>
    { s with next := p.1, ovList := p.2.1, ovReady := p.2.2 }

/-- The loop of a round, with the requests it has called `win32iocr_set_handle` for. -/
def handleRequests (sys : IocrSys ω ε δ) :
    ℕ → Iocr ω ε → Option ω → Option (Iocr ω ε × List ω)
  | _, s, none => some (s, [])
  | 0, _, some _ => none
  | fuel + 1, s, some ov =>
      let s := s.setHandle sys ov
      (handleRequests sys fuel s (s.next ov)).map fun r => (r.1, ov :: r.2)

/-- A round of `win32iocr_wait`.  If it sleeps, then until the requests `done` have completed. -/
def waitRound (sys : IocrSys ω ε δ) (fuel : ℕ) (done : List ω) (s : Iocr ω ε) :
    Option (IocrRound ω ε) := do
  let s ← s.moveReady
  let r ← handleRequests sys fuel { s with ovSet := none } s.ovSet
  if r.1.ovList.head = none then some ⟨done.foldl completion r.1, r.2, done⟩
  else some ⟨r.1, r.2, []⟩

/-- The list of the queue has the requests `qs`, `ov_set` has `rs`, the list of the thread `cs`
and `ov_ready` has `ds`.  No request is in two of them. -/
structure Holds (s : Iocr ω ε) (qs rs cs ds : List ω) : Prop where
  queued : s.queued.Chain s.next qs
  ovSet : Path some s.next s.ovSet rs none
  ovList : s.ovList.Chain s.next cs
  ovReady : Path some s.next s.ovReady ds none
  nodup : (qs ++ rs ++ cs ++ ds).Nodup

/-- The request is cancelled, or its operation fails at once. -/
def Refused (sys : IocrSys ω ε δ) (s : Iocr ω ε) (ov : ω) : Prop :=
  (s.ev ov).all fun ev => !wsaStarted (s.attempt sys ov ev)

instance (sys : IocrSys ω ε δ) (s : Iocr ω ε) : DecidablePred (s.Refused sys) := fun _ =>
  inferInstanceAs (Decidable (_ = true))

/-- The next round calls `win32iocr_set_handle` once for each of the requests `rs` and for no
other one, it terminates, and the list of the thread has afterwards those that were refused and
those that completed, each once. -/
def HandlesOnce (sys : IocrSys ω ε δ) (done : List ω) (s : Iocr ω ε) (rs : List ω) : Prop :=
  ∃ r : IocrRound ω ε,
    (∀ fuel, rs.length ≤ fuel → s.waitRound sys fuel done = some r) ∧
    r.handled.Perm rs ∧
    ∃ l, r.state.ovList.Chain r.state.next l ∧
      l.Perm (rs.filter (s.Refused sys ·) ++ r.completed)

section
variable {sys : IocrSys ω ε δ} {s s' : Iocr ω ε} {ov b : ω} {qs rs cs ds pre done : List ω}

/-! ## Moving the lists -/

/-- `submit` puts the requests of the queue in front of those in `ov_set`. -/
theorem Holds.submit (h : s.Holds qs rs cs ds) (hqs : qs ≠ []) :
    ∃ s', s.submit = some s' ∧ s'.Holds [] (qs ++ rs) cs ds ∧
      s'.ev = s.ev ∧ s'.rwFlags = s.rwFlags := by
  have hnodup := h.nodup
  simp only [List.nodup_append, List.mem_append] at hnodup
  obtain ⟨next', hmove, hpath, hnext⟩ :=
    h.queued.move hqs h.ovSet (List.nodup_append.mpr hnodup.1.1)
  have hcs : ∀ a ∈ cs, a ∉ qs := fun a ha hq => hnodup.1.2.2 a (.inl hq) a ha rfl
  have hds : ∀ a ∈ ds, a ∉ qs := fun a ha hq => hnodup.2.2 a (.inl (.inl hq)) a ha rfl
  refine ⟨{ s with next := next', queued := OvList.empty, ovSet := s.queued.head },
    by rw [Iocr.submit, hmove]; rfl, ?_, rfl, rfl⟩
  constructor
  · exact OvList.chain_empty _
  · exact hpath
  · exact h.ovList.congr fun a ha => (hnext a (hcs a ha)).symm
  · exact (path_congr fun a ha => (hnext a (hds a ha)).symm).mp h.ovReady
  · simpa using h.nodup

/-- What is ready goes in front of `ov_ready`, and the list of the thread is empty. -/
theorem Holds.moveReady (h : s.Holds qs rs cs ds) :
    ∃ s', s.moveReady = some s' ∧ s'.Holds qs rs [] (cs ++ ds) ∧ s'.ovList.head = none ∧
      s'.ev = s.ev ∧ s'.rwFlags = s.rwFlags := by
  by_cases hcs : cs = []
  · subst hcs
    have hhead := h.ovList.head_none_iff.mpr rfl
    exact ⟨s, by rw [Iocr.moveReady, if_pos hhead], by simpa using h, hhead, rfl, rfl⟩
  · have hhead : s.ovList.head ≠ none := fun hh => hcs (h.ovList.head_none_iff.mp hh)
    have hnodup := h.nodup
    simp only [List.nodup_append, List.mem_append] at hnodup
    have hqs : ∀ a ∈ qs, a ∉ cs := fun a ha hc => hnodup.1.2.2 a (.inl ha) a hc rfl
    have hrs : ∀ a ∈ rs, a ∉ cs := fun a ha hc => hnodup.1.2.2 a (.inr ha) a hc rfl
    have hmoved : (cs ++ ds).Nodup :=
      List.nodup_append.mpr ⟨hnodup.1.2.1, hnodup.2.1, fun a ha => hnodup.2.2 a (.inr ha)⟩
    obtain ⟨next', hmove, hpath, hnext⟩ := h.ovList.move hcs h.ovReady hmoved
    refine ⟨{ s with next := next', ovList := OvList.empty, ovReady := s.ovList.head },
      by rw [Iocr.moveReady, if_neg hhead, hmove]; rfl, ?_, rfl, rfl, rfl⟩
    constructor
    · exact h.queued.congr fun a ha => (hnext a (hqs a ha)).symm
    · exact (path_congr fun a ha => (hnext a (hrs a ha)).symm).mp h.ovSet
    · exact OvList.chain_empty _
    · exact hpath
    · simpa using h.nodup

/-! ## Starting the requests -/

/-- A started request stays where it is; only its flags are taken. -/
theorem setHandle_of_not_refused (h : ¬s.Refused sys ov) :
    s.setHandle sys ov = { s with rwFlags := Function.update s.rwFlags ov 0 } := by
  unfold Refused at h
  unfold setHandle
  cases hev : s.ev ov with
  | none => simp [hev] at h
  | some ev => simp_all

/-- A refused request is put on the list of the thread. -/
theorem setHandle_of_refused (h : s.Refused sys ov) :
    (s.setHandle sys ov).next = (listPut s.next s.ovList ov).1 ∧
      (s.setHandle sys ov).ovList = (listPut s.next s.ovList ov).2 := by
  unfold Refused at h
  unfold setHandle
  cases hev : s.ev ov with
  | none => exact ⟨rfl, rfl⟩
  | some ev =>
      simp only [hev, Option.all_some, Bool.not_eq_true'] at h
      simp only [h]
      exact ⟨rfl, rfl⟩

/-- Whether a request is refused is not changed by starting another one. -/
theorem refused_setHandle (h : ¬s.Refused sys ov) (hb : b ≠ ov) :
    (s.setHandle sys ov).Refused sys b ↔ s.Refused sys b := by
  simp [setHandle_of_not_refused h, Refused, attempt, hb]

@[simp] theorem handleRequests_none (fuel : ℕ) :
    handleRequests sys fuel s none = some (s, []) := by
  cases fuel <;> rfl

/-- The loop goes on behind requests that have all been started. -/
theorem handleRequests_accepted (sys : IocrSys ω ε δ) {p q : Option ω} (hpath : Path some s.next p pre q)
    (hnodup : pre.Nodup) (hpre : ∀ ov ∈ pre, ¬s.Refused sys ov) :
    ∃ s', (∀ fuel, handleRequests sys (pre.length + fuel) s p =
        (handleRequests sys fuel s' q).map fun r => (r.1, pre ++ r.2)) ∧
      s'.next = s.next ∧ s'.ovList = s.ovList ∧
      ∀ b ∉ pre, s'.Refused sys b ↔ s.Refused sys b := by
  induction pre generalizing s p with
  | nil =>
      obtain rfl : p = q := hpath
      exact ⟨s, by simp, rfl, rfl, fun _ _ => Iff.rfl⟩
  | cons a pre ih =>
      obtain ⟨rfl, hpath⟩ := hpath
      obtain ⟨ha, hnodup⟩ := List.nodup_cons.mp hnodup
      have hstart := setHandle_of_not_refused (hpre a List.mem_cons_self)
      have hother : ∀ b ≠ a, (s.setHandle sys a).Refused sys b ↔ s.Refused sys b :=
        fun b hb => refused_setHandle (hpre a List.mem_cons_self) hb
      have hnext : (s.setHandle sys a).next = s.next := by rw [hstart]
      obtain ⟨s', hrun, hs'next, hs'list, hs'ref⟩ := ih (s := s.setHandle sys a)
        (p := s.next a) (by rw [hnext]; exact hpath) hnodup fun b hb => by
          rw [hother b (ne_of_mem_of_not_mem hb ha)]
          exact hpre b (List.mem_cons_of_mem a hb)
      refine ⟨s', fun fuel => ?_, hs'next.trans hnext, hs'list.trans (by rw [hstart]),
        fun b hb => ?_⟩
      · rw [List.length_cons, show pre.length + 1 + fuel = pre.length + fuel + 1 by omega,
          handleRequests]
        simp only [hnext, hrun, Option.map_map]
        rfl
      · obtain ⟨hba, hb⟩ := not_or.mp (mt List.mem_cons.mpr hb)
        exact (hs'ref b hb).trans (hother b hba)

/-- A refused request ends the loop, whatever was behind it. -/
theorem handleRequests_refused (hempty : s.ovList.head = none) (hb : s.Refused sys b) :
    ∃ s', (∀ fuel, handleRequests sys (fuel + 1) s (some b) = some (s', [b])) ∧
      s'.ovList.Chain s'.next [b] := by
  obtain ⟨hnext, hlist⟩ := setHandle_of_refused hb
  have hnull : (s.setHandle sys b).next b = none := by simp [hnext, listPut, hempty]
  refine ⟨s.setHandle sys b, fun fuel => ?_, ?_⟩
  · rw [handleRequests]
    simp [hnull]
  · constructor
    · exact ⟨by simp [hlist, listPut], by simp [hnull]⟩
    · simp [hlist, listPut, hempty]

/-! ## Completions -/

/-- The completion routines put their requests on the list of the thread. -/
theorem foldl_completion_chain (hlist : s.ovList.Chain s.next cs)
    (hnodup : (done ++ cs).Nodup) :
    (done.foldl completion s).ovList.Chain (done.foldl completion s).next
      (done.reverse ++ cs) := by
  induction done generalizing s cs with
  | nil => exact hlist
  | cons a done ih =>
      rw [List.cons_append, List.nodup_cons, List.mem_append, not_or] at hnodup
      obtain ⟨⟨hadone, hacs⟩, hnodup⟩ := hnodup
      have hput : (s.completion a).ovList.Chain (s.completion a).next (a :: cs) :=
        hlist.put hacs
      have hnodup' : (done ++ a :: cs).Nodup :=
        List.nodup_middle.mpr (List.nodup_cons.mpr ⟨by simp [hadone, hacs], hnodup⟩)
      simpa using ih hput hnodup'

/-! ## A whole round -/

omit [DecidableEq ω] in
theorem refused_congr (hev : s'.ev = s.ev) (hflags : s'.rwFlags = s.rwFlags) :
    s'.Refused sys ov ↔ s.Refused sys ov := by
  simp [Refused, attempt, hev, hflags]

/-- A round in which all operations are started; it sleeps until `done` have completed. -/
theorem Holds.waitRound_accepted (h : s.Holds qs rs cs ds) (hdone : done.Nodup)
    (hrs : ∀ ov ∈ rs, ¬s.Refused sys ov) :
    ∃ st, (∀ fuel, rs.length ≤ fuel → s.waitRound sys fuel done = some ⟨st, rs, done⟩) ∧
      st.ovList.Chain st.next done.reverse := by
  obtain ⟨s₁, hmove, h₁, hempty, hev, hflags⟩ := h.moveReady
  obtain ⟨s₂, hrun, hnext, hlist, -⟩ := handleRequests_accepted sys
    (s := { s₁ with ovSet := none }) h₁.ovSet (Path.nodup h.ovSet)
    fun ov hov => mt (refused_congr hev hflags).mp (hrs ov hov)
  refine ⟨done.foldl completion s₂, fun fuel hfuel => ?_, ?_⟩
  · obtain ⟨k, rfl⟩ := Nat.exists_eq_add_of_le hfuel
    have hhead : s₂.ovList.head = none := by rw [hlist]; exact hempty
    simp [waitRound, hmove, hrun, hhead]
  · have hchain : s₂.ovList.Chain s₂.next [] := by
      rw [hnext, hlist]
      exact h₁.ovList
    simpa using foldl_completion_chain hchain (by simpa using hdone)

/-- A round in which a request is refused: it has handled the requests up to this one. -/
theorem Holds.waitRound_refused (h : s.Holds qs rs cs ds) {post : List ω}
    (hrs : rs = pre ++ b :: post) (hpre : ∀ ov ∈ pre, ¬s.Refused sys ov)
    (hb : s.Refused sys b) (done : List ω) :
    ∃ st, (∀ fuel, rs.length ≤ fuel →
        s.waitRound sys fuel done = some ⟨st, pre ++ [b], []⟩) ∧
      st.ovList.Chain st.next [b] := by
  subst hrs
  obtain ⟨s₁, hmove, h₁, hempty, hev, hflags⟩ := h.moveReady
  obtain ⟨q, hpath, rfl, -⟩ := path_append.mp h₁.ovSet
  have hnodup := List.nodup_middle.mp (Path.nodup h.ovSet)
  have hbpre : b ∉ pre := fun hb => (List.nodup_cons.mp hnodup).1 (by simp [hb])
  obtain ⟨s₂, hrun, hnext, hlist, href⟩ := handleRequests_accepted sys
    (s := { s₁ with ovSet := none }) hpath ((List.nodup_cons.mp hnodup).2.sublist (by simp))
    fun ov hov => mt (refused_congr hev hflags).mp (hpre ov hov)
  have hb₂ : s₂.Refused sys b := (href b hbpre).mpr ((refused_congr hev hflags).mpr hb)
  obtain ⟨st, hrun', hchain⟩ := handleRequests_refused (by rw [hlist]; exact hempty) hb₂
  refine ⟨st, fun fuel hfuel => ?_, hchain⟩
  obtain ⟨k, rfl⟩ := Nat.exists_eq_add_of_le hfuel
  have hhead : st.ovList.head ≠ none := by simp [hchain.head_none_iff]
  have hlen : (pre ++ b :: post).length + k = pre.length + ((post.length + k) + 1) := by
    simp only [List.length_append, List.length_cons]
    omega
  rw [hlen]
  simp [waitRound, hmove, hrun, hrun', hhead]

/-- The next round handles the requests of `ov_set` once each, if and only if none of them but
the last is refused. -/
theorem Holds.handlesOnce_iff (h : s.Holds qs rs cs ds) (hdone : done.Nodup) :
    s.HandlesOnce sys done rs ↔ ∀ ov ∈ rs.dropLast, ¬s.Refused sys ov := by
  cases hfind : rs.find? (s.Refused sys ·) with
  | none =>
      have hall : ∀ ov ∈ rs, ¬s.Refused sys ov := by simpa using hfind
      refine iff_of_true ?_ fun ov hov => hall ov (List.dropLast_subset rs hov)
      obtain ⟨st, hrun, hchain⟩ := h.waitRound_accepted hdone hall
      have hnone : rs.filter (s.Refused sys ·) = [] := by simpa using hall
      refine ⟨_, hrun, .refl rs, done.reverse, hchain, ?_⟩
      rw [hnone, List.nil_append]
      exact List.reverse_perm done
  | some b =>
      obtain ⟨hb, pre, post, hrs, hpre⟩ := List.find?_eq_some_iff_append.mp hfind
      have hb : s.Refused sys b := of_decide_eq_true hb
      have hpre : ∀ ov ∈ pre, ¬s.Refused sys ov := by simpa using hpre
      obtain ⟨st, hrun, hchain⟩ := h.waitRound_refused hrs hpre hb done
      constructor
      · rintro ⟨r, hrun', hperm, -⟩
        -- The round has handled the requests up to `b`, so there is none behind it.
        obtain rfl := Option.some.inj ((hrun _ (Nat.le_refl _)).symm.trans (hrun' _ (Nat.le_refl _)))
        have hlen := hperm.length_eq
        simp only [hrs, List.length_append, List.length_cons, List.length_nil] at hlen
        obtain rfl : post = [] := List.length_eq_zero_iff.mp (by omega)
        simpa [hrs] using hpre
      · intro hlast
        -- Behind `b` there is nothing, else `b` would be among the requests but the last.
        have hpost : post = [] := by
          by_contra hpost
          refine hlast b ?_ hb
          rw [hrs, List.dropLast_append_of_ne_nil (List.cons_ne_nil b post),
            List.dropLast_cons_of_ne_nil hpost]
          simp
        subst hpost
        have hfilter : rs.filter (s.Refused sys ·) = [b] := by
          rw [hrs, List.filter_append, List.filter_eq_nil_iff.mpr (by simpa using hpre)]
          simp [hb]
        exact ⟨_, hrun, by rw [hrs], [b], hchain, by simp [hfilter]⟩

/-- A request that is cancelled stays in its list. -/
theorem Holds.cancel (h : s.Holds qs rs cs ds) (ov : ω) : (s.cancel ov).Holds qs rs cs ds :=
  ⟨h.queued, h.ovSet, h.ovList, h.ovReady, h.nodup⟩

theorem Holds.foldl_cancel (h : s.Holds qs rs cs ds) (ovs : List ω) :
    (ovs.foldl Iocr.cancel s).Holds qs rs cs ds := by
  induction ovs generalizing s with
  | nil => exact h
  | cons ov ovs ih => exact ih (h.cancel ov)

end

end Iocr

/-! ## Submitted requests -/

section
variable {ω ε δ : Type*} [DecidableEq ω]

/-- The requests of the queue are submitted, some of them are cancelled, and the thread does a
round: it handles the requests of `ov_set` once each, if and only if none of them but the last
is cancelled or fails at once. -/
theorem submit_handlesOnce_iff (sys : IocrSys ω ε δ) {s : Iocr ω ε} {qs rs cs ds done : List ω}
    (h : s.Holds qs rs cs ds) (hqs : qs ≠ []) (hdone : done.Nodup) (cancelled : List ω) :
    ∃ s₀ s', s.submit = some s₀ ∧ s' = cancelled.foldl Iocr.cancel s₀ ∧
      (s'.HandlesOnce sys done (qs ++ rs) ↔ ∀ ov ∈ (qs ++ rs).dropLast, ¬s'.Refused sys ov) := by
  obtain ⟨s₀, hsubmit, h₀, -, -⟩ := h.submit hqs
  exact ⟨s₀, _, hsubmit, rfl, (h₀.foldl_cancel cancelled).handlesOnce_iff hdone⟩

end

/-- A queue without requests. -/
def Iocr.init (ω ε : Type*) : Iocr ω ε where
  next _ := none
  ev _ := none
  rwFlags _ := 0
  err _ := 0
  queued := OvList.empty
  ovReady := none
  ovList := OvList.empty
  ovSet := none

/-- A system where an event is its descriptor and all operations become pending. -/
def pendingSys : IocrSys ℕ ℕ ℕ where
  fd ev := ev
  wsaRecv _ _ := some wsaIoPending
  wsaSend _ _ := some wsaIoPending

/-- Two requests to read, on the descriptors 10 and 20, that wait for their submission. -/
def twoRequests : Iocr ℕ ℕ := ((Iocr.init ℕ ℕ).set 1 10 iocrEventRead).set 2 20 iocrEventRead

theorem twoRequests_holds : twoRequests.Holds [2, 1] [] [] [] := by
  refine ⟨⟨⟨rfl, ?_⟩, rfl⟩, rfl, ⟨rfl, rfl⟩, rfl, by decide⟩
  exact ⟨rfl, rfl⟩

/-- The last request of the two is cancelled, and both are handled. -/
theorem submit_handlesOnce_iff_twoRequests :
    ∃ s₀, twoRequests.submit = some s₀ ∧ (s₀.cancel 1).HandlesOnce pendingSys [1] [2, 1] := by
  obtain ⟨s₀, s', hsubmit, hs', hiff⟩ :=
    submit_handlesOnce_iff pendingSys twoRequests_holds (by decide)
      (show ([1] : List ℕ).Nodup by decide) [1]
  have hstarted : (twoRequests.submit.map fun s => decide ((s.cancel 1).Refused pendingSys 2)) =
      some false := by
    decide
  rw [hsubmit] at hstarted
  refine ⟨s₀, hsubmit, ?_⟩
  rw [hs'] at hiff
  refine hiff.mpr fun ov hov => ?_
  obtain rfl : ov = 2 := List.mem_singleton.mp hov
  exact of_decide_eq_false (Option.some.inj hstarted)

/-- The request for the descriptor 20 is cancelled before the thread takes the two.  It is put on
the list of the thread, and the request for the descriptor 10, which is behind it, is handled by
no round. -/
theorem request_behind_cancelled_dropped :
    ∃ s₀, twoRequests.submit = some s₀ ∧ s₀.Holds [] [2, 1] [] [] ∧
      ¬(s₀.cancel 2).HandlesOnce pendingSys [] [2, 1] := by
  refine ⟨_, rfl, ⟨⟨rfl, rfl⟩, ⟨rfl, rfl, rfl⟩, ⟨rfl, rfl⟩, rfl, by decide⟩, ?_⟩
  rintro ⟨r, hrun, hperm, -⟩
  obtain rfl := Option.some.inj ((hrun 2 (Nat.le_refl 2)).symm.trans rfl)
  exact absurd hperm.length_eq (by decide)

end LuaSys.Event
