import LuaSys.Event.TimeoutRep

/-!
# Processing the timeouts

`timeout_process` marks the events whose deadline has come and puts them before the
ready events.  In each queue these are a first part of the list; they get a new
deadline and go behind the others.

## Main definitions

* `Fired q q' fired deadline` — the events `fired` have been marked, and nothing else
  has changed outside the links of the queues.
* `Processed` — what is done to some of the queues.

## Main results

* `timeoutProcess_spec` — the events fired are exactly those that are due, each once,
  and the representation is kept; without the order of the deadlines they are the first
  events of each queue, up to one that is not due.
-/

namespace LuaSys.Event

open LuaSys.Lib

/-- The events `fired` have been marked and got a new deadline; nothing else has changed,
up to the links inside the timeout queues. -/
structure Fired (q q' : Evq) (fired : List ℕ) (deadline : ℕ → ℤ) : Prop where
  timeoutAt : ∀ ev, q'.timeoutAt ev = if ev ∈ fired then deadline ev else q.timeoutAt ev
  flags : ∀ ev, q'.flags ev =
    if ev ∈ fired then { q.flags ev with active := true, timeoutRes := true } else q.flags ev
  nextReady : ∀ ev, ev ∉ fired → q'.nextReady ev = q.nextReady ev
  queues : SameQueues q q'
  tq : q'.tq = q.tq
  registered : q'.registered = q.registered
  evFree : q'.evFree = q.evFree
  evReady : q'.evReady = q.evReady
  now : q'.now = q.now

/-- Later events are marked after earlier ones. -/
theorem Fired.trans {q q₁ q₂ : Evq} {f₁ f₂ : List ℕ} {deadline : ℕ → ℤ}
    (h₁ : Fired q q₁ f₁ deadline) (h₂ : Fired q₁ q₂ f₂ deadline) :
    Fired q q₂ (f₁ ++ f₂) deadline := by
  refine ⟨fun x => ?_, fun x => ?_, fun x hx => ?_, ⟨?_, ?_, ?_, ?_, ?_, ?_⟩, ?_, ?_, ?_, ?_, ?_⟩
  · rw [h₂.timeoutAt, h₁.timeoutAt]
    by_cases hx₁ : x ∈ f₁ <;> by_cases hx₂ : x ∈ f₂ <;> simp [hx₁, hx₂]
  · rw [h₂.flags, h₁.flags]
    by_cases hx₁ : x ∈ f₁ <;> by_cases hx₂ : x ∈ f₂ <;> simp [hx₁, hx₂]
  · rw [List.mem_append, not_or] at hx
    rw [h₂.nextReady x hx.2, h₁.nextReady x hx.1]
  · rw [h₂.queues.tqNext, h₁.queues.tqNext]
  · rw [h₂.queues.tqPrev, h₁.queues.tqPrev]
  · rw [h₂.queues.tqHead, h₁.queues.tqHead]
  · rw [h₂.queues.msec, h₁.queues.msec]
  · rw [h₂.queues.tqMapFn, h₁.queues.tqMapFn]
  · rw [h₂.queues.tqMap, h₁.queues.tqMap]
  · rw [h₂.tq, h₁.tq]
  · rw [h₂.registered, h₁.registered]
  · rw [h₂.evFree, h₁.evFree]
  · rw [h₂.evReady, h₁.evReady]
  · rw [h₂.now, h₁.now]

theorem Fired.nil (q : Evq) (deadline : ℕ → ℤ) : Fired q q [] deadline :=
  ⟨by simp, by simp, fun _ _ => rfl, ⟨rfl, rfl, rfl, rfl, rfl, rfl⟩, rfl, rfl, rfl, rfl, rfl⟩

theorem Fired.congr {q q' : Evq} {f : List ℕ} {deadline deadline' : ℕ → ℤ}
    (h : Fired q q' f deadline) (heq : ∀ ev ∈ f, deadline' ev = deadline ev) :
    Fired q q' f deadline' :=
  { h with
    timeoutAt := fun ev => by
      rw [h.timeoutAt]
      by_cases hev : ev ∈ f
      · rw [if_pos hev, if_pos hev, heq ev hev]
      · rw [if_neg hev, if_neg hev] }

/-- The order of the marked events does not matter. -/
theorem Fired.of_mem_iff {q q' : Evq} {f f' : List ℕ} {deadline : ℕ → ℤ}
    (h : Fired q q' f deadline) (hiff : ∀ ev, ev ∈ f ↔ ev ∈ f') : Fired q q' f' deadline :=
  { h with
    timeoutAt := fun ev => by rw [h.timeoutAt ev]; simp only [hiff]
    flags := fun ev => by rw [h.flags ev]; simp only [hiff]
    nextReady := fun ev hev => h.nextReady ev fun hmem => hev ((hiff ev).mp hmem) }

/-- The longest first part of a list with a property. -/
theorem takeWhile_append_eq {p : ℕ → Bool} {f rest : List ℕ} (hf : ∀ x ∈ f, p x = true)
    (hrest : ∀ x, rest.head? = some x → p x = false) : (f ++ rest).takeWhile p = f := by
  rw [List.takeWhile_append_of_pos hf]
  cases rest with
  | nil => simp
  | cons b rest => simp [hrest b rfl]

theorem takeWhile_congr {p p' : ℕ → Bool} {l : List ℕ} (h : ∀ x ∈ l, p x = p' x) :
    l.takeWhile p = l.takeWhile p' := by
  induction l with
  | nil => rfl
  | cons a l ih =>
      rw [List.takeWhile_cons, List.takeWhile_cons, h a (by simp), ih fun x hx => h x (by simp [hx])]

theorem exists_bound (f : ℕ → ℕ) (l : List ℕ) : ∃ N, ∀ t ∈ l, f t ≤ N := by
  induction l with
  | nil => exact ⟨0, by simp⟩
  | cons a l ih =>
      obtain ⟨N, hN⟩ := ih
      refine ⟨N + f a, fun t ht => ?_⟩
      rcases List.mem_cons.mp ht with rfl | ht
      · omega
      · exact le_trans (hN t ht) (by omega)

section Process

variable {timely : Prop} {q q' : Evq} {latest now : ℤ} {tqs : List ℕ} {evs : ℕ → List ℕ} {t ev : ℕ}

/-- The inner loop marks the events that are due and stops at the first one that is
not; the marked ones stand before the ready events, the last one first. -/
theorem timeoutFire_spec (deadline timeout : ℤ) {fuel a : ℕ} {l : List ℕ} (r : Option ℕ)
    (hpath : Path some q.next (some a) (a :: l) none) (hfuel : l.length < fuel) :
    ∃ q' f rest last, timeoutFire deadline timeout fuel q a r = some (q', last, rest.head?) ∧
      a :: l = f ++ rest ∧ f.head? = some a ∧ f.getLast? = some last ∧
      (∀ b ∈ f.tail, q.timeoutAt b < timeout) ∧
      (∀ b, rest.head? = some b → timeout ≤ q.timeoutAt b) ∧
      Path some q'.nextReady (some last) f.reverse r ∧
      Fired q q' f (fun _ => deadline) ∧ q'.next = q.next ∧ q'.prev = q.prev ∧
      q'.evHead = q.evHead ∧ q'.evTail = q.evTail := by
  induction fuel generalizing q a l r with
  | zero => omega
  | succ fuel ih =>
      obtain ⟨q₁, hq₁⟩ : ∃ q₁, q₁ =
          { q with
            flags := Function.update q.flags a
              { q.flags a with active := true, timeoutRes := true }
            timeoutAt := Function.update q.timeoutAt a deadline
            nextReady := Function.update q.nextReady a r } := ⟨_, rfl⟩
      have hone : Fired q q₁ [a] (fun _ => deadline) := by
        subst hq₁
        refine ⟨fun x => ?_, fun x => ?_, fun x hx => ?_, ⟨rfl, rfl, rfl, rfl, rfl, rfl⟩, rfl, rfl, rfl,
          rfl, rfl⟩
        · by_cases hx : x = a <;> simp [hx]
        · by_cases hx : x = a
          · subst hx
            simp
          · simp [hx]
        · exact Function.update_of_ne (by simpa using hx) _ _
      have hready : q₁.nextReady a = r := by simp [hq₁]
      have hsame : q₁.next = q.next ∧ q₁.prev = q.prev ∧ q₁.evHead = q.evHead ∧
          q₁.evTail = q.evTail := by simp [hq₁]
      have hnone : q₁.next a = none →
          timeoutFire deadline timeout (fuel + 1) q a r = some (q₁, a, none) := by
        intro hnext
        rw [timeoutFire, ← hq₁, hnext]
      have hsome : ∀ b, q₁.next a = some b → timeoutFire deadline timeout (fuel + 1) q a r =
          if q₁.timeoutAt b < timeout then timeoutFire deadline timeout fuel q₁ b (some a)
          else some (q₁, a, some b) := by
        intro b hnext
        rw [timeoutFire, ← hq₁, hnext]
      have hnd := hpath.nodup
      cases l with
      | nil =>
          have hnext : q₁.next a = none := hsame.1 ▸ hpath.2
          exact ⟨q₁, [a], [], a, hnone hnext, rfl, rfl, rfl, by simp, by simp,
            ⟨rfl, hready⟩, hone, hsame⟩
      | cons b l =>
          have hnext : q₁.next a = some b := hsame.1 ▸ hpath.2.1
          have hba : b ≠ a := by
            rintro rfl
            simp at hnd
          have htb : q₁.timeoutAt b = q.timeoutAt b := by
            rw [hone.timeoutAt, if_neg (by simpa using hba)]
          by_cases hdue : q.timeoutAt b < timeout
          · have hpath₁ : Path some q₁.next (some b) (b :: l) none := by
              rw [hsame.1]
              exact ⟨rfl, hpath.2.2⟩
            obtain ⟨q', f, rest, last, hrun, hsplit, hhead, hlast, hdues, hrest, hpath', hfired,
              hsame'⟩ := ih (some a) hpath₁ (by simpa using hfuel)
            have haf : a ∉ f ++ rest := hsplit ▸ (List.nodup_cons.mp hnd).1
            have hmem : ∀ x ∈ f ++ rest, q₁.timeoutAt x = q.timeoutAt x := by
              intro x hx
              rw [hone.timeoutAt, if_neg]
              rw [List.mem_singleton]
              rintro rfl
              exact haf hx
            refine ⟨q', a :: f, rest, last, ?_, by simp [hsplit], rfl, ?_, ?_, ?_, ?_, ?_, ?_⟩
            · rw [hsome b hnext]
              simp only [htb, if_pos hdue]
              exact hrun
            · rw [List.getLast?_cons, hlast]
              rfl
            · intro x hx
              rw [List.tail_cons] at hx
              obtain ⟨f', rfl⟩ : ∃ f', f = b :: f' := by
                cases f with
                | nil => simp at hhead
                | cons c f' => exact ⟨f', by simpa using hhead⟩
              rcases List.mem_cons.mp hx with rfl | hx
              · exact hdue
              · rw [← hmem x (by simp [hx])]
                exact hdues x hx
            · intro x hx
              rw [← hmem x (List.mem_append_right _ (List.mem_of_mem_head? hx))]
              exact hrest x hx
            · rw [List.reverse_cons, path_append]
              exact ⟨some a, hpath', rfl,
                (hfired.nextReady a (fun ha => haf (List.mem_append_left _ ha))).trans hready⟩
            · exact hone.trans hfired
            · exact ⟨hsame'.1.trans hsame.1, hsame'.2.1.trans hsame.2.1,
                hsame'.2.2.1.trans hsame.2.2.1, hsame'.2.2.2.trans hsame.2.2.2⟩
          · refine ⟨q₁, [a], b :: l, a, ?_, rfl, rfl, rfl, by simp, ?_, ⟨rfl, hready⟩, hone, hsame⟩
            · rw [hsome b hnext]
              simp only [htb, if_neg hdue]
              rfl
            · intro x hx
              obtain rfl : b = x := by simpa using hx
              exact not_lt.mp hdue

/-- The marked events go behind the others, with the latest deadline. -/
theorem TimeoutRep.recycle (h : TimeoutRep timely q latest tqs evs) (hle : timely → latest ≤ now) (ht : t ∈ tqs)
    {f rest : List ℕ} (hsplit : evs t = f ++ rest)
    (hfired : Fired q q' f fun _ => msecAdd now (q.msec t))
    (hov : timely → NoOverflow now (q.msec t))
    (hlist : DList q'.next q'.prev (q'.evHead t) (q'.evTail t) (rest ++ f))
    (hends : ∀ t', t' ≠ t → q'.evHead t' = q.evHead t' ∧ q'.evTail t' = q.evTail t')
    (hlinks : ∀ ev, q.tq ev ≠ some t → q'.next ev = q.next ev ∧ q'.prev ev = q.prev ev) :
    TimeoutRep timely q' now tqs (Function.update evs t (rest ++ f)) := by
  have hmem : ∀ ev, ev ∈ rest ++ f ↔ ev ∈ evs t := by
    intro ev
    rw [hsplit, List.mem_append, List.mem_append, or_comm]
  have hnd := (h.lists t ht).nodup
  rw [hsplit] at hnd
  have hdisj : ∀ ev ∈ rest, ev ∉ f := fun ev hr hf =>
    (List.nodup_append.mp hnd).2.2 ev hf ev hr rfl
  have hfat : ∀ ev ∈ f, q'.timeoutAt ev = msecAdd now (q.msec t) := fun ev hev => by
    rw [hfired.timeoutAt, if_pos hev]
  have hrat : ∀ ev, ev ∉ f → q'.timeoutAt ev = q.timeoutAt ev := fun ev hev => by
    rw [hfired.timeoutAt, if_neg hev]
  have hrle : timely → ∀ ev ∈ rest, q.timeoutAt ev ≤ msecAdd now (q.msec t) := by
    intro htimely ev hev
    rw [msecAdd_eq (hov htimely)]
    exact (h.mono hle).deadline_le htimely t ht ev ((hmem ev).mp (List.mem_append_left _ hev))
  have hnf : ∀ ev, q.tq ev ≠ some t → ev ∉ f := fun ev hne hf =>
    hne ((h.tq_iff ev t).mpr ⟨ht, (hmem ev).mp (List.mem_append_right _ hf)⟩)
  refine h.replace hle ht ?_ hfired.queues hlist hends ?_ ?_ ?_ ?_ ?_
  · intro hnil
    have hne := h.nonempty t ht
    rw [List.append_eq_nil_iff] at hnil
    rw [hsplit, hnil.1, hnil.2] at hne
    exact hne rfl
  · intro ev hne _
    exact ⟨(hlinks ev hne).1, (hlinks ev hne).2, hrat ev (hnf ev hne)⟩
  · exact fun ev hev => Or.inl ((h.tq_iff ev t).mpr ⟨ht, (hmem ev).mp hev⟩)
  · intro ev t'
    rw [hfired.tq]
    by_cases htt : t' = t
    · rw [if_pos htt, htt, hmem, h.tq_iff ev t, and_iff_right ht]
    · rw [if_neg htt]
  · intro htimely
    have hsorted := h.sorted htimely t ht
    rw [hsplit, List.pairwise_append] at hsorted
    rw [List.pairwise_append]
    refine ⟨hsorted.2.1.imp_of_mem fun {a b} ha hb hab => ?_,
      List.Pairwise.imp_of_mem (fun {a b} ha hb _ => ?_) hsorted.1, fun a ha b hb => ?_⟩
    · rw [hrat a (hdisj a ha), hrat b (hdisj b hb)]
      exact hab
    · rw [hfat a ha, hfat b hb]
    · rw [hrat a (hdisj a ha), hfat b hb]
      exact hrle htimely a ha
  · intro htimely ev hev
    rw [← msecAdd_eq (hov htimely)]
    rcases List.mem_append.mp hev with hr | hf
    · rw [hrat ev (hdisj ev hr)]
      exact hrle htimely ev hr
    · rw [hfat ev hf]

/-- The assignments of "recycle timeout queue". -/
theorem timeoutRecycle_eq {b a c d : ℕ} (htail : q.evTail t = some d) :
    timeoutRecycle q t b a c = some
      { q with
        evHead := Function.update q.evHead t (some b)
        prev := Function.update (Function.update q.prev b none) a (some d)
        next := Function.update (Function.update q.next d (some a)) c none
        evTail := Function.update q.evTail t (some c) } := by
  simp [timeoutRecycle, htail]

/-- One queue of `timeout_process`: its due events are marked and stand before the
ready events. -/
theorem timeoutProcessQueue_spec (h : TimeoutRep timely q latest tqs evs) (hle : timely → latest ≤ now)
    (ht : t ∈ tqs) (hov : timely → NoOverflow now (q.msec t)) {fuel : ℕ}
    (hfuel : (evs t).length ≤ fuel)
    (r : Option ℕ) :
    ∃ q' f rest r', timeoutProcessQueue fuel q t r now = some (q', r') ∧ evs t = f ++ rest ∧
      (∀ ev ∈ f, q.timeoutAt ev < now + minTimeout) ∧
      (∀ b, rest.head? = some b → ¬q.timeoutAt b < now + minTimeout) ∧
      (timely → ∀ ev ∈ rest, ¬q.timeoutAt ev < now + minTimeout) ∧
      Path some q'.nextReady r' f.reverse r ∧ Fired q q' f (fun _ => msecAdd now (q.msec t)) ∧
      TimeoutRep timely q' now tqs (Function.update evs t (rest ++ f)) := by
  have hlist := h.lists t ht
  cases hl : evs t with
  | nil => exact absurd hl (h.nonempty t ht)
  | cons a l =>
      rw [hl] at hlist hfuel
      have hhead : q.evHead t = some a := hlist.head_eq
      -- Behind an event that is not due, no event of the queue is due.
      have hlater : ∀ f rest : List ℕ, a :: l = f ++ rest →
          (∀ b, rest.head? = some b → now + minTimeout ≤ q.timeoutAt b) →
          timely → ∀ ev ∈ rest, ¬q.timeoutAt ev < now + minTimeout := by
        intro f rest heq hrest htimely ev hev
        have hsorted := h.sorted htimely t ht
        rw [hl, heq, List.pairwise_append] at hsorted
        cases rest with
        | nil => exact absurd hev (by simp)
        | cons b rest =>
            have hb := hrest b rfl
            rcases List.mem_cons.mp hev with rfl | hev
            · exact not_lt.mpr hb
            · exact not_lt.mpr (le_trans hb ((List.pairwise_cons.mp hsorted.2.1).1 ev hev))
      by_cases hdue : q.timeoutAt a < now + minTimeout
      · obtain ⟨q₁, f, rest, last, hrun, hsplit, hfa, hlast, hdues, hrest, hpath, hfired, hn, hp, hh,
          htl⟩ := timeoutFire_spec (msecAdd now (q.msec t)) (now + minTimeout) r
            (hhead ▸ DSeg.forward hlist) hfuel
        obtain ⟨f', rfl⟩ : ∃ f', f = a :: f' := by
          cases f with
          | nil => exact absurd hfa (by simp)
          | cons c f' => exact ⟨f', by simpa using hfa⟩
        have hfdue : ∀ ev ∈ a :: f', q.timeoutAt ev < now + minTimeout := by
          intro ev hev
          rcases List.mem_cons.mp hev with rfl | hev
          · exact hdue
          · exact hdues ev hev
        cases rest with
        | nil =>
            refine ⟨q₁, a :: f', [], some last, ?_, hsplit, hfdue, by simp, by simp, hpath, hfired, ?_⟩
            · simp [timeoutProcessQueue, hhead, hdue, hrun]
            · refine h.recycle hle ht (hl.trans hsplit) hfired hov ?_ ?_ ?_
              · rw [hn, hp, hh, htl, List.nil_append, ← List.append_nil (a :: f'), ← hsplit]
                exact hlist
              · exact fun t' _ => ⟨congrFun hh t', congrFun htl t'⟩
              · exact fun ev _ => ⟨congrFun hn ev, congrFun hp ev⟩
        | cons b rest =>
            obtain ⟨d, hd⟩ : ∃ d, (b :: rest).getLast? = some d := ⟨_, List.getLast?_cons⟩
            have htail : q.evTail t = some d := by
              rw [hlist.tail_eq, hsplit, List.getLast?_append_of_ne_nil _ (by simp), hd]
            rw [hsplit] at hlist
            have hrec := timeoutRecycle_eq (b := b) (a := a) (c := last) ((congrFun htl t).trans htail)
            obtain ⟨q₂, hq₂⟩ : ∃ q₂, timeoutRecycle q₁ t b a last = some q₂ := ⟨_, hrec⟩
            rw [hrec, Option.some.injEq] at hq₂
            have hfired₂ : Fired q q₂ (a :: f') fun _ => msecAdd now (q.msec t) := by
              subst hq₂
              exact ⟨hfired.timeoutAt, hfired.flags, hfired.nextReady,
                ⟨hfired.queues.tqNext, hfired.queues.tqPrev, hfired.queues.tqHead,
                  hfired.queues.msec, hfired.queues.tqMapFn, hfired.queues.tqMap⟩,
                hfired.tq, hfired.registered, hfired.evFree, hfired.evReady, hfired.now⟩
            have hin : ∀ c ∈ evs t, q.tq c = some t := fun c hc => (h.tq_iff c t).mpr ⟨ht, hc⟩
            rw [hl, hsplit] at hin
            refine ⟨q₂, a :: f', b :: rest, some last, ?_, hsplit, hfdue,
              fun c hc => not_lt.mpr (hrest c hc), hlater _ _ hsplit hrest, ?_, hfired₂,
              h.recycle hle ht (hl.trans hsplit) hfired₂ hov ?_ ?_ ?_⟩
            · simp [timeoutProcessQueue, hhead, hdue, hrun, hrec, hq₂]
            · subst hq₂
              exact hpath
            · subst hq₂
              simp only [Function.update_self, hn, hp]
              exact (htail ▸ hlist).rotate hlast hd
            · intro t' htt
              subst hq₂
              simp only [Function.update_of_ne htt, hh, htl, and_self]
            · intro ev hne
              have hev : ∀ c ∈ a :: f' ++ b :: rest, ev ≠ c := fun c hc heq => hne (heq ▸ hin c hc)
              subst hq₂
              simp only [hn, hp]
              rw [Function.update_of_ne (hev last (List.mem_append_left _ (List.mem_of_mem_getLast? hlast))),
                Function.update_of_ne (hev d (List.mem_append_right _ (List.mem_of_mem_getLast? hd))),
                Function.update_of_ne (hev a (by simp)), Function.update_of_ne (hev b (by simp))]
              exact ⟨rfl, rfl⟩
      · refine ⟨q, [], a :: l, r, ?_, rfl, by simp, by simpa using hdue, ?_, rfl, Fired.nil q _, ?_⟩
        · simp [timeoutProcessQueue, hhead, hdue]
        · exact hlater [] (a :: l) rfl (by simpa using hdue)
        · rw [List.append_nil, ← hl, Function.update_eq_self]
          exact h.mono hle

/-- The deadline a marked event gets. -/
def rearmAt (q : Evq) (now : ℤ) (ev : ℕ) : ℤ := msecAdd now (q.msec ((q.tq ev).getD 0))

theorem TimeoutRep.rearmAt_eq (h : TimeoutRep timely q latest tqs evs) (ht : t ∈ tqs) (hev : ev ∈ evs t) :
    rearmAt q now ev = msecAdd now (q.msec t) := by
  rw [rearmAt, (h.tq_iff ev t).mpr ⟨ht, hev⟩]
  rfl

/-- The events of a queue after `timeout_process`: the first ones that are due go behind
the others. -/
def recycled (deadline : ℕ → ℤ) (now : ℤ) (l : List ℕ) : List ℕ :=
  (l.dropWhile fun x => deadline x < now + minTimeout) ++
    l.takeWhile fun x => deadline x < now + minTimeout

theorem recycled_append {deadline : ℕ → ℤ} {f rest : List ℕ}
    (hf : ∀ x ∈ f, deadline x < now + minTimeout)
    (hrest : ∀ b, rest.head? = some b → ¬deadline b < now + minTimeout) :
    recycled deadline now (f ++ rest) = rest ++ f := by
  have htake : (f ++ rest).takeWhile (fun x => deadline x < now + minTimeout) = f :=
    takeWhile_append_eq (by simpa using hf) (by simpa using hrest)
  have hdrop : (f ++ rest).dropWhile (fun x => deadline x < now + minTimeout) = rest := by
    have hboth := List.takeWhile_append_dropWhile
      (p := fun x => decide (deadline x < now + minTimeout)) (l := f ++ rest)
    rw [htake] at hboth
    exact List.append_cancel_left hboth
  rw [recycled, htake, hdrop]

theorem recycled_congr {deadline deadline' : ℕ → ℤ} {l : List ℕ}
    (h : ∀ x ∈ l, deadline' x = deadline x) : recycled deadline' now l = recycled deadline now l := by
  have htake : (l.takeWhile fun x => deadline' x < now + minTimeout) =
      l.takeWhile fun x => deadline x < now + minTimeout := by
    apply takeWhile_congr
    intro x hx
    rw [h x hx]
  have hboth := List.takeWhile_append_dropWhile
    (p := fun x => decide (deadline' x < now + minTimeout)) (l := l)
  have hboth' := List.takeWhile_append_dropWhile
    (p := fun x => decide (deadline x < now + minTimeout)) (l := l)
  rw [htake] at hboth
  rw [recycled, recycled, htake, List.append_cancel_left (hboth.trans hboth'.symm)]

/-- The list of one queue, `f ++ rest`, with its due events `f` marked; these go behind the others. -/
structure QueueFired (q q₁ : Evq) (now : ℤ) (evs : ℕ → List ℕ) (t : ℕ) (f rest : List ℕ) : Prop where
  split : evs t = f ++ rest
  due : ∀ ev ∈ f, q.timeoutAt ev < now + minTimeout
  stop : ∀ b, rest.head? = some b → ¬q.timeoutAt b < now + minTimeout
  fired : Fired q q₁ f fun _ => msecAdd now (q.msec t)

section
variable {q₁ : Evq} {f rest : List ℕ}

theorem QueueFired.mem_of (h : QueueFired q q₁ now evs t f rest) (hev : ev ∈ f) : ev ∈ evs t :=
  h.split ▸ List.mem_append_left rest hev

/-- The lists have the same events as before. -/
theorem QueueFired.mem_update (h : QueueFired q q₁ now evs t f rest) {t' : ℕ} :
    ev ∈ Function.update evs t (rest ++ f) t' ↔ ev ∈ evs t' := by
  by_cases htt : t' = t
  · rw [htt, Function.update_self, h.split, List.mem_append, List.mem_append, or_comm]
  · rw [Function.update_of_ne htt]

theorem QueueFired.length_update (h : QueueFired q q₁ now evs t f rest) (t' : ℕ) :
    (Function.update evs t (rest ++ f) t').length = (evs t').length := by
  by_cases htt : t' = t
  · rw [htt, Function.update_self, h.split, List.length_append, List.length_append, Nat.add_comm]
  · rw [Function.update_of_ne htt]

/-- The events of the other queues have not been touched. -/
theorem QueueFired.untouched (hf : QueueFired q q₁ now evs t f rest)
    (h : TimeoutRep timely q latest tqs evs) (ht : t ∈ tqs) {t' : ℕ} (ht' : t' ∈ tqs)
    (hne : t' ≠ t) (hev : ev ∈ evs t') : ev ∉ f ∧ q₁.timeoutAt ev = q.timeoutAt ev := by
  have hnf : ev ∉ f := by
    intro hmem
    have h₁ := (h.tq_iff ev t).mpr ⟨ht, hf.mem_of hmem⟩
    have h₂ := (h.tq_iff ev t').mpr ⟨ht', hev⟩
    exact hne (Option.some.inj (h₂.symm.trans h₁))
  exact ⟨hnf, by rw [hf.fired.timeoutAt, if_neg hnf]⟩

/-- The deadline of the marked events is the one of their queue. -/
theorem QueueFired.rearmed (hf : QueueFired q q₁ now evs t f rest)
    (h : TimeoutRep timely q latest tqs evs) (ht : t ∈ tqs) : Fired q q₁ f (rearmAt q now) :=
  hf.fired.congr fun _ hev => h.rearmAt_eq ht (hf.mem_of hev)

theorem QueueFired.rearmAt_eq (h : QueueFired q q₁ now evs t f rest) :
    rearmAt q₁ now = rearmAt q now := by
  funext ev
  rw [rearmAt, rearmAt, h.fired.tq, h.fired.queues.msec]

/-- The marked events are those up to the first one that is not due. -/
theorem QueueFired.takeWhile_eq (h : QueueFired q q₁ now evs t f rest) :
    (evs t).takeWhile (fun x => q.timeoutAt x < now + minTimeout) = f := by
  rw [h.split]
  exact takeWhile_append_eq (by simpa using h.due) (by simpa using h.stop)

theorem QueueFired.recycled_eq (h : QueueFired q q₁ now evs t f rest) :
    recycled q.timeoutAt now (evs t) = rest ++ f := by
  rw [h.split, recycled_append h.due h.stop]

end

/-- What `timeout_process` does from the queues `m` on: the events fired are the due ones, and they
stand, each once, before the ready events. -/
structure Processed (timely : Prop) (now : ℤ) (tqs : List ℕ) (q q' : Evq) (evs evs' : ℕ → List ℕ)
    (m fired : List ℕ) (r r' : Option ℕ) : Prop where
  must : ∀ ev ∈ fired, ∃ t ∈ m, ev ∈ evs t ∧ q.timeoutAt ev < now + minTimeout
  all : timely → ∀ t ∈ m, ∀ ev ∈ evs t, q.timeoutAt ev < now + minTimeout → ev ∈ fired
  nodup : fired.Nodup
  path : Path some q'.nextReady r' fired r
  marked : Fired q q' fired (rearmAt q now)
  evs_eq : ∀ t, evs' t = if t ∈ m then recycled q.timeoutAt now (evs t) else evs t
  rep : TimeoutRep timely q' now tqs evs'
  mem_iff : ∀ ev, ev ∈ fired ↔
    ∃ t ∈ m, ev ∈ (evs t).takeWhile fun x => q.timeoutAt x < now + minTimeout

theorem Processed.nil (h : TimeoutRep timely q now tqs evs) (r : Option ℕ) :
    Processed timely now tqs q q evs evs [] [] r r :=
  ⟨by simp, by simp, List.nodup_nil, rfl, Fired.nil q _, by simp, h, by simp⟩

/-- One queue more, in front of the others. -/
theorem Processed.cons {q₁ : Evq} {evs' : ℕ → List ℕ} {m f rest fired : List ℕ} {r r₁ r' : Option ℕ}
    (h : TimeoutRep timely q now tqs evs) (ht : t ∈ tqs) (htm : ∀ t' ∈ m, t' ∈ tqs ∧ t' ≠ t)
    (hf : QueueFired q q₁ now evs t f rest)
    (hrest : timely → ∀ ev ∈ rest, ¬q.timeoutAt ev < now + minTimeout)
    (hpath : Path some q₁.nextReady r₁ f.reverse r)
    (hp : Processed timely now tqs q₁ q' (Function.update evs t (rest ++ f)) evs' m fired r₁ r') :
    Processed timely now tqs q q' evs evs' (t :: m) (fired ++ f.reverse) r r' := by
  have hlater : ∀ t' ∈ m, ∀ ev ∈ evs t', ev ∉ f ∧ q₁.timeoutAt ev = q.timeoutAt ev :=
    fun t' ht' _ hev => hf.untouched h ht (htm t' ht').1 (htm t' ht').2 hev
  have hmust : ∀ ev ∈ fired, ∃ t' ∈ m, ev ∈ evs t' ∧ q.timeoutAt ev < now + minTimeout := by
    intro ev hev
    obtain ⟨t', ht', hmem, hdue⟩ := hp.must ev hev
    rw [hf.mem_update] at hmem
    exact ⟨t', ht', hmem, (hlater t' ht' ev hmem).2 ▸ hdue⟩
  have hdisj : ∀ ev ∈ f, ev ∉ fired := by
    intro ev hev hev'
    obtain ⟨t', ht', hmem, -⟩ := hmust ev hev'
    exact (hlater t' ht' ev hmem).1 hev
  constructor
  case must =>
    intro ev hev
    rcases List.mem_append.mp hev with hev | hev
    · obtain ⟨t', ht', hmem⟩ := hmust ev hev
      exact ⟨t', List.mem_cons_of_mem _ ht', hmem⟩
    · rw [List.mem_reverse] at hev
      exact ⟨t, List.mem_cons_self, hf.mem_of hev, hf.due ev hev⟩
  case all =>
    intro htimely t' ht' ev hev hdue
    rw [List.mem_append, List.mem_reverse]
    rcases List.mem_cons.mp ht' with rfl | ht'
    · rcases List.mem_append.mp (hf.split ▸ hev) with hff | hr
      · exact Or.inr hff
      · exact absurd hdue (hrest htimely ev hr)
    · refine Or.inl (hp.all htimely t' ht' ev (hf.mem_update.mpr hev) ?_)
      rw [(hlater t' ht' ev hev).2]
      exact hdue
  case nodup =>
    rw [List.nodup_append]
    have hnd := (h.lists t ht).nodup
    rw [hf.split, List.nodup_append] at hnd
    refine ⟨hp.nodup, List.nodup_reverse.mpr hnd.1, fun a ha b hb hab => ?_⟩
    exact hdisj b (List.mem_reverse.mp hb) (hab ▸ ha)
  case path =>
    refine path_append.mpr ⟨r₁, hp.path, (path_congr fun ev hev => ?_).mp hpath⟩
    exact (hp.marked.nextReady ev (hdisj ev (List.mem_reverse.mp hev))).symm
  case marked =>
    refine ((hf.rearmed h ht).trans (hf.rearmAt_eq ▸ hp.marked)).of_mem_iff fun ev => ?_
    rw [List.mem_append, List.mem_append, List.mem_reverse, or_comm]
  case evs_eq =>
    intro t'
    rw [hp.evs_eq]
    by_cases htt : t' = t
    · subst htt
      rw [if_neg fun hmem => (htm t' hmem).2 rfl, if_pos List.mem_cons_self, Function.update_self,
        hf.recycled_eq]
    · rw [Function.update_of_ne htt]
      by_cases ht' : t' ∈ m
      · rw [if_pos ht', if_pos (List.mem_cons_of_mem t ht'),
          recycled_congr fun x hx => (hlater t' ht' x hx).2]
      · rw [if_neg ht', if_neg (by simp [htt, ht'])]
  case rep => exact hp.rep
  case mem_iff =>
    intro ev
    have hothers : ∀ t' ∈ m,
        (Function.update evs t (rest ++ f) t').takeWhile
          (fun x => q₁.timeoutAt x < now + minTimeout) =
        (evs t').takeWhile fun x => q.timeoutAt x < now + minTimeout := by
      intro t' ht'
      rw [Function.update_of_ne (htm t' ht').2]
      refine takeWhile_congr fun x hx => ?_
      rw [(hlater t' ht' x hx).2]
    rw [List.mem_append, List.mem_reverse, hp.mem_iff]
    constructor
    · rintro (⟨t', ht', hmem⟩ | hmem)
      · exact ⟨t', List.mem_cons_of_mem _ ht', hothers t' ht' ▸ hmem⟩
      · exact ⟨t, List.mem_cons_self, hf.takeWhile_eq.symm ▸ hmem⟩
    · rintro ⟨t', ht', hmem⟩
      rcases List.mem_cons.mp ht' with rfl | ht'
      · exact Or.inr (hf.takeWhile_eq ▸ hmem)
      · exact Or.inl ⟨t', ht', (hothers t' ht').symm ▸ hmem⟩

/-- `timeout_process` from one of the queues on. -/
theorem timeoutProcess_spec {m₁ m₂ : List ℕ} {fuel N : ℕ} (h : TimeoutRep timely q now tqs evs)
    (hsplit : tqs = m₁ ++ m₂) (hov : timely → ∀ t ∈ tqs, NoOverflow now (q.msec t))
    (hN : ∀ t ∈ tqs, (evs t).length ≤ N) (hfuel : m₂.length + N < fuel) (r : Option ℕ) :
    ∃ q' evs' fired r', timeoutProcess fuel q m₂.head? r now = some (q', r') ∧
      Processed timely now tqs q q' evs evs' m₂ fired r r' := by
  induction m₂ generalizing m₁ fuel q evs r with
  | nil =>
      obtain ⟨fuel, rfl⟩ := Nat.exists_eq_add_of_lt hfuel
      exact ⟨q, evs, [], r, by simp [timeoutProcess], Processed.nil h r⟩
  | cons t m₂ ih =>
      obtain ⟨fuel, rfl⟩ : ∃ k, fuel = k + 1 := ⟨fuel - 1, by omega⟩
      rw [List.length_cons] at hfuel
      have ht : t ∈ tqs := by simp [hsplit]
      have htm : t ∉ m₂ := by
        have hnd := h.tqs_nodup
        rw [hsplit, List.nodup_append] at hnd
        exact (List.nodup_cons.mp hnd.2.1).1
      have hm : ∀ t' ∈ m₂, t' ∈ tqs ∧ t' ≠ t := fun t' ht' =>
        ⟨by simp [hsplit, ht'], fun heq => htm (heq ▸ ht')⟩
      have htfuel : (evs t).length ≤ fuel := by
        have htN := hN t ht
        omega
      obtain ⟨q₁, f, rest, r₁, hrun, hf, hfdue, hstop, hrest, hpath, hfired, hrep⟩ :=
        timeoutProcessQueue_spec h (fun _ => le_rfl) ht (fun htimely => hov htimely t ht) htfuel r
      have hqueue : QueueFired q q₁ now evs t f rest := ⟨hf, hfdue, hstop, hfired⟩
      have hov₁ : timely → ∀ t' ∈ tqs, NoOverflow now (q₁.msec t') := by
        rw [hfired.queues.msec]
        exact hov
      have hN₁ : ∀ t' ∈ tqs, (Function.update evs t (rest ++ f) t').length ≤ N :=
        fun t' ht' => hqueue.length_update t' ▸ hN t' ht'
      obtain ⟨q', evs', fired, r', hrun', hp⟩ :=
        @ih q₁ _ (m₁ ++ [t]) fuel hrep (by simp [hsplit]) hov₁ hN₁ (by omega) r₁
      refine ⟨q', evs', fired ++ f.reverse, r', ?_, hp.cons h ht hm hqueue hrest hpath⟩
      have hnext : q₁.tqNext t = m₂.head? := by
        obtain ⟨tail, hqs⟩ := h.queues
        rw [hfired.queues.tqNext]
        exact DList.next_eq (hsplit ▸ hqs)
      simp [timeoutProcess, hrun, hnext, hrun']

end Process

end LuaSys.Event
