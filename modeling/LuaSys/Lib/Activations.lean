import Mathlib.Data.List.Nodup
import Mathlib.Logic.Function.Basic

/-!
# Activations and locks

A thread is a stack of activations.  The one on top is running, the ones below are
interrupted or wait for a callee.  An activation holds at most one lock, and the locks are not
recursive: a thread that waits for a lock which it holds itself waits for ever.

What an activation may still lock, in itself or in its callees, is a relation `mayLock`.  If
no activation may lock what one below it holds, a thread does not wait for itself.

## Main definitions

* `Activations` — the owners of the locks and the stacks of the threads.
* `Activations.Wf` — the owners are those that the stacks tell, and the activations are in
  order.

## Main results

* `Wf.setStack`, `Wf.lock`, `Wf.unlock` — the steps of a thread.
* `Wf.owner_ne` — the running activation may lock only what its thread does not hold.
-/

namespace LuaSys.Lib

/-- The owners of the locks, and the activations of the threads, the running one first. -/
structure Activations (θ φ ℓ : Type*) where
  owner : ℓ → Option θ
  stack : θ → List φ

namespace Activations

variable {θ φ ℓ : Type*}

/-- The locks are free and no function is running. -/
def init : Activations θ φ ℓ where
  owner _ := none
  stack _ := []

section

variable [DecidableEq θ] [DecidableEq ℓ]

/-- The activations of a thread change. -/
def setStack (a : Activations θ φ ℓ) (t : θ) (st : List φ) : Activations θ φ ℓ :=
  { a with stack := Function.update a.stack t st }

/-- A thread locks, with its activations after that. -/
def lock (a : Activations θ φ ℓ) (t : θ) (l : ℓ) (st : List φ) : Activations θ φ ℓ where
  owner := Function.update a.owner l (some t)
  stack := Function.update a.stack t st

/-- A thread unlocks, with its activations after that. -/
def unlock (a : Activations θ φ ℓ) (t : θ) (l : ℓ) (st : List φ) : Activations θ φ ℓ where
  owner := Function.update a.owner l none
  stack := Function.update a.stack t st

end

/-- No activation may lock what one below it holds. -/
def Below (holds : φ → Option ℓ) (mayLock : φ → ℓ → Prop) (st : List φ) : Prop :=
  st.Pairwise fun f f' => ∀ l, mayLock f l → holds f' ≠ some l

/-- The stacks tell the owners, a lock is held once, and the activations are in order. -/
structure Wf (holds : φ → Option ℓ) (mayLock : φ → ℓ → Prop) (a : Activations θ φ ℓ) :
    Prop where
  owner_iff : ∀ l t, a.owner l = some t ↔ l ∈ (a.stack t).filterMap holds
  nodup : ∀ t, ((a.stack t).filterMap holds).Nodup
  below : ∀ t, Below holds mayLock (a.stack t)

variable {holds : φ → Option ℓ} {mayLock mayLock' : φ → ℓ → Prop} {a : Activations θ φ ℓ}
  {t u : θ} {l : ℓ} {f f' c : φ} {st : List φ}

theorem wf_init : (init : Activations θ φ ℓ).Wf holds mayLock where
  owner_iff l t := by simp [init]
  nodup t := List.nodup_nil
  below t := List.Pairwise.nil

/-! ## Order -/

theorem Below.tail (h : Below holds mayLock (f :: st)) : Below holds mayLock st :=
  (List.pairwise_cons.mp h).2

/-- The running activation goes on. -/
theorem Below.goto (h : Below holds mayLock (f :: st)) (hf : ∀ l, mayLock f' l → mayLock f l) :
    Below holds mayLock (f' :: st) := by
  obtain ⟨hfirst, hrest⟩ := List.pairwise_cons.mp h
  exact List.pairwise_cons.mpr ⟨fun g hg l hl => hfirst g hg l (hf l hl), hrest⟩

/-- The running activation calls a function. -/
theorem Below.call (h : Below holds mayLock (f :: st)) (hc : ∀ l, mayLock c l → mayLock f l)
    (hf : ∀ l, mayLock c l → holds f ≠ some l) : Below holds mayLock (c :: f :: st) := by
  obtain ⟨hfirst, -⟩ := List.pairwise_cons.mp h
  refine List.pairwise_cons.mpr ⟨fun g hg l hl => ?_, h⟩
  rcases List.mem_cons.mp hg with rfl | hg
  · exact hf l hl
  · exact hfirst g hg l (hc l hl)

theorem below_singleton : Below holds mayLock [f] := List.pairwise_singleton _ _

/-! ## Owners -/

theorem Wf.owner_of_mem (h : a.Wf holds mayLock) (hf : f ∈ a.stack t) (hl : holds f = some l) :
    a.owner l = some t :=
  (h.owner_iff l t).mpr (List.mem_filterMap.mpr ⟨f, hf, hl⟩)

/-- A lock that the running activation holds is held by no other one. -/
theorem Wf.eq_of_holds (h : a.Wf holds mayLock) (hst : a.stack t = f :: st)
    (hf : holds f = some l) (hmem : f' ∈ a.stack u) (hf' : holds f' = some l) : f' = f := by
  have htop : f ∈ a.stack t := hst ▸ List.mem_cons_self
  obtain rfl : t = u :=
    Option.some.inj ((h.owner_of_mem htop hf).symm.trans (h.owner_of_mem hmem hf'))
  have hnodup := h.nodup t
  rw [hst] at hmem hnodup
  rw [List.filterMap_cons_some hf, List.nodup_cons] at hnodup
  refine (List.mem_cons.mp hmem).resolve_right fun hrest => hnodup.1 ?_
  exact List.mem_filterMap.mpr ⟨f', hrest, hf'⟩

/-- **A thread does not wait for itself**: what the running activation may lock and does not
hold, its thread does not own. -/
theorem Wf.owner_ne (h : a.Wf holds mayLock) (hst : a.stack t = f :: st) (hmay : mayLock f l)
    (hf : holds f ≠ some l) : a.owner l ≠ some t := by
  intro howner
  have hmem := (h.owner_iff l t).mp howner
  have hbelow := h.below t
  rw [hst] at hmem hbelow
  obtain ⟨g, hg, hl⟩ := List.mem_filterMap.mp hmem
  rcases List.mem_cons.mp hg with rfl | hg
  · exact hf hl
  · exact (List.pairwise_cons.mp hbelow).1 g hg l hmay hl

/-- What the activations may lock changes, but not for the locks that are held below. -/
theorem Wf.mono (h : a.Wf holds mayLock) (hmay : ∀ t, ∀ f ∈ a.stack t, ∀ f' ∈ a.stack t,
    ∀ l, mayLock' f l → holds f' = some l → mayLock f l) : a.Wf holds mayLock' where
  owner_iff := h.owner_iff
  nodup := h.nodup
  below t := (h.below t).imp_of_mem fun hf hf' hlt l hl heq =>
    hlt l (hmay t _ hf _ hf' l hl heq) heq

/-! ## Steps of a thread -/

variable [DecidableEq θ]

/-- The activations of one thread are exchanged, and the owners fit the new ones. -/
theorem Wf.exchange (h : a.Wf holds mayLock) {owner : ℓ → Option θ}
    (hself : ∀ l, owner l = some t ↔ l ∈ st.filterMap holds)
    (hothers : ∀ l u, u ≠ t → (owner l = some u ↔ a.owner l = some u))
    (hnodup : (st.filterMap holds).Nodup) (hst : Below holds mayLock st) :
    Wf holds mayLock ⟨owner, Function.update a.stack t st⟩ := by
  constructor
  · intro l u
    by_cases hu : u = t
    · subst hu
      simpa only [Function.update_self] using hself l
    · simpa only [Function.update_of_ne hu, ← h.owner_iff l u] using hothers l u hu
  · intro u
    by_cases hu : u = t
    · subst hu
      simpa only [Function.update_self] using hnodup
    · simpa only [Function.update_of_ne hu] using h.nodup u
  · intro u
    by_cases hu : u = t
    · subst hu
      simpa only [Function.update_self] using hst
    · simpa only [Function.update_of_ne hu] using h.below u

/-- A thread holds the same locks as before. -/
theorem Wf.setStack (h : a.Wf holds mayLock)
    (hheld : st.filterMap holds = (a.stack t).filterMap holds)
    (hst : Below holds mayLock st) : (a.setStack t st).Wf holds mayLock :=
  h.exchange (fun l => hheld ▸ h.owner_iff l t) (fun _ _ _ => Iff.rfl) (hheld ▸ h.nodup t) hst

variable [DecidableEq ℓ]

/-- A thread gets a free lock. -/
theorem Wf.lock (h : a.Wf holds mayLock) (hfree : a.owner l = none)
    (hheld : st.filterMap holds = l :: (a.stack t).filterMap holds)
    (hst : Below holds mayLock st) : (a.lock t l st).Wf holds mayLock := by
  have hnot : l ∉ (a.stack t).filterMap holds := fun hmem =>
    absurd ((h.owner_iff l t).mpr hmem) (by simp [hfree])
  refine h.exchange (fun k => ?_) (fun k u hu => ?_) ?_ hst
  · rw [hheld, List.mem_cons]
    by_cases hk : k = l
    · simp [hk]
    · simp [hk, h.owner_iff k t]
  · by_cases hk : k = l
    · subst hk
      simp [hfree, hu.symm]
    · rw [Function.update_of_ne hk]
  · rw [hheld]
    exact List.nodup_cons.mpr ⟨hnot, h.nodup t⟩

/-- A thread gives up a lock. -/
theorem Wf.unlock (h : a.Wf holds mayLock)
    (hheld : (a.stack t).filterMap holds = l :: st.filterMap holds)
    (hst : Below holds mayLock st) : (a.unlock t l st).Wf holds mayLock := by
  have hnodup := h.nodup t
  rw [hheld, List.nodup_cons] at hnodup
  have howner : a.owner l = some t := (h.owner_iff l t).mpr (hheld ▸ List.mem_cons_self)
  refine h.exchange (fun k => ?_) (fun k u hu => ?_) hnodup.2 hst
  · by_cases hk : k = l
    · subst hk
      simp [hnodup.1]
    · rw [Function.update_of_ne hk, h.owner_iff k t, hheld, List.mem_cons, or_iff_right hk]
  · by_cases hk : k = l
    · subst hk
      simp [howner, hu.symm]
    · rw [Function.update_of_ne hk]

end Activations

end LuaSys.Lib
