import Mathlib.Data.List.Induction
import Mathlib.Logic.Relation

/-!
# Runs of a step function

A system with a step function `step : σ → ι → Option σ` takes one operation at a time,
and `none` means that the operation does not apply.

## Main definitions

* `runOps step s ops` — the state after the operations `ops`.
* `SafeSteps` — a condition on the steps of a list of operations, to be evaluated.
* `SafeAlong` — two systems take the operations, and each is safe for both.
* `labels step label s ops` — the operations of another system that those of a run stand for.

## Main results

* `reach_of_runOps` — a list of operations is a run.
* `inv_of_reach` — what every step keeps holds in every state reached.
* `inv_of_safe` — what every safe step keeps holds all along a run of safe steps.
* `forall_runOps_iff` — a property holds all along a run if and only if every step of the
  run is of the kind that keeps it.
* `forall_steps_cons` — a condition on the steps of a run, one step after the other.
* `SafeSteps.forall_steps`, `SafeSteps.reach` — the condition that has been evaluated.
* `runOps_simulates` — if every safe step of one system is a step of the other, so is every run.
* `runOps_labels` — if every step stands for a run of the other system, so does every run.
-/

namespace LuaSys.Lib

open Relation

variable {σ ι : Type*} {step : σ → ι → Option σ} {R : σ → σ → Prop} {s s' : σ}

/-- Perform the operations in order. -/
def runOps (step : σ → ι → Option σ) (s : σ) (ops : List ι) : Option σ := ops.foldlM step s

theorem runOps_cons {op : ι} {ops : List ι} (h : runOps step s (op :: ops) = some s') :
    ∃ s₁, step s op = some s₁ ∧ runOps step s₁ ops = some s' := by
  rw [runOps, List.foldlM_cons] at h
  exact Option.bind_eq_some_iff.mp h

theorem runOps_singleton (step : σ → ι → Option σ) (s : σ) (op : ι) :
    runOps step s [op] = step s op := by
  rw [runOps, List.foldlM_cons]
  exact bind_pure (step s op)

theorem runOps_append {ops ops' : List ι} (h : runOps step s (ops ++ ops') = some s') :
    ∃ s₁, runOps step s ops = some s₁ ∧ runOps step s₁ ops' = some s' := by
  rw [runOps, List.foldlM_append] at h
  exact Option.bind_eq_some_iff.mp h

theorem runOps_concat {op : ι} {ops : List ι} (h : runOps step s (ops ++ [op]) = some s') :
    ∃ s₁, runOps step s ops = some s₁ ∧ step s₁ op = some s' := by
  obtain ⟨s₁, hops, hop⟩ := runOps_append h
  obtain ⟨s₂, hop, hnil⟩ := runOps_cons hop
  exact ⟨s₁, hops, Option.some.inj hnil ▸ hop⟩

theorem runOps_trans {s₁ : σ} {ops ops' : List ι} (h : runOps step s ops = some s₁)
    (h' : runOps step s₁ ops' = some s') : runOps step s (ops ++ ops') = some s' := by
  rw [runOps, List.foldlM_append]
  exact Option.bind_eq_some_iff.mpr ⟨s₁, h, h'⟩

/-- Operations that all have a property lead from state to state. -/
theorem reach_of_runOps_forall {P : ι → Prop}
    (hR : ∀ s op s', P op → step s op = some s' → R s s') {ops : List ι}
    (hops : ∀ op ∈ ops, P op) (h : runOps step s ops = some s') : ReflTransGen R s s' := by
  induction ops generalizing s with
  | nil => exact Option.some.inj h ▸ ReflTransGen.refl
  | cons op ops ih =>
      obtain ⟨s₁, hop, hrest⟩ := runOps_cons h
      have hlast : ∀ op ∈ ops, P op := fun op' hop' => hops op' (List.mem_cons_of_mem op hop')
      exact ReflTransGen.head (hR s op s₁ (hops op List.mem_cons_self) hop) (ih hlast hrest)

/-- The operations lead from state to state. -/
theorem reach_of_runOps (hR : ∀ s op s', step s op = some s' → R s s') {ops : List ι}
    (h : runOps step s ops = some s') : ReflTransGen R s s' :=
  reach_of_runOps_forall (P := fun _ => True) (fun s op s' _ => hR s op s') (fun _ _ => trivial) h

/-- An invariant of the steps holds in every state reached. -/
theorem inv_of_reach {I : σ → Prop} (hstep : ∀ s s', R s s' → I s → I s') (hinit : I s)
    (hrun : ReflTransGen R s s') : I s' := by
  induction hrun with
  | refl => exact hinit
  | tail _ hlast ih => exact hstep _ _ hlast ih

/-- What every safe step keeps holds all along a run of safe steps. -/
theorem inv_of_safe {A : σ → Prop} {Safe : σ → ι → Prop}
    (hkeep : ∀ s op s', step s op = some s' → A s → Safe s op → A s') (hinit : A s)
    {ops : List ι} (hsafe : ∀ pre op s₁ s₂, pre ++ [op] <+: ops → runOps step s pre = some s₁ →
      step s₁ op = some s₂ → A s₁ → Safe s₁ op) :
    ∀ pre s₁, pre <+: ops → runOps step s pre = some s₁ → A s₁ := by
  intro pre
  induction pre using List.reverseRecOn with
  | nil =>
      intro s₁ _ hs₁
      exact Option.some.inj hs₁ ▸ hinit
  | append_singleton pre op ih =>
      intro s₂ hpre hs₂
      obtain ⟨s₁, hs₁, hop⟩ := runOps_concat hs₂
      have hbefore : A s₁ := ih s₁ ((List.prefix_append pre [op]).trans hpre) hs₁
      exact hkeep s₁ op s₂ hop hbefore (hsafe pre op s₁ s₂ hpre hs₁ hop hbefore)

/-- **Exactly the safe runs keep a property.**  The safe steps keep an invariant `A` that
implies the property `I`, and the other steps from a state with `A` break `I`. -/
theorem forall_runOps_iff {A I : σ → Prop} {Safe : σ → ι → Prop} (hAI : ∀ s, A s → I s)
    (hkeep : ∀ s op s', step s op = some s' → A s → Safe s op → A s')
    (hbreak : ∀ s op s', step s op = some s' → A s → I s' → Safe s op) (hinit : A s)
    {ops : List ι} (hrun : runOps step s ops = some s') :
    (∀ pre s₁, pre <+: ops → runOps step s pre = some s₁ → I s₁) ↔
      ∀ pre op s₁, pre ++ [op] <+: ops → runOps step s pre = some s₁ → Safe s₁ op := by
  constructor
  · intro hall pre op s₁ hpre hs₁
    have hbefore : A s₁ := by
      refine inv_of_safe hkeep hinit (fun pre op s₁ s₂ hpre hs₁ hop hbefore => ?_) pre s₁
        ((List.prefix_append pre [op]).trans hpre) hs₁
      exact hbreak s₁ op s₂ hop hbefore (hall (pre ++ [op]) s₂ hpre (runOps_trans hs₁ (by
        rw [runOps, List.foldlM_cons, hop]
        rfl)))
    obtain ⟨ops', rfl⟩ := hpre
    obtain ⟨s₂, hs₂, -⟩ := runOps_append hrun
    obtain ⟨s₁', hs₁', hop⟩ := runOps_concat hs₂
    obtain rfl := Option.some.inj (hs₁.symm.trans hs₁')
    exact hbreak s₁ op s₂ hop hbefore (hall (pre ++ [op]) s₂ (List.prefix_append _ ops') hs₂)
  · intro hsafe pre s₁ hpre hs₁
    exact hAI s₁ (inv_of_safe hkeep hinit (fun pre op s₁ _ hpre hs₁ _ _ => hsafe pre op s₁ hpre hs₁)
      pre s₁ hpre hs₁)

/-! ## The steps of a list -/

section Steps

variable {Safe : σ → ι → Prop}

/-- A condition on the steps of the empty run. -/
theorem forall_steps_nil : ∀ pre op s₁, pre ++ [op] <+: [] → runOps step s pre = some s₁ →
    Safe s₁ op := by
  intro pre op s₁ hpre _
  exact absurd (List.prefix_nil.mp hpre) (by simp)

/-- A condition on the steps of a run, one step after the other. -/
theorem forall_steps_cons {op : ι} {ops : List ι} (hop : Safe s op)
    (hrest : ∀ s₁, step s op = some s₁ → ∀ pre op' s₂, pre ++ [op'] <+: ops →
      runOps step s₁ pre = some s₂ → Safe s₂ op') :
    ∀ pre op' s₂, pre ++ [op'] <+: op :: ops → runOps step s pre = some s₂ → Safe s₂ op' := by
  intro pre op' s₂ hpre hs₂
  cases pre with
  | nil =>
      obtain ⟨rfl, -⟩ := List.cons_prefix_cons.mp hpre
      exact Option.some.inj hs₂ ▸ hop
  | cons op₁ pre =>
      rw [List.cons_append, List.cons_prefix_cons] at hpre
      obtain ⟨rfl, hpre⟩ := hpre
      obtain ⟨s₁, hs₁, hs₂⟩ := runOps_cons hs₂
      exact hrest s₁ hs₁ pre op' s₂ hpre hs₂

/-- The operations of a list are safe, each in the state that the ones before it lead to. -/
def SafeSteps (step : σ → ι → Option σ) (Safe : σ → ι → Prop) : σ → List ι → Prop
  | _, [] => True
  | s, op :: ops => Safe s op ∧ ∀ s₁ ∈ step s op, SafeSteps step Safe s₁ ops

instance decidableSafeSteps [∀ s op, Decidable (Safe s op)] :
    ∀ (ops : List ι) (s : σ), Decidable (SafeSteps step Safe s ops)
  | [], _ => inferInstanceAs (Decidable True)
  | op :: ops, s =>
      have : ∀ s₁, Decidable (SafeSteps step Safe s₁ ops) := decidableSafeSteps ops
      inferInstanceAs (Decidable (Safe s op ∧ ∀ s₁ ∈ step s op, _))

theorem SafeSteps.forall_steps {ops : List ι} (h : SafeSteps step Safe s ops) :
    ∀ pre op s₁, pre ++ [op] <+: ops → runOps step s pre = some s₁ → Safe s₁ op := by
  induction ops generalizing s with
  | nil => exact forall_steps_nil
  | cons op ops ih => exact forall_steps_cons h.1 fun s₁ hs₁ => ih (h.2 s₁ hs₁)

/-- Safe operations lead from state to state by safe steps. -/
theorem SafeSteps.reach (hR : ∀ s op s', Safe s op → step s op = some s' → R s s') {ops : List ι}
    (h : SafeSteps step Safe s ops) (hrun : runOps step s ops = some s') : ReflTransGen R s s' := by
  induction ops generalizing s with
  | nil => exact Option.some.inj hrun ▸ ReflTransGen.refl
  | cons op ops ih =>
      obtain ⟨s₁, hop, hrest⟩ := runOps_cons hrun
      exact ReflTransGen.head (hR s op s₁ h.1 hop) (ih (h.2 s₁ hop) hrest)

end Steps

/-! ## Two systems with the same operations -/

/-- Every operation of the list is safe, in the states that both systems have come to. -/
def SafeAlong {τ : Type*} (step : σ → ι → Option σ) (step' : τ → ι → Option τ)
    (Safe : σ → τ → ι → Prop) : σ → τ → List ι → Prop
  | _, _, [] => True
  | s, t, op :: ops => Safe s t op ∧ ∀ s₁ t₁, step s op = some s₁ → step' t op = some t₁ →
      SafeAlong step step' Safe s₁ t₁ ops

/-- **Simulation.**  What relates two systems and is kept by every safe operation relates them at
the end of a safe run; and if an operation acts on a view of the state, so does the run. -/
theorem runOps_simulates {τ α : Type*} {step' : τ → ι → Option τ} {Safe : σ → τ → ι → Prop}
    {Rel : σ → τ → Prop} {view : σ → α} {act : α → ι → α}
    (hstep : ∀ s t op s₁, Rel s t → Safe s t op → step s op = some s₁ →
      ∃ t₁, step' t op = some t₁ ∧ Rel s₁ t₁ ∧ view s₁ = act (view s) op)
    {t : τ} (hrel : Rel s t) {ops : List ι} (hsafe : SafeAlong step step' Safe s t ops)
    (hrun : runOps step s ops = some s') :
    ∃ t', runOps step' t ops = some t' ∧ Rel s' t' ∧ view s' = ops.foldl act (view s) := by
  induction ops generalizing s t with
  | nil =>
      obtain rfl := Option.some.inj hrun
      exact ⟨t, rfl, hrel, rfl⟩
  | cons op ops ih =>
      obtain ⟨s₁, hop, hrest⟩ := runOps_cons hrun
      obtain ⟨t₁, hop', hrel₁, hview⟩ := hstep s t op s₁ hrel hsafe.1 hop
      obtain ⟨t', ht', hrel', hfold⟩ := ih hrel₁ (hsafe.2 s₁ t₁ hop hop') hrest
      refine ⟨t', ?_, hrel', ?_⟩
      · rw [runOps, List.foldlM_cons, hop']
        exact ht'
      · rw [hfold, hview, List.foldl_cons]

/-! ## A system with other operations -/

/-- The operations of another system that those of a run stand for. -/
def labels {κ : Type*} (step : σ → ι → Option σ) (label : σ → ι → List κ) : σ → List ι → List κ
  | _, [] => []
  | s, op :: ops => label s op ++ (step s op).elim [] fun s₁ => labels step label s₁ ops

/-- **Refinement.**  If each step stands for a run of another system between the views of its states,
so does each run. -/
theorem runOps_labels {τ κ : Type*} {step' : τ → κ → Option τ} {label : σ → ι → List κ}
    {view : σ → τ}
    (hstep : ∀ s op s₁, step s op = some s₁ → runOps step' (view s) (label s op) = some (view s₁))
    {ops : List ι} (hrun : runOps step s ops = some s') :
    runOps step' (view s) (labels step label s ops) = some (view s') := by
  induction ops generalizing s with
  | nil =>
      obtain rfl := Option.some.inj hrun
      rfl
  | cons op ops ih =>
      obtain ⟨s₁, hop, hrest⟩ := runOps_cons hrun
      rw [labels, hop]
      exact runOps_trans (hstep s op s₁ hop) (ih hrest)

end LuaSys.Lib
