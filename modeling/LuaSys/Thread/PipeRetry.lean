import LuaSys.Thread.PipeWake

/-!
# Writers that wake each other

A writer that comes back from its wait signals the next one before it looks whether its own
message fits.  If it does not fit, the writer waits again, and the next one does the same;
the signal it sends may wake the first one.  Nothing has changed then, and the two writers
go on forever.

A retry of a writer is made of three steps: the wait takes `pp->cs` again, the writer makes a
pass that blocks, and the new wait releases `pp->cs`.  Nobody else is in the critical section
meanwhile.  A wait that ends without a signal is no part of it.

## Main definitions

* `PipeThreadOp.Retries` — the steps of the writers that fail again.
* `PipeThreads.PingPong` — one writer is signalled, another one waits, nobody else is in the
  critical section, and neither message fits.

## Main results

* `retryMove_of_step` — a retry changes the phases of the writers only.
* `no_retry_cycle_iff` — from a state reached there are no such steps back to it if and only
  if no two writers are in this situation.
* `two_writers_wake_each_other` — a run in which they are.
-/

namespace LuaSys.Thread

open LuaSys.Lib Relation

/-- A writer takes `pp->cs` after a signal, finds no place for its message, and waits again. -/
def PipeThreadOp.Retries {ν θ : Type*} (s : PipeThreads ν θ) : PipeThreadOp θ → Prop
  | .lockAgain t => ∃ msg, s.phase t = .woken (.put msg) .signal
  | .resume t malloc _ _ => ∃ msg, s.phase t = .reentering (.put msg) .signal ∧
      ∃ pp, pipePutPass (putWake s.pp).1 msg malloc = some (.blocked pp)
  | .park t => ∃ msg, s.phase t = .parking (.put msg)
  | _ => False

namespace PipePhase

/-- The message of a writer that is signalled and has not made its pass yet. -/
def signalledMsg : PipePhase → Option Message
  | .woken (.put msg) .signal | .reentering (.put msg) .signal => some msg
  | _ => none

/-- A writer that waits, or is about to. -/
def idle : PipePhase → Bool
  | .waiting (.put _) | .parking (.put _) => true
  | _ => false

end PipePhase

namespace PipeThreads

section

variable {ν θ : Type*}

/-- The writer can come back from its wait, and its message does not fit. -/
structure Refused (vmOf : θ → ν) (s : PipeThreads ν θ) (t : θ) (msg : Message) : Prop where
  vm_free : s.vm (vmOf t) = none
  not_accepts : ¬s.pp.Accepts msg

/-- Two writers that wake each other: one is signalled, and the other one waits or is about
to. -/
structure PingPong (vmOf : θ → ν) (s : PipeThreads ν θ) (t z : θ) (m m' : Message) : Prop where
  ne : t ≠ z
  /-- Another writer is counted. -/
  signals : s.pp.signalOnGet ≠ 1
  active : s.Refused vmOf t m
  idle : s.Refused vmOf z m'
  phases : (s.phase t = .woken (.put m) .signal ∧ s.phase z = .waiting (.put m') ∧ s.cs = none) ∨
    (s.phase t = .reentering (.put m) .signal ∧ s.phase z = .waiting (.put m')) ∨
    (s.phase t = .woken (.put m) .signal ∧ s.phase z = .parking (.put m'))

end

variable {ν θ : Type*} [DecidableEq ν] [DecidableEq θ]

/-- A step of a retry. -/
def RetryStep (vmOf : θ → ν) (s s' : PipeThreads ν θ) : Prop :=
  ∃ op : PipeThreadOp θ, op.Retries s ∧ op.Picks s ∧ s.step vmOf op = some s'

/-- What the steps of a retry do. -/
inductive RetryMove (vmOf : θ → ν) (s : PipeThreads ν θ) : PipeThreads ν θ → Prop
  | lockAgain {t : θ} {m : Message} (hcs : s.cs = none)
      (hphase : s.phase t = .woken (.put m) .signal) :
      RetryMove vmOf s
        { s with
          cs := some t
          phase := Function.update s.phase t (.reentering (.put m) .signal) }
  /-- The writer wakes the next one. -/
  | passOn {t z : θ} {m m' : Message} (hphase : s.phase t = .reentering (.put m) .signal)
      (hrefused : s.Refused vmOf t m) (hn : s.pp.signalOnGet ≠ 1)
      (hz : s.phase z = .waiting (.put m')) :
      RetryMove vmOf s
        { s with
          cs := some t
          phase := Function.update (Function.update s.phase z (.woken (.put m') .signal)) t
            (.parking (.put m)) }
  /-- There is nobody to wake, as far as the writer knows. -/
  | giveUp {t : θ} {m : Message} (hphase : s.phase t = .reentering (.put m) .signal)
      (hrefused : s.Refused vmOf t m)
      (hnone : s.pp.signalOnGet = 1 ∨ ∀ z m', s.phase z ≠ .waiting (.put m')) :
      RetryMove vmOf s
        { s with cs := some t, phase := Function.update s.phase t (.parking (.put m)) }
  | park {t : θ} {m : Message} (hphase : s.phase t = .parking (.put m)) :
      RetryMove vmOf s { s with cs := none, phase := Function.update s.phase t (.waiting (.put m)) }

variable {vmOf : θ → ν} {s s' : PipeThreads ν θ}

omit [DecidableEq ν] [DecidableEq θ] in
theorem waitsAs_writer_iff {p : PipePhase} :
    p.waitsAs .writer = true ↔ ∃ m, p = .waiting (.put m) := by
  constructor
  · intro h
    cases p with
    | waiting l =>
        cases l with
        | put m => exact ⟨m, rfl⟩
        | get => exact absurd h (by decide)
    | _ => cases h
  · rintro ⟨m, rfl⟩
    rfl

omit [DecidableEq ν] in
/-- Nobody waits for the signal. -/
theorem condSignal_of_none {r : PipeRole} (pick : θ)
    (hnone : ∀ t, ¬(s.phase t).waitsAs r = true) : s.condSignal r pick = s := by
  rcases s.condSignal_eq_or r pick with heq | ⟨l, hl, hrole, -⟩
  · exact heq
  · exact absurd (by simp [hl, PipePhase.waitsAs, hrole]) (hnone pick)

/-- The counter goes down and up again. -/
theorem putWake_blocked {pp pp' : Pipe} {msg : Message} {malloc : Option Mem}
    (hlt : pp.signalOnGet < 2 ^ 32)
    (h : pipePutPass (putWake pp).1 msg malloc = some (.blocked pp')) :
    pp' = pp ∧ ¬pp.Accepts msg ∧ ((putWake pp).2 = true ↔ pp.signalOnGet ≠ 1) := by
  obtain ⟨k, hk⟩ : ∃ k, u32sub pp.signalOnGet 1 = k := ⟨_, rfl⟩
  have hwake : putWake pp = ({ pp with signalOnGet := k }, decide (k ≠ 0)) := by
    rw [← hk]
    rfl
  rw [hwake] at h ⊢
  obtain ⟨hno, rfl⟩ := Pipe.putPass_blocked h
  have hback : u32 (k + 1) = pp.signalOnGet := by
    simp only [u32, u32sub] at *
    omega
  refine ⟨?_, hno, ?_⟩
  · simp only [hback]
  · simp only [u32sub, decide_eq_true_eq] at *
    omega

/-- The steps of a retry, as long as the counter has 32 bits. -/
theorem retryMove_of_step (hlt : s.pp.signalOnGet < 2 ^ 32) (h : RetryStep vmOf s s') :
    RetryMove vmOf s s' := by
  obtain ⟨op, hretry, hpicks, hstep⟩ := h
  cases transition_of_step hstep with
  | vmEnter hvm hphase => exact hretry.elim
  | vmLeave hphase => exact hretry.elim
  | call hphase => exact hretry.elim
  | enterLoop hcs hphase hpass => exact hretry.elim
  | enter hcs hphase => exact hretry.elim
  | wake hphase => exact hretry.elim
  | park hphase =>
      obtain ⟨m, hm⟩ := hretry
      obtain rfl := PipePhase.parking.inj (hphase.symm.trans hm)
      exact .park hm
  | lockAgain hcs hphase =>
      obtain ⟨m, hm⟩ := hretry
      obtain ⟨rfl, rfl⟩ := PipePhase.woken.inj (hphase.symm.trans hm)
      exact .lockAgain hcs hm
  | @resume t l e malloc reader writer s₁ s' hvm hphase hs₁ hrun =>
      obtain ⟨m, hm, pp', hpass⟩ := hretry
      obtain ⟨rfl, rfl⟩ := PipePhase.reentering.inj (hphase.symm.trans hm)
      obtain ⟨rfl, hno, hsignal⟩ := putWake_blocked hlt hpass
      have hvm' : ∀ o, Function.update (Function.update s.vm (vmOf t) o) (vmOf t) none = s.vm := by
        intro o
        rw [Function.update_idem, ← hvm, Function.update_eq_self]
      have hrefused : s.Refused vmOf t m := ⟨hvm, hno⟩
      have hblocked : s₁.pp = (putWake s.pp).1 := by
        rw [hs₁]
        simp only [afterWait]
        split
        · rw [condSignal_pp]
        · rfl
      simp only [WaitEnd.ok, if_true, pass, hblocked, hpass, Option.map_some, endPut, startWait] at hrun
      obtain rfl := Option.some.inj hrun
      simp only [afterWait] at hs₁
      by_cases hn : s.pp.signalOnGet = 1
      · rw [if_neg (fun h => hsignal.mp h hn)] at hs₁
        subst hs₁
        simp only [hvm']
        exact .giveUp hm hrefused (Or.inl hn)
      · rw [if_pos (hsignal.mpr hn)] at hs₁
        rcases hpicks.2 with hwaits | hnone
        · obtain ⟨m', hm'⟩ := waitsAs_writer_iff.mp hwaits
          simp only [condSignal, hm', PipeLoop.role, if_true] at hs₁
          subst hs₁
          simp only [hvm']
          exact .passOn hm hrefused hn hm'
        · replace hs₁ := hs₁.trans (condSignal_of_none writer hnone)
          subst hs₁
          simp only [hvm']
          exact .giveUp hm hrefused (Or.inr fun z m' hz =>
            hnone z (waitsAs_writer_iff.mpr ⟨m', hz⟩))

/-! ## The counter has 32 bits -/

theorem pass_signalOnGet_lt (h : s.pp.signalOnGet < 2 ^ 32) {t : θ} {l : PipeLoop}
    {malloc : Option Mem} {reader writer : θ}
    (hpass : s.pass vmOf t l malloc reader writer = some s') : s'.pp.signalOnGet < 2 ^ 32 := by
  cases l with
  | put msg =>
      obtain ⟨r, hr, rfl⟩ := Option.map_eq_some_iff.mp hpass
      cases r with
      | stored pp signalPut =>
          obtain ⟨-, -, hsame, -⟩ := Pipe.putPass_stored hr
          have hpp : (s.endPut vmOf t msg reader (.stored pp signalPut)).pp = pp := by
            simp only [endPut, leave]
            split
            · rw [condSignal_pp]
            · rfl
          rw [hpp, hsame]
          exact h
      | blocked pp =>
          obtain ⟨-, rfl⟩ := Pipe.putPass_blocked hr
          exact u32_lt _
  | get =>
      obtain ⟨r, hr, rfl⟩ := Option.map_eq_some_iff.mp hpass
      cases r with
      | taken pp msg signalPut signalGet =>
          obtain ⟨-, hsame, -⟩ := Pipe.getPass_taken hr
          have hpp : (s.endGet vmOf t reader writer (.taken pp msg signalPut signalGet)).pp = pp := by
            simp only [endGet, leave]
            split <;> split <;> simp only [condSignal_pp]
          rw [hpp, hsame]
          exact h
      | blocked pp =>
          obtain ⟨-, rfl⟩ := Pipe.getPass_blocked hr
          exact h

theorem putWake_signalOnGet (pp : Pipe) :
    (putWake pp).1.signalOnGet = u32sub pp.signalOnGet 1 := rfl

theorem getWake_signalOnGet (pp : Pipe) : (getWake pp).signalOnGet = pp.signalOnGet := by
  obtain ⟨k, hk⟩ : ∃ k, getWake pp = { pp with signalOnPut := k } := ⟨_, rfl⟩
  rw [hk]

omit [DecidableEq ν] in
theorem afterWait_signalOnGet_lt (h : s.pp.signalOnGet < 2 ^ 32) (l : PipeLoop) (writer : θ) :
    (s.afterWait l writer).pp.signalOnGet < 2 ^ 32 := by
  cases l with
  | put msg =>
      simp only [afterWait]
      split
      · rw [condSignal_pp, putWake_signalOnGet]
        exact u32sub_lt _ _
      · rw [putWake_signalOnGet]
        exact u32sub_lt _ _
  | get =>
      rw [afterWait, getWake_signalOnGet]
      exact h

theorem signalOnGet_lt_step (h : s.pp.signalOnGet < 2 ^ 32) {op : PipeThreadOp θ}
    (hstep : s.step vmOf op = some s') : s'.pp.signalOnGet < 2 ^ 32 := by
  cases transition_of_step hstep with
  | vmEnter hvm hphase => exact h
  | vmLeave hphase => exact h
  | call hphase => exact h
  | enterLoop hcs hphase hpass => exact pass_signalOnGet_lt h hpass
  | enter hcs hphase => exact h
  | park hphase => exact h
  | wake hphase => exact h
  | lockAgain hcs hphase => exact h
  | @resume t l e malloc reader writer s₁ s' hvm hphase hs₁ hrun =>
      have hs₁' : s₁.pp.signalOnGet < 2 ^ 32 := by
        rw [hs₁]
        apply afterWait_signalOnGet_lt
        exact h
      split at hrun
      · exact pass_signalOnGet_lt hs₁' hrun
      · exact Option.some.inj hrun ▸ hs₁'

/-- What a retry relies on. -/
structure Sound (vmOf : θ → ν) (s : PipeThreads ν θ) : Prop where
  locks : s.Locks vmOf
  lt : s.pp.signalOnGet < 2 ^ 32

theorem Sound.step (h : s.Sound vmOf) {op : PipeThreadOp θ} (hstep : s.step vmOf op = some s') :
    s'.Sound vmOf :=
  ⟨h.locks.step hstep, signalOnGet_lt_step h.lt hstep⟩

theorem Sound.retry (h : s.Sound vmOf) (hstep : RetryStep vmOf s s') : s'.Sound vmOf := by
  obtain ⟨op, -, -, hop⟩ := hstep
  exact h.step hop

theorem Sound.move (h : s.Sound vmOf) (hstep : RetryStep vmOf s s') : RetryMove vmOf s s' :=
  retryMove_of_step h.lt hstep

/-! ## What a retry keeps -/

section

variable {ν θ : Type*} [DecidableEq θ] {vmOf : θ → ν} {s s' : PipeThreads ν θ} {t z : θ}
  {m : Message}

theorem RetryMove.frame (h : RetryMove vmOf s s') : s'.pp = s.pp ∧ s'.vm = s.vm := by
  cases h with
  | lockAgain hcs hphase => exact ⟨rfl, rfl⟩
  | passOn hphase hrefused hn hz => exact ⟨rfl, rfl⟩
  | giveUp hphase hrefused hnone => exact ⟨rfl, rfl⟩
  | park hphase => exact ⟨rfl, rfl⟩

omit [DecidableEq θ] in
theorem Refused.congr (h : s'.Refused vmOf t m) (hf : s'.pp = s.pp ∧ s'.vm = s.vm) :
    s.Refused vmOf t m := ⟨hf.2 ▸ h.vm_free, hf.1 ▸ h.not_accepts⟩

/-- A signalled writer stays so until it makes its pass. -/
theorem RetryMove.signalled (h : RetryMove vmOf s s') (hz : (s.phase z).signalledMsg = some m) :
    (s'.phase z).signalledMsg = some m ∨ s.Refused vmOf z m := by
  cases h with
  | @lockAgain t m' hcs hphase =>
      left
      by_cases heq : z = t
      · subst heq
        rw [hphase] at hz
        simpa [PipePhase.signalledMsg] using hz
      · simpa [heq] using hz
  | @passOn t y m₁ m₂ hphase hrefused hn hy =>
      by_cases heq : z = t
      · subst heq
        rw [hphase] at hz
        exact Or.inr (Option.some.inj hz ▸ hrefused)
      · have hne : z ≠ y := by
          rintro rfl
          rw [hy] at hz
          exact absurd hz (by simp [PipePhase.signalledMsg])
        left
        simpa [heq, hne] using hz
  | @giveUp t m' hphase hrefused hnone =>
      by_cases heq : z = t
      · subst heq
        rw [hphase] at hz
        exact Or.inr (Option.some.inj hz ▸ hrefused)
      · left
        simpa [heq] using hz
  | @park t m' hphase =>
      have hne : z ≠ t := by
        rintro rfl
        rw [hphase] at hz
        exact absurd hz (by simp [PipePhase.signalledMsg])
      left
      simpa [hne] using hz

/-- A writer waits again after a pass. -/
theorem RetryMove.parking (h : RetryMove vmOf s s') (ht : s'.phase t = .parking (.put m)) :
    s.phase t = .parking (.put m) ∨ s.Refused vmOf t m := by
  cases h with
  | @lockAgain u m' hcs hphase =>
      by_cases heq : t = u
      · simp [heq] at ht
      · exact Or.inl (by simpa [heq] using ht)
  | @passOn u y m₁ m₂ hphase hrefused hn hy =>
      by_cases heq : t = u
      · subst heq
        obtain rfl : m₁ = m := by simpa using ht
        exact Or.inr hrefused
      · by_cases hty : t = y
        · subst hty
          simp [heq] at ht
        · exact Or.inl (by simpa [heq, hty] using ht)
  | @giveUp u m' hphase hrefused hnone =>
      by_cases heq : t = u
      · subst heq
        obtain rfl : m' = m := by simpa using ht
        exact Or.inr hrefused
      · exact Or.inl (by simpa [heq] using ht)
  | @park u m' hphase =>
      by_cases heq : t = u
      · simp [heq] at ht
      · exact Or.inl (by simpa [heq] using ht)

/-- Without a signal, nobody becomes a signalled writer. -/
theorem RetryMove.signalled_back (h : RetryMove vmOf s s') (hn : s.pp.signalOnGet = 1)
    (hz : (s'.phase z).signalledMsg = some m) : (s.phase z).signalledMsg = some m := by
  cases h with
  | @lockAgain t m' hcs hphase =>
      by_cases heq : z = t
      · subst heq
        rw [hphase]
        simpa [PipePhase.signalledMsg] using hz
      · simpa [heq] using hz
  | passOn hphase hrefused hne hy => exact absurd hn hne
  | @giveUp t m' hphase hrefused hnone =>
      by_cases heq : z = t
      · simp [heq, PipePhase.signalledMsg] at hz
      · simpa [heq] using hz
  | @park t m' hphase =>
      by_cases heq : z = t
      · simp [heq, PipePhase.signalledMsg] at hz
      · simpa [heq] using hz

/-- Somebody waits after a retry, if somebody waited before. -/
theorem RetryMove.idle (h : RetryMove vmOf s s') (hidle : ∃ z, (s.phase z).idle = true) :
    ∃ z, (s'.phase z).idle = true := by
  cases h with
  | @lockAgain t m' hcs hphase =>
      obtain ⟨z, hz⟩ := hidle
      have hne : z ≠ t := by
        rintro rfl
        rw [hphase] at hz
        exact absurd hz (by simp [PipePhase.idle])
      exact ⟨z, by simpa [hne] using hz⟩
  | @passOn t y m₁ m₂ hphase hrefused hn hy => exact ⟨t, by simp [PipePhase.idle]⟩
  | @giveUp t m' hphase hrefused hnone => exact ⟨t, by simp [PipePhase.idle]⟩
  | @park t m' hphase => exact ⟨t, by simp [PipePhase.idle]⟩

end

/-- The pipe and the locks of the VMs are the same after any number of retries. -/
theorem Sound.run (h : s.Sound vmOf) (hrun : ReflTransGen (RetryStep vmOf) s s') :
    s'.Sound vmOf ∧ s'.pp = s.pp ∧ s'.vm = s.vm := by
  induction hrun with
  | refl => exact ⟨h, rfl, rfl⟩
  | tail _ hstep ih =>
      obtain ⟨hsound, hpp, hvm⟩ := ih
      obtain ⟨hpp', hvm'⟩ := (hsound.move hstep).frame
      exact ⟨hsound.retry hstep, hpp'.trans hpp, hvm'.trans hvm⟩

/-! ## A cycle of retries -/

section

variable {t z : θ} {m : Message}

/-- A signalled writer that waits later on has made a pass. -/
theorem Sound.refused_of_signalled (h : s.Sound vmOf)
    (hrun : ReflTransGen (RetryStep vmOf) s s') (hz : (s.phase z).signalledMsg = some m)
    (hend : (s'.phase z).signalledMsg = none) : s.Refused vmOf z m := by
  induction hrun using ReflTransGen.head_induction_on with
  | refl => exact absurd (hz.symm.trans hend) (by simp)
  | head hstep _ ih =>
      have hmove := h.move hstep
      rcases hmove.signalled hz with hz' | hrefused
      · exact (ih (h.retry hstep) hz').congr hmove.frame
      · exact hrefused

/-- A writer that is about to wait has made a pass. -/
theorem Sound.refused_of_parking (h : s.Sound vmOf) (hrun : ReflTransGen (RetryStep vmOf) s s')
    (hend : s'.phase t = .parking (.put m)) (hne : s.phase t ≠ .parking (.put m)) :
    s.Refused vmOf t m := by
  induction hrun with
  | refl => exact absurd hend hne
  | @tail s₁ s₂ hrun hstep ih =>
      obtain ⟨hsound, hframe⟩ := h.run hrun
      rcases (hsound.move hstep).parking hend with hpark | hrefused
      · exact ih hpark
      · exact hrefused.congr hframe

/-- A signal is not lost in a cycle: a writer that wakes nobody never becomes a signalled one
again. -/
theorem Sound.no_giveUp (h : s.Sound vmOf) (hstep : RetryStep vmOf s s')
    (hback : ReflTransGen (RetryStep vmOf) s' s) (hphase : s.phase t = .reentering (.put m) .signal)
    (hpark : s'.phase t = .parking (.put m))
    (hnone : s.pp.signalOnGet = 1 ∨ ∀ z m', s.phase z ≠ .waiting (.put m')) : False := by
  have hsound := h.retry hstep
  have hframe := (h.move hstep).frame
  rcases hnone with hone | hnone
  · -- The counter stays, so no step of the cycle sends a signal.
    have hlost : ∀ s₁, ReflTransGen (RetryStep vmOf) s' s₁ → (s₁.phase t).signalledMsg ≠ some m := by
      intro s₁ hrun
      induction hrun with
      | refl => simp [hpark, PipePhase.signalledMsg]
      | @tail s₁ s₂ hrun hstep ih =>
          obtain ⟨hs₁, hpp, -⟩ := hsound.run hrun
          have hn : s₁.pp.signalOnGet = 1 := by rw [hpp, hframe.1, hone]
          exact fun hz => ih ((hs₁.move hstep).signalled_back hn hz)
    exact hlost s hback (by rw [hphase]; rfl)
  · -- From now on there is always a writer that waits, and there was none.
    have hidle : ∀ s₁, ReflTransGen (RetryStep vmOf) s' s₁ → ∃ z, (s₁.phase z).idle = true := by
      intro s₁ hrun
      induction hrun with
      | refl => exact ⟨t, by rw [hpark]; rfl⟩
      | @tail s₁ s₂ hrun hstep ih => exact ((hsound.run hrun).1.move hstep).idle ih
    obtain ⟨z, hz⟩ := hidle s hback
    have hcs : s.cs = some t := h.locks.cs_owner t (by rw [hphase]; rfl)
    cases hpz : s.phase z with
    | waiting l =>
        cases l with
        | put m' => exact hnone z m' hpz
        | get => simp [hpz, PipePhase.idle] at hz
    | parking l =>
        have hcs' : s.cs = some z := h.locks.cs_owner z (by rw [hpz]; rfl)
        obtain rfl := Option.some.inj (hcs.symm.trans hcs')
        exact absurd (hphase.symm.trans hpz) (by simp)
    | _ => simp [hpz, PipePhase.idle] at hz

/-- A cycle that goes on with the pass of a writer. -/
theorem Sound.pingPong_of_reentering (h : s.Sound vmOf) (hstep : RetryStep vmOf s s')
    (hback : ReflTransGen (RetryStep vmOf) s' s)
    (hphase : s.phase t = .reentering (.put m) .signal) :
    ∃ z m', s.phase z = .waiting (.put m') ∧ s.PingPong vmOf t z m m' := by
  have hcs : s.cs = some t := h.locks.cs_owner t (by rw [hphase]; rfl)
  have hsound := h.retry hstep
  have hmove := h.move hstep
  have hframe := hmove.frame
  cases hmove with
  | lockAgain hfree => exact absurd (hcs.symm.trans hfree) (by simp)
  | @passOn u z m₁ m' hu hrefused hn hz =>
      have hcs' : s.cs = some u := h.locks.cs_owner u (by rw [hu]; rfl)
      obtain rfl := Option.some.inj (hcs.symm.trans hcs')
      obtain ⟨hput, -⟩ := PipePhase.reentering.inj (hphase.symm.trans hu)
      obtain rfl := PipeLoop.put.inj hput
      have hne : t ≠ z := by
        rintro rfl
        exact absurd (hz.symm.trans hu) (by simp)
      have hwoken := hsound.refused_of_signalled (z := z) (m := m') hback
        (by simp [hne.symm, PipePhase.signalledMsg]) (by rw [hz]; rfl)
      exact ⟨z, m', hz, hne, hn, hrefused, hwoken.congr hframe, Or.inr (Or.inl ⟨hu, hz⟩)⟩
  | @giveUp u m₁ hu hrefused hnone =>
      exact (h.no_giveUp hstep hback hu (by simp) hnone).elim
  | @park u m₁ hu =>
      have hcs' : s.cs = some u := h.locks.cs_owner u (by rw [hu]; rfl)
      obtain rfl := Option.some.inj (hcs.symm.trans hcs')
      exact absurd (hphase.symm.trans hu) (by simp)

/-- A cycle that goes on from a free critical section. -/
theorem Sound.pingPong_of_free (h : s.Sound vmOf) (hstep : RetryStep vmOf s s')
    (hback : ReflTransGen (RetryStep vmOf) s' s) (hcs : s.cs = none) :
    ∃ t z m m', s.phase t = .woken (.put m) .signal ∧ s.PingPong vmOf t z m m' := by
  have hsound := h.retry hstep
  have hinside : ∀ u, (s.phase u).inCs = true → False := fun u hu =>
    absurd (hcs.symm.trans (h.locks.cs_owner u hu)) (by simp)
  cases h.move hstep with
  | @lockAgain t m hfree hphase =>
      -- The critical section is taken, so the cycle goes on with the pass.
      rcases hback.cases_head with heq | ⟨s₂, hnext, hrest⟩
      · exact absurd ((congrArg PipeThreads.cs heq).trans hcs) (by simp)
      · obtain ⟨z, m', hz, hpp⟩ := hsound.pingPong_of_reentering hnext (hrest.tail hstep)
          (t := t) (m := m) (by simp)
        have hz' : s.phase z = .waiting (.put m') := by
          simpa [hpp.ne.symm] using hz
        exact ⟨t, z, m, m', hphase, hpp.ne, hpp.signals, hpp.active.congr ⟨rfl, rfl⟩,
          hpp.idle.congr ⟨rfl, rfl⟩, Or.inl ⟨hphase, hz', hcs⟩⟩
  | passOn hphase hrefused hn hz => exact (hinside _ (by rw [hphase]; rfl)).elim
  | giveUp hphase hrefused hnone => exact (hinside _ (by rw [hphase]; rfl)).elim
  | park hphase => exact (hinside _ (by rw [hphase]; rfl)).elim

/-- **A cycle of retries is a game of two writers.** -/
theorem Sound.pingPong_of_cycle (h : s.Sound vmOf) (hcycle : TransGen (RetryStep vmOf) s s) :
    ∃ t z m m', s.PingPong vmOf t z m m' := by
  obtain ⟨s', hstep, hback⟩ := TransGen.head'_iff.mp hcycle
  cases h.move hstep with
  | lockAgain hfree hphase =>
      obtain ⟨t, z, m, m', -, hpp⟩ := h.pingPong_of_free hstep hback hfree
      exact ⟨t, z, m, m', hpp⟩
  | passOn hphase hrefused hn hz =>
      obtain ⟨z, m', -, hpp⟩ := h.pingPong_of_reentering hstep hback hphase
      exact ⟨_, z, _, m', hpp⟩
  | giveUp hphase hrefused hnone =>
      obtain ⟨z, m', -, hpp⟩ := h.pingPong_of_reentering hstep hback hphase
      exact ⟨_, z, _, m', hpp⟩
  | @park t m hphase =>
      have hsound := h.retry hstep
      rcases hback.cases_head with heq | ⟨s₂, hnext, hrest⟩
      · have hph := congrArg (fun s => s.phase t) heq
        simp [hphase] at hph
      · -- The critical section is free, and another writer is signalled.
        obtain ⟨u, z, m₁, m₂, hu, hpp⟩ := hsound.pingPong_of_free hnext (hrest.tail hstep) rfl
        have hne : u ≠ t := by
          rintro rfl
          simp at hu
        have hrefused := hsound.refused_of_parking hback hphase (by simp)
        exact ⟨u, t, m₁, m, hne, hpp.signals, hpp.active.congr ⟨rfl, rfl⟩,
          hrefused.congr ⟨rfl, rfl⟩, Or.inr (Or.inr ⟨by simpa [hne] using hu, hphase⟩)⟩

/-! ## The game goes on -/

theorem pipePutPass_of_not_accepts {pp : Pipe} {msg : Message} (h : ¬pp.Accepts msg) :
    pipePutPass pp msg none =
      some (.blocked { pp with signalOnGet := u32 (pp.signalOnGet + 1) }) := by
  simp only [pipePutPass]
  split_ifs with hroom hwrap hfree
  · exact absurd (Or.inr (Or.inl hwrap)) h
  · exact absurd (Or.inr (Or.inr hfree)) h
  · rfl
  · rfl
  · exact absurd (Or.inl (not_lt.mp hroom)) h

/-- The steps of a retry that wakes another writer are possible. -/
theorem retryStep_lockAgain (hcs : s.cs = none) (hphase : s.phase t = .woken (.put m) .signal) :
    RetryStep vmOf s
      { s with
        cs := some t
        phase := Function.update s.phase t (.reentering (.put m) .signal) } :=
  ⟨.lockAgain t, ⟨m, hphase⟩, trivial, by simp only [step, hcs, hphase]⟩

theorem retryStep_park (hphase : s.phase t = .parking (.put m)) :
    RetryStep vmOf s
      { s with cs := none, phase := Function.update s.phase t (.waiting (.put m)) } :=
  ⟨.park t, ⟨m, hphase⟩, trivial, by simp only [step, hphase]⟩

theorem retryStep_passOn {m' : Message} (hlt : s.pp.signalOnGet < 2 ^ 32)
    (hphase : s.phase t = .reentering (.put m) .signal) (hrefused : s.Refused vmOf t m)
    (hn : s.pp.signalOnGet ≠ 1) (hz : s.phase z = .waiting (.put m')) :
    RetryStep vmOf s
      { s with
        cs := some t
        phase := Function.update (Function.update s.phase z (.woken (.put m') .signal)) t
          (.parking (.put m)) } := by
  obtain ⟨k, hk⟩ : ∃ k, (putWake s.pp).1 = { s.pp with signalOnGet := k } := ⟨_, rfl⟩
  have hpass : pipePutPass (putWake s.pp).1 m none = some (.blocked _) :=
    pipePutPass_of_not_accepts (by rw [hk]; exact hrefused.not_accepts)
  obtain ⟨hpp, -, hsignal⟩ := putWake_blocked hlt hpass
  rw [hpp] at hpass
  obtain ⟨reader, hreader⟩ : ∃ reader, (s.phase reader).waitsAs .reader = true ∨
      ∀ u, ¬(s.phase u).waitsAs .reader = true := by
    by_cases hex : ∃ u, (s.phase u).waitsAs .reader = true
    · exact ⟨hex.choose, Or.inl hex.choose_spec⟩
    · exact ⟨t, Or.inr (not_exists.mp hex)⟩
  refine ⟨.resume t none reader z, ⟨m, hphase, _, hpass⟩,
    ⟨hreader, Or.inl (waitsAs_writer_iff.mpr ⟨m', hz⟩)⟩, ?_⟩
  have hvm' : ∀ o, Function.update (Function.update s.vm (vmOf t) o) (vmOf t) none = s.vm := by
    intro o
    rw [Function.update_idem, ← hrefused.vm_free, Function.update_eq_self]
  simp only [step, hrefused.vm_free, hphase, afterWait, if_pos (hsignal.mpr hn), condSignal, hz,
    PipeLoop.role, if_true, WaitEnd.ok, pass, hpass, Option.map_some, endPut, startWait, hvm']

/-- Two threads in given phases. -/
def seat (s : PipeThreads ν θ) (t z : θ) (c : Option θ) (p q : PipePhase) : PipeThreads ν θ :=
  { s with cs := c, phase := Function.update (Function.update s.phase t p) z q }

variable {c : Option θ} {p q : PipePhase}

omit [DecidableEq ν] in
theorem seat_comm (hne : t ≠ z) : s.seat t z c p q = s.seat z t c q p := by
  rw [seat, seat, Function.update_comm hne]

omit [DecidableEq ν] in
theorem seat_self (hcs : s.cs = c) (ht : s.phase t = p) (hz : s.phase z = q) :
    s.seat t z c p q = s := by
  subst hcs ht hz
  rw [seat, Function.update_eq_self, Function.update_eq_self]

/-- The writer `t` makes a retry and wakes `z`. -/
theorem retry_seat (hlt : s.pp.signalOnGet < 2 ^ 32) (hne : t ≠ z) (hn : s.pp.signalOnGet ≠ 1)
    (ht : s.Refused vmOf t m) (m' : Message) :
    RetryStep vmOf (s.seat t z none (.woken (.put m) .signal) (.waiting (.put m')))
        (s.seat t z (some t) (.reentering (.put m) .signal) (.waiting (.put m'))) ∧
      RetryStep vmOf (s.seat t z (some t) (.reentering (.put m) .signal) (.waiting (.put m')))
        (s.seat t z (some t) (.parking (.put m)) (.woken (.put m') .signal)) ∧
      RetryStep vmOf (s.seat t z (some t) (.parking (.put m)) (.woken (.put m') .signal))
        (s.seat t z none (.waiting (.put m)) (.woken (.put m') .signal)) := by
  have hphase : ∀ c p q, (s.seat t z c p q).phase t = p := fun c p q => by simp [seat, hne]
  have hphase' : ∀ c p q, (s.seat t z c p q).phase z = q := fun c p q => by simp [seat]
  have hmove : ∀ (p q p' : PipePhase), Function.update (Function.update (Function.update
      s.phase t p) z q) t p' = Function.update (Function.update s.phase t p') z q := by
    intro p q p'
    rw [Function.update_comm hne, Function.update_idem, Function.update_comm hne.symm]
  refine ⟨?_, ?_, ?_⟩
  · have h : RetryStep vmOf (s.seat t z none (.woken (.put m) .signal) (.waiting (.put m'))) _ :=
      retryStep_lockAgain rfl (hphase _ _ _)
    simp only [seat, hmove] at h ⊢
    exact h
  · have h : RetryStep vmOf
        (s.seat t z (some t) (.reentering (.put m) .signal) (.waiting (.put m'))) _ :=
      retryStep_passOn hlt (hphase _ _ _) ⟨ht.vm_free, ht.not_accepts⟩ hn (hphase' _ _ _)
    simp only [seat, Function.update_idem, hmove] at h ⊢
    exact h
  · have h : RetryStep vmOf
        (s.seat t z (some t) (.parking (.put m)) (.woken (.put m') .signal)) _ :=
      retryStep_park (hphase _ _ _)
    simp only [seat, hmove] at h ⊢
    exact h

/-- **The two writers go on forever.** -/
theorem Sound.cycle_of_pingPong {m' : Message} (h : s.Sound vmOf) (hpp : s.PingPong vmOf t z m m') :
    TransGen (RetryStep vmOf) s s := by
  obtain ⟨hne, hn, ht, hz, hphases⟩ := hpp
  obtain ⟨h₁, h₂, h₃⟩ := retry_seat h.lt hne hn ht m'
  obtain ⟨h₄, h₅, h₆⟩ := retry_seat h.lt hne.symm hn hz m
  rw [seat_comm hne.symm, seat_comm hne.symm] at h₄ h₅ h₆
  rcases hphases with ⟨hpt, hpz, hcs⟩ | ⟨hpt, hpz⟩ | ⟨hpt, hpz⟩
  · rw [seat_self hcs hpt hpz] at h₁ h₆
    exact (((((TransGen.single h₁).tail h₂).tail h₃).tail h₄).tail h₅).tail h₆
  · have hcs : s.cs = some t := h.locks.cs_owner t (by rw [hpt]; rfl)
    rw [seat_self hcs hpt hpz] at h₁ h₂
    exact (((((TransGen.single h₂).tail h₃).tail h₄).tail h₅).tail h₆).tail h₁
  · have hcs : s.cs = some z := h.locks.cs_owner z (by rw [hpz]; rfl)
    rw [seat_self hcs hpt hpz] at h₅ h₆
    exact (((((TransGen.single h₆).tail h₁).tail h₂).tail h₃).tail h₄).tail h₅

theorem sound_of_reach {maxSize minSize : ℕ} {malloc : Option Mem} {pp : Pipe}
    (hnew : pipeNew maxSize minSize malloc = .ok pp)
    (hrun : ReflTransGen (Step vmOf) (init pp) s) : s.Sound vmOf := by
  have hinit : (init pp : PipeThreads ν θ).Sound vmOf := by
    refine ⟨init_locks vmOf pp, ?_⟩
    rw [init, (Pipe.signals_pipeNew hnew).2]
    decide
  refine inv_of_reach (fun s s' hstep h => ?_) hinit hrun
  obtain ⟨t, op, hop⟩ := hstep
  exact h.step hop

/-- **Blocked writers wake each other forever** from a state reached if and only if one of
them is signalled, another one waits, nobody else is in the critical section, and neither
message fits. -/
theorem no_retry_cycle_iff {maxSize minSize : ℕ} {malloc : Option Mem} {pp : Pipe}
    (hnew : pipeNew maxSize minSize malloc = .ok pp)
    (hrun : ReflTransGen (Step vmOf) (init pp) s) :
    ¬TransGen (RetryStep vmOf) s s ↔ ¬∃ t z m m', s.PingPong vmOf t z m m' := by
  have hsound : s.Sound vmOf := sound_of_reach hnew hrun
  exact not_congr ⟨hsound.pingPong_of_cycle, fun ⟨_, _, _, _, hpp⟩ => hsound.cycle_of_pingPong hpp⟩

end

/-! ## Two writers -/

/-- The thread `a` fills the buffer with an empty message and eight large ones. -/
def fillOps {θ : Type} (a : θ) : List (PipeThreadOp θ) :=
  [.vmEnter a, .call a (.loop (.put emptyMessage)), .enter a none a a] ++
    (List.range 8).flatMap fun i =>
      [.call a (.loop (.put (filledMessage (UInt8.ofNat i)))), .enter a none a a]

/-- The thread `w` puts a message and waits; a writer that waits is `pick`. -/
def blockOps {θ : Type} (w pick : θ) : List (PipeThreadOp θ) :=
  [.vmEnter w, .call w (.loop (.put (filledMessage 8))), .enter w none w pick, .park w]

/-- The thread `a` gets a message, and wakes the writer `w`. -/
def getOps {θ : Type} (a w : θ) : List (PipeThreadOp θ) :=
  [.call a (.loop .get), .enter a none a w]

omit [DecidableEq ν] [DecidableEq θ] in
theorem woken_of_signalledMsg {p : PipePhase} {m : Message} (h : p.signalledMsg = some m)
    (hcs : p.inCs = false) : p = .woken (.put m) .signal := by
  cases p with
  | woken l e =>
      cases l with
      | put m' =>
          cases e with
          | signal =>
              obtain rfl : m' = m := Option.some.inj h
              rfl
          | _ => cases h
      | get => cases h
  | reentering l e => cases hcs
  | _ => cases h

/-- One writer alone is signalled, and the game does not start. -/
theorem no_retry_cycle_iff_one_writer :
    ∃ s : PipeThreads (Fin 2) (Fin 2),
      ReflTransGen (Step id) (init (pipeInit 4096 4096 fun _ => 0)) s ∧
      ((s.phase 1).signalledMsg.any fun m => ¬s.pp.Accepts m) = true ∧
      ¬TransGen (RetryStep id) s s := by
  have hnew : pipeNew 4096 4096 (some fun _ => 0) = .ok (pipeInit 4096 4096 fun _ => 0) := rfl
  have hrun : (runOps (fun (s : PipeThreads (Fin 2) (Fin 2)) op =>
      if op.Picks s then s.step id op else none) (init (pipeInit 4096 4096 fun _ => 0))
      (fillOps 0 ++ blockOps 1 1 ++ getOps 0 1)).map (fun s =>
        ((s.phase 1).signalledMsg.any fun m => ¬s.pp.Accepts m) &&
          decide (∀ z, (s.phase z).idle = false)) = some true := by
    decide +kernel
  obtain ⟨s, hs, heq⟩ := Option.map_eq_some_iff.mp hrun
  obtain ⟨hsignalled, hnone⟩ := (Bool.and_eq_true _ _).mp heq
  have hreach : ReflTransGen (Step id) (init (pipeInit 4096 4096 fun _ => 0)) s := by
    refine reach_of_runOps (fun _ op _ hop => ?_) hs
    obtain ⟨hpicks, hstep⟩ := Option.ite_none_right_eq_some.mp hop
    exact ⟨op, hpicks, hstep⟩
  refine ⟨s, hreach, hsignalled, (no_retry_cycle_iff hnew hreach).mpr ?_⟩
  rintro ⟨t, z, m, m', hpp⟩
  have hz := of_decide_eq_true hnone z
  rcases hpp.phases with ⟨-, hpz, -⟩ | ⟨-, hpz⟩ | ⟨-, hpz⟩
  · rw [hpz] at hz
    exact absurd hz (by simp [PipePhase.idle])
  · rw [hpz] at hz
    exact absurd hz (by simp [PipePhase.idle])
  · rw [hpz] at hz
    exact absurd hz (by simp [PipePhase.idle])

/-- Two writers wait, and the get of the empty message wakes one of them.  From then on they
wake each other. -/
theorem two_writers_wake_each_other :
    ∃ pp, pipeNew 4096 4096 (some fun _ => 0) = .ok pp ∧ ∃ s : PipeThreads (Fin 3) (Fin 3),
      ReflTransGen (Step id) (init pp) s ∧ TransGen (RetryStep id) s s := by
  have hnew : pipeNew 4096 4096 (some fun _ => 0) = .ok (pipeInit 4096 4096 fun _ => 0) := rfl
  have hrun : (runOps (fun (s : PipeThreads (Fin 3) (Fin 3)) op =>
      if op.Picks s then s.step id op else none) (init (pipeInit 4096 4096 fun _ => 0))
      (fillOps 0 ++ blockOps 1 1 ++ blockOps 2 1 ++ getOps 0 1)).map (fun s =>
        ((s.phase 1).signalledMsg.any fun m => ¬s.pp.Accepts m) &&
          ((s.phase 2).putOffer.any fun m => ¬s.pp.Accepts m) &&
          decide ((s.phase 1).inCs = false ∧ s.cs = none ∧ s.vm 1 = none ∧ s.vm 2 = none ∧
            s.pp.signalOnGet = 2)) = some true := by
    decide +kernel
  obtain ⟨s, hs, heq⟩ := Option.map_eq_some_iff.mp hrun
  rw [Bool.and_eq_true, Bool.and_eq_true] at heq
  obtain ⟨⟨h₁, h₂⟩, hrest⟩ := heq
  obtain ⟨hin, hcs, hvm₁, hvm₂, hn⟩ := of_decide_eq_true hrest
  obtain ⟨m, hm, hno⟩ := (Option.any_eq_true _ _).mp h₁
  obtain ⟨m', hm', hno'⟩ := (Option.any_eq_true _ _).mp h₂
  have hreach : ReflTransGen (Step id) (init (pipeInit 4096 4096 fun _ => 0)) s := by
    refine reach_of_runOps (fun _ op _ hop => ?_) hs
    obtain ⟨hpicks, hstep⟩ := Option.ite_none_right_eq_some.mp hop
    exact ⟨op, hpicks, hstep⟩
  have hpp : s.PingPong id 1 2 m m' :=
    ⟨by decide, by rw [hn]; decide, ⟨hvm₁, of_decide_eq_true hno⟩, ⟨hvm₂, of_decide_eq_true hno'⟩,
      Or.inl ⟨woken_of_signalledMsg hm hin, PipePhase.putOffer_eq_some hm', hcs⟩⟩
  exact ⟨_, hnew, s, hreach, (sound_of_reach hnew hreach).cycle_of_pingPong hpp⟩

end PipeThreads

end LuaSys.Thread
