import LuaSys.Thread.PipeFifo
import LuaSys.Thread.PipeThreads
import Mathlib.Data.Finset.Card

/-!
# Wake-ups of a pipe

Readers wait for `put_cond`, writers for `get_cond`.  Every put signals a reader, every get
signals a writer and, if messages are left, a reader; and a writer that wakes up signals
the next one, whose message may be smaller.  The counters `signal_on_put` and
`signal_on_get` tell whether anybody waits; they include the threads that have been
signalled and have not come back yet.

For the readers this is enough.  A blocked writer depends on more than the gets: its
message is also accepted after another put has allocated a new buffer, and nobody signals
it then; and a put that fills the gap before the oldest message exactly makes the buffer
look straight.  Nothing else makes room for a blocked writer.

## Main definitions

* `Pipe.Accepts` — the current buffers have a place for a message.
* `Pipe.Calm` — a put pass that neither allocates a buffer nor fills a gap exactly.
* `PipeThreads.LostReader`, `PipeThreads.LostWriter` — a thread waits though it could go on,
  and no signalled one is pending.
* `PipeThreadOp.KeepsWakes` — the steps after which nobody is lost.

## Main results

* `not_accepts_of_stored` — a calm pass makes no room.
* `safe_run_no_lost_wake` — a run of such steps loses no wake-up.
* `growth_loses_writer` — a run that does.
-/

namespace LuaSys.Thread

open LuaSys.Lib

/-! ## Room for a message -/

namespace PipeBuf

variable {buf buf' : PipeBuf} {msg : Message}

theorem Holds.beginIdx_le {ms : List Message} (h : Holds buf ms) : buf.beginIdx ≤ buf.len := by
  cases h with
  | empty hb he => omega
  | straight hlt hle hrun => omega
  | wrapped hpos hle hs hlen hold hsent hnew => omega

/-- A store leaves the indices and the links as they are. -/
theorem store_eq {off : ℕ} {bs : List UInt8} (h : buf.store off bs = some buf') :
    buf' = { buf with data := writeBytes buf.data off bs } :=
  (Option.some.inj (Option.ite_none_right_eq_some.mp h).2).symm

theorem append_fields (h : buf.append msg = some buf') :
    buf'.beginIdx = buf.beginIdx ∧ buf'.endIdx = u32 (buf.endIdx + msg.size) ∧
      buf'.len = buf.len ∧ buf'.nextBuf = buf.nextBuf := by
  obtain ⟨buf₁, hstore, rfl⟩ := Option.map_eq_some_iff.mp h
  rw [store_eq hstore]
  exact ⟨rfl, rfl, rfl, rfl⟩

theorem wrap_fields (h : buf.wrap = some buf') :
    buf'.beginIdx = buf.beginIdx ∧ buf'.endIdx = 0 ∧ buf'.len = buf.len ∧
      buf'.nextBuf = buf.nextBuf := by
  obtain ⟨buf₁, hstore, rfl⟩ := Option.map_eq_some_iff.mp h
  rw [store_eq hstore]
  exact ⟨rfl, rfl, rfl, rfl⟩

end PipeBuf

namespace Pipe

/-- The buffer behind the write buffer is another one, and free. -/
def NextFree (pp : Pipe) : Prop :=
  pp.wbuf ≠ (pp.bufs pp.wbuf).nextBuf ∧ (pp.bufs (pp.bufs pp.wbuf).nextBuf).beginIdx = 0 ∧
    (pp.bufs (pp.bufs pp.wbuf).nextBuf).endIdx = 0

/-- The current buffers have a place for the message. -/
def Accepts (pp : Pipe) (msg : Message) : Prop :=
  msg.size ≤ (pp.bufs pp.wbuf).room ∨
    (¬(pp.bufs pp.wbuf).wrapped ∧ (pp.bufs pp.wbuf).beginIdx > msg.size) ∨ pp.NextFree

/-- A put pass of the message allocates no buffer, and does not fill the gap before the
oldest message exactly. -/
def Calm (pp : Pipe) (msg : Message) (malloc : Option Mem) : Prop :=
  (pp.Accepts msg ∨ malloc = none ∨ pp.bufMaxSize < u32 (2 * pp.bufSize)) ∧
    ¬((pp.bufs pp.wbuf).wrapped ∧ msg.size = (pp.bufs pp.wbuf).room)

instance (pp : Pipe) : Decidable pp.NextFree := inferInstanceAs (Decidable (_ ∧ _))

instance (pp : Pipe) (msg : Message) : Decidable (pp.Accepts msg) :=
  inferInstanceAs (Decidable (_ ∨ _))

variable {pp pp' : Pipe} {msg msg' : Message} {malloc : Option Mem} {queue : List Message}
  {buf' : PipeBuf} {signalPut : Bool}

/-- The counters are no part of what a pipe accepts. -/
theorem accepts_signals (pp : Pipe) (m n : ℕ) (msg : Message) :
    ({ pp with signalOnPut := m, signalOnGet := n } : Pipe).Accepts msg ↔ pp.Accepts msg := Iff.rfl

/-- The end of a put pass. -/
theorem putStore_stored {pb : ℕ} {buf : PipeBuf}
    (h : pipePutStore pp pb buf msg = some (.stored pp' signalPut)) :
    ∃ buf₁, buf.append msg = some buf₁ ∧ signalPut = decide (pp.signalOnPut ≠ 0) ∧
      pp' = { pp with bufs := Function.update pp.bufs pb buf₁, nmsg := u32 (pp.nmsg + 1) } := by
  obtain ⟨buf₁, happ, heq⟩ := Option.map_eq_some_iff.mp h
  obtain ⟨rfl, rfl⟩ := PutPass.stored.inj heq
  exact ⟨buf₁, happ, rfl, rfl⟩

theorem putStore_ne_blocked {pb : ℕ} {buf : PipeBuf} :
    pipePutStore pp pb buf msg ≠ some (.blocked pp') := by
  intro h
  obtain ⟨buf₁, -, heq⟩ := Option.map_eq_some_iff.mp h
  exact absurd heq (by simp)

/-- The way in which a pass of `pipe_put` finds a place for its message. -/
inductive PutWay (pp : Pipe) (msg : Message) (malloc : Option Mem) : Pipe → Prop
  | room (buf : PipeBuf) (fits : msg.size ≤ (pp.bufs pp.wbuf).room)
      (append : (pp.bufs pp.wbuf).append msg = some buf) :
      PutWay pp msg malloc
        { pp with bufs := Function.update pp.bufs pp.wbuf buf, nmsg := u32 (pp.nmsg + 1) }
  | wrap (buf buf₁ : PipeBuf) (straight : ¬(pp.bufs pp.wbuf).wrapped)
      (fits : (pp.bufs pp.wbuf).beginIdx > msg.size) (wrap : (pp.bufs pp.wbuf).wrap = some buf₁)
      (append : buf₁.append msg = some buf) :
      PutWay pp msg malloc
        { pp with bufs := Function.update pp.bufs pp.wbuf buf, nmsg := u32 (pp.nmsg + 1) }
  | next (pp' : Pipe) (free : pp.NextFree) : PutWay pp msg malloc pp'
  | grow (pp' : Pipe) (full : ¬pp.Accepts msg) (block : malloc ≠ none)
      (below : u32 (2 * pp.bufSize) ≤ pp.bufMaxSize) : PutWay pp msg malloc pp'

/-- A pass of `pipe_put` that stores its message. -/
theorem putPass_stored (h : pipePutPass pp msg malloc = some (.stored pp' signalPut)) :
    signalPut = decide (pp.signalOnPut ≠ 0) ∧ pp'.signalOnPut = pp.signalOnPut ∧
      pp'.signalOnGet = pp.signalOnGet ∧ PutWay pp msg malloc pp' := by
  simp only [pipePutPass] at h
  split_ifs at h with hroom hwrap hfree hmax
  · obtain ⟨buf₁, hw, h⟩ := Option.bind_eq_some_iff.mp h
    obtain ⟨buf, happ, rfl, rfl⟩ := putStore_stored h
    exact ⟨rfl, rfl, rfl, .wrap buf buf₁ hwrap.1 hwrap.2 hw happ⟩
  · obtain ⟨buf, happ, rfl, rfl⟩ := putStore_stored h
    exact ⟨rfl, rfl, rfl, .next _ hfree⟩
  · cases malloc with
    | none => exact absurd h (by simp)
    | some block =>
        obtain ⟨buf, happ, rfl, rfl⟩ := putStore_stored h
        refine ⟨rfl, rfl, rfl, .grow _ ?_ (by simp) hmax⟩
        rintro (hfits | hfits | hfits)
        · omega
        · exact hwrap hfits
        · exact hfree hfits
  · exact absurd h (by simp)
  · obtain ⟨buf, happ, rfl, rfl⟩ := putStore_stored h
    exact ⟨rfl, rfl, rfl, .room buf (not_lt.mp hroom) happ⟩

/-- A pass of `pipe_put` that blocks. -/
theorem putPass_blocked (h : pipePutPass pp msg malloc = some (.blocked pp')) :
    ¬pp.Accepts msg ∧ pp' = { pp with signalOnGet := u32 (pp.signalOnGet + 1) } := by
  simp only [pipePutPass] at h
  split_ifs at h with hroom hwrap hfree hmax
  · obtain ⟨buf₁, -, h⟩ := Option.bind_eq_some_iff.mp h
    exact absurd h putStore_ne_blocked
  · exact absurd h putStore_ne_blocked
  · cases malloc with
    | none =>
        refine ⟨?_, (PutPass.blocked.inj (Option.some.inj h)).symm⟩
        rintro (hfits | hfits | hfits)
        · omega
        · exact hwrap hfits
        · exact hfree hfits
    | some block => exact absurd h putStore_ne_blocked
  · refine ⟨?_, (PutPass.blocked.inj (Option.some.inj h)).symm⟩
    rintro (hfits | hfits | hfits)
    · omega
    · exact hwrap hfits
    · exact hfree hfits
  · exact absurd h putStore_ne_blocked

/-- A pass of `pipe_get` that takes a message. -/
theorem getPass_taken {m : List UInt8} {signalGet : Bool}
    (h : pipeGetPass pp = some (.taken pp' m signalPut signalGet)) :
    pp'.signalOnPut = pp.signalOnPut ∧ pp'.signalOnGet = pp.signalOnGet ∧
      signalPut = decide (pp'.nmsg ≠ 0 ∧ pp.signalOnPut ≠ 0) ∧
      signalGet = decide (pp.signalOnGet ≠ 0) := by
  simp only [pipeGetPass] at h
  split_ifs at h
  · obtain ⟨⟨msg, buf, emptied⟩, -, heq⟩ := Option.bind_eq_some_iff.mp h
    obtain ⟨rfl, rfl, rfl, rfl⟩ := GetPass.taken.inj (Option.some.inj heq)
    exact ⟨rfl, rfl, rfl, rfl⟩
  · exact absurd h (by simp)

/-- A pass of `pipe_get` that blocks. -/
theorem getPass_blocked (h : pipeGetPass pp = some (.blocked pp')) :
    pp.nmsg = 0 ∧ pp' = { pp with signalOnPut := u32 (pp.signalOnPut + 1) } := by
  simp only [pipeGetPass] at h
  split_ifs at h with hn
  · obtain ⟨⟨msg, buf, emptied⟩, -, heq⟩ := Option.bind_eq_some_iff.mp h
    exact absurd heq (by simp)
  · exact ⟨not_not.mp hn, (GetPass.blocked.inj (Option.some.inj h)).symm⟩

/-- The write buffer changes and the other ones stay: what the pipe accepts then. -/
theorem not_accepts_update {n : ℕ} (hno : ¬pp.NextFree)
    (hnext : buf'.nextBuf = (pp.bufs pp.wbuf).nextBuf) (hroom : buf'.room < msg.size)
    (hwrap : buf'.wrapped ∨ buf'.beginIdx ≤ msg.size) :
    ¬({ pp with bufs := Function.update pp.bufs pp.wbuf buf', nmsg := n } : Pipe).Accepts msg := by
  rintro (hfits | hfits | hfits)
  · simp only [Function.update_self] at hfits
    omega
  · simp only [Function.update_self] at hfits
    rcases hwrap with hw | hle
    · exact hfits.1 hw
    · omega
  · simp only [NextFree, Function.update_self, hnext] at hfits
    obtain ⟨hne, hb, he⟩ := hfits
    rw [Function.update_of_ne hne.symm] at hb he
    exact hno ⟨hne, hb, he⟩

/-- Nobody waits for a new pipe. -/
theorem signals_pipeNew {maxSize minSize : ℕ} (h : pipeNew maxSize minSize malloc = .ok pp) :
    pp.signalOnPut = 0 ∧ pp.signalOnGet = 0 := by
  unfold pipeNew at h
  split at h
  · cases malloc with
    | none => exact absurd h (by simp)
    | some block =>
        obtain rfl : pipeInit maxSize minSize block = pp := by simpa using h
        exact ⟨rfl, rfl⟩
  · exact absurd h (by simp)

/-- The write buffer is well formed. -/
theorem Rep.wbuf (h : Rep pp queue) :
    ∃ ms, (pp.bufs pp.wbuf).Holds ms ∧ (pp.bufs pp.wbuf).Sized := by
  obtain ⟨act, rest, q, hr, -⟩ := h
  have hmem := Ring.mem_wbuf pp act rest
  exact ⟨q pp.wbuf, hr.holds _ hmem, hr.sized _ hmem⟩

/-- A message behind the others, in a gap that it does not fill, makes no room for another
one. -/
theorem room_of_append {buf : PipeBuf} {ms : List Message} (hh : buf.Holds ms) (hok : buf.Sized)
    (hfits : msg.size ≤ buf.room) (hgap : ¬(buf.wrapped ∧ msg.size = buf.room))
    (happ : buf.append msg = some buf') (hroom : buf.room < msg'.size)
    (hwrap : buf.wrapped ∨ buf.beginIdx ≤ msg'.size) :
    buf'.room < msg'.size ∧ (buf'.wrapped ∨ buf'.beginIdx ≤ msg'.size) := by
  obtain ⟨hb, he, hl, -⟩ := PipeBuf.append_fields happ
  have hroom_eq := hh.room_eq hok
  have hend := hh.endIdx_le
  have hmax := hok.le_max
  have hbegin := hh.beginIdx_le
  have hsize := msg.size_le
  simp only [pipeBufMaxSize] at hmax
  rw [u32_of_lt (by omega)] at he
  by_cases hw : buf.wrapped
  · rw [if_pos hw] at hroom_eq
    have hne : msg.size ≠ buf.room := fun heq => hgap ⟨hw, heq⟩
    have hlt : buf.endIdx < buf.beginIdx := hw
    have hw' : buf'.wrapped := by
      change buf'.endIdx < buf'.beginIdx
      omega
    refine ⟨?_, Or.inl hw'⟩
    rw [PipeBuf.room, if_pos hw', hb, he, u32sub_of_le (by omega) (by omega)]
    omega
  · rw [if_neg hw] at hroom_eq
    have hge : ¬buf.endIdx < buf.beginIdx := hw
    have hw' : ¬buf'.wrapped := by
      change ¬buf'.endIdx < buf'.beginIdx
      omega
    refine ⟨?_, Or.inr ?_⟩
    · rw [PipeBuf.room, if_neg hw', hl, he, u32sub_of_le (by omega) (by omega)]
      omega
    · rw [hb]
      exact hwrap.resolve_left hw

/-- A message at the start of the buffer makes no room for a longer one. -/
theorem room_of_wrap {buf buf₁ : PipeBuf} {ms : List Message} (hh : buf.Holds ms)
    (hok : buf.Sized) (hfits : buf.beginIdx > msg.size) (hw : buf.wrap = some buf₁)
    (happ : buf₁.append msg = some buf') (hle : buf.beginIdx ≤ msg'.size) :
    buf'.room < msg'.size ∧ (buf'.wrapped ∨ buf'.beginIdx ≤ msg'.size) := by
  obtain ⟨hb₁, he₁, -, -⟩ := PipeBuf.wrap_fields hw
  obtain ⟨hb, he, -, -⟩ := PipeBuf.append_fields happ
  have hmax := hok.le_max
  have hbegin := hh.beginIdx_le
  have hsize := msg.size_le
  have hpos := msg.two_le_size
  simp only [pipeBufMaxSize] at hmax
  rw [he₁, u32_of_lt (by omega)] at he
  have hw' : buf'.wrapped := by
    change buf'.endIdx < buf'.beginIdx
    omega
  refine ⟨?_, Or.inl hw'⟩
  rw [PipeBuf.room, if_pos hw', hb, hb₁, he, u32sub_of_le (by omega) (by omega)]
  omega

/-- A calm pass of `pipe_put` makes no room for a message that has not been accepted. -/
theorem not_accepts_of_stored (h : Rep pp queue) (hcalm : pp.Calm msg malloc)
    (hpass : pipePutPass pp msg malloc = some (.stored pp' signalPut))
    (hno : ¬pp.Accepts msg') : ¬pp'.Accepts msg' := by
  obtain ⟨ms, hh, hok⟩ := h.wbuf
  have hroom : (pp.bufs pp.wbuf).room < msg'.size := not_le.mp fun hle => hno (Or.inl hle)
  have hwrap : (pp.bufs pp.wbuf).wrapped ∨ (pp.bufs pp.wbuf).beginIdx ≤ msg'.size := by
    by_contra hboth
    obtain ⟨hw, hb⟩ := not_or.mp hboth
    exact hno (Or.inr (Or.inl ⟨hw, not_le.mp hb⟩))
  have hfree : ¬pp.NextFree := fun hfree => hno (Or.inr (Or.inr hfree))
  obtain ⟨-, -, -, hway⟩ := putPass_stored hpass
  cases hway with
  | room buf hfits happ =>
      obtain ⟨hroom', hwrap'⟩ := room_of_append hh hok hfits hcalm.2 happ hroom hwrap
      exact not_accepts_update hfree (PipeBuf.append_fields happ).2.2.2 hroom' hwrap'
  | wrap buf buf₁ hstraight hfits hw happ =>
      obtain ⟨hroom', hwrap'⟩ :=
        room_of_wrap hh hok hfits hw happ (hwrap.resolve_left hstraight)
      refine not_accepts_update hfree ?_ hroom' hwrap'
      rw [(PipeBuf.append_fields happ).2.2.2, (PipeBuf.wrap_fields hw).2.2.2]
  | next _ hnext => exact absurd hnext hfree
  | grow _ hfull hblock hbelow =>
      rcases hcalm.1 with haccepts | hnone | habove
      · exact absurd haccepts hfull
      · exact absurd hnone hblock
      · omega

end Pipe

/-! ## Lost wake-ups -/

/-- The thread has been signalled and has not come back yet. -/
def PipePhase.pendingAs (r : PipeRole) : PipePhase → Bool
  | .woken l .signal | .reentering l .signal => l.role = r
  | _ => false

/-- The thread is counted in `signal_on_put` or `signal_on_get`. -/
def PipePhase.countedAs (r : PipeRole) : PipePhase → Bool
  | .parking l | .waiting l | .woken l _ | .reentering l _ => l.role = r
  | _ => false

theorem PipePhase.countedAs_of_waitsAs {r : PipeRole} {p : PipePhase} (h : p.waitsAs r = true) :
    p.countedAs r = true := by
  cases p <;> simp_all [waitsAs, countedAs]

theorem PipePhase.waitsAs_iff {r : PipeRole} {p : PipePhase} :
    p.waitsAs r = true ↔ ∃ l, p = .waiting l ∧ l.role = r := by
  cases p <;> simp [waitsAs]

/-- The loop has to wait. -/
def PipeLoop.Stuck (pp : Pipe) : PipeLoop → Prop
  | .put msg => ¬pp.Accepts msg
  | .get => pp.nmsg = 0

section

variable {ν θ : Type*}

namespace PipeThreads

/-- There are messages and a blocked reader, and no signalled reader is pending. -/
def LostReader (s : PipeThreads ν θ) : Prop :=
  s.pp.nmsg ≠ 0 ∧ (∃ t, (s.phase t).waitsAs .reader = true) ∧
    ∀ t, (s.phase t).pendingAs .reader = false

/-- The message of a blocked writer would be accepted, and no signalled writer is pending. -/
def LostWriter (s : PipeThreads ν θ) : Prop :=
  (∃ t msg, s.phase t = .waiting (.put msg) ∧ s.pp.Accepts msg) ∧
    ∀ t, (s.phase t).pendingAs .writer = false

end PipeThreads

/-- The put passes of a step are correct, a writer that has not waited leaves a lost one
alone, and the counters do not wrap around. -/
def PipeThreadOp.KeepsWakes (s : PipeThreads ν θ) : PipeThreadOp θ → Prop
  | .enter t malloc _ _ =>
      (∀ msg, s.phase t = .entering (.loop (.put msg)) →
        PutSafe s.pp ∧ s.pp.signalOnGet + 1 < 2 ^ 32 ∧
          ((∃ t', (s.phase t').waitsAs .writer = true) →
            (∃ t', (s.phase t').pendingAs .writer = true) ∨ s.pp.Calm msg malloc)) ∧
        (s.phase t = .entering (.loop .get) → s.pp.signalOnPut + 1 < 2 ^ 32)
  | .resume t _ _ _ =>
      ∀ msg e, s.phase t = .reentering (.put msg) e → e.ok = true → PutSafe s.pp
  | _ => True

end

namespace PipeThreads

section

variable {ν θ : Type*}

/-- The number of the threads that are counted. -/
def Counts (s : PipeThreads ν θ) (r : PipeRole) (n : ℕ) : Prop :=
  n < 2 ^ 32 ∧ ∃ F : Finset θ, (∀ t, t ∈ F ↔ (s.phase t).countedAs r = true) ∧ F.card = n

/-- The same without the thread `t`. -/
def CountsBut (s : PipeThreads ν θ) (r : PipeRole) (t : θ) (n : ℕ) : Prop :=
  n < 2 ^ 32 ∧ ∃ F : Finset θ,
    (∀ t', t' ∈ F ↔ t' ≠ t ∧ (s.phase t').countedAs r = true) ∧ F.card = n

/-- A reader is signalled besides `t`, if one waits and there are messages. -/
def ReaderOk (s : PipeThreads ν θ) (t : θ) : Prop :=
  s.pp.nmsg ≠ 0 → (∃ t', (s.phase t').waitsAs .reader = true) →
    ∃ t', t' ≠ t ∧ (s.phase t').pendingAs .reader = true

/-- A writer is signalled besides `t`, if the message of one would be accepted. -/
def WriterOk (s : PipeThreads ν θ) (t : θ) : Prop :=
  ∀ t' msg, s.phase t' = .waiting (.put msg) → s.pp.Accepts msg →
    ∃ t', t' ≠ t ∧ (s.phase t').pendingAs .writer = true

/-- What holds along a run. -/
structure WakeInv (vmOf : θ → ν) (s : PipeThreads ν θ) : Prop where
  locks : s.Locks vmOf
  rep : ∃ queue, s.pp.Rep queue
  readers : s.Counts .reader s.pp.signalOnPut
  writers : s.Counts .writer s.pp.signalOnGet
  stuck : ∀ t l, s.phase t = .parking l → l.Stuck s.pp
  no_lost_reader : ¬s.LostReader
  no_lost_writer : ¬s.LostWriter

/-- What holds while the thread `t` has both locks and makes a pass. -/
structure Mid (vmOf : θ → ν) (s : PipeThreads ν θ) (t : θ) : Prop where
  inside : s.Inside vmOf t
  rep : ∃ queue, s.pp.Rep queue
  readers : s.CountsBut .reader t s.pp.signalOnPut
  writers : s.CountsBut .writer t s.pp.signalOnGet
  active : ∀ l, s.phase t ≠ .waiting l

variable {vmOf : θ → ν} {s s' : PipeThreads ν θ} {r : PipeRole} {t : θ} {n : ℕ}

theorem Counts.congr (h : s.Counts r n)
    (heq : ∀ t, (s'.phase t).countedAs r = (s.phase t).countedAs r) : s'.Counts r n := by
  obtain ⟨hn, F, hF, hcard⟩ := h
  refine ⟨hn, F, fun t => ?_, hcard⟩
  rw [hF, heq]

theorem CountsBut.congr (h : s.CountsBut r t n)
    (heq : ∀ t, (s'.phase t).countedAs r = (s.phase t).countedAs r) : s'.CountsBut r t n := by
  obtain ⟨hn, F, hF, hcard⟩ := h
  refine ⟨hn, F, fun t => ?_, hcard⟩
  rw [hF, heq]

/-- A thread that is not counted. -/
theorem Counts.but (h : s.Counts r n) (ht : (s.phase t).countedAs r = false) :
    s.CountsBut r t n := by
  obtain ⟨hn, F, hF, hcard⟩ := h
  refine ⟨hn, F, fun t' => ?_, hcard⟩
  rw [hF]
  refine ⟨fun hin => ⟨?_, hin⟩, fun hin => hin.2⟩
  rintro rfl
  exact absurd hin (by simp [ht])

/-- A thread that is counted, without it. -/
theorem Counts.but_pred [DecidableEq θ] (h : s.Counts r n) (ht : (s.phase t).countedAs r = true) :
    s.CountsBut r t (u32sub n 1) ∧ u32sub n 1 + 1 < 2 ^ 32 := by
  obtain ⟨hn, F, hF, hcard⟩ := h
  have hmem : t ∈ F := (hF t).mpr ht
  have hpos : 0 < F.card := Finset.card_pos.mpr ⟨t, hmem⟩
  rw [u32sub_of_le (by omega) hn]
  refine ⟨⟨by omega, F.erase t, fun t' => ?_, ?_⟩, by omega⟩
  · rw [Finset.mem_erase, hF]
  · rw [Finset.card_erase_of_mem hmem, hcard]

/-- The thread is not counted after its step. -/
theorem CountsBut.counts (h : s.CountsBut r t n) (ht : (s'.phase t).countedAs r = false)
    (heq : ∀ t', t' ≠ t → (s'.phase t').countedAs r = (s.phase t').countedAs r) :
    s'.Counts r n := by
  obtain ⟨hn, F, hF, hcard⟩ := h
  refine ⟨hn, F, fun t' => ?_, hcard⟩
  rw [hF]
  by_cases hne : t' = t
  · simp [hne, ht]
  · simp [hne, heq t' hne]

/-- The thread is counted after its step. -/
theorem CountsBut.counts_succ [DecidableEq θ] (h : s.CountsBut r t n) (hn : n + 1 < 2 ^ 32)
    (ht : (s'.phase t).countedAs r = true)
    (heq : ∀ t', t' ≠ t → (s'.phase t').countedAs r = (s.phase t').countedAs r) :
    s'.Counts r (u32 (n + 1)) := by
  obtain ⟨-, F, hF, hcard⟩ := h
  rw [u32_of_lt hn]
  have hmem : t ∉ F := fun hin => ((hF t).mp hin).1 rfl
  refine ⟨hn, insert t F, fun t' => ?_, ?_⟩
  · rw [Finset.mem_insert, hF]
    by_cases hne : t' = t
    · simp [hne, ht]
    · simp [hne, heq t' hne]
  · rw [Finset.card_insert_of_notMem hmem, hcard]

/-- Another thread waits, so the counter is not zero. -/
theorem CountsBut.ne_zero (h : s.CountsBut r t n) {t' : θ} (hne : t' ≠ t)
    (hwait : (s.phase t').waitsAs r = true) : n ≠ 0 := by
  obtain ⟨-, F, hF, hcard⟩ := h
  have hmem : t' ∈ F := (hF t').mpr ⟨hne, PipePhase.countedAs_of_waitsAs hwait⟩
  have hpos : 0 < F.card := Finset.card_pos.mpr ⟨t', hmem⟩
  omega

theorem Mid.setPipe {pp : Pipe} (hm : s.Mid vmOf t) (hrep : ∃ queue, pp.Rep queue)
    (hput : pp.signalOnPut = s.pp.signalOnPut) (hget : pp.signalOnGet = s.pp.signalOnGet) :
    ({ s with pp := pp } : PipeThreads ν θ).Mid vmOf t := by
  refine ⟨hm.inside.setPipe pp, hrep, ?_, ?_, hm.active⟩
  · change CountsBut _ .reader t pp.signalOnPut
    rw [hput]
    exact hm.readers
  · change CountsBut _ .writer t pp.signalOnGet
    rw [hget]
    exact hm.writers

theorem Mid.ne_of_waits (hm : s.Mid vmOf t) {t' : θ} (hwait : (s.phase t').waitsAs r = true) :
    t' ≠ t := by
  rintro rfl
  obtain ⟨l, hl, -⟩ := PipePhase.waitsAs_iff.mp hwait
  exact hm.active l hl

end

/-! ### Signals -/

variable {ν θ : Type*} [DecidableEq θ] {vmOf : θ → ν} {s s' : PipeThreads ν θ} {r r' : PipeRole}
  {t pick : θ} {n : ℕ} {l : PipeLoop}

/-- A thread that waits after a signal has waited before. -/
theorem waiting_of_condSignal (h : (s.condSignal r pick).phase t = .waiting l) :
    s.phase t = .waiting l := by
  rcases s.condSignal_eq_or r pick with heq | ⟨l', hl', -, heq⟩
  · rwa [heq] at h
  · rw [heq] at h
    by_cases ht : t = pick
    · simp [ht] at h
    · simpa [ht] using h

theorem waitsAs_of_condSignal (h : ((s.condSignal r pick).phase t).waitsAs r' = true) :
    (s.phase t).waitsAs r' = true := by
  obtain ⟨l, hl, hr⟩ := PipePhase.waitsAs_iff.mp h
  exact PipePhase.waitsAs_iff.mpr ⟨l, waiting_of_condSignal hl, hr⟩

/-- A thread that is pending stays so. -/
theorem pendingAs_condSignal (h : (s.phase t).pendingAs r' = true) :
    ((s.condSignal r pick).phase t).pendingAs r' = true := by
  rcases s.condSignal_eq_or r pick with heq | ⟨l, hl, -, heq⟩
  · rwa [heq]
  · rw [heq]
    have ht : t ≠ pick := by
      rintro rfl
      simp [hl, PipePhase.pendingAs] at h
    simpa [ht] using h

/-- The thread that a signal wakes is pending. -/
theorem pendingAs_pick (h : (s.phase pick).waitsAs r = true) :
    ((s.condSignal r pick).phase pick).pendingAs r = true := by
  obtain ⟨l, hl, hr⟩ := PipePhase.waitsAs_iff.mp h
  rcases s.condSignal_eq_or r pick with heq | ⟨l', hl', hr', heq⟩
  · have hsig : s.condSignal r pick =
        { s with phase := Function.update s.phase pick (.woken l .signal) } := by
      simp only [condSignal, hl, hr, if_true]
    rw [hsig]
    simp [PipePhase.pendingAs, hr]
  · rw [heq]
    simp [PipePhase.pendingAs, hr']

/-- A signal for one side does not concern the other one. -/
theorem waitsAs_condSignal_ne (hne : r' ≠ r) (t : θ) :
    ((s.condSignal r pick).phase t).waitsAs r' = (s.phase t).waitsAs r' := by
  rcases s.condSignal_eq_or r pick with heq | ⟨l, hl, hr, heq⟩
  · rw [heq]
  · rw [heq]
    by_cases ht : t = pick
    · simp [ht, hl, PipePhase.waitsAs, hr, hne.symm]
    · simp [ht]

theorem countedAs_condSignal (t : θ) :
    ((s.condSignal r pick).phase t).countedAs r' = (s.phase t).countedAs r' :=
  condSignal_congr (fun _ => rfl) s r pick t

theorem Mid.condSignal (hm : s.Mid vmOf t) (r : PipeRole) (pick : θ) :
    (s.condSignal r pick).Mid vmOf t := by
  refine ⟨hm.inside.condSignal r pick, ?_, ?_, ?_, fun l hl => ?_⟩
  · rw [condSignal_pp]
    exact hm.rep
  · rw [condSignal_pp]
    exact hm.readers.congr countedAs_condSignal
  · rw [condSignal_pp]
    exact hm.writers.congr countedAs_condSignal
  · exact hm.active l (waiting_of_condSignal hl)

theorem ReaderOk.condSignal (h : s.ReaderOk t) (r : PipeRole) (pick : θ) :
    (s.condSignal r pick).ReaderOk t := by
  rintro hn ⟨t', ht'⟩
  rw [condSignal_pp] at hn
  obtain ⟨t'', hne, hpend⟩ := h hn ⟨t', waitsAs_of_condSignal ht'⟩
  exact ⟨t'', hne, pendingAs_condSignal hpend⟩

theorem WriterOk.condSignal (h : s.WriterOk t) (r : PipeRole) (pick : θ) :
    (s.condSignal r pick).WriterOk t := by
  intro t' msg ht' haccepts
  rw [condSignal_pp] at haccepts
  obtain ⟨t'', hne, hpend⟩ := h t' msg (waiting_of_condSignal ht') haccepts
  exact ⟨t'', hne, pendingAs_condSignal hpend⟩

/-- `pthread_cond_signal` wakes a thread that waits, if there is one. -/
def PicksFor (s : PipeThreads ν θ) (r : PipeRole) (pick : θ) : Prop :=
  (s.phase pick).waitsAs r ∨ ∀ t, ¬(s.phase t).waitsAs r

theorem PicksFor.condSignal_if {pick' : θ} (h : s.PicksFor r' pick') (hne : r' ≠ r) (c : Bool)
    (pick : θ) : (if c = true then s.condSignal r pick else s).PicksFor r' pick' := by
  cases c with
  | true =>
      rw [if_pos rfl, PicksFor]
      simp only [waitsAs_condSignal_ne hne]
      exact h
  | false => exact h

/-- After a signal another thread is pending, if one has waited. -/
theorem Mid.signalled (hm : s.Mid vmOf t) (hpick : s.PicksFor r pick)
    (hwait : ∃ t', (s.phase t').waitsAs r = true) :
    ∃ t', t' ≠ t ∧ ((s.condSignal r pick).phase t').pendingAs r = true := by
  obtain ⟨t', ht'⟩ := hwait
  have hw : (s.phase pick).waitsAs r = true := hpick.resolve_right fun hall => hall t' ht'
  exact ⟨pick, hm.ne_of_waits hw, pendingAs_pick hw⟩

/-- A signal that is sent if the counter is not zero reaches a waiting thread. -/
theorem Mid.signalled_if (hm : s.Mid vmOf t) (hpick : s.PicksFor r pick) (hn : s.CountsBut r t n)
    {c : Bool} (hc : n ≠ 0 → c = true)
    (hwait : ∃ t', ((if c = true then s.condSignal r pick else s).phase t').waitsAs r = true) :
    ∃ t', t' ≠ t ∧
      ((if c = true then s.condSignal r pick else s).phase t').pendingAs r = true := by
  have hwait₀ : ∃ t', (s.phase t').waitsAs r = true := by
    obtain ⟨t', ht'⟩ := hwait
    cases c with
    | true => exact ⟨t', waitsAs_of_condSignal ht'⟩
    | false => exact ⟨t', ht'⟩
  obtain ⟨t', ht'⟩ := hwait₀
  rw [if_pos (hc (hn.ne_zero (hm.ne_of_waits ht') ht'))]
  exact hm.signalled hpick ⟨t', ht'⟩

theorem Mid.condSignal_if (hm : s.Mid vmOf t) (c : Bool) (r : PipeRole) (pick : θ) :
    (if c = true then s.condSignal r pick else s).Mid vmOf t := by
  cases c with
  | true => exact hm.condSignal r pick
  | false => exact hm

theorem ReaderOk.condSignal_if (h : s.ReaderOk t) (c : Bool) (r : PipeRole) (pick : θ) :
    (if c = true then s.condSignal r pick else s).ReaderOk t := by
  cases c with
  | true => exact h.condSignal r pick
  | false => exact h

theorem WriterOk.condSignal_if (h : s.WriterOk t) (c : Bool) (r : PipeRole) (pick : θ) :
    (if c = true then s.condSignal r pick else s).WriterOk t := by
  cases c with
  | true => exact h.condSignal r pick
  | false => exact h

/-! ### The end of a pass -/

/-- The thread has made its pass; the pipe is the same up to the counters. -/
theorem Mid.finish {p : PipePhase} (hm : s.Mid vmOf t) (hr : s.ReaderOk t) (hw : s.WriterOk t)
    (hlocks : s'.Locks vmOf) (hphase : s'.phase = Function.update s.phase t p)
    (hp : ∀ l, p ≠ .waiting l) (hstuck : ∀ l, p = .parking l → l.Stuck s'.pp)
    (hrep : ∃ queue, s'.pp.Rep queue) (hreaders : s'.Counts .reader s'.pp.signalOnPut)
    (hwriters : s'.Counts .writer s'.pp.signalOnGet) (hnmsg : s'.pp.nmsg = s.pp.nmsg)
    (haccepts : ∀ msg, s'.pp.Accepts msg ↔ s.pp.Accepts msg) : s'.WakeInv vmOf := by
  have hother : ∀ t', t' ≠ t → s'.phase t' = s.phase t' := by
    intro t' hne
    rw [hphase, Function.update_of_ne hne]
  have hself : s'.phase t = p := by rw [hphase, Function.update_self]
  refine ⟨hlocks, hrep, hreaders, hwriters, fun t' l hl => ?_, ?_, ?_⟩
  · by_cases hne : t' = t
    · rw [hne, hself] at hl
      exact hstuck l hl
    · rw [hother t' hne] at hl
      exact absurd (hm.inside.not_inCs hne) (by simp [hl, PipePhase.inCs])
  · rintro ⟨hn, ⟨t', ht'⟩, hnone⟩
    have hne : t' ≠ t := by
      rintro rfl
      obtain ⟨l, hl, -⟩ := PipePhase.waitsAs_iff.mp ht'
      exact hp l (hself.symm.trans hl)
    rw [hother t' hne] at ht'
    rw [hnmsg] at hn
    obtain ⟨t'', hne', hpend⟩ := hr hn ⟨t', ht'⟩
    rw [← hother t'' hne'] at hpend
    exact absurd hpend (by simp [hnone t''])
  · rintro ⟨⟨t', msg, ht', hacc⟩, hnone⟩
    have hne : t' ≠ t := by
      rintro rfl
      exact hp _ (hself.symm.trans ht')
    rw [hother t' hne] at ht'
    obtain ⟨t'', hne', hpend⟩ := hw t' msg ht' ((haccepts msg).mp hacc)
    rw [← hother t'' hne'] at hpend
    exact absurd hpend (by simp [hnone t''])

theorem Mid.leave (hm : s.Mid vmOf t) (hr : s.ReaderOk t) (hw : s.WriterOk t) :
    (s.leave t).WakeInv vmOf := by
  have hcounts : ∀ {r n}, s.CountsBut r t n → (s.leave t).Counts r n := by
    intro r n h
    refine h.counts ?_ fun t' hne => ?_
    · simp [PipeThreads.leave, PipePhase.countedAs]
    · simp [PipeThreads.leave, hne]
  exact hm.finish hr hw hm.inside.leave rfl (by simp) (by simp) hm.rep (hcounts hm.readers)
    (hcounts hm.writers) rfl fun _ => Iff.rfl

/-- A step that only changes the phase of a thread, to one that is counted in the same way. -/
theorem WakeInv.move {p : PipePhase} (h : s.WakeInv vmOf) (hlocks : s'.Locks vmOf)
    (hpp : s'.pp = s.pp) (hphase : s'.phase = Function.update s.phase t p)
    (hcounted : ∀ r, p.countedAs r = (s.phase t).countedAs r)
    (hpend : ∀ r, (s.phase t).pendingAs r = true → p.pendingAs r = true)
    (hparking : ∀ l, p ≠ .parking l)
    (hwaits : ∀ l, p = .waiting l → l.Stuck s.pp) : s'.WakeInv vmOf := by
  have hcounted' : ∀ r t', (s'.phase t').countedAs r = (s.phase t').countedAs r := by
    intro r t'
    rw [hphase]
    by_cases ht : t' = t
    · rw [ht, Function.update_self, hcounted]
    · rw [Function.update_of_ne ht]
  have hpend' : ∀ r t', (s.phase t').pendingAs r = true → (s'.phase t').pendingAs r = true := by
    intro r t' ht'
    rw [hphase]
    by_cases ht : t' = t
    · rw [ht, Function.update_self]
      rw [ht] at ht'
      exact hpend r ht'
    · rwa [Function.update_of_ne ht]
  have hwaiting : ∀ t' l, s'.phase t' = .waiting l → ¬l.Stuck s.pp → s.phase t' = .waiting l := by
    intro t' l hl hstuck
    rw [hphase] at hl
    by_cases ht : t' = t
    · rw [ht, Function.update_self] at hl
      exact absurd (hwaits l hl) hstuck
    · rwa [Function.update_of_ne ht] at hl
  refine ⟨hlocks, ?_, ?_, ?_, fun t' l hl => ?_, ?_, ?_⟩
  · rw [hpp]
    exact h.rep
  · rw [hpp]
    exact h.readers.congr (hcounted' .reader)
  · rw [hpp]
    exact h.writers.congr (hcounted' .writer)
  · rw [hpp]
    rw [hphase] at hl
    by_cases ht : t' = t
    · rw [ht, Function.update_self] at hl
      exact absurd hl (hparking l)
    · rw [Function.update_of_ne ht] at hl
      exact h.stuck t' l hl
  · rintro ⟨hn, ⟨t', ht'⟩, hnone⟩
    rw [hpp] at hn
    obtain ⟨l, hl, hrole⟩ := PipePhase.waitsAs_iff.mp ht'
    have hstuck : ¬l.Stuck s.pp := by
      cases l with
      | put msg => exact absurd hrole (by simp [PipeLoop.role])
      | get => exact hn
    refine h.no_lost_reader ⟨hn, ⟨t', PipePhase.waitsAs_iff.mpr ⟨l, hwaiting t' l hl hstuck, hrole⟩⟩,
      fun t'' => ?_⟩
    by_contra hp
    exact absurd (hpend' .reader t'' (by simpa using hp)) (by simp [hnone t''])
  · rintro ⟨⟨t', msg, ht', hacc⟩, hnone⟩
    rw [hpp] at hacc
    refine h.no_lost_writer ⟨⟨t', msg, hwaiting t' _ ht' (not_not.mpr hacc), hacc⟩, fun t'' => ?_⟩
    by_contra hp
    exact absurd (hpend' .writer t'' (by simpa using hp)) (by simp [hnone t''])

variable [DecidableEq ν] {op : PipeThreadOp θ}

/-- A pass that blocks. -/
theorem Mid.startWait (hm : s.Mid vmOf t) (hr : s.ReaderOk t) (hw : s.WriterOk t) {m n : ℕ}
    (hstuck : l.Stuck s.pp)
    (hcounts : l.role = .reader ∧ s.pp.signalOnPut + 1 < 2 ^ 32 ∧ m = u32 (s.pp.signalOnPut + 1) ∧
        n = s.pp.signalOnGet ∨
      l.role = .writer ∧ s.pp.signalOnGet + 1 < 2 ^ 32 ∧ m = s.pp.signalOnPut ∧
        n = u32 (s.pp.signalOnGet + 1)) :
    (({ s with pp := { s.pp with signalOnPut := m, signalOnGet := n } } :
      PipeThreads ν θ).startWait vmOf t l).WakeInv vmOf := by
  have hself : ∀ r, (PipePhase.parking l).countedAs r = decide (l.role = r) := fun _ => rfl
  obtain ⟨queue, hq⟩ := hm.rep
  have hphase : ∀ {u v : ℕ} (t' : θ), (({ s with
      pp := { s.pp with signalOnPut := u, signalOnGet := v } } :
      PipeThreads ν θ).startWait vmOf t l).phase t' =
        Function.update s.phase t (.parking l) t' := fun _ => rfl
  refine hm.finish hr hw ((hm.inside.setPipe _).startWait l) rfl (by simp) ?_
    ⟨queue, hq.signals m n⟩ ?_ ?_ rfl fun msg => Pipe.accepts_signals s.pp m n msg
  · intro l' hl'
    obtain rfl := PipePhase.parking.inj hl'
    cases l with
    | put msg => exact hstuck
    | get => exact hstuck
  · rcases hcounts with ⟨hrole, hlt, rfl, rfl⟩ | ⟨hrole, -, rfl, rfl⟩
    · refine hm.readers.counts_succ hlt ?_ fun t' hne => ?_
      · rw [hphase, Function.update_self, hself, hrole]
        rfl
      · rw [hphase, Function.update_of_ne hne]
    · refine hm.readers.counts ?_ fun t' hne => ?_
      · rw [hphase, Function.update_self, hself, hrole]
        rfl
      · rw [hphase, Function.update_of_ne hne]
  · rcases hcounts with ⟨hrole, -, rfl, rfl⟩ | ⟨hrole, hlt, rfl, rfl⟩
    · refine hm.writers.counts ?_ fun t' hne => ?_
      · rw [hphase, Function.update_self, hself, hrole]
        rfl
      · rw [hphase, Function.update_of_ne hne]
    · refine hm.writers.counts_succ hlt ?_ fun t' hne => ?_
      · rw [hphase, Function.update_self, hself, hrole]
        rfl
      · rw [hphase, Function.update_of_ne hne]

/-- A pass of `pipe_put`. -/
theorem Mid.putPass {msg : Message} {malloc : Option Mem} {reader writer : θ}
    (hm : s.Mid vmOf t) (hr : s.ReaderOk t) (hw : s.WriterOk t) (hsafe : PutSafe s.pp)
    (hroom : s.pp.signalOnGet + 1 < 2 ^ 32)
    (hcalm : (∃ t', (s.phase t').waitsAs .writer = true) →
      (∃ t', t' ≠ t ∧ (s.phase t').pendingAs .writer = true) ∨ s.pp.Calm msg malloc)
    (hpick : s.PicksFor .reader reader)
    (hpass : s.pass vmOf t (.put msg) malloc reader writer = some s') : s'.WakeInv vmOf := by
  obtain ⟨res, hput, rfl⟩ := Option.map_eq_some_iff.mp hpass
  obtain ⟨queue, hq⟩ := hm.rep
  cases res with
  | blocked pp =>
      obtain ⟨hno, rfl⟩ := Pipe.putPass_blocked hput
      exact hm.startWait hr hw hno (Or.inr ⟨rfl, hroom, rfl, rfl⟩)
  | stored pp signalPut =>
      obtain ⟨hsig, hsp, hsg, -⟩ := Pipe.putPass_stored hput
      have hrep : ∃ queue, pp.Rep queue := by
        rcases putPass_spec hq hsafe msg malloc with ⟨pp', sig, hstored, hrep⟩ | hblocked
        · obtain ⟨rfl, -⟩ := PutPass.stored.inj (Option.some.inj (hstored.symm.trans hput))
          exact ⟨_, hrep⟩
        · exact absurd (hblocked.symm.trans hput) (by simp)
      have hm₁ := hm.setPipe hrep hsp hsg
      have hw₁ : ({ s with pp := pp } : PipeThreads ν θ).WriterOk t := by
        intro t' msg' ht' hacc
        by_cases hold : s.pp.Accepts msg'
        · exact hw t' msg' ht' hold
        · rcases hcalm ⟨t', PipePhase.waitsAs_iff.mpr ⟨_, ht', rfl⟩⟩ with hpend | hquiet
          · exact hpend
          · exact absurd hacc (Pipe.not_accepts_of_stored hq hquiet hput hold)
      have hr₁ : (if signalPut = true then ({ s with pp := pp } : PipeThreads ν θ).condSignal
          .reader reader else { s with pp := pp }).ReaderOk t := fun _ hwait =>
        hm₁.signalled_if hpick hm.readers (fun hne => by simp [hsig, hne]) hwait
      exact (hm₁.condSignal_if _ _ _).leave hr₁ (hw₁.condSignal_if _ _ _)

/-- A pass of `pipe_get`. -/
theorem Mid.getPass {malloc : Option Mem} {reader writer : θ} (hm : s.Mid vmOf t)
    (hw : s.WriterOk t) (hroom : s.pp.signalOnPut + 1 < 2 ^ 32)
    (hreader : s.PicksFor .reader reader) (hwriter : s.PicksFor .writer writer)
    (hpass : s.pass vmOf t .get malloc reader writer = some s') : s'.WakeInv vmOf := by
  obtain ⟨res, hget, rfl⟩ := Option.map_eq_some_iff.mp hpass
  obtain ⟨queue, hq⟩ := hm.rep
  cases res with
  | blocked pp =>
      obtain ⟨hnil, rfl⟩ := Pipe.getPass_blocked hget
      have hr : s.ReaderOk t := fun hn => absurd hnil hn
      exact hm.startWait hr hw hnil (Or.inl ⟨rfl, hroom, rfl, rfl⟩)
  | taken pp m signalPut signalGet =>
      obtain ⟨hsp, hsg, hsigPut, hsigGet⟩ := Pipe.getPass_taken hget
      have hrep : ∃ queue, pp.Rep queue := by
        cases queue with
        | nil => exact absurd ((getPass_nil hq).symm.trans hget) (by simp)
        | cons msg queue =>
            obtain ⟨pp', sp, sg, htaken, hrep⟩ := getPass_cons hq
            obtain ⟨rfl, -⟩ := GetPass.taken.inj (Option.some.inj (htaken.symm.trans hget))
            exact ⟨_, hrep⟩
      have hm₁ := hm.setPipe hrep hsp hsg
      have hm₂ := hm₁.condSignal_if signalPut .reader reader
      have hr₂ : (if signalPut = true then ({ s with pp := pp } : PipeThreads ν θ).condSignal
          .reader reader else { s with pp := pp }).ReaderOk t := by
        intro hn hwait
        have hn' : pp.nmsg ≠ 0 := by
          cases signalPut with
          | true => simpa using hn
          | false => exact hn
        exact hm₁.signalled_if hreader hm.readers (fun hne => by simp [hsigPut, hn', hne]) hwait
      have hwriters := hm.writers.congr fun t' =>
        condSignal_if_congr (fun _ => rfl) ({ s with pp := pp } : PipeThreads ν θ) signalPut
          .reader reader t'
      have hwriter₂ : (if signalPut = true then ({ s with pp := pp } : PipeThreads ν θ).condSignal
          .reader reader else { s with pp := pp }).PicksFor .writer writer :=
        PicksFor.condSignal_if (s := { s with pp := pp }) (r := .reader) hwriter (by simp) _ _
      refine (hm₂.condSignal_if signalGet .writer writer).leave (hr₂.condSignal_if _ _ _) ?_
      intro t' msg' ht' _
      exact hm₂.signalled_if hwriter₂ hwriters (fun hne => by simp [hsigGet, hne])
        ⟨t', PipePhase.waitsAs_iff.mpr ⟨_, ht', rfl⟩⟩

/-! ### The steps -/

omit [DecidableEq θ] [DecidableEq ν] in
theorem WakeInv.reader_pending (h : s.WakeInv vmOf) (hn : s.pp.nmsg ≠ 0)
    (hwait : ∃ t, (s.phase t).waitsAs .reader = true) :
    ∃ t, (s.phase t).pendingAs .reader = true := by
  by_contra hnone
  exact h.no_lost_reader ⟨hn, hwait, fun t => by simpa using not_exists.mp hnone t⟩

omit [DecidableEq θ] [DecidableEq ν] in
theorem WakeInv.writer_pending (h : s.WakeInv vmOf) {msg : Message}
    (hwait : ∃ t, s.phase t = .waiting (.put msg)) (hacc : s.pp.Accepts msg) :
    ∃ t, (s.phase t).pendingAs .writer = true := by
  by_contra hnone
  obtain ⟨t, ht⟩ := hwait
  exact h.no_lost_writer ⟨⟨t, msg, ht, hacc⟩, fun t => by simpa using not_exists.mp hnone t⟩

omit [DecidableEq θ] [DecidableEq ν] in
/-- Another reader is pending, if the thread itself is not. -/
theorem WakeInv.readerOk (h : s.WakeInv vmOf) (ht : (s.phase t).pendingAs .reader = false) :
    s.ReaderOk t := by
  intro hn hwait
  obtain ⟨t', ht'⟩ := h.reader_pending hn hwait
  refine ⟨t', ?_, ht'⟩
  rintro rfl
  exact absurd ht' (by simp [ht])

omit [DecidableEq θ] [DecidableEq ν] in
theorem WakeInv.writerOk (h : s.WakeInv vmOf) (ht : (s.phase t).pendingAs .writer = false) :
    s.WriterOk t := by
  intro t' msg hwait hacc
  obtain ⟨t'', ht''⟩ := h.writer_pending ⟨t', hwait⟩ hacc
  refine ⟨t'', ?_, ht''⟩
  rintro rfl
  exact absurd ht'' (by simp [ht])

omit [DecidableEq θ] [DecidableEq ν] in
/-- A thread that has called a function of the pipe enters. -/
theorem WakeInv.mid_enter (h : s.WakeInv vmOf) (hcs : s.cs = none) {c : PipeCall}
    (hphase : s.phase t = .entering c) : s.Mid vmOf t ∧ s.ReaderOk t ∧ s.WriterOk t := by
  refine ⟨⟨?_, h.rep, h.readers.but ?_, h.writers.but ?_, ?_⟩, h.readerOk ?_, h.writerOk ?_⟩
  · exact h.locks.inside_enter hcs (by simp [hphase, PipePhase.inVm])
  · simp [hphase, PipePhase.countedAs]
  · simp [hphase, PipePhase.countedAs]
  · simp [hphase]
  · simp [hphase, PipePhase.pendingAs]
  · simp [hphase, PipePhase.pendingAs]

/-- A thread comes back from its wait and has updated the counters. -/
theorem WakeInv.mid_resume (h : s.WakeInv vmOf) (hvm : s.vm (vmOf t) = none) {e : WaitEnd}
    (hphase : s.phase t = .reentering l e) {m n : ℕ} (hr : s.CountsBut .reader t m)
    (hw : s.CountsBut .writer t n) :
    ({ s with
      vm := Function.update s.vm (vmOf t) (some t)
      pp := { s.pp with signalOnPut := m, signalOnGet := n } } : PipeThreads ν θ).Mid vmOf t := by
  obtain ⟨queue, hq⟩ := h.rep
  refine ⟨?_, ⟨queue, hq.signals m n⟩, hr, hw, by simp [hphase]⟩
  exact (h.locks.inside_resume hvm (by simp [hphase, PipePhase.inCs])).setPipe _

omit [DecidableEq ν] in
theorem afterWait_get (s : PipeThreads ν θ) (vm : ν → Option θ) (writer : θ) :
    ({ s with vm := vm } : PipeThreads ν θ).afterWait .get writer = { s with
      vm := vm
      pp := { s.pp with
        signalOnPut := u32sub s.pp.signalOnPut 1
        signalOnGet := s.pp.signalOnGet } } := rfl

/-- A reader goes on after its wait, with the counter `m` of readers. -/
theorem WakeInv.resume_get (h : s.WakeInv vmOf) (hvm : s.vm (vmOf t) = none) {e : WaitEnd}
    (hphase : s.phase t = .reentering .get e) {m : ℕ} (hr : s.CountsBut .reader t m)
    (hroom : m + 1 < 2 ^ 32) {malloc : Option Mem} {reader writer : θ}
    (hreader : s.PicksFor .reader reader) (hwriter : s.PicksFor .writer writer)
    {s₁ : PipeThreads ν θ} (hs₁ : s₁ = { s with
      vm := Function.update s.vm (vmOf t) (some t)
      pp := { s.pp with signalOnPut := m, signalOnGet := s.pp.signalOnGet } })
    (hrun : (if e.ok = true then s₁.pass vmOf t .get malloc reader writer
      else some (s₁.leave t)) = some s') : s'.WakeInv vmOf := by
  have hw := h.writers.but (t := t) (by simp [hphase, PipePhase.countedAs, PipeLoop.role])
  have hm := h.mid_resume hvm hphase hr hw
  have hwok := h.writerOk (t := t)
    (by cases e <;> simp [hphase, PipePhase.pendingAs, PipeLoop.role])
  subst hs₁
  split_ifs at hrun with hok
  · exact hm.getPass hwok hroom hreader hwriter hrun
  · obtain rfl := Option.some.inj hrun
    refine hm.leave (h.readerOk (t := t) ?_) hwok
    cases e with
    | signal | spurious => exact absurd rfl hok
    | timedOut | failed => simp [hphase, PipePhase.pendingAs]

omit [DecidableEq ν] in
theorem condSignal_if_pp (s : PipeThreads ν θ) (c : Bool) (r : PipeRole) (pick : θ) :
    (if c = true then s.condSignal r pick else s).pp = s.pp := by
  cases c with
  | true => exact s.condSignal_pp r pick
  | false => rfl

theorem putWake_eq (pp : Pipe) : putWake pp =
    ({ pp with signalOnPut := pp.signalOnPut, signalOnGet := u32sub pp.signalOnGet 1 },
      decide (u32sub pp.signalOnGet 1 ≠ 0)) := rfl

omit [DecidableEq ν] in
theorem afterWait_put (s : PipeThreads ν θ) (vm : ν → Option θ) (msg : Message) (writer : θ)
    {pp : Pipe} {c : Bool} (hwake : putWake s.pp = (pp, c)) :
    ({ s with vm := vm } : PipeThreads ν θ).afterWait (.put msg) writer =
      if c = true then ({ s with vm := vm, pp := pp } : PipeThreads ν θ).condSignal .writer writer
      else { s with vm := vm, pp := pp } := by
  simp only [afterWait, hwake]

/-- A writer goes on after its wait, with the counter `n` of writers.  It has woken up
another one, so that its pass may do anything. -/
theorem WakeInv.resume_put (h : s.WakeInv vmOf) (hvm : s.vm (vmOf t) = none) {e : WaitEnd}
    {msg : Message} (hphase : s.phase t = .reentering (.put msg) e) {n : ℕ}
    (hw : s.CountsBut .writer t n) (hroom : n + 1 < 2 ^ 32)
    (hsafe : e.ok = true → PutSafe s.pp) {malloc : Option Mem} {reader writer : θ}
    (hreader : s.PicksFor .reader reader) (hwriter : s.PicksFor .writer writer)
    {s₁ s₂ : PipeThreads ν θ} (hs₁ : s₁ = { s with
      vm := Function.update s.vm (vmOf t) (some t)
      pp := { s.pp with signalOnPut := s.pp.signalOnPut, signalOnGet := n } })
    (hs₂ : s₂ = if decide (n ≠ 0) = true then s₁.condSignal .writer writer else s₁)
    (hrun : (if e.ok = true then s₂.pass vmOf t (.put msg) malloc reader writer
      else some (s₂.leave t)) = some s') : s'.WakeInv vmOf := by
  have hr := h.readers.but (t := t) (by simp [hphase, PipePhase.countedAs, PipeLoop.role])
  have hm := h.mid_resume hvm hphase hr hw
  have hrok := h.readerOk (t := t)
    (by cases e <;> simp [hphase, PipePhase.pendingAs, PipeLoop.role])
  rw [← hs₁] at hm
  have hm₂ := hm.condSignal_if (decide (n ≠ 0)) .writer writer
  rw [← hs₂] at hm₂
  have hpp : s₂.pp = { s.pp with signalOnPut := s.pp.signalOnPut, signalOnGet := n } := by
    rw [hs₂, condSignal_if_pp, hs₁]
  have hr₂ : s₂.ReaderOk t := by
    have hr₁ : s₁.ReaderOk t := by
      rw [hs₁]
      exact hrok
    rw [hs₂]
    exact hr₁.condSignal_if _ _ _
  have halert : (∃ t', (s₂.phase t').waitsAs .writer = true) →
      ∃ t', t' ≠ t ∧ (s₂.phase t').pendingAs .writer = true := by
    rw [hs₂]
    refine hm.signalled_if (n := n) ?_ ?_ fun hne => by simp [hne]
    · rw [hs₁]
      exact hwriter
    · rw [hs₁]
      exact hw
  have hw₂ : s₂.WriterOk t := fun t' msg' ht' _ =>
    halert ⟨t', PipePhase.waitsAs_iff.mpr ⟨_, ht', rfl⟩⟩
  split_ifs at hrun with hok
  · refine hm₂.putPass hr₂ hw₂ ?_ ?_ (fun hwait => Or.inl (halert hwait)) ?_ hrun
    · rw [hpp]
      exact hsafe hok
    · rw [hpp]
      exact hroom
    · rw [hs₂]
      refine PicksFor.condSignal_if ?_ (by simp) _ _
      rw [hs₁]
      exact hreader
  · obtain rfl := Option.some.inj hrun
    exact hm₂.leave hr₂ hw₂

theorem WakeInv.step (h : s.WakeInv vmOf) (hpicks : op.Picks s) (hsafe : op.KeepsWakes s)
    (hstep : s.step vmOf op = some s') : s'.WakeInv vmOf := by
  have hlocks := h.locks.step hstep
  cases transition_of_step hstep with
  | vmEnter hvm hphase =>
      exact h.move hlocks rfl rfl (by simp [hphase, PipePhase.countedAs])
        (by simp [hphase, PipePhase.pendingAs]) (by simp) (by simp)
  | vmLeave hphase =>
      exact h.move hlocks rfl rfl (by simp [hphase, PipePhase.countedAs])
        (by simp [hphase, PipePhase.pendingAs]) (by simp) (by simp)
  | call hphase =>
      exact h.move hlocks rfl rfl (by simp [hphase, PipePhase.countedAs])
        (by simp [hphase, PipePhase.pendingAs]) (by simp) (by simp)
  | @enterLoop t l malloc reader writer _ hcs hphase hpass =>
      obtain ⟨hm, hr, hw⟩ := h.mid_enter hcs hphase
      cases l with
      | put msg =>
          obtain ⟨hput, hroom, hcalm⟩ := hsafe.1 msg hphase
          refine hm.putPass hr hw hput hroom (fun hwait => ?_) hpicks.1 hpass
          rcases hcalm hwait with ⟨t', ht'⟩ | hquiet
          · refine Or.inl ⟨t', ?_, ht'⟩
            rintro rfl
            simp [hphase, PipePhase.pendingAs] at ht'
          · exact Or.inr hquiet
      | get => exact hm.getPass hw (hsafe.2 hphase) hpicks.1 hpicks.2 hpass
  | enter hcs hphase =>
      obtain ⟨hm, hr, hw⟩ := h.mid_enter hcs hphase
      exact hm.leave hr hw
  | @park t l hphase =>
      refine h.move hlocks rfl rfl (by simp [hphase, PipePhase.countedAs])
        (by simp [hphase, PipePhase.pendingAs]) (by simp) fun l' hl' => ?_
      obtain rfl := PipePhase.waiting.inj hl'
      exact h.stuck t l hphase
  | wake hphase =>
      exact h.move hlocks rfl rfl (by simp [hphase, PipePhase.countedAs])
        (by simp [hphase, PipePhase.pendingAs]) (by simp) (by simp)
  | @lockAgain t l e hcs hphase =>
      exact h.move hlocks rfl rfl (by simp [hphase, PipePhase.countedAs])
        (by cases e <;> simp [hphase, PipePhase.pendingAs]) (by simp) (by simp)
  | @resume t l e malloc reader writer s₁ _ hvm hphase hs₁ hrun =>
      cases l with
      | put msg =>
          obtain ⟨hw, hroom⟩ := h.writers.but_pred (t := t)
            (by simp [hphase, PipePhase.countedAs, PipeLoop.role])
          rw [afterWait_put _ _ _ _ (putWake_eq s.pp)] at hs₁
          exact h.resume_put hvm hphase hw hroom (hsafe msg e hphase) hpicks.1 hpicks.2 rfl hs₁ hrun
      | get =>
          obtain ⟨hr, hroom⟩ := h.readers.but_pred (t := t)
            (by simp [hphase, PipePhase.countedAs, PipeLoop.role])
          rw [afterWait_get] at hs₁
          exact h.resume_get hvm hphase hr hroom hpicks.1 hpicks.2 hs₁ hrun

/-- The transitions after which nobody is lost. -/
def WakeStep (vmOf : θ → ν) (s s' : PipeThreads ν θ) : Prop :=
  ∃ op : PipeThreadOp θ, op.Picks s ∧ op.KeepsWakes s ∧ s.step vmOf op = some s'

omit [DecidableEq θ] [DecidableEq ν] in
theorem init_wakeInv (vmOf : θ → ν) {maxSize minSize : ℕ} {malloc : Option Mem} {pp : Pipe}
    (hnew : pipeNew maxSize minSize malloc = .ok pp) :
    (init pp : PipeThreads ν θ).WakeInv vmOf := by
  obtain ⟨hput, hget⟩ := Pipe.signals_pipeNew hnew
  have hcounts : ∀ r, (init pp : PipeThreads ν θ).Counts r 0 := fun r =>
    ⟨by decide, ∅, by simp [init, PipePhase.countedAs], rfl⟩
  refine ⟨init_locks vmOf pp, ⟨[], Pipe.rep_pipeNew hnew⟩, ?_, ?_, ?_, ?_, ?_⟩
  · change Counts _ .reader pp.signalOnPut
    rw [hput]
    exact hcounts .reader
  · change Counts _ .writer pp.signalOnGet
    rw [hget]
    exact hcounts .writer
  · simp [init]
  · rintro ⟨-, ⟨t, ht⟩, -⟩
    exact absurd ht (by simp [init, PipePhase.waitsAs])
  · rintro ⟨⟨t, msg, ht, -⟩, -⟩
    exact absurd ht (by simp [init])

/-- Whatever the number of readers and writers and their interleaving, the timeouts and the
spurious wake-ups: as long as the put passes are correct, and one that finds a blocked
writer and no signalled one is calm, no wake-up is lost. -/
theorem safe_run_no_lost_wake {maxSize minSize : ℕ} {malloc : Option Mem} {pp : Pipe}
    (hnew : pipeNew maxSize minSize malloc = .ok pp)
    (hrun : Relation.ReflTransGen (WakeStep vmOf) (init pp) s) :
    ¬s.LostReader ∧ ¬s.LostWriter := by
  have hinv : s.WakeInv vmOf := by
    refine inv_of_reach (I := WakeInv vmOf) ?_ (init_wakeInv vmOf hnew) hrun
    rintro s s' ⟨op, hpicks, hsafe, hstep⟩ h
    exact h.step hpicks hsafe hstep
  exact ⟨hinv.no_lost_reader, hinv.no_lost_writer⟩

/-- The run of a reader that waits and a writer that puts a message. -/
theorem safe_run_no_lost_wake_ordered :
    ∃ s : PipeThreads Unit (Fin 2), Relation.ReflTransGen (WakeStep fun _ => ())
        (init (pipeInit 4096 4096 fun _ => 0)) s ∧
      (s.phase 0).inVm = true ∧ ¬s.LostReader ∧ ¬s.LostWriter := by
  have hnew : pipeNew 4096 4096 (some fun _ => 0) = .ok (pipeInit 4096 4096 fun _ => 0) := rfl
  -- no writer ever waits in this run
  have hrun : (runOps (fun (s : PipeThreads Unit (Fin 2)) op =>
      if op.Picks s ∧ PutSafe s.pp ∧ s.pp.signalOnPut + 1 < 2 ^ 32 ∧
        s.pp.signalOnGet + 1 < 2 ^ 32 ∧ ∀ t, ¬(s.phase t).waitsAs .writer = true then
        s.step (fun _ => ()) op else none)
      (init (pipeInit 4096 4096 fun _ => 0)) (orderedOps 0 1)).map (fun s => (s.phase 0).inVm) =
        some true := by decide +kernel
  obtain ⟨s, hs, hvm⟩ := Option.map_eq_some_iff.mp hrun
  have hreach : Relation.ReflTransGen (WakeStep fun _ => ())
      (init (pipeInit 4096 4096 fun _ => 0)) s := by
    refine reach_of_runOps (fun s op _ hop => ?_) hs
    obtain ⟨⟨hpicks, hput, hr, hw, hnone⟩, hstep⟩ := Option.ite_none_right_eq_some.mp hop
    refine ⟨op, hpicks, ?_, hstep⟩
    cases op with
    | enter t malloc reader writer =>
        exact ⟨fun msg _ => ⟨hput, hw, fun ⟨t', ht'⟩ => absurd ht' (hnone t')⟩, fun _ => hr⟩
    | resume t malloc reader writer => exact fun _ _ _ _ => hput
    | vmEnter t | vmLeave t | call t c | park t | wake t e | lockAgain t => exact trivial
  exact ⟨s, hreach, hvm, safe_run_no_lost_wake hnew hreach⟩

/-- The threads of two VMs.  The thread `a` fills the buffer; then no memory is left for a
second buffer, and it waits.  There is memory again when `b` puts its message. -/
def growthOps {θ : Type} (a b : θ) : List (PipeThreadOp θ) :=
  [.vmEnter a] ++
    (List.range 8).flatMap (fun i =>
      [.call a (.loop (.put (filledMessage (UInt8.ofNat i)))), .enter a none a a]) ++
    [.call a (.loop (.put (filledMessage 8))), .enter a none a a, .park a, .vmEnter b,
      .call b (.loop (.put (filledMessage 9))), .enter b (some fun _ => 0) a a]

/-- The new buffer has room for the message of the first writer, and nobody tells it. -/
theorem growth_loses_writer :
    ∃ pp, pipeNew 8192 4096 (some fun _ => 0) = .ok pp ∧ ∃ s : PipeThreads (Fin 2) (Fin 2),
      Relation.ReflTransGen (Step id) (init pp) s ∧ s.LostWriter := by
  have hrun : (runOps (fun (s : PipeThreads (Fin 2) (Fin 2)) op =>
      if op.Picks s then s.step id op else none)
      (init (pipeInit 8192 4096 fun _ => 0)) (growthOps 0 1)).map (fun s =>
        (s.phase 0).putOffer.any (fun msg => s.pp.Accepts msg) &&
          decide (∀ t, (s.phase t).pendingAs .writer = false)) = some true := by
    decide +kernel
  obtain ⟨s, hs, heq⟩ := Option.map_eq_some_iff.mp hrun
  obtain ⟨hwait, hnone⟩ := (Bool.and_eq_true _ _).mp heq
  obtain ⟨msg, hoffer, haccepts⟩ := (Option.any_eq_true _ _).mp hwait
  refine ⟨_, rfl, s, reach_of_runOps (fun _ op _ hop => ?_) hs, ?_, of_decide_eq_true hnone⟩
  · obtain ⟨hpicks, hstep⟩ := Option.ite_none_right_eq_some.mp hop
    exact ⟨op, hpicks, hstep⟩
  · exact ⟨0, msg, PipePhase.putOffer_eq_some hoffer, of_decide_eq_true haccepts⟩

end PipeThreads

end LuaSys.Thread
