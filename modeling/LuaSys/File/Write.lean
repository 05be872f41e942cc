import LuaSys.Lib.Word
import LuaSys.Mem.Buffer

/-!
# Writing strings and memory buffers

The model of `sys_write` and `sock_write`.  Both run the same loop: one call of `write(2)`
for each argument, until one of them takes less than it was given.  A buffer keeps the
bytes that have not been taken: they are moved to its front.

The operating system is an environment: how much the `j`-th call takes, or that it
returns -1, and whether `errno` then says "again".  The loop that repeats an interrupted
call is part of one call.  The buffers are a map from addresses, so that one buffer may
stand for several arguments; the results are about distinct ones.

An argument that is empty takes a call too.  If this call returns -1, the first result is
false although everything has been sent.

## Main definitions

* `WriteEnv` — the results of the system calls.
* `WriteArg`, `sysBufferReadInit`, `sysBufferReadNext` — what is written.
* `writeLoop`, `sysWrite`, `sockWrite` — the functions of the source.
* `WriteExact` — nothing is lost or sent twice.

## Main results

* `writes_exact` — every write is exact.
-/

namespace LuaSys.File

open LuaSys.Lib LuaSys.Mem

/-! ## The arguments -/

/-- The outcomes of the system calls of one run. -/
structure WriteEnv where
  /-- How much the `j`-th call takes, up to what it is given, or `none` for `-1`. -/
  write : ℕ → Option ℕ
  /-- `SYS_IS_EAGAIN(SYS_ERRNO)` after the `j`-th call. -/
  again : ℕ → Bool

/-- An argument: a string, the address of a buffer, or a value of another type. -/
inductive WriteArg
  | string (bs : List UInt8)
  | membuf (p : ℕ)
  | other

/-- The buffers by address. -/
abbrev Membufs := ℕ → Membuf

/-- Where `struct sys_buffer` points when it is read. -/
inductive Source
  | string (bs : List UInt8)
  | membuf (p : ℕ)

/-- `struct sys_buffer`, as `sys_buffer_read_init` fills it. -/
structure SendBuffer where
  source : Source
  size : ℕ

/-- `sys_buffer_read_init`. -/
def sysBufferReadInit (mbs : Membufs) : WriteArg → Option SendBuffer
  | .string bs => some ⟨.string bs, bs.length⟩
  | .membuf p => some ⟨.membuf p, sizeT (mbs p).offset⟩
  | .other => none

/-- The first bytes at `sb.ptr.r`. -/
def SendBuffer.fetch (mbs : Membufs) (sb : SendBuffer) (n : ℕ) : Option (List UInt8) :=
  match sb.source with
  | .string bs => if n ≤ bs.length then some (bs.take n) else none
  | .membuf p => (mbs p).fetch n

/-- The part of `sys_buffer_read_next` for a buffer. -/
def moveTail (mb : Membuf) (n : ℕ) : Option Membuf :=
  if mb.offset = int32 n then some { mb with offset := 0 }
  else
    ({ mb with offset := int32 (mb.offset - int32 n) } : Membuf).moveDown n
      (sizeT (int32 (mb.offset - int32 n)))

/-- `sys_buffer_read_next`. -/
def sysBufferReadNext (mbs : Membufs) (sb : SendBuffer) (n : ℕ) : Option Membufs :=
  match sb.source with
  | .string _ => some mbs
  | .membuf p => (moveTail (mbs p) n).map fun mb => Function.update mbs p mb

/-! ## The loop -/

/-- What the functions return: the two results, or `sys_seterror`. -/
inductive WriteReturn
  | sent (all : Bool) (n : ℤ)
  | error
  deriving DecidableEq, Repr

/-- The result of a write: what is returned, the buffers, and the bytes that the
descriptor has taken. -/
structure WriteOutcome where
  ret : WriteReturn
  mbs : Membufs
  accepted : List UInt8

/-- The loop of `sys_write` over the arguments that are left, from call `j` on. -/
def writeLoop (env : WriteEnv) :
    (j : ℕ) → (n : ℤ) → Membufs → List UInt8 → List WriteArg → Option WriteOutcome
  | _, n, mbs, accepted, [] => some ⟨.sent true n, mbs, accepted⟩
  | j, n, mbs, accepted, arg :: args =>
      match sysBufferReadInit mbs arg with
      | none => writeLoop env j n mbs accepted args
      | some sb => do
          let taken := min ((env.write j).getD 0) sb.size
          let bs ← sb.fetch mbs taken
          let nw := if (env.write j).isSome then int32 taken else -1
          if nw = -1 then
            some ⟨if n > 0 ∨ env.again j then .sent false n else .error, mbs, accepted ++ bs⟩
          else do
            let mbs ← sysBufferReadNext mbs sb (sizeT nw)
            if sizeT nw < sb.size then some ⟨.sent false (n + nw), mbs, accepted ++ bs⟩
            else writeLoop env (j + 1) (n + nw) mbs (accepted ++ bs) args

/-- `sys_write`. -/
def sysWrite (env : WriteEnv) (mbs : Membufs) (args : List WriteArg) : Option WriteOutcome :=
  writeLoop env 0 0 mbs [] args

/-- `sock_write`. -/
def sockWrite (env : WriteEnv) (mbs : Membufs) (args : List WriteArg) : Option WriteOutcome :=
  writeLoop env 0 0 mbs [] args

/-! ## The property -/

/-- The bytes of a buffer. -/
def contents (mb : Membuf) : List UInt8 := readBytes mb.data 0 mb.offset.toNat

/-- The bytes of an argument. -/
def WriteArg.bytes (mbs : Membufs) : WriteArg → List UInt8
  | .string bs => bs
  | .membuf p => contents (mbs p)
  | .other => []

/-- The buffer of an argument. -/
def WriteArg.ref : WriteArg → Option ℕ
  | .string _ => none
  | .membuf p => some p
  | .other => none

/-- Strings and buffers are written. -/
def WriteArg.isBuffer : WriteArg → Bool
  | .string _ => true
  | .membuf _ => true
  | .other => false

/-- The concatenation of the arguments, and the buffers among them. -/
def allBytes (mbs : Membufs) (args : List WriteArg) : List UInt8 := args.flatMap (·.bytes mbs)

def refs (args : List WriteArg) : List ℕ := args.filterMap WriteArg.ref

/-- The bytes of a buffer are in its block. -/
structure InBlock (mb : Membuf) : Prop where
  nonneg : 0 ≤ mb.offset
  le : mb.offset ≤ mb.size

/-- What is sent from some call on: a prefix of the arguments, which is counted, and taken
out of the buffers. -/
structure Sends (env : WriteEnv) (j : ℕ) (mbs : Membufs) (args : List WriteArg)
    (before sent : List UInt8) (o : WriteOutcome) : Prop where
  accepted : o.accepted = before ++ sent
  sent_prefix : sent <+: allBytes mbs args
  count : ∀ all n, o.ret = .sent all n → n = o.accepted.length
  all : ∀ all n, o.ret = .sent all n → (all = true ↔
    sent = allBytes mbs args ∧ ∀ i < args.countP WriteArg.isBuffer, (env.write (j + i)).isSome)
  error : o.ret = .error → o.accepted = []
  kept : ∀ before p after, args = before ++ .membuf p :: after →
    contents (o.mbs p) = (contents (mbs p)).drop (sent.length - (allBytes mbs before).length)
  inBlock : ∀ p ∈ refs args, InBlock (o.mbs p)
  frame : ∀ p ∉ refs args, o.mbs p = mbs p

/-- A write is exact: the descriptor has taken a prefix of the arguments, the count is its
length, each buffer holds its suffix that has not been sent, and an error means that
nothing has been sent.  The first result is true if and only if everything has been sent
and no call has returned -1. -/
def WriteExact (env : WriteEnv) (mbs : Membufs) (args : List WriteArg) (o : WriteOutcome) : Prop :=
  Sends env 0 mbs args [] o.accepted o

/-! ## One call -/

section Call

variable {mb : Membuf} {mbs : Membufs} {arg : WriteArg} {sb : SendBuffer} {k : ℕ}

theorem length_contents (mb : Membuf) : (contents mb).length = mb.offset.toNat := length_readBytes ..

/-- The bytes behind the first ones become the bytes of the buffer. -/
theorem moveTail_spec (hin : InBlock mb) (hlt : mb.offset < 2 ^ 31) (hk : k ≤ mb.offset) :
    ∃ mb', moveTail mb k = some mb' ∧ contents mb' = (contents mb).drop k ∧ InBlock mb' := by
  have hpos := hin.nonneg
  have hle := hin.le
  have hint : int32 (k : ℤ) = k := int32_of_range (by omega) (by omega)
  rw [moveTail, hint]
  by_cases heq : mb.offset = k
  · rw [if_pos heq]
    refine ⟨_, rfl, ?_, Int.le_refl 0, Int.natCast_nonneg _⟩
    rw [List.drop_eq_nil_of_le]
    · rfl
    · rw [length_contents]
      omega
  · obtain ⟨n, hn⟩ : ∃ n : ℕ, mb.offset = k + n := ⟨(mb.offset - k).toNat, by omega⟩
    have hleft : int32 (mb.offset - k) = n := by
      rw [int32_of_range (by omega) (by omega)]
      omega
    rw [if_neg heq, hleft, sizeT_natCast (by omega), Membuf.moveDown, if_pos (by dsimp only; omega)]
    refine ⟨_, rfl, ?_, by simp, by dsimp only; omega⟩
    have hsplit : contents mb = readBytes mb.data 0 k ++ readBytes mb.data k n := by
      have hsum : mb.offset.toNat = k + n := by omega
      rw [contents, hsum, readBytes_add, Nat.zero_add]
    have hdrop : (readBytes mb.data 0 k ++ readBytes mb.data k n).drop
        (readBytes mb.data 0 k).length = readBytes mb.data k n := List.drop_left
    rw [length_readBytes] at hdrop
    rw [hsplit, hdrop]
    have hself := readBytes_writeBytes_self mb.data 0 (readBytes mb.data k n)
    rw [length_readBytes] at hself
    exact hself

/-- The size of the buffer is that of the argument, and its first bytes are sent. -/
theorem readInit_spec (h : sysBufferReadInit mbs arg = some sb)
    (hin : ∀ p, arg = .membuf p → InBlock (mbs p)) (hlt : (arg.bytes mbs).length < 2 ^ 31) :
    sb.size = (arg.bytes mbs).length ∧
      ∀ k ≤ sb.size, sb.fetch mbs k = some ((arg.bytes mbs).take k) := by
  cases arg with
  | string bs =>
      obtain rfl := Option.some.inj h
      exact ⟨rfl, fun k hk => if_pos hk⟩
  | membuf p =>
      obtain rfl := Option.some.inj h
      obtain ⟨hpos, hle⟩ := hin p rfl
      have hsize : sizeT (mbs p).offset = (mbs p).offset.toNat := by
        simp only [WriteArg.bytes, length_contents] at hlt
        simp only [sizeT]
        omega
      dsimp only
      rw [hsize]
      refine ⟨(length_contents _).symm, fun k hk => ?_⟩
      obtain ⟨n, hn⟩ := Nat.exists_eq_add_of_le hk
      have htake : (readBytes (mbs p).data 0 k ++ readBytes (mbs p).data (0 + k) n).take
          (readBytes (mbs p).data 0 k).length = readBytes (mbs p).data 0 k := List.take_left
      rw [length_readBytes, ← readBytes_add, ← hn] at htake
      have hfetch : (mbs p).fetch k = some (readBytes (mbs p).data 0 k) := if_pos (by omega)
      exact hfetch.trans (congrArg some htake.symm)
  | other => exact absurd h (by simp [sysBufferReadInit])

/-- The bytes sent are taken out of a buffer, and the other buffers stay as they are. -/
theorem readNext_spec (h : sysBufferReadInit mbs arg = some sb)
    (hin : ∀ p, arg = .membuf p → InBlock (mbs p)) (hlt : (arg.bytes mbs).length < 2 ^ 31)
    (hk : k ≤ (arg.bytes mbs).length) :
    ∃ mbs', sysBufferReadNext mbs sb k = some mbs' ∧
      (∀ p, arg = .membuf p →
        contents (mbs' p) = (contents (mbs p)).drop k ∧ InBlock (mbs' p)) ∧
      ∀ p, arg ≠ .membuf p → mbs' p = mbs p := by
  cases arg with
  | string bs =>
      obtain rfl := Option.some.inj h
      exact ⟨mbs, rfl, fun p hp => absurd hp (by simp), fun _ _ => rfl⟩
  | membuf p =>
      obtain rfl := Option.some.inj h
      simp only [WriteArg.bytes, length_contents] at hlt hk
      have hpos := (hin p rfl).nonneg
      obtain ⟨mb', hmove, hcontents, hblock⟩ :=
        moveTail_spec (k := k) (hin p rfl) (by omega) (by omega)
      refine ⟨Function.update mbs p mb', ?_, ?_, ?_⟩
      · exact Option.map_eq_some_iff.mpr ⟨mb', hmove, rfl⟩
      · intro q hq
        obtain rfl := WriteArg.membuf.inj hq
        rw [Function.update_self]
        exact ⟨hcontents, hblock⟩
      · intro q hq
        have hne : q ≠ p := by
          rintro rfl
          exact hq rfl
        exact Function.update_of_ne hne _ _
  | other => exact absurd h (by simp [sysBufferReadInit])

end Call

/-! ## The loop sends a prefix -/

section Loop

variable {env : WriteEnv} {mbs : Membufs} {arg : WriteArg} {args : List WriteArg} {p : ℕ}

theorem mem_refs : p ∈ refs args ↔ .membuf p ∈ args := by
  rw [refs, List.mem_filterMap]
  constructor
  · rintro ⟨arg, hmem, hp⟩
    cases arg with
    | string bs => exact absurd hp (by simp [WriteArg.ref])
    | membuf q =>
        obtain rfl := Option.some.inj hp
        exact hmem
    | other => exact absurd hp (by simp [WriteArg.ref])
  · exact fun hmem => ⟨_, hmem, rfl⟩

/-- The bytes of arguments depend on their buffers only. -/
theorem allBytes_congr {mbs' : Membufs} (h : ∀ p ∈ refs args, mbs' p = mbs p) :
    allBytes mbs' args = allBytes mbs args := by
  rw [allBytes, allBytes]
  apply List.flatMap_congr
  intro arg hmem
  cases arg with
  | string bs => rfl
  | membuf p => exact congrArg contents (h p (mem_refs.mpr hmem))
  | other => rfl

/-- Distinct buffers: the first argument is not among the others. -/
theorem not_mem_refs_of_nodup (h : (refs (arg :: args)).Nodup) (harg : arg = .membuf p) :
    p ∉ refs args := by
  subst harg
  exact (List.nodup_cons.mp h).1

theorem nodup_refs_tail (h : (refs (arg :: args)).Nodup) : (refs args).Nodup := by
  cases arg with
  | string bs => exact h
  | membuf q => exact (List.nodup_cons.mp h).2
  | other => exact h

theorem isBuffer_of_readInit {sb : SendBuffer} (h : sysBufferReadInit mbs arg = some sb) :
    arg.isBuffer = true := by
  cases arg with
  | string bs => rfl
  | membuf q => rfl
  | other => exact absurd h (by simp [sysBufferReadInit])

/-- The rest of the list behind a buffer that is not the first argument. -/
theorem cons_eq_append {before after : List WriteArg}
    (h : arg :: args = before ++ .membuf p :: after) :
    before = [] ∧ arg = .membuf p ∨
      ∃ before', before = arg :: before' ∧ args = before' ++ .membuf p :: after := by
  cases before with
  | nil => exact Or.inl ⟨rfl, (List.cons.inj h).1⟩
  | cons arg' before' =>
      obtain ⟨rfl, hargs⟩ := List.cons.inj h
      exact Or.inr ⟨before', rfl, hargs⟩

/-- The first call returns -1. -/
theorem sends_failed {j : ℕ} {before : List UInt8} {ret : WriteReturn}
    (hfail : env.write j = none) (hbuffer : arg.isBuffer = true)
    (hin : ∀ p ∈ refs (arg :: args), InBlock (mbs p))
    (hret : ret = .sent false before.length ∨ ret = .error ∧ before = []) :
    Sends env j mbs (arg :: args) before [] ⟨ret, mbs, before ++ []⟩ where
  accepted := rfl
  sent_prefix := List.nil_prefix
  count all n hsent := by
    rcases hret with rfl | ⟨rfl, -⟩
    · rw [List.append_nil]
      exact (WriteReturn.sent.inj hsent).2.symm
    · exact absurd hsent (by simp)
  all all n hsent := by
    rcases hret with rfl | ⟨rfl, -⟩
    · obtain ⟨rfl, -⟩ := WriteReturn.sent.inj hsent
      refine ⟨fun h => absurd h (by simp), ?_⟩
      rintro ⟨-, hcalls⟩
      have hfirst := hcalls 0 (by rw [List.countP_cons_of_pos hbuffer]; omega)
      rw [Nat.add_zero, hfail] at hfirst
      exact absurd hfirst (by simp)
    · exact absurd hsent (by simp)
  error herror := by
    rcases hret with rfl | ⟨-, rfl⟩
    · exact absurd herror (by simp)
    · rfl
  kept _ _ _ _ := by rw [List.length_nil, Nat.zero_sub, List.drop_zero]
  inBlock := hin
  frame _ _ := rfl

/-- The first call takes less than it was given. -/
theorem sends_short {j k : ℕ} {before : List UInt8} {mbs' : Membufs}
    (hnodup : (refs (arg :: args)).Nodup) (hin : ∀ p ∈ refs (arg :: args), InBlock (mbs p))
    (hk : k < (arg.bytes mbs).length)
    (hself : ∀ p, arg = .membuf p → contents (mbs' p) = (contents (mbs p)).drop k ∧ InBlock (mbs' p))
    (hother : ∀ p, arg ≠ .membuf p → mbs' p = mbs p) :
    Sends env j mbs (arg :: args) before ((arg.bytes mbs).take k)
      ⟨.sent false (before.length + k), mbs', before ++ (arg.bytes mbs).take k⟩ where
  accepted := rfl
  sent_prefix := by
    rw [allBytes, List.flatMap_cons]
    exact (List.take_prefix _ _).trans (List.prefix_append _ _)
  count all n hsent := by
    obtain ⟨-, rfl⟩ := WriteReturn.sent.inj hsent
    rw [List.length_append, List.length_take, Nat.min_eq_left (Nat.le_of_lt hk),
      Int.natCast_add]
  all all n hsent := by
    obtain ⟨rfl, -⟩ := WriteReturn.sent.inj hsent
    refine ⟨fun h => absurd h (by simp), ?_⟩
    rintro ⟨hall, -⟩
    have hlength := congrArg List.length hall
    rw [allBytes, List.flatMap_cons, List.length_append, List.length_take] at hlength
    omega
  error herror := absurd herror (by simp)
  kept before p after hargs := by
    have hlength : ((arg.bytes mbs).take k).length = k := by
      rw [List.length_take, Nat.min_eq_left (Nat.le_of_lt hk)]
    rw [hlength]
    rcases cons_eq_append hargs with ⟨rfl, hp⟩ | ⟨before', rfl, rfl⟩
    · exact (hself p hp).1
    · -- The buffers behind the first argument stay as they are.
      have hmem : p ∈ refs (before' ++ .membuf p :: after) := mem_refs.mpr (by simp)
      have hne : arg ≠ .membuf p := fun heq => not_mem_refs_of_nodup hnodup heq hmem
      rw [allBytes, List.flatMap_cons, List.length_append, Nat.sub_eq_zero_of_le (by omega),
        List.drop_zero]
      exact congrArg contents (hother p hne)
  inBlock p hp := by
    by_cases harg : arg = .membuf p
    · exact (hself p harg).2
    · dsimp only
      rw [hother p harg]
      exact hin p hp
  frame p hp := by
    apply hother
    rintro rfl
    exact hp (mem_refs.mpr List.mem_cons_self)

/-- The first call takes all it was given. -/
theorem Sends.cons_full {j : ℕ} {before sent : List UInt8} {mbs' : Membufs} {o : WriteOutcome}
    (hnodup : (refs (arg :: args)).Nodup) (hbuffer : arg.isBuffer = true)
    (hcall : (env.write j).isSome)
    (hself : ∀ p, arg = .membuf p → contents (mbs' p) =
      (contents (mbs p)).drop (arg.bytes mbs).length ∧ InBlock (mbs' p))
    (hother : ∀ p, arg ≠ .membuf p → mbs' p = mbs p)
    (h : Sends env (j + 1) mbs' args (before ++ arg.bytes mbs) sent o) :
    Sends env j mbs (arg :: args) before (arg.bytes mbs ++ sent) o := by
  -- The buffers of the other arguments are still the same.
  have hsame : ∀ p ∈ refs args, mbs' p = mbs p := by
    intro p hp
    exact hother p fun heq => not_mem_refs_of_nodup hnodup heq hp
  have hbytes : allBytes mbs (arg :: args) = arg.bytes mbs ++ allBytes mbs args := List.flatMap_cons ..
  have hrest : allBytes mbs' args = allBytes mbs args := allBytes_congr hsame
  have hcount : (arg :: args).countP WriteArg.isBuffer = args.countP WriteArg.isBuffer + 1 :=
    List.countP_cons_of_pos hbuffer
  constructor
  · rw [h.accepted, List.append_assoc]
  · have hprefix := h.sent_prefix
    rw [hrest] at hprefix
    rw [hbytes]
    exact (List.prefix_append_right_inj _).mpr hprefix
  · exact h.count
  · intro all n hsent
    rw [h.all all n hsent, hrest, hbytes, hcount, List.append_right_inj]
    refine and_congr_right fun _ => ?_
    constructor
    · intro hcalls i hi
      cases i with
      | zero => exact hcall
      | succ i =>
          rw [Nat.add_succ, ← Nat.succ_add]
          exact hcalls i (by omega)
    · intro hcalls i hi
      have := hcalls (i + 1) (by omega)
      rwa [Nat.add_succ, ← Nat.succ_add] at this
  · exact h.error
  · intro first p after hargs
    rcases cons_eq_append hargs with ⟨rfl, hp⟩ | ⟨first', rfl, hrestargs⟩
    · have hnot := not_mem_refs_of_nodup hnodup hp
      rw [h.frame p hnot, (hself p hp).1]
      have hcontents : arg.bytes mbs = contents (mbs p) := by rw [hp, WriteArg.bytes]
      rw [← hcontents, List.drop_length, List.drop_eq_nil_of_le]
      rw [List.length_append, allBytes, List.flatMap_nil, List.length_nil]
      omega
    · have hmem : p ∈ refs args := by
        rw [hrestargs]
        exact mem_refs.mpr (by simp)
      have hfirst : allBytes mbs' first' = allBytes mbs first' := by
        apply allBytes_congr
        intro q hq
        apply hsame
        rw [hrestargs]
        exact mem_refs.mpr (List.mem_append_left _ (mem_refs.mp hq))
      rw [h.kept first' p after hrestargs, hsame p hmem, hfirst, allBytes, allBytes,
        List.flatMap_cons, List.length_append, List.length_append, Nat.add_sub_add_left]
  · intro p hp
    by_cases hmem : p ∈ refs args
    · exact h.inBlock p hmem
    · rw [h.frame p hmem]
      rcases List.mem_cons.mp (mem_refs.mp hp) with heq | hin
      · exact (hself p heq.symm).2
      · exact absurd (mem_refs.mpr hin) hmem
  · intro p hp
    have hne : arg ≠ .membuf p := by
      rintro rfl
      exact hp (mem_refs.mpr List.mem_cons_self)
    have hnot : p ∉ refs args := fun hmem =>
      hp (mem_refs.mpr (List.mem_cons_of_mem _ (mem_refs.mp hmem)))
    rw [h.frame p hnot, hother p hne]

/-- A value of another type is skipped. -/
theorem Sends.cons_other {j : ℕ} {before sent : List UInt8} {o : WriteOutcome}
    (h : Sends env j mbs args before sent o) : Sends env j mbs (.other :: args) before sent o where
  accepted := h.accepted
  sent_prefix := h.sent_prefix
  count := h.count
  all := h.all
  error := h.error
  kept first p after hargs := by
    rcases cons_eq_append hargs with ⟨-, hp⟩ | ⟨first', rfl, hrest⟩
    · exact absurd hp (by simp)
    · exact h.kept first' p after hrest
  inBlock := h.inBlock
  frame := h.frame

/-- One round of the loop. -/
theorem writeLoop_cons (env : WriteEnv) (args : List WriteArg) (j : ℕ) (before : List UInt8)
    {sb : SendBuffer} (hinit : sysBufferReadInit mbs arg = some sb)
    (hin : ∀ p, arg = .membuf p → InBlock (mbs p)) (hlt : (arg.bytes mbs).length < 2 ^ 31) :
    (env.write j = none ∧ ∃ ret, (ret = .sent false before.length ∨ ret = .error ∧ before = []) ∧
        writeLoop env j before.length mbs before (arg :: args) = some ⟨ret, mbs, before ++ []⟩) ∨
      (env.write j).isSome ∧ ∃ k mbs', k ≤ (arg.bytes mbs).length ∧
        (∀ p, arg = .membuf p →
          contents (mbs' p) = (contents (mbs p)).drop k ∧ InBlock (mbs' p)) ∧
        (∀ p, arg ≠ .membuf p → mbs' p = mbs p) ∧
        writeLoop env j before.length mbs before (arg :: args) =
          if k < (arg.bytes mbs).length then
            some ⟨.sent false (before.length + k), mbs', before ++ (arg.bytes mbs).take k⟩
          else writeLoop env (j + 1) (before.length + k) mbs' (before ++ (arg.bytes mbs).take k)
            args := by
  obtain ⟨hsize, hfetch⟩ := readInit_spec hinit hin hlt
  cases hcall : env.write j with
  | none =>
      left
      refine ⟨rfl, if (before.length : ℤ) > 0 ∨ env.again j then .sent false before.length else .error,
        ?_, ?_⟩
      · split
        · exact Or.inl rfl
        · rename_i hnot
          refine Or.inr ⟨rfl, List.length_eq_zero_iff.mp ?_⟩
          rw [not_or] at hnot
          omega
      · have hzero := hfetch 0 (Nat.zero_le _)
        rw [List.take_zero] at hzero
        rw [writeLoop, hinit, hcall]
        dsimp only
        rw [Option.getD_none, Nat.zero_min, hzero, Option.bind_eq_bind, Option.bind_some]
        simp only [Option.isSome_none, Bool.false_eq_true, if_false, if_true]
  | some w =>
      right
      have hle : min w sb.size ≤ (arg.bytes mbs).length := by omega
      have hint : int32 (min w sb.size : ℕ) = (min w sb.size : ℕ) :=
        int32_of_range (by omega) (by omega)
      have hback : sizeT ((min w sb.size : ℕ) : ℤ) = min w sb.size := sizeT_natCast (by omega)
      obtain ⟨mbs', hnext, hself, hother⟩ := readNext_spec hinit hin hlt hle
      refine ⟨rfl, min w sb.size, mbs', hle, hself, hother, ?_⟩
      rw [writeLoop, hinit, hcall]
      dsimp only
      rw [Option.getD_some, hfetch _ (Nat.min_le_right _ _), Option.bind_eq_bind, Option.bind_some,
        Option.isSome_some, if_pos rfl, hint, if_neg (by omega), hback, hnext,
        Option.bind_eq_bind, Option.bind_some, hsize]

/-- From every call on, a prefix of the arguments is sent. -/
theorem writeLoop_sends (env : WriteEnv) (hnodup : (refs args).Nodup) (hin : ∀ p ∈ refs args, InBlock (mbs p))
    (hlt : (allBytes mbs args).length < 2 ^ 31) (j : ℕ) (before : List UInt8) :
    ∃ sent o, writeLoop env j before.length mbs before args = some o ∧
      Sends env j mbs args before sent o := by
  induction args generalizing j before mbs with
  | nil =>
      refine ⟨[], _, rfl, (List.append_nil _).symm, List.prefix_rfl, ?_, ?_, ?_, ?_, hin, ?_⟩
      · intro all n hsent
        exact (WriteReturn.sent.inj hsent).2.symm
      · intro all n hsent
        obtain ⟨rfl, -⟩ := WriteReturn.sent.inj hsent
        exact ⟨fun _ => ⟨rfl, fun i hi => absurd hi (Nat.not_lt_zero i)⟩, fun _ => rfl⟩
      · intro herror
        exact absurd herror (by simp)
      · intro first p after hargs
        exact absurd hargs (by simp)
      · exact fun _ _ => rfl
  | cons arg args ih =>
      have hbytes : allBytes mbs (arg :: args) = arg.bytes mbs ++ allBytes mbs args :=
        List.flatMap_cons ..
      rw [hbytes, List.length_append] at hlt
      have hinRest : ∀ p ∈ refs args, InBlock (mbs p) := fun p hp =>
        hin p (mem_refs.mpr (List.mem_cons_of_mem _ (mem_refs.mp hp)))
      have hinArg : ∀ p, arg = .membuf p → InBlock (mbs p) := by
        rintro p rfl
        exact hin p (mem_refs.mpr List.mem_cons_self)
      cases hinit : sysBufferReadInit mbs arg with
      | none =>
          obtain rfl : arg = .other := by
            cases arg with
            | string bs => exact absurd hinit (by simp [sysBufferReadInit])
            | membuf p => exact absurd hinit (by simp [sysBufferReadInit])
            | other => rfl
          obtain ⟨sent, o, ho, hsends⟩ := ih hnodup hinRest (by omega) j before
          exact ⟨sent, o, ho, hsends.cons_other⟩
      | some sb =>
          have hbuffer := isBuffer_of_readInit hinit
          rcases writeLoop_cons env args j before hinit hinArg (by omega) with
            ⟨hfail, ret, hret, hrun⟩ | ⟨hcall, k, mbs', hk, hself, hother, hrun⟩
          · exact ⟨[], _, hrun, sends_failed hfail hbuffer hin hret⟩
          · rw [hrun]
            by_cases hshort : k < (arg.bytes mbs).length
            · rw [if_pos hshort]
              exact ⟨_, _, rfl, sends_short hnodup hin hshort hself hother⟩
            · rw [if_neg hshort]
              obtain rfl : k = (arg.bytes mbs).length := by omega
              have hsame : ∀ p ∈ refs args, mbs' p = mbs p := by
                intro p hp
                exact hother p fun heq => not_mem_refs_of_nodup hnodup heq hp
              have hinRest' : ∀ p ∈ refs args, InBlock (mbs' p) := by
                intro p hp
                rw [hsame p hp]
                exact hinRest p hp
              have hlt' : (allBytes mbs' args).length < 2 ^ 31 := by
                rw [allBytes_congr hsame]
                omega
              obtain ⟨sent, o, ho, hsends⟩ := ih (nodup_refs_tail hnodup) hinRest' hlt'
                (j + 1) (before ++ arg.bytes mbs)
              rw [List.length_append, Int.natCast_add] at ho
              rw [List.take_length]
              exact ⟨_, o, ho, hsends.cons_full hnodup hbuffer hcall hself hother⟩

end Loop

/-- **Every write is exact.**  For all arguments with distinct buffers and less than
`2 ^ 31` bytes, and whatever the calls of `write(2)` return, `sys_write` and `sock_write`
send a prefix of the arguments and return its length, each buffer keeps exactly its bytes
that have not been sent, and an error is returned only if nothing has been sent.  The first
result is true if and only if everything has been sent and no call has returned -1. -/
theorem writes_exact (env : WriteEnv) (mbs : Membufs) {args : List WriteArg}
    (hnodup : (refs args).Nodup) (hin : ∀ p ∈ refs args, InBlock (mbs p))
    (hlt : (allBytes mbs args).length < 2 ^ 31) :
    (∃ o, sysWrite env mbs args = some o ∧ WriteExact env mbs args o) ∧
      ∃ o, sockWrite env mbs args = some o ∧ WriteExact env mbs args o := by
  obtain ⟨sent, o, ho, hsends⟩ := writeLoop_sends env hnodup hin hlt 0 []
  have hexact : WriteExact env mbs args o := by
    have hsent : o.accepted = sent := hsends.accepted
    rw [WriteExact, hsent]
    exact hsends
  exact ⟨⟨o, ho, hexact⟩, o, ho, hexact⟩

/-- A string and a buffer with three bytes; the descriptor takes the string and one byte. -/
theorem writes_exact_threeBytes :
    let mbs : Membufs := fun _ => ⟨fun i => UInt8.ofNat i, 4, 4, 3, true⟩
    let env : WriteEnv := ⟨fun j => if j = 0 then some 2 else some 1, fun _ => false⟩
    (∃ o, sysWrite env mbs [.string [97, 98], .membuf 0] = some o ∧
        WriteExact env mbs [.string [97, 98], .membuf 0] o) ∧
      ∃ o, sockWrite env mbs [.string [97, 98], .membuf 0] = some o ∧
        WriteExact env mbs [.string [97, 98], .membuf 0] o := by
  refine writes_exact _ _ (by decide) ?_ (by decide)
  intro p hp
  obtain rfl := List.mem_singleton.mp hp
  exact ⟨by decide, by decide⟩

/-- One byte is sent, and that is all; then the call for the empty string says "again", and
the first result is false. -/
theorem empty_argument_reported_partial :
    let env : WriteEnv := ⟨fun j => if j = 0 then some 1 else none, fun _ => true⟩
    let mbs : Membufs := fun _ => ⟨fun _ => 0, 0, 0, 0, false⟩
    ∃ o, sysWrite env mbs [.string [97], .string []] = some o ∧
      o.accepted = allBytes mbs [.string [97], .string []] ∧ o.ret = .sent false 1 := by
  refine ⟨⟨.sent false 1, _, _⟩, rfl, rfl, rfl⟩

end LuaSys.File
