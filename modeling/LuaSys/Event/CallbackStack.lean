import Mathlib.Data.Int.Basic
import Mathlib.Data.List.Basic
import Mathlib.Logic.Function.Basic

/-!
# The stack of the event loop

The model of the dispatch in `sys_evq_loop` as far as it works on the Lua stack.  The loop
has two drivers: `levq_loop` has the event queue in the first slot of the stack, and
`sched_loop` has the scheduler there and the queue in the second one.  The parameter
`evq_idx` is the slot of the queue.  The tables of the callbacks and of the objects are
found behind it; the queue that is passed to a callback is taken from the first slot in
any case.

An event has the contents of the two tables at its own dispatch, and what its callback does
is given, so the callbacks may do anything between two events.

## Main definitions

* `StackValue`, `LuaStack` — the values that the loop puts on the stack, and the stack.
* `ReadyEvent` — an event of a pass.
* `dispatchEvent`, `dispatchPass` — the loop over the ready events.
* `LoopDriver` — the two drivers with their stacks.
* `SameForDrivers` — the property.

## Main results

* `dispatchEvent_eq`, `dispatchPass_eq` — what is called with what, and the stack
  behind it.
* `sameForDrivers_iff` — the callbacks get the same arguments if and only if no function or
  coroutine of the user is called.
* `scheduler_is_passed` — one timer with a function.
-/

namespace LuaSys.Event

/-! ## The stack -/

/-- The values on the stack of the loop; `lua` is a value of the program. -/
inductive StackValue (α : Type*)
  | evqUdata
  | schedUdata
  | callbackTable
  | objectTable
  | evLudata (ev : ℕ)
  | lua (a : α)
  | string (s : String)
  | boolean (b : Bool)
  | integer (i : ℤ)
  | nil
  deriving DecidableEq, Repr

/-- A stack with its first slot in front. -/
abbrev LuaStack (α : Type*) := List (StackValue α)

namespace LuaStack

variable {α : Type*}

/-- The value at an index from 1 on. -/
def slot (s : LuaStack α) (i : ℕ) : StackValue α := s.getD (i - 1) .nil

/-- `lua_pop`. -/
def pop (s : LuaStack α) (n : ℕ) : LuaStack α := s.take (s.length - n)

/-- The values that `lua_xmove` and `lua_pcall` take. -/
def top (s : LuaStack α) (n : ℕ) : List (StackValue α) := s.drop (s.length - n)

def push (s : LuaStack α) (v : StackValue α) : LuaStack α := s ++ [v]

/-- `lua_pushvalue`. -/
def pushvalue (s : LuaStack α) (i : ℕ) : LuaStack α := s.push (s.slot i)

end LuaStack

/-! ## The events of a pass -/

/-- `EVENT_CALLBACK`, with `EVENT_CALLBACK_CORO` and `EVENT_CALLBACK_SCHED`. -/
inductive CallbackType
  | absent
  | function
  | coroutine
  | scheduler
  deriving DecidableEq, Repr

/-- How `lua_pcall` or `lua_resume` ends: with the end of the function or a yield of the
coroutine, or with an error message. -/
inductive CallbackEnd (α : Type*)
  | returns
  | yields
  | fails (message : α)

/-- An event that is dispatched: its flags, the entries of the two tables for its id, and what
its callback does. -/
structure ReadyEvent (α : Type*) where
  ev : ℕ
  delete : Bool
  type : CallbackType
  /-- `EVENT_READ_RES`, `EVENT_WRITE_RES`, `EVENT_TIMEOUT_RES` and `EVENT_EOF_RES`. -/
  readRes : Bool
  writeRes : Bool
  timeoutRes : Bool
  eofRes : Bool
  /-- `EVENT_PID`, and the status of the process. -/
  pid : Bool
  status : ℤ
  callback : StackValue α
  object : StackValue α
  finish : CallbackEnd α

namespace ReadyEvent

variable {α : Type*}

/-- The kind of the event. -/
def kind (d : ReadyEvent α) : String :=
  if d.readRes then "r" else if d.writeRes then "w" else if d.timeoutRes then "t" else "e"

/-- The last argument. -/
def statusValue (d : ReadyEvent α) : StackValue α :=
  if d.eofRes then .boolean true else if d.pid then .integer d.status else .nil

end ReadyEvent

/-! ## The loop -/

/-- A function or a coroutine with the arguments that it gets. -/
structure CallbackCall (α : Type*) where
  callee : StackValue α
  args : List (StackValue α)
  deriving DecidableEq

/-- What a part of the loop leaves: the calls, the stack, and whether `res` is an error. -/
structure PassResult (α : Type*) where
  calls : List (CallbackCall α)
  stack : LuaStack α
  failed : Bool

section Loop

variable {α : Type*}

/-- `lua_rawgeti` with the id of the event, on a table that is found on the stack. -/
def LuaStack.rawgeti (s : LuaStack α) (i : ℕ) (d : ReadyEvent α) : LuaStack α :=
  match s.slot i with
  | .callbackTable => s.push d.callback
  | .objectTable => s.push d.object
  | _ => s.push .nil

/-- The callback and its arguments are pushed. -/
def pushCallback (evqIdx : ℕ) (s : LuaStack α) (d : ReadyEvent α) : LuaStack α :=
  if d.type = .absent then s
  else
    let s := s.rawgeti (evqIdx + 1) d
    let s :=
      if d.type = .scheduler then s
      else ((s.pushvalue 1).push (.evLudata d.ev)).rawgeti (evqIdx + 2) d
    (s.push (.string d.kind)).push d.statusValue

/-- The callback is called.  `lua_pcall` removes the function and its arguments, and
`lua_xmove` takes the arguments to the coroutine; both leave an error message. -/
def runCallback (evqIdx : ℕ) (s : LuaStack α) (d : ReadyEvent α) : PassResult α :=
  match d.type with
  | .scheduler => ⟨[⟨s.slot (evqIdx + 2 + 1), s.top 2⟩], (s.pop 2).pop 1, false⟩
  | .coroutine =>
      let calls := [⟨s.slot (evqIdx + 2 + 1), s.top 5⟩]
      let s := (s.pop 5).pop 1
      match d.finish with
      | .fails message => ⟨calls, s.push (.lua message), true⟩
      | _ => ⟨calls, s, false⟩
  | .function =>
      let calls := [⟨s.slot (s.length - 5), s.top 5⟩]
      let s := s.pop 6
      match d.finish with
      | .fails message => ⟨calls, s.push (.lua message), true⟩
      | _ => ⟨calls, s, false⟩
  | .absent => ⟨[], s, false⟩

/-- The body of the loop; the postponed deletion of an event calls nothing. -/
def dispatchEvent (evqIdx : ℕ) (s : LuaStack α) (d : ReadyEvent α) : PassResult α :=
  if d.delete then ⟨[], s, false⟩ else runCallback evqIdx (pushCallback evqIdx s d) d

/-- The loop over the ready events; an error ends it. -/
def dispatchPass (evqIdx : ℕ) : LuaStack α → List (ReadyEvent α) → PassResult α
  | s, [] => ⟨[], s, false⟩
  | s, d :: ds =>
      let r := dispatchEvent evqIdx s d
      if r.failed then r
      else
        let r' := dispatchPass evqIdx r.stack ds
        ⟨r.calls ++ r'.calls, r'.stack, r'.failed⟩

end Loop

/-! ## The drivers -/

/-- The callers of `sys_evq_loop`. -/
inductive LoopDriver
  | levqLoop
  | schedLoop
  deriving DecidableEq, Repr

namespace LoopDriver

variable {α : Type*}

/-- The stack at the call. -/
def base : LoopDriver → LuaStack α
  | .levqLoop => [.evqUdata]
  | .schedLoop => [.schedUdata, .evqUdata]

def evqIdx : LoopDriver → ℕ
  | .levqLoop => 1
  | .schedLoop => 2

/-- "Push callback and object tables". -/
def stack (driver : LoopDriver) : LuaStack α := driver.base ++ [.callbackTable, .objectTable]

/-- One pass of `sys_evq_loop`. -/
def pass (driver : LoopDriver) (ds : List (ReadyEvent α)) : PassResult α :=
  dispatchPass driver.evqIdx driver.stack ds

end LoopDriver

/-- Both drivers make the same calls with the same arguments, and leave the same behind their
own slots. -/
structure SameForDrivers {α : Type*} (ds : List (ReadyEvent α)) : Prop where
  calls : (LoopDriver.levqLoop.pass ds).calls = (LoopDriver.schedLoop.pass ds).calls
  stack : ∃ rest, (LoopDriver.levqLoop.pass ds).stack = LoopDriver.levqLoop.base ++ rest ∧
    (LoopDriver.schedLoop.pass ds).stack = LoopDriver.schedLoop.base ++ rest
  failed : (LoopDriver.levqLoop.pass ds).failed = (LoopDriver.schedLoop.pass ds).failed

namespace ReadyEvent

variable {α : Type*}

/-- A function or a coroutine of the user is called. -/
def CallsUser (d : ReadyEvent α) : Prop :=
  d.delete = false ∧ (d.type = .function ∨ d.type = .coroutine)

/-- The message that is left on the stack when the call ends with an error. -/
def errorMessage (d : ReadyEvent α) : List (StackValue α) :=
  match d.delete, d.type, d.finish with
  | false, .function, .fails message => [.lua message]
  | false, .coroutine, .fails message => [.lua message]
  | _, _, _ => []

def fails (d : ReadyEvent α) : Bool := !d.errorMessage.isEmpty

/-- The events that are dispatched: an error ends the pass. -/
def reached : List (ReadyEvent α) → List (ReadyEvent α)
  | [] => []
  | d :: ds => if d.fails then [d] else d :: reached ds

/-- The call for an event when `first` is in the first slot. -/
def calls (first : StackValue α) (d : ReadyEvent α) : List (CallbackCall α) :=
  match d.delete, d.type with
  | true, _ => []
  | false, .absent => []
  | false, .scheduler => [⟨d.callback, [.string d.kind, d.statusValue]⟩]
  | false, _ =>
      [⟨d.callback, [first, .evLudata d.ev, d.object, .string d.kind, d.statusValue]⟩]

end ReadyEvent

/-! ## What a pass does -/

section Results

variable {α : Type*}

/-- The value in the first slot. -/
def LoopDriver.first : LoopDriver → StackValue α
  | .levqLoop => .evqUdata
  | .schedLoop => .schedUdata

/-- The callback of a scheduler with its arguments. -/
theorem pushCallback_scheduler (driver : LoopDriver) {d : ReadyEvent α} (h : d.type = .scheduler) :
    pushCallback driver.evqIdx driver.stack d =
      driver.stack ++ [d.callback, .string d.kind, d.statusValue] := by
  simp only [pushCallback, h, reduceCtorEq, if_false, if_true]
  cases driver <;> rfl

/-- A callback of the user with its arguments. -/
theorem pushCallback_user (driver : LoopDriver) {d : ReadyEvent α}
    (h : d.type = .function ∨ d.type = .coroutine) :
    pushCallback driver.evqIdx driver.stack d = driver.stack ++
      [d.callback, driver.first, .evLudata d.ev, d.object, .string d.kind, d.statusValue] := by
  have habsent : d.type ≠ .absent := by rcases h with h | h <;> simp [h]
  have hsched : d.type ≠ .scheduler := by rcases h with h | h <;> simp [h]
  simp only [pushCallback, habsent, hsched, if_false]
  cases driver <;> rfl

/-- An event is dispatched, and the stack is as before, up to an error message. -/
theorem dispatchEvent_eq (driver : LoopDriver) (d : ReadyEvent α) :
    dispatchEvent driver.evqIdx driver.stack d =
      ⟨d.calls driver.first, driver.stack ++ d.errorMessage, d.fails⟩ := by
  unfold dispatchEvent
  cases hdelete : d.delete with
  | true => simp [ReadyEvent.calls, ReadyEvent.fails, ReadyEvent.errorMessage, hdelete]
  | false =>
      simp only [Bool.false_eq_true, if_false, ReadyEvent.fails, ReadyEvent.calls,
        ReadyEvent.errorMessage, hdelete, runCallback]
      cases htype : d.type with
      | absent => simp [pushCallback, htype]
      | scheduler =>
          rw [pushCallback_scheduler driver htype]
          cases driver <;> rfl
      | function =>
          rw [pushCallback_user driver (Or.inl htype)]
          cases d.finish <;> cases driver <;> rfl
      | coroutine =>
          rw [pushCallback_user driver (Or.inr htype)]
          cases d.finish <;> cases driver <;> rfl

/-- The calls of a pass and the stack behind it. -/
theorem dispatchPass_eq (driver : LoopDriver) (ds : List (ReadyEvent α)) :
    driver.pass ds = ⟨(ReadyEvent.reached ds).flatMap (ReadyEvent.calls driver.first),
      driver.stack ++ (ReadyEvent.reached ds).flatMap ReadyEvent.errorMessage,
      (ReadyEvent.reached ds).any ReadyEvent.fails⟩ := by
  unfold LoopDriver.pass
  induction ds with
  | nil => simp [dispatchPass, ReadyEvent.reached]
  | cons d ds ih =>
      rw [dispatchPass, dispatchEvent_eq, ReadyEvent.reached]
      dsimp only
      cases hfails : d.fails with
      | true => simp [hfails]
      | false =>
          have hnone : d.errorMessage = [] := by simpa [ReadyEvent.fails] using hfails
          rw [hnone, List.append_nil, ih]
          simp [hfails, hnone]

/-- The first argument is all that differs. -/
theorem ReadyEvent.calls_eq_iff (d : ReadyEvent α) :
    d.calls .evqUdata = d.calls .schedUdata ↔ ¬d.CallsUser := by
  obtain ⟨ev, delete, type, _, _, _, _, _, _, _, _, finish⟩ := d
  cases delete <;> cases type <;> simp [calls, CallsUser]

theorem ReadyEvent.length_calls (d : ReadyEvent α) (first first' : StackValue α) :
    (d.calls first).length = (d.calls first').length := by
  obtain ⟨ev, delete, type, _, _, _, _, _, _, _, _, finish⟩ := d
  cases delete <;> cases type <;> rfl

theorem flatMap_calls_eq_iff (ds : List (ReadyEvent α)) :
    ds.flatMap (ReadyEvent.calls .evqUdata) = ds.flatMap (ReadyEvent.calls .schedUdata) ↔
      ∀ d ∈ ds, ¬d.CallsUser := by
  induction ds with
  | nil => simp
  | cons d ds ih =>
      rw [List.flatMap_cons, List.flatMap_cons, List.forall_mem_cons, ← ih, ← d.calls_eq_iff]
      constructor
      · exact fun h => List.append_inj h (d.length_calls _ _)
      · rintro ⟨hd, hds⟩
        rw [hd, hds]

/-- **The two drivers of the loop.**  Their callbacks get the same arguments if and only if
the pass calls no function or coroutine of the user. -/
theorem sameForDrivers_iff (ds : List (ReadyEvent α)) :
    SameForDrivers ds ↔ ∀ d ∈ ReadyEvent.reached ds, ¬d.CallsUser := by
  rw [← flatMap_calls_eq_iff]
  constructor
  · intro h
    have hcalls := h.calls
    rw [dispatchPass_eq, dispatchPass_eq] at hcalls
    exact hcalls
  · intro h
    refine ⟨?_, ?_, ?_⟩
    · rw [dispatchPass_eq, dispatchPass_eq]
      exact h
    · rw [dispatchPass_eq, dispatchPass_eq]
      exact ⟨_, List.append_assoc _ _ _, List.append_assoc _ _ _⟩
    · rw [dispatchPass_eq, dispatchPass_eq]

end Results

/-- A timer with a function gets the scheduler for its queue. -/
theorem scheduler_is_passed : ¬∀ ds : List (ReadyEvent ℕ), SameForDrivers ds := by
  intro h
  have hcalls := (h [{
    ev := 0, delete := false, type := .function, readRes := false, writeRes := false
    timeoutRes := true, eofRes := false, pid := false, status := 0, callback := .lua 0
    object := .nil, finish := .returns }]).calls
  exact absurd hcalls (by decide)

end LuaSys.Event
