import Mathlib.Data.List.Basic
import Mathlib.Data.Int.Basic
import Mathlib.Tactic.Common

/-!
# The results of a synchronous call

`evq:sync(f, ...)` has another thread call `f`: the function and its arguments stay on
the stack of the calling thread, the loop thread calls them there in
`levq_sync_process`, and the calling thread finds the results on its own stack.  The
status of the call comes back in a field of `struct evq_sync_op` that has one bit.

A Lua stack is the list of its values, from the bottom.  How a Lua value behaves when it
is called is a parameter: it returns a list of values, or it raises an error value with
a status code.

## Main definitions

* `CallResult` — the outcome of a call.
* `luaPcall` — `lua_pcall` with all results, on a stack.
* `EvqSyncOp` — the packed fields of `struct evq_sync_op`.
* `levqSyncProcess`, `levqSyncReturn`, `levqSync` — the source's functions.

## Main results

* `levqSync_transparent_iff` — the call is passed through if and only if it succeeds or
  its status is odd.
* `runtime_error_returned` — an error with the status `LUA_ERRRUN` is returned as a result.
-/

namespace LuaSys.Event

/-- What a call does: it returns values, or it raises an error with a status code. -/
inductive CallResult (ν : Type*)
  | ok (results : List ν)
  | error (value : ν) (status : ℤ) (status_ne : status ≠ 0)

/-- `LUA_ERRRUN`. -/
def luaErrRun : ℤ := 2

section Calls

variable {ν : Type*} (call : ν → List ν → CallResult ν)

/-- The call as Lua code sees it: results, or an error value that is raised. -/
def CallResult.seen : CallResult ν → Except ν (List ν)
  | .ok results => .ok results
  | .error value _ _ => .error value

/-- `lua_pcall(L, narg, LUA_MULTRET, 0)`: the function and its arguments are replaced by
the results or by the error value.  The second component is the status; `none` when
the stack is too short. -/
def luaPcall (stack : List ν) (narg : ℤ) : Option (List ν × ℤ) :=
  if narg < 0 then none
  else
    match stack.drop (stack.length - narg.toNat - 1) with
    | [] => none
    | f :: args =>
        let rest := stack.take (stack.length - narg.toNat - 1)
        match call f args with
        | .ok results => some (rest ++ results, 0)
        | .error value status _ => some (rest ++ [value], status)

/-- The fields of `struct evq_sync_op` for a call of `evq:sync`; the bit fields are of type
`int`. -/
structure EvqSyncOp (ν : Type*) where
  /-- The stack of `op->L`. -/
  stack : List ν
  fnIdx : BitVec 16
  status : BitVec 1

/-- The operation that `levq_sync_call` puts on the list. -/
def levqSyncCall (stack : List ν) (fnIdx : ℤ) : EvqSyncOp ν where
  stack := stack
  fnIdx := BitVec.ofInt 16 fnIdx
  status := 0

/-- `levq_sync_process` for one operation of `evq:sync`. -/
def levqSyncProcess (op : EvqSyncOp ν) : Option (EvqSyncOp ν) :=
  (luaPcall call op.stack (op.stack.length - op.fnIdx.toInt)).map fun r =>
    { op with stack := r.1, status := BitVec.ofInt 1 r.2 }

/-- The end of `levq_sync_call`, after the thread has been resumed: `lua_error` raises the
value on the top, and otherwise the values above `old_top` are returned. -/
def levqSyncReturn (op : EvqSyncOp ν) (fnIdx : ℤ) : Option (Except ν (List ν)) :=
  if op.status.toInt ≠ 0 then op.stack.getLast?.map .error
  else some (.ok (op.stack.drop (op.stack.length - (op.stack.length - (fnIdx - 1))).toNat))

/-- `levq_sync` whose operation is executed by the loop thread. -/
def levqSync (stack : List ν) : Option (Except ν (List ν)) :=
  (levqSyncProcess call (levqSyncCall stack 2)).bind fun op => levqSyncReturn op 2

/-! ## The outcome -/

theorem luaPcall_of_call (rest args : List ν) (f : ν) :
    luaPcall call (rest ++ f :: args) args.length =
      match call f args with
      | .ok results => some (rest ++ results, 0)
      | .error value status _ => some (rest ++ [value], status) := by
  have hlen : (rest ++ f :: args).length - (args.length : ℤ).toNat - 1 = rest.length := by
    simp
    omega
  rw [luaPcall, if_neg (by omega), hlen, List.drop_left, List.take_left]

/-- What `evq:sync(f, ...)` does. -/
theorem levqSync_eq (evq f : ν) (args : List ν) :
    levqSync call (evq :: f :: args) =
      match call f args with
      | .ok results => some (.ok results)
      | .error value status _ => some (if status % 2 = 0 then .ok [value] else .error value) := by
  have hnarg : ((evq :: f :: args).length : ℤ) - (BitVec.ofInt 16 2).toInt = args.length := by
    simp
    omega
  have hpcall := luaPcall_of_call call [evq] args f
  rw [List.singleton_append] at hpcall
  rw [levqSync, levqSyncProcess, levqSyncCall]
  simp only [hnarg, hpcall]
  cases call f args with
  | ok results => simp [levqSyncReturn]
  | error value status hne =>
      have hbit : (BitVec.ofInt 1 status).toInt ≠ 0 ↔ ¬status % 2 = 0 := by
        rw [BitVec.toInt_ofInt]
        simp only [Int.bmod]
        omega
      simp only [Option.map_some, Option.bind_some, levqSyncReturn, hbit]
      by_cases heven : status % 2 = 0
      · simp [heven]
      · simp [heven]

/-- `evq:sync(f, ...)` returns the results of `f` and raises its error, if and only if `f`
succeeds or its status code is odd. -/
theorem levqSync_transparent_iff (evq f : ν) (args : List ν) :
    levqSync call (evq :: f :: args) = some (call f args).seen ↔
      ∀ value status hne, call f args = .error value status hne → status % 2 = 1 := by
  rw [levqSync_eq]
  cases call f args with
  | ok results => simp [CallResult.seen]
  | error value status hne =>
      simp only [CallResult.seen, Option.some.injEq, CallResult.error.injEq]
      constructor
      · rintro h _ _ _ ⟨rfl, rfl⟩
        by_contra hodd
        rw [if_pos (by omega)] at h
        exact absurd h (by simp)
      · intro h
        have hodd := h value status hne ⟨rfl, rfl⟩
        rw [if_neg (by omega)]

end Calls

/-- A function that raises its first argument, as `error` does, is called through the
queue: the error value is returned as a result. -/
theorem runtime_error_returned :
    ∃ call : ℕ → List ℕ → CallResult ℕ, call 1 [7] = .error 7 luaErrRun (by decide) ∧
      levqSync call [0, 1, 7] = some (.ok [7]) ∧
      levqSync call [0, 1, 7] ≠ some (call 1 [7]).seen := by
  refine ⟨fun _ args => .error (args.headD 0) luaErrRun (by decide), rfl, rfl, ?_⟩
  rw [levqSync_eq]
  simp [CallResult.seen, luaErrRun]

end LuaSys.Event
