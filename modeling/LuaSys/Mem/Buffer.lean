import LuaSys.Mem.Membuf

/-!
# Writing to and reading from a memory buffer

`membuf_write`, `membuf_writeln`, `mem_reserve` and `membuf_read` for a buffer without
streams.  A write makes room and copies the bytes behind the others.  A read takes bytes
from the front and moves the others down.

An access outside the block is `none`, and so is a loop that does not end.

## Main definitions

* `Membuf.addlstring` — `membuf_addlstring` with a string.
* `Membuf.write`, `Membuf.writeln`, `Membuf.memReserve`, `Membuf.readBytes`,
  `Membuf.readLine` — the functions of the source.
* `MembufOp`, `Membuf.perform` — the calls from Lua.
-/

namespace LuaSys.Mem

open LuaSys.Lib

/-- What the functions leave on the Lua stack. -/
inductive MemResult
  | pushTrue
  | self
  | string (bs : List UInt8)
  | nil
  | nothing
  deriving DecidableEq, Repr

namespace Membuf

/-! ## Writing -/

/-- The part of `membuf_addlstring` behind `end`: copy the string to the offset. -/
def putString (mb : Membuf) (s : List UInt8) : Option Membuf :=
  (mb.store mb.offset s).map fun m => { m with offset := int32 (mb.offset + int32 s.length) }

/-- `membuf_addlstring` with a string: its result, and the buffer. -/
def addlstring (fuel : ℕ) (mb : Membuf) (s : List UInt8) (realloc : Option Lib.Mem) :
    Option (Bool × Membuf) := do
  let (ok, mb) ← mb.reserve fuel s.length realloc
  if ok then (mb.putString s).map fun mb => (true, mb) else some (false, mb)

/-- The loop of `membuf_write` over its arguments; `reallocs` are the new blocks, by
argument. -/
def writeArgs (fuel : ℕ) (mb : Membuf) (reallocs : ℕ → Option Lib.Mem) :
    List (List UInt8) → Option (Bool × Membuf)
  | [] => some (true, mb)
  | s :: args =>
      if s = [] then mb.writeArgs fuel (fun i => reallocs (i + 1)) args
      else do
        let (ok, mb) ← mb.addlstring fuel s (reallocs 0)
        if ok then mb.writeArgs fuel (fun i => reallocs (i + 1)) args else some (false, mb)

/-- `membuf_write`. -/
def write (fuel : ℕ) (mb : Membuf) (reallocs : ℕ → Option Lib.Mem) (args : List (List UInt8)) :
    Option (MemResult × Membuf) :=
  (mb.writeArgs fuel reallocs args).map fun r => (if r.1 then .pushTrue else .nothing, r.2)

/-- The newline. -/
def newline : UInt8 := 10

/-- `membuf_writeln`. -/
def writeln (fuel : ℕ) (mb : Membuf) (reallocs : ℕ → Option Lib.Mem)
    (args : List (List UInt8)) : Option (MemResult × Membuf) :=
  mb.write fuel reallocs (args ++ [[newline]])

/-- `mem_reserve`.  The number is an `int` that is converted to `size_t`. -/
def memReserve (fuel : ℕ) (mb : Membuf) (len : ℤ) (realloc : Option Lib.Mem) :
    Option (MemResult × Membuf) :=
  (mb.reserve fuel (sizeT (int32 len)) realloc).map fun r => (if r.1 then .self else .nothing, r.2)

/-! ## Reading -/

/-- The first bytes of the block. -/
def fetch (mb : Membuf) (n : ℕ) : Option (List UInt8) :=
  if n ≤ mb.size then some (Lib.readBytes mb.data 0 n) else none

/-- `memmove (p, p + src, n)`. -/
def moveDown (mb : Membuf) (src n : ℕ) : Option Membuf :=
  if src + n ≤ mb.size then
    some { mb with data := writeBytes mb.data 0 (Lib.readBytes mb.data src n) }
  else none

/-- `n && (nl = memchr (s, '\n', n))`, as an index.  It looks at no byte behind the first
newline. -/
def findNewline (mb : Membuf) (n : ℕ) : Option (Option ℕ) :=
  if n = 0 then some none
  else
    match (Lib.readBytes mb.data 0 (min n mb.size)).findIdx? (· == newline) with
    | some l => some (some l)
    | none => if n ≤ mb.size then some none else none

/-- A string on the stack, or nil if it would be empty. -/
def pushString (bs : List UInt8) : MemResult := if bs = [] then .nil else .string bs

/-- Take the first `l` bytes away: the `n` bytes from `src` on become the first ones. -/
def consume (mb : Membuf) (l src n : ℕ) : Option (List UInt8 × Membuf) := do
  let bs ← mb.fetch l
  let mb := { mb with offset := int32 n }
  if n = 0 then some (bs, mb) else (mb.moveDown src n).map fun mb => (bs, mb)

/-- `read_bytes`. -/
def readBytes (mb : Membuf) (l : ℕ) : Option (MemResult × Membuf) :=
  let l := if l > sizeT mb.offset then sizeT mb.offset else l
  if l = 0 then some (.nil, mb)
  else
    let n := int32 (mb.offset - int32 l)
    (mb.consume l l (sizeT n)).map fun r => (.string r.1, r.2)

/-- `read_line`. -/
def readLine (mb : Membuf) : Option (MemResult × Membuf) := do
  let n := sizeT mb.offset
  let nl ← mb.findNewline n
  match nl with
  | some l => (mb.consume l (l + 1) (sizeT ((n : ℤ) - (l + 1)))).map fun r => (.string r.1, r.2)
  | none => (mb.fetch n).map fun bs => (pushString bs, { mb with offset := 0 })

/-! ## The calls -/

/-- The calls from Lua, with the results of the allocations. -/
inductive MembufOp
  | write (args : List (List UInt8)) (reallocs : ℕ → Option Lib.Mem)
  | writeln (args : List (List UInt8)) (reallocs : ℕ → Option Lib.Mem)
  | reserve (len : ℤ) (realloc : Option Lib.Mem)
  /-- `read (n)` with a number. -/
  | read (n : ℤ)
  | readLine
  | readAll

/-- One call: what it returns, and the buffer. -/
def perform (fuel : ℕ) (mb : Membuf) : MembufOp → Option (MemResult × Membuf)
  | .write args reallocs => mb.write fuel reallocs args
  | .writeln args reallocs => mb.writeln fuel reallocs args
  | .reserve len realloc => mb.memReserve fuel len realloc
  | .read n => mb.readBytes (sizeT n)
  | .readLine => mb.readLine
  | .readAll => mb.readBytes (sizeT (-1))

end Membuf

end LuaSys.Mem
