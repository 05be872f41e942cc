import LuaSys.Mem.LineStream

/-!
# Blocks and owners of a memory buffer

The functions on a `membuf` with all that they do to its block: where the block comes from,
who frees it, and what they leave of the fields when they fail or release it.

A call stops at an access outside of the block, at a `realloc` or `free` of a block that is not
from `malloc`, or when a loop goes on for longer than its fuel.

Streams are Lua code.  A call of a stream gives a result or raises an error, and leaves the buffer
in some state: it may use the buffer like everybody else.  What the calls return to Lua is in
`Mem/Buffer` and `Mem/LineStream`; here it is left out.

## Main definitions

* `MemPtr` — `struct membuf` with the kind of its block and the flags of its streams.
* `MemPtr.new`, `MemPtr.alloc`, `MemPtr.realloc`, `MemPtr.free`, `MemPtr.streamWrite`,
  `MemPtr.makeRoom`, `MemPtr.addlstring`, `MemPtr.write`, `MemPtr.reserve`, `MemPtr.readBytes`,
  `MemPtr.readLine`, `MemPtr.flush`, `MemPtr.output`, `MemPtr.input` — the functions of the
  source.
* `MemOp`, `MemPtr.step` — the calls from Lua.
-/

namespace LuaSys.Mem

open LuaSys.Lib
open Membuf (newline laterNewline)

/-- The block that `data` points to. -/
inductive Block
  | null
  /-- The part of the userdata behind the structure. -/
  | udata
  | malloc
  /-- A block that has been freed. -/
  | stale
  deriving DecidableEq, Repr

/-- Why a call stops. -/
inductive Stop
  /-- A byte outside of the block is read or written. -/
  | outside
  /-- `realloc` or `free` get a block that is not from `malloc`. -/
  | badBlock
  /-- The fuel of a loop is used up. -/
  | fuel
  deriving DecidableEq, Repr

/-- `struct membuf`, with the kind of its block; the flags are those of the streams. -/
structure MemPtr where
  mb : Membuf
  block : Block
  istream : Bool
  istreamBufio : Bool
  ostream : Bool
  ostreamBufio : Bool

/-- A call of the method `write` of a stream: the buffer as it leaves it, and its result, or
none if it raises an error. -/
structure WriteCall where
  leaves : MemPtr → MemPtr
  result : Option Bool

/-- A string to be written, and what the stream and the allocation do. -/
structure Chunk where
  bytes : List UInt8
  call : WriteCall
  realloc : Option Lib.Mem

/-- A call of the method `read` of a stream by `read_line`: the buffer as it leaves it, and the
string, empty at the end, or none if it raises an error; and what the write of this string
does. -/
structure LineCall where
  leaves : MemPtr → MemPtr
  bytes : Option (List UInt8)
  call : WriteCall
  realloc : Option Lib.Mem

/-- An access to the block. -/
def inBlock {α : Type} (x : Option α) : Except Stop α := x.elim (.error .outside) .ok

namespace MemPtr

/-! ## Blocks -/

/-- `sizeof(struct membuf)`. -/
def sizeofMembuf : ℕ := 24

/-- `mem_new`, when the userdata has been allocated.  The size of the userdata wraps around. -/
def new (n : ℤ) : Except Stop MemPtr :=
  let len := sizeT n
  let size := sizeT (sizeofMembuf + len : ℕ)
  if size < sizeofMembuf then .error .outside
  else
    .ok
      { mb :=
          { data := fun _ => 0
            size := if len = 0 then 0 else size - sizeofMembuf
            len := if len = 0 then 0 else int32 len
            offset := 0
            alloc := false }
        block := if len = 0 then .null else .udata
        istream := false
        istreamBufio := false
        ostream := false
        ostreamBufio := false }

/-- `mem_alloc`; the bytes are those of `malloc` or `calloc`. -/
def alloc (m : MemPtr) (n : ℤ) (block : Option Lib.Mem) : MemPtr :=
  let len := int32 n
  match block with
  | some data =>
      { m with
        mb := { data := data, size := sizeT len, len := len, offset := 0, alloc := true }
        block := .malloc }
  | none =>
      { m with
        mb := { data := m.mb.data, size := 0, len := len, offset := 0, alloc := true }
        block := .null }

/-- The call of `realloc` on the block: its result is the new block, or null.  With null for no
bytes the old block has been freed. -/
def moveBlock (m : MemPtr) (size : ℕ) (block : Option Lib.Mem) : Except Stop (Bool × MemPtr) :=
  if m.block = .udata ∨ m.block = .stale then .error .badBlock
  else
    match block with
    | some data =>
        .ok (true, { m with
          mb := { m.mb with
            data := fun i => if i < m.mb.size then m.mb.data i else data i
            size := size }
          block := .malloc })
    | none =>
        if size = 0 ∧ m.block = .malloc then
          .ok (false, { m with mb := { m.mb with size := 0 }, block := .stale })
        else .ok (false, m)

/-- `mem_realloc`. -/
def realloc (m : MemPtr) (n : ℤ) (block : Option Lib.Mem) : Except Stop MemPtr := do
  let len := int32 n
  let (ok, m) ← m.moveBlock (sizeT len) block
  if ok then .ok { m with mb := { m.mb with len := len } } else .ok m

/-- `data = NULL; flags &= MEM_TYPE_MASK;` -/
def clear (m : MemPtr) : MemPtr where
  mb := { m.mb with size := 0, alloc := false }
  block := .null
  istream := false
  istreamBufio := false
  ostream := false
  ostreamBufio := false

/-- `mem_free`. -/
def free (m : MemPtr) : Except Stop MemPtr :=
  if m.block = .null then .ok m
  else if m.mb.alloc = true ∧ m.block ≠ .malloc then .error .badBlock
  else .ok m.clear

/-! ## Writing -/

/-- The buffer behind a call of its output stream: a string that has been accepted is gone. -/
def afterWrite (m : MemPtr) (c : WriteCall) : MemPtr :=
  if c.result = some true ∧ m.ostreamBufio = false then
    { c.leaves m with mb := { (c.leaves m).mb with offset := 0 } }
  else c.leaves m

/-- `stream_write`: the result of the stream, and the buffer. -/
def streamWrite (m : MemPtr) (c : WriteCall) : Except Stop (Option Bool × MemPtr) := do
  let _ ← if m.ostreamBufio then .ok [] else inBlock (m.mb.fetch (sizeT m.mb.offset))
  .ok (c.result, m.afterWrite c)

/-- `membuf_addlstring` up to `end`: its result, the buffer, and the local variable `offset`. -/
structure Room where
  ok : Bool
  buf : MemPtr
  offset : ℤ

/-- The part of `membuf_addlstring` that doubles the length.  The local variables `flags`, `len`
and `newlen` may be older than the buffer. -/
def grow (fuel : ℕ) (m : MemPtr) (alloc : Bool) (len newlen : ℕ) (offset : ℤ)
    (block : Option Lib.Mem) : Except Stop Room :=
  match doubleLen fuel len newlen with
  | none => .error .fuel
  | some len =>
      if alloc then do
        let (ok, m) ← m.moveBlock len block
        if ok then .ok ⟨true, { m with mb := { m.mb with len := int32 len } }, offset⟩
        else .ok ⟨false, m, offset⟩
      else .ok ⟨false, m, offset⟩

/-- `newlen >= len`. -/
def full (m : MemPtr) (size : ℕ) : Prop := sizeT (m.mb.offset + size) ≥ sizeT m.mb.len

instance (m : MemPtr) (size : ℕ) : Decidable (m.full size) := inferInstanceAs (Decidable (_ ≥ _))

/-- `size < len - offset`. -/
def hasSpace (m : MemPtr) (size : ℕ) : Prop := size < sizeT (sizeT m.mb.len - m.mb.offset)

instance (m : MemPtr) (size : ℕ) : Decidable (m.hasSpace size) := inferInstanceAs (Decidable (_ < _))

/-- `membuf_addlstring` up to `end`.  The local variables `offset` and `len` are loaded again
if the stream has accepted. -/
def makeRoom (fuel : ℕ) (m : MemPtr) (size : ℕ) (c : WriteCall) (block : Option Lib.Mem) :
    Except Stop Room :=
  let newlen := sizeT (m.mb.offset + size)
  if m.full size then
    if m.ostream then do
      let (res, m') ← m.streamWrite c
      match res with
      | none => .ok ⟨false, m', m.mb.offset⟩
      | some true =>
          if m'.hasSpace size then .ok ⟨true, m', m'.mb.offset⟩
          else m'.grow fuel m.mb.alloc (sizeT m'.mb.len) newlen m'.mb.offset block
      | some false => m'.grow fuel m.mb.alloc (sizeT m.mb.len) newlen m.mb.offset block
    else m.grow fuel m.mb.alloc (sizeT m.mb.len) newlen m.mb.offset block
  else .ok ⟨true, m, m.mb.offset⟩

/-- `membuf_addlstring` with a string: its result, and the buffer. -/
def addlstring (fuel : ℕ) (m : MemPtr) (s : List UInt8) (c : WriteCall) (block : Option Lib.Mem) :
    Except Stop (Bool × MemPtr) := do
  let r ← m.makeRoom fuel s.length c block
  if r.ok then do
    let mb ← inBlock (r.buf.mb.store r.offset s)
    .ok (true, { r.buf with mb := { mb with offset := int32 (r.offset + int32 s.length) } })
  else .ok (false, r.buf)

/-- The loop of `membuf_write` over its arguments. -/
def write (fuel : ℕ) (m : MemPtr) : List Chunk → Except Stop MemPtr
  | [] => .ok m
  | s :: args =>
      if s.bytes = [] then m.write fuel args
      else do
        let (ok, m) ← m.addlstring fuel s.bytes s.call s.realloc
        if ok then m.write fuel args else .ok m

/-- `mem_reserve`.  The number is an `int` that is converted to `size_t`. -/
def reserve (fuel : ℕ) (m : MemPtr) (n : ℤ) (c : WriteCall) (block : Option Lib.Mem) :
    Except Stop MemPtr :=
  Room.buf <$> m.makeRoom fuel (sizeT (int32 n)) c block

/-! ## Reading -/

/-- `read_bytes`; the stream leaves the buffer as `leaves` says. -/
def readBytes (m : MemPtr) (l : ℕ) (leaves : MemPtr → MemPtr) : Except Stop MemPtr :=
  if m.mb.offset = 0 ∧ m.istream = true then .ok (leaves m)
  else (fun r => { m with mb := r.2 }) <$> inBlock (m.mb.readBytes l)

/-- The loop of `read_line`: the bytes behind the newline, or none if the call is over, and the
buffer. -/
def lineLoop (fuel : ℕ) (m : MemPtr) : List LineCall → Except Stop (Option (List UInt8) × MemPtr)
  | [] => .ok (some [], m)
  | c :: calls =>
      match c.bytes with
      | none => .ok (none, c.leaves m)
      | some s =>
          if s = [] then .ok (some [], c.leaves m)
          else if s.head? = some newline then .ok (some s.tail, c.leaves m)
          else do
            let (ok, m) ← (c.leaves m).addlstring fuel (s.take ((laterNewline s).getD s.length))
              c.call c.realloc
            if ok then
              match laterNewline s with
              | some l => .ok (some (s.drop (l + 1)), m)
              | none => m.lineLoop fuel calls
            else .ok (none, m)

/-- The part of `read_line` behind `end`: the content is the line, and the bytes behind the
newline are the content. -/
def endLine (fuel : ℕ) (m : MemPtr) (rest : Chunk) : Except Stop MemPtr := do
  let _ ← inBlock (m.mb.fetch (sizeT m.mb.offset))
  let m := { m with mb := { m.mb with offset := 0 } }
  if rest.bytes = [] then .ok m
  else Prod.snd <$> m.addlstring fuel rest.bytes rest.call rest.realloc

/-- `read_line`. -/
def readLine (fuel : ℕ) (m : MemPtr) (calls : List LineCall) (last : WriteCall)
    (block : Option Lib.Mem) : Except Stop MemPtr := do
  let n := sizeT m.mb.offset
  let nl ← inBlock (m.mb.findNewline n)
  match nl with
  | some l =>
      (fun r => { m with mb := r.2 }) <$>
        inBlock (m.mb.consume l (l + 1) (sizeT ((n : ℤ) - (l + 1))))
  | none =>
      if m.istream then do
        let (rest, m) ← m.lineLoop fuel calls
        match rest with
        | none => .ok m
        | some rest => m.endLine fuel ⟨rest, last, block⟩
      else m.endLine fuel ⟨[], last, block⟩

/-! ## Streams -/

/-- `membuf_flush`; `membuf_close` is the same with `close`. -/
def flush (m : MemPtr) (close : Bool) (c : WriteCall) : Except Stop MemPtr :=
  if m.ostream then do
    let (res, m) ← m.streamWrite c
    if close ∧ res ≠ none then m.free else .ok m
  else .ok m

/-- `membuf_output`: the argument says whether the stream has the tag, and is none for nil. -/
def output (m : MemPtr) : Option Bool → MemPtr
  | none => { m with ostream := false }
  | some bufio => { m with ostream := true, ostreamBufio := m.ostreamBufio || bufio }

/-- `membuf_input`. -/
def input (m : MemPtr) : Option Bool → MemPtr
  | none => { m with istream := false }
  | some bufio => { m with istream := true, istreamBufio := m.istreamBufio || bufio }

end MemPtr

/-! ## The calls -/

/-- The calls from Lua, with what the allocations and the streams do. -/
inductive MemOp
  | alloc (n : ℤ) (block : Option Lib.Mem)
  | realloc (n : ℤ) (block : Option Lib.Mem)
  | reserve (n : ℤ) (call : WriteCall) (block : Option Lib.Mem)
  | write (args : List Chunk)
  | writeln (args : List Chunk) (call : WriteCall) (block : Option Lib.Mem)
  | read (n : ℤ) (leaves : MemPtr → MemPtr)
  | readAll (leaves : MemPtr → MemPtr)
  | readLine (calls : List LineCall) (last : WriteCall) (block : Option Lib.Mem)
  | flush (close : Bool) (call : WriteCall)
  | free
  | output (stream : Option Bool)
  | input (stream : Option Bool)

namespace MemPtr

/-- One call. -/
def step (fuel : ℕ) (m : MemPtr) : MemOp → Except Stop MemPtr
  | .alloc n block => .ok (m.alloc n block)
  | .realloc n block => m.realloc n block
  | .reserve n call block => m.reserve fuel n call block
  | .write args => m.write fuel args
  | .writeln args call block => m.write fuel (args ++ [⟨[newline], call, block⟩])
  | .read n leaves => m.readBytes (sizeT n) leaves
  | .readAll leaves => m.readBytes (sizeT (-1)) leaves
  | .readLine calls last block => m.readLine fuel calls last block
  | .flush close call => m.flush close call
  | .free => m.free
  | .output stream => .ok (m.output stream)
  | .input stream => .ok (m.input stream)

end MemPtr

end LuaSys.Mem
