import LuaSys.Lib.Memory
import LuaSys.Lib.Word
import Mathlib.Logic.Function.Basic

/-!
# Pipes between VM-threads

The model of `thread_pipe.c`: a circular list of byte buffers, each of them a ring
of variable-size messages.  A message starts with its own size in bytes; a size of
zero is the sentinel that sends the reader back to the start of the buffer.

The operations run under the critical section `pp->cs`, which is released only
inside a condition wait.  One pass of the loop of `pipe_put` or `pipe_get` is
therefore atomic, and it is one function here: a pass either completes the call or
leaves the caller blocked, and `putWake` and `getWake` are what a blocked caller
does when its wait returns.

An access outside the allocated block of a buffer is undefined in the source.  It
is `none` here, so a statement that a pass returns `some` includes that every
access of the pass is in bounds.

## Main definitions

* `Message`, `PipeBuf`, `Pipe` — the structures of the source.
* `pipeNew` — the argument check and the first buffer.
* `pipePutPass`, `pipeGetPass` — one pass of each loop.
* `PipeSys`, `PipeSys.step` — callers, blocked callers and the history of a run.
-/

namespace LuaSys.Thread

open LuaSys.Lib

/-- `MSG_MAXSIZE`. -/
def msgMaxSize : ℕ := 512

/-- `sizeof(struct pipe_buf)`: three 32-bit indexes and an aligned pointer. -/
def pipeBufHeader : ℕ := 24

/-- `PIPE_BUF_EXTRASIZE`: the header and one message size. -/
def pipeBufExtraSize : ℕ := pipeBufHeader + 2

/-- `PIPE_BUF_MINSIZE`. -/
def pipeBufMinSize : ℕ := 8 * msgMaxSize

/-- `PIPE_BUF_MAXSIZE`. -/
def pipeBufMaxSize : ℕ := 2 * 1024 * 1024 * 1024

/-! ## Data -/

/-- A message as `pipe_msg_build` leaves it: the used part of `items`.  The field
`size` of the source counts itself and the items, see `Message.size`. -/
structure Message where
  items : List UInt8
  items_le : items.length ≤ msgMaxSize

namespace Message

/-- The field `size`: `offsetof(struct message, items)` and the items. -/
def size (msg : Message) : ℕ := 2 + msg.items.length

/-- The bytes `memcpy` moves: the size field and the items. -/
def bytes (msg : Message) : List UInt8 := le16 msg.size ++ msg.items

@[simp] theorem length_bytes (msg : Message) : msg.bytes.length = msg.size := by
  simp [bytes, size]

theorem two_le_size (msg : Message) : 2 ≤ msg.size := by simp [size]

theorem size_le (msg : Message) : msg.size ≤ 514 := by
  have := msg.items_le
  simp only [size, msgMaxSize] at *
  omega

end Message

/-- `struct pipe_buf` with the block behind it.  `size` is the number of bytes the
allocation holds after the header. -/
structure PipeBuf where
  beginIdx : ℕ
  endIdx : ℕ
  len : ℕ
  nextBuf : ℕ
  size : ℕ
  data : Mem

/-- `struct pipe`.  Buffers are named by the order of their allocation. -/
structure Pipe where
  nmsg : ℕ
  rbuf : ℕ
  wbuf : ℕ
  signalOnPut : ℕ
  signalOnGet : ℕ
  bufSize : ℕ
  bufMaxSize : ℕ
  bufs : ℕ → PipeBuf
  nbufs : ℕ

/-- What `pipe_new` can raise or return besides a pipe. -/
inductive PipeError
  | argError (arg : ℕ) (msg : String)
  | sysError
  deriving DecidableEq, Repr

/-- The check of `pipe_new`: the sizes are ordered and in range, and their quotient
is a power of two. -/
def PipeNewChecks (maxSize minSize : ℕ) : Prop :=
  ¬(minSize > maxSize
    ∨ minSize < pipeBufMinSize
    ∨ maxSize > pipeBufMaxSize
    ∨ ((maxSize / minSize) &&& (maxSize / minSize - 1)) ≠ 0)

instance (maxSize minSize : ℕ) : Decidable (PipeNewChecks maxSize minSize) :=
  inferInstanceAs (Decidable (¬_))

/-- The state `pipe_new` builds around the block of `malloc(min_size)`. -/
def pipeInit (maxSize minSize : ℕ) (block : Mem) : Pipe where
  nmsg := 0
  rbuf := 0
  wbuf := 0
  signalOnPut := 0
  signalOnGet := 0
  bufSize := minSize
  bufMaxSize := maxSize
  bufs := fun _ =>
    { beginIdx := 0
      endIdx := 0
      len := u32sub minSize pipeBufExtraSize
      nextBuf := 0
      size := minSize - pipeBufHeader
      data := block }
  nbufs := 1

/-- `pipe_new`, with the outcome of its allocation. -/
def pipeNew (maxSize minSize : ℕ) (malloc : Option Mem) : Except PipeError Pipe :=
  if PipeNewChecks maxSize minSize then
    match malloc with
    | none => .error .sysError
    | some block => .ok (pipeInit maxSize minSize block)
  else .error (.argError 1 "invalid size")

/-! ## One buffer -/

namespace PipeBuf

/-- A write behind the header, defined when it stays inside the block. -/
def store (buf : PipeBuf) (off : ℕ) (bs : List UInt8) : Option PipeBuf :=
  if off + bs.length ≤ buf.size then some { buf with data := writeBytes buf.data off bs } else none

/-- A read behind the header, defined when it stays inside the block. -/
def load (buf : PipeBuf) (off n : ℕ) : Option (List UInt8) :=
  if off + n ≤ buf.size then some (readBytes buf.data off n) else none

/-- The size field of the message at `off`. -/
def loadSize (buf : PipeBuf) (off : ℕ) : Option ℕ :=
  if off + 2 ≤ buf.size then some (load16 buf.data off) else none

/-- `buf.end < buf.begin`. -/
def wrapped (buf : PipeBuf) : Prop := buf.endIdx < buf.beginIdx

instance (buf : PipeBuf) : Decidable buf.wrapped :=
  inferInstanceAs (Decidable (buf.endIdx < buf.beginIdx))

/-- The bytes between the end index and the obstacle after it. -/
def room (buf : PipeBuf) : ℕ :=
  u32sub (if buf.wrapped then buf.beginIdx else buf.len) buf.endIdx

/-- Write the sentinel at the end index and go on at offset zero. -/
def wrap (buf : PipeBuf) : Option PipeBuf :=
  (buf.store buf.endIdx (le16 0)).map fun buf => { buf with endIdx := 0 }

/-- Copy a message to the end index and advance it. -/
def append (buf : PipeBuf) (msg : Message) : Option PipeBuf :=
  (buf.store buf.endIdx msg.bytes).map fun buf =>
    { buf with endIdx := u32 (buf.endIdx + msg.size) }

/-- The offset of the oldest message: the begin index, or zero behind a sentinel. -/
def front (buf : PipeBuf) : Option ℕ :=
  (buf.loadSize buf.beginIdx).map fun size => if size = 0 then 0 else buf.beginIdx

/-- The oldest message and the buffer without it; the flag is set when the begin
index has met the end index.  The destination of the copy has `514` bytes. -/
def take (buf : PipeBuf) : Option (List UInt8 × PipeBuf × Bool) := do
  let off ← buf.front
  let size ← buf.loadSize off
  if size > 2 + msgMaxSize then none else
    let bytes ← buf.load off size
    let b := u32 (off + size)
    if b = buf.endIdx then
      some (bytes, { buf with beginIdx := 0, endIdx := 0 }, true)
    else if b = buf.len then
      some (bytes, { buf with beginIdx := 0 }, false)
    else
      some (bytes, { buf with beginIdx := b }, false)

end PipeBuf

/-! ## One pass of each loop -/

/-- How a pass of `pipe_put` ends.  The flag tells whether `put_cond` is signalled. -/
inductive PutPass
  | stored (pp : Pipe) (signalPut : Bool)
  | blocked (pp : Pipe)

/-- How a pass of `pipe_get` ends.  The flags tell which conditions are signalled. -/
inductive GetPass
  | taken (pp : Pipe) (msg : List UInt8) (signalPut signalGet : Bool)
  | blocked (pp : Pipe)

/-- The end of a successful pass: `*pb = buf` with the message appended. -/
def pipePutStore (pp : Pipe) (pb : ℕ) (buf : PipeBuf) (msg : Message) : Option PutPass :=
  (buf.append msg).map fun buf =>
    .stored { pp with bufs := Function.update pp.bufs pb buf, nmsg := u32 (pp.nmsg + 1) }
      (pp.signalOnPut ≠ 0)

/-- The buffer that `malloc(pp->buf_size)` gives, linked behind `buf`. -/
def pipeFreshBuf (pp : Pipe) (buf : PipeBuf) (block : Mem) : PipeBuf where
  beginIdx := 0
  endIdx := 0
  len := u32sub pp.bufSize pipeBufExtraSize
  nextBuf := buf.nextBuf
  size := pp.bufSize - pipeBufHeader
  data := block

/-- The pipe after a new buffer has been linked behind the write buffer. -/
def pipeGrow (pp : Pipe) (block : Mem) : Pipe :=
  let buf := pp.bufs pp.wbuf
  { pp with
    bufs := Function.update (Function.update pp.bufs pp.wbuf { buf with nextBuf := pp.nbufs })
      pp.nbufs (pipeFreshBuf pp buf block)
    nbufs := pp.nbufs + 1
    bufSize := u32 (2 * pp.bufSize)
    wbuf := pp.nbufs }

/-- One pass of the loop of `pipe_put`; `malloc` is the outcome of the allocation,
if the pass asks for one. -/
def pipePutPass (pp : Pipe) (msg : Message) (malloc : Option Mem) : Option PutPass :=
  let pb := pp.wbuf
  let buf := pp.bufs pb
  let next := pp.bufs buf.nextBuf
  if msg.size > buf.room then
    if ¬buf.wrapped ∧ buf.beginIdx > msg.size then do
      -- wrap the buffer
      let buf ← buf.wrap
      pipePutStore pp pb buf msg
    else if pb ≠ buf.nextBuf ∧ next.beginIdx = 0 ∧ next.endIdx = 0 then
      -- use next free buffer
      pipePutStore { pp with wbuf := buf.nextBuf } buf.nextBuf next msg
    else if u32 (2 * pp.bufSize) ≤ pp.bufMaxSize then
      match malloc with
      | some block =>
          -- allocate new buffer
          pipePutStore (pipeGrow pp block) pp.nbufs (pipeFreshBuf pp buf block) msg
      | none => some (.blocked { pp with signalOnGet := u32 (pp.signalOnGet + 1) })
    else some (.blocked { pp with signalOnGet := u32 (pp.signalOnGet + 1) })
  else pipePutStore pp pb buf msg

/-- One pass of the loop of `pipe_get`. -/
def pipeGetPass (pp : Pipe) : Option GetPass :=
  if pp.nmsg ≠ 0 then do
    let (msg, buf, emptied) ← (pp.bufs pp.rbuf).take
    let nmsg := u32sub pp.nmsg 1
    some (.taken
      { pp with
        rbuf := if emptied ∧ pp.nmsg > 1 then buf.nextBuf else pp.rbuf
        bufs := Function.update pp.bufs pp.rbuf buf
        nmsg := nmsg }
      msg (nmsg ≠ 0 ∧ pp.signalOnPut ≠ 0) (pp.signalOnGet ≠ 0))
  else some (.blocked { pp with signalOnPut := u32 (pp.signalOnPut + 1) })

/-- A writer whose wait has returned; the flag tells whether `get_cond` is
signalled again. -/
def putWake (pp : Pipe) : Pipe × Bool :=
  let n := u32sub pp.signalOnGet 1
  ({ pp with signalOnGet := n }, n ≠ 0)

/-- A reader whose wait has returned. -/
def getWake (pp : Pipe) : Pipe := { pp with signalOnPut := u32sub pp.signalOnPut 1 }

/-! ## Runs -/

/-- The result of `pipe_cond_wait`. -/
inductive CondResult
  | signalled
  | timedOut
  | failed
  deriving DecidableEq, Repr

/-- A pipe with its blocked callers and the history of the completed calls. -/
structure PipeSys where
  pp : Pipe
  /-- Messages of the writers blocked on `get_cond`. -/
  putters : List Message
  /-- Number of the readers blocked on `put_cond`. -/
  getters : ℕ
  /-- Messages of the successful `pipe_put` calls, oldest first. -/
  puts : List Message
  /-- Bytes returned by the successful `pipe_get` calls, oldest first. -/
  gets : List (List UInt8)

/-- The atomic sections of the callers. -/
inductive PipeOp
  /-- `pipe_put` is called. -/
  | put (msg : Message) (malloc : Option Mem)
  /-- The wait of the blocked writer number `i` returns. -/
  | putWake (i : ℕ) (res : CondResult) (malloc : Option Mem)
  /-- `pipe_get` is called. -/
  | get
  /-- The wait of a blocked reader returns. -/
  | getWake (res : CondResult)

namespace PipeSys

/-- Enter the result of a pass of `pipe_put` into the history. -/
def endPut (s : PipeSys) (msg : Message) : PutPass → PipeSys
  | .stored pp _ => { s with pp := pp, puts := s.puts ++ [msg] }
  | .blocked pp => { s with pp := pp, putters := s.putters ++ [msg] }

/-- Enter the result of a pass of `pipe_get` into the history. -/
def endGet (s : PipeSys) : GetPass → PipeSys
  | .taken pp msg _ _ => { s with pp := pp, gets := s.gets ++ [msg] }
  | .blocked pp => { s with pp := pp, getters := s.getters + 1 }

/-- A call of `pipe_put`, or its next pass after a wake-up. -/
def put (s : PipeSys) (msg : Message) (malloc : Option Mem) : Option PipeSys :=
  (pipePutPass s.pp msg malloc).map (s.endPut msg)

/-- A call of `pipe_get`, or its next pass after a wake-up. -/
def get (s : PipeSys) : Option PipeSys := (pipeGetPass s.pp).map s.endGet

/-- One atomic section.  A wake-up that names no blocked caller does nothing. -/
def step (s : PipeSys) : PipeOp → Option PipeSys
  | .put msg malloc => s.put msg malloc
  | .putWake i res malloc =>
      match s.putters[i]? with
      | none => some s
      | some msg =>
          let s := { s with pp := (Thread.putWake s.pp).1, putters := s.putters.eraseIdx i }
          if res = .signalled then s.put msg malloc else some s
  | .get => s.get
  | .getWake res =>
      if s.getters = 0 then some s else
        let s := { s with pp := Thread.getWake s.pp, getters := s.getters - 1 }
        if res = .signalled then s.get else some s

/-- A fresh pipe with no callers. -/
def init (pp : Pipe) : PipeSys := ⟨pp, [], 0, [], []⟩

end PipeSys

end LuaSys.Thread
