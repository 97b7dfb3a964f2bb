import Lthread.Lib.Bytes
import Lthread.Lib.Ring

/-! `klib/ringbuf.c`: a ring buffer of bytes, with the variant that enlarges it. `head` and
`tail` are distances from `buf`. An assertion that fails is a fault, and so is a copy that
leaves the block. -/

namespace Lthr

/-- `struct ringbuf_t`; its `size` is the length of the block. -/
structure Ringbuf where
  buf : List UInt8
  head : ℕ
  tail : ℕ
  deriving DecidableEq, Repr

namespace Ringbuf

inductive Fault
  | assert
  | null
  | outside
  | rounds
  deriving DecidableEq, Repr

def check (p : Prop) [Decidable p] : Except Fault Unit := if p then .ok () else .error .assert

def copyTo (buf : List UInt8) (off : ℕ) (src : List UInt8) : Except Fault (List UInt8) :=
  match blit buf off src with
  | some buf => .ok buf
  | none => .error .outside

def bufferSize (rb : Ringbuf) : ℕ := rb.buf.length

/-- `ringbuf_capacity`: one byte is used for detecting the full condition. -/
def capacity (rb : Ringbuf) : ℕ := rb.bufferSize - 1

def bytesFree (rb : Ringbuf) : ℕ :=
  if rb.tail ≤ rb.head then rb.capacity - (rb.head - rb.tail) else rb.tail - rb.head - 1

def bytesUsed (rb : Ringbuf) : ℕ := rb.capacity - rb.bytesFree

def isFull (rb : Ringbuf) : Bool := decide (rb.bytesFree = 0)

def nextp (rb : Ringbuf) (p : ℕ) : Except Fault ℕ := do
  check (p < rb.bufferSize)
  .ok ((p + 1) % rb.bufferSize)

/-- A pointer that has come to the end of the block goes back to its start. -/
def wrap (rb : Ringbuf) (p : ℕ) : ℕ := if p = rb.bufferSize then 0 else p

/-- `ringbuf_new`, with the block that `malloc` gives for a size. -/
def new (malloc : ℕ → Option (List UInt8)) (capacity : ℕ) : Option Ringbuf := do
  let buf ← malloc ((capacity + 1) % 2 ^ 64)
  some { buf := buf, head := 0, tail := 0 }

/-- After more bytes than were free, the oldest ones are given up. -/
def fixTail (rb : Ringbuf) (overflow : Bool) : Except Fault Ringbuf :=
  if overflow then do
    let tail ← rb.nextp rb.head
    check (({ rb with tail := tail } : Ringbuf).isFull = true)
    .ok { rb with tail := tail }
  else .ok rb

def memcpyIntoLoop (src : List UInt8) : ℕ → Ringbuf → ℕ → Except Fault Ringbuf
  | 0, _, _ => .error .rounds
  | rounds + 1, dst, nread =>
    if nread = src.length then .ok dst
    else do
      check (dst.head < dst.bufferSize)
      let n := min (dst.bufferSize - dst.head) (src.length - nread)
      let buf ← copyTo dst.buf dst.head ((src.drop nread).take n)
      memcpyIntoLoop src rounds { dst with buf := buf, head := dst.wrap (dst.head + n) } (nread + n)

def memcpyInto (dst : Ringbuf) (src : List UInt8) : Except Fault Ringbuf := do
  let overflow := decide (dst.bytesFree < src.length)
  let dst ← memcpyIntoLoop src (src.length + 1) dst 0
  dst.fixTail overflow

def copyLoop (count : ℕ) : ℕ → Ringbuf → Ringbuf → ℕ → Except Fault (Ringbuf × Ringbuf)
  | 0, _, _, _ => .error .rounds
  | rounds + 1, dst, src, ncopied =>
    if ncopied = count then .ok (dst, src)
    else do
      check (src.tail < src.bufferSize)
      let nsrc := min (src.bufferSize - src.tail) (count - ncopied)
      check (dst.head < dst.bufferSize)
      let n := min (dst.bufferSize - dst.head) nsrc
      let buf ← copyTo dst.buf dst.head ((src.buf.drop src.tail).take n)
      copyLoop count rounds { dst with buf := buf, head := dst.wrap (dst.head + n) }
        { src with tail := src.wrap (src.tail + n) } (ncopied + n)

/-- `ringbuf_copy`; with too few bytes in `src` it returns 0 and does nothing. -/
def copy (dst src : Ringbuf) (count : ℕ) : Except Fault (Ringbuf × Ringbuf) :=
  if src.bytesUsed < count then .ok (dst, src)
  else do
    let overflow := decide (dst.bytesFree < count)
    let (dst, src') ← copyLoop count (count + 1) dst src 0
    check (count + src'.bytesUsed = src.bytesUsed)
    let dst ← dst.fixTail overflow
    .ok (dst, src')

def appendInto (malloc : ℕ → Option (List UInt8)) (dst : Ringbuf) (src : List UInt8) : Except Fault Ringbuf :=
  if dst.bytesFree < src.length then
    match new malloc (((dst.bufferSize - 1) * 2 + src.length) % 2 ^ 64) with
    | none => .error .null
    | some newBuf => do
      let (newBuf, _) ← copy newBuf dst dst.bytesUsed
      memcpyInto newBuf src
  else memcpyInto dst src

def contents (rb : Ringbuf) : List UInt8 := ringView (rb.buf.getD · 0) rb.bufferSize rb.tail rb.bytesUsed

structure Ok (rb : Ringbuf) : Prop where
  head : rb.head < rb.bufferSize
  tail : rb.tail < rb.bufferSize

end Ringbuf

end Lthr
