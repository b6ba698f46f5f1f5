import LoopConflict.Text.Limited

/-!
Writing through a buffer. Bytes are passed on when the buffer is full, and a piece that is larger than the buffer is
not copied if the buffer is empty. Once the writer behind it has failed nothing is taken any more. A counter in front
of the buffer adds up what went into it.
-/
namespace LoopConflict.Text

/-- The number of bytes that are kept back at most. -/
def bufferSize : Nat := 4096

/-- A buffer in front of a writer. -/
structure Buffer where
  sink : Sink
  pending : ByteArray := .empty
  /-- The writer has failed. -/
  failed : Bool := false

namespace Buffer

def available (b : Buffer) : Nat :=
  bufferSize - b.pending.size

/-- Keeps bytes back. -/
def store (b : Buffer) (bytes : ByteArray) : Buffer :=
  { b with pending := b.pending ++ bytes }

/-- Passes on what was kept back. -/
def flush (b : Buffer) : Buffer :=
  if b.failed then b
  else
    let (sink, n) := b.sink.write b.pending
    { sink, pending := b.pending.extract n b.pending.size, failed := decide (n < b.pending.size) }

/-- Takes bytes while nothing is kept back, and says how many: they are kept back if there is space for them, and
    passed on right away otherwise. -/
def writeEmpty (b : Buffer) (bytes : ByteArray) : Buffer × Nat :=
  if bytes.size ≤ b.available then (b.store bytes, bytes.size)
  else
    let (sink, n) := b.sink.write bytes
    ({ b with sink, failed := decide (n < bytes.size) }, n)

/-- Takes bytes, and says how many. The buffer is filled up and flushed if there is too little space. -/
def write (b : Buffer) (bytes : ByteArray) : Buffer × Nat :=
  if b.failed then (b, 0)
  else if bytes.size ≤ b.available then (b.store bytes, bytes.size)
  else if b.pending.size = 0 then b.writeEmpty bytes
  else
    let n := b.available
    let flushed := (b.store (bytes.extract 0 n)).flush
    if flushed.failed then (flushed, n)
    else
      let last := flushed.writeEmpty (bytes.extract n bytes.size)
      (last.1, n + last.2)

end Buffer

/-- Counts the bytes that go into a buffer, until that fails. -/
structure Counter where
  buffer : Buffer
  count : Nat := 0
  failed : Bool := false

def Counter.write (c : Counter) (piece : String) : Counter :=
  if c.failed then c
  else
    let (buffer, n) := c.buffer.write piece.toUTF8
    { buffer, count := c.count + n, failed := buffer.failed }

end LoopConflict.Text
