-- SUMMARY: The input buffer: bytes passed and bytes ahead of the cursor, growth, marks and compaction.
import Munch.Error
import Munch.Source

/-! # Input buffers

A buffer holds the bytes around the cursor: those it has passed and still keeps, and those ahead of
it that the source has delivered already. Offsets count from the first kept byte. The capacity is
reserved in powers of two up to a limit; one slot behind the last byte is always free, so that a
terminator can stand there. Slots behind the last byte keep what they held before. -/

namespace Munch

/-- The settings of a buffer. -/
structure BufferSettings where
  /-- Whether to read line by line, a byte at a time. -/
  interactive : Bool := false
  /-- The number of bytes to ask the source for at a time, a block. -/
  blockSize : Nat := 8192
  /-- The capacity to start with. -/
  initialCapacity : Nat := 8193
  /-- The largest capacity allowed; none for no limit. -/
  capacityLimit : Option Nat := none
  /-- The largest capacity that memory can hold. -/
  heapLimit : Nat := 1 <<< 47
  /-- The byte that stands behind a match while its action runs, if any does. -/
  terminator : Option UInt8 := some 0
  deriving DecidableEq, Inhabited, Repr

/-- A byte that a terminator has replaced. -/
structure CoveredByte where
  offset : Nat
  byte : UInt8
  deriving DecidableEq, Inhabited, Repr

/-- An input buffer over its source. -/
structure Buffer where
  settings : BufferSettings
  source : Source
  capacity : Nat := 0
  /-- The kept bytes before the cursor. -/
  passed : Array UInt8 := #[]
  /-- The bytes at and behind the cursor. -/
  ahead : List UInt8 := []
  /-- What the slots behind the last byte hold; those not listed hold 0. -/
  stale : List UInt8 := []
  /-- How often the source was asked. -/
  reads : Nat := 0
  /-- How many bytes the source delivered. -/
  received : Nat := 0
  deriving DecidableEq, Inhabited, Repr

/-- Computations on a buffer. A failure keeps what was done before it. -/
abbrev BufferM := EStateM ScanError Buffer

namespace Buffer

/-! ## Contents -/

/-- The offset of the next byte. -/
def cursor (b : Buffer) : Nat :=
  b.passed.size

/-- The number of bytes held. -/
def filled (b : Buffer) : Nat :=
  b.passed.size + b.ahead.length

theorem filled_eq (b : Buffer) : b.filled = b.cursor + b.ahead.length := rfl

/-- The bytes held, kept ones first. -/
def contents (b : Buffer) : List UInt8 :=
  b.passed.toList ++ b.ahead

/-- The bytes not yet passed: those ahead and those still in the source. -/
def pending (b : Buffer) : List UInt8 :=
  b.ahead ++ b.source.bytes

/-- The bytes from `start` to before `stop`, as far as they are held. -/
def slice (b : Buffer) (start stop : Nat) : List UInt8 :=
  (b.passed.extract start stop).toList
    ++ (b.ahead.take (stop - b.cursor)).drop (start - b.cursor)

/-- The byte at an offset, if it is held. -/
def byteAt? (b : Buffer) (offset : Nat) : Option UInt8 :=
  if offset < b.cursor then b.passed[offset]? else b.ahead[offset - b.cursor]?

/-- The content of a slot, held or stale. -/
def slot (b : Buffer) (offset : Nat) : UInt8 :=
  (b.byteAt? offset).getD (b.stale[offset - b.filled]?.getD 0)

/-- Whether the cursor stands at the start of a line: nothing is kept before it, or a newline. -/
def atLineStart (b : Buffer) : Bool :=
  b.passed.back?.all (· == 10)

/-- The form in which debug texts show a buffer. -/
def describe (b : Buffer) : String :=
  s!"InputBuffer \x7b capacity: {b.capacity}, filled: {b.filled}, cursor: {b.cursor} \x7d"

/-! ## Capacity -/

/-- A capacity and its doublings, in ascending order. -/
def doublings (capacity : Nat) : List Nat :=
  (List.range 64).map fun j => max capacity 1 <<< j

/-- The capacity after growing to at least `minimum` bytes: the first doubling that is enough and
fits a 64 bit word, cut down to the limit. None if the minimum exceeds the limit, or the memory does
not hold the result. -/
def grown? (b : Buffer) (minimum : Nat) : Option Nat :=
  let doubled? := (doublings b.capacity).find? fun n => minimum ≤ n && n < UInt64.size
  let size? := match b.settings.capacityLimit with
    | some limit => if minimum ≤ limit then doubled?.map (min limit) else none
    | none => doubled?
  size?.filter (· ≤ b.settings.heapLimit)

/-- Grows to at least `minimum` bytes, if need be. -/
def reserve (minimum : Nat) : BufferM Unit := fun b =>
  if minimum ≤ b.capacity then .ok () b
  else match b.grown? minimum with
    | some capacity => .ok () { b with capacity }
    | none => .error (.allocation minimum) b

/-- An empty buffer over a source. -/
def create (settings : BufferSettings) (source : Source) : Except ScanError Buffer :=
  let empty : Buffer := { settings := { settings with blockSize := max settings.blockSize 1 }, source }
  match reserve (max settings.initialCapacity 1) empty with
  | .ok _ b => .ok b
  | .error e _ => .error e

/-! ## Moving the cursor -/

/-- Passes the next byte, if it is held. -/
def pass : BufferM (Option UInt8) := fun b =>
  match b.ahead with
  | [] => .ok none b
  | byte :: ahead => .ok (some byte) { b with passed := b.passed.push byte, ahead }

/-- Steps back one byte; at the first kept byte does nothing. -/
def unread (b : Buffer) : Buffer :=
  match b.passed.back? with
  | some byte => { b with passed := b.passed.pop, ahead := byte :: b.ahead }
  | none => b

/-- Moves the cursor to an offset, or behind the last byte if the offset is larger. -/
def seek (b : Buffer) (offset : Nat) : Buffer :=
  if offset ≤ b.cursor then
    { b with
      passed := b.passed.shrink offset
      ahead := (b.passed.extract offset b.cursor).toList ++ b.ahead }
  else
    { b with
      passed := b.passed ++ (b.ahead.take (offset - b.cursor)).toArray
      ahead := b.ahead.drop (offset - b.cursor) }

/-! ## Changing the contents -/

/-- Adds bytes behind the last one. -/
def append (b : Buffer) (bytes : List UInt8) : Buffer :=
  { b with ahead := b.ahead ++ bytes, stale := b.stale.drop bytes.length }

/-- Inserts a byte at the cursor, so that it is the next one. -/
def insert (byte : UInt8) : BufferM Unit := do
  reserve ((← get).filled + 2)
  modify fun b => { b with ahead := byte :: b.ahead, stale := b.stale.drop 1 }

/-- Overwrites the slot at an offset. -/
def poke (b : Buffer) (offset : Nat) (byte : UInt8) : Buffer :=
  if offset < b.cursor then
    { b with passed := b.passed.setIfInBounds offset byte }
  else if offset < b.filled then
    { b with ahead := b.ahead.set (offset - b.cursor) byte }
  else
    let k := offset - b.filled
    { b with
      stale := b.stale.take k ++ List.replicate (k - b.stale.length) 0 ++ byte :: b.stale.drop (k + 1) }

/-- Puts the terminator into a slot and returns what it replaces. -/
def cover (b : Buffer) (offset : Nat) : Option CoveredByte × Buffer :=
  match b.settings.terminator with
  | some terminator =>
    if offset < b.capacity then
      (some ⟨offset, b.slot offset⟩, b.poke offset terminator)
    else
      (none, b)
  | none => (none, b)

/-- Puts back what a terminator has replaced. -/
def uncover (b : Buffer) (h : CoveredByte) : Buffer :=
  if h.offset < b.capacity then b.poke h.offset h.byte else b

/-- Drops the bytes before an offset, or before the cursor if that comes first, and returns their
number. Fewer than a block are dropped only when nothing is ahead. -/
def trim (b : Buffer) (keepFrom : Nat) : Nat × Buffer :=
  let dropped := min keepFrom b.cursor
  if dropped = 0 || (dropped < b.settings.blockSize && !b.ahead.isEmpty) then
    (0, b)
  else
    (dropped, { b with
      passed := b.passed.extract dropped b.cursor
      stale := b.slice (b.filled - dropped) b.filled ++ b.stale })

/-- Drops all bytes and goes on with another source. -/
def switchTo (b : Buffer) (source : Source) : Buffer :=
  { b with source, passed := #[], ahead := [], stale := b.contents ++ b.stale }

end Buffer

end Munch
