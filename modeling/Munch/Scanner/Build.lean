-- SUMMARY: Building a scanner from checked tables and options.
import Munch.Scanner.Basic
import Munch.Tables.Valid

/-! # Building scanners -/

namespace Munch

/-- Where a new scanner starts. -/
inductive StartChoice where
  /-- In the initial start condition of the tables. -/
  | initial
  /-- In a given start condition. -/
  | condition (condition : StartCondition)
  /-- In a declared start condition. -/
  | named (name : String)
  deriving DecidableEq, Repr

/-- The options of a new scanner. -/
structure ScannerOptions where
  /-- Whether to read line by line. -/
  interactive : Bool := false
  /-- The number of bytes to ask the source for at a time, a block; 0 counts as 1. -/
  blockSize : Nat := 8192
  /-- The capacity of the buffer to start with; one more than a block if not given. -/
  initialCapacity : Option Nat := none
  /-- The largest capacity of the buffer; none for no limit. -/
  capacityLimit : Option Nat := none
  startAt : StartChoice := .initial
  /-- The largest capacity that memory can hold. -/
  heapLimit : Nat := 1 <<< 47
  /-- The byte that stands behind a match while its action runs, if any does. -/
  terminator : Option UInt8 := some 0
  deriving DecidableEq, Repr

namespace ScannerOptions

/-- The start condition that was chosen. -/
def startCondition (o : ScannerOptions) (t : Tables) : Except ScanError StartCondition :=
  match o.startAt with
  | .initial => .ok t.initial
  | .condition condition => .ok condition
  | .named name =>
    match t.startCondition? name with
    | some condition => .ok condition
    | none => .error (.unknownStartCondition name)

/-- The settings of the buffer. The capacity to start with is a 64 bit word. -/
def bufferSettings (o : ScannerOptions) : BufferSettings :=
  let blockSize := max o.blockSize 1
  { interactive := o.interactive
    blockSize
    initialCapacity := o.initialCapacity.getD (min (blockSize + 1) (UInt64.size - 1))
    capacityLimit := o.capacityLimit
    heapLimit := o.heapLimit
    terminator := o.terminator }

/-- Checks the tables and builds a scanner over a source. -/
def build (o : ScannerOptions) (tables : Tables) (source : Source) (output : Sink) :
    Except ScanError Scanner := do
  tables.validate.mapError .malformed
  let startCondition ← o.startCondition tables
  Scanner.create tables source output o.bufferSettings startCondition

end ScannerOptions

end Munch
