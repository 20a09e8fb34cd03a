-- SUMMARY: Byte sinks with an optional limit.
import Munch.Error

/-! # Sinks

What a scanner writes to. A write that does not fit leaves the part that does, and then fails. -/

namespace Munch

/-- A sink of bytes. -/
structure Sink where
  /-- What was written so far. -/
  written : Array UInt8 := #[]
  /-- The number of bytes it takes in total; none for no limit. -/
  limit : Option Nat := none
  /-- Whether a full sink takes nothing instead of reporting a failure. -/
  stalls : Bool := false
  deriving DecidableEq, Inhabited, Repr

namespace Sink

/-- The number of bytes that fit, of a given number. -/
def room (s : Sink) (count : Nat) : Nat :=
  s.limit.elim count fun limit => min count (limit - s.written.size)

/-- What a writer is told by a sink that takes no more. -/
def fullText (s : Sink) : String :=
  if s.stalls then "failed to write whole buffer" else "sink full"

/-- Writes all bytes, or those that fit. -/
def write (bytes : List UInt8) : EStateM ScanError Sink Unit := fun s =>
  let fitting := s.room bytes.length
  let s' := { s with written := s.written ++ (bytes.take fitting).toArray }
  if fitting = bytes.length then .ok () s' else .error (.io s.fullText) s'

end Sink

end Munch
