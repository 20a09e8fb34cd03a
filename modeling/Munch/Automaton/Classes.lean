-- SUMMARY: Byte classes: bytes on which all states behave alike, numbered by first occurrence.
import Munch.Automaton.Basic

/-! # Byte classes

Two bytes belong to one class if they have the same key, here the column of targets over all states.
Classes are numbered in the order of their smallest byte, which also represents the class. -/

namespace Munch

/-- All byte values in ascending order. -/
def allBytes : List UInt8 :=
  (List.range 256).map UInt8.ofNat

/-- A partition of the bytes. -/
structure ByteClasses where
  /-- The class of each byte, in the order of the bytes. -/
  classOf : List ByteClass
  /-- The smallest byte of each class, in the order of the classes. -/
  representatives : List UInt8
  deriving DecidableEq, Repr

namespace ByteClasses

/-- The number of classes. -/
def count (p : ByteClasses) : Nat :=
  p.representatives.length

/-- The partition of the bytes by equality of their keys. -/
def ofKey {κ : Type} [DecidableEq κ] (key : UInt8 → κ) : ByteClasses :=
  let keys := allBytes.map key
  let distinct := keys.eraseDups
  { classOf := keys.map fun k => distinct.idxOf k
    representatives := distinct.map fun k => UInt8.ofNat (keys.idxOf k) }

end ByteClasses

namespace Automaton

/-- Where each state goes on a byte. -/
def column (a : Automaton) (byte : UInt8) : List (Option State) :=
  a.nodes.toList.map (·.step? byte)

/-- The classes of bytes that no state tells apart. -/
def byteClasses (a : Automaton) : ByteClasses :=
  .ofKey a.column

end Automaton

end Munch
