-- SUMMARY: Packing of automaton descriptions: fallback choice and first-fit displacement of rows.
import Munch.Automaton.Classes
import Munch.Tables.Valid

/-! # Packing

A description becomes tables in three steps. Bytes are merged into classes, so each state has one
row of targets by class. A state whose row differs from an earlier one in fewer places than it has
live entries falls back to that state and keeps the differences only. The remaining entries are
placed at the first displacement where all their slots are free. -/

namespace Munch

/-- The targets of one state by class; `none` is the dead state. -/
abbrev Row := List (Option State)

/-- What a row has to store itself: targets for some classes. -/
abbrev Entries := List (ByteClass × Option State)

/-- A shared slot: who owns it and where it leads. -/
structure Slot where
  owner : Int32
  target : Int32
  deriving DecidableEq, Inhabited, Repr

/-- A slot that nobody owns. -/
def Slot.free : Slot :=
  ⟨-1, -1⟩

/-- A state as a table entry; the dead state is -1. -/
def State.toEntry : Option State → Int32
  | some s => Int32.ofNat s
  | none => -1

namespace Row

/-- The number of live transitions. -/
def live (row : Row) : Nat :=
  row.countP (·.isSome)

/-- The number of classes on which two rows differ. -/
def differences (row other : Row) : Nat :=
  (row.zip other).countP fun (own, inherited) => own != inherited

/-- The earlier row with the fewest differences, the first of several, if these are fewer than the
live transitions. -/
def chooseFallback (row : Row) (earlier : List Row) : Option State :=
  (earlier.zipIdx.foldl (fun best (other, s) =>
    let n := row.differences other
    if n < best.elim row.live (·.1) then some (n, s) else best) none).map (·.2)

/-- The entries a row stores: all live ones, or those in which it differs from its fallback. -/
def entries (row : Row) : (fallback : Option Row) → Entries
  | some other => row.zipIdx.zip other |>.filterMap fun ((own, c), inherited) =>
    if own = inherited then none else some (c, own)
  | none => row.zipIdx.filterMap fun (own, c) =>
    if own.isSome then some (c, own) else none

end Row

/-! ## Displacement -/

/-- Whether the slots of all entries are free at a displacement. -/
def Entries.fits (entries : Entries) (slots : Array Slot) (offset : Nat) : Bool :=
  entries.all fun (c, _) => (slots[offset + c]?).all fun slot => slot.owner.toInt < 0

/-- The smallest displacement at which the entries fit. Behind the last slot everything fits. -/
def Entries.firstFit (entries : Entries) (slots : Array Slot) : Nat :=
  ((List.range slots.size).find? (entries.fits slots)).getD slots.size

/-- The slots filled so far, and the displacement of each row. -/
structure Layout where
  base : Array UInt32 := #[]
  slots : Array Slot := #[]
  deriving DecidableEq, Repr

/-- Adds a row of the given width for the next state. -/
def Layout.place (layout : Layout) (width : Nat) (entries : Entries) : Layout :=
  let owner := Int32.ofNat layout.base.size
  let offset := entries.firstFit layout.slots
  let missing := offset + width - layout.slots.size
  let room := layout.slots ++ Array.replicate missing Slot.free
  { base := layout.base.push (UInt32.ofNat offset)
    slots := entries.foldl (fun slots (c, target) =>
      slots.setIfInBounds (offset + c) ⟨owner, State.toEntry target⟩) room }

namespace Automaton

/-- The rows of all states over the byte classes. -/
def rows (a : Automaton) (classes : ByteClasses) : List Row :=
  a.nodes.toList.map fun n => classes.representatives.map n.step?

/-- For each state its fallback. -/
def fallbacks (rows : List Row) : List (Option State) :=
  rows.zipIdx.map fun (row, s) => row.chooseFallback (rows.take s)

/-- The layout of all rows, in the order of the states. -/
def layOut (rows : List Row) (width : Nat) : Layout :=
  (rows.zip (fallbacks rows)).foldl
    (fun layout (row, fallback) => layout.place width (row.entries (fallback.bind (rows[·]?)))) {}

/-- For each rule up to the largest one with trailing context, the start state of that context. -/
def trailingColumn (a : Automaton) : Array UInt32 :=
  let size := a.trailingContexts.foldl (fun n tc => max n (tc.rule.toNat + 1)) 0
  a.trailingContexts.foldl (fun column tc => column.setIfInBounds tc.rule.toNat tc.state.toUInt32)
    (Array.replicate size 0)

/-- The packed form of a description, not yet checked. -/
def toTables (a : Automaton) : Tables :=
  let classes := a.byteClasses
  let rows := a.rows classes
  let layout := layOut rows classes.count
  let acceptLists := a.nodes.map (·.rules)
  { classOf := (classes.classOf.map UInt32.ofNat).toArray
    base := layout.base
    check := layout.slots.map (·.owner)
    next := layout.slots.map (·.target)
    fallback := ((fallbacks rows).map State.toEntry).toArray
    accept := acceptLists.map fun rules => rules.head?.getD 0
    contextOf := a.trailingColumn
    acceptLists := if acceptLists.any (fun rules => 1 < rules.length) then acceptLists else #[]
    startConditions := a.startConditions
    initial := a.initial }

/-- Packs a description into checked tables. -/
def pack (a : Automaton) : Except TableFault Tables := do
  a.checkReferences
  let tables := a.toTables
  tables.validate
  return tables

end Automaton

end Munch
