-- SUMMARY: The operations of actions: reading and pushing back input, cutting and keeping the text, switching modes and sources.
import Munch.Scanner.Basic

/-! # Editing

What an action may do to the scanner besides looking at it. Operations that touch the input take the
terminator away first; those that leave the match in place put it back. -/

namespace Munch

namespace Scanner

/-! ## Input -/

/-- Reads the next byte of the input; it becomes part of no match. None at the end. -/
def input : ScannerM (Option UInt8) := do
  modify unterminate
  let byte ← onBuffer Buffer.readByte
  if byte = some 10 then
    modify fun s => { s with line := s.line + 1 }
  return byte

/-- Pushes a byte back, so that it is the next one. The matched text stays. -/
def unput (byte : UInt8) : ScannerM Unit := do
  let terminated := (← get).covered.isSome
  modify unterminate
  onBuffer (Buffer.insert byte)
  if terminated then
    modify terminate
  if byte = 10 then
    modify fun s => { s with line := max (s.line - 1) 1 }

/-- Pushes bytes back, the last one first, so that they are the next ones in order. -/
def unputAll (bytes : List UInt8) : ScannerM Unit :=
  bytes.reverse.forM unput

/-- Keeps the first `n` bytes of the match and returns the rest, and what was read behind it, to the
input. Returned newlines are not counted any more. -/
def less (n : Nat) : ScannerM Unit := do
  let length := (← get).window.length
  if length < n then
    throw (.lessOutOfRange n length)
  let terminated := (← get).covered.isSome
  modify unterminate
  modify fun s =>
    let stop := s.window.start + n
    { s with
      line := max (s.line - newlines (s.buffer.slice stop s.buffer.cursor)) 1
      buffer := s.buffer.seek stop
      window := s.window.shorten n }
  if terminated then
    modify terminate

/-! ## Text and output -/

/-- Lets the next match keep the text of this one in front of its own. -/
def more : ScannerM Unit :=
  modify fun s => { s with keepText := true }

/-- Writes the text of the match. -/
def echo : ScannerM Unit := do
  write (← get).text

/-! ## Modes and sources -/

/-- Makes a start condition the active one, from the next attempt on. -/
def begin (sc : StartCondition) : ScannerM Unit := do
  let _ ← liftFault ((← get).tables.entryStates sc)
  modify fun s => { s with startCondition := sc }

/-- Makes a declared start condition the active one. -/
def beginNamed (name : String) : ScannerM Unit := do
  match (← get).tables.startCondition? name with
  | some sc => begin sc
  | none => throw (.unknownStartCondition name)

/-- Goes on with another source. Unmatched bytes are written; what is buffered is dropped. -/
def restart (source : Source) : ScannerM Unit := do
  flush
  modify unterminate
  modify fun s => { s with buffer := s.buffer.switchTo source, window := {}, keepText := false }

end Scanner

/-! ## Operations as data -/

/-- An operation of an action. -/
inductive Edit where
  | input
  | unput (byte : UInt8)
  | unputAll (bytes : List UInt8)
  | less (n : Nat)
  | more
  | echo
  | begin (condition : StartCondition)
  | beginNamed (name : String)
  | write (bytes : List UInt8)
  | restart (source : Source)
  deriving DecidableEq, Repr

/-- A computation without a result, as one whose result is none. -/
def silently (m : ScannerM Unit) : ScannerM (Option UInt8) := do
  m
  return none

/-- Performs an operation. Only `input` has a result. -/
def Edit.perform : Edit → ScannerM (Option UInt8)
  | input => Scanner.input
  | unput byte => silently (Scanner.unput byte)
  | unputAll bytes => silently (Scanner.unputAll bytes)
  | less n => silently (Scanner.less n)
  | more => silently Scanner.more
  | echo => silently Scanner.echo
  | begin condition => silently (Scanner.begin condition)
  | beginNamed name => silently (Scanner.beginNamed name)
  | write bytes => silently (Scanner.write bytes)
  | restart source => silently (Scanner.restart source)

end Munch
