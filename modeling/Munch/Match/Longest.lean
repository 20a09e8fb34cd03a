-- SUMMARY: One match attempt: both entry states over the pending bytes, and the choice of the longest match.
import Munch.Match.Trailing

/-! # Longest match

An attempt runs the automaton from the entry state of the start condition, and at the beginning of a
line also from the second entry state. Both tracks read the same bytes until both are dead. Every
rule accepted on the way is a candidate; rules with trailing context only if the context follows,
which is found out once per track and rule. -/

namespace Munch

/-- An accepting state that a track passed, and the offset behind the byte that led there. -/
structure Acceptance where
  stop : Nat
  state : State
  deriving DecidableEq, Repr

/-- The run of the automaton from one entry state. -/
structure Track where
  entry : State
  /-- The current state; none if the track is dead. -/
  current : Option State
  /-- The accepting states passed so far, the latest first. -/
  accepts : List Acceptance := []
  deriving DecidableEq, Repr

/-- A rule that could end the attempt. -/
structure Candidate where
  rule : Rule
  headEnd : Nat
  extentEnd : Nat
  deriving DecidableEq, Repr

/-- The outcome of an attempt. -/
inductive Attempt where
  /-- A rule matched some bytes; the cursor stands behind them. -/
  | accepted (rule : Rule) (length : Nat)
  /-- No rule matched; the cursor has not moved. -/
  | noMatch
  /-- No byte was left. -/
  | endOfInput
  deriving DecidableEq, Repr

/-- A candidate wins by the longer extent, then the smaller rule, then the longer head. -/
def Candidate.preferredTo (a b : Candidate) : Bool :=
  b.extentEnd < a.extentEnd || (a.extentEnd == b.extentEnd &&
    (a.rule < b.rule || (a.rule == b.rule && b.headEnd < a.headEnd)))

namespace Track

/-- A track at its entry state. -/
def start (entry : State) : Track :=
  { entry, current := some entry }

/-- Whether the track can still read. -/
def alive (track : Track) : Bool :=
  track.current.isSome

/-- Moves a track over a byte of class `c`; `stop` is the offset behind it. -/
def step (t : Tables) (c : ByteClass) (stop : Nat) (track : Track) : Except TableFault Track := do
  let current ← t.transition? track.current c
  match current with
  | none => return { track with current }
  | some s =>
    let accepts := if ← t.accepts s then ⟨stop, s⟩ :: track.accepts else track.accepts
    return { track with current, accepts }

end Track

/-! ## Selection -/

/-- The choice among the candidates of one track, part of the way. -/
structure Selection where
  best : Option Candidate
  /-- The rules whose trailing context was looked for on this track, with the best split found. -/
  splits : List (Rule × Option Split) := []
  deriving DecidableEq, Repr

/-- Takes in a candidate. -/
def Selection.offer (sel : Selection) (new : Candidate) : Selection :=
  if sel.best.all new.preferredTo then { sel with best := some new } else sel

/-- Takes in the split of a rule with trailing context, if it has one. -/
def Selection.offerSplit (sel : Selection) (rule : Rule) (split : Option Split) : Selection :=
  split.elim sel fun split => sel.offer ⟨rule, split.headEnd, split.extentEnd⟩

namespace Tables

/-- Takes in a rule that a track from `entry` accepted at the offset `stop`, in an attempt from
`start`. -/
def consider (t : Tables) (start : Nat) (entry : State) (stop : Nat) (sel : Selection)
    (rule : Rule) : BufferM Selection := do
  match ← liftFault (t.trailingStart? rule) with
  | none => return sel.offer ⟨rule, stop, stop⟩
  | some trailing =>
    match sel.splits.lookup rule with
    | some split => return sel.offerSplit rule split
    | none =>
      let split ← t.bestSplit entry rule trailing start
      return { sel with splits := (rule, split) :: sel.splits }.offerSplit rule split

/-- Takes in all rules accepted at one point of a track. -/
def considerPoint (t : Tables) (start : Nat) (entry : State) (sel : Selection)
    (point : Acceptance) : BufferM Selection := do
  (← liftFault (t.rulesAt point.state)).foldlM (t.consider start entry point.stop) sel

/-- Takes in all candidates of a track, the longest first. -/
def considerTrack (t : Tables) (start : Nat) (best : Option Candidate) (track : Track) :
    BufferM (Option Candidate) := do
  let sel ← track.accepts.foldlM (t.considerPoint start track.entry) { best }
  return sel.best

/-- The winner among the candidates of all tracks. -/
def chooseWinner (t : Tables) (start : Nat) (tracks : List Track) : BufferM (Option Candidate) :=
  tracks.foldlM (t.considerTrack start) none

/-! ## Attempts -/

/-- Moves all tracks over a byte. -/
def stepTracks (t : Tables) (tracks : List Track) (byte : UInt8) (stop : Nat) :
    Except TableFault (List Track) := do
  let c ← t.byteClass byte
  tracks.mapM (Track.step t c stop)

/-- The tracks of an attempt: the second entry state counts at the beginning of a line, if it
differs. -/
def startTracks (t : Tables) (sc : StartCondition) (atLineStart : Bool) :
    Except TableFault (List Track) := do
  let (entry, bolEntry) ← t.entryStates sc
  return Track.start entry :: if atLineStart && sc.hasOwnBol then [Track.start bolEntry] else []

/-- Steps back over the byte that killed the last track. It is part of no match. -/
def leaveLastByte (tracks : List Track) : BufferM Unit :=
  modify fun b => if tracks.any Track.alive then b else b.unread

/-- Ends an attempt from `start`, with the cursor behind the winner if there is one. -/
def settle (start : Nat) : Option Candidate → BufferM Attempt
  | some winner => do
    modify (·.seek winner.headEnd)
    return .accepted winner.rule (winner.headEnd - start)
  | none => do
    modify (·.seek start)
    return .noMatch

/-- Searches the longest match at the cursor. -/
def longestMatch (t : Tables) (sc : StartCondition) (atLineStart : Bool) : BufferM Attempt := do
  let tracks ← liftFault (t.startTracks sc atLineStart)
  let start := (← get).cursor
  let tracks ← Buffer.feed (·.any Track.alive) t.stepTracks tracks
  if (← get).cursor = start then
    return .endOfInput
  leaveLastByte tracks
  settle start (← t.chooseWinner start tracks)

end Tables

end Munch
