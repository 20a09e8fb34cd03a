import Munch.Automaton.Pack
import Munch.Graph
import Munch.Error
import Munch.Source
import Munch.Window
import Munch.Sink
import Munch.Buffer.Basic
import Munch.Buffer.Refill
import Munch.Buffer.Read
import Munch.Match.Trailing
import Munch.Match.Longest
import Munch.Scanner.Basic
import Munch.Scanner.Edit
import Munch.Scanner.Advance
import Munch.Match.Progress
import Munch.Scanner.Scan
import Munch.Scanner.Build
import Munch.Json.Token
import Munch.Json.Reader
import Munch.Json.Writer
import Munch.Json.Record
import Munch.Json.StartCondition
import Munch.Tables.Json
import Munch.Automaton.Json
import Munch.Proofs.Tables.Run
import Munch.Proofs.Tables.Walk
import Munch.Proofs.Endings
import Munch.Proofs.WeakestPre
import Munch.Proofs.Parallel
import Munch.Proofs.Buffer.Cover
import Munch.Proofs.Buffer.Room
import Munch.Proofs.Buffer.Steady
import Munch.Proofs.Buffer.Carried
import Munch.Proofs.Buffer.Congruence
import Munch.Proofs.Buffer.Twin
import Munch.Proofs.Buffer.Growth
import Munch.Proofs.Buffer.Arena
import Munch.Proofs.Buffer.Akin
import Munch.Proofs.Match.Preference
import Munch.Proofs.Match.Split
import Munch.Proofs.Match.Selection
import Munch.Proofs.Match.Attempt
import Munch.Proofs.Match.MaximalMunch
import Munch.Proofs.Match.Acceptance
import Munch.Proofs.Match.Bounds
import Munch.Proofs.Match.Congruence
import Munch.Proofs.Automaton.Classes
import Munch.Proofs.Automaton.Layout
import Munch.Proofs.Automaton.Rows
import Munch.Proofs.Automaton.Columns
import Munch.Proofs.Automaton.Compact
import Munch.Proofs.Automaton.Pack
import Munch.Proofs.Automaton.Partition
import Munch.Proofs.Scanner.Tape
import Munch.Proofs.Scanner.OnTape
import Munch.Proofs.Scanner.Advance
import Munch.Proofs.Scanner.Edit
import Munch.Proofs.Scanner.Scan
import Munch.Proofs.Scanner.Script
import Munch.Proofs.Scanner.Buffering
import Munch.Proofs.Scanner.Memory
import Munch.Proofs.Scanner.Lexer
import Munch.Proofs.Scanner.Build
import Munch.Proofs.Scanner.Coherent
import Munch.Proofs.Scanner.Upkeep
import Munch.Proofs.Scanner.Session
import Munch.Proofs.Scanner.Intact
import Munch.Proofs.Scanner.Invariant
import Munch.Proofs.Scanner.PendingInput
import Munch.Proofs.Scanner.Beside
import Munch.Proofs.Scanner.Twin
import Munch.Proofs.Scanner.Counterpart
import Munch.Proofs.Scanner.Unobservable
import Munch.Proofs.Buffer.Drained
import Munch.Proofs.Match.Failure
import Munch.Proofs.Scanner.Failure
import Munch.Proofs.Scanner.Echo
import Munch.Proofs.Scanner.Carried
import Munch.Proofs.Scanner.Drained
import Munch.Proofs.Scanner.Pulling
import Munch.Proofs.Scanner.Chronicle
import Munch.Proofs.Scanner.BesideEdit
import Munch.Proofs.Scanner.Since
import Munch.Proofs.Scanner.Renewal
import Munch.Proofs.Scanner.Restart
import Munch.Proofs.Match.BestSplit
import Munch.Proofs.Scanner.Consumption
import Munch.Proofs.Scanner.Trail
import Munch.Proofs.Scanner.Movement
import Munch.Proofs.Scanner.Ledger
import Munch.Proofs.Scanner.Frame
import Munch.Proofs.Scanner.KeptText
import Munch.Proofs.Scanner.LineStart
import Munch.Proofs.Scanner.RoundTrip
import Munch.Proofs.Scanner.InputEnd
import Munch.Proofs.Scanner.Prepare
import Munch.Proofs.Scanner.GivenBack
import Munch.Proofs.Scanner.ReadBytes
import Munch.Proofs.Scanner.Atomic
import Munch.Proofs.Buffer.Line
import Munch.Proofs.Graph
import Munch.Proofs.Json.Token
import Munch.Proofs.Json.Text
import Munch.Proofs.Json.Writer
import Munch.Proofs.Json.Record
import Munch.Proofs.Json.RoundTrip
import Munch.Proofs.Buffer.Refusal
import Munch.Proofs.Match.Passes
import Munch.Proofs.Scanner.SmallBuffer
