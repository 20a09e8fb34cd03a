-- SUMMARY: Sessions that see only what has come since some place, and notes on lines that ran out.
import Munch.Proofs.Scanner.Beside
import Munch.Proofs.Scanner.Chronicle

/-! # Sessions since a place

A session looks at what was written and at the number of the line, which tell how much came before it.
One that counts both from where it begins does not see this. The capacity, debug texts and the rule of
the last match tell of what came before as well, and are hidden; an action is handed the rule of its
match in any case. -/

namespace Munch

namespace Sink

/-- What was written behind the first bytes, with what is left of the limit. -/
def since (size : Nat) (out : Sink) : Sink :=
  { out with
    written := out.written.extract size out.written.size
    limit := out.limit.map (· - size) }

/-- The sink with only what stands behind the first bytes changed. -/
def changeSince (size : Nat) (change : Sink → Sink) (out : Sink) : Sink :=
  let changed := change (out.since size)
  { changed with
    written := out.written.extract 0 size ++ changed.written
    limit := changed.limit.map (size + ·) }

theorem since_zero (out : Sink) : out.since 0 = out := by
  unfold since
  cases hlimit : out.limit <;> simp [← hlimit]

namespace Ahead

variable {written : Array UInt8} {out out' : Sink}

theorem of_self (out : Sink) : Ahead out.written out (out.since out.written.size) :=
  ⟨by simp [since], rfl, rfl⟩

theorem since_eq (h : Ahead written out out') : out.since written.size = out' := by
  obtain ⟨hwritten, hlimit, hstalls⟩ := h
  unfold since
  rw [← hlimit, ← hstalls, hwritten]
  simp

/-- The same change behind the first bytes. -/
theorem changeSince (h : Ahead written out out') (change : Sink → Sink) :
    Ahead written (out.changeSince written.size change) (out'.changeSince 0 change) := by
  unfold Sink.changeSince
  rw [h.since_eq, since_zero]
  refine ⟨by simp [h.written_eq], ?_, rfl⟩
  dsimp only
  cases (change out').limit <;> simp

end Ahead

end Sink

/-- What the scanner has over a new one: what it has written and the lines before its own. -/
def Scanner.headstart (s : Scanner) : Headstart :=
  ⟨s.output.written, s.line - 1⟩

/-- A scanner that has written nothing and stands in its first line has no headstart. -/
theorem Scanner.headstart_eq_empty {s : Scanner} (hwritten : s.output.written = #[])
    (hline : s.line = 1) : s.headstart = {} := by
  rw [headstart, hwritten, hline]

/-- What a scanner shows, without the headstart. -/
def View.since (head : Headstart) (view : View) : View :=
  { view with
    rule := 0
    line := view.line - head.lines
    capacity := 0
    output := view.output.since head.written.size
    debug := "" }

/-- The session, seeing and changing only what has come since the headstart. -/
def Session.since {σ α : Type} (head : Headstart) : Session σ α → Session σ α
  | .finish result => .finish result
  | .fail e => .fail e
  | .look next => .look fun view memory => (next (view.since head) memory).since head
  | .remember memory next => .remember memory (next.since head)
  | .perform edit next => .perform edit fun result => (next result).since head
  | .alter change next => .alter (·.changeSince head.written.size change) (next.since head)
  | .scan events onMatch onEnd next =>
    .scan events (fun rule => (onMatch rule).since head) (onEnd.since head)
      fun result => (next result).since head

/-! ## Lines that run out -/

/-- The operation has given back as many newlines as lines were counted, or more, so that the number of
the line is 1 and not less. -/
def Note.Clamps (note before : Note) : Prop :=
  ∃ edit result, note.event = .performed edit result ∧ edit.KeepsSource ∧
    ∃ given, note.scanner.pending = given ++ before.scanner.pending ∧
      before.scanner.line ≤ newlines given

/-- Some operation has taken the number of the line to its lowest. -/
def Clamped (notes : List Note) : Prop :=
  ∃ note before earlier, note :: before :: earlier <:+ notes ∧ note.Clamps before

theorem Clamped.mono {notes notes' : List Note} (h : Clamped notes) (hsuffix : notes <:+ notes') :
    Clamped notes' := by
  obtain ⟨note, before, earlier, hnotes, hclamps⟩ := h
  exact ⟨note, before, earlier, hnotes.trans hsuffix, hclamps⟩

section Unclamped

variable {σ α β : Type} {st st' : Scanner × Diary σ}

/-- No operation of the run, and none noted before it, has taken the number of the line to its
lowest. -/
def Unclamped (m : SessionM (Diary σ) α) (st : Scanner × Diary σ) : Prop :=
  ¬ Clamped (final m st).2.notes

/-- Any two scanners, where only the notes matter. -/
def Anyhow (_ _ : Scanner) : Prop :=
  True

instance : Scanner.Lasting Anyhow where
  refl _ := trivial
  trans _ _ := trivial
  perform _ _ := trivial
  advance _ := trivial
  terminate _ := trivial
  unterminate _ := trivial
  setOutput _ _ := trivial

theorem Chronicle.suffix {R : Scanner → Scanner → Prop} (h : Chronicle R st st') :
    st.2.notes <:+ st'.2.notes := by
  obtain ⟨new, heq, -⟩ := h.notes
  exact ⟨new, heq.symm⟩

theorem Unclamped.of_chronicle {m : SessionM (Diary σ) α} {m' : SessionM (Diary σ) β}
    (h : Unclamped m' st) (hnotes : Chronicle Anyhow (final m st) (final m' st)) : Unclamped m st :=
  fun hclamped => h (hclamped.mono hnotes.suffix)

theorem Unclamped.left {m : SessionM (Diary σ) α} {f : α → SessionM (Diary σ) β}
    (h : Unclamped (m >>= f) st) (hf : ∀ a, Across (Chronicle Anyhow) (f a)) : Unclamped m st := by
  refine h.of_chronicle ?_
  unfold final
  simp only [Bind.bind, EStateM.bind]
  cases m st with
  | ok a st₁ => exact hf a st₁
  | error e st₁ => exact History.refl st₁

theorem Unclamped.right {m : SessionM (Diary σ) α} {f : α → SessionM (Diary σ) β} {a : α}
    (h : Unclamped (m >>= f) st) (hm : m st = .ok a st') : Unclamped (f a) st' := by
  unfold Unclamped final at h ⊢
  rwa [bind_of_ok hm] at h

end Unclamped

end Munch
