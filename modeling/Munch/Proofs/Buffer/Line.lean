-- SUMMARY: Refills line by line: what they take from any source, where they end, and when the source is asked at all.
import Munch.Proofs.Buffer.Room

/-! # Lines

In interactive mode a refill asks for one byte after the other, up to the first newline. A user at a
terminal sees each line answered before the next one is read, so a refill must not ask for more than
a line, and what it has taken must not be lost when the source fails or memory runs out half way. -/

namespace Munch

/-! ## Answers -/

/-- What the read of a single byte meets, once interruptions have passed. -/
inductive Answer where
  | byte (value : UInt8)
  /-- An end of the input. -/
  | stop
  /-- A failure with its text. -/
  | failure (text : String)
  deriving DecidableEq, Repr

/-- What reads of single bytes meet in a chunk. -/
def Chunk.answers : Chunk → List Answer
  | .data bytes => bytes.map .byte
  | .stop => [.stop]
  | .interruption => []
  | .failure text => [.failure text]

/-- What reads of single bytes meet, however the input is cut. Behind the last answer the input has
ended. -/
def Source.answers (s : Source) : List Answer :=
  s.chunks.flatMap (·.answers)

@[simp] theorem Source.answers_nil : (Source.mk []).answers = [] := rfl

@[simp] theorem Source.answers_cons (c : Chunk) (chunks : List Chunk) :
    (Source.mk (c :: chunks)).answers = c.answers ++ (Source.mk chunks).answers := by
  simp [Source.answers]

/-- What a fetch of a single byte does with the next answer. -/
def Fetch.Meets (f : Fetch) : List Answer → Prop
  | [] => f.outcome = .ok [] ∧ (Source.mk f.rest).answers = []
  | .byte x :: later => f.outcome = .ok [x] ∧ (Source.mk f.rest).answers = later
  | .stop :: later => f.outcome = .ok [] ∧ (Source.mk f.rest).answers = later
  | .failure text :: later => f.outcome = .error text ∧ (Source.mk f.rest).answers = later

theorem fetchChunks_meets (chunks : List Chunk) :
    (fetchChunks 1 chunks).Meets (Source.mk chunks).answers := by
  fun_induction fetchChunks 1 chunks with
  | case1 => exact ⟨rfl, rfl⟩
  | case2 rest ih => simpa [Chunk.answers] using ih
  | case3 b bs rest => simp [Chunk.answers, Fetch.Meets]
  | case4 rest => exact ⟨rfl, rfl⟩
  | case5 rest ih => simpa [Chunk.answers, Fetch.retried, Fetch.Meets] using ih
  | case6 text rest => exact ⟨rfl, rfl⟩

namespace Buffer

/-! ## Refills -/

/-- Where a refill that has taken some of the answers of its source has ended: behind the first
newline, or before it where the input has ended, the source has failed or memory has run out. -/
inductive LineEnd (answers : List Answer) (taken : List UInt8) (b' : Buffer) :
    Except ScanError Unit → Prop
  | newline {line : List UInt8} : taken = line ++ [10] → 10 ∉ line →
      answers = taken.map .byte ++ b'.source.answers → LineEnd answers taken b' (.ok ())
  | stop : 10 ∉ taken → answers = taken.map .byte ++ .stop :: b'.source.answers →
      LineEnd answers taken b' (.ok ())
  | spent : 10 ∉ taken → answers = taken.map .byte → b'.source.answers = [] →
      LineEnd answers taken b' (.ok ())
  | failure {text : String} : 10 ∉ taken →
      answers = taken.map .byte ++ .failure text :: b'.source.answers →
      LineEnd answers taken b' (.error (.io text))
  | memory : 10 ∉ taken → answers = taken.map .byte ++ b'.source.answers →
      b'.capacity < b'.filled + 2 → b'.grown? (b'.filled + 2) = none →
      LineEnd answers taken b' (.error (.allocation (b'.filled + 2)))

/-- A line goes on behind a byte that is no newline. -/
theorem LineEnd.cons {answers : List Answer} {taken : List UInt8} {b' : Buffer} {byte : UInt8}
    {result : Except ScanError Unit} (hbyte : byte ≠ 10) (h : LineEnd answers taken b' result) :
    LineEnd (.byte byte :: answers) (byte :: taken) b' result := by
  have hnone {line : List UInt8} (hline : 10 ∉ line) : 10 ∉ byte :: line := by
    simp [hline, Ne.symm hbyte]
  cases h with
  | newline htaken hline hrest =>
    exact .newline (congrArg (byte :: ·) htaken) (hnone hline) (congrArg (.byte byte :: ·) hrest)
  | stop hline hrest => exact .stop (hnone hline) (congrArg (.byte byte :: ·) hrest)
  | spent hline hrest hend =>
    exact .spent (hnone hline) (congrArg (.byte byte :: ·) hrest) hend
  | failure hline hrest => exact .failure (hnone hline) (congrArg (.byte byte :: ·) hrest)
  | memory hline hrest hroom hgrown =>
    exact .memory (hnone hline) (congrArg (.byte byte :: ·) hrest) hroom hgrown

/-- At most the last of the taken bytes is a newline. -/
theorem LineEnd.dropLast {answers : List Answer} {taken : List UInt8} {b' : Buffer}
    {result : Except ScanError Unit} (h : LineEnd answers taken b' result) :
    10 ∉ taken.dropLast := by
  have hnone (hline : 10 ∉ taken) : 10 ∉ taken.dropLast :=
    fun hmem => hline (List.dropLast_subset taken hmem)
  cases h with
  | newline htaken hline hrest => rwa [htaken, List.dropLast_concat]
  | stop hline => exact hnone hline
  | spent hline => exact hnone hline
  | failure hline => exact hnone hline
  | memory hline => exact hnone hline

/-- The buffer later, when a refill has put some bytes behind the last one. -/
structure Gains (b : Buffer) (taken : List UInt8) (b' : Buffer) : Prop where
  settings_eq : b'.settings = b.settings
  passed_eq : b'.passed = b.passed
  ahead_eq : b'.ahead = b.ahead ++ taken
  received_eq : b'.received = b.received + taken.length

namespace Gains

theorem nothing (b : Buffer) : b.Gains [] b :=
  ⟨rfl, rfl, (List.append_nil _).symm, rfl⟩

theorem cons {a b c : Buffer} {byte : UInt8} {taken : List UInt8} (hab : a.Gains [byte] b)
    (hbc : b.Gains taken c) : a.Gains (byte :: taken) c := by
  refine ⟨hbc.settings_eq.trans hab.settings_eq, hbc.passed_eq.trans hab.passed_eq, ?_, ?_⟩
  · rw [hbc.ahead_eq, hab.ahead_eq, List.append_assoc, List.singleton_append]
  · rw [hbc.received_eq, hab.received_eq, List.length_singleton, List.length_cons]
    omega

end Gains

/-- A refill has taken a line, or the beginning of one. -/
def TakesLine (b : Buffer) (result : Except ScanError Unit) (b' : Buffer) : Prop :=
  ∃ taken, b.Gains taken b' ∧ LineEnd b.source.answers taken b' result

theorem TakesLine.cons {a b c : Buffer} {byte : UInt8} {result : Except ScanError Unit}
    (hbyte : byte ≠ 10) (hab : a.Gains [byte] b)
    (hanswers : a.source.answers = .byte byte :: b.source.answers) (h : b.TakesLine result c) :
    a.TakesLine result c := by
  obtain ⟨taken, hgains, hend⟩ := h
  exact ⟨byte :: taken, hab.cons hgains, hanswers ▸ hend.cons hbyte⟩

theorem receive_gains {b : Buffer} {f : Fetch} {bytes : List UInt8}
    (h : f.outcome = .ok bytes) : b.Gains bytes (b.receive f) := by
  have hdelivered : f.delivered = bytes := by rw [Fetch.delivered, h]; rfl
  exact hdelivered ▸ ⟨rfl, rfl, rfl, rfl⟩

/-- A read of a single byte takes it, or meets what ends the line. -/
theorem fetch_one_ends (b : Buffer) :
    ends (fetch 1)
      (fun got b' => (∃ x, got = [x] ∧ b.Gains [x] b' ∧
        b.source.answers = .byte x :: b'.source.answers) ∨ got = [] ∧ b.TakesLine (.ok ()) b')
      (fun e b' => b.TakesLine (.error e) b') b := by
  have hmeets := fetchChunks_meets b.source.chunks
  have hnone : (10 : UInt8) ∉ ([] : List UInt8) := List.not_mem_nil
  unfold ends fetch
  generalize fetchChunks 1 b.source.chunks = f at hmeets ⊢
  dsimp only
  cases hanswers : b.source.answers with
  | nil =>
    obtain ⟨hout, hrest⟩ := (hanswers ▸ hmeets : f.Meets [])
    rw [hout]
    exact .inr ⟨rfl, [], receive_gains hout, .spent hnone hanswers hrest⟩
  | cons answer later =>
    have hmeets : f.Meets (answer :: later) := hanswers ▸ hmeets
    cases answer with
    | byte x =>
      obtain ⟨hout, rfl⟩ := hmeets
      rw [hout]
      exact .inl ⟨x, rfl, receive_gains hout, rfl⟩
    | stop =>
      obtain ⟨hout, rfl⟩ := hmeets
      rw [hout]
      exact .inr ⟨rfl, [], receive_gains hout, .stop hnone hanswers⟩
    | failure text =>
      obtain ⟨hout, rfl⟩ := hmeets
      have hdelivered : f.delivered = [] := by rw [Fetch.delivered, hout]; rfl
      rw [hout]
      refine ⟨[], ⟨rfl, rfl, ?_, ?_⟩, .failure hnone hanswers⟩
      · exact congrArg (b.ahead ++ ·) hdelivered
      · exact congrArg (b.received + ·.length) hdelivered

/-- So does a refill by a single byte, unless there is no room for it. -/
theorem refillByte_takes (b : Buffer) :
    ends refillByte
      (fun byte b' => match byte with
        | some x => b.Gains [x] b' ∧ b.source.answers = .byte x :: b'.source.answers
        | none => b.TakesLine (.ok ()) b')
      (fun e b' => b.TakesLine (.error e) b') b := by
  refine .bind (.get (.bind (.of_result (fun _ b₁ hrun => ?_) fun e b₁ hrun => ?_)))
  · obtain ⟨capacity, rfl⟩ := ((reserve_ends (b.filled + 2) b).ok hrun).eq
    have hgains {taken : List UInt8} {b' : Buffer} (h : { b with capacity }.Gains taken b') :
        b.Gains taken b' := ⟨h.settings_eq, h.passed_eq, h.ahead_eq, h.received_eq⟩
    have htakes {result : Except ScanError Unit} {b' : Buffer} :
        { b with capacity }.TakesLine result b' → b.TakesLine result b' :=
      fun ⟨taken, h, hend⟩ => ⟨taken, hgains h, hend⟩
    refine .bind ((fetch_one_ends { b with capacity }).mono (fun got b' h => .pure ?_)
      fun _ _ => htakes)
    rcases h with ⟨x, rfl, h, hanswers⟩ | ⟨rfl, h⟩
    · exact ⟨hgains h, hanswers⟩
    · exact htakes h
  · obtain ⟨rfl, rfl⟩ := (reserve_ends (b.filled + 2) b).error hrun
    have hfull := reserve_eq_allocation hrun
    exact ⟨[], .nothing _, .memory List.not_mem_nil rfl hfull.2.2.1 hfull.2.2.2⟩

/-- A refill by lines takes a line, or the beginning of one. -/
theorem refillLine_takes (b : Buffer) :
    ends refillLine (fun _ b' => b.TakesLine (.ok ()) b') (fun e b' => b.TakesLine (.error e) b')
      b := by
  have hbyte := refillByte_takes
  unfold ends
  fun_induction refillLine b with
  | case1 b _ b' hrun =>
    obtain ⟨hgains, hanswers⟩ := (hbyte b).ok hrun
    exact ⟨[10], hgains, .newline (List.nil_append _).symm List.not_mem_nil hanswers⟩
  | case2 b _ byte b' hrun hne ih =>
    obtain ⟨hgains, hanswers⟩ := (hbyte b).ok hrun
    revert ih
    cases refillLine b' with
    | ok u b'' => exact .cons hne hgains hanswers
    | error e b'' => exact .cons hne hgains hanswers
  | case3 b _ b' hrun => exact (hbyte b).ok hrun
  | case4 b _ e b' hrun => exact (hbyte b).error hrun

theorem refill_takes {b : Buffer} (h : b.settings.interactive = true) :
    ends refill (fun _ b' => b.TakesLine (.ok ()) b') (fun e b' => b.TakesLine (.error e) b')
      b := by
  refine .bind (.get ?_)
  rw [if_pos h]
  exact refillLine_takes b

/-! ## Reads -/

theorem Gains.contents_eq {b b' : Buffer} {taken : List UInt8} (h : b.Gains taken b') :
    b'.contents = b.contents ++ taken := by
  rw [contents, h.passed_eq, h.ahead_eq, ← List.append_assoc]
  rfl

/-- A read where every byte has been passed: a refill, and then the first byte that it has taken. -/
structure ReadsLine (b : Buffer) (result : Except ScanError (Option UInt8)) (b' : Buffer)
    (taken : List UInt8) : Prop where
  settings_eq : b'.settings = b.settings
  /-- All bytes that were taken are held, in their order and behind the others. -/
  contents_eq : b'.contents = b.contents ++ taken
  received_eq : b'.received = b.received + taken.length
  ending : LineEnd b.source.answers taken b' (result.map fun _ => ())
  /-- None is returned if and only if nothing was taken. -/
  byte_eq : ∀ byte, result = .ok byte → byte = taken.head?

theorem LineEnd.congr {answers : List Answer} {taken : List UInt8} {b b' : Buffer}
    (h : LineEnd answers taken b (.ok ())) (hsource : b'.source = b.source) :
    LineEnd answers taken b' (.ok ()) := by
  cases h with
  | newline htaken hline hrest => exact .newline htaken hline (hsource ▸ hrest)
  | stop hline hrest => exact .stop hline (hsource ▸ hrest)
  | spent hline hrest hend => exact .spent hline hrest (hsource ▸ hend)

theorem readByte_readsLine {b : Buffer} (hinteractive : b.settings.interactive = true)
    (hahead : b.ahead = []) :
    ends readByte (fun byte b' => ∃ taken, b.ReadsLine (.ok byte) b' taken)
      (fun e b' => ∃ taken, b.ReadsLine (.error e) b' taken) b := by
  refine .congr (readByte_of_nil hahead) (.bind ((refill_takes hinteractive).mono
    (fun _ b₁ h => ?_) fun e b₁ h => ?_))
  all_goals obtain ⟨taken, hgains, hend⟩ := h
  · have htaken : b₁.ahead = taken := by rw [hgains.ahead_eq, hahead, List.nil_append]
    cases taken with
    | nil =>
      have hrun : pass b₁ = .ok none b₁ := by simp only [pass, htaken]
      exact .of_ok hrun ⟨[], hgains.settings_eq, hgains.contents_eq, hgains.received_eq, hend,
        fun _ h => by cases h; rfl⟩
    | cons byte rest =>
      have hrun : pass b₁ =
          .ok (some byte) { b₁ with passed := b₁.passed.push byte, ahead := rest } := by
        simp only [pass, htaken]
      refine .of_ok hrun ⟨byte :: rest, hgains.settings_eq, ?_, hgains.received_eq, hend.congr rfl,
        fun _ h => by cases h; rfl⟩
      rw [← hgains.contents_eq]
      simp [contents, htaken]
  · exact ⟨taken, hgains.settings_eq, hgains.contents_eq, hgains.received_eq, hend,
      fun _ h => by cases h⟩

/-! ## Operations -/

/-- An operation on a buffer. -/
inductive Operation where
  | read
  | unread
  | seek (offset : Nat)
  | reserve (minimum : Nat)
  | insert (byte : UInt8)
  | cover (offset : Nat)
  | uncover (covered : CoveredByte)
  | trim (keepFrom : Nat)
  | switchTo (source : Source)
  deriving DecidableEq, Repr

/-- Performs an operation. Only a read has a result. -/
def Operation.perform : Operation → BufferM (Option UInt8)
  | read => readByte
  | unread => do modify Buffer.unread; return none
  | seek offset => do modify (Buffer.seek · offset); return none
  | reserve minimum => do Buffer.reserve minimum; return none
  | insert byte => do Buffer.insert byte; return none
  | cover offset => do modify fun b => (b.cover offset).2; return none
  | uncover covered => do modify (Buffer.uncover · covered); return none
  | trim keepFrom => do modify fun b => (b.trim keepFrom).2; return none
  | switchTo source => do modify (Buffer.switchTo · source); return none

/-- An operation that was performed, with the buffers around it. -/
structure Step where
  operation : Operation
  before : Buffer
  result : Except ScanError (Option UInt8)
  after : Buffer

/-- Performs an operation, whatever comes of it. -/
def step (operation : Operation) (b : Buffer) : Step :=
  match operation.perform b with
  | .ok byte b' => ⟨operation, b, .ok byte, b'⟩
  | .error e b' => ⟨operation, b, .error e, b'⟩

/-- All steps of a sequence of operations. A failure does not end it. -/
def steps : List Operation → Buffer → List Step
  | [], _ => []
  | operation :: rest, b => b.step operation :: steps rest (b.step operation).after

/-! ## Steps that leave the source alone -/

/-- The buffer later, when its source was not asked in between. -/
structure Unasked (b b' : Buffer) : Prop where
  settings_eq : b'.settings = b.settings
  source_eq : b'.source = b.source
  reads_eq : b'.reads = b.reads
  received_eq : b'.received = b.received

namespace Unasked

variable (b : Buffer)

theorem refl : b.Unasked b :=
  ⟨rfl, rfl, rfl, rfl⟩

theorem unread : b.Unasked b.unread := by
  unfold Buffer.unread
  split <;> exact ⟨rfl, rfl, rfl, rfl⟩

theorem seek (offset : Nat) : b.Unasked (b.seek offset) := by
  unfold Buffer.seek
  split <;> exact ⟨rfl, rfl, rfl, rfl⟩

theorem trim (keepFrom : Nat) : b.Unasked (b.trim keepFrom).2 := by
  unfold Buffer.trim
  dsimp only
  split <;> exact ⟨rfl, rfl, rfl, rfl⟩

theorem poke (offset : Nat) (byte : UInt8) : b.Unasked (b.poke offset byte) := by
  unfold Buffer.poke
  split
  · exact ⟨rfl, rfl, rfl, rfl⟩
  · split <;> exact ⟨rfl, rfl, rfl, rfl⟩

theorem cover (offset : Nat) : b.Unasked (b.cover offset).2 := by
  unfold Buffer.cover
  split
  · split
    · exact poke b offset _
    · exact refl b
  · exact refl b

theorem uncover (covered : CoveredByte) : b.Unasked (b.uncover covered) := by
  unfold Buffer.uncover
  split
  · exact poke b covered.offset covered.byte
  · exact refl b

theorem reserve (minimum : Nat) :
    ends (Buffer.reserve minimum) (fun _ => b.Unasked) (fun _ => b.Unasked) b :=
  (reserve_ends minimum b).mono (fun _ _ h => by obtain ⟨_, rfl⟩ := h.eq; exact ⟨rfl, rfl, rfl, rfl⟩)
    fun _ _ h => h.2 ▸ refl b

theorem insert (byte : UInt8) :
    ends (Buffer.insert byte) (fun _ => b.Unasked) (fun _ => b.Unasked) b :=
  .bind (.get (.bind ((reserve b _).mono (fun _ _ h => .modify ⟨h.1, h.2, h.3, h.4⟩) fun _ _ => id)))

/-- Bytes that are held are read without asking the source. -/
theorem readByte {b : Buffer} (h : b.ahead ≠ []) :
    ends Buffer.readByte (fun _ => b.Unasked) (fun _ => b.Unasked) b := by
  refine .congr (readByte_of_ahead h) ?_
  obtain ⟨byte, rest, hahead⟩ := List.exists_cons_of_ne_nil h
  have hrun : pass b =
      .ok (some byte) { b with passed := b.passed.push byte, ahead := rest } := by
    simp only [pass, hahead]
  exact .of_ok hrun ⟨rfl, rfl, rfl, rfl⟩

end Unasked

/-! ## Line by line -/

/-- An interactive buffer asks its source only where all that it holds has been passed, and then for
no more than a line. -/
structure Step.ByLine (s : Step) : Prop where
  asks : s.operation = .read → s.before.cursor = s.before.filled → ∃ taken,
    10 ∉ taken.dropLast ∧ s.before.ReadsLine s.result s.after taken
  idle : s.operation ≠ .read ∨ s.before.cursor < s.before.filled →
    s.after.reads = s.before.reads ∧ s.after.received = s.before.received ∧
      (s.after.source = s.before.source ∨ s.operation = .switchTo s.after.source)

@[simp] theorem step_operation (operation : Operation) (b : Buffer) :
    (b.step operation).operation = operation := by
  unfold step
  split <;> rfl

@[simp] theorem step_before (operation : Operation) (b : Buffer) :
    (b.step operation).before = b := by
  unfold step
  split <;> rfl

/-- What an operation ends with is what its step records. -/
theorem step_of_ends {operation : Operation} {b : Buffer}
    (Q : Except ScanError (Option UInt8) → Buffer → Prop)
    (h : ends operation.perform (fun byte => Q (.ok byte)) (fun e => Q (.error e)) b) :
    Q (b.step operation).result (b.step operation).after := by
  unfold ends at h
  unfold step
  revert h
  cases operation.perform b <;> exact id

/-- No operation but a read behind the last byte and a change of the source touches the source. -/
theorem perform_unasked {operation : Operation} {b : Buffer}
    (hread : operation = .read → b.ahead ≠ []) (hswitch : ∀ source, operation ≠ .switchTo source) :
    ends operation.perform (fun _ => b.Unasked) (fun _ => b.Unasked) b := by
  cases operation with
  | read => exact Unasked.readByte (hread rfl)
  | unread => exact .bind (.modify (.pure (Unasked.unread b)))
  | seek offset => exact .bind (.modify (.pure (Unasked.seek b offset)))
  | reserve minimum =>
    exact .bind ((Unasked.reserve b minimum).mono (fun _ _ h => .pure h) fun _ _ => id)
  | insert byte => exact .bind ((Unasked.insert b byte).mono (fun _ _ h => .pure h) fun _ _ => id)
  | cover offset => exact .bind (.modify (.pure (Unasked.cover b offset)))
  | uncover covered => exact .bind (.modify (.pure (Unasked.uncover b covered)))
  | trim keepFrom => exact .bind (.modify (.pure (Unasked.trim b keepFrom)))
  | switchTo source => exact absurd rfl (hswitch source)

theorem cursor_eq_filled_iff (b : Buffer) : b.cursor = b.filled ↔ b.ahead = [] := by
  rw [filled_eq, ← List.length_eq_zero_iff]
  omega

/-- A step goes by lines, and leaves the settings as they are. -/
theorem step_byLine {b : Buffer} (hinteractive : b.settings.interactive = true)
    (operation : Operation) :
    (b.step operation).ByLine ∧ (b.step operation).after.settings = b.settings := by
  have hunasked (hread : operation = .read → b.ahead ≠ [])
      (hswitch : ∀ source, operation ≠ .switchTo source) : b.Unasked (b.step operation).after :=
    step_of_ends (fun _ => b.Unasked) (perform_unasked hread hswitch)
  by_cases hnew : ∃ source, operation = .switchTo source
  · obtain ⟨source, rfl⟩ := hnew
    exact ⟨⟨fun h => (nomatch h), fun _ => ⟨rfl, rfl, .inr rfl⟩⟩, rfl⟩
  have hswitch (source : Source) : operation ≠ .switchTo source := fun h => hnew ⟨source, h⟩
  by_cases hasks : operation = .read ∧ b.ahead = []
  · obtain ⟨rfl, hahead⟩ := hasks
    have hcursor := b.cursor_eq_filled_iff.2 hahead
    have hreads : ends Operation.read.perform _ _ b := readByte_readsLine hinteractive hahead
    obtain ⟨taken, h⟩ := step_of_ends (fun result b' => ∃ taken, b.ReadsLine result b' taken) hreads
    refine ⟨⟨fun _ _ => ⟨taken, h.ending.dropLast, by rwa [step_before]⟩, ?_⟩, h.settings_eq⟩
    rintro (hne | hlt)
    · exact absurd (step_operation .read b) hne
    · rw [step_before] at hlt
      exact absurd hcursor (Nat.ne_of_lt hlt)
  · have h := hunasked (fun hread hahead => hasks ⟨hread, hahead⟩) hswitch
    refine ⟨⟨fun hread hcursor => ?_, fun _ => ?_⟩, h.settings_eq⟩
    · rw [step_operation] at hread
      rw [step_before, cursor_eq_filled_iff] at hcursor
      exact absurd ⟨hread, hcursor⟩ hasks
    · rw [step_before]
      exact ⟨h.reads_eq, h.received_eq, .inl h.source_eq⟩

/-- In interactive mode every operation of a sequence goes by lines: the source is asked only when
all that is held has been passed, each refill takes the bytes up to the first newline or to what ends
it before, and all that it has taken is held, even if the refill fails. -/
theorem steps_byLine {b : Buffer} (hinteractive : b.settings.interactive = true)
    (operations : List Operation) : ∀ s ∈ steps operations b, s.ByLine := by
  induction operations generalizing b with
  | nil => exact fun s h => (nomatch h)
  | cons operation rest ih =>
    obtain ⟨hstep, hsettings⟩ := step_byLine hinteractive operation
    intro s hs
    rcases List.mem_cons.1 hs with rfl | hs
    · exact hstep
    · exact ih (hsettings ▸ hinteractive) s hs

/-- A second line is not read before the first one has been passed, and an interruption goes by. -/
theorem steps_byLine_two_lines :
    (BufferSettings.mk true 8 4 none 64 none).interactive = true ∧
      ∀ s ∈ steps [.read, .read, .unread, .trim 1, .read, .read, .read]
        { settings := ⟨true, 8, 4, none, 64, none⟩
          source := ⟨[.data [97], .interruption, .data [10, 98], .failure "broken pipe", .stop]⟩
          capacity := 4 }, s.ByLine :=
  ⟨rfl, steps_byLine rfl _⟩

end Buffer

end Munch
