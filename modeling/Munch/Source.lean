-- SUMMARY: Byte sources that deliver their input in chunks, with ends, interruptions and failures in between.

/-! # Sources

A source is the list of what its reads will meet. Every read looks at the first chunk only, so how
the input is cut decides how much one read delivers. -/

namespace Munch

/-- What a read meets. -/
inductive Chunk where
  /-- Bytes, handed out as far as they are asked for. -/
  | data (bytes : List UInt8)
  /-- An end of the input, met once; a later read goes on behind it. -/
  | stop
  /-- An interruption, after which the read is repeated. -/
  | interruption
  /-- A failure with its text, met once. -/
  | failure (text : String)
  deriving DecidableEq, Repr

/-- A source of bytes. Behind the last chunk the input has ended for good. -/
structure Source where
  chunks : List Chunk := []
  deriving DecidableEq, Inhabited, Repr

/-- The result of a read that is repeated until no interruption is met. -/
structure Fetch where
  /-- The number of attempts. -/
  calls : Nat
  /-- The delivered bytes, none at an end of the input; or the text of a failure. -/
  outcome : Except String (List UInt8)
  /-- What later reads will meet. -/
  rest : List Chunk

/-- A fetch with one more interrupted attempt before it. -/
def Fetch.retried (f : Fetch) : Fetch :=
  { f with calls := f.calls + 1 }

/-- Takes up to `count` bytes from the first chunk. -/
def fetchChunks (count : Nat) : List Chunk → Fetch
  | [] => ⟨1, .ok [], []⟩
  | .data [] :: rest => fetchChunks count rest
  | .data (b :: bs) :: rest => ⟨1, .ok ((b :: bs).take count), .data ((b :: bs).drop count) :: rest⟩
  | .stop :: rest => ⟨1, .ok [], rest⟩
  | .interruption :: rest => (fetchChunks count rest).retried
  | .failure text :: rest => ⟨1, .error text, rest⟩

namespace Chunk

/-- The bytes of a chunk. -/
def bytes : Chunk → List UInt8
  | .data bytes => bytes
  | _ => []

end Chunk

namespace Source

/-- A source that delivers some bytes at once. -/
def ofBytes (bytes : List UInt8) : Source :=
  ⟨[.data bytes]⟩

/-- All bytes that the source still holds, whatever stands between them. -/
def bytes (s : Source) : List UInt8 :=
  s.chunks.flatMap (·.bytes)

end Source

/-! ## What a fetch keeps -/

@[simp] theorem Source.bytes_cons (c : Chunk) (chunks : List Chunk) :
    (Source.mk (c :: chunks)).bytes = c.bytes ++ (Source.mk chunks).bytes := by
  simp [Source.bytes]

/-- The bytes that a fetch delivers; none if it fails. -/
def Fetch.delivered (f : Fetch) : List UInt8 :=
  f.outcome.toOption.getD []

/-- A fetch moves bytes from the front of the source to its outcome. -/
theorem fetchChunks_bytes (count : Nat) (chunks : List Chunk) :
    (fetchChunks count chunks).delivered ++ (Source.mk (fetchChunks count chunks).rest).bytes
      = (Source.mk chunks).bytes := by
  fun_induction fetchChunks count chunks with
  | case1 => simp [Fetch.delivered, Except.toOption]
  | case2 rest ih => simpa [Chunk.bytes] using ih
  | case3 b bs rest =>
    simp [Fetch.delivered, Except.toOption, Chunk.bytes, ← List.append_assoc]
  | case4 rest => simp [Fetch.delivered, Except.toOption, Chunk.bytes]
  | case5 rest ih => simpa [Chunk.bytes, Fetch.retried, Fetch.delivered] using ih
  | case6 text rest => simp [Fetch.delivered, Except.toOption, Chunk.bytes]

/-- A fetch delivers no more than it was asked for. -/
theorem fetchChunks_length (count : Nat) (chunks : List Chunk) :
    (fetchChunks count chunks).delivered.length ≤ count := by
  fun_induction fetchChunks count chunks with
  | case1 => simp [Fetch.delivered, Except.toOption]
  | case2 rest ih => exact ih
  | case3 b bs rest => simp [Fetch.delivered, Except.toOption, Nat.min_le_left]
  | case4 rest => simp [Fetch.delivered, Except.toOption]
  | case5 rest ih => exact ih
  | case6 text rest => simp [Fetch.delivered, Except.toOption]

end Munch
