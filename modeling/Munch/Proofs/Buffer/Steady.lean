-- SUMMARY: Reading from sources that do not fail and end for good: what a read and a fed machine see.
import Munch.Buffer.Read
import Munch.Proofs.WeakestPre

/-! # Steady reading

A source is steady if no read of it fails and its first end is for good; interruptions and the sizes
of the chunks do not matter then. A buffer over such a source is read like the list of its pending
bytes: `Reached b n b'` says that `b'` differs from `b` by reads and moves only, and that its cursor
is at the offset `n` of the same stream. -/

namespace Munch

/-! ## Sources -/

/-- Whether no read fails, and nothing comes behind the first end. -/
def steadyChunks : List Chunk → Bool
  | [] => true
  | .data _ :: rest => steadyChunks rest
  | .interruption :: rest => steadyChunks rest
  | .stop :: rest => (Source.mk rest).bytes.isEmpty && steadyChunks rest
  | .failure _ :: _ => false

namespace Source

/-- Whether no read of the source fails, and its first end is for good. -/
def steady (s : Source) : Bool :=
  steadyChunks s.chunks

end Source

/-- A fetch from a steady source delivers bytes as long as there are any. -/
theorem fetchChunks_of_steady {count : Nat} (hcount : 0 < count) {chunks : List Chunk}
    (h : steadyChunks chunks = true) :
    ∃ got, (fetchChunks count chunks).outcome = .ok got ∧
      steadyChunks (fetchChunks count chunks).rest = true ∧
      (got = [] → (Source.mk (fetchChunks count chunks).rest).bytes = []) := by
  fun_induction fetchChunks count chunks with
  | case1 => exact ⟨[], rfl, rfl, fun _ => rfl⟩
  | case2 rest ih => exact ih h
  | case3 b bs rest =>
    refine ⟨_, rfl, h, fun hnil => ?_⟩
    rw [List.take_eq_nil_iff] at hnil
    rcases hnil with hzero | hnil
    · exact absurd hzero (Nat.ne_of_gt hcount)
    · exact absurd hnil (List.cons_ne_nil b bs)
  | case4 rest =>
    simp only [steadyChunks, Bool.and_eq_true, List.isEmpty_iff] at h
    exact ⟨[], rfl, h.2, fun _ => h.1⟩
  | case5 rest ih => exact ih h
  | case6 text rest => cases h

namespace Buffer

/-! ## Buffers -/

/-- Reads of the buffer do not fail but for want of memory, and deliver something at a time. -/
structure Steady (b : Buffer) : Prop where
  source : b.source.steady = true
  block : 0 < b.settings.blockSize

/-- A later buffer over the same stream, with its cursor at a given offset. -/
structure Reached (b : Buffer) (n : Nat) (b' : Buffer) : Prop where
  toExtends : Extends b b'
  steady : b'.Steady
  cursor_eq : b'.cursor = n

theorem passed_eq_take (b : Buffer) : b.passed.toList = b.stream.take b.cursor := by
  simp [stream, contents, cursor]

theorem pending_eq_drop (b : Buffer) : b.pending = b.stream.drop b.cursor := by
  simp [stream, contents, pending, cursor]

theorem cursor_le_filled (b : Buffer) : b.cursor ≤ b.filled := by
  rw [filled_eq]
  exact Nat.le_add_right _ _

namespace Reached

theorem refl {b : Buffer} (h : b.Steady) : Reached b b.cursor b :=
  ⟨.refl b, h, rfl⟩

theorem trans {a b c : Buffer} {m n : Nat} (hab : Reached a m b) (hbc : Reached b n c) :
    Reached a n c :=
  ⟨hab.toExtends.trans hbc.toExtends, hbc.steady, hbc.cursor_eq⟩

theorem pending_eq {b b' : Buffer} {n : Nat} (h : Reached b n b') :
    b'.pending = b.stream.drop n := by
  rw [pending_eq_drop, h.toExtends.stream_eq, h.cursor_eq]

theorem passed_eq {b b' : Buffer} {n : Nat} (h : Reached b n b') :
    b'.passed.toList = b.stream.take n := by
  rw [passed_eq_take, h.toExtends.stream_eq, h.cursor_eq]

theorem filled_le {b b' : Buffer} {n : Nat} (h : Reached b n b') : b.filled ≤ b'.filled :=
  h.toExtends.filled_le

/-- Moving to an offset that is held already. -/
theorem seek {b b' : Buffer} {m n : Nat} (h : Reached b m b') (hn : n ≤ b'.filled) :
    Reached b n (b'.seek n) := by
  have hsettings : (b'.seek n).settings = b'.settings := (seek_extends b' n).settings_eq
  have hsource : (b'.seek n).source = b'.source := by
    unfold Buffer.seek
    split <;> rfl
  refine ⟨h.toExtends.trans (seek_extends b' n), ⟨hsource ▸ h.steady.source, ?_⟩, ?_⟩
  · rw [hsettings]
    exact h.steady.block
  · rw [cursor_seek]
    exact Nat.min_eq_left hn

end Reached

/-! ## Refills -/

theorem reserve_wp {minimum : Nat} {b : Buffer} {Q : Unit → Buffer → Prop}
    (h : ∀ capacity, b.capacity ≤ capacity → Q () { b with capacity }) :
    wp (reserve minimum) Q b := by
  obtain ⟨capacity, hle, hfinal⟩ := reserve_final minimum b
  unfold wp
  cases hr : reserve minimum b with
  | ok u b' =>
    rw [← final_of_ok hr, hfinal]
    exact h capacity hle
  | error e b' =>
    simp only [reserve] at hr
    split at hr
    · cases hr
    · split at hr
      · cases hr
      · cases hr
        exact ⟨minimum, rfl⟩

/-- The buffer has taken some bytes, or there were none to take. -/
structure Taken (b : Buffer) (got : List UInt8) (b' : Buffer) : Prop where
  toRefilled : Refilled b b'
  steady : b'.Steady
  ahead_eq : b'.ahead = b.ahead ++ got
  ended : got = [] → b'.source.bytes = []

namespace Taken

theorem of_reserved {b b' : Buffer} {capacity : Nat} {got : List UInt8}
    (hle : b.capacity ≤ capacity) (h : Taken { b with capacity } got b') : Taken b got b' :=
  ⟨⟨h.toRefilled.passed_eq, h.toRefilled.settings_eq,
    Nat.le_trans hle h.toRefilled.capacity_le, h.toRefilled.taken⟩,
    h.steady, h.ahead_eq, h.ended⟩

theorem cons {a b c : Buffer} {byte : UInt8} {got : List UInt8} (hab : Taken a [byte] b)
    (hbc : Taken b got c) : Taken a (byte :: got) c := by
  refine ⟨hab.toRefilled.trans hbc.toRefilled, hbc.steady, ?_, fun h => nomatch h⟩
  rw [hbc.ahead_eq, hab.ahead_eq, List.append_assoc, List.singleton_append]

end Taken

theorem fetch_wp {count : Nat} (hcount : 0 < count) {b : Buffer} (hb : b.Steady) :
    wp (fetch count) (fun got b' => Taken b got b' ∧ got.length ≤ count) b := by
  obtain ⟨got, hout, hsteady, hend⟩ := fetchChunks_of_steady hcount hb.source
  have hdelivered : (fetchChunks count b.source.chunks).delivered = got := by
    rw [Fetch.delivered, hout]
    rfl
  have hok : fetch count b = .ok got (b.receive (fetchChunks count b.source.chunks)) := by
    simp only [fetch, hout]
  refine .of_ok hok ⟨⟨?_, ⟨hsteady, hb.block⟩, ?_, hend⟩, ?_⟩
  · exact final_of_ok hok ▸ fetch_refilled count b
  · simp only [receive, append, hdelivered]
  · exact hdelivered ▸ fetchChunks_length count b.source.chunks

theorem refillBlock_wp {b : Buffer} (hb : b.Steady) :
    wp refillBlock (fun _ b' => ∃ got, Taken b got b') b := by
  refine .bind (.get (.bind (reserve_wp fun capacity hle => .bind ?_)))
  refine (fetch_wp hb.block (b := { b with capacity }) ⟨hb.source, hb.block⟩).mono ?_
  intro got b' h
  exact .pure ⟨got, h.1.of_reserved hle⟩

theorem refillByte_wp {b : Buffer} (hb : b.Steady) :
    wp refillByte (fun byte b' => Taken b byte.toList b') b := by
  refine .bind (.get (.bind (reserve_wp fun capacity hle => .bind ?_)))
  refine (fetch_wp Nat.one_pos (b := { b with capacity }) ⟨hb.source, hb.block⟩).mono ?_
  rintro got b' ⟨htaken, hlength⟩
  refine .pure ?_
  cases got with
  | nil => exact htaken.of_reserved hle
  | cons byte rest =>
    obtain rfl : rest = [] := List.length_eq_zero_iff.1 (by simpa using hlength)
    exact htaken.of_reserved hle

theorem refillLine_wp {b : Buffer} (hb : b.Steady) :
    wp refillLine (fun _ b' => ∃ got, Taken b got b') b := by
  unfold wp
  fun_induction refillLine b with
  | case1 b _ b' h =>
    have hbyte := refillByte_wp hb
    rw [wp, h] at hbyte
    exact ⟨[10], hbyte⟩
  | case2 b _ byte b' h _ ih =>
    have hbyte := refillByte_wp hb
    rw [wp, h] at hbyte
    have hrest := ih hbyte.steady
    revert hrest
    cases refillLine b' with
    | ok _ b'' =>
      rintro ⟨got, hgot⟩
      exact ⟨byte :: got, hbyte.cons hgot⟩
    | error e b'' => exact id
  | case3 b _ b' h =>
    have hbyte := refillByte_wp hb
    rw [wp, h] at hbyte
    exact ⟨[], hbyte⟩
  | case4 b _ e b' h =>
    have hbyte := refillByte_wp hb
    rw [wp, h] at hbyte
    exact hbyte

theorem refill_wp {b : Buffer} (hb : b.Steady) :
    wp refill (fun _ b' => ∃ got, Taken b got b') b := by
  refine .bind (.get ?_)
  split
  · exact refillLine_wp hb
  · exact refillBlock_wp hb

/-! ## Reads -/

theorem pass_reached {b : Buffer} (hb : b.Steady) {byte : UInt8} {rest : List UInt8}
    (h : b.ahead = byte :: rest) :
    Reached b (b.cursor + 1) { b with passed := b.passed.push byte, ahead := rest } := by
  have hpass : pass b = .ok (some byte) { b with passed := b.passed.push byte, ahead := rest } := by
    simp only [pass, h]
  refine ⟨final_of_ok hpass ▸ pass_extends b, ⟨hb.source, hb.block⟩, ?_⟩
  simp only [cursor, Array.size_push]

theorem Taken.toReached {b b' : Buffer} {got : List UInt8} (h : Taken b got b') :
    Reached b b.cursor b' := by
  refine ⟨h.toRefilled.toExtends, h.steady, ?_⟩
  rw [cursor, h.toRefilled.passed_eq]
  rfl

/-- A read returns the next pending byte and steps over it. -/
theorem readByte_wp {b : Buffer} (hb : b.Steady) :
    wp readByte (fun byte b' => byte = b.pending.head? ∧
      Reached b (b.cursor + byte.toList.length) b') b := by
  cases ha : b.ahead with
  | cons byte rest =>
    refine .of_ok (readByte_of_cons ha) ⟨?_, pass_reached hb ha⟩
    rw [pending, ha]
    rfl
  | nil =>
    refine .congr (readByte_of_nil ha) (.bind ((refill_wp hb).mono ?_))
    rintro _ b₁ ⟨got, htaken⟩
    have hahead : b₁.ahead = got := by rw [htaken.ahead_eq, ha, List.nil_append]
    have hpending : b.pending = got ++ b₁.source.bytes := by
      rw [← htaken.toRefilled.pending_eq, pending, hahead]
    cases got with
    | nil =>
      have hpass : pass b₁ = .ok none b₁ := by simp only [pass, hahead]
      refine .of_ok hpass ⟨?_, htaken.toReached⟩
      rw [hpending, htaken.ended rfl]
      rfl
    | cons byte rest =>
      have hpass : pass b₁ =
          .ok (some byte) { b₁ with passed := b₁.passed.push byte, ahead := rest } := by
        simp only [pass, hahead]
      have hreached := htaken.toReached
      refine .of_ok hpass ⟨?_, ?_⟩
      · rw [hpending]
        rfl
      · have hstep := pass_reached htaken.steady hahead
        rw [hreached.cursor_eq] at hstep
        exact hreached.trans hstep

/-! ## Machines -/

/-- One round of feeding. -/
theorem feed_round {μ : Type} {live : μ → Bool} {step : μ → UInt8 → Nat → Except TableFault μ}
    {m : μ} {b : Buffer} {Q : μ → Buffer → Prop} (hdead : live m = false → Q m b)
    (hlive : live m = true → wp readByte (fun byte b' => match byte with
      | none => Q m b'
      | some x => ∃ m', step m x b'.cursor = .ok m' ∧ wp (feed live step m') Q b') b) :
    wp (feed live step m) Q b := by
  unfold wp
  rw [feed]
  cases hl : live m with
  | false => exact hdead hl
  | true =>
    have hread := hlive hl
    rw [if_pos rfl]
    unfold wp at hread
    cases h : readByte b with
    | error e b' =>
      rw [h] at hread
      exact hread
    | ok byte b' =>
      rw [h] at hread
      cases byte with
      | none => exact hread
      | some x =>
        obtain ⟨m', hm', hfeed⟩ := hread
        simp only [hm']
        exact hfeed

/-- What a fed machine has become, by an invariant of the bytes it was fed so far. It stops when it
is not live any more or has been fed all there is. -/
theorem feed_wp {μ : Type} {live : μ → Bool} {step : μ → UInt8 → Nat → Except TableFault μ}
    {b : Buffer} (hb : b.Steady) (I : List UInt8 → μ → Prop)
    (hstep : ∀ u x v m, b.pending = u ++ x :: v → I u m → live m = true →
      ∃ m', step m x (b.cursor + (u.length + 1)) = .ok m' ∧ I (u ++ [x]) m')
    {m : μ} (h : I [] m) :
    wp (feed live step m) (fun m' b' => ∃ u v, b.pending = u ++ v ∧ I u m' ∧
      (live m' = true → v = []) ∧ Reached b (b.cursor + u.length) b') b := by
  suffices hgen : ∀ v u m b', b.pending = u ++ v → I u m → Reached b (b.cursor + u.length) b' →
      wp (feed live step m) (fun m' b' => ∃ u v, b.pending = u ++ v ∧ I u m' ∧
        (live m' = true → v = []) ∧ Reached b (b.cursor + u.length) b') b' from
    hgen b.pending [] m b rfl h (.refl hb)
  intro v
  induction v with
  | nil =>
    intro u m b' hw hI hb'
    have hpending : b'.pending = [] := by
      rw [hb'.pending_eq, ← List.drop_drop, ← pending_eq_drop, hw, List.append_nil, List.drop_length]
    refine feed_round (fun _ => ⟨u, [], hw, hI, fun _ => rfl, hb'⟩) fun _ => ?_
    refine (readByte_wp hb'.steady).mono ?_
    rintro byte b'' ⟨rfl, hread⟩
    rw [hpending] at hread ⊢
    exact ⟨u, [], hw, hI, fun _ => rfl, hb'.trans (hb'.cursor_eq ▸ hread)⟩
  | cons x v ih =>
    intro u m b' hw hI hb'
    have hpending : b'.pending = x :: v := by
      rw [hb'.pending_eq, ← List.drop_drop, ← pending_eq_drop, hw, List.drop_left]
    refine feed_round (fun hl => ⟨u, x :: v, hw, hI, fun h => ?_, hb'⟩) fun hl => ?_
    · cases hl.symm.trans h
    · refine (readByte_wp hb'.steady).mono ?_
      rintro byte b'' ⟨rfl, hread⟩
      rw [hpending, hb'.cursor_eq] at hread
      rw [hpending]
      have hreached : Reached b (b.cursor + (u.length + 1)) b'' := hb'.trans hread
      obtain ⟨m', hm', hI'⟩ := hstep u x v m hw hI hl
      refine ⟨m', hreached.cursor_eq ▸ hm', ih (u ++ [x]) m' b'' ?_ hI' ?_⟩
      · rw [hw, List.append_assoc, List.singleton_append]
      · rw [List.length_append]
        exact hreached

end Buffer

end Munch
