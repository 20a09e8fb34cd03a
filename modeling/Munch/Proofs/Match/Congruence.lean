-- SUMMARY: An attempt does the same in buffers that no read and no move can tell apart.
import Munch.Match.Longest
import Munch.Proofs.Buffer.Congruence

/-! # Matches in related buffers

An attempt reads bytes and moves the cursor. Step by step it does the same in two buffers that a
congruence relates, so it finds the same match, or fails alike. -/

namespace Munch

open Buffer

variable {R : Buffer → Buffer → Prop} [Congruence R]

theorem seek_inStep (offset : Nat) :
    InStep R (modify (·.seek offset) : BufferM PUnit) :=
  .modify fun _ _ h => seek_related h offset

namespace Tables

variable (t : Tables)

theorem bestSplit_inStep (entry : State) (rule : Rule) (trailing : State) (start : Nat) :
    InStep R (t.bestSplit entry rule trailing start) :=
  (seek_inStep start).bind fun _ => .bind (feed_inStep _ _ _) fun _ =>
    (seek_inStep start).bind fun _ => .pure _

theorem consider_inStep (start : Nat) (entry : State) (stop : Nat) (sel : Selection) (rule : Rule) :
    InStep R (t.consider start entry stop sel rule) := by
  refine (InStep.liftFault _).bind fun trailing => ?_
  cases trailing with
  | none => exact .pure _
  | some trailing =>
    dsimp only
    split
    · exact .pure _
    · exact (t.bestSplit_inStep entry rule trailing start).bind fun _ => .pure _

theorem chooseWinner_inStep (start : Nat) (tracks : List Track) :
    InStep R (t.chooseWinner start tracks) := by
  refine .foldlM (fun best track => ?_) tracks none
  refine InStep.bind (.foldlM (fun sel point => ?_) _ _) fun _ => .pure _
  exact (InStep.liftFault _).bind fun rules =>
    .foldlM (fun sel rule => t.consider_inStep start track.entry point.stop sel rule) rules sel

theorem leaveLastByte_inStep (tracks : List Track) : InStep R (leaveLastByte tracks) := by
  refine .modify fun b b' h => ?_
  split
  · exact h
  · exact unread_related h

theorem settle_inStep (start : Nat) (winner : Option Candidate) :
    InStep R (settle start winner) := by
  cases winner with
  | some winner => exact (seek_inStep _).bind fun _ => .pure _
  | none => exact (seek_inStep _).bind fun _ => .pure _

theorem longestMatch_inStep (sc : StartCondition) (atLineStart : Bool) :
    InStep R (t.longestMatch sc atLineStart) := by
  refine (InStep.liftFault _).bind fun tracks => .getThen fun b b' h => ?_
  rw [(Congruence.same h).cursor_eq]
  refine InStep.bind (feed_inStep _ _ _) (fun tracks => .getThen fun b₁ b₁' h₁ => ?_) b b' h
  rw [(Congruence.same h₁).cursor_eq]
  split
  · exact .ok h₁
  · exact (leaveLastByte_inStep tracks).bind (fun _ =>
      (t.chooseWinner_inStep _ tracks).bind fun winner => settle_inStep _ winner) b₁ b₁' h₁

end Tables

end Munch
