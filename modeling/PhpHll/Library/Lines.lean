/-
Streams split at a separator.

The pieces of a stream determine it, and none of them contains the separator.
A stream of terminated lines splits into these lines and the pieces of what
follows, so its pieces are read off its lines and the other way round.
-/

import Mathlib.Data.List.Basic
import Mathlib.Data.List.DropRight
import Mathlib.Data.List.TakeWhile

namespace PhpHll.Lines

variable {Symbol : Type} [DecidableEq Symbol] (sep : Symbol)

theorem splitOn_injective : Function.Injective fun stream : List Symbol => stream.splitOn sep := by
  intro left right same
  have joined := congrArg (List.intercalate [sep]) same
  simpa only [List.intercalate_splitOn] using joined

theorem not_mem_of_mem_splitOn {stream piece : List Symbol} (member : piece ∈ stream.splitOn sep) :
    sep ∉ piece := by
  induction stream generalizing piece with
  | nil =>
      rw [List.splitOn_nil, List.mem_singleton] at member
      rw [member]
      exact List.not_mem_nil
  | cons symbol stream ih =>
      rw [List.splitOn_cons_eq_if_modifyHead] at member
      by_cases same : symbol = sep
      · rw [if_pos (beq_iff_eq.mpr same), List.mem_cons] at member
        rcases member with first | later
        · rw [first]
          exact List.not_mem_nil
        · exact ih later
      · rw [if_neg (fun equal => same (beq_iff_eq.mp equal))] at member
        obtain ⟨first, rest, pieces⟩ := List.exists_cons_of_ne_nil (List.splitOn_ne_nil sep stream)
        rw [pieces, List.modifyHead_cons, List.mem_cons] at member
        rcases member with longer | later
        · have before := ih (pieces ▸ List.mem_cons_self)
          rw [longer, List.mem_cons, not_or]
          exact ⟨Ne.symm same, before⟩
        · exact ih (pieces ▸ List.mem_cons_of_mem first later)

/-- Lines that each end with the separator. -/
def terminated (lines : List (List Symbol)) : List Symbol := lines.flatMap fun line => line ++ [sep]

theorem splitOn_terminated (lines : List (List Symbol)) (tail : List Symbol)
    (inside : ∀ line ∈ lines, sep ∉ line) :
    (terminated sep lines ++ tail).splitOn sep = lines ++ tail.splitOn sep := by
  induction lines with
  | nil => rfl
  | cons line lines ih =>
      rw [List.forall_mem_cons] at inside
      have front : terminated sep (line :: lines) ++ tail =
          line ++ sep :: (terminated sep lines ++ tail) := by
        simp [terminated]
      rw [front, List.splitOn_append_cons_self_of_not_mem inside.1, ih inside.2, List.cons_append]

theorem splitOn_replicate (blanks : Nat) :
    (List.replicate blanks sep).splitOn sep = List.replicate (blanks + 1) [] := by
  induction blanks with
  | zero => rfl
  | succ blanks ih =>
      rw [List.replicate_succ, List.splitOn_cons_eq_if_modifyHead, if_pos (beq_iff_eq.mpr rfl), ih]
      rfl

/-- The pieces of a stream are some lines and then only empty pieces exactly
when the stream is these lines, terminated, and then only separators. -/
theorem splitOn_eq_iff (stream : List Symbol) (lines : List (List Symbol)) (blanks : Nat) :
    stream.splitOn sep = lines ++ List.replicate (blanks + 1) [] ↔
      stream = terminated sep lines ++ List.replicate blanks sep ∧ ∀ line ∈ lines, sep ∉ line := by
  constructor
  · intro pieces
    have inside : ∀ line ∈ lines, sep ∉ line := by
      intro line member
      have piece : line ∈ stream.splitOn sep := by
        rw [pieces]
        exact List.mem_append_left _ member
      exact not_mem_of_mem_splitOn sep piece
    have same := splitOn_terminated sep lines (List.replicate blanks sep) inside
    rw [splitOn_replicate, ← pieces] at same
    exact ⟨(splitOn_injective sep same).symm, inside⟩
  · rintro ⟨rfl, inside⟩
    rw [splitOn_terminated sep lines _ inside, splitOn_replicate]

/-! ### Stripped lines -/

end PhpHll.Lines
