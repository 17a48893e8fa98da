/-
Lists cut at a separator of several symbols.

Pieces are clean when a scan from the left finds the separators that were put
between them and no others: behind each piece stands the first separator, and
there is none in the last piece.  A list is joined from clean pieces in one way
only.
-/

import Mathlib.Data.List.Basic
import Mathlib.Data.List.Infix

namespace PhpHll.Separated

variable {α : Type} (sep : List α)

/-- No separator starts in the piece when another one follows it. -/
def EndsFirst (piece : List α) : Prop := ∀ k < piece.length, ¬sep <+: (piece ++ sep).drop k

def Clean : List (List α) → Prop
  | [] => False
  | [last] => ¬sep <:+: last
  | piece :: next :: rest => EndsFirst sep piece ∧ Clean (next :: rest)

variable {sep}

theorem Clean.ne_nil {pieces : List (List α)} (clean : Clean sep pieces) : pieces ≠ [] := by
  rintro rfl
  exact clean

theorem Clean.cons {piece : List α} {pieces : List (List α)} (first : EndsFirst sep piece)
    (clean : Clean sep pieces) : Clean sep (piece :: pieces) := by
  obtain ⟨next, rest, rfl⟩ := List.exists_cons_of_ne_nil clean.ne_nil
  exact ⟨first, clean⟩

private theorem EndsFirst.length_le {first second restFirst restSecond : List α}
    (ends : EndsFirst sep first) (same : first ++ sep ++ restFirst = second ++ sep ++ restSecond) :
    first.length ≤ second.length := by
  by_contra longer
  have shorter : second.length < first.length := Nat.lt_of_not_le longer
  refine ends second.length shorter ?_
  have behind := congrArg (List.drop second.length) same
  rw [List.append_assoc second, List.drop_left, List.drop_append_of_le_length (by
    rw [List.length_append]
    omega)] at behind
  have window : sep <+: (first ++ sep).drop second.length ++ restFirst := by
    rw [behind]
    exact List.prefix_append _ _
  refine List.prefix_of_prefix_length_le window (List.prefix_append _ _) ?_
  rw [List.length_drop, List.length_append]
  omega

private theorem last_ne_joined {last piece : List α} {pieces : List (List α)}
    (absent : ¬sep <:+: last) (clean : Clean sep pieces) :
    last ≠ sep.intercalate (piece :: pieces) := by
  intro same
  rw [List.intercalate_cons_of_ne_nil clean.ne_nil] at same
  exact absent ⟨piece, sep.intercalate pieces, same.symm⟩

theorem Clean.unique {first second : List (List α)} (cleanFirst : Clean sep first)
    (cleanSecond : Clean sep second)
    (same : sep.intercalate first = sep.intercalate second) : first = second := by
  induction first generalizing second with
  | nil => exact cleanFirst.elim
  | cons piece pieces ih =>
      obtain ⟨other, others, rfl⟩ := List.exists_cons_of_ne_nil cleanSecond.ne_nil
      cases pieces with
      | nil =>
          cases others with
          | nil =>
              rw [List.intercalate_singleton, List.intercalate_singleton] at same
              rw [same]
          | cons next rest =>
              rw [List.intercalate_singleton] at same
              exact absurd same (last_ne_joined cleanFirst cleanSecond.2)
      | cons next rest =>
          cases others with
          | nil =>
              rw [List.intercalate_singleton] at same
              exact absurd same.symm (last_ne_joined cleanSecond cleanFirst.2)
          | cons otherNext otherRest =>
              rw [List.intercalate_cons_cons, List.intercalate_cons_cons] at same
              have length : piece.length = other.length :=
                Nat.le_antisymm (cleanFirst.1.length_le same) (cleanSecond.1.length_le same.symm)
              rw [List.append_assoc, List.append_assoc] at same
              obtain ⟨samePiece, tails⟩ := List.append_inj same length
              rw [samePiece, ih cleanFirst.2 cleanSecond.2 (List.append_cancel_left tails)]

end PhpHll.Separated
