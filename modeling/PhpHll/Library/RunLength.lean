/-
Run-length sequences.

A run repeats one value; a list of runs denotes the list of its repeated
values.  Two editing facts carry the whole use of such a sequence as a
compressed array: every covered position lies in exactly one run, and replacing
that run by its three-way split sets one position and no other.
-/

import Mathlib.Data.List.Basic
import Mathlib.Algebra.BigOperators.Group.List.Basic
import Mathlib.Algebra.GroupWithZero.Nat

namespace PhpHll.RunLength

structure Run (α : Type) where
  length : Nat
  value : α

variable {α : Type}

def total (runs : List (Run α)) : Nat := (runs.map Run.length).sum

def expand (runs : List (Run α)) : List α :=
  runs.flatMap fun run => List.replicate run.length run.value

@[simp] theorem total_nil : total ([] : List (Run α)) = 0 := rfl

@[simp] theorem total_cons (run : Run α) (runs : List (Run α)) :
    total (run :: runs) = run.length + total runs := by
  simp [total]

@[simp] theorem expand_nil : expand ([] : List (Run α)) = [] := rfl

@[simp] theorem expand_cons (run : Run α) (runs : List (Run α)) :
    expand (run :: runs) = List.replicate run.length run.value ++ expand runs := by
  simp [expand]

@[simp] theorem expand_append (first second : List (Run α)) :
    expand (first ++ second) = expand first ++ expand second := by
  simp [expand]

theorem expand_length (runs : List (Run α)) : (expand runs).length = total runs := by
  induction runs with
  | nil => rfl
  | cons run runs ih => simp [ih]

theorem locate (runs : List (Run α)) (position : Nat) (covered : position < total runs) :
    ∃ before run after, runs = before ++ run :: after ∧ total before ≤ position ∧
      position < total before + run.length := by
  induction runs generalizing position with
  | nil => simp at covered
  | cons run runs ih =>
      by_cases here : position < run.length
      · exact ⟨[], run, runs, rfl, by simp, by simpa using here⟩
      · have later : position - run.length < total runs := by
          rw [total_cons] at covered
          omega
        obtain ⟨before, found, after, split, lower, upper⟩ := ih _ later
        refine ⟨run :: before, found, after, ?_, ?_, ?_⟩
        · rw [split, List.cons_append]
        · rw [total_cons]
          omega
        · rw [total_cons]
          omega

theorem getElem?_expand (before after : List (Run α)) (run : Run α) (position : Nat)
    (lower : total before ≤ position) (upper : position < total before + run.length) :
    (expand (before ++ run :: after))[position]? = some run.value := by
  have inside : position - total before < run.length := by omega
  rw [expand_append, expand_cons, List.getElem?_append_right (by rw [expand_length]; exact lower),
    expand_length, List.getElem?_append_left (by rw [List.length_replicate]; exact inside),
    List.getElem?_replicate, if_pos inside]

private theorem set_replicate (value replacement : α) (first rest : Nat) :
    (List.replicate (first + 1 + rest) value).set first replacement =
      List.replicate first value ++ replacement :: List.replicate rest value := by
  rw [Nat.add_assoc, List.replicate_add,
    List.set_append_right first replacement (Nat.le_of_eq List.length_replicate),
    List.length_replicate, Nat.sub_self, Nat.add_comm 1 rest, List.replicate_succ,
    List.set_cons_zero]

/-- Splitting the covering run at a position sets that position. -/
theorem expand_split (before after : List (Run α)) (run : Run α) (replacement : α)
    (position : Nat) (lower : total before ≤ position)
    (upper : position < total before + run.length) :
    expand (before ++ ⟨position - total before, run.value⟩ :: ⟨1, replacement⟩ ::
        ⟨total before + run.length - 1 - position, run.value⟩ :: after) =
      (expand (before ++ run :: after)).set position replacement := by
  obtain ⟨length, value⟩ := run
  simp only at upper ⊢
  have lengthEq : length =
      position - total before + 1 + (total before + length - 1 - position) := by omega
  have inside : position - total before < length := by omega
  simp only [expand_append, expand_cons, List.replicate_one, List.singleton_append]
  rw [List.set_append_right position replacement (by rw [expand_length]; exact lower),
    expand_length, List.set_append_left _ _ (by rw [List.length_replicate]; exact inside)]
  conv_rhs => rw [lengthEq, set_replicate]
  rw [List.append_assoc, List.cons_append]

end PhpHll.RunLength
