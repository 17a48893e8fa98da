/-
Numerals.

A numeral has its first digit in front and at least one digit, zero included,
unlike the list of digits it is made from.  It ends with the remainder of a
division by the base and starts with the numeral of the quotient, and it is the
shortest list of digits with its value.
-/

import Mathlib.Data.Nat.Digits.Lemmas

namespace PhpHll.Numerals

def numeral (base n : Nat) : List Nat := if n = 0 then [0] else (Nat.digits base n).reverse

def valueOf (base : Nat) (digits : List Nat) : Nat := Nat.ofDigits base digits.reverse

theorem valueOf_numeral (base n : Nat) : valueOf base (numeral base n) = n := by
  by_cases zero : n = 0
  · rw [numeral, if_pos zero, zero]
    rfl
  · rw [numeral, if_neg zero, valueOf, List.reverse_reverse, Nat.ofDigits_digits]

theorem numeral_ne_nil (base n : Nat) : numeral base n ≠ [] := by
  by_cases zero : n = 0
  · rw [numeral, if_pos zero]
    exact List.cons_ne_nil _ _
  · rw [numeral, if_neg zero]
    exact mt List.reverse_eq_nil_iff.mp (Nat.digits_ne_nil_iff_ne_zero.mpr zero)

theorem numeral_below {base : Nat} (wide : 1 < base) (n : Nat) :
    ∀ digit ∈ numeral base n, digit < base := by
  intro digit member
  by_cases zero : n = 0
  · rw [numeral, if_pos zero, List.mem_singleton] at member
    omega
  · rw [numeral, if_neg zero, List.mem_reverse] at member
    exact Nat.digits_lt_base wide member

theorem numeral_last {base n : Nat} (below : n < base) : numeral base n = [n] := by
  by_cases zero : n = 0
  · rw [numeral, if_pos zero, zero]
  · rw [numeral, if_neg zero, Nat.digits_of_lt base n zero below]
    rfl

theorem numeral_more {base n : Nat} (wide : 1 < base) (more : n / base ≠ 0) :
    numeral base n = numeral base (n / base) ++ [n % base] := by
  have positive : 0 < n := Nat.pos_of_ne_zero fun zero => more (by rw [zero, Nat.zero_div])
  rw [numeral, if_neg (Nat.ne_of_gt positive), numeral, if_neg more,
    Nat.digits_def' wide positive, List.reverse_cons]

/-- A list of digits is no shorter than the numeral of its value, and the same
when it has the same length. -/
theorem numeral_shortest {base : Nat} (wide : 1 < base) {digits : List Nat}
    (nonempty : digits ≠ []) (below : ∀ digit ∈ digits, digit < base) :
    digits = numeral base (valueOf base digits) ∨
      (numeral base (valueOf base digits)).length < digits.length := by
  have belowReverse : ∀ digit ∈ digits.reverse, digit < base :=
    fun digit member => below digit (List.mem_reverse.mp member)
  have shorter : (numeral base (valueOf base digits)).length ≤ digits.length := by
    by_cases zero : valueOf base digits = 0
    · rw [numeral, if_pos zero]
      exact List.length_pos_iff.mpr nonempty
    · rw [numeral, if_neg zero, List.length_reverse, Nat.digits_length_le_iff wide,
        ← List.length_reverse]
      exact Nat.ofDigits_lt_base_pow_length wide belowReverse
  rcases Nat.lt_or_eq_of_le shorter with less | same
  · exact Or.inr less
  · refine Or.inl (List.reverse_injective ?_)
    refine Nat.ofDigits_inj_of_len_eq wide ?_ belowReverse ?_ ?_
    · rw [List.length_reverse, List.length_reverse, same]
    · intro digit member
      exact numeral_below wide _ digit (List.mem_reverse.mp member)
    · exact (valueOf_numeral base (valueOf base digits)).symm

theorem numeral_length_le {base n count : Nat} (wide : 1 < base) (positive : 0 < count)
    (small : n < base ^ count) : (numeral base n).length ≤ count := by
  by_cases zero : n = 0
  · rw [numeral, if_pos zero]
    exact positive
  · rw [numeral, if_neg zero, List.length_reverse, Nat.digits_length_le_iff wide]
    exact small

end PhpHll.Numerals
