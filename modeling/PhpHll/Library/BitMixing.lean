/-
Steps of a hash that lose nothing.

A multiply-and-shift hash is built from bijections of one machine word:
multiplication by an odd constant, exclusive or with a shifted copy, exclusive
or with a word of the input.  Each is injective here, and so is the packing of a
few bytes into a word, least significant byte first.
-/

import Mathlib.Data.BitVec
import Mathlib.Algebra.Group.Units.Basic
import Mathlib.Data.List.Basic
import PhpHll.Library.ByteMemory

namespace PhpHll.BitMixing

open ByteMemory

variable {width : Nat}

/-! ### Mixing one word -/

theorem mul_injective (multiplier inverse : BitVec width) (unit : multiplier * inverse = 1) :
    Function.Injective fun word : BitVec width => word * multiplier :=
  (IsUnit.of_mul_eq_one inverse unit).mul_left_injective

/-- The bits of the shifted copy come from higher positions, so the word can be
read off from the top. -/
theorem xorShift_injective (shift : Nat) (moves : 0 < shift) :
    Function.Injective fun word : BitVec width => word ^^^ word >>> shift := by
  intro left right same
  have bits : ∀ distance position, width - position ≤ distance →
      left.getLsbD position = right.getLsbD position := by
    intro distance
    induction distance with
    | zero =>
        intro position beyond
        rw [BitVec.getLsbD_of_ge left position (by omega),
          BitVec.getLsbD_of_ge right position (by omega)]
    | succ distance ih =>
        intro position near
        have above := ih (shift + position) (by omega)
        have here := congrArg (fun word : BitVec width => word.getLsbD position) same
        simp only [BitVec.getLsbD_xor, BitVec.getLsbD_ushiftRight, above] at here
        exact Bool.xor_left_inj.mp here
  apply BitVec.eq_of_getLsbD_eq
  intro position _bound
  exact bits width position (Nat.sub_le _ _)

/-! ### Packing bytes into a word -/

def pack (width : Nat) : List Byte → BitVec width
  | [] => 0
  | byte :: bytes => byte.setWidth width ||| pack width bytes <<< 8

theorem getLsbD_pack_cons_low (byte : Byte) (bytes : List Byte) (position : Nat)
    (low : position < 8) (inside : position < width) :
    (pack width (byte :: bytes)).getLsbD position = byte.getLsbD position := by
  rw [pack, BitVec.getLsbD_or, BitVec.getLsbD_setWidth, BitVec.getLsbD_shiftLeft]
  simp [low, inside]

theorem getLsbD_pack_cons_high (byte : Byte) (bytes : List Byte) (position : Nat)
    (inside : 8 + position < width) :
    (pack width (byte :: bytes)).getLsbD (8 + position) = (pack width bytes).getLsbD position := by
  have beyond : byte.getLsbD (8 + position) = false := BitVec.getLsbD_of_ge _ _ (by omega)
  rw [pack, BitVec.getLsbD_or, BitVec.getLsbD_setWidth, BitVec.getLsbD_shiftLeft, beyond]
  simp [inside]

/-- The bytes do not overlap, so they can be put together with exclusive or. -/
theorem pack_cons_xor (byte : Byte) (bytes : List Byte) :
    pack width (byte :: bytes) = byte.setWidth width ^^^ pack width bytes <<< 8 := by
  apply BitVec.eq_of_getLsbD_eq
  intro position _bound
  rw [pack, BitVec.getLsbD_or, BitVec.getLsbD_xor, BitVec.getLsbD_setWidth,
    BitVec.getLsbD_shiftLeft]
  by_cases low : position < 8
  · simp [low]
  · have beyond : byte.getLsbD position = false := BitVec.getLsbD_of_ge _ _ (by omega)
    simp [beyond]

private theorem eq_of_pack_bits (left right : List Byte) (sameLength : left.length = right.length)
    (fits : 8 * left.length ≤ width)
    (bits : ∀ position, position < 8 * left.length →
      (pack width left).getLsbD position = (pack width right).getLsbD position) :
    left = right := by
  induction left generalizing right with
  | nil => exact (List.length_eq_zero_iff.mp sameLength.symm).symm
  | cons first left ih =>
      cases right with
      | nil => cases sameLength
      | cons second right =>
          rw [List.length_cons] at fits bits
          have firstEq : first = second := by
            apply BitVec.eq_of_getLsbD_eq
            intro position low
            have here := bits position (by omega)
            rwa [getLsbD_pack_cons_low _ _ _ low (by omega),
              getLsbD_pack_cons_low _ _ _ low (by omega)] at here
          have restEq : left = right := by
            apply ih right (Nat.succ.inj sameLength) (by omega)
            intro position within
            have here := bits (8 + position) (by omega)
            rwa [getLsbD_pack_cons_high _ _ _ (by omega),
              getLsbD_pack_cons_high _ _ _ (by omega)] at here
          rw [firstEq, restEq]

theorem pack_injective {left right : List Byte} (sameLength : left.length = right.length)
    (fits : 8 * left.length ≤ width) (same : pack width left = pack width right) :
    left = right := by
  apply eq_of_pack_bits left right sameLength fits
  intro position _within
  rw [same]

end PhpHll.BitMixing
