/-
Fixed-width bit fields packed into bytes, least significant bit first.

Field `index` of width `width` occupies the bits `index * width` up to
`(index + 1) * width` of the bit string whose bit `n` is bit `n % 8` of byte
`n / 8`.  Reading and writing touch the two bytes a field of at most eight bits
can meet.  Both are characterized by their effect on that bit string, which
makes the alignment of a field irrelevant to every later argument.
-/

import Mathlib.Algebra.Group.Nat.Defs
import PhpHll.Library.ByteMemory

namespace PhpHll.PackedFields

open ByteMemory

/-- Bit `position` of the bit string that starts at `base`. -/
def bit (memory : Memory) (base position : Nat) : Bool :=
  (memory (base + position / 8)).getLsbD (position % 8)

def mask (width : Nat) : BitVec 64 := (BitVec.allOnes width).setWidth 64

def readField (width : Nat) (memory : Memory) (base index : Nat) : BitVec 64 :=
  let byte := index * width / 8
  let low := index * width % 8
  ((memory (base + byte)).setWidth 64 >>> low |||
      (memory (base + byte + 1)).setWidth 64 <<< (8 - low)) &&& mask width

def writeField (width : Nat) (memory : Memory) (base index : Nat) (value : BitVec 64) : Memory :=
  let byte := index * width / 8
  let low := index * width % 8
  let first := base + byte
  let second := base + byte + 1
  let cleared := store memory first (memory first &&& (~~~(mask width <<< low)).setWidth 8)
  let written := store cleared first (cleared first ||| (value <<< low).setWidth 8)
  let opened := store written second (written second &&& (~~~(mask width >>> (8 - low))).setWidth 8)
  store opened second (opened second ||| (value >>> (8 - low)).setWidth 8)

theorem getLsbD_mask (width position : Nat) (narrow : width ≤ 8) :
    (mask width).getLsbD position = decide (position < width) := by
  by_cases inside : position < width
  · simp [mask, BitVec.getLsbD_setWidth, inside]
    omega
  · simp [mask, BitVec.getLsbD_setWidth, inside]

theorem getLsbD_readField (width : Nat) (memory : Memory) (base index position : Nat)
    (narrow : width ≤ 8) :
    (readField width memory base index).getLsbD position =
      (decide (position < width) && bit memory base (index * width + position)) := by
  by_cases inside : position < width
  · have small : position < 64 := by omega
    unfold readField bit
    simp only [BitVec.getLsbD_and, BitVec.getLsbD_or, BitVec.getLsbD_ushiftRight,
      BitVec.getLsbD_shiftLeft, BitVec.getLsbD_setWidth, getLsbD_mask width position narrow,
      inside, small, decide_true, Bool.and_true, Bool.true_and]
    by_cases firstByte : index * width % 8 + position < 8
    · have quotient : (index * width + position) / 8 = index * width / 8 := by omega
      have remainder : (index * width + position) % 8 = index * width % 8 + position := by omega
      have early : position < 8 - index * width % 8 := by omega
      have narrowed : index * width % 8 + position < 64 := by omega
      simp only [quotient, remainder, early, narrowed, decide_true, Bool.not_true,
        Bool.true_and, Bool.false_and, Bool.or_false]
    · have quotient : (index * width + position) / 8 = index * width / 8 + 1 := by omega
      have remainder : (index * width + position) % 8 = position - (8 - index * width % 8) := by
        omega
      have late : ¬position < 8 - index * width % 8 := by omega
      have beyond : (memory (base + index * width / 8)).getLsbD (index * width % 8 + position) =
          false := BitVec.getLsbD_of_ge _ _ (by omega)
      simp only [quotient, remainder, late, beyond, decide_false, Bool.not_false, Bool.true_and,
        Bool.and_false, Bool.false_or, ← Nat.add_assoc]
      have narrowed : position - (8 - index * width % 8) < 64 := by omega
      simp only [narrowed, decide_true, Bool.true_and]
  · simp [readField, getLsbD_mask width position narrow, inside]

theorem readField_ext (width : Nat) (memory : Memory) (base index : Nat) (value : BitVec 64)
    (narrow : width ≤ 8) (fits : ∀ position, width ≤ position → value.getLsbD position = false)
    (same : ∀ position, position < width →
      bit memory base (index * width + position) = value.getLsbD position) :
    readField width memory base index = value := by
  apply BitVec.eq_of_getLsbD_eq
  intro position _bound
  rw [getLsbD_readField width memory base index position narrow]
  by_cases inside : position < width
  · simp only [inside, decide_true, Bool.true_and, same position inside]
  · simp only [inside, decide_false, Bool.false_and, fits position (by omega)]

theorem readField_lt (width : Nat) (memory : Memory) (base index : Nat) (narrow : width ≤ 8) :
    (readField width memory base index).toNat < 2 ^ width := by
  apply Nat.lt_pow_two_of_testBit
  intro position above
  have outside : ¬position < width := by omega
  change (readField width memory base index).getLsbD position = false
  rw [getLsbD_readField width memory base index position narrow]
  simp only [outside, decide_false, Bool.false_and]

/-- Memories with the same fields agree on every bit of these fields. -/
theorem bit_eq_of_readField (width : Nat) (left right : Memory) (base index position : Nat)
    (narrow : width ≤ 8) (inside : position < width)
    (same : readField width left base index = readField width right base index) :
    bit left base (index * width + position) = bit right base (index * width + position) := by
  have bits := congrArg (fun value => value.getLsbD position) same
  simpa only [getLsbD_readField _ _ _ _ _ narrow, inside, decide_true, Bool.true_and] using bits

/-- The bytes up to the end of `count` fields are determined by the fields. -/
theorem byte_eq_of_readField (width count : Nat) (left right : Memory) (base offset : Nat)
    (narrow : width ≤ 8) (positive : 0 < width) (inside : 8 * offset + 8 ≤ count * width)
    (same : ∀ index < count, readField width left base index = readField width right base index) :
    left (base + offset) = right (base + offset) := by
  apply BitVec.eq_of_getLsbD_eq
  intro position bound
  have quotient : (8 * offset + position) / 8 = offset := by omega
  have remainder : (8 * offset + position) % 8 = position := by omega
  have field : (8 * offset + position) / width < count :=
    (Nat.div_lt_iff_lt_mul positive).mpr (by omega)
  have place : (8 * offset + position) / width * width + (8 * offset + position) % width =
      8 * offset + position := Nat.div_add_mod' _ _
  have bits := bit_eq_of_readField width left right base _ _ narrow
    (Nat.mod_lt (8 * offset + position) positive) (same _ field)
  rwa [place, bit, bit, quotient, remainder] at bits

/-! ### Writing -/

theorem writeField_other (width : Nat) (memory : Memory) (base index : Nat) (value : BitVec 64)
    (offset : Nat) (notFirst : offset ≠ base + index * width / 8)
    (notSecond : offset ≠ base + index * width / 8 + 1) :
    writeField width memory base index value offset = memory offset := by
  simp only [writeField, store_other _ _ _ _ notFirst, store_other _ _ _ _ notSecond]

theorem writeField_first (width : Nat) (memory : Memory) (base index : Nat) (value : BitVec 64) :
    writeField width memory base index value (base + index * width / 8) =
      memory (base + index * width / 8) &&&
          (~~~(mask width <<< (index * width % 8))).setWidth 8 |||
        (value <<< (index * width % 8)).setWidth 8 := by
  have different : base + index * width / 8 ≠ base + index * width / 8 + 1 := by omega
  simp only [writeField, store_other _ _ _ _ different, store_same]

theorem writeField_second (width : Nat) (memory : Memory) (base index : Nat) (value : BitVec 64) :
    writeField width memory base index value (base + index * width / 8 + 1) =
      memory (base + index * width / 8 + 1) &&&
          (~~~(mask width >>> (8 - index * width % 8))).setWidth 8 |||
        (value >>> (8 - index * width % 8)).setWidth 8 := by
  have different : base + index * width / 8 + 1 ≠ base + index * width / 8 := by omega
  simp only [writeField, store_other _ _ _ _ different, store_same]

/-- A write replaces exactly the bits of its field. -/
theorem bit_writeField (width : Nat) (memory : Memory) (base index : Nat) (value : BitVec 64)
    (position : Nat) (narrow : width ≤ 8)
    (fits : ∀ position, width ≤ position → value.getLsbD position = false) :
    bit (writeField width memory base index value) base position =
      if index * width ≤ position ∧ position < index * width + width then
        value.getLsbD (position - index * width)
      else bit memory base position := by
  have inByte : position % 8 < 8 := Nat.mod_lt _ (by omega)
  have inWord : position % 8 < 64 := by omega
  by_cases first : position / 8 = index * width / 8
  · unfold bit
    rw [first, writeField_first]
    simp only [BitVec.getLsbD_or, BitVec.getLsbD_and, BitVec.getLsbD_setWidth,
      BitVec.getLsbD_not, BitVec.getLsbD_shiftLeft, getLsbD_mask width _ narrow, inByte, inWord,
      decide_true, Bool.true_and]
    by_cases before : position % 8 < index * width % 8
    · have outside : ¬(index * width ≤ position ∧ position < index * width + width) := by omega
      simp [before, outside]
    · have step : position - index * width = position % 8 - index * width % 8 := by omega
      by_cases inside : position % 8 - index * width % 8 < width
      · have within : index * width ≤ position ∧ position < index * width + width := by omega
        simp [before, inside, within, step]
      · have outside : ¬(index * width ≤ position ∧ position < index * width + width) := by omega
        have clear := fits (position % 8 - index * width % 8) (by omega)
        simp [before, inside, outside, clear]
  · by_cases second : position / 8 = index * width / 8 + 1
    · unfold bit
      rw [second, ← Nat.add_assoc, writeField_second]
      simp only [BitVec.getLsbD_or, BitVec.getLsbD_and, BitVec.getLsbD_setWidth,
        BitVec.getLsbD_not, BitVec.getLsbD_ushiftRight, getLsbD_mask width _ narrow, inByte,
        inWord, decide_true, Bool.true_and]
      have step : position - index * width = 8 - index * width % 8 + position % 8 := by omega
      by_cases inside : 8 - index * width % 8 + position % 8 < width
      · have within : index * width ≤ position ∧ position < index * width + width := by omega
        simp [inside, within, step]
      · have outside : ¬(index * width ≤ position ∧ position < index * width + width) := by omega
        have clear := fits (8 - index * width % 8 + position % 8) (by omega)
        simp [inside, outside, clear]
    · have outside : ¬(index * width ≤ position ∧ position < index * width + width) := by omega
      unfold bit
      rw [writeField_other _ _ _ _ _ _ (by omega) (by omega), if_neg outside]

theorem readField_writeField_same (width : Nat) (memory : Memory) (base index : Nat)
    (value : BitVec 64) (narrow : width ≤ 8)
    (fits : ∀ position, width ≤ position → value.getLsbD position = false) :
    readField width (writeField width memory base index value) base index = value := by
  apply readField_ext width _ base index value narrow fits
  intro position inside
  rw [bit_writeField width memory base index value _ narrow fits]
  have within : index * width ≤ index * width + position ∧
      index * width + position < index * width + width := by omega
  rw [if_pos within, Nat.add_sub_cancel_left]

theorem fields_disjoint (width left right position : Nat) (different : left ≠ right)
    (inside : position < width) :
    ¬(left * width ≤ right * width + position ∧
      right * width + position < left * width + width) := by
  rintro ⟨lower, upper⟩
  rcases Nat.lt_or_gt_of_ne different with less | greater
  · have apart : (left + 1) * width ≤ right * width := Nat.mul_le_mul_right width less
    rw [Nat.succ_mul] at apart
    omega
  · have apart : (right + 1) * width ≤ left * width := Nat.mul_le_mul_right width greater
    rw [Nat.succ_mul] at apart
    omega

theorem readField_writeField_other (width : Nat) (memory : Memory) (base index other : Nat)
    (value : BitVec 64) (narrow : width ≤ 8)
    (fits : ∀ position, width ≤ position → value.getLsbD position = false)
    (different : index ≠ other) :
    readField width (writeField width memory base index value) base other =
      readField width memory base other := by
  apply BitVec.eq_of_getLsbD_eq
  intro position _bound
  rw [getLsbD_readField _ _ _ _ _ narrow, getLsbD_readField _ _ _ _ _ narrow]
  by_cases inside : position < width
  · rw [bit_writeField width memory base index value _ narrow fits,
      if_neg (fields_disjoint width index other position different inside)]
  · simp only [inside, decide_false, Bool.false_and]

/-- A field that ends inside its first byte leaves the second byte alone. -/
theorem writeField_second_of_fits (width : Nat) (memory : Memory) (base index : Nat)
    (value : BitVec 64) (narrow : width ≤ 8)
    (fits : ∀ position, width ≤ position → value.getLsbD position = false)
    (ends : index * width % 8 + width ≤ 8) :
    writeField width memory base index value (base + index * width / 8 + 1) =
      memory (base + index * width / 8 + 1) := by
  rw [writeField_second]
  apply BitVec.eq_of_getLsbD_eq
  intro position bound
  have outside : ¬8 - index * width % 8 + position < width := by omega
  have clear := fits (8 - index * width % 8 + position) (by omega)
  simp [getLsbD_mask width _ narrow, outside, clear, bound]

theorem getLsbD_of_lt (width : Nat) (value : BitVec 64) (small : value.toNat < 2 ^ width)
    (position : Nat) (above : width ≤ position) : value.getLsbD position = false :=
  Nat.testBit_lt_two_pow (Nat.lt_of_lt_of_le small (Nat.pow_le_pow_right (by omega) above))

end PhpHll.PackedFields
