/-
The dense representation.

The register macros and the dense add, each over a byte memory and the offset of
the register array in it.  The macros are packed six-bit fields, so a written
register reads back and leaves the others, and the terminator, alone.
-/

import PhpHll.Layout

namespace PhpHll

open ByteMemory

def hllDenseGetRegister (memory : Memory) (p regnum : Nat) : BitVec 64 :=
  let byte := regnum * hllBits / 8
  let fb := regnum * hllBits &&& 7
  let fb8 := 8 - fb
  let b0 := (memory (p + byte)).setWidth 64
  let b1 := (memory (p + byte + 1)).setWidth 64
  (b0 >>> fb ||| b1 <<< fb8) &&& hllRegisterMax

def hllDenseSetRegister (memory : Memory) (p regnum : Nat) (val : BitVec 64) : Memory :=
  let byte := regnum * hllBits / 8
  let fb := regnum * hllBits &&& 7
  let fb8 := 8 - fb
  let first := p + byte
  let second := p + byte + 1
  let memory := store memory first (memory first &&& (~~~(hllRegisterMax <<< fb)).setWidth 8)
  let memory := store memory first (memory first ||| (val <<< fb).setWidth 8)
  let memory := store memory second (memory second &&& (~~~(hllRegisterMax >>> fb8)).setWidth 8)
  store memory second (memory second ||| (val >>> fb8).setWidth 8)

/-- The return value and the memory after `hllDenseAdd`. -/
def hllDenseAdd (memory : Memory) (registers : Nat) (ele : List Byte) : Int × Memory :=
  let pattern := hllPatLen ele
  let count : Byte := BitVec.ofNat 8 pattern.count
  let oldcount : Byte := (hllDenseGetRegister memory registers pattern.index).setWidth 8
  if oldcount < count then
    (1, hllDenseSetRegister memory registers pattern.index (count.setWidth 64))
  else (0, memory)

/-! ### The macros as packed fields -/

theorem hllBits_le : hllBits ≤ 8 := by decide

private theorem hllRegisterMax_eq : hllRegisterMax = PackedFields.mask hllBits := by decide

theorem hllDenseGetRegister_eq (memory : Memory) (p regnum : Nat) :
    hllDenseGetRegister memory p regnum = PackedFields.readField hllBits memory p regnum := by
  have low : regnum * hllBits &&& 7 = regnum * hllBits % 8 :=
    Nat.and_two_pow_sub_one_eq_mod (regnum * hllBits) 3
  simp only [hllDenseGetRegister, PackedFields.readField, low, hllRegisterMax_eq]

theorem hllDenseSetRegister_eq (memory : Memory) (p regnum : Nat) (val : BitVec 64) :
    hllDenseSetRegister memory p regnum val =
      PackedFields.writeField hllBits memory p regnum val := by
  have low : regnum * hllBits &&& 7 = regnum * hllBits % 8 :=
    Nat.and_two_pow_sub_one_eq_mod (regnum * hllBits) 3
  simp only [hllDenseSetRegister, PackedFields.writeField, low, hllRegisterMax_eq]

def denseRegister (memory : Memory) (p regnum : Nat) : Nat :=
  (hllDenseGetRegister memory p regnum).toNat

theorem denseRegister_lt (memory : Memory) (p regnum : Nat) :
    denseRegister memory p regnum < 64 := by
  rw [denseRegister, hllDenseGetRegister_eq]
  exact PackedFields.readField_lt hllBits memory p regnum hllBits_le

theorem denseRegister_set_same (memory : Memory) (p regnum : Nat) (val : BitVec 64)
    (small : val.toNat < 64) :
    denseRegister (hllDenseSetRegister memory p regnum val) p regnum = val.toNat := by
  rw [denseRegister, hllDenseGetRegister_eq, hllDenseSetRegister_eq,
    PackedFields.readField_writeField_same hllBits memory p regnum val hllBits_le
      (PackedFields.getLsbD_of_lt hllBits val small)]

theorem denseRegister_set_other (memory : Memory) (p regnum other : Nat) (val : BitVec 64)
    (small : val.toNat < 64) (different : regnum ≠ other) :
    denseRegister (hllDenseSetRegister memory p regnum val) p other =
      denseRegister memory p other := by
  rw [denseRegister, denseRegister, hllDenseGetRegister_eq, hllDenseGetRegister_eq,
    hllDenseSetRegister_eq,
    PackedFields.readField_writeField_other hllBits memory p regnum other val hllBits_le
      (PackedFields.getLsbD_of_lt hllBits val small) different]

/-- A register write stays inside the register area: the last register ends with
its first byte, so not even the terminator changes. -/
theorem hllDenseSetRegister_outside (memory : Memory) (p regnum : Nat) (val : BitVec 64)
    (small : val.toNat < 64) (valid : regnum < 16384) (offset : Nat)
    (outside : offset < p ∨ p + 12288 ≤ offset) :
    hllDenseSetRegister memory p regnum val offset = memory offset := by
  rw [hllDenseSetRegister_eq]
  by_cases second : offset = p + regnum * hllBits / 8 + 1
  · have last : regnum * hllBits % 8 + hllBits ≤ 8 := by
      simp only [hllBits] at second ⊢
      omega
    rw [second]
    exact PackedFields.writeField_second_of_fits hllBits memory p regnum val hllBits_le
      (PackedFields.getLsbD_of_lt hllBits val small) last
  · apply PackedFields.writeField_other
    · simp only [hllBits]
      omega
    · exact second

/-- The byte after a register that fills its own byte does not show. -/
theorem denseRegister_eq_of_first (left right : Memory) (p regnum : Nat)
    (ends : regnum * 6 % 8 ≤ 2)
    (same : left (p + regnum * 6 / 8) = right (p + regnum * 6 / 8)) :
    denseRegister left p regnum = denseRegister right p regnum := by
  simp only [denseRegister, hllDenseGetRegister_eq, hllBits]
  congr 1
  apply BitVec.eq_of_getLsbD_eq
  intro position _bound
  have short : 6 ≤ 8 := hllBits_le
  rw [PackedFields.getLsbD_readField _ _ _ _ _ short,
    PackedFields.getLsbD_readField _ _ _ _ _ short]
  by_cases inside : position < 6
  · have sameByte : (regnum * 6 + position) / 8 = regnum * 6 / 8 := by omega
    simp only [PackedFields.bit, sameByte, same]
  · simp only [inside, decide_false, Bool.false_and]

theorem denseRegister_eq_of_area (left right : Memory) (p regnum : Nat) (valid : regnum < 16384)
    (same : ∀ offset, p ≤ offset → offset < p + 12288 → left offset = right offset) :
    denseRegister left p regnum = denseRegister right p regnum := by
  by_cases last : regnum * 6 % 8 ≤ 2
  · exact denseRegister_eq_of_first left right p regnum last (same _ (by omega) (by omega))
  · simp only [denseRegister, hllDenseGetRegister, hllBits]
    rw [same _ (by omega) (by omega), same _ (by omega) (by omega)]

/-- The registers and the bytes around them make up the whole memory. -/
theorem memory_eq_of_registers (left right : Memory) (p : Nat)
    (same : ∀ regnum < 16384, denseRegister left p regnum = denseRegister right p regnum)
    (around : ∀ offset, offset < p ∨ p + 12288 ≤ offset → left offset = right offset) :
    left = right := by
  funext offset
  by_cases inside : p ≤ offset ∧ offset < p + 12288
  · obtain ⟨place, rfl⟩ := Nat.exists_eq_add_of_le inside.1
    apply PackedFields.byte_eq_of_readField hllBits 16384 left right p place hllBits_le
      (by decide) (by rw [hllBits]; omega)
    intro regnum valid
    have equal := same regnum valid
    rw [denseRegister, denseRegister, hllDenseGetRegister_eq, hllDenseGetRegister_eq] at equal
    exact BitVec.eq_of_toNat_eq equal
  · exact around offset (by omega)

/-! ### Dense add -/

theorem hllDenseAdd_eq (memory : Memory) (registers : Nat) (ele : List Byte) :
    hllDenseAdd memory registers ele =
      if denseRegister memory registers (hllPatLen ele).index < (hllPatLen ele).count then
        (1, hllDenseSetRegister memory registers (hllPatLen ele).index
          (BitVec.ofNat 64 (hllPatLen ele).count))
      else (0, memory) := by
  have bounds := hllPatLen_count_bounds ele
  have small := denseRegister_lt memory registers (hllPatLen ele).index
  have countEq : (BitVec.ofNat 8 (hllPatLen ele).count).toNat = (hllPatLen ele).count := by
    rw [BitVec.toNat_ofNat, Nat.mod_eq_of_lt (by omega)]
  have oldEq : ((hllDenseGetRegister memory registers (hllPatLen ele).index).setWidth 8).toNat =
      denseRegister memory registers (hllPatLen ele).index := by
    rw [BitVec.toNat_setWidth, denseRegister, Nat.mod_eq_of_lt]
    rw [denseRegister] at small
    omega
  have wide : (BitVec.ofNat 8 (hllPatLen ele).count).setWidth 64 =
      BitVec.ofNat 64 (hllPatLen ele).count := by
    apply BitVec.eq_of_toNat_eq
    rw [BitVec.toNat_setWidth, countEq, BitVec.toNat_ofNat]
  simp only [hllDenseAdd, BitVec.lt_def, countEq, oldEq, wide]

end PhpHll
