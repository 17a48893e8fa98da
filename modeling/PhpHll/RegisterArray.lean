/-
The packed registers as an array.

A register area is 12288 bytes and a terminator.  `HLL_DENSE_SET_REGISTER`
replaces one register of it, whatever its alignment and whatever the bytes
around it, and `HLL_DENSE_GET_REGISTER` reads the array that is left.  The first
part of the self-test, which fills the area with random values and reads them
back, passes for every sequence of values.
-/

import PhpHll.Dense
import PhpHll.Library.Machine

namespace PhpHll

open ByteMemory

/-! ### One write -/

theorem hllDenseGetRegister_set_same (memory : Memory) (p regnum : Nat) (val : BitVec 64)
    (small : val.toNat < 64) :
    hllDenseGetRegister (hllDenseSetRegister memory p regnum val) p regnum = val :=
  BitVec.eq_of_toNat_eq (denseRegister_set_same memory p regnum val small)

theorem hllDenseGetRegister_set_other (memory : Memory) (p regnum other : Nat) (val : BitVec 64)
    (small : val.toNat < 64) (different : regnum ≠ other) :
    hllDenseGetRegister (hllDenseSetRegister memory p regnum val) p other =
      hllDenseGetRegister memory p other :=
  BitVec.eq_of_toNat_eq (denseRegister_set_other memory p regnum other val small different)

/-- A write stores to two bytes, also where the register fills only the first. -/
theorem hllDenseSetRegister_elsewhere (memory : Memory) (p regnum : Nat) (val : BitVec 64)
    (offset : Nat) (notFirst : offset ≠ p + 6 * regnum / 8)
    (notSecond : offset ≠ p + 6 * regnum / 8 + 1) :
    hllDenseSetRegister memory p regnum val offset = memory offset := by
  have place : regnum * hllBits = 6 * regnum := Nat.mul_comm regnum 6
  rw [hllDenseSetRegister_eq]
  apply PackedFields.writeField_other
  · rw [place]
    exact notFirst
  · rw [place]
    exact notSecond

/-- The laws of an array, for any two registers of an area, neighbours in one
byte included; the bytes a write changes; and the terminator. -/
theorem registers_behave_as_array (memory : Memory) (p : Nat) (terminated : memory (p + 12288) = 0)
    (i j : Nat) (iValid : i < 16384) (v : BitVec 64) (small : v.toNat ≤ 63) :
    hllDenseGetRegister (hllDenseSetRegister memory p i v) p j =
        (if j = i then v else hllDenseGetRegister memory p j) ∧
      (∀ offset, offset ≠ p + 6 * i / 8 → offset ≠ p + 6 * i / 8 + 1 →
        hllDenseSetRegister memory p i v offset = memory offset) ∧
      hllDenseSetRegister memory p i v (p + 12288) = 0 := by
  have fits : v.toNat < 64 := Nat.lt_succ_of_le small
  constructor
  · by_cases same : j = i
    · rw [if_pos same, same]
      exact hllDenseGetRegister_set_same memory p i v fits
    · rw [if_neg same]
      exact hllDenseGetRegister_set_other memory p i j v fits (Ne.symm same)
  constructor
  · intro offset notFirst notSecond
    exact hllDenseSetRegister_elsewhere memory p i v offset notFirst notSecond
  · have outside : p + 12288 < p ∨ p + 12288 ≤ p + 12288 := Or.inr (Nat.le_refl _)
    rw [hllDenseSetRegister_outside memory p i v fits iValid _ outside]
    exact terminated

/-- The last register of an area of ones, whose write ends at the terminator. -/
theorem registers_behave_as_array_last :
    let memory : Memory := fun offset => if offset < 16 + 12288 then 0xff else 0
    hllDenseGetRegister (hllDenseSetRegister memory 16 16383 5#64) 16 16383 = 5#64 ∧
      hllDenseSetRegister memory 16 16383 5#64 (16 + 12288) = 0 := by
  intro memory
  have terminated : memory (16 + 12288) = 0 := if_neg (Nat.lt_irrefl _)
  obtain ⟨read, _elsewhere, zero⟩ :=
    registers_behave_as_array memory 16 terminated 16383 16383 (by omega) 5#64 (by decide)
  rw [if_pos rfl] at read
  exact ⟨read, zero⟩

/-! ### The first part of the self-test -/

structure SelfTest where
  registers : Memory
  bytecounters : Nat → Byte

/-- One turn of the loop that sets the counters; `rand i` is what `rand` returns
in turn `i`. -/
def selfTestSet (rand : Nat → BitVec 32) (p : Nat) (test : SelfTest) (i : Nat) : SelfTest :=
  let r := rand i &&& hllRegisterMax.setWidth 32
  { registers := hllDenseSetRegister test.registers p i (r.setWidth 64)
    bytecounters := Function.update test.bytecounters i (r.setWidth 8) }

def selfTestFill (rand : Nat → BitVec 32) (p : Nat) (test : SelfTest) : Nat → SelfTest
  | 0 => test
  | turns + 1 => selfTestSet rand p (selfTestFill rand p test turns) turns

def selfTestCheck (p : Nat) (test : SelfTest) : Option Nat :=
  (List.range hllRegisters).find? fun i =>
    (hllDenseGetRegister test.registers p i).setWidth 32 ≠ (test.bytecounters i).setWidth 32

def selfTestReply (test : SelfTest) : Option Nat → Except Nat (Unit × SelfTest)
  | some failed => .error failed
  | none => .ok ((), test)

def selfTestCycle (p : Nat) (rand : Nat → BitVec 32) (test : SelfTest) :
    Except Nat (Unit × SelfTest) :=
  let test := selfTestFill rand p test hllRegisters
  selfTestReply test (selfTestCheck p test)

theorem masked_lt (r : BitVec 32) :
    (r &&& hllRegisterMax.setWidth 32).toNat < 64 := by
  rw [BitVec.toNat_and]
  exact Nat.lt_of_le_of_lt Nat.and_le_right (by decide)

private theorem selfTestSet_agrees (rand : Nat → BitVec 32) (p : Nat) (test : SelfTest) (i j : Nat)
    (agrees : j ≠ i → denseRegister test.registers p j = (test.bytecounters j).toNat) :
    denseRegister (selfTestSet rand p test i).registers p j =
      ((selfTestSet rand p test i).bytecounters j).toNat := by
  have small := masked_lt (rand i)
  have wide : ((rand i &&& hllRegisterMax.setWidth 32).setWidth 64).toNat =
      (rand i &&& hllRegisterMax.setWidth 32).toNat := by
    rw [BitVec.toNat_setWidth, Nat.mod_eq_of_lt (by omega)]
  have narrow : ((rand i &&& hllRegisterMax.setWidth 32).setWidth 8).toNat =
      (rand i &&& hllRegisterMax.setWidth 32).toNat := by
    rw [BitVec.toNat_setWidth, Nat.mod_eq_of_lt (by omega)]
  have fits : ((rand i &&& hllRegisterMax.setWidth 32).setWidth 64).toNat < 64 := by
    rw [wide]
    exact small
  unfold selfTestSet
  by_cases same : j = i
  · rw [same]
    simp only [Function.update_self]
    rw [denseRegister_set_same _ _ _ _ fits, wide, narrow]
  · simp only [Function.update_of_ne same]
    rw [denseRegister_set_other _ _ _ _ _ fits (Ne.symm same)]
    exact agrees same

/-- After `turns` turns the first `turns` registers are the byte counters. -/
theorem selfTestFill_agrees (rand : Nat → BitVec 32) (p : Nat) (test : SelfTest) (turns j : Nat)
    (earlier : j < turns) :
    denseRegister (selfTestFill rand p test turns).registers p j =
      ((selfTestFill rand p test turns).bytecounters j).toNat := by
  induction turns with
  | zero => omega
  | succ turns ih =>
      unfold selfTestFill
      apply selfTestSet_agrees
      intro other
      exact ih (by omega)

theorem selfTestCheck_none (p : Nat) (test : SelfTest)
    (agrees : ∀ j, j < hllRegisters →
      denseRegister test.registers p j = (test.bytecounters j).toNat) :
    selfTestCheck p test = none := by
  unfold selfTestCheck
  rw [List.find?_eq_none]
  intro j member
  have same : (hllDenseGetRegister test.registers p j).setWidth 32 =
      (test.bytecounters j).setWidth 32 := by
    apply BitVec.eq_of_toNat_eq
    rw [BitVec.toNat_setWidth, BitVec.toNat_setWidth]
    exact congrArg (· % 2 ^ 32) (agrees j (List.mem_range.mp member))
  rw [same]
  simp

theorem selfTestCycle_passes (rand : Nat → BitVec 32) (p : Nat) (test : SelfTest) :
    selfTestCycle p rand test = .ok ((), selfTestFill rand p test hllRegisters) := by
  have passed := selfTestCheck_none p _ (selfTestFill_agrees rand p test hllRegisters)
  unfold selfTestCycle
  simp only [passed, selfTestReply]

/-- The register test never fails, for any number of cycles, any random values
and any bytes in the area before. -/
theorem selfTestCycles_pass (p : Nat) (rands : List (Nat → BitVec 32)) (test : SelfTest) :
    ∃ results last, Machine.run (selfTestCycle p) rands test = .ok (results, last) := by
  induction rands generalizing test with
  | nil => exact ⟨[], test, rfl⟩
  | cons rand rest ih =>
      obtain ⟨results, last, passed⟩ := ih (selfTestFill rand p test hllRegisters)
      have first := selfTestCycle_passes rand p test
      exact ⟨_, last, Machine.run_cons_ok (selfTestCycle p) rand rest test _ last () results first
        passed⟩

end PhpHll
