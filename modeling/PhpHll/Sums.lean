/-
The three summation paths.

A vector of registers can be packed into six-bit fields, stored a byte each, or
encoded as a sequence of opcodes.  Whatever the form, the sums return the exact
sum of `2 ^ -register` and the number of zero registers.
-/

import PhpHll.SparseBlocks
import PhpHll.SparseMeaning

namespace PhpHll

open ByteMemory

/-- The area at `p` packs a vector: bit `k` of register `i` is bit `6 * i + k`. -/
def PackedAt (memory : Memory) (p : Nat) (vector : Fin 16384 → Nat) : Prop :=
  ∀ (i : Fin 16384) (k : Nat), k < 6 →
    PackedFields.bit memory p (6 * i + k) = (vector i).testBit k

def exactSum (vector : Fin 16384 → Nat) : RegisterSum :=
  { E := ∑ i, (1 / 2 : ℚ) ^ vector i
    ez := (Finset.univ.filter fun i => vector i = 0).card }

theorem registerSum_eq_exactSum (vector : Fin 16384 → Nat) :
    registerSum vector = exactSum vector := by
  simp only [registerSum, exactSum, PE_eq, zeroCount, Finset.sum_boole]

theorem PackedAt.denseRegister {memory : Memory} {p : Nat} {vector : Fin 16384 → Nat}
    (packed : PackedAt memory p vector) (small : ∀ i, vector i ≤ 63) (i : Fin 16384) :
    denseRegister memory p i = vector i := by
  apply Nat.eq_of_testBit_eq
  intro k
  have bitEq := PackedFields.getLsbD_readField hllBits memory p i k hllBits_le
  rw [PhpHll.denseRegister, hllDenseGetRegister_eq, BitVec.testBit_toNat, bitEq]
  by_cases inside : k < 6
  · have position : (i : Nat) * hllBits + k = 6 * i + k := by
      rw [hllBits, Nat.mul_comm]
    have within : k < hllBits := inside
    rw [position, packed i k inside, decide_eq_true within, Bool.true_and]
  · have high : vector i < 2 ^ k := by
      have bound : 2 ^ 6 ≤ 2 ^ k := Nat.pow_le_pow_right (by decide) (by omega)
      have value := small i
      omega
    have beyond : ¬k < hllBits := inside
    rw [Nat.testBit_lt_two_pow high, decide_eq_false beyond, Bool.false_and]

/-- The sum and the zero registers of a vector, from its six-bit packing by the
unrolled loop or the generic one, from its byte array, and from any sequence of
opcodes that encodes it. -/
theorem sums_agree (vector : Fin 16384 → Nat) (small : ∀ i, vector i ≤ 63) :
    (∀ (memory : Memory) (p : Nat), PackedAt memory p vector →
      hllDenseSum memory p = exactSum vector ∧
      hllDenseSumUnrolled memory 1024 p { E := 0, ez := 0 } = exactSum vector ∧
      hllDenseSumGeneric memory p = exactSum vector) ∧
    (∀ (memory : Memory) (p : Nat), (∀ i : Fin 16384, (memory (p + i)).toNat = vector i) →
      hllRawSum memory p = exactSum vector) ∧
    ∀ (memory : Memory) (sparse sparselen : Nat) (opcodes : List Opcode),
      readBytes memory sparse sparselen = encodeAll opcodes →
      expandAll opcodes = List.ofFn vector →
      hllSparseSum memory sparse sparselen = (exactSum vector, false) := by
  rw [← registerSum_eq_exactSum]
  refine ⟨fun memory p packed => ?_, fun memory p stored => ?_,
    fun memory sparse sparselen opcodes encoded expanded => ?_⟩
  · have read : (fun i : Fin 16384 => denseRegister memory p i) = vector :=
      funext (packed.denseRegister small)
    rw [hllDenseSum_eq, hllDenseSumUnrolled_registers, hllDenseSumGeneric_eq, read]
    exact ⟨rfl, rfl, rfl⟩
  · have read : (fun i : Fin 16384 => (memory (p + i)).toNat) = vector := funext stored
    rw [hllRawSum_eq, read]
  · have sized : sizeAll opcodes = sparselen := by
      rw [← encodeAll_length, ← encoded, readBytes_length]
    subst sized
    have scanned := opcodesFrom_of_encode memory sparse opcodes encoded
    have covered : lengthAll opcodes = 16384 := by
      rw [← expandAll_length, expanded, List.length_ofFn]
    rw [hllSparseSum_of_covered memory sparse (sizeAll opcodes) (by rw [scanned, covered]), scanned,
      expanded, listSum_ofFn]

/-- Every register at 63 in the dense area, and every register at 0 in the rest. -/
theorem sums_agree_constant :
    hllDenseSum (fun _ => 0xff#8) 16 = exactSum (fun _ => 63) ∧
      hllRawSum (fun _ => 0) 16 = exactSum (fun _ => 0) := by
  obtain ⟨dense, _raw, _sparse⟩ := sums_agree (fun _ => 63) (fun _ => Nat.le_refl 63)
  obtain ⟨_dense, raw, _sparse⟩ := sums_agree (fun _ => 0) (fun _ => Nat.zero_le 63)
  have ones : ∀ position, position < 8 → (0xff#8).getLsbD position = true := by decide
  have sixes : ∀ k, k < 6 → (63 : Nat).testBit k = true := by decide
  have packed : PackedAt (fun _ => 0xff#8) 16 (fun _ => 63) := fun i k inside => by
    rw [PackedFields.bit, ones _ (Nat.mod_lt _ (by decide)), sixes k inside]
  exact ⟨(dense _ 16 packed).1, raw _ 16 fun _ => rfl⟩

end PhpHll
