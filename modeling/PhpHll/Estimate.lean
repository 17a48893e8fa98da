/-
The estimate of the count.

`hllCount` multiplies the inverse of the register sum by a constant and replaces
the result for small cardinalities, by linear counting while there are zero
registers and by a polynomial correction of the bias up to 72000.  Here is that
end of the function in exact arithmetic over an ordered field, with the
logarithm as a parameter.  No register of a built object exceeds 50, which
leaves the estimate below `2 ^ 64`, so the conversion to `uint64_t` is defined.
-/

import Mathlib.Algebra.Order.Floor.Ring
import Mathlib.Data.Rat.Floor
import Mathlib.Tactic.NormNum
import Mathlib.Tactic.Linarith
import Mathlib.Tactic.Positivity
import Mathlib.Analysis.SpecialFunctions.Log.Basic
import PhpHll.Merging
import PhpHll.Sums

namespace PhpHll

open ByteMemory

/-! ### The end of `hllCount` -/

section Definitions

variable {K : Type} [Field K]

def countM : K := (hllRegisters : Nat)

def countAlpha : K := 0.7213 / (1 + 1.079 / countM)

def rawEstimate (E : K) : K := 1 / E * countAlpha * countM * countM

/-- The polynomial regression of the bias. -/
def bias (E : K) : K :=
  5.9119 * 1.0e-18 * (E * E * E * E) - 1.4253 * 1.0e-12 * (E * E * E) + 1.2940 * 1.0e-7 * (E * E) -
    5.2921 * 1.0e-3 * E + 83.3216

def corrected (E : K) : K := E - E * (bias E / 100)

/-- The value of `E` at the `return` of `hllCount`, from the register sum and
the number of zero registers. -/
def finalEstimate [LinearOrder K] (log : K → K) (E : K) (ez : Int) : K :=
  let E := rawEstimate E
  if E < countM * 2.5 ∧ ez ≠ 0 then countM * log (countM / ez)
  else if (countM : K) = 16384 ∧ E < 72000 then corrected E
  else E

theorem countM_eq : (countM : K) = 16384 := by
  unfold countM
  rw [hllRegisters_eq]
  rfl

/-- `(uint64_t) E`: the fraction is dropped, and a value that does not fit is
undefined. -/
def castUint64 [LinearOrder K] [IsStrictOrderedRing K] [FloorRing K] (E : K) :
    Option (BitVec 64) :=
  let whole := if 0 ≤ E then ⌊E⌋ else ⌈E⌉
  if 0 ≤ whole ∧ whole < 2 ^ 64 then some (BitVec.ofInt 64 whole) else none

end Definitions

section Bounds

variable {K : Type} [Field K] [LinearOrder K] [IsStrictOrderedRing K]

theorem countAlpha_pos : (0 : K) < countAlpha := by
  unfold countAlpha
  rw [countM_eq]
  norm_num

theorem countAlpha_lt : (countAlpha : K) < 1 := by
  unfold countAlpha
  rw [countM_eq]
  norm_num

theorem rawEstimate_eq (E : K) : rawEstimate E = countAlpha * 16384 ^ 2 / E := by
  unfold rawEstimate
  rw [countM_eq]
  ring

theorem rawEstimate_nonneg (E : K) (positive : 0 < E) : 0 ≤ rawEstimate E := by
  have alpha := countAlpha_pos (K := K)
  rw [rawEstimate_eq]
  positivity

theorem rawEstimate_lt (E : K) (lower : 16384 * (1 / 2) ^ 50 ≤ E) : rawEstimate E < 2 ^ 64 := by
  have least : (0 : K) < 16384 * (1 / 2) ^ 50 := by norm_num
  have positive : 0 < E := lt_of_lt_of_le least lower
  have alpha := countAlpha_lt (K := K)
  rw [rawEstimate_eq, div_lt_iff₀ positive]
  calc (countAlpha : K) * 16384 ^ 2 < 1 * 16384 ^ 2 := by
        exact mul_lt_mul_of_pos_right alpha (by norm_num)
    _ = 2 ^ 64 * (16384 * (1 / 2) ^ 50) := by norm_num
    _ ≤ 2 ^ 64 * E := mul_le_mul_of_nonneg_left lower (by norm_num)

private theorem biasSlope_nonpos (E : K) (below : E ≤ 72000) :
    5.9119 * 1.0e-18 * E ^ 3 - 1.4253 * 1.0e-12 * E ^ 2 + 1.2940 * 1.0e-7 * E -
      5.2921 * 1.0e-3 ≤ 0 := by
  have secant : 0 ≤ 5.9119 * 1.0e-18 * (72000 ^ 2 + 72000 * E + E ^ 2) -
      1.4253 * 1.0e-12 * (72000 + E) + 1.2940 * 1.0e-7 := by
    nlinarith [sq_nonneg (E - 84545)]
  have rising := mul_nonneg (sub_nonneg.mpr below) secant
  linarith

theorem bias_le (E : K) (nonneg : 0 ≤ E) (below : E ≤ 72000) : bias E ≤ 100 := by
  have falling := mul_nonpos_of_nonneg_of_nonpos nonneg (biasSlope_nonpos E below)
  unfold bias
  linarith

theorem le_bias (E : K) (nonneg : 0 ≤ E) (below : E ≤ 72000) : -1000 ≤ bias E := by
  have fourth : 0 ≤ E * E * E * E := by positivity
  have second : 0 ≤ E * E := by positivity
  have third : E ^ 3 ≤ 72000 ^ 3 := pow_le_pow_left₀ nonneg below 3
  unfold bias
  linarith

theorem corrected_nonneg (E : K) (nonneg : 0 ≤ E) (below : E ≤ 72000) : 0 ≤ corrected E := by
  have share : 0 ≤ 1 - bias E / 100 := by
    have high := bias_le E nonneg below
    linarith
  have product := mul_nonneg nonneg share
  unfold corrected
  linarith

theorem corrected_lt (E : K) (nonneg : 0 ≤ E) (below : E ≤ 72000) : corrected E < 2 ^ 64 := by
  have share : 1 - bias E / 100 ≤ 11 := by
    have low := le_bias E nonneg below
    linarith
  have product := mul_le_mul_of_nonneg_left share nonneg
  unfold corrected
  linarith

private theorem linearCounting_bounds (log : K → K)
    (logBounds : ∀ x, 1 ≤ x → 0 ≤ log x ∧ log x ≤ x) (ez : Int) (lower : 1 ≤ ez)
    (upper : ez ≤ 16384) :
    1 ≤ (countM : K) / ez ∧ 0 ≤ (countM : K) * log (countM / ez) ∧
      (countM : K) * log (countM / ez) < 2 ^ 64 := by
  have least : (1 : K) ≤ ez := by exact_mod_cast lower
  have most : (ez : K) ≤ 16384 := by exact_mod_cast upper
  have positive : (0 : K) < ez := by linarith
  have argument : (1 : K) ≤ 16384 / ez := by
    rw [le_div_iff₀ positive, one_mul]
    exact most
  have small : (16384 : K) / ez ≤ 16384 := div_le_self (by norm_num) least
  obtain ⟨nonneg, below⟩ := logBounds _ argument
  rw [countM_eq]
  constructor
  · exact argument
  constructor
  · exact mul_nonneg (by norm_num) nonneg
  · linarith

/-- The three ways to the `return`: linear counting, the corrected estimate and
the raw one. -/
theorem finalEstimate_bounds (log : K → K) (logBounds : ∀ x, 1 ≤ x → 0 ≤ log x ∧ log x ≤ x)
    (E : K) (least : 16384 * (1 / 2) ^ 50 ≤ E) (ez : Int) (lower : 0 ≤ ez) (upper : ez ≤ 16384) :
    0 ≤ finalEstimate log E ez ∧ finalEstimate log E ez < 2 ^ 64 := by
  have tiny : (0 : K) < 16384 * (1 / 2) ^ 50 := by norm_num
  have nonneg := rawEstimate_nonneg E (lt_of_lt_of_le tiny least)
  have below := rawEstimate_lt E least
  unfold finalEstimate
  simp only
  split
  · rename_i linear
    have one : 1 ≤ ez := by omega
    exact (linearCounting_bounds log logBounds ez one upper).2
  · split
    · rename_i middle
      constructor
      · exact corrected_nonneg _ nonneg (le_of_lt middle.2)
      · exact corrected_lt _ nonneg (le_of_lt middle.2)
    · exact ⟨nonneg, below⟩

theorem castUint64_of_fits [FloorRing K] (E : K) (nonneg : 0 ≤ E) (below : E < 2 ^ 64) :
    castUint64 E = some (BitVec.ofInt 64 ⌊E⌋) := by
  have lower : 0 ≤ ⌊E⌋ := Int.floor_nonneg.mpr nonneg
  have upper : ⌊E⌋ < 2 ^ 64 := by
    rw [Int.floor_lt]
    exact_mod_cast below
  unfold castUint64
  simp only [if_pos nonneg, if_pos (And.intro lower upper)]

end Bounds

/-! ### The sum of built objects -/

theorem registerSum_le (vector : Fin 16384 → Nat) : (registerSum vector).E ≤ 16384 := by
  have each : ∀ i ∈ Finset.univ, PE (vector i) ≤ 1 := by
    intro i _member
    rw [PE_eq]
    exact pow_le_one₀ (by norm_num) (by norm_num)
  have total := Finset.sum_le_card_nsmul Finset.univ (fun i => PE (vector i)) 1 each
  simpa [registerSum] using total

theorem le_registerSum (vector : Fin 16384 → Nat) (bounded : ∀ i, vector i ≤ 50) :
    16384 * (1 / 2 : ℚ) ^ 50 ≤ (registerSum vector).E := by
  have each : ∀ i ∈ Finset.univ, (1 / 2 : ℚ) ^ 50 ≤ PE (vector i) := by
    intro i _member
    rw [PE_eq]
    exact pow_le_pow_of_le_one (by norm_num) (by norm_num) (bounded i)
  have total := Finset.card_nsmul_le_sum Finset.univ (fun i => PE (vector i)) _ each
  simpa [registerSum] using total

theorem registerSum_ez (vector : Fin 16384 → Nat) :
    0 ≤ (registerSum vector).ez ∧ (registerSum vector).ez ≤ 16384 := by
  have count := Finset.card_filter_le (Finset.univ : Finset (Fin 16384)) fun i => vector i = 0
  rw [Finset.card_univ, Fintype.card_fin] at count
  rw [registerSum_eq_exactSum]
  simp only [exactSum]
  constructor
  · exact Int.natCast_nonneg _
  · exact_mod_cast count

/-- What the arithmetic of `hllCount` needs of a sum for its result to be the
`uint64_t` it returns.  All that is used of the logarithm is that it lies
between 0 and its argument from 1 on. -/
structure Representable (sum : RegisterSum) : Prop where
  sum_pos : 0 < sum.E
  sum_le : sum.E ≤ 16384
  raw_nonneg : 0 ≤ rawEstimate sum.E
  raw_lt : rawEstimate sum.E < 2 ^ 64
  linearCounting : rawEstimate sum.E < countM * 2.5 ∧ sum.ez ≠ 0 →
    1 ≤ sum.ez ∧ sum.ez ≤ 16384 ∧ 1 ≤ countM / (sum.ez : ℚ)
  biasCorrection : rawEstimate sum.E < 72000 →
    0 ≤ corrected (rawEstimate sum.E) ∧ corrected (rawEstimate sum.E) < 2 ^ 64
  defined : ∀ log : ℚ → ℚ, (∀ x, 1 ≤ x → 0 ≤ log x ∧ log x ≤ x) →
    ∃ card, castUint64 (finalEstimate log sum.E sum.ez) = some card

theorem representable_of_bounded (vector : Fin 16384 → Nat) (bounded : ∀ i, vector i ≤ 50) :
    Representable (registerSum vector) := by
  have least := le_registerSum vector bounded
  have tiny : (0 : ℚ) < 16384 * (1 / 2) ^ 50 := by norm_num
  have positive : 0 < (registerSum vector).E := lt_of_lt_of_le tiny least
  have nonneg := rawEstimate_nonneg _ positive
  obtain ⟨lower, upper⟩ := registerSum_ez vector
  exact
    { sum_pos := positive
      sum_le := registerSum_le vector
      raw_nonneg := nonneg
      raw_lt := rawEstimate_lt _ least
      linearCounting := fun ⟨_small, zeros⟩ => by
        have one : 1 ≤ (registerSum vector).ez := by omega
        have argument := (linearCounting_bounds (fun x : ℚ => x)
          (fun x atLeast => ⟨le_trans zero_le_one atLeast, le_refl x⟩) _ one upper).1
        exact ⟨one, upper, argument⟩
      biasCorrection := fun small =>
        ⟨corrected_nonneg _ nonneg (le_of_lt small), corrected_lt _ nonneg (le_of_lt small)⟩
      defined := fun log logBounds => by
        obtain ⟨floor, ceiling⟩ := finalEstimate_bounds log logBounds _ least _ lower upper
        exact ⟨_, castUint64_of_fits _ floor ceiling⟩ }

/-- The sum of a built object, in either encoding, and the sum of several built
objects merged for a count: whatever floating-point end `hllCount` has, it is
given a sum for which the exact one is defined. -/
theorem reachable_estimate_representable (env : Env) :
    (∀ o, Reachable env o → ∃ sum,
      (∀ estimate, hllCount { env with estimate := estimate } o.ptr.buf o.ptr.len =
        .ok (estimate sum.E sum.ez, false)) ∧
      Representable sum) ∧
    ∀ (heap : Heap) (hlls : List Hll), 2 ≤ hlls.length →
      (∀ handle, some handle ∈ hlls → Reachable env (heap handle)) → ∃ sum,
      (∀ estimate, pfCountMerged { env with estimate := estimate } heap hlls =
        .ok (.card (estimate sum.E sum.ez), heap)) ∧
      Representable sum := by
  constructor
  · intro o reachable
    have valid := reachable.valid
    exact ⟨registerSum (registers o), fun estimate => hllCount_spec _ valid.wellFormed,
      representable_of_bounded _ valid.registers_le⟩
  · intro heap hlls several reachable
    have valid : AllValid env heap hlls := fun handle member => (reachable handle member).valid
    exact ⟨registerSum (mergedVector heap hlls),
      fun estimate => pfCountMerged_spec _ heap hlls
        (fun handle member => (valid handle member).wellFormed) several,
      representable_of_bounded _ (mergedVector_le valid)⟩

/-- Two fed objects, the first alone and both counted together.  The logarithm is
asked for nothing below 1, where `x - 1` keeps its bounds. -/
theorem reachable_estimate_representable_fed :
    ∃ first second sum merged,
      pfAddMany server (some (created server)) [[0x61#8], [0x62#8]] = .ok (1, some first) ∧
      pfAddMany server (some (created server)) [[0x63#8]] = .ok (1, some second) ∧
      hllCount server first.ptr.buf first.ptr.len = .ok (server.estimate sum.E sum.ez, false) ∧
      Representable sum ∧
      (∃ card, castUint64 (finalEstimate (fun x => x - 1) sum.E sum.ez) = some card) ∧
      pfCountMerged server (twoObjects first second) [some 0, none, some 1] =
        .ok (.card (server.estimate merged.E merged.ez), twoObjects first second) ∧
      Representable merged := by
  obtain ⟨first, second, fedFirst, fedSecond, built⟩ :=
    exists_two_fed server [[0x61#8], [0x62#8]] [[0x63#8]] (by decide) (by decide)
  obtain ⟨single, several⟩ := reachable_estimate_representable server
  obtain ⟨sum, counted, representable⟩ := single first ⟨_, built 0⟩
  obtain ⟨merged, mergedCount, mergedRepresentable⟩ :=
    several (twoObjects first second) [some 0, none, some 1] (by decide)
      fun handle _listed => ⟨_, built handle⟩
  have logBounds : ∀ x : ℚ, 1 ≤ x → 0 ≤ x - 1 ∧ x - 1 ≤ x := by
    intro x argument
    constructor
    · linarith
    · linarith
  exact ⟨first, second, sum, merged, fedFirst, fedSecond, counted server.estimate, representable,
    representable.defined (fun x => x - 1) logBounds, mergedCount server.estimate,
    mergedRepresentable⟩

/-! ### The exact count -/

/-- The floating-point end of `hllCount` without rounding. -/
noncomputable def exactEstimate (E : ℚ) (ez : Int) : BitVec 64 :=
  (castUint64 (finalEstimate Real.log (E : ℝ) ez)).getD 0

noncomputable def exactServer : Env := { server with estimate := exactEstimate }

theorem realLog_bounds (x : ℝ) (argument : 1 ≤ x) : 0 ≤ Real.log x ∧ Real.log x ≤ x :=
  ⟨Real.log_nonneg argument, Real.log_le_self (le_trans zero_le_one argument)⟩

private theorem cast_least (E : ℚ) (least : 16384 * (1 / 2) ^ 50 ≤ E) :
    (16384 : ℝ) * (1 / 2) ^ 50 ≤ (E : ℝ) := by
  have real : ((16384 * (1 / 2) ^ 50 : ℚ) : ℝ) ≤ (E : ℝ) := Rat.cast_le.mpr least
  have same : ((16384 * (1 / 2) ^ 50 : ℚ) : ℝ) = 16384 * (1 / 2) ^ 50 := by norm_num
  rwa [same] at real

theorem exactEstimate_eq_floor (vector : Fin 16384 → Nat) (bounded : ∀ i, vector i ≤ 50) :
    exactEstimate (registerSum vector).E (registerSum vector).ez =
      BitVec.ofInt 64
        ⌊finalEstimate Real.log ((registerSum vector).E : ℝ) (registerSum vector).ez⌋ := by
  have least := cast_least _ (le_registerSum vector bounded)
  obtain ⟨lower, upper⟩ := registerSum_ez vector
  obtain ⟨nonneg, below⟩ :=
    finalEstimate_bounds Real.log realLog_bounds _ least _ lower upper
  unfold exactEstimate
  rw [castUint64_of_fits _ nonneg below, Option.getD_some]

theorem exactEstimate_empty : exactEstimate 16384 16384 = 0 := by
  have raw : rawEstimate (16384 : ℝ) < countM * 2.5 := by
    have alpha := countAlpha_lt (K := ℝ)
    rw [rawEstimate_eq, countM_eq, div_lt_iff₀ (by norm_num)]
    linarith
  have logOne : (countM : ℝ) * Real.log (countM / ((16384 : ℤ) : ℝ)) = 0 := by
    rw [countM_eq]
    norm_num
  have final : finalEstimate Real.log ((16384 : ℚ) : ℝ) 16384 = 0 := by
    unfold finalEstimate
    simp only [Rat.cast_ofNat]
    rw [if_pos ⟨raw, by omega⟩]
    exact logOne
  unfold exactEstimate
  rw [final, castUint64_of_fits 0 (le_refl 0) (by norm_num), Int.floor_zero]
  rfl

/-- Counting without rounding, a cached cardinality of a built object is never
out of date. -/
theorem exactServer_coherent {eles : List (List Byte)} {o : Robj}
    (built : Built exactServer eles o) : (counterModel exactServer).Coherent (abstraction o) :=
  built.coherent exactEstimate_empty

end PhpHll
