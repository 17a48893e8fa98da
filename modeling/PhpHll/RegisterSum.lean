/-
The register sums over full arrays.

`hllDenseSum` walks the packed registers sixteen at a time and `hllRawSum` the
byte array eight at a time.  Both compute, in exact arithmetic, the sum of
`2 ^ -register` and the number of zero registers of the array they walk.
-/

import Mathlib.Algebra.BigOperators.Fin
import Mathlib.Data.Rat.Defs
import Mathlib.Algebra.Field.Rat
import Mathlib.Tactic.Ring
import PhpHll.Dense

namespace PhpHll

open ByteMemory

/-- The table `PE` of `hllCount`: `2 ^ -reg`, indexed by the register value. -/
def PE (reg : Nat) : ℚ := if reg = 0 then 1 else 1 / (1 <<< reg : Nat)

/-- What the sums return: `E` and, through `ezp`, the number of zero registers. -/
structure RegisterSum where
  E : ℚ
  ez : Int

/-! ### hllDenseSum -/

def hllDenseSumLanes (memory : Memory) (r : Nat) : List (BitVec 64) :=
  let byte (k : Nat) : BitVec 64 := (memory (r + k)).setWidth 64
  [ byte 0 &&& 63#64,
    (byte 0 >>> 6 ||| byte 1 <<< 2) &&& 63#64,
    (byte 1 >>> 4 ||| byte 2 <<< 4) &&& 63#64,
    (byte 2 >>> 2) &&& 63#64,
    byte 3 &&& 63#64,
    (byte 3 >>> 6 ||| byte 4 <<< 2) &&& 63#64,
    (byte 4 >>> 4 ||| byte 5 <<< 4) &&& 63#64,
    (byte 5 >>> 2) &&& 63#64,
    byte 6 &&& 63#64,
    (byte 6 >>> 6 ||| byte 7 <<< 2) &&& 63#64,
    (byte 7 >>> 4 ||| byte 8 <<< 4) &&& 63#64,
    (byte 8 >>> 2) &&& 63#64,
    byte 9 &&& 63#64,
    (byte 9 >>> 6 ||| byte 10 <<< 2) &&& 63#64,
    (byte 10 >>> 4 ||| byte 11 <<< 4) &&& 63#64,
    (byte 11 >>> 2) &&& 63#64 ]

/-- `if (rk == 0) ez++`, and `E += PE[rk]`. -/
def addLane (sum : RegisterSum) (reg : BitVec 64) : RegisterSum :=
  { E := sum.E + PE reg.toNat
    ez := if reg = 0#64 then sum.ez + 1 else sum.ez }

/-- The loop over `j`, with the number of turns left. -/
def hllDenseSumUnrolled (memory : Memory) : Nat → Nat → RegisterSum → RegisterSum
  | 0, _, sum => sum
  | turns + 1, r, sum =>
      hllDenseSumUnrolled memory turns (r + 12) ((hllDenseSumLanes memory r).foldl addLane sum)

/-- The generic loop for other register counts and widths: zero registers are
counted and added to `E` at the end. -/
def hllDenseSumGeneric (memory : Memory) (registers : Nat) : RegisterSum :=
  let sum := (List.range hllRegisters).foldl (fun (sum : RegisterSum) j =>
    let reg := hllDenseGetRegister memory registers j
    if reg = 0#64 then { sum with ez := sum.ez + 1 }
    else { sum with E := sum.E + PE reg.toNat }) { E := 0, ez := 0 }
  { sum with E := sum.E + sum.ez }

def hllDenseSum (memory : Memory) (registers : Nat) : RegisterSum :=
  if hllRegisters = 16384 ∧ hllBits = 6 then
    hllDenseSumUnrolled memory 1024 registers { E := 0, ez := 0 }
  else hllDenseSumGeneric memory registers

/-! ### hllRawSum -/

/-- `if (bytes[k]) E += PE[bytes[k]]; else ez++;` -/
def addRawByte (sum : RegisterSum) (byte : Byte) : RegisterSum :=
  if byte ≠ 0 then { sum with E := sum.E + PE byte.toNat }
  else { sum with ez := sum.ez + 1 }

/-- One 64-bit word a turn, with the shortcut for a zero word. -/
def hllRawSumLoop (memory : Memory) : Nat → Nat → RegisterSum → RegisterSum
  | 0, _, sum => sum
  | turns + 1, word, sum =>
      let bytes := readBytes memory word 8
      let sum :=
        if bytes = List.replicate 8 0 then { sum with ez := sum.ez + 8 }
        else bytes.foldl addRawByte sum
      hllRawSumLoop memory turns (word + 8) sum

def hllRawSum (memory : Memory) (registers : Nat) : RegisterSum :=
  let sum := hllRawSumLoop memory (hllRegisters / 8) registers { E := 0, ez := 0 }
  { sum with E := sum.E + sum.ez }

/-! ### The exact sum of a register array -/

def zeroCount (reg : Nat) : Int := if reg = 0 then 1 else 0

def registerSum (registers : Fin 16384 → Nat) : RegisterSum :=
  { E := ∑ i, PE (registers i)
    ez := ∑ i, zeroCount (registers i) }

def listSum (registers : List Nat) : RegisterSum :=
  { E := (registers.map PE).sum
    ez := (registers.map zeroCount).sum }

theorem PE_eq (reg : Nat) : PE reg = (1 / 2) ^ reg := by
  unfold PE
  split
  · rename_i isZero
    rw [isZero, pow_zero]
  · rw [Nat.one_shiftLeft, Nat.cast_pow, one_div_pow]
    rfl

theorem listSum_ofFn (registers : Fin 16384 → Nat) :
    listSum (List.ofFn registers) = registerSum registers := by
  simp only [listSum, registerSum, List.map_ofFn, List.sum_ofFn, Function.comp_def]

theorem map_range_eq_ofFn (count : Nat) (register : Nat → Nat) :
    (List.range count).map register = List.ofFn fun i : Fin count => register i := by
  apply List.ext_getElem
  · rw [List.length_map, List.length_range, List.length_ofFn]
  · intro position _left _right
    rw [List.getElem_map, List.getElem_range, List.getElem_ofFn]

theorem listSum_range (register : Nat → Nat) :
    listSum ((List.range 16384).map register) = registerSum fun i => register i := by
  rw [map_range_eq_ofFn, listSum_ofFn]

def RegisterSum.plus (first second : RegisterSum) : RegisterSum :=
  { E := first.E + second.E
    ez := first.ez + second.ez }

theorem RegisterSum.plus_assoc (first second third : RegisterSum) :
    (first.plus second).plus third = first.plus (second.plus third) := by
  simp only [RegisterSum.plus, add_assoc]

theorem RegisterSum.zero_plus (sum : RegisterSum) :
    RegisterSum.plus { E := 0, ez := 0 } sum = sum := by
  simp only [RegisterSum.plus, zero_add]

theorem RegisterSum.plus_zero (sum : RegisterSum) :
    RegisterSum.plus sum { E := 0, ez := 0 } = sum := by
  simp only [RegisterSum.plus, add_zero]

theorem listSum_append (first second : List Nat) :
    listSum (first ++ second) = (listSum first).plus (listSum second) := by
  simp only [listSum, RegisterSum.plus, List.map_append, List.sum_append]

theorem listSum_cons (reg : Nat) (registers : List Nat) :
    listSum (reg :: registers) =
      RegisterSum.plus { E := PE reg, ez := zeroCount reg } (listSum registers) := by
  simp only [listSum, RegisterSum.plus, List.map_cons, List.sum_cons]

/-! ### The unrolled loop -/

private theorem get_at (memory : Memory) (p regnum byte low : Nat)
    (quotient : regnum * 6 / 8 = byte) (remainder : regnum * 6 % 8 = low) :
    hllDenseGetRegister memory p regnum =
      ((memory (p + byte)).setWidth 64 >>> low |||
        (memory (p + byte + 1)).setWidth 64 <<< (8 - low)) &&& 63#64 := by
  have masked : regnum * 6 &&& 7 = low := by
    rw [← remainder]
    exact Nat.and_two_pow_sub_one_eq_mod (regnum * 6) 3
  simp only [hllDenseGetRegister, hllBits, quotient, masked, hllRegisterMax]

private theorem and_63_of_short (first second : Byte) (low : Nat) (short : low ≤ 2) :
    (first.setWidth 64 >>> low ||| second.setWidth 64 <<< (8 - low)) &&& 63#64 =
      first.setWidth 64 >>> low &&& 63#64 := by
  apply BitVec.eq_of_getLsbD_eq
  intro position _bound
  have mask : (63#64).getLsbD position = decide (position < 6) :=
    PackedFields.getLsbD_mask 6 position (by decide)
  simp only [BitVec.getLsbD_and, BitVec.getLsbD_or, BitVec.getLsbD_shiftLeft, mask]
  by_cases inside : position < 6
  · have early : position < 8 - low := by omega
    simp only [early, decide_true, Bool.not_true, Bool.and_false, Bool.false_and, Bool.or_false]
  · simp only [inside, decide_false, Bool.and_false]

private theorem lanes_of_group (memory : Memory) (p group : Nat) :
    [hllDenseGetRegister memory p (4 * group), hllDenseGetRegister memory p (4 * group + 1),
      hllDenseGetRegister memory p (4 * group + 2), hllDenseGetRegister memory p (4 * group + 3)] =
    let byte (k : Nat) : BitVec 64 := (memory (p + 3 * group + k)).setWidth 64
    [byte 0 &&& 63#64, (byte 0 >>> 6 ||| byte 1 <<< 2) &&& 63#64,
      (byte 1 >>> 4 ||| byte 2 <<< 4) &&& 63#64, byte 2 >>> 2 &&& 63#64] := by
  rw [get_at memory p (4 * group) (3 * group) 0 (by omega) (by omega),
    get_at memory p (4 * group + 1) (3 * group) 6 (by omega) (by omega),
    get_at memory p (4 * group + 2) (3 * group + 1) 4 (by omega) (by omega),
    get_at memory p (4 * group + 3) (3 * group + 2) 2 (by omega) (by omega),
    and_63_of_short _ _ 0 (by omega), and_63_of_short _ _ 2 (by omega), BitVec.ushiftRight_zero]
  rfl

theorem hllDenseSumLanes_eq (memory : Memory) (p turn : Nat) :
    hllDenseSumLanes memory (p + 12 * turn) =
      (List.range 16).map fun k => hllDenseGetRegister memory p (16 * turn + k) := by
  have group (g : Nat) := lanes_of_group memory p (4 * turn + g)
  have split : ((List.range 16).map fun k => hllDenseGetRegister memory p (16 * turn + k)) =
      [hllDenseGetRegister memory p (4 * (4 * turn + 0)),
        hllDenseGetRegister memory p (4 * (4 * turn + 0) + 1),
        hllDenseGetRegister memory p (4 * (4 * turn + 0) + 2),
        hllDenseGetRegister memory p (4 * (4 * turn + 0) + 3)] ++
      [hllDenseGetRegister memory p (4 * (4 * turn + 1)),
        hllDenseGetRegister memory p (4 * (4 * turn + 1) + 1),
        hllDenseGetRegister memory p (4 * (4 * turn + 1) + 2),
        hllDenseGetRegister memory p (4 * (4 * turn + 1) + 3)] ++
      [hllDenseGetRegister memory p (4 * (4 * turn + 2)),
        hllDenseGetRegister memory p (4 * (4 * turn + 2) + 1),
        hllDenseGetRegister memory p (4 * (4 * turn + 2) + 2),
        hllDenseGetRegister memory p (4 * (4 * turn + 2) + 3)] ++
      [hllDenseGetRegister memory p (4 * (4 * turn + 3)),
        hllDenseGetRegister memory p (4 * (4 * turn + 3) + 1),
        hllDenseGetRegister memory p (4 * (4 * turn + 3) + 2),
        hllDenseGetRegister memory p (4 * (4 * turn + 3) + 3)] := by
    have start : 16 * turn = 4 * (4 * turn) := by omega
    simp only [List.range, List.range.loop, List.map_cons, List.map_nil, List.cons_append,
      List.nil_append, Nat.mul_add, start, Nat.add_assoc, Nat.reduceMul, Nat.reduceAdd,
      Nat.add_zero]
  have bytes : p + 12 * turn = p + 3 * (4 * turn) := by omega
  rw [split, group 0, group 1, group 2, group 3, hllDenseSumLanes, bytes]
  simp only [List.cons_append, List.nil_append, Nat.mul_add, Nat.add_assoc, Nat.reduceMul,
    Nat.reduceAdd, Nat.add_zero]

private theorem foldl_addLane (sum : RegisterSum) (lanes : List (BitVec 64)) :
    lanes.foldl addLane sum = sum.plus (listSum (lanes.map BitVec.toNat)) := by
  induction lanes generalizing sum with
  | nil => exact (RegisterSum.plus_zero sum).symm
  | cons lane lanes ih =>
      have isZero : lane = 0#64 ↔ lane.toNat = 0 := by
        rw [← BitVec.toNat_inj]
        rfl
      have step : addLane sum lane =
          sum.plus { E := PE lane.toNat, ez := zeroCount lane.toNat } := by
        unfold addLane RegisterSum.plus zeroCount
        by_cases zero : lane = 0#64
        · rw [if_pos zero, if_pos (isZero.mp zero)]
        · rw [if_neg zero, if_neg (fun same => zero (isZero.mpr same)), add_zero]
      rw [List.foldl_cons, ih, step, RegisterSum.plus_assoc, List.map_cons, listSum_cons]

/-- The invariant of the unrolled loop: after `turn` turns the sum covers the
first `16 * turn` registers. -/
private theorem hllDenseSumUnrolled_eq (memory : Memory) (p turns turn : Nat) (sum : RegisterSum) :
    hllDenseSumUnrolled memory turns (p + 12 * turn) sum =
      sum.plus (listSum ((List.range (16 * turns)).map fun k =>
        denseRegister memory p (16 * turn + k))) := by
  induction turns generalizing turn sum with
  | zero => exact (RegisterSum.plus_zero sum).symm
  | succ turns ih =>
      have next : p + 12 * turn + 12 = p + 12 * (turn + 1) := by omega
      have count : 16 * (turns + 1) = 16 + 16 * turns := by omega
      rw [hllDenseSumUnrolled, next, ih, hllDenseSumLanes_eq, foldl_addLane,
        RegisterSum.plus_assoc, ← listSum_append, count, List.range_add, List.map_append,
        List.map_map, List.map_map]
      congr 3
      apply List.map_congr_left
      intro k _member
      simp only [Function.comp_apply]
      congr 1
      omega

theorem hllDenseSumUnrolled_registers (memory : Memory) (p : Nat) :
    hllDenseSumUnrolled memory 1024 p { E := 0, ez := 0 } =
      registerSum fun i => denseRegister memory p i := by
  have total := hllDenseSumUnrolled_eq memory p 1024 0 { E := 0, ez := 0 }
  rw [Nat.mul_zero, Nat.add_zero, RegisterSum.zero_plus] at total
  rw [total, ← listSum_range]
  simp only [Nat.zero_add, Nat.reduceMul]

theorem hllDenseSum_eq (memory : Memory) (p : Nat) :
    hllDenseSum memory p = registerSum fun i => denseRegister memory p i := by
  rw [hllDenseSum, if_pos ⟨hllRegisters_eq, rfl⟩, hllDenseSumUnrolled_registers]

/-! ### Sums that leave the zero registers to the end -/

private def RegisterSum.settle (sum : RegisterSum) : RegisterSum :=
  { sum with E := sum.E + sum.ez }

/-- A register counted in `ez` or added to `E` is a register of the settled sum. -/
private theorem settle_step (sum : RegisterSum) (reg : Nat) :
    (if reg = 0 then { sum with ez := sum.ez + 1 }
      else { sum with E := sum.E + PE reg } : RegisterSum).settle =
      sum.settle.plus { E := PE reg, ez := zeroCount reg } := by
  by_cases zero : reg = 0
  · simp only [RegisterSum.settle, RegisterSum.plus, zeroCount, PE, zero, if_true,
      Int.cast_add, Int.cast_one, RegisterSum.mk.injEq, and_true]
    ring
  · simp only [RegisterSum.settle, RegisterSum.plus, zeroCount, if_neg zero, add_zero,
      RegisterSum.mk.injEq, and_true]
    ring

private theorem settle_zero : RegisterSum.settle { E := 0, ez := 0 } = { E := 0, ez := 0 } := by
  simp only [RegisterSum.settle, Int.cast_zero, add_zero]

private theorem settle_genericFoldl (memory : Memory) (p : Nat) (indices : List Nat)
    (sum : RegisterSum) :
    (indices.foldl (fun (sum : RegisterSum) j =>
        let reg := hllDenseGetRegister memory p j
        if reg = 0#64 then { sum with ez := sum.ez + 1 }
        else { sum with E := sum.E + PE reg.toNat }) sum).settle =
      sum.settle.plus (listSum (indices.map fun j => denseRegister memory p j)) := by
  induction indices generalizing sum with
  | nil => exact (RegisterSum.plus_zero _).symm
  | cons j indices ih =>
      have isZero : hllDenseGetRegister memory p j = 0#64 ↔ denseRegister memory p j = 0 := by
        rw [denseRegister, ← BitVec.toNat_inj]
        rfl
      have step := settle_step sum (denseRegister memory p j)
      simp only [← isZero] at step
      rw [List.foldl_cons, ih, List.map_cons, listSum_cons, ← RegisterSum.plus_assoc, ← step]
      rfl

/-- The generic loop computes what the unrolled one does. -/
theorem hllDenseSumGeneric_eq (memory : Memory) (p : Nat) :
    hllDenseSumGeneric memory p = registerSum fun i => denseRegister memory p i := by
  have total := settle_genericFoldl memory p (List.range 16384) { E := 0, ez := 0 }
  rw [settle_zero, RegisterSum.zero_plus, listSum_range] at total
  exact total

/-! ### The byte array -/

private theorem settle_addRawByte (sum : RegisterSum) (byte : Byte) :
    (addRawByte sum byte).settle =
      sum.settle.plus { E := PE byte.toNat, ez := zeroCount byte.toNat } := by
  have isZero : byte = 0 ↔ byte.toNat = 0 := by
    rw [← BitVec.toNat_inj]
    rfl
  rw [← settle_step, addRawByte]
  simp only [ne_eq, isZero, ite_not]

private theorem settle_foldl (sum : RegisterSum) (bytes : List Byte) :
    (bytes.foldl addRawByte sum).settle = sum.settle.plus (listSum (bytes.map BitVec.toNat)) := by
  induction bytes generalizing sum with
  | nil => exact (RegisterSum.plus_zero _).symm
  | cons byte bytes ih =>
      rw [List.foldl_cons, ih, settle_addRawByte, RegisterSum.plus_assoc, List.map_cons,
        listSum_cons]

/-- The zero-word shortcut counts what the byte-by-byte branch would count. -/
private theorem foldl_addRawByte_zero (sum : RegisterSum) :
    (List.replicate 8 (0 : Byte)).foldl addRawByte sum = { sum with ez := sum.ez + 8 } := by
  simp only [List.replicate, List.foldl_cons, List.foldl_nil, addRawByte, ne_eq,
    not_true_eq_false, if_false, add_assoc]
  rfl

private theorem map_readBytes (memory : Memory) (address count : Nat) :
    (readBytes memory address count).map BitVec.toNat =
      (List.range count).map fun k => (memory (address + k)).toNat := by
  apply List.ext_getElem?
  intro position
  rw [List.getElem?_map, List.getElem?_map]
  by_cases inside : position < count
  · rw [readBytes_apply _ _ _ _ inside, List.getElem?_range inside]
    rfl
  · rw [List.getElem?_eq_none (by rw [readBytes_length]; omega),
      List.getElem?_eq_none (by rw [List.length_range]; omega)]
    rfl

private theorem hllRawSumLoop_eq (memory : Memory) (turns word : Nat) (sum : RegisterSum) :
    (hllRawSumLoop memory turns word sum).settle =
      sum.settle.plus (listSum ((List.range (8 * turns)).map fun k =>
        (memory (word + k)).toNat)) := by
  induction turns generalizing word sum with
  | zero => exact (RegisterSum.plus_zero _).symm
  | succ turns ih =>
      have oneWord : (if readBytes memory word 8 = List.replicate 8 0 then
            { sum with ez := sum.ez + 8 }
          else (readBytes memory word 8).foldl addRawByte sum) =
          (readBytes memory word 8).foldl addRawByte sum := by
        split
        · rename_i zeroWord
          rw [zeroWord, foldl_addRawByte_zero]
        · rfl
      have count : 8 * (turns + 1) = 8 + 8 * turns := by omega
      rw [hllRawSumLoop]
      simp only [oneWord]
      rw [ih, settle_foldl, map_readBytes, RegisterSum.plus_assoc, ← listSum_append, count,
        List.range_add, List.map_append, List.map_map]
      congr 3
      apply List.map_congr_left
      intro k _member
      simp only [Function.comp_apply, Nat.add_assoc]

theorem hllRawSum_eq (memory : Memory) (registers : Nat) :
    hllRawSum memory registers = registerSum fun i => (memory (registers + i)).toNat := by
  have total := hllRawSumLoop_eq memory 2048 registers { E := 0, ez := 0 }
  rw [settle_zero, RegisterSum.zero_plus] at total
  rw [← listSum_range fun i => (memory (registers + i)).toNat]
  exact total

end PhpHll
