/-
Editing a sequence of opcodes.

The sparse add as it acts on the sequence: the opcode that covers a register is
replaced by its split, and neighbouring VAL opcodes of one value are merged.
Both edits keep the number of registers covered; the split sets one register
and the merge none.
-/

import PhpHll.SparseReaders

namespace PhpHll

open ByteMemory

/-! ### Opcodes by run length -/

namespace Opcode

/-- A zero run: XZERO if it is longer than a ZERO can say. -/
def ofZeroRun (len : Nat) : Opcode :=
  if len > hllSparseZeroMaxLen then
    .xzero (BitVec.ofNat 6 ((len - 1) / 256)) (BitVec.ofNat 8 (len - 1))
  else .zero (BitVec.ofNat 6 (len - 1))

def ofVal (val len : Nat) : Opcode := .val (BitVec.ofNat 5 (val - 1)) (BitVec.ofNat 2 (len - 1))

theorem ofZeroRun_value (len : Nat) : (ofZeroRun len).value = 0 := by
  unfold ofZeroRun
  split <;> rfl

theorem ofZeroRun_length (len : Nat) (positive : 1 ≤ len) (covered : len ≤ 16384) :
    (ofZeroRun len).length = len := by
  unfold ofZeroRun
  split
  · simp only [Opcode.length, BitVec.toNat_ofNat]
    omega
  · rename_i short
    unfold hllSparseZeroMaxLen at short
    simp only [Opcode.length, BitVec.toNat_ofNat]
    omega

theorem ofVal_value (val len : Nat) (positive : 1 ≤ val) (small : val ≤ 32) :
    (ofVal val len).value = val := by
  simp only [ofVal, Opcode.value, BitVec.toNat_ofNat]
  omega

theorem ofVal_length (val len : Nat) (positive : 1 ≤ len) (small : len ≤ 4) :
    (ofVal val len).length = len := by
  simp only [ofVal, Opcode.length, BitVec.toNat_ofNat]
  omega

@[simp] theorem ofVal_size (val len : Nat) : (ofVal val len).size = 1 := rfl

end Opcode

private theorem val_set_bytes : ∀ (val : Fin 32) (len : Fin 4),
    hllSparseValSet ((val.val + 1 : Nat) : Int) ((len.val + 1 : Nat) : Int) =
      (Opcode.ofVal (val.val + 1) (len.val + 1)).encode := by decide

private theorem zero_set_bytes : ∀ len : Fin 64,
    hllSparseZeroSet ((len.val + 1 : Nat) : Int) =
      [0#2 ++ BitVec.ofNat 6 len.val] := by decide

private theorem xzero_set_high : ∀ high : Fin 64,
    BitVec.ofInt 8 ((high.val : Nat) : Int) ||| 0x40#8 = 1#2 ++ BitVec.ofNat 6 high.val := by decide

theorem hllSparseValSet_eq (val len : Nat) (valPositive : 1 ≤ val) (valSmall : val ≤ 32)
    (lenPositive : 1 ≤ len) (lenSmall : len ≤ 4) :
    hllSparseValSet val len = (Opcode.ofVal val len).encode := by
  have found := val_set_bytes ⟨val - 1, by omega⟩ ⟨len - 1, by omega⟩
  simpa only [Nat.sub_add_cancel valPositive, Nat.sub_add_cancel lenPositive] using found

theorem hllSparseZeroSet_eq (len : Nat) (positive : 1 ≤ len) (small : len ≤ 64) :
    hllSparseZeroSet len = (Opcode.ofZeroRun len).encode := by
  have found := zero_set_bytes ⟨len - 1, by omega⟩
  have short : ¬len > hllSparseZeroMaxLen := by
    unfold hllSparseZeroMaxLen
    omega
  rw [Nat.sub_add_cancel positive] at found
  rw [Opcode.ofZeroRun, if_neg short, found]
  rfl

theorem hllSparseXzeroSet_eq (len : Nat) (long : 64 < len) (covered : len ≤ 16384) :
    hllSparseXzeroSet len = (Opcode.ofZeroRun len).encode := by
  have high := xzero_set_high ⟨(len - 1) / 256, by omega⟩
  have shifted : ((len : Int) - 1) >>> (8 : Nat) = (((len - 1) / 256 : Nat) : Int) := by
    rw [Int.shiftRight_eq_div_pow]
    omega
  have low : BitVec.ofInt 8 ((len : Int) - 1) = BitVec.ofNat 8 (len - 1) := by
    apply BitVec.eq_of_toNat_eq
    rw [BitVec.toNat_ofInt, BitVec.toNat_ofNat]
    omega
  have isLong : len > hllSparseZeroMaxLen := long
  rw [Opcode.ofZeroRun, if_pos isLong, hllSparseXzeroSet]
  simp only [shifted, low]
  exact congrArg (fun byte => [byte, BitVec.ofNat 8 (len - 1)]) high

/-! ### Splitting -/

namespace Opcode

/-- `len` registers of an opcode as opcodes of their own. -/
def part (opcode : Opcode) (len : Nat) : List Opcode :=
  if len = 0 then []
  else
    match opcode with
    | .val _ _ => [ofVal opcode.value len]
    | _ => [ofZeroRun len]

/-- The split of an opcode: `before` of its registers, one register with the
value `count`, and `after` of its registers. -/
def split (opcode : Opcode) (count before after : Nat) : List Opcode :=
  opcode.part before ++ ofVal count 1 :: opcode.part after

theorem val_length_le (value : BitVec 5) (count : BitVec 2) :
    (Opcode.val value count).length ≤ 4 := by
  have bound := count.isLt
  simp only [Opcode.length]
  omega

theorem length_le (opcode : Opcode) : opcode.length ≤ 16384 := by
  cases opcode with
  | zero count =>
      have bound := count.isLt
      simp only [Opcode.length]
      omega
  | xzero high low =>
      have highBound := high.isLt
      have lowBound := low.isLt
      simp only [Opcode.length]
      omega
  | val value count => exact Nat.le_trans (val_length_le value count) (by decide)

end Opcode

@[simp] theorem expandAll_nil : expandAll [] = [] := rfl

@[simp] theorem expandAll_cons (opcode : Opcode) (opcodes : List Opcode) :
    expandAll (opcode :: opcodes) =
      List.replicate opcode.length opcode.value ++ expandAll opcodes := by
  simp [expandAll, Opcode.run]

@[simp] theorem expandAll_append (first second : List Opcode) :
    expandAll (first ++ second) = expandAll first ++ expandAll second := by
  simp [expandAll]

theorem expandAll_singleton (opcode : Opcode) :
    expandAll [opcode] = List.replicate opcode.length opcode.value := by
  rw [expandAll_cons, expandAll_nil, List.append_nil]

theorem Opcode.expandAll_part (opcode : Opcode) (len : Nat) (inside : len ≤ opcode.length) :
    expandAll (opcode.part len) = List.replicate len opcode.value := by
  unfold Opcode.part
  by_cases empty : len = 0
  · rw [if_pos empty, empty]
    rfl
  · have positive : 1 ≤ len := Nat.one_le_iff_ne_zero.mpr empty
    have covered := Nat.le_trans inside opcode.length_le
    rw [if_neg empty]
    cases opcode with
    | zero count =>
        rw [expandAll_singleton, ofZeroRun_value, ofZeroRun_length len positive covered]
        rfl
    | xzero high low =>
        rw [expandAll_singleton, ofZeroRun_value, ofZeroRun_length len positive covered]
        rfl
    | val value count =>
        have short := Nat.le_trans inside (Opcode.val_length_le value count)
        have valued := ofVal_value (Opcode.val value count).value len (Nat.succ_pos _)
          (Opcode.val value count).value_le
        rw [expandAll_singleton, valued, ofVal_length _ len positive short]

theorem Opcode.sizeAll_part_le (opcode : Opcode) (len : Nat) (inside : len ≤ opcode.length) :
    sizeAll (opcode.part len) ≤ opcode.size := by
  unfold Opcode.part
  split
  · exact Nat.zero_le _
  · cases opcode with
    | zero count =>
        have bound := count.isLt
        have short : ¬len > hllSparseZeroMaxLen := by
          simp only [Opcode.length] at inside
          unfold hllSparseZeroMaxLen
          omega
        simp only [Opcode.ofZeroRun, if_neg short]
        exact Nat.le_refl 1
    | xzero high low => exact Opcode.size_le _
    | val value count => exact Nat.le_refl 1

theorem Opcode.sizeAll_split_bounds (opcode : Opcode) (count before after : Nat)
    (beforeInside : before ≤ opcode.length) (afterInside : after ≤ opcode.length) :
    1 ≤ sizeAll (opcode.split count before after) ∧
      sizeAll (opcode.split count before after) ≤ opcode.size + 3 := by
  have beforeSize := opcode.sizeAll_part_le before beforeInside
  have afterSize := opcode.sizeAll_part_le after afterInside
  have short := opcode.size_le
  rw [Opcode.split, sizeAll_append, sizeAll_cons, Opcode.ofVal_size]
  omega

/-- Replacing the covering opcode by its split sets one register. -/
theorem expandAll_split (before after : List Opcode) (opcode : Opcode) (count index : Nat)
    (positive : 1 ≤ count) (small : count ≤ 32) (lower : lengthAll before ≤ index)
    (upper : index < lengthAll before + opcode.length) :
    expandAll (before ++ opcode.split count (index - lengthAll before)
        (lengthAll before + opcode.length - 1 - index) ++ after) =
      (expandAll (before ++ opcode :: after)).set index count := by
  have edited := RunLength.expand_split (before.map Opcode.run) (after.map Opcode.run) opcode.run
    count index lower upper
  simp only [RunLength.expand_append, RunLength.expand_cons] at edited
  rw [Opcode.split, expandAll_append, expandAll_append, expandAll_append, expandAll_cons,
    opcode.expandAll_part _ (by omega), opcode.expandAll_part _ (by omega),
    Opcode.ofVal_value _ _ positive small, Opcode.ofVal_length _ _ (by omega) (by omega),
    expandAll_append, expandAll_cons]
  simp only [List.append_assoc]
  exact edited

/-! ### Merging neighbours -/

/-- The VAL opcode that two neighbouring VAL opcodes can be merged into. -/
def Opcode.merge : Opcode → Opcode → Option Opcode
  | .val value count, .val value' count' =>
      if value = value' ∧ (Opcode.val value count).length + (Opcode.val value' count').length ≤
          hllSparseValMaxLen then
        some (Opcode.ofVal (Opcode.val value count).value
          ((Opcode.val value count).length + (Opcode.val value' count').length))
      else none
  | _, _ => none

theorem Opcode.val_value_eq_iff (value value' : BitVec 5) (count count' : BitVec 2) :
    (Opcode.val value count).value = (Opcode.val value' count').value ↔ value = value' := by
  simp only [Opcode.value, Nat.add_right_cancel_iff, BitVec.toNat_inj]

/-- The scan of step 4 over at most `scanlen` opcodes. -/
def mergeOpcodes : Nat → List Opcode → List Opcode
  | 0, opcodes => opcodes
  | _ + 1, [] => []
  | _ + 1, [opcode] => [opcode]
  | scanlen + 1, first :: second :: rest =>
      match first.merge second with
      | some merged => mergeOpcodes scanlen (merged :: rest)
      | none => first :: mergeOpcodes scanlen (second :: rest)

theorem Opcode.merge_some (first second merged : Opcode) (can : first.merge second = some merged) :
    merged.value = first.value ∧ second.value = first.value ∧
      merged.length = first.length + second.length := by
  cases first with
  | zero count => cases can
  | xzero high low => cases can
  | val value count =>
      cases second with
      | zero count => cases can
      | xzero high low => cases can
      | val value' count' =>
          rw [Opcode.merge] at can
          split at can
          · rename_i fits
            obtain ⟨sameValue, short⟩ := fits
            rw [← Option.some.inj can, sameValue]
            refine ⟨?_, rfl, ?_⟩
            · exact Opcode.ofVal_value _ _ (Nat.succ_pos _) (Opcode.val value' count').value_le
            · exact Opcode.ofVal_length _ _ (Nat.le_trans (Opcode.length_pos _)
                (Nat.le_add_right _ _)) (sameValue ▸ short)
          · cases can

theorem expandAll_mergeOpcodes (scanlen : Nat) (opcodes : List Opcode) :
    expandAll (mergeOpcodes scanlen opcodes) = expandAll opcodes := by
  fun_induction mergeOpcodes scanlen opcodes with
  | case1 opcodes => rfl
  | case2 scanlen => rfl
  | case3 scanlen opcode => rfl
  | case4 scanlen first second rest merged can ih =>
      obtain ⟨value, secondValue, length⟩ := first.merge_some second merged can
      rw [ih, expandAll_cons, expandAll_cons, expandAll_cons, value, secondValue, length,
        List.replicate_add, List.append_assoc]
  | case5 scanlen first second rest cannot ih =>
      rw [expandAll_cons, ih, ← expandAll_cons]

theorem sizeAll_mergeOpcodes (scanlen : Nat) (opcodes : List Opcode) :
    sizeAll (mergeOpcodes scanlen opcodes) ≤ sizeAll opcodes := by
  fun_induction mergeOpcodes scanlen opcodes with
  | case1 opcodes => exact Nat.le_refl _
  | case2 scanlen => exact Nat.le_refl _
  | case3 scanlen opcode => exact Nat.le_refl _
  | case4 scanlen first second rest merged can ih =>
      have single : merged.size = 1 := by
        cases first <;> cases second <;> simp only [Opcode.merge, reduceCtorEq] at can
        split at can
        · rw [← Option.some.inj can, Opcode.ofVal_size]
        · cases can
      have positive := first.size_pos
      simp only [sizeAll_cons] at ih ⊢
      omega
  | case5 scanlen first second rest cannot ih =>
      simp only [sizeAll_cons] at ih ⊢
      omega

theorem mergeOpcodes_nil (scanlen : Nat) : mergeOpcodes scanlen [] = [] := by
  cases scanlen <;> rfl

theorem mergeOpcodes_skip (scanlen : Nat) (opcode : Opcode) (rest : List Opcode)
    (apart : ∀ second ∈ rest.head?, opcode.merge second = none) :
    mergeOpcodes (scanlen + 1) (opcode :: rest) = opcode :: mergeOpcodes scanlen rest := by
  cases rest with
  | nil => rw [mergeOpcodes, mergeOpcodes_nil]
  | cons second rest => rw [mergeOpcodes, apart second rfl]

/-- The sequence after an add that raises the register `index`, which `opcode`
covers after the sequence `before`.  The merge starts one opcode earlier. -/
def addOpcodes (before after : List Opcode) (opcode : Opcode) (count index : Nat) : List Opcode :=
  before.take (before.length - 1) ++
    mergeOpcodes 5 (before.drop (before.length - 1) ++
      opcode.split count (index - lengthAll before)
        (lengthAll before + opcode.length - 1 - index) ++ after)

theorem expandAll_addOpcodes (before after : List Opcode) (opcode : Opcode) (count index : Nat)
    (positive : 1 ≤ count) (small : count ≤ 32) (lower : lengthAll before ≤ index)
    (upper : index < lengthAll before + opcode.length) :
    expandAll (addOpcodes before after opcode count index) =
      (expandAll (before ++ opcode :: after)).set index count := by
  rw [addOpcodes, expandAll_append, expandAll_mergeOpcodes, ← expandAll_append,
    ← List.append_assoc, ← List.append_assoc, List.take_append_drop]
  exact expandAll_split before after opcode count index positive small lower upper

theorem lengthAll_addOpcodes (before after : List Opcode) (opcode : Opcode) (count index : Nat)
    (positive : 1 ≤ count) (small : count ≤ 32) (lower : lengthAll before ≤ index)
    (upper : index < lengthAll before + opcode.length) :
    lengthAll (addOpcodes before after opcode count index) =
      lengthAll (before ++ opcode :: after) := by
  rw [← expandAll_length,
    expandAll_addOpcodes before after opcode count index positive small lower upper,
    List.length_set, expandAll_length]

theorem sizeAll_addOpcodes_le (before after : List Opcode) (opcode : Opcode) (count index : Nat) :
    sizeAll (addOpcodes before after opcode count index) ≤
      sizeAll before + sizeAll (opcode.split count (index - lengthAll before)
        (lengthAll before + opcode.length - 1 - index)) + sizeAll after := by
  have merged := sizeAll_mergeOpcodes 5 (before.drop (before.length - 1) ++
    opcode.split count (index - lengthAll before)
      (lengthAll before + opcode.length - 1 - index) ++ after)
  have parts := sizeAll_append (before.take (before.length - 1)) (before.drop (before.length - 1))
  rw [List.take_append_drop] at parts
  rw [sizeAll_append, sizeAll_append] at merged
  rw [addOpcodes, sizeAll_append]
  omega

end PhpHll
