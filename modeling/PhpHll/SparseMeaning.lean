/-
What the readers compute on a payload in the sparse format.

The registers of an object are read through its encoding.  On a payload that
covers no more than the register array, promotion writes these registers into
the dense string, the sum is their sum, and a merge raises the array to them.
-/

import Mathlib.Data.List.GetD
import PhpHll.SparseReaders

namespace PhpHll

open ByteMemory

/-- The registers of an object, through its current encoding. -/
def registers (o : Robj) (i : Fin 16384) : Nat :=
  if encoding o.ptr.buf = hllDense then denseRegister o.ptr.buf hllHdrSize i
  else (expandAll (payloadOpcodes o.ptr)).getD i 0

theorem registers_of_dense (o : Robj) (dense : encoding o.ptr.buf = hllDense) (i : Fin 16384) :
    registers o i = denseRegister o.ptr.buf hllHdrSize i := if_pos dense

theorem registers_of_sparse (o : Robj) (sparse : encoding o.ptr.buf ≠ hllDense) (i : Fin 16384) :
    registers o i = (expandAll (payloadOpcodes o.ptr)).getD i 0 := if_neg sparse

def SparsePayload (s : Sds) : Prop :=
  SparseFormat (readBytes s.buf hllHdrSize (s.len - hllHdrSize))

instance (s : Sds) : Decidable (SparsePayload s) :=
  inferInstanceAs (Decidable (SparseFormat (readBytes s.buf hllHdrSize (s.len - hllHdrSize))))

theorem sparsePayload_iff (s : Sds) (long : hllHdrSize ≤ s.len) :
    SparsePayload s ↔
      hllHdrSize + sizeAll (payloadOpcodes s) = s.len ∧
        lengthAll (payloadOpcodes s) = 16384 := by
  have finish : hllHdrSize + (s.len - hllHdrSize) = s.len := Nat.add_sub_cancel' long
  rw [SparsePayload, sparseFormat_iff, finish, payloadOpcodes]
  constructor
  · rintro ⟨sized, covered⟩
    exact ⟨by omega, covered⟩
  · rintro ⟨sized, covered⟩
    exact ⟨by omega, covered⟩

theorem SparsePayload.long {s : Sds} (valid : SparsePayload s) : hllHdrSize ≤ s.len := by
  by_contra short
  have none : s.len - hllHdrSize = 0 := by omega
  rw [SparsePayload, none, sparseFormat_iff, opcodesFrom_done _ _ _ (by omega)] at valid
  exact absurd valid.2 (by decide)

theorem SparsePayload.sized {s : Sds} (valid : SparsePayload s) :
    hllHdrSize + sizeAll (payloadOpcodes s) = s.len :=
  ((sparsePayload_iff s valid.long).mp valid).1

theorem SparsePayload.covered {s : Sds} (valid : SparsePayload s) :
    lengthAll (payloadOpcodes s) = 16384 :=
  ((sparsePayload_iff s valid.long).mp valid).2

theorem payloadOpcodes_makeRoom (s : Sds) (addlen : Nat) :
    payloadOpcodes (sdsMakeRoomFor s addlen) = payloadOpcodes s := by
  rw [payloadOpcodes, sdsMakeRoomFor_buf, sdsMakeRoomFor_len, payloadOpcodes]

theorem registers_makeRoom (o : Robj) (addlen : Nat) :
    registers { ptr := sdsMakeRoomFor o.ptr addlen } = registers o := by
  funext i
  simp only [registers, sdsMakeRoomFor_buf, payloadOpcodes_makeRoom]

/-! ### Reading a sequence into an array -/

/-- How the accesses of a cursor act on the values read from its array: an
access combines a value of at least 1 with the one it meets, and meets no other. -/
structure ArrayAccess (write : Memory → Nat → Nat → Memory) (read : Memory → Nat → Nat)
    (combine : Nat → Nat → Nat) : Prop where
  same : ∀ array i regval, i < 16384 → 0 < regval → regval ≤ 32 →
    read (write array i regval) i = combine (read array i) regval
  other : ∀ array i j regval, i < 16384 → regval ≤ 32 → i ≠ j →
    read (write array i regval) j = read array j
  idle : ∀ old, combine old 0 = old

section Cursor

variable {write : Memory → Nat → Nat → Memory} {read : Memory → Nat → Nat}
  {combine : Nat → Nat → Nat}

private theorem iterate_put_read (access : ArrayAccess write read combine)
    (regval count start : Nat) (cursor : RegisterCursor) (here : cursor.idx = start)
    (fits : start + count ≤ 16384) (positive : 0 < regval) (small : regval ≤ 32) :
    ((RegisterCursor.put write regval)^[count] cursor).idx = (start + count : Nat) ∧
      ∀ j, read ((RegisterCursor.put write regval)^[count] cursor).array j =
        if start ≤ j ∧ j < start + count then combine (read cursor.array j) regval
        else read cursor.array j := by
  induction count with
  | zero =>
      refine ⟨here, fun j => ?_⟩
      rw [if_neg (by omega)]
      rfl
  | succ count ih =>
      obtain ⟨idxEq, readEq⟩ := ih (by omega)
      rw [Function.iterate_succ_apply']
      refine ⟨?_, fun j => ?_⟩
      · rw [RegisterCursor.put, idxEq]
        exact int32_of_small _ (by omega) (by omega)
      · have inside : (0 : Int) ≤ (start + count : Nat) ∧
            ((start + count : Nat) : Int) < hllRegisters := by
          rw [hllRegisters_eq]
          omega
        rw [RegisterCursor.put, idxEq]
        simp only [if_pos inside, Int.toNat_natCast]
        by_cases here : j = start + count
        · subst here
          rw [access.same _ _ _ (by omega) positive small, readEq, if_neg (by omega),
            if_pos (by omega)]
        · rw [access.other _ _ _ _ (by omega) small (Ne.symm here), readEq]
          by_cases earlier : start ≤ j ∧ j < start + count
          · rw [if_pos earlier, if_pos (by omega)]
          · rw [if_neg earlier, if_neg (by omega)]

/-- The step lemma: one opcode combines its value into the registers it covers. -/
private theorem registerReader_apply_read (access : ArrayAccess write read combine)
    (opcode : Opcode) (start : Nat) (cursor : RegisterCursor) (here : cursor.idx = start)
    (fits : start + opcode.length ≤ 16384) :
    ((registerReader write).apply cursor opcode).idx = (start + opcode.length : Nat) ∧
      ∀ j, read ((registerReader write).apply cursor opcode).array j =
        if start ≤ j ∧ j < start + opcode.length then combine (read cursor.array j) opcode.value
        else read cursor.array j := by
  have skip (count : Nat) (inRange : start + count ≤ 16384) :
      int32 (cursor.idx + count) = (start + count : Nat) := by
    rw [here]
    exact int32_of_small _ (by omega) (by omega)
  cases opcode with
  | zero count =>
      refine ⟨skip _ fits, fun j => ?_⟩
      simp only [SparseReader.apply, registerReader, Opcode.value, access.idle, ite_self]
  | xzero high low =>
      refine ⟨skip _ fits, fun j => ?_⟩
      simp only [SparseReader.apply, registerReader, Opcode.value, access.idle, ite_self]
  | val value count =>
      exact iterate_put_read access _ _ start cursor here fits (Nat.succ_pos _)
        (Opcode.val value count).value_le

/-- The run lemma: a sequence combines its expansion into the array, register
by register, from the running index on. -/
theorem registerReader_read (access : ArrayAccess write read combine) (opcodes : List Opcode)
    (start : Nat) (cursor : RegisterCursor) (here : cursor.idx = start)
    (fits : start + lengthAll opcodes ≤ 16384) (j : Nat) :
    read (opcodes.foldl (registerReader write).apply cursor).array j =
      if start ≤ j then combine (read cursor.array j) ((expandAll opcodes).getD (j - start) 0)
      else read cursor.array j := by
  induction opcodes generalizing start cursor with
  | nil =>
      simp only [List.foldl_nil, expandAll, List.map_nil, RunLength.expand_nil, List.getD_nil,
        access.idle, ite_self]
  | cons opcode opcodes ih =>
      rw [lengthAll_cons] at fits
      obtain ⟨idxEq, readEq⟩ :=
        registerReader_apply_read access opcode start cursor here (by omega)
      rw [List.foldl_cons, ih _ _ idxEq (by omega), readEq]
      have expanded : expandAll (opcode :: opcodes) =
          List.replicate opcode.length opcode.value ++ expandAll opcodes := by
        simp only [expandAll, List.map_cons, RunLength.expand_cons, Opcode.run]
      rw [expanded]
      by_cases before : start ≤ j
      · rw [if_pos before]
        by_cases covered : j < start + opcode.length
        · have inside : j - start < opcode.length := by omega
          have inRun : j - start < (List.replicate opcode.length opcode.value).length := by
            rwa [List.length_replicate]
          rw [if_neg (by omega), if_pos ⟨before, covered⟩, List.getD_append _ _ _ _ inRun,
            List.getD_replicate _ inside]
        · have pastRun : (List.replicate opcode.length opcode.value).length ≤ j - start := by
            rw [List.length_replicate]
            omega
          rw [if_pos (by omega), if_neg (by omega), List.getD_append_right _ _ _ _ pastRun,
            List.length_replicate, Nat.sub_sub]
      · rw [if_neg before, if_neg (by omega), if_neg (by omega)]

end Cursor

theorem registerReader_invariant (write : Memory → Nat → Nat → Memory) (Invariant : Memory → Prop)
    (kept : ∀ array i regval, i < 16384 → regval ≤ 32 → Invariant array →
      Invariant (write array i regval))
    (opcodes : List Opcode) (cursor : RegisterCursor) (initial : Invariant cursor.array) :
    Invariant (opcodes.foldl (registerReader write).apply cursor).array := by
  have turn (regval : Nat) (small : regval ≤ 32) (count : Nat) (cursor : RegisterCursor)
      (holds : Invariant cursor.array) :
      Invariant ((RegisterCursor.put write regval)^[count] cursor).array := by
    induction count with
    | zero => exact holds
    | succ count ih =>
        rw [Function.iterate_succ_apply', RegisterCursor.put]
        split
        · rename_i inside
          rw [hllRegisters_eq] at inside
          exact kept _ _ _ (by omega) small ih
        · exact ih
  induction opcodes generalizing cursor with
  | nil => exact initial
  | cons opcode opcodes ih =>
      apply ih
      cases opcode with
      | zero count => exact initial
      | xzero high low => exact initial
      | val value count => exact turn _ (Opcode.val value count).value_le _ cursor initial

/-- A reader that writes the same in a changed array leaves that array changed
in the same way. -/
theorem registerReader_map (write : Memory → Nat → Nat → Memory) (change : Memory → Memory)
    (commutes : ∀ array i regval, write (change array) i regval = change (write array i regval))
    (opcodes : List Opcode) (cursor : RegisterCursor) :
    opcodes.foldl (registerReader write).apply { cursor with array := change cursor.array } =
      { opcodes.foldl (registerReader write).apply cursor with
        array := change (opcodes.foldl (registerReader write).apply cursor).array } := by
  have turn (regval count : Nat) (cursor : RegisterCursor) :
      (RegisterCursor.put write regval)^[count] { cursor with array := change cursor.array } =
        { (RegisterCursor.put write regval)^[count] cursor with
          array := change ((RegisterCursor.put write regval)^[count] cursor).array } := by
    induction count generalizing cursor with
    | zero => rfl
    | succ count ih =>
        have put : RegisterCursor.put write regval { cursor with array := change cursor.array } =
            { RegisterCursor.put write regval cursor with
              array := change (RegisterCursor.put write regval cursor).array } := by
          simp only [RegisterCursor.put, commutes]
          split <;> rfl
        rw [Function.iterate_succ_apply, Function.iterate_succ_apply, put, ih]
  induction opcodes generalizing cursor with
  | nil => rfl
  | cons opcode opcodes ih =>
      have step : (registerReader write).apply { cursor with array := change cursor.array } opcode =
          { (registerReader write).apply cursor opcode with
            array := change ((registerReader write).apply cursor opcode).array } := by
        cases opcode with
        | zero count => rfl
        | xzero high low => rfl
        | val value count => exact turn _ _ cursor
      rw [List.foldl_cons, List.foldl_cons, step, ih]

/-! ### Promotion -/

private theorem denseAccess : ArrayAccess denseWrite
    (fun dense regnum => denseRegister dense hllHdrSize regnum)
    (fun old regval => if regval = 0 then old else regval) :=
  { same := by
      intro dense idx regval _valid positive small
      have exact : (BitVec.ofNat 64 regval).toNat = regval := by
        rw [BitVec.toNat_ofNat, Nat.mod_eq_of_lt (by omega)]
      rw [denseWrite, denseRegister_set_same _ _ _ _ (by rw [exact]; omega), exact,
        if_neg (by omega)]
    other := by
      intro dense idx j regval _valid small different
      have exact : (BitVec.ofNat 64 regval).toNat = regval := by
        rw [BitVec.toNat_ofNat, Nat.mod_eq_of_lt (by omega)]
      rw [denseWrite, denseRegister_set_other _ _ _ _ _ (by rw [exact]; omega) different]
    idle := fun _ => if_pos rfl }

private theorem denseRegister_zero (p regnum : Nat) : denseRegister (fun _ => 0) p regnum = 0 := by
  simp [denseRegister, hllDenseGetRegister]

theorem denseHeader_header (env : Env) (sparse : Sds) (offset : Nat) (inside : offset < 16) :
    denseHeader env sparse offset = if offset = 4 then hllDense else sparse.buf offset := by
  unfold denseHeader setEncoding store
  split
  · rfl
  · have within : 0 ≤ offset ∧ offset < 0 + (readBytes sparse.buf 0 hllHdrSize).length := by
      rw [readBytes_length, hllHdrSize]
      omega
    have found := readBytes_apply sparse.buf 0 hllHdrSize offset inside
    rw [memcpy, if_pos within, Nat.sub_zero, List.getD_eq_getElem?_getD, found,
      Option.getD_some, Nat.zero_add]

theorem denseHeader_area (env : Env) (sparse : Sds) (offset : Nat) (lower : 16 ≤ offset)
    (upper : offset ≤ 12304) : denseHeader env sparse offset = 0 := by
  unfold denseHeader setEncoding
  rw [store_other _ _ _ _ (by omega),
    memcpy_above _ _ _ _ (by rw [readBytes_length, hllHdrSize]; omega)]
  simp only [sdsnewlenZero, hllDenseSize_eq]
  exact if_pos upper

/-- Promotion leaves the header of the new string and its terminator alone. -/
theorem denseFill_outside (env : Env) (sparse : Sds) (offset : Nat)
    (outside : offset < 16 ∨ 12304 ≤ offset) :
    (denseFill env sparse).array offset = denseHeader env sparse offset := by
  rw [denseFill, SparseReader.loop_payload]
  apply registerReader_invariant denseWrite
    (fun dense => dense offset = denseHeader env sparse offset)
  · intro dense i regval valid small unchanged
    have exact : (BitVec.ofNat 64 regval).toNat = regval := by
      rw [BitVec.toNat_ofNat, Nat.mod_eq_of_lt (by omega)]
    rw [denseWrite, hllDenseSetRegister_outside _ _ _ _ (by rw [exact]; omega) valid _
      (by rw [hllHdrSize]; omega), unchanged]
  · rfl

theorem denseFill_register (env : Env) (sparse : Sds)
    (fits : lengthAll (payloadOpcodes sparse) ≤ 16384) (j : Nat) (valid : j < 16384) :
    denseRegister (denseFill env sparse).array hllHdrSize j =
      (expandAll (payloadOpcodes sparse)).getD j 0 := by
  have initial : denseRegister (denseHeader env sparse) hllHdrSize j = 0 := by
    rw [← denseRegister_zero hllHdrSize j]
    apply denseRegister_eq_of_area _ _ _ _ valid
    intro offset lower upper
    rw [hllHdrSize] at lower upper
    exact denseHeader_area env sparse offset (by omega) (by omega)
  rw [denseFill, SparseReader.loop_payload]
  have filled := registerReader_read denseAccess (payloadOpcodes sparse) 0
    { idx := 0, array := denseHeader env sparse, touched := [] } rfl (by omega) j
  simp only [Nat.zero_le, if_true, Nat.sub_zero, initial] at filled
  rw [filled]
  split
  · rename_i isZero
    exact isZero.symm
  · rfl

def promoted (env : Env) (s : Sds) : Robj :=
  { ptr := { sdsnewlenZero env hllDenseSize with buf := (denseFill env s).array } }

theorem hllSparseToDense_dense (env : Env) (o : Robj) (dense : encoding o.ptr.buf = hllDense) :
    hllSparseToDense env o = (cOk, o) := if_pos dense

/-- The loop of a promotion also ends well when the registers covered exceed
16384 by a multiple of `2 ^ 32`. -/
theorem hllSparseToDense_wrapped (env : Env) (o : Robj) (sparse : encoding o.ptr.buf ≠ hllDense)
    (wrapped : lengthAll (payloadOpcodes o.ptr) % 2 ^ 32 = 16384) :
    hllSparseToDense env o = (cOk, promoted env o.ptr) := by
  have idxEq : (denseFill env o.ptr).idx = hllRegisters := by
    rw [denseFill_idx, int32_eq_registers_iff]
    exact wrapped
  rw [hllSparseToDense, if_neg sparse]
  simp only [idxEq, ne_eq, not_true_eq_false, if_false]
  rfl

theorem hllSparseToDense_sparse (env : Env) (o : Robj) (sparse : encoding o.ptr.buf ≠ hllDense)
    (covered : lengthAll (payloadOpcodes o.ptr) = 16384) :
    hllSparseToDense env o = (cOk, promoted env o.ptr) :=
  hllSparseToDense_wrapped env o sparse (by omega)

theorem promoted_len (env : Env) (s : Sds) : (promoted env s).ptr.len = 12304 := rfl

theorem promoted_encoding (env : Env) (s : Sds) :
    encoding (promoted env s).ptr.buf = hllDense := by
  change (denseFill env s).array 4 = hllDense
  rw [denseFill_outside _ _ _ (Or.inl (by omega)), denseHeader_header _ _ _ (by omega), if_pos rfl]

/-- The rest of the header is copied, cached cardinality and its validity bit
included. -/
theorem promoted_header (env : Env) (s : Sds) (offset : Nat) (inside : offset < 16)
    (other : offset ≠ 4) : (promoted env s).ptr.buf offset = s.buf offset := by
  change (denseFill env s).array offset = s.buf offset
  rw [denseFill_outside _ _ _ (Or.inl inside), denseHeader_header _ _ _ inside, if_neg other]

theorem promoted_terminated (env : Env) (s : Sds) : (promoted env s).ptr.buf 12304 = 0 := by
  change (denseFill env s).array 12304 = 0
  rw [denseFill_outside _ _ _ (Or.inr (Nat.le_refl _)),
    denseHeader_area _ _ _ (by omega) (Nat.le_refl _)]

theorem promoted_makeRoom (env : Env) (s : Sds) (addlen : Nat) :
    promoted env (sdsMakeRoomFor s addlen) = promoted env s := by
  simp only [promoted, denseFill, denseHeader, sdsMakeRoomFor_buf, sdsMakeRoomFor_len]

theorem registers_promoted (env : Env) (o : Robj) (sparse : encoding o.ptr.buf ≠ hllDense)
    (covered : lengthAll (payloadOpcodes o.ptr) = 16384) :
    registers (promoted env o.ptr) = registers o := by
  funext i
  rw [registers, if_pos (promoted_encoding env o.ptr), registers, if_neg sparse]
  exact denseFill_register env o.ptr (Nat.le_of_eq covered) i i.isLt

/-! ### Merging -/

private theorem maxAccess (base : Nat) : ArrayAccess (maxWrite base)
    (fun array j => (array (base + j)).toNat) max :=
  { same := by
      intro array i regval _valid _positive small
      unfold maxWrite
      split
      · rename_i less
        simp only [store_same, BitVec.toNat_ofNat]
        omega
      · omega
    other := by
      intro array i j regval _valid _small different
      unfold maxWrite
      split
      · rw [store_other _ _ _ _ (by omega)]
      · rfl
    idle := fun old => Nat.max_zero old }

theorem mergeFill_register (array : Memory) (base : Nat) (hll : Robj)
    (fits : lengthAll (payloadOpcodes hll.ptr) ≤ 16384) (j : Nat) :
    ((mergeFill array base hll).array (base + j)).toNat =
      max (array (base + j)).toNat ((expandAll (payloadOpcodes hll.ptr)).getD j 0) := by
  rw [mergeFill, SparseReader.loop_payload]
  have filled := registerReader_read (maxAccess base) (payloadOpcodes hll.ptr) 0
    { idx := 0, array := array, touched := [] } rfl (by omega) j
  simpa only [Nat.zero_le, if_true, Nat.sub_zero] using filled

theorem mergeFill_outside (array : Memory) (base : Nat) (hll : Robj) (offset : Nat)
    (outside : offset < base ∨ base + 16384 ≤ offset) :
    (mergeFill array base hll).array offset = array offset := by
  rw [mergeFill, SparseReader.loop_payload]
  apply registerReader_invariant (maxWrite base) (fun current => current offset = array offset)
  · intro current i regval valid _small unchanged
    unfold maxWrite
    split
    · rw [store_other _ _ _ _ (by omega), unchanged]
    · exact unchanged
  · rfl

private theorem mergeRegister_apply (base : Nat) (hdr array : Memory) (i offset : Nat) :
    (mergeRegister base hdr array i offset).toNat =
      if offset = base + i then max (array offset).toNat (denseRegister hdr hllHdrSize i)
      else (array offset).toNat := by
  have small := denseRegister_lt hdr hllHdrSize i
  have valEq : ((hllDenseGetRegister hdr hllHdrSize i).setWidth 8).toNat =
      denseRegister hdr hllHdrSize i := by
    rw [BitVec.toNat_setWidth]
    exact Nat.mod_eq_of_lt (Nat.lt_trans small (by decide))
  simp only [mergeRegister, BitVec.lt_def, valEq]
  by_cases here : offset = base + i
  · subst here
    rw [if_pos rfl]
    split
    · rw [store_same, valEq]
      omega
    · omega
  · rw [if_neg here]
    split
    · rw [store_other _ _ _ _ here]
    · rfl

private theorem foldl_mergeRegister (base : Nat) (hdr array : Memory) (count offset : Nat) :
    ((List.range count).foldl (mergeRegister base hdr) array offset).toNat =
      if base ≤ offset ∧ offset < base + count then
        max (array offset).toNat (denseRegister hdr hllHdrSize (offset - base))
      else (array offset).toNat := by
  induction count with
  | zero =>
      rw [if_neg (by omega)]
      rfl
  | succ count ih =>
      rw [List.range_succ, List.foldl_append, List.foldl_cons, List.foldl_nil,
        mergeRegister_apply, ih]
      by_cases here : offset = base + count
      · subst here
        rw [if_pos rfl, if_neg (by omega), if_pos (by omega), Nat.add_sub_cancel_left]
      · rw [if_neg here]
        by_cases earlier : base ≤ offset ∧ offset < base + count
        · rw [if_pos earlier, if_pos (by omega)]
        · rw [if_neg earlier, if_neg (by omega)]

theorem hllMergeDense_apply (array : Memory) (base : Nat) (hdr : Memory) (offset : Nat) :
    (hllMergeDense array base hdr offset).toNat =
      if base ≤ offset ∧ offset < base + 16384 then
        max (array offset).toNat (denseRegister hdr hllHdrSize (offset - base))
      else (array offset).toNat := by
  rw [hllMergeDense, foldl_mergeRegister, hllRegisters_eq]

/-- An object whose payload, if it is sparse, covers exactly the register array. -/
def Readable (o : Robj) : Prop :=
  encoding o.ptr.buf = hllDense ∨ lengthAll (payloadOpcodes o.ptr) = 16384

theorem hllMerge_spec (array : Memory) (base : Nat) (hll : Robj) (readable : Readable hll) :
    (hllMerge array base hll).1 = cOk ∧
      (∀ i : Fin 16384, ((hllMerge array base hll).2 (base + i)).toNat =
        max (array (base + i)).toNat (registers hll i)) ∧
      ∀ offset, offset < base ∨ base + 16384 ≤ offset →
        (hllMerge array base hll).2 offset = array offset := by
  by_cases dense : encoding hll.ptr.buf = hllDense
  · rw [hllMerge, if_pos dense]
    refine ⟨rfl, fun i => ?_, fun offset outside => ?_⟩
    · rw [hllMergeDense_apply, if_pos (by omega), Nat.add_sub_cancel_left, registers,
        if_pos dense]
    · apply BitVec.eq_of_toNat_eq
      rw [hllMergeDense_apply, if_neg (by omega)]
  · have covered := readable.resolve_left dense
    have idxEq : (mergeFill array base hll).idx = hllRegisters := by
      rw [mergeFill_idx, int32_eq_registers_iff]
      omega
    rw [hllMerge, if_neg dense]
    simp only [idxEq, ne_eq, not_true_eq_false, if_false]
    refine ⟨trivial, fun i => ?_, fun offset outside => ?_⟩
    · rw [mergeFill_register array base hll (by omega), registers, if_neg dense]
    · exact mergeFill_outside array base hll offset outside

/-! ### The sparse sum -/

private theorem listSum_replicate (count reg : Nat) :
    listSum (List.replicate count reg) =
      { E := count * PE reg
        ez := count * zeroCount reg } := by
  simp only [listSum, List.map_replicate, List.sum_replicate, nsmul_eq_mul]

/-- The invariant of the sum: zero registers are counted in `ez` and stay out
of `E`. -/
private theorem sumReader_foldl (opcodes : List Opcode) (total : SparseTotal) (zeros : Int)
    (here : total.ez = int32 zeros) :
    (opcodes.foldl sumReader.apply total).ez = int32 (zeros + (listSum (expandAll opcodes)).ez) ∧
      (opcodes.foldl sumReader.apply total).E =
        total.E + (listSum (expandAll opcodes)).E - (listSum (expandAll opcodes)).ez := by
  induction opcodes generalizing total zeros with
  | nil => simpa [expandAll, listSum] using here
  | cons opcode opcodes ih =>
      have expanded : listSum (expandAll (opcode :: opcodes)) =
          RegisterSum.plus
            { E := opcode.length * PE opcode.value
              ez := opcode.length * zeroCount opcode.value }
            (listSum (expandAll opcodes)) := by
        rw [← listSum_replicate, ← listSum_append]
        simp only [expandAll, List.map_cons, RunLength.expand_cons, Opcode.run]
      have step : (sumReader.apply total opcode).ez =
            int32 (zeros + opcode.length * zeroCount opcode.value) ∧
          (sumReader.apply total opcode).E =
            total.E + opcode.length * PE opcode.value -
              (opcode.length * zeroCount opcode.value : Int) := by
        cases opcode with
        | zero count =>
            constructor
            · simp [SparseReader.apply, sumReader, here, int32_add, Opcode.value, zeroCount]
            · simp [SparseReader.apply, sumReader, Opcode.value, zeroCount, PE]
        | xzero high low =>
            constructor
            · simp [SparseReader.apply, sumReader, here, int32_add, Opcode.value, zeroCount]
            · simp [SparseReader.apply, sumReader, Opcode.value, zeroCount, PE]
        | val value count =>
            constructor
            · simp [SparseReader.apply, sumReader, here, Opcode.value, zeroCount]
            · simp [SparseReader.apply, sumReader, Opcode.value, zeroCount, mul_comm]
      obtain ⟨ezEq, eEq⟩ := ih _ _ step.1
      rw [List.foldl_cons, ezEq, eEq, step.2, expanded, RegisterSum.plus]
      refine ⟨by rw [Int.add_assoc], ?_⟩
      push_cast
      ring

private theorem listSum_ez_bounds (registers : List Nat) :
    0 ≤ (listSum registers).ez ∧ (listSum registers).ez ≤ registers.length := by
  induction registers with
  | nil => exact ⟨Int.le_refl 0, Int.le_refl 0⟩
  | cons reg registers ih =>
      rw [listSum_cons, RegisterSum.plus, List.length_cons]
      simp only [zeroCount]
      split <;> omega

theorem ofFn_getD (count : Nat) (list : List Nat) (sized : list.length = count) :
    List.ofFn (fun i : Fin count => list.getD i 0) = list := by
  apply List.ext_getElem
  · rw [List.length_ofFn, sized]
  · intro position _left right
    rw [List.getElem_ofFn, List.getD_eq_getElem _ _ right]

/-- On a sequence that covers the register array the sparse sum is the sum of its
expansion, and `invalid` stays 0. -/
theorem hllSparseSum_of_covered (memory : Memory) (sparse sparselen : Nat)
    (covered : lengthAll (opcodesFrom memory sparse (sparse + sparselen)) = 16384) :
    hllSparseSum memory sparse sparselen =
      (listSum (expandAll (opcodesFrom memory sparse (sparse + sparselen))), false) := by
  have valid : (hllSparseSum memory sparse sparselen).2 = false := by
    rw [hllSparseSum_invalid]
    omega
  have sum : (hllSparseSum memory sparse sparselen).1 =
      listSum (expandAll (opcodesFrom memory sparse (sparse + sparselen))) := by
    obtain ⟨ezEq, eEq⟩ := sumReader_foldl (opcodesFrom memory sparse (sparse + sparselen))
      { E := 0, ez := 0, idx := 0 } 0 int32_zero.symm
    obtain ⟨lower, upper⟩ :=
      listSum_ez_bounds (expandAll (opcodesFrom memory sparse (sparse + sparselen)))
    rw [expandAll_length, covered] at upper
    rw [Int.zero_add, int32_of_small _ lower (by omega)] at ezEq
    rw [hllSparseSum, SparseReader.loop_eq]
    simp only [eEq, ezEq]
    rw [zero_add, sub_add_cancel]
  rw [← sum, ← valid]

theorem hllSparseSum_eq (o : Robj) (long : hllHdrSize ≤ o.ptr.len)
    (sparse : encoding o.ptr.buf ≠ hllDense) (covered : lengthAll (payloadOpcodes o.ptr) = 16384) :
    hllSparseSum o.ptr.buf hllHdrSize (o.ptr.len - hllHdrSize) =
      (registerSum (registers o), false) := by
  have finish : hllHdrSize + (o.ptr.len - hllHdrSize) = o.ptr.len := Nat.add_sub_cancel' long
  have sum := hllSparseSum_of_covered o.ptr.buf hllHdrSize (o.ptr.len - hllHdrSize)
  rw [finish] at sum
  rw [sum covered, ← listSum_ofFn]
  unfold registers
  simp only [if_neg sparse]
  rw [ofFn_getD 16384 _ (by rw [expandAll_length, covered])]
  rfl

end PhpHll
