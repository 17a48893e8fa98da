/-
Promotion preserves the meaning of an object.

Any sequence of opcodes that covers the register array becomes the packed array
with the same registers, behind the same header.  Merging the promoted object
is merging the sparse one, and a second promotion does nothing.
-/

import PhpHll.Invariant

namespace PhpHll

open ByteMemory

theorem payloadOpcodes_of_encodeAll {s : Sds} {opcodes : List Opcode}
    (payload : readBytes s.buf hllHdrSize (s.len - hllHdrSize) = encodeAll opcodes)
    (covered : lengthAll opcodes = 16384) : payloadOpcodes s = opcodes := by
  have valid : SparsePayload s := ⟨opcodes, payload.symm, covered⟩
  have sized : sizeAll opcodes = s.len - hllHdrSize := by
    rw [← encodeAll_length, ← payload, readBytes_length]
  have finish : s.len = hllHdrSize + sizeAll opcodes := by
    have long := valid.long
    omega
  rw [← sized] at payload
  rw [payloadOpcodes, finish, opcodesFrom_of_encode s.buf hllHdrSize opcodes payload]

/-- A merge reads an object through its registers only. -/
theorem hllMerge_congr (array : Memory) (base : Nat) (first second : Robj)
    (firstReadable : Readable first) (secondReadable : Readable second)
    (same : registers first = registers second) :
    hllMerge array base first = hllMerge array base second := by
  obtain ⟨firstStatus, firstMerged, firstOutside⟩ := hllMerge_spec array base first firstReadable
  obtain ⟨secondStatus, secondMerged, secondOutside⟩ :=
    hllMerge_spec array base second secondReadable
  apply Prod.ext
  · rw [firstStatus, secondStatus]
  · funext offset
    by_cases inside : base ≤ offset ∧ offset < base + 16384
    · have here : offset = base + (offset - base) := by omega
      have within : offset - base < 16384 := by omega
      rw [here]
      apply BitVec.eq_of_toNat_eq
      rw [firstMerged ⟨offset - base, within⟩, secondMerged ⟨offset - base, within⟩, same]
    · rw [firstOutside offset (by omega), secondOutside offset (by omega)]

/-- `hllSparseToDense` on any complete sequence of opcodes: the registers are
those of the sequence, the header is copied, `hllMerge` sees no difference, and
promoting again changes nothing. -/
theorem promotion_preserves_meaning (env : Env) (o : Robj) (opcodes : List Opcode)
    (sparse : encoding o.ptr.buf = hllSparse)
    (payload : readBytes o.ptr.buf hllHdrSize (o.ptr.len - hllHdrSize) = encodeAll opcodes)
    (covered : lengthAll opcodes = 16384) :
    ∃ dense, hllSparseToDense env o = (cOk, dense) ∧
      dense.ptr.len = 12304 ∧
      encoding dense.ptr.buf = hllDense ∧
      (∀ i, i < 16384 →
        (expandAll opcodes)[i]? =
          some (hllDenseGetRegister dense.ptr.buf hllHdrSize i).toNat) ∧
      (∀ offset, offset < 16 → offset ≠ 4 → dense.ptr.buf offset = o.ptr.buf offset) ∧
      (∀ (max : Memory) (base : Nat), hllMerge max base o = hllMerge max base dense ∧
        (hllMerge max base dense).1 = cOk) ∧
      hllSparseToDense env dense = (cOk, dense) := by
  have notDense := notDense_of_sparse sparse
  have read := payloadOpcodes_of_encodeAll payload covered
  have coveredRead : lengthAll (payloadOpcodes o.ptr) = 16384 := by rw [read, covered]
  have isDense := promoted_encoding env o.ptr
  have vector := registers_promoted env o notDense coveredRead
  have readable : Readable (promoted env o.ptr) := Or.inl isDense
  refine ⟨promoted env o.ptr, hllSparseToDense_sparse env o notDense coveredRead,
    promoted_len env o.ptr, isDense, fun i inside => ?_, promoted_header env o.ptr,
    fun max base => ⟨hllMerge_congr max base o _ (Or.inr coveredRead) readable vector.symm,
      (hllMerge_spec max base _ readable).1⟩,
    hllSparseToDense_dense env _ isDense⟩
  have register := congrFun vector ⟨i, inside⟩
  have within : i < (expandAll opcodes).length := by rwa [expandAll_length, covered]
  rw [registers_of_dense _ isDense, registers_of_sparse o notDense, read, denseRegister] at register
  rw [register, List.getD_eq_getElem _ _ within, List.getElem?_eq_getElem within]

/-- The VAL of the payload stands behind 65 registers. -/
theorem promotion_preserves_meaning_foreign :
    ∃ dense, hllSparseToDense server foreign = (cOk, dense) ∧
      (hllDenseGetRegister dense.ptr.buf hllHdrSize 64).toNat = 0 ∧
      (hllDenseGetRegister dense.ptr.buf hllHdrSize 65).toNat = 1 ∧
      (∀ (max : Memory) (base : Nat), hllMerge max base foreign = hllMerge max base dense) ∧
      hllSparseToDense server dense = (cOk, dense) := by
  obtain ⟨dense, promotes, _len, _encoding, registersAt, _header, merges, again⟩ :=
    promotion_preserves_meaning server foreign foreignOpcodes foreign_sparse.1 (by decide +kernel)
      (by decide)
  have before : (expandAll foreignOpcodes)[64]? = some 0 := by decide +kernel
  have here : (expandAll foreignOpcodes)[65]? = some 1 := by decide +kernel
  rw [registersAt 64 (by decide)] at before
  rw [registersAt 65 (by decide)] at here
  exact ⟨dense, promotes, Option.some.inj before, Option.some.inj here,
    fun max base => (merges max base).1, again⟩

end PhpHll
