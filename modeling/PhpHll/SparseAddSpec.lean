/-
The sparse add as a whole.

On a payload in the format `hllSparseAdd` either leaves the string alone,
replaces the sequence of the payload by `addOpcodes`, or promotes.
-/

import PhpHll.SparseAddAt

namespace PhpHll

open ByteMemory

/-! ### Promotion -/

section Promote

variable (convert : Env → Robj → Int × Robj) (denseAdd : Memory → Nat → List Byte → Int × Memory)
  (env : Env) (o : Robj) (ele : List Byte)

/-- The steps of `promote`, for any conversion and any dense add. -/
def promoteSteps : Except Abort (Int × Robj) :=
  let (status, o) := convert env o
  if status = cErr then .ok (-1, o)
  else
    let (denseRetval, buf) := denseAdd o.ptr.buf hllHdrSize ele
    if denseRetval = 1 then .ok (denseRetval, { ptr := { o.ptr with buf := buf } })
    else .error .redisAssert

private theorem promoteSteps_ok (object : Robj) (buf : Memory)
    (converted : convert env o = (cOk, object))
    (added : denseAdd object.ptr.buf hllHdrSize ele = (1, buf)) :
    promoteSteps convert denseAdd env o ele =
      .ok (1, { ptr := { object.ptr with buf := buf } }) := by
  rw [promoteSteps, converted]
  simp only [if_neg cOk_ne_cErr, added, if_true]

private theorem promoteSteps_failed (failed : convert env o = (cErr, o)) :
    promoteSteps convert denseAdd env o ele = .ok (-1, o) := by
  rw [promoteSteps, failed]
  simp only [if_true]

private theorem promoteSteps_not_failed (converted : (convert env o).1 = cOk) (next : Robj) :
    promoteSteps convert denseAdd env o ele ≠ .ok (-1, next) := by
  rw [promoteSteps]
  simp only [converted, if_neg cOk_ne_cErr]
  split
  · rename_i one
    intro failed
    rw [one] at failed
    cases failed
  · intro failed
    cases failed

theorem hllSparseAddPromote_steps :
    hllSparseAddPromote env o ele = promoteSteps hllSparseToDense hllDenseAdd env o ele := rfl

end Promote

/-- A promotion fails on a payload whose registers do not end at 16384 modulo
`2 ^ 32`, and leaves the object as it is; on any other it does not fail. -/
theorem hllSparseAddPromote_cases (env : Env) (o : Robj) (ele : List Byte)
    (sparse : encoding o.ptr.buf ≠ hllDense) :
    (lengthAll (payloadOpcodes o.ptr) % 2 ^ 32 ≠ 16384 ∧
        hllSparseAddPromote env o ele = .ok (-1, o)) ∨
      (lengthAll (payloadOpcodes o.ptr) % 2 ^ 32 = 16384 ∧
        ∀ next, hllSparseAddPromote env o ele ≠ .ok (-1, next)) := by
  rw [hllSparseAddPromote_steps]
  rcases hllSparseToDense_status env o sparse with ⟨converted, wrapped⟩ | ⟨failed, other⟩
  · exact Or.inr ⟨wrapped, promoteSteps_not_failed _ _ env o ele converted⟩
  · exact Or.inl ⟨other, promoteSteps_failed _ _ env o ele failed⟩

def raiseDense (o : Robj) (ele : List Byte) : Robj :=
  { ptr :=
      { o.ptr with
        buf := hllDenseSetRegister o.ptr.buf hllHdrSize (hllPatLen ele).index
          (BitVec.ofNat 64 (hllPatLen ele).count) } }

/-- The promotion of an add succeeds on a payload in the format, and the
assertion after it holds when the register is below the count. -/
theorem hllSparseAddPromote_spec (env : Env) (o : Robj) (ele : List Byte)
    (sparse : encoding o.ptr.buf ≠ hllDense) (covered : lengthAll (payloadOpcodes o.ptr) = 16384)
    (raises : registers o (registerOf ele) < (hllPatLen ele).count) :
    hllSparseAddPromote env o ele = .ok (1, raiseDense (promoted env o.ptr) ele) := by
  have below : denseRegister (promoted env o.ptr).ptr.buf hllHdrSize (hllPatLen ele).index <
      (hllPatLen ele).count := by
    rwa [← registers_promoted env o sparse covered,
      registers_of_dense _ (promoted_encoding env o.ptr), registerOf_val] at raises
  have added := hllDenseAdd_eq (promoted env o.ptr).ptr.buf hllHdrSize ele
  rw [if_pos below] at added
  rw [hllSparseAddPromote_steps]
  exact promoteSteps_ok hllSparseToDense hllDenseAdd env o ele (promoted env o.ptr) _
    (hllSparseToDense_sparse env o sparse covered) added

/-! ### The whole add -/

theorem getD_expandAll (before after : List Opcode) (opcode : Opcode) (index : Nat)
    (lower : lengthAll before ≤ index) (upper : index < lengthAll before + opcode.length) :
    (expandAll (before ++ opcode :: after)).getD index 0 = opcode.value := by
  have found := RunLength.getElem?_expand (before.map Opcode.run) (after.map Opcode.run) opcode.run
    index lower upper
  rw [expandAll, List.map_append, List.map_cons, List.getD_eq_getElem?_getD, found,
    Option.getD_some]
  rfl

theorem exists_covering (opcodes : List Opcode) (index : Nat)
    (covered : index < lengthAll opcodes) :
    ∃ before opcode after, opcodes = before ++ opcode :: after ∧ lengthAll before ≤ index ∧
      index < lengthAll before + opcode.length := by
  obtain ⟨before, run, after, split, lower, upper⟩ :=
    RunLength.locate (opcodes.map Opcode.run) index covered
  obtain ⟨first, rest, opcodesEq, beforeEq, restEq⟩ := List.map_eq_append_iff.mp split
  obtain ⟨opcode, last, restSplit, runEq, _afterEq⟩ := List.map_eq_cons_iff.mp restEq
  subst beforeEq
  subst runEq
  subst restSplit
  exact ⟨first, opcode, last, opcodesEq, lower, upper⟩

/-- The opcode covering a register, and the sequence an add puts in its place. -/
structure Covering (s : Sds) (pattern : Pattern) where
  before : List Opcode
  opcode : Opcode
  after : List Opcode
  split : payloadOpcodes s = before ++ opcode :: after
  lower : lengthAll before ≤ pattern.index
  upper : pattern.index < lengthAll before + opcode.length

def Covering.seq {s : Sds} {pattern : Pattern} (covering : Covering s pattern) : List Opcode :=
  covering.opcode.split pattern.count (pattern.index - lengthAll covering.before)
    (lengthAll covering.before + covering.opcode.length - 1 - pattern.index)

def Covering.added {s : Sds} {pattern : Pattern} (covering : Covering s pattern) : List Opcode :=
  addOpcodes covering.before covering.after covering.opcode pattern.count pattern.index

private theorem scanned_steps (env : Env) (s : Sds) (ele : List Byte) (pattern : Pattern)
    (scan : SparseScan)
    (scanned : sparseScan s.buf pattern.index s.len SparseScan.start = scan) :
    (if (sparseScan s.buf pattern.index s.len
        { p := hllHdrSize, prev := none, first := 0, span := 0 }).span = 0 then
      .ok (-1, { ptr := s })
    else
      hllSparseAddAt env s ele pattern (sparseScan s.buf pattern.index s.len
        { p := hllHdrSize, prev := none, first := 0, span := 0 }) : Except Abort (Int × Robj)) =
      if scan.span = 0 then .ok (-1, { ptr := s }) else hllSparseAddAt env s ele pattern scan := by
  rw [SparseScan.start] at scanned
  rw [scanned]

theorem hllSparseAdd_scanned (env : Env) (o : Robj) (ele : List Byte) (scan : SparseScan)
    (small : (hllPatLen ele).count ≤ 32)
    (scanned : sparseScan o.ptr.buf (hllPatLen ele).index o.ptr.len SparseScan.start = scan) :
    hllSparseAdd env o ele =
      if scan.span = 0 then .ok (-1, { ptr := sdsMakeRoomFor o.ptr 3 })
      else hllSparseAddAt env (sdsMakeRoomFor o.ptr 3) ele (hllPatLen ele) scan := by
  have notLarge : ¬hllSparseValMaxValue < (hllPatLen ele).count := Nat.not_lt.mpr small
  rw [hllSparseAdd, if_neg notLarge]
  apply scanned_steps
  rw [sdsMakeRoomFor_buf, sdsMakeRoomFor_len]
  exact scanned

theorem exists_coveringOf (s : Sds) (pattern : Pattern)
    (covered : pattern.index < lengthAll (payloadOpcodes s)) : Nonempty (Covering s pattern) := by
  obtain ⟨before, opcode, after, split, lower, upper⟩ :=
    exists_covering (payloadOpcodes s) pattern.index covered
  exact ⟨⟨before, opcode, after, split, lower, upper⟩⟩

/-- The register of an element is the value of the opcode covering it. -/
theorem Covering.register {o : Robj} {ele : List Byte} (covering : Covering o.ptr (hllPatLen ele))
    (sparse : encoding o.ptr.buf ≠ hllDense) :
    registers o (registerOf ele) = covering.opcode.value := by
  rw [registers_of_sparse o sparse, registerOf_val, covering.split,
    getD_expandAll _ _ _ _ covering.lower covering.upper]

/-- A count that a VAL can say goes to the opcode that covers the register. -/
private theorem hllSparseAdd_at (env : Env) (o : Robj) (ele : List Byte)
    (small : (hllPatLen ele).count ≤ 32) (covering : Covering o.ptr (hllPatLen ele)) :
    hllSparseAdd env o ele =
      hllSparseAddAt env (sdsMakeRoomFor o.ptr 3) ele (hllPatLen ele)
        { SparseScan.start.pass covering.before with span := covering.opcode.length } := by
  obtain ⟨scanned, _read⟩ := sparseScan_found o.ptr.buf (hllPatLen ele).index o.ptr.len
    covering.before covering.after covering.opcode SparseScan.start covering.split
    (by rw [SparseScan.start, Nat.zero_add]; exact covering.lower)
    (by rw [SparseScan.start, Nat.zero_add]; exact covering.upper)
  have spanPositive : ¬covering.opcode.length = 0 := Nat.ne_of_gt covering.opcode.length_pos
  rw [hllSparseAdd_scanned env o ele _ small scanned, if_neg spanPositive]

/-- What `hllSparseAdd` does on a payload in the format: the register is high
enough; or the sequence is edited in place; or the object is promoted, because
of the count or because of the size. -/
theorem hllSparseAdd_cases (env : Env) (o : Robj) (ele : List Byte)
    (sparse : encoding o.ptr.buf ≠ hllDense) (valid : SparsePayload o.ptr) :
    ((hllPatLen ele).count ≤ registers o (registerOf ele) ∧
        hllSparseAdd env o ele = .ok (0, { ptr := sdsMakeRoomFor o.ptr 3 })) ∨
      (registers o (registerOf ele) < (hllPatLen ele).count ∧ (hllPatLen ele).count ≤ 32 ∧
        ∃ covering : Covering o.ptr (hllPatLen ele),
          ¬SplitTooLong env o.ptr.len covering.opcode (sizeAll covering.seq) ∧
          ∃ next, hllSparseAdd env o ele = .ok (1, { ptr := next }) ∧
            AddedTo o.ptr next covering.added) ∨
      (registers o (registerOf ele) < (hllPatLen ele).count ∧
        (32 < (hllPatLen ele).count ∨ ∃ covering : Covering o.ptr (hllPatLen ele),
          SplitTooLong env o.ptr.len covering.opcode (sizeAll covering.seq)) ∧
        hllSparseAdd env o ele = .ok (1, raiseDense (promoted env o.ptr) ele)) := by
  have covered := valid.covered
  have indexBound := hllPatLen_index_lt ele
  obtain ⟨covering⟩ := exists_coveringOf o.ptr (hllPatLen ele) (by omega)
  have register := covering.register sparse
  have opcodeSmall := covering.opcode.value_le
  by_cases large : hllSparseValMaxValue < (hllPatLen ele).count
  · have above : 32 < (hllPatLen ele).count := large
    refine Or.inr (Or.inr ⟨by omega, Or.inl above, ?_⟩)
    rw [hllSparseAdd]
    exact (if_pos large).trans (hllSparseAddPromote_spec env o ele sparse covered (by omega))
  · have small : (hllPatLen ele).count ≤ 32 := Nat.le_of_not_lt large
    have added := hllSparseAdd_at env o ele small covering
    have encoded : EncodedAt (sdsMakeRoomFor o.ptr 3).buf hllHdrSize (sdsMakeRoomFor o.ptr 3).len
        (covering.before ++ covering.opcode :: covering.after) := by
      rw [sdsMakeRoomFor_buf, sdsMakeRoomFor_len, ← covering.split]
      exact encodedAt_payload o.ptr valid.sized
    rcases hllSparseAddAt_spec env (sdsMakeRoomFor o.ptr 3) ele (hllPatLen ele) covering.before
      covering.after covering.opcode encoded covering.lower covering.upper
      (hllPatLen_count_bounds ele).1 small (sdsMakeRoomFor_free o.ptr 3) covering.seq rfl _ rfl with
      ⟨enough, kept⟩ | ⟨raises, fits, next, edited, result⟩ | ⟨raises, tooLong, promotes⟩
    · exact Or.inl ⟨by omega, added.trans kept⟩
    · rw [sdsMakeRoomFor_len] at fits
      refine Or.inr (Or.inl ⟨by omega, small, covering, fits, next, added.trans edited,
        result.encoded, ?_, ?_⟩)
      · simpa only [sdsMakeRoomFor_buf] using result.header
      · simpa only [sdsMakeRoomFor_buf, sdsMakeRoomFor_len] using result.terminated
    · rw [sdsMakeRoomFor_len] at tooLong
      refine Or.inr (Or.inr ⟨by omega, Or.inr ⟨covering, tooLong⟩, ?_⟩)
      rw [added, promotes, hllSparseAddPromote_spec env { ptr := sdsMakeRoomFor o.ptr 3 } ele
        (by rwa [sdsMakeRoomFor_buf]) (by rw [payloadOpcodes_makeRoom, covered])
        (by rw [registers_makeRoom]; omega), promoted_makeRoom]

end PhpHll
