/-
The merge loop of the sparse add.

Step 4 moves neighbouring VAL opcodes of one value together while it scans at
most five opcodes.  On an encoded block it merges as `mergeOpcodes` does and
keeps everything in front of the block.
-/

import PhpHll.SparseBlocks

namespace PhpHll

open ByteMemory

/-! ### One merge -/

/-- One merge: the second opcode becomes the merged one, and the string moves
down by one byte over the first. -/
private theorem merge_bytes (memory : Memory) (p finish : Nat) (first second merged : Opcode)
    (rest : List Opcode) (firstSize : first.size = 1) (secondSize : second.size = 1)
    (mergedSize : merged.size = 1)
    (encoded : EncodedAt memory p finish (first :: second :: rest)) :
    EncodedAt
      (store (memmove (memcpy memory (p + 1) merged.encode) p (p + 1) (finish - p)) (finish - 1) 0)
      p (finish - 1) (merged :: rest) := by
  have mergedLength : merged.encode.length = 1 := by rw [merged.encode_length, mergedSize]
  rw [encodedAt_cons, encodedAt_cons, firstSize, secondSize] at encoded
  obtain ⟨_firstBytes, _secondBytes, sized, bytes⟩ := encoded
  have total : sizeAll (merged :: rest) = 1 + sizeAll rest := by rw [sizeAll_cons, mergedSize]
  refine ⟨by omega, ?_⟩
  calc
    readBytes _ p (sizeAll (merged :: rest)) =
        readBytes (memmove (memcpy memory (p + 1) merged.encode) p (p + 1) (finish - p)) p
          (1 + sizeAll rest) := by
      rw [total, readBytes_store_outside _ _ _ _ _ (Or.inr (by omega))]
    _ = readBytes (memcpy memory (p + 1) merged.encode) (p + 1) (1 + sizeAll rest) :=
      readBytes_memmove _ _ _ _ _ (by omega)
    _ = readBytes (memcpy memory (p + 1) merged.encode) (p + 1) merged.encode.length ++
          readBytes memory (p + 1 + 1) (sizeAll rest) := by
      rw [readBytes_add, mergedLength,
        readBytes_memcpy_outside _ _ (p + 1 + 1) _ _ (Or.inr (by omega))]
    _ = encodeAll (merged :: rest) := by rw [readBytes_memcpy, bytes, encodeAll_cons]

structure MergedFrom (s next : Sds) (p : Nat) (opcodes : List Opcode) : Prop where
  encoded : EncodedAt next.buf p next.len opcodes
  below : ∀ offset, offset < p → next.buf offset = s.buf offset
  terminated : s.buf s.len = 0 → next.buf next.len = 0

theorem MergedFrom.trans {s middle next : Sds} {p : Nat} {opcodes later : List Opcode}
    (first : MergedFrom s middle p opcodes) (second : MergedFrom middle next p later) :
    MergedFrom s next p later :=
  { encoded := second.encoded
    below := fun offset before => (second.below offset before).trans (first.below offset before)
    terminated := fun before => second.terminated (first.terminated before) }

private theorem merge_step (s : Sds) (p : Nat) (first second merged : Opcode)
    (rest : List Opcode) (firstSize : first.size = 1) (secondSize : second.size = 1)
    (mergedSize : merged.size = 1)
    (encoded : EncodedAt s.buf p s.len (first :: second :: rest)) :
    ∃ next, sdsIncrLen
        { s with buf := memmove (memcpy s.buf (p + 1) merged.encode) p (p + 1) (s.len - p) } (-1) =
          .ok next ∧
      next.len = s.len - 1 ∧ MergedFrom s next p (merged :: rest) := by
  have sized := encoded.1
  rw [sizeAll_cons, sizeAll_cons, firstSize, secondSize] at sized
  have lenEq : ((s.len : Int) + -1).toNat = s.len - 1 := by omega
  rw [sdsIncrLen_ok _ _ (by simp only; omega)]
  refine ⟨_, rfl, lenEq, ?_, ?_, ?_⟩
  · simp only [lenEq]
    exact merge_bytes s.buf p s.len first second merged rest firstSize secondSize mergedSize encoded
  · intro offset below
    simp only [lenEq]
    rw [store_other _ _ _ _ (by omega), memmove_below _ _ _ _ _ below,
      memcpy_below _ _ _ _ (by omega)]
  · intro _terminated
    exact store_same _ _ _

/-! ### The loop -/

private theorem opcodeView_val (memory : Memory) (p : Nat) (value : BitVec 5) (count : BitVec 2)
    (read : opcodeAt memory p = .val value count) :
    hllSparseIsVal memory p = true ∧
      hllSparseValLen memory p = (Opcode.val value count).length ∧
      hllSparseValValue memory p = (Opcode.val value count).value := by
  cases opcodeView memory p with
  | zero _ _ _ _ other _ _ => simp only [other, reduceCtorEq] at read
  | xzero _ _ _ _ _ other _ _ => simp only [other, reduceCtorEq] at read
  | val _ _ _ _ isVal _ len val _ =>
      rw [read] at len val
      exact ⟨isVal, len, val⟩

private theorem opcodeAt_of_isVal (memory : Memory) (p : Nat)
    (isVal : hllSparseIsVal memory p = true) :
    ∃ value count, opcodeAt memory p = .val value count := by
  cases opcodeView memory p with
  | zero _ _ _ notVal _ _ _ =>
      rw [notVal] at isVal
      cases isVal
  | xzero _ _ _ _ notVal _ _ _ =>
      rw [notVal] at isVal
      cases isVal
  | val value count _ _ _ read _ _ _ => exact ⟨value, count, read⟩

private theorem merge_eq_none (first second : Opcode)
    (notVal : ∀ value count, second ≠ .val value count) : first.merge second = none := by
  cases second with
  | zero count => cases first <;> rfl
  | xzero high low => cases first <;> rfl
  | val value count => exact absurd rfl (notVal value count)

private theorem sparseMergeLoop_vals (s : Sds) (p : Nat)
    (value value' : BitVec 5) (count count' : BitVec 2) (tail : List Opcode)
    (encoded : EncodedAt s.buf p s.len (.val value count :: .val value' count' :: tail)) :
    let v1 := (Opcode.val value count).value
    let len := (Opcode.val value count).length + (Opcode.val value' count').length
    (∃ merged middle, (Opcode.val value count).merge (.val value' count') = some merged ∧
        sdsIncrLen
          { s with
            buf := memmove (memcpy s.buf (p + 1) (hllSparseValSet v1 len)) p (p + 1) (s.len - p) }
          (-1) = .ok middle ∧
        (v1 = (Opcode.val value' count').value ∧ len ≤ hllSparseValMaxLen) ∧
        middle.len = s.len - 1 ∧ MergedFrom s middle p (merged :: tail)) ∨
      ((Opcode.val value count).merge (.val value' count') = none ∧
        ¬(v1 = (Opcode.val value' count').value ∧ len ≤ hllSparseValMaxLen)) := by
  intro v1 len
  simp only [v1, len, Opcode.val_value_eq_iff]
  by_cases fits : value = value' ∧ (Opcode.val value count).length +
      (Opcode.val value' count').length ≤ hllSparseValMaxLen
  · have can : (Opcode.val value count).merge (.val value' count') = some _ := if_pos fits
    have positive := (Opcode.val value count).length_pos
    have set := hllSparseValSet_eq (Opcode.val value count).value
      ((Opcode.val value count).length + (Opcode.val value' count').length)
      (Nat.succ_pos _) (Opcode.value_le _) (by omega) fits.2
    obtain ⟨middle, decremented, middleLen, merged⟩ :=
      merge_step s p _ _ _ tail rfl rfl (Opcode.ofVal_size _ _) encoded
    rw [← set] at decremented
    exact Or.inl ⟨_, middle, can, decremented, fits, middleLen, merged⟩
  · exact Or.inr ⟨if_neg fits, fits⟩

/-- The step lemma: the opcode at `p` is merged with the next one, or `p` moves
past it. -/
private theorem sparseMergeLoop_step (scanlen : Nat) (s : Sds) (p : Nat) (first : Opcode)
    (rest : List Opcode) (encoded : EncodedAt s.buf p s.len (first :: rest)) :
    (∃ second tail merged middle, rest = second :: tail ∧ first.merge second = some merged ∧
        sparseMergeLoop (scanlen + 1) s p s.len = sparseMergeLoop scanlen middle p middle.len ∧
        MergedFrom s middle p (merged :: tail)) ∨
      ((∀ second ∈ rest.head?, first.merge second = none) ∧
        sparseMergeLoop (scanlen + 1) s p s.len =
          sparseMergeLoop scanlen s (p + first.size) s.len) := by
  obtain ⟨firstBytes, restEncoded⟩ := (encodedAt_cons ..).mp encoded
  have read := opcodeAt_of_encode s.buf p first firstBytes
  have more : p < s.len := by
    have positive := first.size_pos
    have sized := restEncoded.1
    omega
  rw [sparseMergeLoop, if_pos more]
  cases opcodeView s.buf p with
  | zero count isZero notXzero _ readZero _ _ =>
      rw [read] at readZero
      subst readZero
      rw [if_neg (ne_true_of_eq_false notXzero), if_pos isZero]
      exact Or.inr ⟨fun _ _ => rfl, rfl⟩
  | xzero high low notZero isXzero _ readXzero _ _ =>
      rw [read] at readXzero
      subst readXzero
      rw [if_pos isXzero]
      exact Or.inr ⟨fun _ _ => rfl, rfl⟩
  | val value count notZero notXzero _ readVal len val _ =>
      rw [read] at readVal len val
      subst readVal
      rw [if_neg (ne_true_of_eq_false notXzero), if_neg (ne_true_of_eq_false notZero)]
      cases rest with
      | nil =>
          have last : p + 1 = s.len := restEncoded.1
          rw [if_neg (by omega)]
          exact Or.inr ⟨fun _ member => (by cases member), rfl⟩
      | cons second tail =>
          obtain ⟨secondBytes, tailEncoded⟩ := (encodedAt_cons ..).mp restEncoded
          have readSecond := opcodeAt_of_encode s.buf (p + 1) second secondBytes
          by_cases next : p + 1 < s.len ∧ hllSparseIsVal s.buf (p + 1) = true
          · obtain ⟨value', count', isVal⟩ := opcodeAt_of_isVal s.buf (p + 1) next.2
            rw [readSecond] at isVal
            subst isVal
            obtain ⟨_, len', val'⟩ := opcodeView_val s.buf (p + 1) value' count' readSecond
            rw [if_pos next]
            simp only [len, val, len', val']
            rcases sparseMergeLoop_vals s p value value' count count' tail encoded with
              ⟨merged, middle, can, decremented, fits, middleLen, step⟩ | ⟨apart, notFits⟩
            · rw [if_pos fits, decremented, ← middleLen]
              exact Or.inl ⟨_, tail, merged, middle, rfl, can, rfl, step⟩
            · rw [if_neg notFits]
              exact Or.inr ⟨fun _ member => by cases member; exact apart, rfl⟩
          · have notVal : ∀ value count, second ≠ .val value count := by
              intro value' count' isVal
              subst isVal
              have sized : p + 1 + 1 + sizeAll tail = s.len := tailEncoded.1
              exact next ⟨by omega, (opcodeView_val s.buf (p + 1) value' count' readSecond).1⟩
            rw [if_neg next]
            exact Or.inr ⟨fun _ member => by cases member; exact merge_eq_none _ _ notVal, rfl⟩

/-- The run lemma: the loop merges as `mergeOpcodes` does and leaves what is
before `p`. -/
theorem sparseMergeLoop_spec (scanlen : Nat) (s : Sds) (p : Nat) (opcodes : List Opcode)
    (encoded : EncodedAt s.buf p s.len opcodes) :
    ∃ next, sparseMergeLoop scanlen s p s.len = .ok next ∧
      MergedFrom s next p (mergeOpcodes scanlen opcodes) := by
  induction scanlen generalizing s p opcodes with
  | zero =>
      refine ⟨s, rfl, ?_⟩
      rw [mergeOpcodes]
      exact ⟨encoded, fun _ _ => rfl, id⟩
  | succ scanlen ih =>
      cases opcodes with
      | nil =>
          have done : p = s.len := encoded.1
          refine ⟨s, ?_, ?_⟩
          · rw [sparseMergeLoop, if_neg (by omega)]
          · rw [mergeOpcodes]
            exact ⟨encoded, fun _ _ => rfl, id⟩
      | cons first rest =>
          rcases sparseMergeLoop_step scanlen s p first rest encoded with
            ⟨second, tail, merged, middle, restEq, can, turned, step⟩ | ⟨apart, turned⟩
          · subst restEq
            obtain ⟨next, ran, later⟩ := ih middle p _ step.encoded
            refine ⟨next, turned.trans ran, step.trans ?_⟩
            rw [mergeOpcodes, can]
            exact later
          · obtain ⟨firstBytes, restEncoded⟩ := (encodedAt_cons ..).mp encoded
            obtain ⟨next, ran, later⟩ := ih s (p + first.size) rest restEncoded
            refine ⟨next, turned.trans ran, ?_, ?_, later.terminated⟩
            · rw [mergeOpcodes_skip scanlen first rest apart, encodedAt_cons]
              refine ⟨?_, later.encoded⟩
              rw [← firstBytes]
              apply readBytes_congr
              intro offset _lower upper
              exact later.below offset upper
            · intro offset below
              exact later.below offset (by omega)

structure AddedTo (s next : Sds) (opcodes : List Opcode) : Prop where
  encoded : EncodedAt next.buf hllHdrSize next.len opcodes
  header : ∀ offset, offset < hllHdrSize → next.buf offset = hllInvalidateCache s.buf offset
  terminated : s.buf s.len = 0 → next.buf next.len = 0

theorem AddedTo.encoding_eq {s next : Sds} {opcodes : List Opcode}
    (added : AddedTo s next opcodes) : encoding next.buf = encoding s.buf := by
  rw [encoding, encoding, added.header 4 (by decide), hllInvalidateCache,
    store_other _ _ _ _ (by decide)]

/-- The label `updated`, when `prev` leads to the start of `rest`. -/
theorem hllSparseAddUpdated_spec (s : Sds) (prev : Option Nat) (kept rest : List Opcode)
    (encoded : EncodedAt s.buf hllHdrSize s.len (kept ++ rest))
    (start : prev.getD hllHdrSize = hllHdrSize + sizeAll kept) :
    ∃ next, hllSparseAddUpdated s prev s.len = .ok (1, { ptr := next }) ∧
      AddedTo s next (kept ++ mergeOpcodes 5 rest) := by
  obtain ⟨keptBytes, restEncoded⟩ := (encodedAt_append ..).mp encoded
  obtain ⟨next, ran, merged⟩ := sparseMergeLoop_spec 5 s _ rest restEncoded
  have cacheByte : ∀ (buf : Memory) offset, offset ≠ 15 →
      hllInvalidateCache buf offset = buf offset :=
    fun buf offset other => store_other _ _ _ _ other
  have long : 15 < next.len := by
    have sized := merged.encoded.1
    rw [hllHdrSize] at sized
    omega
  refine ⟨{ next with buf := hllInvalidateCache next.buf }, ?_, ?_, ?_, ?_⟩
  · rw [hllSparseAddUpdated, start, ran]
  · have below : ∀ offset, hllHdrSize ≤ offset → offset < next.len →
        hllInvalidateCache next.buf offset = next.buf offset := by
      intro offset lower _upper
      rw [hllHdrSize] at lower
      exact cacheByte next.buf offset (by omega)
    refine EncodedAt.congr ?_ below
    rw [encodedAt_append]
    refine ⟨?_, merged.encoded⟩
    rw [← keptBytes]
    apply readBytes_congr
    intro offset _lower upper
    exact merged.below offset upper
  · intro offset header
    have same := merged.below offset (Nat.lt_add_right _ header)
    by_cases last : offset = 15
    · subst last
      simp only [hllInvalidateCache, store_same, same]
    · exact (cacheByte _ _ last).trans (same.trans (cacheByte _ _ last).symm)
  · intro terminated
    exact (cacheByte _ _ (Nat.ne_of_gt long)).trans (merged.terminated terminated)

end PhpHll
