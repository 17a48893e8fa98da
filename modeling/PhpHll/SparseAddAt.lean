/-
The edit of the opcode that a scan stops at.

The case distinction of step 2 and the substitution of step 3 are described for
any opcode first, with nothing assumed about the string.  On an encoded block
they make the add leave the string alone, edit the sequence as `addOpcodes`
does, or promote.
-/

import PhpHll.SparseMergeLoop

namespace PhpHll

open ByteMemory

/-! ### The bytes of a split -/

theorem splitZeroRun_eq (len : Nat) (positive : 1 ≤ len) (covered : len ≤ 16384) :
    splitZeroRun len = (Opcode.ofZeroRun len).encode := by
  have threshold : ((len : Int) > hllSparseZeroMaxLen) ↔ 64 < len := by
    unfold hllSparseZeroMaxLen
    omega
  rw [splitZeroRun]
  by_cases long : 64 < len
  · rw [if_pos (threshold.mpr long), hllSparseXzeroSet_eq len long covered]
  · rw [if_neg (fun above => long (threshold.mp above)),
      hllSparseZeroSet_eq len positive (Nat.le_of_not_lt long)]

theorem splitZeroRun_length (len : Int) :
    (splitZeroRun len).length = if 64 < len then 2 else 1 := by
  unfold splitZeroRun hllSparseZeroMaxLen
  by_cases long : 64 < len
  · rw [if_pos (by omega), if_pos long]
    rfl
  · rw [if_neg (by omega), if_neg long]
    rfl

private theorem side_bytes (runBytes : Int → List Byte) (opcode : Opcode) (left right : Int)
    (len : Nat) (apart : right - left = len)
    (stored : 1 ≤ len → runBytes len = encodeAll (opcode.part len)) :
    (if left ≠ right then runBytes (right - left) else []) = encodeAll (opcode.part len) := by
  by_cases empty : len = 0
  · have same : left = right := by omega
    rw [if_neg (not_not.mpr same), empty]
    rfl
  · rw [if_pos (by omega), apart, stored (Nat.one_le_iff_ne_zero.mpr empty)]

/-- The bytes put together in `seq` are the encoding of the split. -/
private theorem split_bytes (runBytes : Int → List Byte) (opcode : Opcode)
    (count first index : Nat) (positive : 1 ≤ count) (small : count ≤ 32) (lower : first ≤ index)
    (upper : index < first + opcode.length)
    (stored : ∀ len, 1 ≤ len → len ≤ opcode.length →
      runBytes len = encodeAll (opcode.part len)) :
    (if (index : Int) ≠ first then runBytes (index - first) else []) ++
        hllSparseValSet count 1 ++
        (if (index : Int) ≠ (first + opcode.length - 1 : Int) then
          runBytes (first + opcode.length - 1 - index) else []) =
      encodeAll (opcode.split count (index - first) (first + opcode.length - 1 - index)) := by
  have before := side_bytes runBytes opcode first index (index - first) (by omega)
    (fun some => stored _ some (by omega))
  have after := side_bytes runBytes opcode index (first + opcode.length - 1 : Int)
    (first + opcode.length - 1 - index) (by omega) (fun some => stored _ some (by omega))
  have middle := hllSparseValSet_eq count 1 positive small (by omega) (by omega)
  rw [Nat.cast_one] at middle
  rw [after, middle, Opcode.split, encodeAll_append, encodeAll_cons]
  simp only [ne_comm (a := (index : Int)) (b := first), before, List.append_assoc]

theorem splitZero_eq (opcode : Opcode) (count first index : Nat) (positive : 1 ≤ count)
    (small : count ≤ 32) (lower : first ≤ index) (upper : index < first + opcode.length)
    (zeroRun : ∀ value count, opcode ≠ .val value count) :
    splitZero count index first (first + opcode.length - 1) =
      encodeAll (opcode.split count (index - first) (first + opcode.length - 1 - index)) := by
  have covered := opcode.length_le
  apply split_bytes splitZeroRun opcode count first index positive small lower upper
  intro len some inside
  have single : opcode.part len = [Opcode.ofZeroRun len] := by
    cases opcode with
    | zero _ => exact if_neg (by omega)
    | xzero _ _ => exact if_neg (by omega)
    | val value count => exact absurd rfl (zeroRun value count)
  rw [splitZeroRun_eq len some (by omega), single, encodeAll_cons, encodeAll_nil, List.append_nil]

theorem splitVal_eq (value : BitVec 5) (len : BitVec 2) (count first index : Nat)
    (positive : 1 ≤ count) (small : count ≤ 32) (lower : first ≤ index)
    (upper : index < first + (Opcode.val value len).length) :
    splitVal (Opcode.val value len).value count index first
        (first + (Opcode.val value len).length - 1) =
      encodeAll ((Opcode.val value len).split count (index - first)
        (first + (Opcode.val value len).length - 1 - index)) := by
  have short := Opcode.val_length_le value len
  apply split_bytes (hllSparseValSet (Opcode.val value len).value) _ count first index positive
    small lower upper
  intro part some inside
  have single : (Opcode.val value len).part part =
      [Opcode.ofVal (Opcode.val value len).value part] := if_neg (by omega)
  have bytes := hllSparseValSet_eq (Opcode.val value len).value part (Nat.succ_pos _)
    (Opcode.val value len).value_le some (by omega)
  rw [bytes, single, encodeAll_cons, encodeAll_nil, List.append_nil]

def splitBytes (opcode : Opcode) (count : Nat) (index first last : Int) : List Byte :=
  if opcode.value = 0 then splitZero count index first last
  else splitVal opcode.value count index first last

theorem splitBytes_eq (opcode : Opcode) (count first index : Nat) (positive : 1 ≤ count)
    (small : count ≤ 32) (lower : first ≤ index) (upper : index < first + opcode.length) :
    splitBytes opcode count index first (first + opcode.length - 1) =
      encodeAll (opcode.split count (index - first) (first + opcode.length - 1 - index)) := by
  cases opcode with
  | zero len =>
      exact splitZero_eq (.zero len) count first index positive small lower upper
        fun _ _ impossible => by cases impossible
  | xzero high low =>
      exact splitZero_eq (.xzero high low) count first index positive small lower upper
        fun _ _ impossible => by cases impossible
  | val value len => exact splitVal_eq value len count first index positive small lower upper

/-! ### Step 2: the cases -/

/-- Which case a count and an opcode at `p` lead to: A, B or C, or D. -/
theorem hllSparseAddAt_eq (env : Env) (s : Sds) (ele : List Byte) (pattern : Pattern)
    (scan : SparseScan) (opcode : Opcode) (read : opcodeAt s.buf scan.p = opcode)
    (positive : 1 ≤ pattern.count) :
    hllSparseAddAt env s ele pattern scan =
      if pattern.count ≤ opcode.value then .ok (0, { ptr := s })
      else if opcode.size = 1 ∧ opcode.length = 1 then
        hllSparseAddUpdated { s with buf := memcpy s.buf scan.p (hllSparseValSet pattern.count 1) }
          scan.prev s.len
      else
        hllSparseAddSubstitute env s ele scan
          (splitBytes opcode pattern.count pattern.index scan.first
            (scan.first + scan.span - 1)) := by
  have notZero : ¬pattern.count ≤ 0 := Nat.not_le_of_lt positive
  unfold hllSparseAddAt
  cases opcodeView s.buf scan.p with
  | zero count isZero notXzero _ readZero len _ =>
      rw [read] at readZero len
      subst readZero
      have value : (Opcode.zero count).value = 0 := rfl
      have size : (Opcode.zero count).size = 1 := rfl
      simp only [isZero, notXzero, Bool.not_true, Bool.false_and, Bool.false_eq_true, false_and,
        if_false, if_true, false_or, true_and, Bool.true_or, len, value, size, notZero, splitBytes]
  | xzero high low notZeroTag isXzero _ readXzero len _ =>
      rw [read] at readXzero len
      subst readXzero
      have value : (Opcode.xzero high low).value = 0 := rfl
      have size : ¬(Opcode.xzero high low).size = 1 := Nat.succ_ne_self 1
      simp only [notZeroTag, isXzero, Bool.not_true, Bool.and_false, Bool.false_eq_true, false_and,
        if_false, if_true, false_or, Bool.or_true, value, size, notZero, splitBytes]
  | val value count notZeroTag notXzero _ readVal len val _ =>
      rw [read] at readVal len val
      subst readVal
      have valued : ¬(Opcode.val value count).value = 0 := Nat.succ_ne_zero _
      have size : (Opcode.val value count).size = 1 := rfl
      simp only [notZeroTag, notXzero, Bool.not_false, Bool.and_true, Bool.false_eq_true,
        false_and, if_false, true_and, or_false, Bool.or_false, len, val, valued, size, splitBytes]

/-! ### Step 3: the substitution -/

/-- The growth of the string that sends an add to `promote`. -/
def SplitTooLong (env : Env) (len : Nat) (opcode : Opcode) (seqlen : Nat) : Prop :=
  opcode.size < seqlen ∧ env.hll_sparse_max_bytes < len + (seqlen - opcode.size)

/-- Where `next` points, the end of the string included. -/
theorem sparseNext_eq (memory : Memory) (p : Nat) :
    (if hllSparseIsXzero memory p then p + 2 else p + 1) = p + (opcodeAt memory p).size := by
  rw [opcodeAt_size]
  split <;> rfl

theorem sparseOldlen_eq (memory : Memory) (p : Nat) :
    (if hllSparseIsXzero memory p then (2 : Int) else 1) = (opcodeAt memory p).size := by
  rw [opcodeAt_size]
  split <;> rfl

theorem hllSparseAddSubstitute_tooLong (env : Env) (s : Sds) (ele : List Byte) (scan : SparseScan)
    (seq : List Byte) (tooLong : SplitTooLong env s.len (opcodeAt s.buf scan.p) seq.length) :
    hllSparseAddSubstitute env s ele scan seq = hllSparseAddPromote env { ptr := s } ele := by
  obtain ⟨grows, exceeds⟩ := tooLong
  unfold hllSparseAddSubstitute
  simp only [sparseOldlen_eq]
  exact if_pos ⟨by omega, by omega⟩

/-- A substitution that fits moves the tail of the string, whatever it holds. -/
theorem hllSparseAddSubstitute_fits (env : Env) (s : Sds) (ele : List Byte) (scan : SparseScan)
    (seq : List Byte) (opcode : Opcode) (read : opcodeAt s.buf scan.p = opcode)
    (fits : ¬SplitTooLong env s.len opcode seq.length) :
    hllSparseAddSubstitute env s ele scan seq =
      match sdsIncrLen
          { s with
            buf :=
              if (seq.length : Int) - opcode.size ≠ 0 ∧ scan.p + opcode.size < s.len then
                memmove s.buf (((scan.p + opcode.size : Nat) : Int) +
                  (seq.length - opcode.size)).toNat (scan.p + opcode.size)
                  (s.len - (scan.p + opcode.size))
              else s.buf }
          (seq.length - opcode.size) with
      | .error abort => .error abort
      | .ok grown =>
          hllSparseAddUpdated { grown with buf := memcpy grown.buf scan.p seq } scan.prev
            (s.len + ((seq.length : Int) - opcode.size)).toNat := by
  subst read
  have notOver : ¬((seq.length : Int) - (opcodeAt s.buf scan.p).size > 0 ∧
      s.len + ((seq.length : Int) - (opcodeAt s.buf scan.p).size) > env.hll_sparse_max_bytes) := by
    rintro ⟨grows, exceeds⟩
    exact fits ⟨by omega, by omega⟩
  unfold hllSparseAddSubstitute
  simp only [sparseNext_eq, sparseOldlen_eq]
  exact if_neg notOver

private theorem hllSparseAddSubstitute_splice (env : Env) (s : Sds) (ele : List Byte)
    (scan : SparseScan) (opcode : Opcode) (after : List Opcode) (seq : List Byte)
    (encoded : EncodedAt s.buf scan.p s.len (opcode :: after)) (some : 1 ≤ seq.length)
    (room : seq.length ≤ opcode.size + s.free)
    (fits : ¬SplitTooLong env s.len opcode seq.length) :
    hllSparseAddSubstitute env s ele scan seq =
      hllSparseAddUpdated
        { len := scan.p + seq.length + sizeAll after
          free := s.free + opcode.size - seq.length
          buf := splice s.buf scan.p opcode.size (sizeAll after) seq 0 }
        scan.prev (scan.p + seq.length + sizeAll after) := by
  have sized := encoded.1
  rw [sizeAll_cons] at sized
  have read := opcodeAt_of_encode s.buf scan.p opcode ((encodedAt_cons ..).mp encoded).1
  have moved : (if (seq.length : Int) - opcode.size ≠ 0 ∧ scan.p + opcode.size < s.len then
        memmove s.buf (((scan.p + opcode.size : Nat) : Int) + (seq.length - opcode.size)).toNat
          (scan.p + opcode.size) (s.len - (scan.p + opcode.size))
      else s.buf) =
      memmove s.buf (scan.p + seq.length) (scan.p + opcode.size) (sizeAll after) := by
    by_cases same : seq.length = opcode.size
    · rw [if_neg (by omega), same, memmove_self]
    · by_cases last : sizeAll after = 0
      · rw [if_neg (by omega), last, memmove_nothing]
      · have target : (((scan.p + opcode.size : Nat) : Int) +
            (seq.length - opcode.size)).toNat = scan.p + seq.length := by omega
        have count : s.len - (scan.p + opcode.size) = sizeAll after := by omega
        rw [if_pos (by omega), target, count]
  have newLen : ((s.len : Int) + ((seq.length : Int) - opcode.size)).toNat =
      scan.p + seq.length + sizeAll after := by omega
  have newFree : ((s.free : Int) - ((seq.length : Int) - opcode.size)).toNat =
      s.free + opcode.size - seq.length := by omega
  rw [hllSparseAddSubstitute_fits env s ele scan seq opcode read fits, moved,
    sdsIncrLen_ok _ _ (by simp only; omega)]
  simp only [newLen, newFree]
  rfl

private theorem encodedAt_splice (memory : Memory) (p finish : Nat)
    (before after replacement : List Opcode) (opcode : Opcode)
    (encoded : EncodedAt memory p finish (before ++ opcode :: after)) :
    EncodedAt
      (splice memory (p + sizeAll before) opcode.size (sizeAll after) (encodeAll replacement) 0)
      p (p + sizeAll before + (encodeAll replacement).length + sizeAll after)
      (before ++ (replacement ++ after)) := by
  obtain ⟨beforeBytes, rest⟩ := (encodedAt_append ..).mp encoded
  obtain ⟨_opcodeBytes, _sized, afterBytes⟩ := (encodedAt_cons ..).mp rest
  have spliced := readBytes_splice memory (p + sizeAll before) opcode.size (sizeAll after)
    (encodeAll replacement) 0
  rw [afterBytes, ← encodeAll_append, encodeAll_length, ← sizeAll_append] at spliced
  rw [encodedAt_append]
  refine ⟨?_, ?_, spliced⟩
  · rw [← beforeBytes]
    exact readBytes_splice_below _ _ _ _ _ _ _ _ (Nat.le_refl _)
  · rw [sizeAll_append, encodeAll_length, Nat.add_assoc (p + sizeAll before)]

private theorem encodedAt_overwrite (memory : Memory) (p finish : Nat)
    (before after : List Opcode) (opcode replacement : Opcode) (opcodeSize : opcode.size = 1)
    (replacementSize : replacement.size = 1)
    (encoded : EncodedAt memory p finish (before ++ opcode :: after)) :
    EncodedAt (memcpy memory (p + sizeAll before) replacement.encode) p finish
      (before ++ replacement :: after) := by
  obtain ⟨beforeBytes, rest⟩ := (encodedAt_append ..).mp encoded
  obtain ⟨_opcodeBytes, afterEncoded⟩ := (encodedAt_cons ..).mp rest
  have single : replacement.encode.length = 1 := by
    rw [replacement.encode_length, replacementSize]
  rw [encodedAt_append, encodedAt_cons, replacementSize]
  refine ⟨?_, ?_, ?_⟩
  · rw [readBytes_memcpy_outside _ _ _ _ _ (Or.inl (Nat.le_refl _)), beforeBytes]
  · rw [← single, readBytes_memcpy]
  · rw [opcodeSize] at afterEncoded
    apply afterEncoded.congr
    intro offset lower _upper
    exact memcpy_above _ _ _ _ (by omega)

/-! ### Cases A to D on an encoded block -/

section Edit

variable {s : Sds} {before after : List Opcode} {opcode : Opcode} {count index : Nat}
  {prev : Option Nat} {seq : List Opcode}

/-- The label `updated`, once the split is in place. -/
private theorem edited_spec (edited : Sds)
    (encoded : EncodedAt edited.buf hllHdrSize edited.len (before ++ (seq ++ after)))
    (seqEq : seq = opcode.split count (index - lengthAll before)
      (lengthAll before + opcode.length - 1 - index))
    (start : prev.getD hllHdrSize = hllHdrSize + sizeAll (before.take (before.length - 1)))
    (header : ∀ offset, offset < hllHdrSize → edited.buf offset = s.buf offset)
    (terminated : s.buf s.len = 0 → edited.buf edited.len = 0) :
    ∃ next, hllSparseAddUpdated edited prev edited.len = .ok (1, { ptr := next }) ∧
      AddedTo s next (addOpcodes before after opcode count index) := by
  rw [← List.take_append_drop (before.length - 1) before, List.append_assoc] at encoded
  obtain ⟨next, ran, added⟩ := hllSparseAddUpdated_spec edited prev _ _ encoded start
  refine ⟨next, ran, ?_, ?_, fun before => added.terminated (terminated before)⟩
  · rw [addOpcodes, List.append_assoc, ← seqEq]
    exact added.encoded
  · intro offset inside
    have cached := header 15 (by decide)
    simp only [added.header offset inside, hllInvalidateCache, store, header offset inside,
      cached]

/-- Cases B and C: one VAL over an opcode that takes one byte and covers one
register. -/
private theorem overwritten_spec
    (encoded : EncodedAt s.buf hllHdrSize s.len (before ++ opcode :: after))
    (single : opcode.size = 1 ∧ opcode.length = 1) (lower : lengthAll before ≤ index)
    (upper : index < lengthAll before + opcode.length) (positive : 1 ≤ count) (small : count ≤ 32)
    (seqEq : seq = opcode.split count (index - lengthAll before)
      (lengthAll before + opcode.length - 1 - index))
    (start : prev.getD hllHdrSize = hllHdrSize + sizeAll (before.take (before.length - 1))) :
    sizeAll seq = 1 ∧
      ∃ next, hllSparseAddUpdated
          { s with buf := memcpy s.buf (hllHdrSize + sizeAll before) (hllSparseValSet count 1) }
          prev s.len = .ok (1, { ptr := next }) ∧
        AddedTo s next (addOpcodes before after opcode count index) := by
  obtain ⟨size, length⟩ := single
  have noneBefore : index - lengthAll before = 0 := by omega
  have noneAfter : lengthAll before + opcode.length - 1 - index = 0 := by omega
  have seqVal : seq = [Opcode.ofVal count 1] := by
    rw [seqEq, noneBefore, noneAfter]
    rfl
  have bytes := hllSparseValSet_eq count 1 positive small (by omega) (by omega)
  rw [Nat.cast_one] at bytes
  have valLength : (Opcode.ofVal count 1).encode.length = 1 := rfl
  have sized := encoded.1
  rw [sizeAll_append, sizeAll_cons, size] at sized
  have above : hllHdrSize + sizeAll before + (Opcode.ofVal count 1).encode.length ≤ s.len := by
    omega
  constructor
  · rw [seqVal]
    rfl
  · rw [bytes]
    apply edited_spec { s with buf := memcpy s.buf (hllHdrSize + sizeAll before) _ } _ seqEq start
    · intro offset inside
      exact memcpy_below _ _ _ _ (by omega)
    · intro terminated
      exact (memcpy_above _ _ _ _ above).trans terminated
    · rw [seqVal]
      exact encodedAt_overwrite s.buf hllHdrSize s.len before after opcode _ size rfl encoded

/-- Case D: the split in place of the opcode, or a promotion. -/
private theorem substituted_spec (env : Env) (ele : List Byte) (scan : SparseScan)
    (encoded : EncodedAt s.buf hllHdrSize s.len (before ++ opcode :: after))
    (p : scan.p = hllHdrSize + sizeAll before) (lower : lengthAll before ≤ index)
    (upper : index < lengthAll before + opcode.length) (room : 3 ≤ s.free)
    (seqEq : seq = opcode.split count (index - lengthAll before)
      (lengthAll before + opcode.length - 1 - index))
    (start : scan.prev.getD hllHdrSize = hllHdrSize + sizeAll (before.take (before.length - 1))) :
    (SplitTooLong env s.len opcode (sizeAll seq) ∧
        hllSparseAddSubstitute env s ele scan (encodeAll seq) =
          hllSparseAddPromote env { ptr := s } ele) ∨
      (¬SplitTooLong env s.len opcode (sizeAll seq) ∧
        ∃ next, hllSparseAddSubstitute env s ele scan (encodeAll seq) = .ok (1, { ptr := next }) ∧
          AddedTo s next (addOpcodes before after opcode count index)) := by
  have rest := ((encodedAt_append ..).mp encoded).2
  rw [← p] at rest
  have read := opcodeAt_of_encode s.buf scan.p opcode ((encodedAt_cons ..).mp rest).1
  obtain ⟨some, short⟩ := opcode.sizeAll_split_bounds count (index - lengthAll before)
    (lengthAll before + opcode.length - 1 - index) (by omega) (by omega)
  rw [← seqEq, ← encodeAll_length] at some short
  rw [← encodeAll_length seq]
  by_cases tooLong : SplitTooLong env s.len opcode (encodeAll seq).length
  · exact Or.inl ⟨tooLong, hllSparseAddSubstitute_tooLong env s ele scan _ (by rwa [read])⟩
  · right
    rw [hllSparseAddSubstitute_splice env s ele scan opcode after (encodeAll seq) rest some
      (by omega) tooLong]
    refine ⟨tooLong, edited_spec _ ?_ seqEq start ?_ ?_⟩
    · simp only [p]
      exact encodedAt_splice s.buf hllHdrSize s.len before after seq opcode encoded
    · intro offset inside
      exact splice_below _ _ _ _ _ _ _ (by omega)
    · intro _terminated
      exact splice_terminator _ _ _ _ _ _

end Edit

/-- Steps 2 to 4, when the scan has found the opcode that covers the register. -/
theorem hllSparseAddAt_spec (env : Env) (s : Sds) (ele : List Byte) (pattern : Pattern)
    (before after : List Opcode) (opcode : Opcode)
    (encoded : EncodedAt s.buf hllHdrSize s.len (before ++ opcode :: after))
    (lower : lengthAll before ≤ pattern.index)
    (upper : pattern.index < lengthAll before + opcode.length)
    (positive : 1 ≤ pattern.count) (small : pattern.count ≤ 32) (room : 3 ≤ s.free)
    (seq : List Opcode)
    (seqEq : seq = opcode.split pattern.count (pattern.index - lengthAll before)
      (lengthAll before + opcode.length - 1 - pattern.index))
    (scan : SparseScan)
    (scanEq : scan = { SparseScan.start.pass before with span := opcode.length }) :
    (pattern.count ≤ opcode.value ∧
        hllSparseAddAt env s ele pattern scan = .ok (0, { ptr := s })) ∨
      (opcode.value < pattern.count ∧ ¬SplitTooLong env s.len opcode (sizeAll seq) ∧
        ∃ next, hllSparseAddAt env s ele pattern scan = .ok (1, { ptr := next }) ∧
          AddedTo s next (addOpcodes before after opcode pattern.count pattern.index)) ∨
      (opcode.value < pattern.count ∧ SplitTooLong env s.len opcode (sizeAll seq) ∧
        hllSparseAddAt env s ele pattern scan = hllSparseAddPromote env { ptr := s } ele) := by
  have p : scan.p = hllHdrSize + sizeAll before := by
    rw [scanEq]
    exact SparseScan.pass_p _ before
  have first : scan.first = lengthAll before := by
    rw [scanEq]
    exact (SparseScan.pass_first _ before).trans (Nat.zero_add _)
  have start : scan.prev.getD hllHdrSize =
      hllHdrSize + sizeAll (before.take (before.length - 1)) := by
    rw [scanEq]
    exact SparseScan.pass_prev _ before hllHdrSize rfl rfl
  have span : scan.span = opcode.length := by rw [scanEq]
  clear scanEq
  have rest := ((encodedAt_append ..).mp encoded).2
  rw [← p] at rest
  have read := opcodeAt_of_encode s.buf scan.p opcode ((encodedAt_cons ..).mp rest).1
  rw [hllSparseAddAt_eq env s ele pattern scan opcode read positive]
  by_cases enough : pattern.count ≤ opcode.value
  · rw [if_pos enough]
    exact Or.inl ⟨enough, rfl⟩
  · have raises := Nat.lt_of_not_le enough
    rw [if_neg enough]
    right
    by_cases single : opcode.size = 1 ∧ opcode.length = 1
    · obtain ⟨seqSize, added⟩ := overwritten_spec encoded single lower upper positive small seqEq
        start
      have fits : ¬SplitTooLong env s.len opcode (sizeAll seq) := by
        rw [SplitTooLong, seqSize, single.1]
        exact fun grows => Nat.lt_irrefl 1 grows.1
      rw [if_pos single, p]
      exact Or.inl ⟨raises, fits, added⟩
    · rw [if_neg single, span, first,
        splitBytes_eq opcode _ _ _ positive small lower upper, ← seqEq]
      rcases substituted_spec env ele scan encoded p lower upper room seqEq start with
        ⟨tooLong, promotes⟩ | ⟨fits, added⟩
      · exact Or.inr ⟨raises, tooLong, promotes⟩
      · exact Or.inl ⟨raises, fits, added⟩

end PhpHll
