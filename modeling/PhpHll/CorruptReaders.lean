/-
The readers on corrupt payloads.

`hllLoad` checks the header only, so the payload behind it may be any bytes.
The sequence of opcodes that a scan of them visits decides which registers the
readers access and what they accept.  Both are compared with the format, which
gives the exact payloads on which the readers leave it.
-/

import PhpHll.CommandsSpec

namespace PhpHll

open ByteMemory

/-! ### Loading -/

theorem isHLLObjectOrReply_cases (o : Option Robj) :
    isHLLObjectOrReply o = cOk ∨ isHLLObjectOrReply o = cErr := by
  cases o with
  | none => exact Or.inr rfl
  | some o =>
      rw [isHLLObjectOrReply]
      split
      · exact Or.inr rfl
      · split
        · exact Or.inr rfl
        · split
          · exact Or.inr rfl
          · split
            · exact Or.inr rfl
            · exact Or.inl rfl

theorem accepted_of_hllLoad {env : Env} {raw : Sds} {o : Robj}
    (loaded : hllLoad env raw = (cOk, some o)) : isHLLObjectOrReply (some o) = cOk := by
  rw [hllLoad] at loaded
  split at loaded
  · rename_i notErr
    cases loaded
    exact (isHLLObjectOrReply_cases _).resolve_right notErr
  · cases loaded

theorem long_of_accepted {o : Robj} (accepted : isHLLObjectOrReply (some o) = cOk) :
    hllHdrSize ≤ o.ptr.len := ((accepted_iff o).mp accepted).1

/-! ### The registers accessed -/

/-- Every run of non-zero registers starts and ends within the array, with the
start taken as the running `int` index has it. -/
def RunsInArray (start : Nat) (opcodes : List Opcode) : Prop :=
  ∀ before opcode after, opcodes = before ++ opcode :: after → 0 < opcode.value →
    (start + lengthAll before) % 2 ^ 32 + opcode.length ≤ 16384

theorem runsInArray_nil (start : Nat) : RunsInArray start [] := by
  intro before opcode after split _positive
  exact absurd split.symm (by simp)

private theorem runsInArray_cons (start : Nat) (opcode : Opcode) (opcodes : List Opcode) :
    RunsInArray start (opcode :: opcodes) ↔
      (0 < opcode.value → start % 2 ^ 32 + opcode.length ≤ 16384) ∧
        RunsInArray (start + opcode.length) opcodes := by
  constructor
  · intro inside
    refine ⟨inside [] opcode opcodes rfl, ?_⟩
    intro before later after split positive
    have found := inside (opcode :: before) later after (by rw [split, List.cons_append]) positive
    rwa [lengthAll_cons, ← Nat.add_assoc] at found
  · rintro ⟨first, rest⟩ before later after split positive
    cases before with
    | nil =>
        obtain ⟨same, _⟩ := List.cons.inj split
        subst same
        exact first positive
    | cons head before =>
        obtain ⟨same, restSplit⟩ := List.cons.inj split
        subst same
        rw [lengthAll_cons, ← Nat.add_assoc]
        exact rest before later after restSplit positive

theorem runsInArray_of_covered {opcodes : List Opcode} (covered : lengthAll opcodes = 16384) :
    RunsInArray 0 opcodes := by
  intro before opcode after split _positive
  rw [split, lengthAll_append, lengthAll_cons] at covered
  omega

private theorem run_in_array_iff (start count : Nat) (positive : 0 < count) (short : count ≤ 4) :
    (∀ k < count, 0 ≤ int32 ((start : Int) + (k : Nat)) ∧
        int32 ((start : Int) + (k : Nat)) < 16384) ↔
      start % 2 ^ 32 + count ≤ 16384 := by
  unfold int32
  constructor
  · intro inside
    have first := inside 0 positive
    have last := inside (count - 1) (Nat.sub_lt positive Nat.one_pos)
    omega
  · intro fits k turn
    omega

/-- The run lemma: the accesses of a whole sequence, from any index on. -/
theorem accessedIndices_in_array_iff (start : Nat) (opcodes : List Opcode) :
    (∀ idx ∈ accessedIndices start opcodes, 0 ≤ idx ∧ idx < 16384) ↔
      RunsInArray start opcodes := by
  induction opcodes generalizing start with
  | nil => exact iff_of_true (List.forall_mem_nil _) (runsInArray_nil start)
  | cons opcode opcodes ih =>
      rw [runsInArray_cons, ← ih, Nat.cast_add]
      cases opcode with
      | zero count =>
          rw [accessedIndices]
          · exact (and_iff_right (fun positive => absurd positive (Nat.lt_irrefl 0))).symm
          · intro _ _ impossible
            cases impossible
      | xzero high low =>
          rw [accessedIndices]
          · exact (and_iff_right (fun positive => absurd positive (Nat.lt_irrefl 0))).symm
          · intro _ _ impossible
            cases impossible
      | val value count =>
          have valued : 0 < (Opcode.val value count).value := Nat.succ_pos _
          have fits := run_in_array_iff start (Opcode.val value count).length
            (Opcode.length_pos _) (Opcode.val_length_le value count)
          rw [accessedIndices, List.forall_mem_append, List.forall_mem_map, ← fits]
          simp only [List.mem_range, valued, forall_const]

/-- The registers that a promotion or a merge of a sparse object accesses all
lie in the array exactly when every VAL run of its payload does. -/
theorem register_accesses_in_array_iff (env : Env) (o : Robj)
    (sparse : encoding o.ptr.buf = hllSparse) :
    ((∀ idx ∈ hllSparseToDenseIndices env o, 0 ≤ idx ∧ idx < 16384) ∧
        ∀ (max : Memory) (base : Nat), ∀ idx ∈ hllMergeIndices max base o, 0 ≤ idx ∧ idx < 16384) ↔
      RunsInArray 0 (payloadOpcodes o.ptr) := by
  have notDense := notDense_of_sparse sparse
  have inside := accessedIndices_in_array_iff 0 (payloadOpcodes o.ptr)
  rw [Nat.cast_zero] at inside
  simp only [hllSparseToDenseIndices, hllMergeIndices, if_neg notDense, denseFill_touched,
    mergeFill_touched, inside]
  exact ⟨And.left, fun fits => ⟨fits, fun _ _ => fits⟩⟩

/-- The only VAL of the payload stands for register 65. -/
theorem register_accesses_in_array_iff_foreign :
    65 ∈ hllSparseToDenseIndices server foreign ∧
      (∀ idx ∈ hllSparseToDenseIndices server foreign, 0 ≤ idx ∧ idx < 16384) ∧
      ∀ (max : Memory) (base : Nat), ∀ idx ∈ hllMergeIndices max base foreign,
        0 ≤ idx ∧ idx < 16384 := by
  refine ⟨?_, (register_accesses_in_array_iff server foreign foreign_sparse.1).mpr
    (runsInArray_of_covered foreign_sparse.2.covered)⟩
  rw [hllSparseToDenseIndices, if_neg foreign_sparse.notDense, denseFill_touched, foreign_payload]
  decide

/-- One register too many: an XZERO over the whole array, then a VAL. -/
def overlongPayload : List Byte := [0x7f#8, 0xff#8, 0x80#8]

def loadedOverlong : Robj := { ptr := sdsdup server (sparseString overlongPayload) }

theorem register_accesses_past_the_array :
    hllLoad server (sparseString overlongPayload) = (cOk, some loadedOverlong) ∧
      encoding loadedOverlong.ptr.buf = hllSparse ∧
      16384 ∈ hllSparseToDenseIndices server loadedOverlong ∧
      (∀ (max : Memory) (base : Nat), 16384 ∈ hllMergeIndices max base loadedOverlong) ∧
      ¬∀ idx ∈ hllSparseToDenseIndices server loadedOverlong, 0 ≤ idx ∧ idx < 16384 := by
  have accepted : isHLLObjectOrReply (some loadedOverlong) = cOk := by decide
  have sparse : encoding loadedOverlong.ptr.buf = hllSparse := by decide
  have notDense := notDense_of_sparse sparse
  have accessed : 16384 ∈ accessedIndices 0 (payloadOpcodes loadedOverlong.ptr) := by
    decide +kernel
  have promoting : 16384 ∈ hllSparseToDenseIndices server loadedOverlong := by
    rw [hllSparseToDenseIndices, if_neg notDense, denseFill_touched]
    exact accessed
  have merging (max : Memory) (base : Nat) : 16384 ∈ hllMergeIndices max base loadedOverlong := by
    rw [hllMergeIndices, if_neg notDense, mergeFill_touched]
    exact accessed
  exact ⟨hllLoad_of_accepted _ _ accepted, sparse, promoting, merging,
    fun inside => Int.lt_irrefl _ (inside 16384 promoting).2⟩

/-! ### What the readers accept -/

/-- The last opcode is an XZERO whose second byte lies past the end. -/
def RunsPastEnd (s : Sds) : Prop := s.len < hllHdrSize + sizeAll (payloadOpcodes s)

theorem sparsePayload_iff_of_wrapped (s : Sds) (long : hllHdrSize ≤ s.len) :
    SparsePayload s ↔
      lengthAll (payloadOpcodes s) % 2 ^ 32 = 16384 ∧
        ¬(lengthAll (payloadOpcodes s) ≠ 16384 ∨ RunsPastEnd s) := by
  have stops : hllHdrSize + sizeAll (payloadOpcodes s) = s.len ∨
      hllHdrSize + sizeAll (payloadOpcodes s) = s.len + 1 :=
    opcodesFrom_stop s.buf hllHdrSize s.len long
  rw [sparsePayload_iff s long, RunsPastEnd]
  omega

theorem hllSparseToDense_ok_iff (env : Env) (o : Robj) (sparse : encoding o.ptr.buf ≠ hllDense) :
    (hllSparseToDense env o).1 = cOk ↔ lengthAll (payloadOpcodes o.ptr) % 2 ^ 32 = 16384 := by
  rcases hllSparseToDense_status env o sparse with ⟨ok, wrapped⟩ | ⟨failed, other⟩
  · exact iff_of_true ok wrapped
  · refine iff_of_false ?_ other
    rw [failed]
    exact cOk_ne_cErr.symm

theorem hllMerge_ok_iff (max : Memory) (base : Nat) (hll : Robj)
    (sparse : encoding hll.ptr.buf ≠ hllDense) :
    (hllMerge max base hll).1 = cOk ↔ lengthAll (payloadOpcodes hll.ptr) % 2 ^ 32 = 16384 := by
  rcases hllMerge_status max base hll sparse with ⟨ok, wrapped⟩ | ⟨failed, other⟩
  · exact iff_of_true ok wrapped
  · refine iff_of_false ?_ other
    rw [failed]
    exact cOk_ne_cErr.symm

theorem pfCount_card_iff (env : Env) (o : Robj) (accepted : isHLLObjectOrReply (some o) = cOk)
    (sparse : encoding o.ptr.buf = hllSparse) (stale : hllValidCache o.ptr.buf = false) :
    (∃ card next, pfCount env (some o) = .ok (.card card, next)) ↔
      lengthAll (payloadOpcodes o.ptr) % 2 ^ 32 = 16384 := by
  have notDense := notDense_of_sparse sparse
  have finish : hllHdrSize + (o.ptr.len - hllHdrSize) = o.ptr.len :=
    Nat.add_sub_cancel' (long_of_accepted accepted)
  have invalid := hllSparseSum_invalid o.ptr.buf hllHdrSize (o.ptr.len - hllHdrSize)
  rw [finish] at invalid
  have count : hllCount env o.ptr.buf o.ptr.len =
      .ok (env.estimate (hllSparseSum o.ptr.buf hllHdrSize (o.ptr.len - hllHdrSize)).1.E
          (hllSparseSum o.ptr.buf hllHdrSize (o.ptr.len - hllHdrSize)).1.ez,
        (hllSparseSum o.ptr.buf hllHdrSize (o.ptr.len - hllHdrSize)).2) := by
    rw [hllCount]
    simp only [if_neg notDense, if_pos sparse]
  rw [pfCount, if_neg (not_not.mpr accepted)]
  simp only [stale, Bool.false_eq_true, if_false, count]
  rw [payloadOpcodes, ← invalid]
  cases (hllSparseSum o.ptr.buf hllHdrSize (o.ptr.len - hllHdrSize)).2 with
  | false => exact iff_of_true ⟨_, _, rfl⟩ rfl
  | true =>
      refine iff_of_false ?_ Bool.noConfusion
      rintro ⟨card, next, impossible⟩
      cases impossible

/-- The three readers accept exactly the sparse format, unless the run lengths
come to 16384 modulo `2 ^ 32` without being 16384, or only with a second byte
of an XZERO that is not part of the string. -/
theorem readers_accept_format_iff (env : Env) (o : Robj)
    (accepted : isHLLObjectOrReply (some o) = cOk) (sparse : encoding o.ptr.buf = hllSparse) :
    (((hllSparseToDense env o).1 = cOk ↔ SparsePayload o.ptr) ∧
        (∀ (max : Memory) (base : Nat), (hllMerge max base o).1 = cOk ↔ SparsePayload o.ptr) ∧
        (hllValidCache o.ptr.buf = false →
          ((∃ card next, pfCount env (some o) = .ok (.card card, next)) ↔ SparsePayload o.ptr))) ↔
      ¬(lengthAll (payloadOpcodes o.ptr) % 2 ^ 32 = 16384 ∧
        (lengthAll (payloadOpcodes o.ptr) ≠ 16384 ∨ RunsPastEnd o.ptr)) := by
  have notDense := notDense_of_sparse sparse
  have format := sparsePayload_iff_of_wrapped o.ptr (long_of_accepted accepted)
  constructor
  · rintro ⟨promotes, _merges, _counts⟩ ⟨wrapped, wrong⟩
    have payload := promotes.mp ((hllSparseToDense_ok_iff env o notDense).mpr wrapped)
    exact (format.mp payload).2 wrong
  · intro clean
    have same : lengthAll (payloadOpcodes o.ptr) % 2 ^ 32 = 16384 ↔ SparsePayload o.ptr :=
      ⟨fun wrapped => format.mpr ⟨wrapped, fun wrong => clean ⟨wrapped, wrong⟩⟩,
        fun payload => (format.mp payload).1⟩
    exact ⟨(hllSparseToDense_ok_iff env o notDense).trans same,
      fun max base => (hllMerge_ok_iff max base o notDense).trans same,
      fun stale => (pfCount_card_iff env o accepted sparse stale).trans same⟩

/-- A payload of the format that this code does not write, with a stale
cardinality, so that all three readers walk through it. -/
theorem readers_accept_format_iff_foreign :
    SparsePayload (invalidate foreign).ptr ∧
      (hllSparseToDense server (invalidate foreign)).1 = cOk ∧
      (∀ (max : Memory) (base : Nat), (hllMerge max base (invalidate foreign)).1 = cOk) ∧
      ∃ card next, pfCount server (some (invalidate foreign)) = .ok (.card card, next) := by
  have formed := foreign_formed.of_sameButCard (sameButCard_invalidate foreign)
  have sparse : encoding (invalidate foreign).ptr.buf = hllSparse :=
    (encoding_invalidate foreign).trans foreign_sparse.1
  have payload : SparsePayload (invalidate foreign).ptr := by decide +kernel
  have clean : ¬(lengthAll (payloadOpcodes (invalidate foreign).ptr) % 2 ^ 32 = 16384 ∧
      (lengthAll (payloadOpcodes (invalidate foreign).ptr) ≠ 16384 ∨
        RunsPastEnd (invalidate foreign).ptr)) := by
    rw [RunsPastEnd, payload.sized, payload.covered]
    simp
  obtain ⟨promotes, merges, counts⟩ :=
    (readers_accept_format_iff server (invalidate foreign) formed.accepted sparse).mpr clean
  exact ⟨payload, promotes.mpr payload, fun max base => (merges max base).mpr payload,
    (counts (by decide)).mpr payload⟩

/-- Three ZERO opcodes of 64, one of 63, and the first byte of an XZERO, which
the terminator completes to a run of 16129. -/
def truncatedPayload : List Byte := [0x3f#8, 0x3f#8, 0x3f#8, 0x3e#8, 0x7f#8]

def staleTruncated : Robj := invalidate { ptr := sparseString truncatedPayload }

theorem readers_accept_truncated :
    isHLLObjectOrReply (some staleTruncated) = cOk ∧
      encoding staleTruncated.ptr.buf = hllSparse ∧
      hllValidCache staleTruncated.ptr.buf = false ∧
      ¬SparsePayload staleTruncated.ptr ∧
      (hllSparseToDense server staleTruncated).1 = cOk ∧
      (∀ (max : Memory) (base : Nat), (hllMerge max base staleTruncated).1 = cOk) ∧
      ∃ card next, pfCount server (some staleTruncated) = .ok (.card card, next) := by
  have accepted : isHLLObjectOrReply (some staleTruncated) = cOk := by decide
  have sparse : encoding staleTruncated.ptr.buf = hllSparse := by decide
  have notDense := notDense_of_sparse sparse
  have stale : hllValidCache staleTruncated.ptr.buf = false := by decide
  have wrapped : lengthAll (payloadOpcodes staleTruncated.ptr) % 2 ^ 32 = 16384 := by
    decide +kernel
  exact ⟨accepted, sparse, stale, by decide +kernel,
    (hllSparseToDense_ok_iff _ _ notDense).mpr wrapped,
    fun max base => (hllMerge_ok_iff max base _ notDense).mpr wrapped,
    (pfCount_card_iff _ _ accepted sparse stale).mpr wrapped⟩

end PhpHll
