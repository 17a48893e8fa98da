/-
Blocks of memory that hold a sequence of opcodes, and the scan of the sparse
add over them.

`EncodedAt` relates a block to its sequence.  The scan passes the opcodes that
end before a register and stops at the one that covers it, or past them all.
-/

import PhpHll.SparseAdd
import PhpHll.SparseEdit

namespace PhpHll

open ByteMemory

/-! ### Blocks that hold a sequence -/

/-- The bytes from `p` up to `finish` are the encoding of a sequence. -/
def EncodedAt (memory : Memory) (p finish : Nat) (opcodes : List Opcode) : Prop :=
  p + sizeAll opcodes = finish ∧ readBytes memory p (sizeAll opcodes) = encodeAll opcodes

theorem encodedAt_append (memory : Memory) (p finish : Nat) (first second : List Opcode) :
    EncodedAt memory p finish (first ++ second) ↔
      readBytes memory p (sizeAll first) = encodeAll first ∧
        EncodedAt memory (p + sizeAll first) finish second := by
  unfold EncodedAt
  rw [sizeAll_append, encodeAll_append, readBytes_add, Nat.add_assoc]
  constructor
  · rintro ⟨sized, bytes⟩
    obtain ⟨firstBytes, secondBytes⟩ := List.append_inj bytes
      (by rw [readBytes_length, encodeAll_length])
    exact ⟨firstBytes, sized, secondBytes⟩
  · rintro ⟨firstBytes, sized, secondBytes⟩
    exact ⟨sized, by rw [firstBytes, secondBytes]⟩

theorem encodedAt_cons (memory : Memory) (p finish : Nat) (opcode : Opcode)
    (opcodes : List Opcode) :
    EncodedAt memory p finish (opcode :: opcodes) ↔
      readBytes memory p opcode.size = opcode.encode ∧
        EncodedAt memory (p + opcode.size) finish opcodes := by
  have single := encodedAt_append memory p finish [opcode] opcodes
  simpa only [List.singleton_append, sizeAll_cons, sizeAll_nil, Nat.add_zero, encodeAll_cons,
    encodeAll_nil, List.append_nil] using single

theorem EncodedAt.congr {memory other : Memory} {p finish : Nat} {opcodes : List Opcode}
    (encoded : EncodedAt memory p finish opcodes)
    (same : ∀ offset, p ≤ offset → offset < finish → other offset = memory offset) :
    EncodedAt other p finish opcodes := by
  obtain ⟨sized, bytes⟩ := encoded
  refine ⟨sized, ?_⟩
  rw [← bytes]
  apply readBytes_congr
  intro offset lower upper
  exact same offset lower (by omega)

theorem EncodedAt.opcodesFrom {memory : Memory} {p finish : Nat} {opcodes : List Opcode}
    (encoded : EncodedAt memory p finish opcodes) : opcodesFrom memory p finish = opcodes := by
  obtain ⟨sized, bytes⟩ := encoded
  rw [← sized, opcodesFrom_of_encode memory p opcodes bytes]

theorem encodedAt_payload (s : Sds) (sized : hllHdrSize + sizeAll (payloadOpcodes s) = s.len) :
    EncodedAt s.buf hllHdrSize s.len (payloadOpcodes s) :=
  ⟨sized, (encodeAll_opcodesFrom s.buf hllHdrSize s.len).symm⟩

theorem EncodedAt.payload {s : Sds} {opcodes : List Opcode}
    (encoded : EncodedAt s.buf hllHdrSize s.len opcodes) : payloadOpcodes s = opcodes :=
  encoded.opcodesFrom

theorem EncodedAt.sparsePayload {s : Sds} {opcodes : List Opcode}
    (encoded : EncodedAt s.buf hllHdrSize s.len opcodes) (covered : lengthAll opcodes = 16384) :
    SparsePayload s := by
  have long : hllHdrSize ≤ s.len := by
    rw [← encoded.1]
    exact Nat.le_add_right _ _
  rw [sparsePayload_iff s long, encoded.payload]
  exact ⟨encoded.1, covered⟩

/-! ### Step 1: the scan -/

def SparseScan.start : SparseScan := { p := hllHdrSize, prev := none, first := 0, span := 0 }

def SparseScan.pass (scan : SparseScan) (passed : List Opcode) : SparseScan :=
  passed.foldl
    (fun scan opcode =>
      { p := scan.p + opcode.size
        prev := some scan.p
        first := scan.first + opcode.length
        span := opcode.length }) scan

theorem SparseScan.pass_p (scan : SparseScan) (passed : List Opcode) :
    (scan.pass passed).p = scan.p + sizeAll passed := by
  induction passed generalizing scan with
  | nil => rfl
  | cons opcode passed ih =>
      change (SparseScan.pass _ passed).p = _
      rw [ih, sizeAll_cons, Nat.add_assoc]

theorem SparseScan.pass_first (scan : SparseScan) (passed : List Opcode) :
    (scan.pass passed).first = scan.first + lengthAll passed := by
  induction passed generalizing scan with
  | nil => rfl
  | cons opcode passed ih =>
      change (SparseScan.pass _ passed).first = _
      rw [ih, lengthAll_cons, Nat.add_assoc]

theorem SparseScan.pass_append (scan : SparseScan) (first second : List Opcode) :
    scan.pass (first ++ second) = (scan.pass first).pass second := List.foldl_append

theorem SparseScan.pass_prev (scan : SparseScan) (passed : List Opcode) (start : Nat)
    (initial : scan.prev = none) (here : scan.p = start) :
    (scan.pass passed).prev.getD start =
      start + sizeAll (passed.take (passed.length - 1)) := by
  rcases List.eq_nil_or_concat passed with empty | ⟨kept, last, split⟩
  · subst empty
    simp [SparseScan.pass, initial]
  · rw [List.concat_eq_append] at split
    subst split
    rw [SparseScan.pass_append]
    change (some (scan.pass kept).p).getD start = _
    rw [Option.getD_some, SparseScan.pass_p, here, List.length_append, List.length_singleton,
      Nat.add_sub_cancel, List.take_left]

/-- The step lemma: an opcode that covers the register stops the scan, any
other is passed. -/
private theorem sparseScan_step (memory : Memory) (index finish : Nat) (scan : SparseScan)
    (more : scan.p < finish) :
    sparseScan memory index finish scan =
      if index < scan.first + (opcodeAt memory scan.p).length then
        { scan with span := (opcodeAt memory scan.p).length }
      else sparseScan memory index finish (scan.pass [opcodeAt memory scan.p]) := by
  have positive := (opcodeAt memory scan.p).length_pos
  have reached : index ≤ scan.first + (opcodeAt memory scan.p).length - 1 ↔
      index < scan.first + (opcodeAt memory scan.p).length := by omega
  rw [sparseScan, if_pos more]
  cases opcodeView memory scan.p with
  | zero count isZero _ _ read len _ =>
      simp only [isZero, if_true, len, reached]
      rw [read]
      rfl
  | xzero high low notZero _ notVal read len _ =>
      simp only [notZero, notVal, Bool.false_eq_true, if_false, len, reached]
      rw [read]
      rfl
  | val value count notZero _ isVal read len _ _ =>
      simp only [notZero, isVal, Bool.false_eq_true, if_false, if_true, len, reached]
      rw [read]
      rfl

theorem sparseScan_pass (memory : Memory) (index finish : Nat) (passed rest : List Opcode)
    (scan : SparseScan) (here : opcodesFrom memory scan.p finish = passed ++ rest)
    (before : scan.first + lengthAll passed ≤ index) :
    sparseScan memory index finish scan = sparseScan memory index finish (scan.pass passed) ∧
      opcodesFrom memory (scan.pass passed).p finish = rest := by
  induction passed generalizing scan with
  | nil => exact ⟨rfl, here⟩
  | cons opcode passed ih =>
      have more : scan.p < finish := by
        by_contra done
        rw [opcodesFrom_done _ _ _ (by omega)] at here
        cases here
      rw [opcodesFrom_step _ _ _ more, List.cons_append] at here
      obtain ⟨read, later⟩ := List.cons.inj here
      rw [lengthAll_cons] at before
      rw [sparseScan_step memory index finish scan more, read, if_neg (by omega)]
      rw [read] at later
      have passes : scan.first + opcode.length + lengthAll passed ≤ index := by omega
      exact ih (scan.pass [opcode]) later passes

theorem sparseScan_found (memory : Memory) (index finish : Nat) (before after : List Opcode)
    (opcode : Opcode) (scan : SparseScan)
    (here : opcodesFrom memory scan.p finish = before ++ opcode :: after)
    (lower : scan.first + lengthAll before ≤ index)
    (upper : index < scan.first + lengthAll before + opcode.length) :
    sparseScan memory index finish scan = { scan.pass before with span := opcode.length } ∧
      opcodeAt memory (scan.pass before).p = opcode := by
  obtain ⟨passed, rest⟩ := sparseScan_pass memory index finish before (opcode :: after) scan here
    lower
  have more : (scan.pass before).p < finish := by
    by_contra done
    rw [opcodesFrom_done _ _ _ (by omega)] at rest
    cases rest
  rw [opcodesFrom_step _ _ _ more] at rest
  have read := (List.cons.inj rest).1
  have reached : index < (scan.pass before).first + opcode.length := by
    rw [SparseScan.pass_first]
    exact upper
  rw [passed, sparseScan_step _ _ _ _ more, read, if_pos reached]
  exact ⟨rfl, rfl⟩

/-- If no opcode covers the register the scan passes them all. -/
theorem sparseScan_past (memory : Memory) (index finish : Nat) (scan : SparseScan)
    (past : scan.first + lengthAll (opcodesFrom memory scan.p finish) ≤ index)
    (stops : finish ≤ scan.p + sizeAll (opcodesFrom memory scan.p finish)) :
    sparseScan memory index finish scan = scan.pass (opcodesFrom memory scan.p finish) := by
  obtain ⟨passed, _rest⟩ := sparseScan_pass memory index finish
    (opcodesFrom memory scan.p finish) [] scan (List.append_nil _).symm past
  rw [passed, sparseScan, if_neg (by rw [SparseScan.pass_p]; omega)]

end PhpHll
