/-
The sparse add stays inside its buffer.

For a string of `len` bytes the accesses may use the offsets up to `len + 3`:
the string, the three reserved bytes and the terminator behind them.  The scan
and the merge loop stay below the end they are given, whatever they read; the
opcode that covers the register lies in the string, its split is at most three
bytes longer, and the tail moves with the terminator left to `sdsIncrLen`.
-/

import PhpHll.Invariant
import PhpHll.SparseAccess

namespace PhpHll

open ByteMemory Logged

/-- The bounds of an access, for a string of `len` bytes: offsets of the string
up to the terminator behind three more bytes, five bytes of `seq`, and run
lengths and values that their opcodes can say. -/
def Access.InBounds (len : Nat) : Access → Prop
  | .read .string offset => 0 ≤ offset ∧ offset ≤ len + 3
  | .write .string offset => 0 ≤ offset ∧ offset ≤ len + 3
  | .read .seq offset => 0 ≤ offset ∧ offset < 5
  | .write .seq offset => 0 ≤ offset ∧ offset < 5
  | .valSet val run => 1 ≤ val ∧ val ≤ 32 ∧ 1 ≤ run ∧ run ≤ 4
  | .zeroSet run => 1 ≤ run ∧ run ≤ 64
  | .xzeroSet run => 65 ≤ run ∧ run ≤ 16384

section Bounds

variable {len : Nat}

/-! ### Single accesses -/

theorem inBounds_read {offset : Int} :
    (Access.read .string offset).InBounds len ↔ 0 ≤ offset ∧ offset ≤ len + 3 := Iff.rfl

theorem inBounds_write {offset : Int} :
    (Access.write .string offset).InBounds len ↔ 0 ≤ offset ∧ offset ≤ len + 3 := Iff.rfl

section Loads

variable {memory : Memory} {p : Nat} (inside : p ≤ len + 3)

include inside

theorem loadLogged_inBounds : (loadLogged memory p).Each (Access.InBounds len) := by
  rw [loadLogged, each_bind, each_emit]
  exact ⟨⟨by omega, by omega⟩, each_pure _⟩

theorem hllSparseIsZeroLogged_inBounds :
    (hllSparseIsZeroLogged memory p).Each (Access.InBounds len) :=
  (each_bind _ _).mpr ⟨loadLogged_inBounds inside, each_pure _⟩

theorem hllSparseIsXzeroLogged_inBounds :
    (hllSparseIsXzeroLogged memory p).Each (Access.InBounds len) :=
  (each_bind _ _).mpr ⟨loadLogged_inBounds inside, each_pure _⟩

theorem hllSparseIsValLogged_inBounds :
    (hllSparseIsValLogged memory p).Each (Access.InBounds len) :=
  (each_bind _ _).mpr ⟨loadLogged_inBounds inside, each_pure _⟩

theorem hllSparseZeroLenLogged_inBounds :
    (hllSparseZeroLenLogged memory p).Each (Access.InBounds len) :=
  (each_bind _ _).mpr ⟨loadLogged_inBounds inside, each_pure _⟩

theorem hllSparseValValueLogged_inBounds :
    (hllSparseValValueLogged memory p).Each (Access.InBounds len) :=
  (each_bind _ _).mpr ⟨loadLogged_inBounds inside, each_pure _⟩

theorem hllSparseValLenLogged_inBounds :
    (hllSparseValLenLogged memory p).Each (Access.InBounds len) :=
  (each_bind _ _).mpr ⟨loadLogged_inBounds inside, each_pure _⟩

end Loads

/-- The only macro that reads a second byte. -/
theorem hllSparseXzeroLenLogged_inBounds {memory : Memory} {p : Nat} (inside : p + 1 ≤ len + 3) :
    (hllSparseXzeroLenLogged memory p).Each (Access.InBounds len) := by
  rw [hllSparseXzeroLenLogged, each_bind, each_bind]
  exact ⟨loadLogged_inBounds (by omega), loadLogged_inBounds inside, each_pure _⟩

theorem hllSparseValSetLogged_string_inBounds {p : Nat} {val run : Int} (inside : p ≤ len + 3)
    (valued : 1 ≤ val ∧ val ≤ 32) (sized : 1 ≤ run ∧ run ≤ 4) :
    (hllSparseValSetLogged .string p val run).Each (Access.InBounds len) := by
  rw [hllSparseValSetLogged, each_bind, each_bind, each_emit, each_emit]
  exact ⟨⟨valued.1, valued.2, sized⟩, ⟨by omega, by omega⟩, each_pure _⟩

theorem hllSparseValSetLogged_seq_inBounds {n : Nat} {val run : Int} (inside : n < 5)
    (valued : 1 ≤ val ∧ val ≤ 32) (sized : 1 ≤ run ∧ run ≤ 4) :
    (hllSparseValSetLogged .seq n val run).Each (Access.InBounds len) := by
  rw [hllSparseValSetLogged, each_bind, each_bind, each_emit, each_emit]
  exact ⟨⟨valued.1, valued.2, sized⟩, ⟨by omega, by omega⟩, each_pure _⟩

theorem memmoveLogged_inBounds {memory : Memory} {dst : Int} {src count : Nat}
    (front : 0 ≤ dst) (source : src + count ≤ len + 4) (target : dst + count ≤ len + 4) :
    (memmoveLogged memory dst src count).Each (Access.InBounds len) := by
  have reads : ∀ i ∈ List.range count, (Access.read .string (src + (i : Nat))).InBounds len := by
    intro i member
    have below := List.mem_range.mp member
    exact ⟨by omega, by omega⟩
  have writes : ∀ i ∈ List.range count, (Access.write .string (dst + (i : Nat))).InBounds len := by
    intro i member
    have below := List.mem_range.mp member
    exact ⟨by omega, by omega⟩
  rw [memmoveLogged, each_bind, each_bind, each_emitAll, each_emitAll, List.forall_mem_map,
    List.forall_mem_map]
  exact ⟨reads, writes, each_pure _⟩

theorem memcpyLogged_inBounds {memory : Memory} {p : Nat} {seq : List Byte}
    (short : seq.length ≤ 5) (target : p + seq.length ≤ len + 4) :
    (memcpyLogged memory p seq).Each (Access.InBounds len) := by
  have reads : ∀ i ∈ List.range seq.length, (Access.read .seq (i : Nat)).InBounds len := by
    intro i member
    have below := List.mem_range.mp member
    exact ⟨by omega, by omega⟩
  have writes : ∀ i ∈ List.range seq.length,
      (Access.write .string (p + (i : Nat))).InBounds len := by
    intro i member
    have below := List.mem_range.mp member
    exact ⟨by omega, by omega⟩
  rw [memcpyLogged, each_bind, each_bind, each_emitAll, each_emitAll, List.forall_mem_map,
    List.forall_mem_map]
  exact ⟨reads, writes, each_pure _⟩

theorem sdsIncrLenLogged_inBounds {s : Sds} {incr : Int} (front : 0 ≤ s.len + incr)
    (inside : s.len + incr ≤ len + 3) :
    (sdsIncrLenLogged s incr).Each (Access.InBounds len) := by
  rw [sdsIncrLenLogged]
  cases sdsIncrLen s incr with
  | error abort => exact each_pure _
  | ok grown =>
      rw [each_bind, each_emit]
      exact ⟨⟨front, inside⟩, each_pure _⟩

/-! ### The scan -/

theorem sparseSpanLogged_inBounds {memory : Memory} {p : Nat} (inside : p + 1 ≤ len + 3) :
    (sparseSpanLogged memory p).Each (Access.InBounds len) := by
  have here : p ≤ len + 3 := by omega
  simp only [sparseSpanLogged, each_bind, each_ite, each_pure, and_true]
  exact ⟨hllSparseIsZeroLogged_inBounds here, fun _ => hllSparseZeroLenLogged_inBounds here,
    fun _ => ⟨hllSparseIsValLogged_inBounds here, fun _ => hllSparseValLenLogged_inBounds here,
      fun _ => hllSparseXzeroLenLogged_inBounds inside⟩⟩

/-- The scan reads below the end it is given, and the byte there when the last
opcode is an XZERO. -/
theorem sparseScanLogged_inBounds (memory : Memory) (index finish : Nat) (scan : SparseScan)
    (inside : finish ≤ len + 3) :
    (sparseScanLogged memory index finish scan).Each (Access.InBounds len) := by
  rw [sparseScanLogged, each_ite]
  constructor
  · intro more
    simp only [each_bind, each_ite, each_pure, implies_true, true_and]
    exact ⟨sparseSpanLogged_inBounds (by omega),
      fun _ => sparseScanLogged_inBounds memory index finish _ inside⟩
  · exact fun _ => each_pure _
termination_by finish - scan.p
decreasing_by
  split <;> omega

/-! ### The merge loop -/

theorem hllSparseValValue_bounds (memory : Memory) (p : Nat) :
    1 ≤ hllSparseValValue memory p ∧ hllSparseValValue memory p ≤ 32 := by
  have fiveBits : ∀ byte : Byte, ((byte >>> 2) &&& 0x1f#8).toNat < 32 := by decide
  have small := fiveBits (memory p)
  rw [hllSparseValValue]
  omega

/-- The step behind every merge: the string is one byte shorter, and so is the
end the loop goes on with.  The tail that moves starts at `p + 1` and includes
the terminator. -/
theorem sparseMergeLoopLogged_inBounds (scanlen : Nat) (s : Sds) (p finish : Nat)
    (sized : s.len = finish) (inside : finish ≤ len + 3) :
    (sparseMergeLoopLogged scanlen s p finish).Each (Access.InBounds len) := by
  induction scanlen generalizing s p finish with
  | zero => exact each_pure _
  | succ scanlen ih =>
      have goesOn (q : Nat) := ih s q finish sized inside
      rw [sparseMergeLoopLogged, each_ite]
      constructor
      · intro more
        have here : p ≤ len + 3 := by omega
        have there : p + 1 ≤ len + 3 := by omega
        have value := hllSparseValValue_bounds s.buf p
        simp only [each_bind, each_ite, each_pure, each_andThen, implies_true, and_true,
          hllSparseValValueLogged_value, hllSparseValLenLogged_value]
        constructor
        · exact hllSparseIsXzeroLogged_inBounds here
        constructor
        · exact fun _ => goesOn (p + 2)
        intro _notXzero
        constructor
        · exact hllSparseIsZeroLogged_inBounds here
        constructor
        · exact fun _ => goesOn (p + 1)
        intro _notZero
        constructor
        · exact fun _ => hllSparseIsValLogged_inBounds there
        constructor
        · intro _adjacent
          refine ⟨hllSparseValValueLogged_inBounds here, hllSparseValValueLogged_inBounds there,
            fun _ => ⟨hllSparseValLenLogged_inBounds here, hllSparseValLenLogged_inBounds there,
              fun fits => ?_, fun _ => goesOn (p + 1)⟩, fun _ => goesOn (p + 1)⟩
          -- the only branch that writes: two VALs become one
          have run : hllSparseValLen s.buf p + hllSparseValLen s.buf (p + 1) ≤ 4 := fits
          have positive : 1 ≤ hllSparseValLen s.buf p := Nat.succ_pos _
          constructor
          · exact hllSparseValSetLogged_string_inBounds there (by omega) (by omega)
          constructor
          · exact memmoveLogged_inBounds (by omega) (by omega) (by omega)
          constructor
          · exact sdsIncrLenLogged_inBounds (by simp only; omega) (by simp only; omega)
          intro shorter ran
          rw [sdsIncrLenLogged_value] at ran
          have shorterLen := (sdsIncrLen_result ran).1
          simp only at shorterLen
          exact ih shorter p (finish - 1) (by omega) (by omega)
        · exact fun _ => goesOn (p + 1)
      · exact fun _ => each_pure _

theorem hllSparseAddUpdatedLogged_inBounds (s : Sds) (prev : Option Nat) (finish : Nat)
    (sized : s.len = finish) (inside : finish ≤ len + 3) (header : 15 ≤ len) :
    (hllSparseAddUpdatedLogged s prev finish).Each (Access.InBounds len) := by
  rw [hllSparseAddUpdatedLogged, each_andThen]
  constructor
  · exact sparseMergeLoopLogged_inBounds 5 s _ finish sized inside
  intro merged _ran
  simp only [each_bind, each_emit, each_pure, and_true, inBounds_read, inBounds_write]
  omega

/-! ### The split -/

theorem splitZeroRunLogged_inBounds {n : Nat} {run : Int} (inside : n ≤ 3) (positive : 1 ≤ run)
    (covered : run ≤ 16384) : (splitZeroRunLogged n run).Each (Access.InBounds len) := by
  have longest : hllSparseZeroMaxLen = 64 := rfl
  simp only [splitZeroRunLogged, hllSparseXzeroSetLogged, hllSparseZeroSetLogged, each_ite,
    each_bind, each_emit, each_pure, and_true, Access.InBounds]
  omega

theorem splitSideLogged_inBounds {run : Logged Access (List Byte)} {index bound : Int}
    (inside : index ≠ bound → run.Each (Access.InBounds len)) :
    (splitSideLogged run index bound).Each (Access.InBounds len) := by
  rw [splitSideLogged, each_ite]
  exact ⟨inside, fun _ => each_pure _⟩

/-- Before the VAL there are at most two bytes, and at most two behind it. -/
theorem splitZeroLogged_inBounds {count : Nat} {index first last : Int}
    (valued : 1 ≤ count ∧ count ≤ 32) (lower : first ≤ index) (upper : index ≤ last)
    (covered : last - first < 16384) :
    (splitZeroLogged count index first last).Each (Access.InBounds len) := by
  have left : (splitSideLogged (splitZeroRunLogged 0 (index - first)) index first).value.length
      ≤ 2 := by
    rw [splitSideLogged_value, splitZeroRunLogged_value]
    split
    · rw [splitZeroRun_length]
      split <;> omega
    · exact Nat.zero_le 2
  rw [splitZeroLogged, each_bind, each_bind, each_bind]
  constructor
  · exact splitSideLogged_inBounds fun apart =>
      splitZeroRunLogged_inBounds (by omega) (by omega) (by omega)
  constructor
  · exact hllSparseValSetLogged_seq_inBounds (by omega) (by omega) (by omega)
  · exact ⟨splitSideLogged_inBounds fun apart =>
      splitZeroRunLogged_inBounds (by omega) (by omega) (by omega), each_pure _⟩

theorem splitValLogged_inBounds {curval count : Nat} {index first last : Int}
    (old : 1 ≤ curval ∧ curval ≤ 32) (valued : 1 ≤ count ∧ count ≤ 32) (lower : first ≤ index)
    (upper : index ≤ last) (covered : last - first < 4) :
    (splitValLogged curval count index first last).Each (Access.InBounds len) := by
  have left : (splitSideLogged (hllSparseValSetLogged .seq 0 curval (index - first)) index
      first).value.length ≤ 1 := by
    rw [splitSideLogged_value, hllSparseValSetLogged_value]
    split
    · exact Nat.le_refl 1
    · exact Nat.zero_le 1
  rw [splitValLogged, each_bind, each_bind, each_bind]
  constructor
  · exact splitSideLogged_inBounds fun apart =>
      hllSparseValSetLogged_seq_inBounds (by omega) (by omega) (by omega)
  constructor
  · exact hllSparseValSetLogged_seq_inBounds (by omega) (by omega) (by omega)
  · exact ⟨splitSideLogged_inBounds fun apart =>
      hllSparseValSetLogged_seq_inBounds (by omega) (by omega) (by omega), each_pure _⟩

/-! ### The substitution -/

/-- The tail ends with the string, so its new end is that of the longer string,
and the terminator follows it. -/
theorem hllSparseAddSubstituteLogged_inBounds (env : Env) (s : Sds) (ele : List Byte)
    (scan : SparseScan) (seq : List Byte) (opcode : Opcode)
    (read : opcodeAt s.buf scan.p = opcode) (sized : s.len = len)
    (behind : hllHdrSize ≤ scan.p) (within : scan.p + opcode.size ≤ len)
    (some : 1 ≤ seq.length) (short : seq.length ≤ opcode.size + 3) :
    (hllSparseAddSubstituteLogged env s ele scan seq).Each (Access.InBounds len) := by
  have bytes := opcode.size_le
  have nonempty := opcode.size_pos
  have header : 16 ≤ scan.p := behind
  simp only [hllSparseAddSubstituteLogged, each_bind, each_ite, each_pure, each_andThen,
    hllSparseIsXzeroLogged_value, sparseNext_eq, sparseOldlen_eq, read, implies_true, true_and]
  constructor
  · exact hllSparseIsXzeroLogged_inBounds (by omega)
  intro _fits
  constructor
  · rw [moveTailLogged, each_ite]
    exact ⟨fun moves => memmoveLogged_inBounds (by omega) (by omega) (by omega),
      fun _ => each_pure _⟩
  constructor
  · exact sdsIncrLenLogged_inBounds (by simp only; omega) (by simp only; omega)
  · intro grown ran
    rw [sdsIncrLenLogged_value] at ran
    have grownLen := (sdsIncrLen_result ran).1
    simp only at grownLen
    exact ⟨memcpyLogged_inBounds (by omega) (by omega),
      hllSparseAddUpdatedLogged_inBounds _ _ _ (by simp only; omega) (by omega) (by omega)⟩

/-! ### The covering opcode -/

theorem runlenLogged_inBounds {memory : Memory} {p : Nat} {isZero isXzero : Bool}
    (inside : p + 1 ≤ len + 3) :
    (runlenLogged memory p isZero isXzero).Each (Access.InBounds len) := by
  have here : p ≤ len + 3 := by omega
  simp only [runlenLogged, each_ite]
  exact ⟨fun _ => hllSparseZeroLenLogged_inBounds here, fun _ =>
    ⟨fun _ => hllSparseXzeroLenLogged_inBounds inside,
      fun _ => hllSparseValLenLogged_inBounds here⟩⟩

theorem oldcountLogged_inBounds {memory : Memory} {p : Nat} {isVal : Bool} (inside : p ≤ len + 3) :
    (oldcountLogged memory p isVal).Each (Access.InBounds len) := by
  rw [oldcountLogged, each_ite]
  exact ⟨fun _ => hllSparseValValueLogged_inBounds inside, fun _ => each_pure _⟩

/-- The local variable `is_val`, and what it says about the opcode. -/
private theorem isVal_cases (memory : Memory) (p : Nat) (opcode : Opcode)
    (read : opcodeAt memory p = opcode) :
    (!hllSparseIsZero memory p && !hllSparseIsXzero memory p) = true ∧
        hllSparseValValue memory p = opcode.value ∧ 1 ≤ opcode.value ∧ opcode.length ≤ 4 ∨
      (!hllSparseIsZero memory p && !hllSparseIsXzero memory p) = false ∧ opcode.value = 0 := by
  cases opcodeView memory p with
  | zero run isZero _ _ readZero _ _ =>
      rw [← read, readZero, isZero]
      exact Or.inr ⟨rfl, rfl⟩
  | xzero high low notZero isXzero _ readXzero _ _ =>
      rw [← read, readXzero, notZero, isXzero]
      exact Or.inr ⟨rfl, rfl⟩
  | val value run notZero notXzero _ readVal _ valueEq _ =>
      rw [← read, valueEq, readVal, notZero, notXzero]
      exact Or.inl ⟨rfl, rfl, Nat.succ_pos _, Opcode.val_length_le value run⟩

/-- The split of an opcode at a register it covers. -/
theorem splitLogged_spec (memory : Memory) (p : Nat) (opcode : Opcode)
    (read : opcodeAt memory p = opcode) (count first index : Nat) (inside : p ≤ len + 3)
    (valued : 1 ≤ count ∧ count ≤ 32) (lower : first ≤ index)
    (upper : index < first + opcode.length) :
    (splitLogged memory p (!hllSparseIsZero memory p && !hllSparseIsXzero memory p) count index
        first (first + opcode.length - 1)).Each (Access.InBounds len) ∧
      (splitLogged memory p (!hllSparseIsZero memory p && !hllSparseIsXzero memory p) count index
        first (first + opcode.length - 1)).value =
        splitBytes opcode count index first (first + opcode.length - 1) := by
  have covered := opcode.length_le
  rw [splitLogged_value, splitLogged, each_ite, splitBytes]
  rcases isVal_cases memory p opcode read with ⟨isVal, old, positive, four⟩ | ⟨notVal, zero⟩
  · rw [if_pos isVal, if_neg (Nat.ne_of_gt positive), old]
    refine ⟨⟨fun _ => ?_, fun other => absurd isVal other⟩, rfl⟩
    rw [each_bind, hllSparseValValueLogged_value, old]
    exact ⟨hllSparseValValueLogged_inBounds inside, splitValLogged_inBounds
      ⟨positive, opcode.value_le⟩ valued (by omega) (by omega) (by omega)⟩
  · rw [notVal, zero]
    simp only [Bool.false_eq_true, false_implies, true_and, if_false, if_true, not_false_eq_true,
      forall_const, and_true]
    exact splitZeroLogged_inBounds valued (by omega) (by omega) (by omega)

theorem hllSparseAddAtLogged_inBounds (env : Env) (s : Sds) (ele : List Byte) (pattern : Pattern)
    (scan : SparseScan) (opcode : Opcode) (read : opcodeAt s.buf scan.p = opcode)
    (spans : scan.span = opcode.length) (sized : s.len = len) (behind : hllHdrSize ≤ scan.p)
    (within : scan.p + opcode.size ≤ len) (valued : 1 ≤ pattern.count ∧ pattern.count ≤ 32)
    (lower : scan.first ≤ pattern.index) (upper : pattern.index < scan.first + opcode.length) :
    (hllSparseAddAtLogged env s ele pattern scan).Each (Access.InBounds len) := by
  have nonempty := opcode.size_pos
  have here : scan.p ≤ len + 3 := by omega
  have header : 16 ≤ scan.p := behind
  obtain ⟨splitBounds, splitValue⟩ := splitLogged_spec s.buf scan.p opcode read pattern.count
    scan.first pattern.index here valued lower upper
  have seq := splitBytes_eq opcode pattern.count scan.first pattern.index valued.1 valued.2 lower
    upper
  have seqLength := opcode.sizeAll_split_bounds pattern.count (pattern.index - scan.first)
    (scan.first + opcode.length - 1 - pattern.index) (by omega) (by omega)
  rw [← encodeAll_length, ← seq] at seqLength
  simp only [hllSparseAddAtLogged, each_bind, each_ite, each_pure, hllSparseIsZeroLogged_value,
    hllSparseIsXzeroLogged_value, spans, splitValue, implies_true, true_and]
  refine ⟨hllSparseIsXzeroLogged_inBounds here, hllSparseIsZeroLogged_inBounds here,
    runlenLogged_inBounds (by omega), oldcountLogged_inBounds here, fun _ =>
    ⟨fun _ => ⟨?_, ?_⟩, fun _ => ⟨splitBounds, ?_⟩⟩⟩
  · exact hllSparseValSetLogged_string_inBounds here (by omega) (by omega)
  · exact hllSparseAddUpdatedLogged_inBounds _ _ _ rfl (by omega) (by omega)
  · exact hllSparseAddSubstituteLogged_inBounds env s ele scan _ opcode read sized behind within
      seqLength.1 seqLength.2

end Bounds

/-! ### The whole add -/

theorem hllSparseAddLogged_inBounds (env : Env) (o : Robj) (ele : List Byte)
    (object : SparseObject o) :
    (hllSparseAddLogged env o ele).Each (Access.InBounds o.ptr.len) := by
  have indexBound := hllPatLen_index_lt ele
  have valued := hllPatLen_count_bounds ele
  have reserved := sdsMakeRoomFor_len o.ptr 3
  obtain ⟨covering⟩ := exists_coveringOf o.ptr (hllPatLen ele)
    (by rw [object.2.covered]; exact indexBound)
  obtain ⟨scanned, read⟩ := sparseScan_found o.ptr.buf (hllPatLen ele).index o.ptr.len
    covering.before covering.after covering.opcode SparseScan.start covering.split
    (by rw [SparseScan.start, Nat.zero_add]; exact covering.lower)
    (by rw [SparseScan.start, Nat.zero_add]; exact covering.upper)
  have sized := object.2.sized
  rw [covering.split, sizeAll_append, sizeAll_cons] at sized
  have at' : (SparseScan.start.pass covering.before).p = hllHdrSize + sizeAll covering.before :=
    SparseScan.pass_p _ _
  have first' : (SparseScan.start.pass covering.before).first = lengthAll covering.before :=
    (SparseScan.pass_first _ _).trans (Nat.zero_add _)
  have start : ({ p := hllHdrSize, prev := none, first := 0, span := 0 } : SparseScan) =
      SparseScan.start := rfl
  simp only [hllSparseAddLogged, each_bind, each_ite, each_pure, implies_true, true_and,
    sparseScanLogged_value, sdsMakeRoomFor_buf, reserved, start, scanned]
  intro small
  have fits : (hllPatLen ele).count ≤ 32 := Nat.le_of_not_lt small
  refine ⟨sparseScanLogged_inBounds _ _ _ _ (by omega), fun _ =>
    hllSparseAddAtLogged_inBounds env _ ele _ _ covering.opcode ?_ rfl reserved ?_ ?_
      ⟨valued.1, fits⟩ ?_ ?_⟩
  · rw [sdsMakeRoomFor_buf]
    exact read
  · simp only [at']
    omega
  · simp only [at']
    omega
  · simp only [first']
    exact covering.lower
  · simp only [first']
    exact covering.upper

/-- On a string in the format, no access of the add leaves the string, the three
reserved bytes and the terminator behind them, `seq` needs five bytes at most,
and every stored run length and value fits its opcode.  The assertions hold, since
the add returns, and the string it leaves is terminated. -/
theorem sparse_add_in_bounds (env : Env) (o : Robj) (ele : List Byte) (object : SparseObject o) :
    (hllSparseAddLogged env o ele).value = hllSparseAdd env o ele ∧
      (hllSparseAddLogged env o ele).Each (Access.InBounds o.ptr.len) ∧
      3 ≤ (sdsMakeRoomFor o.ptr 3).free ∧
      ∃ retval next, hllSparseAdd env o ele = .ok (retval, next) ∧
        (o.ptr.buf o.ptr.len = 0 → next.ptr.buf next.ptr.len = 0) := by
  refine ⟨hllSparseAddLogged_value env o ele, hllSparseAddLogged_inBounds env o ele object,
    sdsMakeRoomFor_free o.ptr 3, ?_⟩
  rcases hllSparseAdd_spec env o ele object with
    ⟨_enough, kept⟩ | ⟨_raises, next, added, raised, _body⟩
  · refine ⟨0, _, kept, fun terminated => ?_⟩
    rw [sdsMakeRoomFor_buf, sdsMakeRoomFor_len, terminated]
  · exact ⟨1, next, added, raised.terminated⟩

/-- The first add to a new object uses all of it: the terminator goes to the last
offset there is. -/
theorem sparse_add_in_bounds_created :
    (hllSparseAddLogged server (created server) [0x61#8]).Each (Access.InBounds 18) ∧
      Access.write .string 21 ∈ (hllSparseAddLogged server (created server) [0x61#8]).events :=
  ⟨(sparse_add_in_bounds server (created server) [0x61#8] (created_sparse server)).2.1,
    by decide +kernel⟩

end PhpHll
