/-
The three readers of the sparse representation.

`hllSparseToDense`, `hllSparseSum` and `hllMerge` walk a payload with the same
loop and differ in what they do with a run.  `SparseReader` is that loop; each
reader is its two run actions and what it does with the final state.  The
running index is a 32-bit `int`, kept with its wrap-around.

A register index outside the array is recorded like every other, but the
access itself has no effect here: it meets memory of none of the objects
described.
-/

import PhpHll.RegisterSum
import PhpHll.SparseOpcodes

namespace PhpHll

open ByteMemory

/-- The value of an `int` after an assignment. -/
def int32 (value : Int) : Int := (value + 2 ^ 31) % 2 ^ 32 - 2 ^ 31

structure SparseReader (State : Type) where
  zeroRun : Nat → State → State
  valRun : Nat → Nat → State → State

/-- `while(p < end)` over the opcodes, with the actions of one reader. -/
def SparseReader.loop {State : Type} (reader : SparseReader State) (memory : Memory)
    (p finish : Nat) (state : State) : State :=
  if p < finish then
    if hllSparseIsZero memory p then
      reader.loop memory (p + 1) finish (reader.zeroRun (hllSparseZeroLen memory p) state)
    else if hllSparseIsXzero memory p then
      reader.loop memory (p + 2) finish (reader.zeroRun (hllSparseXzeroLen memory p) state)
    else
      reader.loop memory (p + 1) finish
        (reader.valRun (hllSparseValLen memory p) (hllSparseValValue memory p) state)
  else state
termination_by finish - p

/-! ### Readers that access registers -/

/-- The running index, the array under construction, and a record of every
index with which the array was accessed. -/
structure RegisterCursor where
  idx : Int
  array : Memory
  touched : List Int

/-- One turn of `while(runlen--)`: the access at the index, then `idx++`.  What an
access outside the array does is undefined: it is recorded, and the array stays
as it is. -/
def RegisterCursor.put (write : Memory → Nat → Nat → Memory) (regval : Nat)
    (cursor : RegisterCursor) : RegisterCursor :=
  { idx := int32 (cursor.idx + 1)
    array :=
      if 0 ≤ cursor.idx ∧ cursor.idx < hllRegisters then
        write cursor.array cursor.idx.toNat regval
      else cursor.array
    touched := cursor.touched ++ [cursor.idx] }

def registerReader (write : Memory → Nat → Nat → Memory) : SparseReader RegisterCursor :=
  { zeroRun := fun runlen cursor => { cursor with idx := int32 (cursor.idx + runlen) }
    valRun := fun runlen regval cursor => (RegisterCursor.put write regval)^[runlen] cursor }

/-! ### hllSparseToDense -/

def denseWrite (dense : Memory) (idx regval : Nat) : Memory :=
  hllDenseSetRegister dense hllHdrSize idx (BitVec.ofNat 64 regval)

/-- The new dense string with the header of the old one, before any register. -/
def denseHeader (env : Env) (sparse : Sds) : Memory :=
  let dense := sdsnewlenZero env hllDenseSize
  setEncoding (memcpy dense.buf 0 (readBytes sparse.buf 0 hllHdrSize)) hllDense

def denseFill (env : Env) (sparse : Sds) : RegisterCursor :=
  (registerReader denseWrite).loop sparse.buf hllHdrSize sparse.len
    { idx := 0, array := denseHeader env sparse, touched := [] }

def hllSparseToDense (env : Env) (o : Robj) : Int × Robj :=
  if encoding o.ptr.buf = hllDense then (cOk, o)
  else
    let fill := denseFill env o.ptr
    if fill.idx ≠ hllRegisters then (cErr, o)
    else (cOk, { ptr := { sdsnewlenZero env hllDenseSize with buf := fill.array } })

/-- The register indices that a promotion of `o` hands to the register macro. -/
def hllSparseToDenseIndices (env : Env) (o : Robj) : List Int :=
  if encoding o.ptr.buf = hllDense then [] else (denseFill env o.ptr).touched

/-! ### hllSparseSum -/

structure SparseTotal where
  E : ℚ
  ez : Int
  idx : Int

def sumReader : SparseReader SparseTotal :=
  { zeroRun := fun runlen total =>
      { total with idx := int32 (total.idx + runlen), ez := int32 (total.ez + runlen) }
    valRun := fun runlen regval total =>
      { total with idx := int32 (total.idx + runlen), E := total.E + PE regval * runlen } }

/-- The sum and the flag `invalid`, for the payload of `sparselen` bytes at
`sparse`. -/
def hllSparseSum (memory : Memory) (sparse sparselen : Nat) : RegisterSum × Bool :=
  let total := sumReader.loop memory sparse (sparse + sparselen) { E := 0, ez := 0, idx := 0 }
  ({ E := total.E + total.ez, ez := total.ez }, total.idx ≠ hllRegisters)

/-! ### hllMerge -/

/-- `if (regval > max[i]) max[i] = regval`, with `max` at offset `base`. -/
def maxWrite (base : Nat) (max : Memory) (i regval : Nat) : Memory :=
  if (max (base + i)).toNat < regval then store max (base + i) (BitVec.ofNat 8 regval) else max

/-- `HLL_DENSE_GET_REGISTER(val,hdr->registers,i); if (val > max[i]) max[i] = val;` -/
def mergeRegister (base : Nat) (hdr : Memory) (max : Memory) (i : Nat) : Memory :=
  let val : Byte := (hllDenseGetRegister hdr hllHdrSize i).setWidth 8
  if max (base + i) < val then store max (base + i) val else max

def hllMergeDense (max : Memory) (base : Nat) (hdr : Memory) : Memory :=
  (List.range hllRegisters).foldl (mergeRegister base hdr) max

def mergeFill (max : Memory) (base : Nat) (hll : Robj) : RegisterCursor :=
  (registerReader (maxWrite base)).loop hll.ptr.buf hllHdrSize hll.ptr.len
    { idx := 0, array := max, touched := [] }

def hllMerge (max : Memory) (base : Nat) (hll : Robj) : Int × Memory :=
  if encoding hll.ptr.buf = hllDense then (cOk, hllMergeDense max base hll.ptr.buf)
  else
    let fill := mergeFill max base hll
    if fill.idx ≠ hllRegisters then (cErr, fill.array) else (cOk, fill.array)

/-- The indices with which a merge of `hll` reads and writes `max`. -/
def hllMergeIndices (max : Memory) (base : Nat) (hll : Robj) : List Int :=
  if encoding hll.ptr.buf = hllDense then (List.range hllRegisters).map Int.ofNat
  else (mergeFill max base hll).touched

/-! ### The loop as a fold over the opcodes -/

def SparseReader.apply {State : Type} (reader : SparseReader State) (state : State) :
    Opcode → State
  | .zero count => reader.zeroRun (Opcode.zero count).length state
  | .xzero high low => reader.zeroRun (Opcode.xzero high low).length state
  | .val value count =>
      reader.valRun (Opcode.val value count).length (Opcode.val value count).value state

theorem SparseReader.loop_eq {State : Type} (reader : SparseReader State) (memory : Memory)
    (p finish : Nat) (state : State) :
    reader.loop memory p finish state =
      (opcodesFrom memory p finish).foldl reader.apply state := by
  fun_induction opcodesFrom memory p finish generalizing state with
  | case1 p more ih =>
      rw [SparseReader.loop, if_pos more, List.foldl_cons]
      cases opcodeView memory p with
      | zero count isZero _ _ read len _ =>
          rw [if_pos isZero, len]
          rw [read] at ih ⊢
          exact ih _
      | xzero high low notZero isXzero _ read len _ =>
          rw [if_neg (ne_true_of_eq_false notZero), if_pos isXzero, len]
          rw [read] at ih ⊢
          exact ih _
      | val value count notZero notXzero _ read len val _ =>
          rw [if_neg (ne_true_of_eq_false notZero), if_neg (ne_true_of_eq_false notXzero), len,
            val]
          rw [read] at ih ⊢
          exact ih _
  | case2 p done => rw [SparseReader.loop, if_neg done, List.foldl_nil]

/-! ### The running index -/

theorem int32_add (first second : Int) : int32 (int32 first + second) = int32 (first + second) := by
  unfold int32
  omega

theorem int32_of_small (value : Int) (lower : 0 ≤ value) (upper : value < 2 ^ 31) :
    int32 value = value := by
  unfold int32
  omega

theorem int32_eq_registers_iff (count : Nat) :
    int32 count = hllRegisters ↔ count % 2 ^ 32 = 16384 := by
  rw [hllRegisters_eq]
  unfold int32
  omega

/-- The indices accessed while a sequence is read from index `start` on. -/
def accessedIndices (start : Int) : List Opcode → List Int
  | [] => []
  | .val value count :: rest =>
      (List.range (Opcode.val value count).length).map (fun k : Nat => int32 (start + k)) ++
        accessedIndices (start + (Opcode.val value count).length) rest
  | opcode :: rest => accessedIndices (start + opcode.length) rest

private theorem iterate_put_idx (write : Memory → Nat → Nat → Memory) (regval count : Nat)
    (cursor : RegisterCursor) (start : Int) (here : cursor.idx = int32 start) :
    ((RegisterCursor.put write regval)^[count] cursor).idx = int32 (start + count) ∧
      ((RegisterCursor.put write regval)^[count] cursor).touched =
        cursor.touched ++ (List.range count).map fun k : Nat => int32 (start + k) := by
  induction count with
  | zero => simpa using here
  | succ count ih =>
      obtain ⟨idxEq, touchedEq⟩ := ih
      rw [Function.iterate_succ_apply', RegisterCursor.put, idxEq, touchedEq, int32_add,
        List.range_succ, List.map_append, List.append_assoc]
      refine ⟨?_, rfl⟩
      change int32 (start + count + 1) = int32 (start + (count + 1 : Nat))
      rw [Nat.cast_succ, Int.add_assoc]

/-- The step lemma of the cursor: one opcode moves the index by its length and
accesses its registers if it is a VAL. -/
private theorem registerReader_apply (write : Memory → Nat → Nat → Memory)
    (cursor : RegisterCursor) (opcode : Opcode) (start : Int) (here : cursor.idx = int32 start) :
    ((registerReader write).apply cursor opcode).idx = int32 (start + opcode.length) ∧
      ((registerReader write).apply cursor opcode).touched =
        cursor.touched ++ accessedIndices start [opcode] := by
  cases opcode with
  | zero count =>
      refine ⟨?_, (List.append_nil _).symm⟩
      simp only [SparseReader.apply, registerReader, here, int32_add]
  | xzero high low =>
      refine ⟨?_, (List.append_nil _).symm⟩
      simp only [SparseReader.apply, registerReader, here, int32_add]
  | val value count =>
      have moved := iterate_put_idx write (Opcode.val value count).value
        (Opcode.val value count).length cursor start here
      simpa [SparseReader.apply, registerReader, accessedIndices] using moved

private theorem accessedIndices_cons (start : Int) (opcode : Opcode) (rest : List Opcode) :
    accessedIndices start (opcode :: rest) =
      accessedIndices start [opcode] ++ accessedIndices (start + opcode.length) rest := by
  cases opcode <;> simp [accessedIndices]

/-- After a whole sequence the index is its length, wrapped, whatever was
written on the way. -/
theorem registerReader_foldl (write : Memory → Nat → Nat → Memory) (opcodes : List Opcode)
    (cursor : RegisterCursor) (start : Int) (here : cursor.idx = int32 start) :
    (opcodes.foldl (registerReader write).apply cursor).idx = int32 (start + lengthAll opcodes) ∧
      (opcodes.foldl (registerReader write).apply cursor).touched =
        cursor.touched ++ accessedIndices start opcodes := by
  induction opcodes generalizing cursor start with
  | nil => simpa [accessedIndices] using here
  | cons opcode opcodes ih =>
      obtain ⟨idxEq, touchedEq⟩ := registerReader_apply write cursor opcode start here
      obtain ⟨lastIdx, lastTouched⟩ := ih _ _ idxEq
      rw [List.foldl_cons, lastIdx, lastTouched, touchedEq,
        accessedIndices_cons start opcode opcodes, lengthAll_cons, List.append_assoc]
      refine ⟨?_, rfl⟩
      congr 1
      push_cast
      ring

theorem int32_zero : int32 0 = 0 := by decide

def payloadOpcodes (s : Sds) : List Opcode := opcodesFrom s.buf hllHdrSize s.len

theorem SparseReader.loop_payload {State : Type} (reader : SparseReader State) (s : Sds)
    (state : State) :
    reader.loop s.buf hllHdrSize s.len state = (payloadOpcodes s).foldl reader.apply state :=
  reader.loop_eq s.buf hllHdrSize s.len state

theorem denseFill_idx (env : Env) (sparse : Sds) :
    (denseFill env sparse).idx = int32 (lengthAll (payloadOpcodes sparse)) := by
  rw [denseFill, SparseReader.loop_payload]
  have moved := (registerReader_foldl denseWrite (payloadOpcodes sparse)
    { idx := 0, array := denseHeader env sparse, touched := [] } 0 int32_zero.symm).1
  rwa [Int.zero_add] at moved

theorem denseFill_touched (env : Env) (sparse : Sds) :
    (denseFill env sparse).touched = accessedIndices 0 (payloadOpcodes sparse) := by
  rw [denseFill, SparseReader.loop_payload]
  exact (registerReader_foldl denseWrite (payloadOpcodes sparse)
    { idx := 0, array := denseHeader env sparse, touched := [] } 0 int32_zero.symm).2

theorem mergeFill_idx (max : Memory) (base : Nat) (hll : Robj) :
    (mergeFill max base hll).idx = int32 (lengthAll (payloadOpcodes hll.ptr)) := by
  rw [mergeFill, SparseReader.loop_payload]
  have moved := (registerReader_foldl (maxWrite base) (payloadOpcodes hll.ptr)
    { idx := 0, array := max, touched := [] } 0 int32_zero.symm).1
  rwa [Int.zero_add] at moved

theorem mergeFill_touched (max : Memory) (base : Nat) (hll : Robj) :
    (mergeFill max base hll).touched = accessedIndices 0 (payloadOpcodes hll.ptr) := by
  rw [mergeFill, SparseReader.loop_payload]
  exact (registerReader_foldl (maxWrite base) (payloadOpcodes hll.ptr)
    { idx := 0, array := max, touched := [] } 0 int32_zero.symm).2

private theorem sumReader_foldl_idx (opcodes : List Opcode) (total : SparseTotal) (start : Int)
    (here : total.idx = int32 start) :
    (opcodes.foldl sumReader.apply total).idx = int32 (start + lengthAll opcodes) := by
  induction opcodes generalizing total start with
  | nil => simpa using here
  | cons opcode opcodes ih =>
      have moved : (sumReader.apply total opcode).idx = int32 (start + opcode.length) := by
        cases opcode <;> simp only [SparseReader.apply, sumReader, here, int32_add]
      rw [List.foldl_cons, ih _ _ moved, lengthAll_cons]
      congr 1
      push_cast
      ring

/-- `invalid` is left at 0 exactly when the run lengths end at 16384 modulo
`2 ^ 32`. -/
theorem hllSparseSum_invalid (memory : Memory) (sparse sparselen : Nat) :
    (hllSparseSum memory sparse sparselen).2 = false ↔
      lengthAll (opcodesFrom memory sparse (sparse + sparselen)) % 2 ^ 32 = 16384 := by
  have moved := sumReader_foldl_idx (opcodesFrom memory sparse (sparse + sparselen))
    { E := 0, ez := 0, idx := 0 } 0 int32_zero.symm
  rw [Int.zero_add] at moved
  rw [hllSparseSum, SparseReader.loop_eq]
  simp only [moved, ne_eq, decide_not, Bool.not_eq_eq_eq_not, Bool.not_false, decide_eq_true_eq]
  exact int32_eq_registers_iff _

theorem hllSparseToDense_status (env : Env) (o : Robj) (sparse : encoding o.ptr.buf ≠ hllDense) :
    ((hllSparseToDense env o).1 = cOk ∧
        lengthAll (payloadOpcodes o.ptr) % 2 ^ 32 = 16384) ∨
      (hllSparseToDense env o = (cErr, o) ∧
        lengthAll (payloadOpcodes o.ptr) % 2 ^ 32 ≠ 16384) := by
  have idxEq := denseFill_idx env o.ptr
  rw [hllSparseToDense, if_neg sparse]
  simp only [idxEq, ne_eq, ite_not]
  by_cases reached : int32 (lengthAll (payloadOpcodes o.ptr)) = hllRegisters
  · rw [if_pos reached]
    exact Or.inl ⟨rfl, (int32_eq_registers_iff _).mp reached⟩
  · rw [if_neg reached]
    exact Or.inr ⟨rfl, fun total => reached ((int32_eq_registers_iff _).mpr total)⟩

theorem hllMerge_status (max : Memory) (base : Nat) (hll : Robj)
    (sparse : encoding hll.ptr.buf ≠ hllDense) :
    ((hllMerge max base hll).1 = cOk ∧
        lengthAll (payloadOpcodes hll.ptr) % 2 ^ 32 = 16384) ∨
      ((hllMerge max base hll).1 = cErr ∧
        lengthAll (payloadOpcodes hll.ptr) % 2 ^ 32 ≠ 16384) := by
  have idxEq := mergeFill_idx max base hll
  rw [hllMerge, if_neg sparse]
  simp only [idxEq, ne_eq, ite_not]
  by_cases reached : int32 (lengthAll (payloadOpcodes hll.ptr)) = hllRegisters
  · rw [if_pos reached]
    exact Or.inl ⟨rfl, (int32_eq_registers_iff _).mp reached⟩
  · rw [if_neg reached]
    exact Or.inr ⟨rfl, fun total => reached ((int32_eq_registers_iff _).mpr total)⟩

end PhpHll
