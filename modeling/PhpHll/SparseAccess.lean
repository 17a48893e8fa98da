/-
The accesses of the sparse add.

Every step of `hllSparseAdd` is written once more with the reads, the writes and
the stored fields it makes, in the order of the source; forgetting them gives
the definitions of the sparse add back.  Offsets of the string count from the
`sds` pointer, and are integers here, so that one in front of the string would
show.  A promotion leaves the string for a new one and is not followed.
-/

import PhpHll.SparseAdd
import PhpHll.Library.Logged

namespace PhpHll

open ByteMemory Logged

/-- The string of the object, and the array `seq` of the split. -/
inductive Place
  | string
  | seq
  deriving DecidableEq

inductive Access
  | read (place : Place) (offset : Int)
  | write (place : Place) (offset : Int)
  | valSet (val len : Int)
  | zeroSet (len : Int)
  | xzeroSet (len : Int)
  deriving DecidableEq

/-! ### Access macros -/

def loadLogged (memory : Memory) (p : Nat) : Logged Access Byte := do
  emit (.read .string p)
  pure (memory p)

def hllSparseIsZeroLogged (memory : Memory) (p : Nat) : Logged Access Bool := do
  let byte ← loadLogged memory p
  pure (byte &&& 0xc0#8 = 0#8)

def hllSparseIsXzeroLogged (memory : Memory) (p : Nat) : Logged Access Bool := do
  let byte ← loadLogged memory p
  pure (byte &&& 0xc0#8 = 0x40#8)

def hllSparseIsValLogged (memory : Memory) (p : Nat) : Logged Access Bool := do
  let byte ← loadLogged memory p
  pure (byte &&& 0x80#8 ≠ 0#8)

def hllSparseZeroLenLogged (memory : Memory) (p : Nat) : Logged Access Nat := do
  let byte ← loadLogged memory p
  pure ((byte &&& 0x3f#8).toNat + 1)

def hllSparseXzeroLenLogged (memory : Memory) (p : Nat) : Logged Access Nat := do
  let high ← loadLogged memory p
  let low ← loadLogged memory (p + 1)
  pure (((high &&& 0x3f#8).toNat <<< 8 ||| low.toNat) + 1)

def hllSparseValValueLogged (memory : Memory) (p : Nat) : Logged Access Nat := do
  let byte ← loadLogged memory p
  pure (((byte >>> 2) &&& 0x1f#8).toNat + 1)

def hllSparseValLenLogged (memory : Memory) (p : Nat) : Logged Access Nat := do
  let byte ← loadLogged memory p
  pure ((byte &&& 0x3#8).toNat + 1)

/-- The bytes `HLL_SPARSE_VAL_SET` stores at the given place. -/
def hllSparseValSetLogged (place : Place) (p : Nat) (val len : Int) :
    Logged Access (List Byte) := do
  emit (.valSet val len)
  emit (.write place p)
  pure (hllSparseValSet val len)

def hllSparseZeroSetLogged (place : Place) (p : Nat) (len : Int) : Logged Access (List Byte) := do
  emit (.zeroSet len)
  emit (.write place p)
  pure (hllSparseZeroSet len)

def hllSparseXzeroSetLogged (place : Place) (p : Nat) (len : Int) :
    Logged Access (List Byte) := do
  emit (.xzeroSet len)
  emit (.write place p)
  emit (.write place (p + 1))
  pure (hllSparseXzeroSet len)

/-! ### The library calls -/

/-- `memmove` within the string. -/
def memmoveLogged (memory : Memory) (dst : Int) (src count : Nat) : Logged Access Memory := do
  emitAll ((List.range count).map fun i : Nat => .read .string (src + i))
  emitAll ((List.range count).map fun i : Nat => .write .string (dst + i))
  pure (memmove memory dst.toNat src count)

/-- `memcpy` from `seq` into the string. -/
def memcpyLogged (memory : Memory) (p : Nat) (seq : List Byte) : Logged Access Memory := do
  emitAll ((List.range seq.length).map fun i : Nat => .read .seq i)
  emitAll ((List.range seq.length).map fun i : Nat => .write .string (p + i))
  pure (memcpy memory p seq)

def sdsIncrLenLogged (s : Sds) (incr : Int) : Logged Access (Except Abort Sds) :=
  match sdsIncrLen s incr with
  | .error abort => pure (.error abort)
  | .ok grown => do
      emit (.write .string (s.len + incr))
      pure (.ok grown)

/-! ### The steps -/

/-- The span of the opcode at `p`, and whether it has a second byte. -/
def sparseSpanLogged (memory : Memory) (p : Nat) : Logged Access (Nat × Bool) := do
  if ← hllSparseIsZeroLogged memory p then
    let span ← hllSparseZeroLenLogged memory p
    pure (span, false)
  else if ← hllSparseIsValLogged memory p then
    let span ← hllSparseValLenLogged memory p
    pure (span, false)
  else
    let span ← hllSparseXzeroLenLogged memory p
    pure (span, true)

def sparseScanLogged (memory : Memory) (index finish : Nat) (scan : SparseScan) :
    Logged Access SparseScan :=
  if scan.p < finish then do
    let (span, wide) ← sparseSpanLogged memory scan.p
    if index ≤ scan.first + span - 1 then pure { scan with span := span }
    else
      sparseScanLogged memory index finish
        { p := scan.p + if wide then 2 else 1
          prev := some scan.p
          first := scan.first + span
          span := span }
  else pure scan
termination_by finish - scan.p
decreasing_by
  split <;> omega

def splitZeroRunLogged (n : Nat) (len : Int) : Logged Access (List Byte) :=
  if len > hllSparseZeroMaxLen then hllSparseXzeroSetLogged .seq n len
  else hllSparseZeroSetLogged .seq n len

/-- One side of a split, unless the register is at that end of the run. -/
def splitSideLogged (run : Logged Access (List Byte)) (index bound : Int) :
    Logged Access (List Byte) :=
  if index ≠ bound then run else pure []

def splitZeroLogged (count : Nat) (index first last : Int) : Logged Access (List Byte) := do
  let left ← splitSideLogged (splitZeroRunLogged 0 (index - first)) index first
  let val ← hllSparseValSetLogged .seq left.length count 1
  let right ← splitSideLogged (splitZeroRunLogged (left.length + 1) (last - index)) index last
  pure (left ++ val ++ right)

def splitValLogged (curval count : Nat) (index first last : Int) : Logged Access (List Byte) := do
  let left ← splitSideLogged (hllSparseValSetLogged .seq 0 curval (index - first)) index first
  let val ← hllSparseValSetLogged .seq left.length count 1
  let right ←
    splitSideLogged (hllSparseValSetLogged .seq (left.length + 1) curval (last - index)) index last
  pure (left ++ val ++ right)

def sparseMergeLoopLogged : Nat → Sds → Nat → Nat → Logged Access (Except Abort Sds)
  | 0, s, _, _ => pure (.ok s)
  | scanlen + 1, s, p, finish =>
      if p < finish then do
        if ← hllSparseIsXzeroLogged s.buf p then
          sparseMergeLoopLogged scanlen s (p + 2) finish
        else if ← hllSparseIsZeroLogged s.buf p then
          sparseMergeLoopLogged scanlen s (p + 1) finish
        else if ← (if p + 1 < finish then hllSparseIsValLogged s.buf (p + 1) else pure false) then
          let v1 ← hllSparseValValueLogged s.buf p
          let v2 ← hllSparseValValueLogged s.buf (p + 1)
          if v1 = v2 then
            let len1 ← hllSparseValLenLogged s.buf p
            let len2 ← hllSparseValLenLogged s.buf (p + 1)
            if len1 + len2 ≤ hllSparseValMaxLen then
              let val ← hllSparseValSetLogged .string (p + 1) v1 ((len1 + len2 : Nat) : Int)
              let buf ← memmoveLogged (memcpy s.buf (p + 1) val) p (p + 1) (finish - p)
              (sdsIncrLenLogged { s with buf := buf } (-1)).andThen fun s =>
                sparseMergeLoopLogged scanlen s p (finish - 1)
            else sparseMergeLoopLogged scanlen s (p + 1) finish
          else sparseMergeLoopLogged scanlen s (p + 1) finish
        else sparseMergeLoopLogged scanlen s (p + 1) finish
      else pure (.ok s)

def hllSparseAddUpdatedLogged (s : Sds) (prev : Option Nat) (finish : Nat) :
    Logged Access (Except Abort (Int × Robj)) :=
  (sparseMergeLoopLogged 5 s (prev.getD hllHdrSize) finish).andThen fun s => do
    emit (.read .string 15)
    emit (.write .string 15)
    pure (.ok (1, { ptr := { s with buf := hllInvalidateCache s.buf } }))

/-- `if (deltalen && next) memmove(next+deltalen,next,end-next)`. -/
def moveTailLogged (memory : Memory) (next finish : Nat) (deltalen : Int) :
    Logged Access Memory :=
  if deltalen ≠ 0 ∧ next < finish then memmoveLogged memory (next + deltalen) next (finish - next)
  else pure memory

def hllSparseAddSubstituteLogged (env : Env) (s : Sds) (ele : List Byte) (scan : SparseScan)
    (seq : List Byte) : Logged Access (Except Abort (Int × Robj)) := do
  let finish := s.len
  let isXzero ← hllSparseIsXzeroLogged s.buf scan.p
  let next := if isXzero then scan.p + 2 else scan.p + 1
  let oldlen : Int := if isXzero then 2 else 1
  let deltalen : Int := seq.length - oldlen
  if deltalen > 0 ∧ s.len + deltalen > env.hll_sparse_max_bytes then
    pure (hllSparseAddPromote env { ptr := s } ele)
  else
    let buf ← moveTailLogged s.buf next finish deltalen
    (sdsIncrLenLogged { s with buf := buf } deltalen).andThen fun s => do
      let buf ← memcpyLogged s.buf scan.p seq
      hllSparseAddUpdatedLogged { s with buf := buf } scan.prev (finish + deltalen).toNat

def runlenLogged (memory : Memory) (p : Nat) (isZero isXzero : Bool) : Logged Access Nat :=
  if isZero then hllSparseZeroLenLogged memory p
  else if isXzero then hllSparseXzeroLenLogged memory p
  else hllSparseValLenLogged memory p

/-- The variable `oldcount` of a VAL, which no other opcode sets. -/
def oldcountLogged (memory : Memory) (p : Nat) (isVal : Bool) : Logged Access Nat :=
  if isVal then hllSparseValValueLogged memory p else pure 0

def splitLogged (memory : Memory) (p : Nat) (isVal : Bool) (count : Nat) (index first last : Int) :
    Logged Access (List Byte) :=
  if isVal then do
    let curval ← hllSparseValValueLogged memory p
    splitValLogged curval count index first last
  else splitZeroLogged count index first last

def hllSparseAddAtLogged (env : Env) (s : Sds) (ele : List Byte) (pattern : Pattern)
    (scan : SparseScan) : Logged Access (Except Abort (Int × Robj)) := do
  let count := pattern.count
  let isXzero ← hllSparseIsXzeroLogged s.buf scan.p
  let isZero ← hllSparseIsZeroLogged s.buf scan.p
  let isVal := !isZero && !isXzero
  let runlen ← runlenLogged s.buf scan.p isZero isXzero
  let oldcount ← oldcountLogged s.buf scan.p isVal
  if isVal ∧ count ≤ oldcount then pure (.ok (0, { ptr := s }))
  else if isVal ∧ runlen = 1 ∨ isZero ∧ runlen = 1 then
    let val ← hllSparseValSetLogged .string scan.p count 1
    hllSparseAddUpdatedLogged { s with buf := memcpy s.buf scan.p val } scan.prev s.len
  else
    let last : Int := scan.first + scan.span - 1
    let seq ← splitLogged s.buf scan.p isVal count pattern.index scan.first last
    hllSparseAddSubstituteLogged env s ele scan seq

def hllSparseAddLogged (env : Env) (o : Robj) (ele : List Byte) :
    Logged Access (Except Abort (Int × Robj)) := do
  let pattern := hllPatLen ele
  if hllSparseValMaxValue < pattern.count then pure (hllSparseAddPromote env o ele)
  else
    let s := sdsMakeRoomFor o.ptr 3
    let scan ← sparseScanLogged s.buf pattern.index s.len
      { p := hllHdrSize, prev := none, first := 0, span := 0 }
    if scan.span = 0 then pure (.ok (-1, { ptr := s }))
    else hllSparseAddAtLogged env s ele pattern scan

/-! ### Forgetting the accesses -/

section Values

variable (memory : Memory) (p : Nat)

@[simp] theorem hllSparseIsZeroLogged_value :
    (hllSparseIsZeroLogged memory p).value = hllSparseIsZero memory p := (rfl)

@[simp] theorem hllSparseIsXzeroLogged_value :
    (hllSparseIsXzeroLogged memory p).value = hllSparseIsXzero memory p := (rfl)

@[simp] theorem hllSparseIsValLogged_value :
    (hllSparseIsValLogged memory p).value = hllSparseIsVal memory p := (rfl)

@[simp] theorem hllSparseZeroLenLogged_value :
    (hllSparseZeroLenLogged memory p).value = hllSparseZeroLen memory p := (rfl)

@[simp] theorem hllSparseXzeroLenLogged_value :
    (hllSparseXzeroLenLogged memory p).value = hllSparseXzeroLen memory p := (rfl)

@[simp] theorem hllSparseValValueLogged_value :
    (hllSparseValValueLogged memory p).value = hllSparseValValue memory p := (rfl)

@[simp] theorem hllSparseValLenLogged_value :
    (hllSparseValLenLogged memory p).value = hllSparseValLen memory p := (rfl)

@[simp] theorem hllSparseValSetLogged_value (place : Place) (val len : Int) :
    (hllSparseValSetLogged place p val len).value = hllSparseValSet val len := (rfl)

@[simp] theorem memmoveLogged_value (dst : Int) (src count : Nat) :
    (memmoveLogged memory dst src count).value = memmove memory dst.toNat src count := (rfl)

@[simp] theorem memcpyLogged_value (seq : List Byte) :
    (memcpyLogged memory p seq).value = memcpy memory p seq := (rfl)

end Values

@[simp] theorem sdsIncrLenLogged_value (s : Sds) (incr : Int) :
    (sdsIncrLenLogged s incr).value = sdsIncrLen s incr := by
  rw [sdsIncrLenLogged]
  cases sdsIncrLen s incr <;> rfl

theorem sparseSpanLogged_value (memory : Memory) (p : Nat) :
    (sparseSpanLogged memory p).value =
      (if hllSparseIsZero memory p then hllSparseZeroLen memory p
        else if hllSparseIsVal memory p then hllSparseValLen memory p
        else hllSparseXzeroLen memory p,
        !hllSparseIsZero memory p && !hllSparseIsVal memory p) := by
  simp only [sparseSpanLogged, value_bind, value_ite, value_pure, hllSparseIsZeroLogged_value,
    hllSparseIsValLogged_value, hllSparseZeroLenLogged_value, hllSparseValLenLogged_value,
    hllSparseXzeroLenLogged_value]
  cases hllSparseIsZero memory p <;> cases hllSparseIsVal memory p <;> rfl

theorem sparseScanLogged_value (memory : Memory) (index finish : Nat) (scan : SparseScan) :
    (sparseScanLogged memory index finish scan).value = sparseScan memory index finish scan := by
  have oplen : (if (!hllSparseIsZero memory scan.p && !hllSparseIsVal memory scan.p) = true then 2
      else 1) = if hllSparseIsZero memory scan.p then 1
        else if hllSparseIsVal memory scan.p then 1 else 2 := by
    cases hllSparseIsZero memory scan.p <;> cases hllSparseIsVal memory scan.p <;> rfl
  rw [sparseScanLogged, sparseScan, value_ite]
  by_cases more : scan.p < finish
  · rw [if_pos more, if_pos more, value_bind, sparseSpanLogged_value]
    simp only [value_ite, value_pure, oplen]
    rw [sparseScanLogged_value]
  · rw [if_neg more, if_neg more, value_pure]
termination_by finish - scan.p
decreasing_by
  split
  · omega
  · split <;> omega

@[simp] theorem splitZeroRunLogged_value (n : Nat) (len : Int) :
    (splitZeroRunLogged n len).value = splitZeroRun len := by
  rw [splitZeroRunLogged, splitZeroRun, value_ite]
  rfl

@[simp] theorem splitSideLogged_value (run : Logged Access (List Byte)) (index bound : Int) :
    (splitSideLogged run index bound).value = if index ≠ bound then run.value else [] :=
  value_ite _ _ _

theorem splitZeroLogged_value (count : Nat) (index first last : Int) :
    (splitZeroLogged count index first last).value = splitZero count index first last := by
  simp only [splitZeroLogged, splitZero, value_bind, value_pure, splitSideLogged_value,
    splitZeroRunLogged_value, hllSparseValSetLogged_value]

theorem splitValLogged_value (curval count : Nat) (index first last : Int) :
    (splitValLogged curval count index first last).value =
      splitVal curval count index first last := by
  simp only [splitValLogged, splitVal, value_bind, value_pure, splitSideLogged_value,
    hllSparseValSetLogged_value]

private theorem value_andThen_sds {Result : Type} (first : Logged Access (Except Abort Sds))
    (next : Sds → Logged Access (Except Abort Result)) :
    (first.andThen next).value =
      match first.value with
      | .error abort => .error abort
      | .ok s => (next s).value := by
  rw [value_andThen]
  cases first.value <;> rfl

theorem sparseMergeLoopLogged_value (scanlen : Nat) (s : Sds) (p finish : Nat) :
    (sparseMergeLoopLogged scanlen s p finish).value = sparseMergeLoop scanlen s p finish := by
  induction scanlen generalizing s p finish with
  | zero => rfl
  | succ scanlen ih =>
      have adjacent : ((if p + 1 < finish then hllSparseIsVal s.buf (p + 1)
            else (pure false : Logged Access Bool).value) = true) =
          (p + 1 < finish ∧ hllSparseIsVal s.buf (p + 1) = true) := by
        by_cases inside : p + 1 < finish <;> simp [inside]
      rw [sparseMergeLoopLogged, sparseMergeLoop, value_ite]
      simp only [value_bind, value_ite, value_andThen_sds, hllSparseIsXzeroLogged_value,
        hllSparseIsZeroLogged_value, hllSparseIsValLogged_value, hllSparseValValueLogged_value,
        hllSparseValLenLogged_value, hllSparseValSetLogged_value, memmoveLogged_value,
        sdsIncrLenLogged_value, ih, adjacent, ite_and, Int.toNat_natCast]
      rfl

theorem hllSparseAddUpdatedLogged_value (s : Sds) (prev : Option Nat) (finish : Nat) :
    (hllSparseAddUpdatedLogged s prev finish).value = hllSparseAddUpdated s prev finish := by
  rw [hllSparseAddUpdatedLogged, hllSparseAddUpdated, value_andThen_sds,
    sparseMergeLoopLogged_value]
  rfl

@[simp] theorem moveTailLogged_value (memory : Memory) (next finish : Nat) (deltalen : Int) :
    (moveTailLogged memory next finish deltalen).value =
      if deltalen ≠ 0 ∧ next < finish then
        memmove memory (next + deltalen).toNat next (finish - next)
      else memory := by
  rw [moveTailLogged, value_ite, memmoveLogged_value, value_pure]

theorem hllSparseAddSubstituteLogged_value (env : Env) (s : Sds) (ele : List Byte)
    (scan : SparseScan) (seq : List Byte) :
    (hllSparseAddSubstituteLogged env s ele scan seq).value =
      hllSparseAddSubstitute env s ele scan seq := by
  rw [hllSparseAddSubstituteLogged, hllSparseAddSubstitute]
  simp only [value_bind, value_ite, value_andThen_sds, hllSparseIsXzeroLogged_value,
    moveTailLogged_value, memcpyLogged_value, sdsIncrLenLogged_value,
    hllSparseAddUpdatedLogged_value]
  rfl

@[simp] theorem runlenLogged_value (memory : Memory) (p : Nat) (isZero isXzero : Bool) :
    (runlenLogged memory p isZero isXzero).value =
      if isZero then hllSparseZeroLen memory p
      else if isXzero then hllSparseXzeroLen memory p
      else hllSparseValLen memory p := by
  simp only [runlenLogged, value_ite, hllSparseZeroLenLogged_value, hllSparseXzeroLenLogged_value,
    hllSparseValLenLogged_value]

@[simp] theorem oldcountLogged_value (memory : Memory) (p : Nat) (isVal : Bool) :
    (oldcountLogged memory p isVal).value = if isVal then hllSparseValValue memory p else 0 := by
  rw [oldcountLogged, value_ite, hllSparseValValueLogged_value, value_pure]

theorem splitLogged_value (memory : Memory) (p : Nat) (isVal : Bool) (count : Nat)
    (index first last : Int) :
    (splitLogged memory p isVal count index first last).value =
      if isVal then splitVal (hllSparseValValue memory p) count index first last
      else splitZero count index first last := by
  simp only [splitLogged, value_ite, value_bind, hllSparseValValueLogged_value,
    splitValLogged_value, splitZeroLogged_value]

theorem hllSparseAddAtLogged_value (env : Env) (s : Sds) (ele : List Byte) (pattern : Pattern)
    (scan : SparseScan) :
    (hllSparseAddAtLogged env s ele pattern scan).value =
      hllSparseAddAt env s ele pattern scan := by
  rw [hllSparseAddAtLogged, hllSparseAddAt]
  simp only [value_bind, value_ite, value_pure, hllSparseIsZeroLogged_value,
    hllSparseIsXzeroLogged_value, runlenLogged_value, oldcountLogged_value,
    hllSparseValSetLogged_value, splitLogged_value, hllSparseAddUpdatedLogged_value,
    hllSparseAddSubstituteLogged_value]
  cases hllSparseIsZero s.buf scan.p <;> cases hllSparseIsXzero s.buf scan.p <;> rfl

/-- Forgetting the accesses gives the sparse add. -/
theorem hllSparseAddLogged_value (env : Env) (o : Robj) (ele : List Byte) :
    (hllSparseAddLogged env o ele).value = hllSparseAdd env o ele := by
  rw [hllSparseAddLogged, hllSparseAdd]
  simp only [value_bind, value_ite, value_pure, sparseScanLogged_value,
    hllSparseAddAtLogged_value]

end PhpHll
