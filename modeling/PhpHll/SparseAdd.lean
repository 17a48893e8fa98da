/-
The sparse add.

`hllSparseAdd` edits the opcode string in place: a scan finds the opcode that
covers the register, the opcode is overwritten or replaced by its split, and a
short loop merges neighbouring VAL opcodes.  The definitions follow the steps
and the labels of the source; pointers are offsets into the string, and every
access past its end reads or writes the byte that is there.
-/

import PhpHll.SparseMeaning

namespace PhpHll

open ByteMemory

/-- The label `promote`: convert, then add to the dense registers. -/
def hllSparseAddPromote (env : Env) (o : Robj) (ele : List Byte) : Except Abort (Int × Robj) :=
  let (status, o) := hllSparseToDense env o
  if status = cErr then .ok (-1, o)
  else
    let (denseRetval, buf) := hllDenseAdd o.ptr.buf hllHdrSize ele
    if denseRetval = 1 then .ok (denseRetval, { ptr := { o.ptr with buf := buf } })
    else .error .redisAssert

/-- The loop of step 4, with the value of `scanlen` first. -/
def sparseMergeLoop : Nat → Sds → Nat → Nat → Except Abort Sds
  | 0, s, _, _ => .ok s
  | scanlen + 1, s, p, finish =>
      if p < finish then
        if hllSparseIsXzero s.buf p then sparseMergeLoop scanlen s (p + 2) finish
        else if hllSparseIsZero s.buf p then sparseMergeLoop scanlen s (p + 1) finish
        else if p + 1 < finish ∧ hllSparseIsVal s.buf (p + 1) then
          let v1 := hllSparseValValue s.buf p
          let v2 := hllSparseValValue s.buf (p + 1)
          let len := hllSparseValLen s.buf p + hllSparseValLen s.buf (p + 1)
          if v1 = v2 ∧ len ≤ hllSparseValMaxLen then
            let buf := memcpy s.buf (p + 1) (hllSparseValSet v1 len)
            let buf := memmove buf p (p + 1) (finish - p)
            match sdsIncrLen { s with buf := buf } (-1) with
            | .error abort => .error abort
            | .ok s => sparseMergeLoop scanlen s p (finish - 1)
          else sparseMergeLoop scanlen s (p + 1) finish
        else sparseMergeLoop scanlen s (p + 1) finish
      else .ok s

/-- The label `updated`: merge from the previous opcode on, invalidate the
cached cardinality, and report the change. -/
def hllSparseAddUpdated (s : Sds) (prev : Option Nat) (finish : Nat) :
    Except Abort (Int × Robj) :=
  match sparseMergeLoop 5 s (prev.getD hllHdrSize) finish with
  | .error abort => .error abort
  | .ok s => .ok (1, { ptr := { s with buf := hllInvalidateCache s.buf } })

structure SparseScan where
  p : Nat
  prev : Option Nat
  first : Nat
  span : Nat

def sparseScan (memory : Memory) (index finish : Nat) (scan : SparseScan) : SparseScan :=
  if scan.p < finish then
    let span :=
      if hllSparseIsZero memory scan.p then hllSparseZeroLen memory scan.p
      else if hllSparseIsVal memory scan.p then hllSparseValLen memory scan.p
      else hllSparseXzeroLen memory scan.p
    let oplen :=
      if hllSparseIsZero memory scan.p then 1
      else if hllSparseIsVal memory scan.p then 1
      else 2
    if index ≤ scan.first + span - 1 then { scan with span := span }
    else
      sparseScan memory index finish
        { p := scan.p + oplen, prev := some scan.p, first := scan.first + span, span := span }
  else scan
termination_by finish - scan.p
decreasing_by
  split
  · omega
  · split <;> omega

/-- A zero run of the split: XZERO if it is longer than a ZERO can say. -/
def splitZeroRun (len : Int) : List Byte :=
  if len > hllSparseZeroMaxLen then hllSparseXzeroSet len else hllSparseZeroSet len

def splitZero (count : Nat) (index first last : Int) : List Byte :=
  (if index ≠ first then splitZeroRun (index - first) else []) ++
    hllSparseValSet count 1 ++
    (if index ≠ last then splitZeroRun (last - index) else [])

def splitVal (curval count : Nat) (index first last : Int) : List Byte :=
  (if index ≠ first then hllSparseValSet curval (index - first) else []) ++
    hllSparseValSet count 1 ++
    (if index ≠ last then hllSparseValSet curval (last - index) else [])

/-- Step 3: put `seq` in place of the opcode at `p`, if the string may grow. -/
def hllSparseAddSubstitute (env : Env) (s : Sds) (ele : List Byte) (scan : SparseScan)
    (seq : List Byte) : Except Abort (Int × Robj) :=
  let finish := s.len
  let isXzero := hllSparseIsXzero s.buf scan.p
  let next := if isXzero then scan.p + 2 else scan.p + 1
  let oldlen : Int := if isXzero then 2 else 1
  let deltalen : Int := seq.length - oldlen
  if deltalen > 0 ∧ s.len + deltalen > env.hll_sparse_max_bytes then
    hllSparseAddPromote env { ptr := s } ele
  else
    let buf :=
      if deltalen ≠ 0 ∧ next < finish then
        memmove s.buf (next + deltalen).toNat next (finish - next)
      else s.buf
    match sdsIncrLen { s with buf := buf } deltalen with
    | .error abort => .error abort
    | .ok s =>
        hllSparseAddUpdated { s with buf := memcpy s.buf scan.p seq } scan.prev
          (finish + deltalen).toNat

def hllSparseAddAt (env : Env) (s : Sds) (ele : List Byte) (pattern : Pattern)
    (scan : SparseScan) : Except Abort (Int × Robj) :=
  let count := pattern.count
  let isZero := hllSparseIsZero s.buf scan.p
  let isXzero := hllSparseIsXzero s.buf scan.p
  let isVal := !isZero && !isXzero
  let runlen :=
    if isZero then hllSparseZeroLen s.buf scan.p
    else if isXzero then hllSparseXzeroLen s.buf scan.p
    else hllSparseValLen s.buf scan.p
  if isVal ∧ count ≤ hllSparseValValue s.buf scan.p then .ok (0, { ptr := s })
  else if isVal ∧ runlen = 1 ∨ isZero ∧ runlen = 1 then
    hllSparseAddUpdated { s with buf := memcpy s.buf scan.p (hllSparseValSet count 1) }
      scan.prev s.len
  else
    let last : Int := scan.first + scan.span - 1
    let seq :=
      if isZero || isXzero then splitZero count pattern.index scan.first last
      else splitVal (hllSparseValValue s.buf scan.p) count pattern.index scan.first last
    hllSparseAddSubstitute env s ele scan seq

def hllSparseAdd (env : Env) (o : Robj) (ele : List Byte) : Except Abort (Int × Robj) :=
  let pattern := hllPatLen ele
  if hllSparseValMaxValue < pattern.count then hllSparseAddPromote env o ele
  else
    let s := sdsMakeRoomFor o.ptr 3
    let scan := sparseScan s.buf pattern.index s.len
      { p := hllHdrSize, prev := none, first := 0, span := 0 }
    if scan.span = 0 then .ok (-1, { ptr := s })
    else hllSparseAddAt env s ele pattern scan

end PhpHll
