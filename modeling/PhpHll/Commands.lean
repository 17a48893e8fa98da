/-
The exported operations.

Objects live in a heap of handles; a `hll` argument is a handle or NULL.  The
operations on one object take and return the object itself, so `none` stands
for NULL there; the operations on several objects take the heap, since their
arguments may name one object more than once.
-/

import PhpHll.SparseAdd

namespace PhpHll

open ByteMemory

abbrev Heap := Nat → Robj

/-- A `hll` argument: a handle, or NULL. -/
abbrev Hll := Option Nat

/-! ### Creating, checking, loading and dumping -/

/-- `while(aux)`: as many XZERO opcodes as the registers need. -/
def hllCreateLoop (memory : Memory) (p aux : Nat) : Memory × Nat :=
  if aux = 0 then (memory, p)
  else
    let xzero := if hllSparseXzeroMaxLen > aux then aux else hllSparseXzeroMaxLen
    hllCreateLoop (memcpy memory p (hllSparseXzeroSet xzero)) (p + 2) (aux - xzero)
termination_by aux
decreasing_by
  unfold hllSparseXzeroMaxLen
  by_cases more : 16384 > aux
  · rw [dif_pos more]
    omega
  · rw [dif_neg more]
    omega

def hllMagic : List Byte := [0x48#8, 0x59#8, 0x4c#8, 0x4c#8]

/-- A string with the sparse header, a zero cardinality and some payload. -/
def sparseString (payload : List Byte) : Sds :=
  { len := hllHdrSize + payload.length
    free := 0
    buf := memcpy (setEncoding (memcpy (fun _ => 0) 0 hllMagic) hllSparse) hllHdrSize payload }

def hllCreate (env : Env) : Except Abort Robj :=
  let sparselen :=
    hllHdrSize + (hllRegisters + (hllSparseXzeroMaxLen - 1)) / hllSparseXzeroMaxLen * 2
  let s := sdsnewlenZero env sparselen
  let (buf, p) := hllCreateLoop s.buf hllHdrSize hllRegisters
  if p = sparselen then
    .ok { ptr := { s with buf := setEncoding (memcpy buf 0 hllMagic) hllSparse } }
  else .error .redisAssert

def isHLLObjectOrReply (o : Option Robj) : Int :=
  match o with
  | none => cErr
  | some o =>
      let hdr := o.ptr.buf
      if o.ptr.len < hllHdrSize then cErr
      else if readBytes hdr 0 4 ≠ hllMagic then cErr
      else if encoding hdr > hllMaxEncoding then cErr
      else if encoding hdr = hllDense ∧ o.ptr.len ≠ hllDenseSize then cErr
      else cOk

/-- The status and, on success, the object stored through `o`. -/
def hllLoad (env : Env) (raw : Sds) : Int × Option Robj :=
  let new : Robj := { ptr := sdsdup env raw }
  if isHLLObjectOrReply (some new) ≠ cErr then (cOk, some new) else (cErr, none)

def hllRaw (env : Env) (o : Option Robj) : Option Sds := o.map fun o => sdsdup env o.ptr

/-! ### Adding -/

def hllAdd (env : Env) (o : Robj) (ele : List Byte) : Except Abort (Int × Robj) :=
  if encoding o.ptr.buf = hllDense then
    let (updated, buf) := hllDenseAdd o.ptr.buf hllHdrSize ele
    .ok (updated, { ptr := { o.ptr with buf := buf } })
  else if encoding o.ptr.buf = hllSparse then hllSparseAdd env o ele
  else .ok (-1, o)

def invalidate (o : Robj) : Robj := { ptr := { o.ptr with buf := hllInvalidateCache o.ptr.buf } }

def pfAdd (env : Env) (o : Option Robj) (ele : List Byte) : Except Abort (Int × Option Robj) :=
  match o with
  | none => .ok (cErr, none)
  | some o =>
      if isHLLObjectOrReply (some o) ≠ cOk then .ok (cErr, some o)
      else
        match hllAdd env o ele with
        | .error abort => .error abort
        | .ok (retval, o) =>
            if retval = -1 then .ok (cErr, some o)
            else if retval = 1 then .ok (1, some (invalidate o))
            else .ok (0, some o)

def pfAddManyLoop (env : Env) : List (List Byte) → Nat → Robj → Except Abort (Int × Robj)
  | [], updated, o => if updated > 0 then .ok (1, invalidate o) else .ok (0, o)
  | ele :: rest, updated, o =>
      match hllAdd env o ele with
      | .error abort => .error abort
      | .ok (retval, o) =>
          if retval = -1 then .ok (cErr, o)
          else if retval = 1 then pfAddManyLoop env rest (updated + 1) o
          else pfAddManyLoop env rest updated o

def pfAddMany (env : Env) (o : Option Robj) (eles : List (List Byte)) :
    Except Abort (Int × Option Robj) :=
  match o with
  | none => .ok (cErr, none)
  | some o =>
      if isHLLObjectOrReply (some o) ≠ cOk then .ok (cErr, some o)
      else
        match pfAddManyLoop env eles 0 o with
        | .error abort => .error abort
        | .ok (retval, o) => .ok (retval, some o)

/-! ### Counting -/

/-- The count and the flag `invalid`.  `sdslen` is the length of the string at
`hdr`, which only the sparse branch asks for. -/
def hllCount (env : Env) (hdr : Memory) (sdslen : Nat) : Except Abort (BitVec 64 × Bool) :=
  let tail (sum : RegisterSum) : BitVec 64 := env.estimate sum.E sum.ez
  if encoding hdr = hllDense then .ok (tail (hllDenseSum hdr hllHdrSize), false)
  else if encoding hdr = hllSparse then
    let (sum, invalid) := hllSparseSum hdr hllHdrSize (sdslen - hllHdrSize)
    .ok (tail sum, invalid)
  else if encoding hdr = hllRawEncoding then .ok (tail (hllRawSum hdr hllHdrSize), false)
  else .error .redisPanic

/-- How `pfCount` and `pfCountMerged` return: through a `return C_ERR`, or with
a cardinality.  Both are a `uint64_t` to the caller. -/
inductive CountExit
  | err
  | card (value : BitVec 64)
  deriving DecidableEq

def pfCount (env : Env) (o : Option Robj) : Except Abort (CountExit × Option Robj) :=
  if isHLLObjectOrReply o ≠ cOk then .ok (.err, o)
  else
    match o with
    | none => .ok (.card 0, none)
    | some o =>
        if hllValidCache o.ptr.buf then .ok (.card (readCard o.ptr.buf), some o)
        else
          match hllCount env o.ptr.buf o.ptr.len with
          | .error abort => .error abort
          | .ok (card, invalid) =>
              if invalid then .ok (.err, some o)
              else
                .ok (.card card, some { ptr := { o.ptr with buf := writeCard o.ptr.buf card } })

/-- The loop over the handles: each one is checked and merged into `max`, whose
registers start at offset 16. -/
def pfCountMergedLoop (heap : Heap) : List Hll → Memory → Option Memory
  | [], max => some max
  | none :: rest, max => pfCountMergedLoop heap rest max
  | some handle :: rest, max =>
      if isHLLObjectOrReply (some (heap handle)) ≠ cOk then none
      else
        let (status, max) := hllMerge max hllHdrSize (heap handle)
        if status = cErr then none else pfCountMergedLoop heap rest max

def pfCountMerged (env : Env) (heap : Heap) (hlls : List Hll) :
    Except Abort (CountExit × Heap) :=
  match hlls with
  | [] => .ok (.card 0, heap)
  | [none] =>
      match pfCount env none with
      | .error abort => .error abort
      | .ok (exit, _) => .ok (exit, heap)
  | [some handle] =>
      match pfCount env (some (heap handle)) with
      | .error abort => .error abort
      | .ok (exit, o) => .ok (exit, Function.update heap handle (o.getD (heap handle)))
  | hlls =>
      let max : Memory := setEncoding (fun _ => 0) hllRawEncoding
      match pfCountMergedLoop heap hlls max with
      | none => .ok (.err, heap)
      | some max =>
          match hllCount env max 0 with
          | .error abort => .error abort
          | .ok (card, _) => .ok (.card card, heap)

/-! ### Merging -/

def pfMergeLoop (heap : Heap) : List Hll → Memory → Option Memory
  | [], max => some max
  | none :: rest, max => pfMergeLoop heap rest max
  | some handle :: rest, max =>
      let (status, max) := hllMerge max 0 (heap handle)
      if status = cErr then none else pfMergeLoop heap rest max

def writeRegisters (hdr max : Memory) : Memory :=
  (List.range hllRegisters).foldl
    (fun hdr j => hllDenseSetRegister hdr hllHdrSize j ((max j).setWidth 64)) hdr

def pfMerge (env : Env) (heap : Heap) (target : Hll) (hlls : List Hll) : Int × Heap :=
  match target with
  | none => (cErr, heap)
  | some target =>
      match pfMergeLoop heap hlls (fun _ => 0) with
      | none => (cErr, heap)
      | some max =>
          let (status, o) := hllSparseToDense env (heap target)
          if status = cErr then (cErr, Function.update heap target o)
          else
            let o : Robj := { ptr := { o.ptr with buf := writeRegisters o.ptr.buf max } }
            (cOk, Function.update heap target (invalidate o))

end PhpHll
