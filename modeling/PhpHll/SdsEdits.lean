/-
Editing simple dynamic strings.

The functions that change a string in place or let it grow, each written with
the accesses it makes to the allocation of the string and with the sizes it
asks the allocator for.  Offsets and sizes count from the `sds` pointer, behind
the header.  Lengths are natural numbers and `int` arguments are integers, the
same ones for strings of fewer than `2 ^ 31` bytes.

Every edit is described by the bytes it leaves, and keeps the terminator and
the size of the allocation that the header accounts for.
-/

import PhpHll.Sds
import PhpHll.Library.Allocation

namespace PhpHll

open ByteMemory Logged Allocation

/-! ### The allocation -/

/-- The part of the allocation behind the header. -/
def Sds.room (s : Sds) : Nat := s.len + s.free + 1

def Sds.Terminated (s : Sds) : Prop := s.buf s.len = 0

def loadAt (s : Sds) (offset : Nat) : Logged Touch Byte := do
  emit (.read offset)
  pure (s.buf offset)

def storeAt (s : Sds) (offset : Nat) (byte : Byte) : Logged Touch Sds := do
  emit (.write offset)
  pure { s with buf := store s.buf offset byte }

def copyInto (s : Sds) (target : Nat) (bytes : List Byte) : Logged Touch Sds := do
  emitAll (writes target bytes.length)
  pure { s with buf := memcpy s.buf target bytes }

def moveWithin (s : Sds) (target source count : Nat) : Logged Touch Sds := do
  emitAll (reads source count)
  emitAll (writes target count)
  pure { s with buf := memmove s.buf target source count }

def clearBlock (s : Sds) (target count : Nat) : Logged Touch Sds := do
  emitAll (writes target count)
  pure { s with buf := memset s.buf target 0 count }

def sdsnewlenLogged (env : Env) (init : List Byte) : Logged Touch Sds := do
  emit (.resize (init.length + 1))
  emitAll (writes 0 init.length)
  emit (.write init.length)
  pure (sdsnewlen env init)

/-! ### Growing and shrinking -/

def sdsMakeRoomForLogged (s : Sds) (addlen : Nat) : Logged Touch Sds :=
  if addlen ≤ s.free then pure s
  else do
    let newlen := s.len + addlen
    let newlen := if newlen < sdsMaxPrealloc then newlen * 2 else newlen + sdsMaxPrealloc
    emit (.resize (newlen + 1))
    pure { s with free := newlen - s.len }

def sdsRemoveFreeSpace (s : Sds) : Logged Touch Sds := do
  emit (.resize (s.len + 1))
  pure { s with free := 0 }

def sdsIncrLenStored (s : Sds) (incr : Int) : Logged Touch (Except Abort Sds) :=
  match sdsIncrLen s incr with
  | .error abort => pure (.error abort)
  | .ok next => do
      emit (.write (s.len + incr))
      pure (.ok next)

def sdsgrowzero (s : Sds) (len : Nat) : Logged Touch Sds :=
  if len ≤ s.len then pure s
  else do
    let curlen := s.len
    let s ← sdsMakeRoomForLogged s (len - curlen)
    let s ← clearBlock s curlen (len - curlen + 1)
    let totlen := s.len + s.free
    pure { s with len := len, free := totlen - len }

def sdscatlen (s : Sds) (t : List Byte) : Logged Touch Sds := do
  let curlen := s.len
  let s ← sdsMakeRoomForLogged s t.length
  let s ← copyInto s curlen t
  storeAt { s with len := curlen + t.length, free := s.free - t.length } (curlen + t.length) 0

def sdscat (s : Sds) (t : List Byte) : Logged Touch Sds := sdscatlen s (t.take (strlen t))

def sdscatsds (s t : Sds) : Logged Touch Sds := sdscatlen s t.bytes

def sdscpylen (s : Sds) (t : List Byte) : Logged Touch Sds := do
  let s ←
    (if s.free + s.len < t.length then sdsMakeRoomForLogged s (t.length - s.len) else pure s)
  let totlen := s.free + s.len
  let s ← copyInto s 0 t
  let s ← storeAt s t.length 0
  pure { s with len := t.length, free := totlen - t.length }

def sdscpy (s : Sds) (t : List Byte) : Logged Touch Sds := sdscpylen s (t.take (strlen t))

/-! ### Cutting -/

/-- `strlen` reads up to the first NUL, the terminator at the latest. -/
def sdsupdatelen (s : Sds) : Logged Touch Sds := do
  let reallen := strlen s.bytes
  emitAll (reads 0 (reallen + 1))
  pure { s with len := reallen, free := s.free + (s.len - reallen) }

def sdsclear (s : Sds) : Logged Touch Sds :=
  storeAt { s with len := 0, free := s.free + s.len } 0 0

/-- `strchr(cset, byte)`: the set ends at its first NUL, which is found as well. -/
def strchr (cset : List Byte) (byte : Byte) : Bool :=
  byte ∈ cset.takeWhile (fun member => member ≠ 0) ++ [0]

/-- `while(sp <= end && strchr(cset, *sp)) sp++`, with the bytes left up to
`end`. -/
def sdstrimStart (s : Sds) (cset : List Byte) : Nat → Nat → Logged Touch Nat
  | 0, sp => pure sp
  | left + 1, sp => do
      let byte ← loadAt s sp
      if strchr cset byte then sdstrimStart s cset left (sp + 1) else pure sp

def sdstrimEnd (s : Sds) (cset : List Byte) : Nat → Logged Touch Nat
  | 0 => pure 0
  | ep + 1 => do
      let byte ← loadAt s (ep + 1)
      if strchr cset byte then sdstrimEnd s cset ep else pure (ep + 1)

/-- The end of an empty string lies in front of it, and is not moved. -/
def sdstrimLast (s : Sds) (cset : List Byte) : Logged Touch Int :=
  match s.len with
  | 0 => pure (-1)
  | last + 1 => do
      let ep ← sdstrimEnd s cset last
      pure (ep : Int)

/-- The lines that `sdstrim` and `sdsrange` end with: a part of the string is
moved to the front and terminated there. -/
def cutTo (s : Sds) (moved : Bool) (start len : Nat) : Logged Touch Sds := do
  let s ← (if moved then moveWithin s 0 start len else pure s)
  let s ← storeAt s len 0
  pure { s with len := len, free := s.free + (s.len - len) }

def sdstrim (s : Sds) (cset : List Byte) : Logged Touch Sds := do
  let sp ← sdstrimStart s cset s.len 0
  let ep ← sdstrimLast s cset
  let len := if (sp : Int) > ep then 0 else (ep - sp + 1).toNat
  cutTo s (sp ≠ 0) sp len

def sdsrangeIndex (len : Nat) (index : Int) : Int :=
  if index < 0 then (if len + index < 0 then 0 else len + index) else index

def sdsrangeBounds (len : Nat) (start finish : Int) : Int × Int :=
  let newlen := if start > finish then 0 else finish - start + 1
  if newlen ≠ 0 then
    if start ≥ len then (start, 0)
    else if finish ≥ len then
      let finish : Int := len - 1
      (start, if start > finish then 0 else finish - start + 1)
    else (start, newlen)
  else (0, newlen)

def sdsrange (s : Sds) (start finish : Int) : Logged Touch Sds :=
  if s.len = 0 then pure s
  else
    let (start, newlen) :=
      sdsrangeBounds s.len (sdsrangeIndex s.len start) (sdsrangeIndex s.len finish)
    cutTo s (start ≠ 0 ∧ newlen ≠ 0) start.toNat newlen.toNat

/-! ### Replacing single bytes -/

def replaceEach (replacement : Byte → Option Byte) : Nat → Nat → Sds → Logged Touch Sds
  | 0, _, s => pure s
  | left + 1, j, s => do
      let byte ← loadAt s j
      match replacement byte with
      | none => replaceEach replacement left (j + 1) s
      | some other => do
          let s ← storeAt s j other
          replaceEach replacement left (j + 1) s

/-- `tolower` in the C locale. -/
def tolower (byte : Byte) : Byte := if 0x41#8 ≤ byte ∧ byte ≤ 0x5a#8 then byte + 0x20#8 else byte

def toupper (byte : Byte) : Byte := if 0x61#8 ≤ byte ∧ byte ≤ 0x7a#8 then byte - 0x20#8 else byte

def sdstolower (s : Sds) : Logged Touch Sds :=
  replaceEach (fun byte => some (tolower byte)) s.len 0 s

def sdstoupper (s : Sds) : Logged Touch Sds :=
  replaceEach (fun byte => some (toupper byte)) s.len 0 s

def mapchar (byte : Byte) : List Byte → List Byte → Option Byte
  | before :: fromSet, after :: toSet =>
      if byte = before then some after else mapchar byte fromSet toSet
  | _, _ => none

def sdsmapchars (s : Sds) (fromSet toSet : List Byte) : Logged Touch Sds :=
  replaceEach (fun byte => mapchar byte fromSet toSet) s.len 0 s

end PhpHll
