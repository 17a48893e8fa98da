/-
Simple dynamic strings.

An `Sds` is the header and the bytes behind one `sds` pointer.  Offset `k` of
`buf` is the byte at `s + k`: the string, its terminator, the free room, and
past the end of the allocation whatever the process has there.  Growing a
string leaves every byte where it is; allocation itself does not fail.  The
`int` fields `len` and `free` are natural numbers, the same ones for strings of
fewer than `2 ^ 31` bytes.
-/

import Mathlib.Data.List.Basic
import Mathlib.Data.Rat.Defs
import PhpHll.Library.ByteMemory

namespace PhpHll

open ByteMemory

/-- The ways in which a call ends the process instead of returning. -/
inductive Abort
  | sdsAssert
  | redisAssert
  | redisPanic
  deriving DecidableEq, Repr

/-- What the calls read besides their arguments: the server configuration, the
bytes an allocator leaves past the end of a new string, and the floating-point
end of the count as a function of the register sum and the zero registers. -/
structure Env where
  hll_sparse_max_bytes : Nat
  fresh : Memory
  estimate : ℚ → Int → BitVec 64

/-- The `server` of the source, with zeroed memory and no estimate. -/
def server : Env :=
  { hll_sparse_max_bytes := 3000
    fresh := fun _ => 0
    estimate := fun _ _ => 0 }

structure Sds where
  len : Nat
  free : Nat
  buf : Memory

def sdsMaxPrealloc : Nat := 1024 * 1024

def Sds.bytes (s : Sds) : List Byte := readBytes s.buf 0 s.len

def sdsnewlen (env : Env) (init : List Byte) : Sds :=
  { len := init.length
    free := 0
    buf := memcpy (store env.fresh init.length 0) 0 init }

/-- `strlen` of a string whose terminator stands behind `bytes`. -/
def strlen (bytes : List Byte) : Nat := (bytes.takeWhile fun byte => byte ≠ 0).length

def sdsnew (env : Env) (init : List Byte) : Sds := sdsnewlen env (init.take (strlen init))

/-- `sdsnewlen(NULL, initlen)`: the allocation is zeroed. -/
def sdsnewlenZero (env : Env) (initlen : Nat) : Sds :=
  { len := initlen
    free := 0
    buf := fun offset => if offset ≤ initlen then 0 else env.fresh offset }

def sdsdup (env : Env) (s : Sds) : Sds := sdsnewlen env s.bytes

def sdsMakeRoomFor (s : Sds) (addlen : Nat) : Sds :=
  if addlen ≤ s.free then s
  else
    let newlen := s.len + addlen
    let newlen := if newlen < sdsMaxPrealloc then newlen * 2 else newlen + sdsMaxPrealloc
    { s with free := newlen - s.len }

def sdsIncrLen (s : Sds) (incr : Int) : Except Abort Sds :=
  if (s.free : Int) < incr then .error .sdsAssert
  else
    let len := (s.len + incr).toNat
    let free := s.free - incr
    if free < 0 then .error .sdsAssert
    else .ok { len := len, free := free.toNat, buf := store s.buf len 0 }

@[simp] theorem sdsnewlen_len (env : Env) (init : List Byte) :
    (sdsnewlen env init).len = init.length := rfl

@[simp] theorem sdsnewlen_bytes (env : Env) (init : List Byte) :
    (sdsnewlen env init).bytes = init := readBytes_memcpy _ 0 init

@[simp] theorem sdsnew_bytes (env : Env) (init : List Byte) :
    (sdsnew env init).bytes = init.takeWhile fun byte => byte ≠ 0 := by
  rw [sdsnew, sdsnewlen_bytes, strlen]
  exact (List.prefix_iff_eq_take.mp (List.takeWhile_prefix _)).symm

theorem sdsnewlen_terminator (env : Env) (init : List Byte) :
    (sdsnewlen env init).buf init.length = 0 := by
  simp only [sdsnewlen]
  rw [memcpy_above _ _ _ _ (by omega), store_same]

@[simp] theorem Sds.bytes_length (s : Sds) : s.bytes.length = s.len := readBytes_length _ _ _

@[simp] theorem sdsdup_len (env : Env) (s : Sds) : (sdsdup env s).len = s.len := by
  simp [sdsdup]

@[simp] theorem sdsdup_bytes (env : Env) (s : Sds) : (sdsdup env s).bytes = s.bytes := by
  simp [sdsdup]

theorem sdsdup_buf (env : Env) (s : Sds) (offset : Nat) (inside : offset < s.len) :
    (sdsdup env s).buf offset = s.buf offset := by
  apply byte_eq_of_readBytes_eq _ _ 0 s.len _ offset (Nat.zero_le _) (by omega)
  have same := sdsdup_bytes env s
  simpa only [Sds.bytes, sdsdup_len] using same

@[simp] theorem sdsMakeRoomFor_len (s : Sds) (addlen : Nat) :
    (sdsMakeRoomFor s addlen).len = s.len := by
  unfold sdsMakeRoomFor
  split <;> rfl

@[simp] theorem sdsMakeRoomFor_buf (s : Sds) (addlen : Nat) :
    (sdsMakeRoomFor s addlen).buf = s.buf := by
  unfold sdsMakeRoomFor
  split <;> rfl

theorem sdsMakeRoomFor_free (s : Sds) (addlen : Nat) :
    addlen ≤ (sdsMakeRoomFor s addlen).free := by
  unfold sdsMakeRoomFor
  split
  · rename_i enough
    exact enough
  · simp only
    split <;> omega

theorem sdsIncrLen_ok (s : Sds) (incr : Int) (room : incr ≤ s.free) :
    sdsIncrLen s incr = .ok
      { len := (s.len + incr).toNat
        free := (s.free - incr).toNat
        buf := store s.buf (s.len + incr).toNat 0 } := by
  unfold sdsIncrLen
  rw [if_neg (by omega)]
  simp only
  rw [if_neg (by omega)]

theorem sdsIncrLen_result {s next : Sds} {incr : Int} (grown : sdsIncrLen s incr = .ok next) :
    next.len = (s.len + incr).toNat ∧ next.buf = store s.buf (s.len + incr).toNat 0 := by
  unfold sdsIncrLen at grown
  split at grown
  · cases grown
  · simp only at grown
    split at grown
    · cases grown
    · cases grown
      exact ⟨rfl, rfl⟩

end PhpHll
