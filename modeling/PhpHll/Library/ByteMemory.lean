/-
Byte memory and the block moves of the C library.

A memory gives the byte at every offset of an allocation and at the offsets
beyond it, so an access past the end of a string is an ordinary read of
whatever is there.  A block of memory is compared with a list of bytes through
`readBytes`; every move and store below has a rule for the blocks it writes and
one for the blocks it leaves alone.
-/

import Mathlib.Data.List.Basic

namespace PhpHll.ByteMemory

abbrev Byte := BitVec 8

abbrev Memory := Nat → Byte

def store (memory : Memory) (address : Nat) (byte : Byte) : Memory :=
  fun offset => if offset = address then byte else memory offset

def readBytes (memory : Memory) : Nat → Nat → List Byte
  | _, 0 => []
  | address, count + 1 => memory address :: readBytes memory (address + 1) count

def memcpy (memory : Memory) (target : Nat) (bytes : List Byte) : Memory :=
  fun offset =>
    if target ≤ offset ∧ offset < target + bytes.length then
      bytes.getD (offset - target) 0
    else memory offset

/-- The source block is read as it was before the move, as `memmove` promises
for overlapping blocks. -/
def memmove (memory : Memory) (target source count : Nat) : Memory :=
  fun offset =>
    if target ≤ offset ∧ offset < target + count then
      memory (source + (offset - target))
    else memory offset

def memset (memory : Memory) (target : Nat) (byte : Byte) (count : Nat) : Memory :=
  fun offset => if target ≤ offset ∧ offset < target + count then byte else memory offset

@[simp] theorem store_same (memory : Memory) (address : Nat) (byte : Byte) :
    store memory address byte address = byte := by
  simp [store]

theorem store_other (memory : Memory) (address offset : Nat) (byte : Byte)
    (different : offset ≠ address) :
    store memory address byte offset = memory offset := by
  simp [store, different]

theorem memcpy_below (memory : Memory) (target offset : Nat) (bytes : List Byte)
    (below : offset < target) : memcpy memory target bytes offset = memory offset := by
  have outside : ¬(target ≤ offset ∧ offset < target + bytes.length) := by omega
  simp only [memcpy, if_neg outside]

theorem memcpy_above (memory : Memory) (target offset : Nat) (bytes : List Byte)
    (above : target + bytes.length ≤ offset) :
    memcpy memory target bytes offset = memory offset := by
  have outside : ¬(target ≤ offset ∧ offset < target + bytes.length) := by omega
  simp only [memcpy, if_neg outside]

theorem memmove_below (memory : Memory) (target source count offset : Nat)
    (below : offset < target) :
    memmove memory target source count offset = memory offset := by
  have outside : ¬(target ≤ offset ∧ offset < target + count) := by omega
  simp only [memmove, if_neg outside]

theorem memmove_inside (memory : Memory) (target source count step : Nat)
    (inside : step < count) :
    memmove memory target source count (target + step) = memory (source + step) := by
  have within : target ≤ target + step ∧ target + step < target + count := by omega
  simp only [memmove, if_pos within, Nat.add_sub_cancel_left]

theorem memmove_self (memory : Memory) (target count : Nat) :
    memmove memory target target count = memory := by
  funext offset
  unfold memmove
  split
  · rename_i within
    congr 1
    omega
  · rfl

theorem memmove_nothing (memory : Memory) (target source : Nat) :
    memmove memory target source 0 = memory := by
  funext offset
  have outside : ¬(target ≤ offset ∧ offset < target + 0) := by omega
  simp only [memmove, if_neg outside]

/-! ### Blocks -/

@[simp] theorem readBytes_zero (memory : Memory) (address : Nat) :
    readBytes memory address 0 = [] := rfl

theorem readBytes_succ (memory : Memory) (address count : Nat) :
    readBytes memory address (count + 1) =
      memory address :: readBytes memory (address + 1) count := rfl

@[simp] theorem readBytes_length (memory : Memory) (address count : Nat) :
    (readBytes memory address count).length = count := by
  induction count generalizing address with
  | zero => rfl
  | succ count ih => simp [readBytes_succ, ih]

theorem readBytes_add (memory : Memory) (address first second : Nat) :
    readBytes memory address (first + second) =
      readBytes memory address first ++ readBytes memory (address + first) second := by
  induction first generalizing address with
  | zero => simp
  | succ first ih =>
      have rearranged : first + 1 + second = first + second + 1 := by omega
      have shifted : address + (first + 1) = address + 1 + first := by omega
      rw [rearranged, readBytes_succ, ih, readBytes_succ, shifted, List.cons_append]

theorem readBytes_congr (left right : Memory) (address count : Nat)
    (same : ∀ offset, address ≤ offset → offset < address + count →
      left offset = right offset) :
    readBytes left address count = readBytes right address count := by
  induction count generalizing address with
  | zero => rfl
  | succ count ih =>
      rw [readBytes_succ, readBytes_succ, same address (by omega) (by omega)]
      rw [ih (address + 1) (fun offset lower upper => same offset (by omega) (by omega))]

theorem readBytes_apply (memory : Memory) (address count step : Nat) (inside : step < count) :
    (readBytes memory address count)[step]? = some (memory (address + step)) := by
  induction count generalizing address step with
  | zero => omega
  | succ count ih =>
      rw [readBytes_succ]
      cases step with
      | zero => simp
      | succ step =>
          rw [List.getElem?_cons_succ, ih (address + 1) step (by omega)]
          congr 2
          omega

theorem readBytes_take (memory : Memory) (address count shorter : Nat) (fewer : shorter ≤ count) :
    readBytes memory address shorter = (readBytes memory address count).take shorter := by
  have split := readBytes_add memory address shorter (count - shorter)
  rw [Nat.add_sub_cancel' fewer] at split
  rw [split, List.take_left' (readBytes_length memory address shorter)]

theorem byte_eq_of_readBytes_eq (left right : Memory) (address count : Nat)
    (same : readBytes left address count = readBytes right address count)
    (offset : Nat) (lower : address ≤ offset) (upper : offset < address + count) :
    left offset = right offset := by
  have leftByte := readBytes_apply left address count (offset - address) (by omega)
  have rightByte := readBytes_apply right address count (offset - address) (by omega)
  rw [same, rightByte, Nat.add_sub_cancel' lower] at leftByte
  exact (Option.some.inj leftByte).symm

theorem readBytes_store_outside (memory : Memory) (address byteAddress count : Nat) (byte : Byte)
    (outside : byteAddress < address ∨ address + count ≤ byteAddress) :
    readBytes (store memory byteAddress byte) address count = readBytes memory address count := by
  apply readBytes_congr
  intro offset lower upper
  exact store_other memory byteAddress offset byte (by omega)

theorem readBytes_memset_below (memory : Memory) (target count address length : Nat) (byte : Byte)
    (below : address + length ≤ target) :
    readBytes (memset memory target byte count) address length =
      readBytes memory address length := by
  apply readBytes_congr
  intro offset lower upper
  exact if_neg (by omega)

theorem readBytes_memset (memory : Memory) (target count length : Nat) (byte : Byte)
    (within : length ≤ count) :
    readBytes (memset memory target byte count) target length = List.replicate length byte := by
  apply List.ext_getElem?
  intro step
  by_cases inside : step < length
  · have set : target ≤ target + step ∧ target + step < target + count := by omega
    rw [readBytes_apply _ _ _ _ inside, List.getElem?_replicate, if_pos inside, memset, if_pos set]
  · rw [List.getElem?_eq_none (by rw [readBytes_length]; omega),
      List.getElem?_eq_none (by rw [List.length_replicate]; omega)]

theorem readBytes_memcpy (memory : Memory) (target : Nat) (bytes : List Byte) :
    readBytes (memcpy memory target bytes) target bytes.length = bytes := by
  apply List.ext_getElem?
  intro step
  by_cases inside : step < bytes.length
  · rw [readBytes_apply _ _ _ _ inside]
    have within : target ≤ target + step ∧ target + step < target + bytes.length := by omega
    simp [memcpy, within, inside, List.getD_eq_getElem?_getD]
  · have past : bytes.length ≤ step := by omega
    rw [List.getElem?_eq_none (by rw [readBytes_length]; exact past),
      List.getElem?_eq_none past]

theorem readBytes_memcpy_outside (memory : Memory) (target address count : Nat)
    (bytes : List Byte)
    (outside : address + count ≤ target ∨ target + bytes.length ≤ address) :
    readBytes (memcpy memory target bytes) address count = readBytes memory address count := by
  apply readBytes_congr
  intro offset lower upper
  rcases outside with before | after
  · exact memcpy_below memory target offset bytes (by omega)
  · exact memcpy_above memory target offset bytes (by omega)

theorem readBytes_memmove (memory : Memory) (target source count prefixLength : Nat)
    (within : prefixLength ≤ count) :
    readBytes (memmove memory target source count) target prefixLength =
      readBytes memory source prefixLength := by
  apply List.ext_getElem?
  intro step
  by_cases inside : step < prefixLength
  · rw [readBytes_apply _ _ _ _ inside, readBytes_apply _ _ _ _ inside,
      memmove_inside _ _ _ _ _ (by omega)]
  · rw [List.getElem?_eq_none (by rw [readBytes_length]; omega),
      List.getElem?_eq_none (by rw [readBytes_length]; omega)]

/-- Replacing a block by one of another length: the tail is moved, the string
end is marked, and the new block is copied in. -/
def splice (memory : Memory) (position oldLength tailLength : Nat) (bytes : List Byte)
    (terminator : Byte) : Memory :=
  memcpy
    (store
      (memmove memory (position + bytes.length) (position + oldLength) tailLength)
      (position + bytes.length + tailLength) terminator)
    position bytes

theorem splice_below (memory : Memory) (position oldLength tailLength : Nat)
    (bytes : List Byte) (terminator : Byte) (offset : Nat) (below : offset < position) :
    splice memory position oldLength tailLength bytes terminator offset = memory offset := by
  unfold splice
  rw [memcpy_below _ _ _ _ below, store_other _ _ _ _ (by omega),
    memmove_below _ _ _ _ _ (by omega)]

theorem readBytes_splice_below (memory : Memory) (position oldLength tailLength : Nat)
    (bytes : List Byte) (terminator : Byte) (address count : Nat)
    (below : address + count ≤ position) :
    readBytes (splice memory position oldLength tailLength bytes terminator) address count =
      readBytes memory address count := by
  apply readBytes_congr
  intro offset _lower upper
  exact splice_below _ _ _ _ _ _ _ (by omega)

theorem readBytes_splice (memory : Memory) (position oldLength tailLength : Nat)
    (bytes : List Byte) (terminator : Byte) :
    readBytes (splice memory position oldLength tailLength bytes terminator) position
        (bytes.length + tailLength) =
      bytes ++ readBytes memory (position + oldLength) tailLength := by
  unfold splice
  rw [readBytes_add, readBytes_memcpy,
    readBytes_memcpy_outside _ _ _ _ _ (Or.inr (Nat.le_refl _)),
    readBytes_store_outside _ _ _ _ _ (Or.inr (Nat.le_refl _)),
    readBytes_memmove _ _ _ _ _ (Nat.le_refl _)]

theorem splice_terminator (memory : Memory) (position oldLength tailLength : Nat)
    (bytes : List Byte) (terminator : Byte) :
    splice memory position oldLength tailLength bytes terminator
      (position + bytes.length + tailLength) = terminator := by
  unfold splice
  rw [memcpy_above _ _ _ _ (by omega), store_same]

/-! ### Memories with another front -/

/-- The memory with its first `bound` bytes taken from `front`.  An edit behind
the front commutes with it, and so leaves the front alone and does not look at
it. -/
def withFront (bound : Nat) (front memory : Memory) : Memory :=
  fun offset => if offset < bound then front offset else memory offset

section Front

variable {bound : Nat} (front memory : Memory)

theorem withFront_inside {offset : Nat} (inside : offset < bound) :
    withFront bound front memory offset = front offset := if_pos inside

theorem withFront_behind {offset : Nat} (behind : bound ≤ offset) :
    withFront bound front memory offset = memory offset := if_neg (Nat.not_lt.mpr behind)

theorem withFront_self : withFront bound memory memory = memory := by
  funext offset
  exact ite_self _

theorem store_withFront {address : Nat} (behind : bound ≤ address) (byte : Byte) :
    store (withFront bound front memory) address byte =
      withFront bound front (store memory address byte) := by
  funext offset
  by_cases inside : offset < bound
  · rw [store_other _ _ _ _ (by omega), withFront_inside _ _ inside, withFront_inside _ _ inside]
  · rw [withFront_behind _ _ (Nat.le_of_not_lt inside), store, store,
      withFront_behind _ _ (Nat.le_of_not_lt inside)]

theorem memcpy_withFront {target : Nat} (behind : bound ≤ target) (bytes : List Byte) :
    memcpy (withFront bound front memory) target bytes =
      withFront bound front (memcpy memory target bytes) := by
  funext offset
  by_cases inside : offset < bound
  · rw [memcpy_below _ _ _ _ (by omega), withFront_inside _ _ inside, withFront_inside _ _ inside]
  · rw [withFront_behind _ _ (Nat.le_of_not_lt inside), memcpy, memcpy,
      withFront_behind _ _ (Nat.le_of_not_lt inside)]

theorem memmove_withFront {target source : Nat} (behind : bound ≤ target)
    (sourceBehind : bound ≤ source) (count : Nat) :
    memmove (withFront bound front memory) target source count =
      withFront bound front (memmove memory target source count) := by
  funext offset
  by_cases inside : offset < bound
  · rw [memmove_below _ _ _ _ _ (by omega), withFront_inside _ _ inside,
      withFront_inside _ _ inside]
  · rw [withFront_behind _ _ (Nat.le_of_not_lt inside), memmove, memmove,
      withFront_behind _ _ (Nat.le_of_not_lt inside),
      withFront_behind _ _ (Nat.le_add_right_of_le sourceBehind)]

end Front

end PhpHll.ByteMemory
