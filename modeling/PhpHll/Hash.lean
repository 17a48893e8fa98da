/-
The element hash and the pattern length.

`murmurHash64A` is the 64-bit MurmurHash2 of the source, over the bytes of one
element.  `hllPatLen` splits the hash into the register index, its low fourteen
bits, and the length of the pattern 000..1 in the bits above them.
-/

import Mathlib.Data.BitVec
import Mathlib.Data.List.Basic
import PhpHll.Library.ByteMemory

namespace PhpHll

open ByteMemory

def hllP : Nat := 14

def hllRegisters : Nat := 1 <<< hllP

/-! ### MurmurHash2, 64 bit version -/

def murmurM : BitVec 64 := 0xc6a4a7935bd1e995#64

def murmurR : Nat := 47

/-- The block loop of `MurmurHash64A`: eight bytes a turn, least significant
byte first.  What is left, fewer than eight bytes, is returned with the hash. -/
def murmurHash64ABlocks (h : BitVec 64) : List Byte → BitVec 64 × List Byte
  | d0 :: d1 :: d2 :: d3 :: d4 :: d5 :: d6 :: d7 :: data =>
      let k :=
        d0.setWidth 64 ||| d1.setWidth 64 <<< 8 ||| d2.setWidth 64 <<< 16 |||
          d3.setWidth 64 <<< 24 ||| d4.setWidth 64 <<< 32 ||| d5.setWidth 64 <<< 40 |||
          d6.setWidth 64 <<< 48 ||| d7.setWidth 64 <<< 56
      let k := k * murmurM
      let k := k ^^^ k >>> murmurR
      let k := k * murmurM
      murmurHash64ABlocks ((h ^^^ k) * murmurM) data
  | data => (h, data)

/-- The `switch` on `len & 7`: it enters at the last byte and falls through to
the first, and multiplies once if there was any byte. -/
def murmurHash64ATail (h : BitVec 64) (data : List Byte) : BitVec 64 :=
  if data = [] then h
  else
    let step (entry : Byte × Nat) (hash : BitVec 64) : BitVec 64 :=
      hash ^^^ entry.1.setWidth 64 <<< (8 * entry.2)
    data.zipIdx.foldr step h * murmurM

/-- `len` is the `int` length of the element, so a key has fewer than `2 ^ 31`
bytes; the length of such a key and its `int` are the same number. -/
def murmurHash64A (key : List Byte) (seed : BitVec 32) : BitVec 64 :=
  let h := seed.setWidth 64 ^^^ BitVec.ofNat 64 key.length * murmurM
  let (h, data) := murmurHash64ABlocks h key
  let h := murmurHash64ATail h data
  let h := h ^^^ h >>> murmurR
  let h := h * murmurM
  h ^^^ h >>> murmurR

/-! ### Pattern length -/

/-- `while((hash & bit) == 0) { count++; bit <<= 1; }`, for at most the given
number of turns. -/
def hllPatLenLoop (hash : BitVec 64) : Nat → BitVec 64 → Nat → Nat
  | 0, _, count => count
  | turns + 1, bit, count =>
      if hash &&& bit = 0#64 then hllPatLenLoop hash turns (bit <<< 1) (count + 1) else count

structure Pattern where
  count : Nat
  index : Nat

/-- The count and, in place of the side effect on `regp`, the register index.
Bit 63 is set first to make sure that the loop terminates. -/
def hllPatLen (ele : List Byte) : Pattern :=
  let hash := murmurHash64A ele 0xadc83b19#32
  let index := (hash &&& BitVec.ofNat 64 (hllRegisters - 1)).toNat
  let hash := hash ||| 1#64 <<< 63
  { count := hllPatLenLoop hash 64 (BitVec.ofNat 64 hllRegisters) 1
    index := index }

theorem hllRegisters_eq : hllRegisters = 16384 := rfl

theorem hllPatLen_index_lt (ele : List Byte) : (hllPatLen ele).index < 16384 := by
  simp only [hllPatLen, BitVec.toNat_and]
  exact Nat.lt_of_le_of_lt Nat.and_le_right (by decide)

private theorem and_one_shift_eq_zero_iff (hash : BitVec 64) (position : Nat)
    (bound : position < 64) :
    hash &&& 1#64 <<< position = 0#64 ↔ hash.getLsbD position = false := by
  constructor
  · intro isZero
    have atBit := congrArg (fun word : BitVec 64 => word.getLsbD position) isZero
    simpa [bound] using atBit
  · intro clear
    apply BitVec.eq_of_getLsbD_eq
    intro other otherBound
    by_cases same : other = position
    · subst other
      simp [clear]
    · have apart : other < position ∨ other - position ≠ 0 := by omega
      rcases apart with before | after
      · simp [before]
      · simp [after]

/-- From a clear start the loop stops at the first set bit, which bit 63
guarantees, so the bound on its turns is never what ends it. -/
theorem hllPatLenLoop_spec (hash : BitVec 64) (top : hash.getLsbD 63 = true)
    (turns start count : Nat)
    (bound : start < 64) (enough : 64 ≤ start + turns) :
    ∃ stop, start ≤ stop ∧ stop < 64 ∧ hash.getLsbD stop = true ∧
      (∀ position, start ≤ position → position < stop → hash.getLsbD position = false) ∧
      hllPatLenLoop hash turns (1#64 <<< start) count = count + (stop - start) := by
  induction turns generalizing start count with
  | zero => omega
  | succ turns ih =>
      rw [hllPatLenLoop]
      cases here : hash.getLsbD start with
      | true =>
          have notZero : ¬hash &&& 1#64 <<< start = 0#64 := by
            rw [and_one_shift_eq_zero_iff hash start bound, here]
            simp
          refine ⟨start, Nat.le_refl _, bound, here, ?_, ?_⟩
          · intro position lower upper
            omega
          · rw [if_neg notZero]
            omega
      | false =>
          have below : start ≠ 63 := by
            intro same
            rw [same, top] at here
            cases here
          rw [if_pos ((and_one_shift_eq_zero_iff hash start bound).mpr here),
            ← BitVec.shiftLeft_add]
          obtain ⟨stop, lower, upper, set, clear, result⟩ :=
            ih (start + 1) (count + 1) (by omega) (by omega)
          refine ⟨stop, by omega, upper, set, ?_, ?_⟩
          · intro position positionLower positionUpper
            rcases Nat.eq_or_lt_of_le positionLower with same | later
            · rw [← same]
              exact here
            · exact clear position later positionUpper
          · rw [result]
            omega

theorem hllPatLen_count_bounds (ele : List Byte) :
    1 ≤ (hllPatLen ele).count ∧ (hllPatLen ele).count ≤ 50 := by
  let hash := murmurHash64A ele 0xadc83b19#32 ||| 1#64 <<< 63
  have top : hash.getLsbD 63 = true := by simp [hash]
  obtain ⟨stop, lower, upper, _set, _clear, result⟩ :=
    hllPatLenLoop_spec hash top 64 14 1 (by decide) (by decide)
  have counted : (hllPatLen ele).count = 1 + (stop - 14) := result
  omega

def registerOf (ele : List Byte) : Fin 16384 := ⟨(hllPatLen ele).index, hllPatLen_index_lt ele⟩

@[simp] theorem registerOf_val (ele : List Byte) :
    (registerOf ele : Nat) = (hllPatLen ele).index := rfl

end PhpHll
