/-
The sparse format.

`Opcode` is the grammar of the format: each constructor holds exactly the bit
fields of its encoding, so every opcode is well formed by construction.  The
access macros of the source read a byte memory; `opcodeAt` reads the opcode at
an offset, and the macros are its fields.  `opcodesFrom` is the sequence any
scan of a payload visits, including an XZERO whose second byte lies past the
end, which the scan reads all the same.
-/

import PhpHll.Layout
import PhpHll.Library.RunLength

namespace PhpHll

open ByteMemory

/-! ### Access macros -/

def hllSparseIsZero (memory : Memory) (p : Nat) : Bool := memory p &&& 0xc0#8 = 0#8

def hllSparseIsXzero (memory : Memory) (p : Nat) : Bool := memory p &&& 0xc0#8 = 0x40#8

def hllSparseIsVal (memory : Memory) (p : Nat) : Bool := memory p &&& 0x80#8 ≠ 0#8

def hllSparseZeroLen (memory : Memory) (p : Nat) : Nat := (memory p &&& 0x3f#8).toNat + 1

def hllSparseXzeroLen (memory : Memory) (p : Nat) : Nat :=
  ((memory p &&& 0x3f#8).toNat <<< 8 ||| (memory (p + 1)).toNat) + 1

def hllSparseValValue (memory : Memory) (p : Nat) : Nat :=
  ((memory p >>> 2) &&& 0x1f#8).toNat + 1

def hllSparseValLen (memory : Memory) (p : Nat) : Nat := (memory p &&& 0x3#8).toNat + 1

def hllSparseValMaxValue : Nat := 32

def hllSparseValMaxLen : Nat := 4

def hllSparseZeroMaxLen : Nat := 64

def hllSparseXzeroMaxLen : Nat := 16384

/-- The byte that `HLL_SPARSE_VAL_SET` stores: the low eight bits of an `int`. -/
def hllSparseValSet (val len : Int) : List Byte :=
  [(BitVec.ofInt 8 (val - 1) <<< 2 ||| BitVec.ofInt 8 (len - 1)) ||| 0x80#8]

def hllSparseZeroSet (len : Int) : List Byte := [BitVec.ofInt 8 (len - 1)]

def hllSparseXzeroSet (len : Int) : List Byte :=
  let l := len - 1
  [BitVec.ofInt 8 (l >>> (8 : Nat)) ||| 0x40#8, BitVec.ofInt 8 l]

/-! ### The grammar -/

/-- `00xxxxxx`, `01xxxxxx yyyyyyyy` and `1vvvvvxx`. -/
inductive Opcode
  | zero (count : BitVec 6)
  | xzero (high : BitVec 6) (low : BitVec 8)
  | val (value : BitVec 5) (count : BitVec 2)
  deriving DecidableEq

namespace Opcode

def encode : Opcode → List Byte
  | .zero count => [0#2 ++ count]
  | .xzero high low => [1#2 ++ high, low]
  | .val value count => [1#1 ++ value ++ count]

def length : Opcode → Nat
  | .zero count => count.toNat + 1
  | .xzero high low => high.toNat * 256 + low.toNat + 1
  | .val _ count => count.toNat + 1

def value : Opcode → Nat
  | .zero _ => 0
  | .xzero _ _ => 0
  | .val value _ => value.toNat + 1

def size : Opcode → Nat
  | .xzero _ _ => 2
  | _ => 1

def run (opcode : Opcode) : RunLength.Run Nat :=
  { length := opcode.length
    value := opcode.value }

theorem encode_length (opcode : Opcode) : opcode.encode.length = opcode.size := by
  cases opcode <;> rfl

theorem size_pos (opcode : Opcode) : 0 < opcode.size := by
  cases opcode <;> exact Nat.succ_pos _

theorem size_le (opcode : Opcode) : opcode.size ≤ 2 := by
  cases opcode <;> simp [Opcode.size]

theorem length_pos (opcode : Opcode) : 0 < opcode.length := by
  cases opcode <;> exact Nat.succ_pos _

theorem value_le (opcode : Opcode) : opcode.value ≤ 32 := by
  cases opcode with
  | zero count => exact Nat.zero_le _
  | xzero high low => exact Nat.zero_le _
  | val value count =>
      have bound := value.isLt
      simp only [Opcode.value]
      omega

end Opcode

def encodeAll (opcodes : List Opcode) : List Byte := opcodes.flatMap Opcode.encode

def sizeAll (opcodes : List Opcode) : Nat := (opcodes.map Opcode.size).sum

def lengthAll (opcodes : List Opcode) : Nat := RunLength.total (opcodes.map Opcode.run)

def expandAll (opcodes : List Opcode) : List Nat := RunLength.expand (opcodes.map Opcode.run)

/-- A payload is in the sparse format when it is a sequence of complete opcodes
that covers 16384 registers. -/
def SparseFormat (payload : List Byte) : Prop :=
  ∃ opcodes, encodeAll opcodes = payload ∧ lengthAll opcodes = 16384

@[simp] theorem encodeAll_nil : encodeAll [] = [] := rfl

@[simp] theorem encodeAll_cons (opcode : Opcode) (opcodes : List Opcode) :
    encodeAll (opcode :: opcodes) = opcode.encode ++ encodeAll opcodes := by
  simp [encodeAll]

@[simp] theorem encodeAll_append (first second : List Opcode) :
    encodeAll (first ++ second) = encodeAll first ++ encodeAll second := by
  simp [encodeAll]

@[simp] theorem sizeAll_nil : sizeAll [] = 0 := rfl

@[simp] theorem sizeAll_cons (opcode : Opcode) (opcodes : List Opcode) :
    sizeAll (opcode :: opcodes) = opcode.size + sizeAll opcodes := by
  simp [sizeAll]

@[simp] theorem sizeAll_append (first second : List Opcode) :
    sizeAll (first ++ second) = sizeAll first + sizeAll second := by
  simp [sizeAll]

@[simp] theorem lengthAll_nil : lengthAll [] = 0 := rfl

@[simp] theorem lengthAll_cons (opcode : Opcode) (opcodes : List Opcode) :
    lengthAll (opcode :: opcodes) = opcode.length + lengthAll opcodes := by
  simp [lengthAll, Opcode.run]

@[simp] theorem lengthAll_append (first second : List Opcode) :
    lengthAll (first ++ second) = lengthAll first + lengthAll second := by
  simp [lengthAll, RunLength.total]

theorem expandAll_length (opcodes : List Opcode) :
    (expandAll opcodes).length = lengthAll opcodes := RunLength.expand_length _

theorem encodeAll_length (opcodes : List Opcode) :
    (encodeAll opcodes).length = sizeAll opcodes := by
  induction opcodes with
  | nil => rfl
  | cons opcode opcodes ih =>
      rw [encodeAll_cons, sizeAll_cons, List.length_append, opcode.encode_length, ih]

/-! ### Reading one opcode -/

def opcodeAt (memory : Memory) (p : Nat) : Opcode :=
  if hllSparseIsZero memory p then .zero ((memory p).extractLsb' 0 6)
  else if hllSparseIsXzero memory p then .xzero ((memory p).extractLsb' 0 6) (memory (p + 1))
  else .val ((memory p).extractLsb' 2 5) ((memory p).extractLsb' 0 2)

/-- What the macros say about one offset, by the kind of opcode found there. -/
inductive OpcodeView (memory : Memory) (p : Nat) : Prop
  | zero (count : BitVec 6)
      (isZero : hllSparseIsZero memory p = true)
      (notXzero : hllSparseIsXzero memory p = false)
      (notVal : hllSparseIsVal memory p = false)
      (read : opcodeAt memory p = .zero count)
      (len : hllSparseZeroLen memory p = (opcodeAt memory p).length)
      (bytes : memory p = 0#2 ++ count)
  | xzero (high : BitVec 6) (low : BitVec 8)
      (notZero : hllSparseIsZero memory p = false)
      (isXzero : hllSparseIsXzero memory p = true)
      (notVal : hllSparseIsVal memory p = false)
      (read : opcodeAt memory p = .xzero high low)
      (len : hllSparseXzeroLen memory p = (opcodeAt memory p).length)
      (bytes : memory p = 1#2 ++ high ∧ memory (p + 1) = low)
  | val (value : BitVec 5) (count : BitVec 2)
      (notZero : hllSparseIsZero memory p = false)
      (notXzero : hllSparseIsXzero memory p = false)
      (isVal : hllSparseIsVal memory p = true)
      (read : opcodeAt memory p = .val value count)
      (len : hllSparseValLen memory p = (opcodeAt memory p).length)
      (val : hllSparseValValue memory p = (opcodeAt memory p).value)
      (bytes : memory p = 1#1 ++ value ++ count)

private theorem zero_byte : ∀ byte : Byte, byte &&& 0xc0#8 = 0#8 →
    ¬byte &&& 0xc0#8 = 0x40#8 ∧ byte &&& 0x80#8 = 0#8 ∧
      byte &&& 0x3f#8 = (byte.extractLsb' 0 6).setWidth 8 ∧
      byte = 0#2 ++ byte.extractLsb' 0 6 := by decide

private theorem xzero_byte : ∀ byte : Byte, byte &&& 0xc0#8 = 0x40#8 →
    ¬byte &&& 0xc0#8 = 0#8 ∧ byte &&& 0x80#8 = 0#8 ∧
      byte &&& 0x3f#8 = (byte.extractLsb' 0 6).setWidth 8 ∧
      byte = 1#2 ++ byte.extractLsb' 0 6 := by decide

private theorem val_byte : ∀ byte : Byte, ¬byte &&& 0xc0#8 = 0#8 → ¬byte &&& 0xc0#8 = 0x40#8 →
    ¬byte &&& 0x80#8 = 0#8 ∧
      byte &&& 0x3#8 = (byte.extractLsb' 0 2).setWidth 8 ∧
      (byte >>> 2) &&& 0x1f#8 = (byte.extractLsb' 2 5).setWidth 8 ∧
      byte = 1#1 ++ byte.extractLsb' 2 5 ++ byte.extractLsb' 0 2 := by decide

private theorem toNat_setWidth_8 {width : Nat} (field : BitVec width) (narrow : width ≤ 8) :
    (field.setWidth 8).toNat = field.toNat := by
  rw [BitVec.toNat_setWidth, Nat.mod_eq_of_lt]
  exact Nat.lt_of_lt_of_le field.isLt (Nat.pow_le_pow_right (by decide) narrow)

private theorem or_low_byte (high : BitVec 6) (low : BitVec 8) :
    high.toNat <<< 8 ||| low.toNat = high.toNat * 256 + low.toNat := by
  rw [← Nat.shiftLeft_add_eq_or_of_lt low.isLt, Nat.shiftLeft_eq]

theorem opcodeView (memory : Memory) (p : Nat) : OpcodeView memory p := by
  by_cases zeroTag : memory p &&& 0xc0#8 = 0#8
  · obtain ⟨xzeroTag, valTag, field, bytes⟩ := zero_byte _ zeroTag
    have isZero : hllSparseIsZero memory p = true := decide_eq_true zeroTag
    have read : opcodeAt memory p = .zero ((memory p).extractLsb' 0 6) := by
      rw [opcodeAt, if_pos isZero]
    refine .zero _ isZero (decide_eq_false xzeroTag) ?_ read ?_ bytes
    · simp only [hllSparseIsVal, valTag, ne_eq, not_true_eq_false, decide_false]
    · rw [read, hllSparseZeroLen, field, toNat_setWidth_8 _ (by decide)]
      rfl
  · have notZero : hllSparseIsZero memory p = false := decide_eq_false zeroTag
    have notZero' : ¬hllSparseIsZero memory p = true := by rw [notZero]; exact Bool.false_ne_true
    by_cases xzeroTag : memory p &&& 0xc0#8 = 0x40#8
    · obtain ⟨_notZero, valTag, field, bytes⟩ := xzero_byte _ xzeroTag
      have isXzero : hllSparseIsXzero memory p = true := decide_eq_true xzeroTag
      have read : opcodeAt memory p =
          .xzero ((memory p).extractLsb' 0 6) (memory (p + 1)) := by
        rw [opcodeAt, if_neg notZero', if_pos isXzero]
      refine .xzero _ _ notZero isXzero ?_ read ?_ ⟨bytes, rfl⟩
      · simp only [hllSparseIsVal, valTag, ne_eq, not_true_eq_false, decide_false]
      · rw [read, hllSparseXzeroLen, field, toNat_setWidth_8 _ (by decide), or_low_byte]
        rfl
    · obtain ⟨valTag, count, value, bytes⟩ := val_byte _ zeroTag xzeroTag
      have notXzero : hllSparseIsXzero memory p = false := decide_eq_false xzeroTag
      have notXzero' : ¬hllSparseIsXzero memory p = true := by
        rw [notXzero]; exact Bool.false_ne_true
      have read : opcodeAt memory p =
          .val ((memory p).extractLsb' 2 5) ((memory p).extractLsb' 0 2) := by
        rw [opcodeAt, if_neg notZero', if_neg notXzero']
      refine .val _ _ notZero notXzero ?_ read ?_ ?_ bytes
      · simp only [hllSparseIsVal, ne_eq, valTag, not_false_eq_true, decide_true]
      · rw [read, hllSparseValLen, count, toNat_setWidth_8 _ (by decide)]
        rfl
      · rw [read, hllSparseValValue, value, toNat_setWidth_8 _ (by decide)]
        rfl

theorem encode_opcodeAt (memory : Memory) (p : Nat) :
    (opcodeAt memory p).encode = readBytes memory p (opcodeAt memory p).size := by
  cases opcodeView memory p with
  | zero count _ _ _ read _ bytes =>
      rw [read, Opcode.encode, Opcode.size, readBytes_succ, readBytes_zero, bytes]
      intro _ _ impossible
      cases impossible
  | xzero high low _ _ _ read _ bytes =>
      rw [read, Opcode.encode, Opcode.size, readBytes_succ, readBytes_succ, readBytes_zero,
        bytes.1, bytes.2]
  | val value count _ _ _ read _ _ bytes =>
      rw [read, Opcode.encode, Opcode.size, readBytes_succ, readBytes_zero, bytes]
      intro _ _ impossible
      cases impossible

theorem opcodeAt_size (memory : Memory) (p : Nat) :
    (opcodeAt memory p).size = if hllSparseIsXzero memory p then 2 else 1 := by
  cases opcodeView memory p with
  | zero count _ notXzero _ read _ _ =>
      rw [read, notXzero, if_neg Bool.false_ne_true]
      rfl
  | xzero high low _ isXzero _ read _ _ =>
      rw [read, isXzero, if_pos rfl]
      rfl
  | val value count _ notXzero _ read _ _ _ =>
      rw [read, notXzero, if_neg Bool.false_ne_true]
      rfl

private theorem zero_fields : ∀ count : BitVec 6, (0#2 ++ count) &&& 0xc0#8 = 0#8 ∧
    (0#2 ++ count).extractLsb' 0 6 = count := by decide

private theorem xzero_fields : ∀ high : BitVec 6, ¬(1#2 ++ high) &&& 0xc0#8 = 0#8 ∧
    (1#2 ++ high) &&& 0xc0#8 = 0x40#8 ∧ (1#2 ++ high).extractLsb' 0 6 = high := by decide

private theorem val_fields : ∀ (value : BitVec 5) (count : BitVec 2),
    ¬(1#1 ++ value ++ count) &&& 0xc0#8 = 0#8 ∧
    ¬(1#1 ++ value ++ count) &&& 0xc0#8 = 0x40#8 ∧
    (1#1 ++ value ++ count).extractLsb' 2 5 = value ∧
    (1#1 ++ value ++ count).extractLsb' 0 2 = count := by decide

theorem opcodeAt_of_encode (memory : Memory) (p : Nat) (opcode : Opcode)
    (here : readBytes memory p opcode.size = opcode.encode) : opcodeAt memory p = opcode := by
  cases opcode with
  | zero count =>
      have first : memory p = 0#2 ++ count := List.head_eq_of_cons_eq here
      obtain ⟨tag, field⟩ := zero_fields count
      rw [opcodeAt, hllSparseIsZero, first, if_pos (decide_eq_true tag), field]
  | xzero high low =>
      have first : memory p = 1#2 ++ high := List.head_eq_of_cons_eq here
      have second : memory (p + 1) = low :=
        List.head_eq_of_cons_eq (List.tail_eq_of_cons_eq here)
      obtain ⟨notZero, tag, field⟩ := xzero_fields high
      rw [opcodeAt, hllSparseIsZero, hllSparseIsXzero, first, second,
        if_neg (ne_true_of_eq_false (decide_eq_false notZero)), if_pos (decide_eq_true tag), field]
  | val value count =>
      have first : memory p = 1#1 ++ value ++ count := List.head_eq_of_cons_eq here
      obtain ⟨notZero, notXzero, valueField, countField⟩ := val_fields value count
      rw [opcodeAt, hllSparseIsZero, hllSparseIsXzero, first,
        if_neg (ne_true_of_eq_false (decide_eq_false notZero)),
        if_neg (ne_true_of_eq_false (decide_eq_false notXzero)), valueField, countField]

/-! ### Scanning a payload -/

/-- The opcodes visited by a scan from `p` while `p < end`. -/
def opcodesFrom (memory : Memory) (p finish : Nat) : List Opcode :=
  if p < finish then
    opcodeAt memory p :: opcodesFrom memory (p + (opcodeAt memory p).size) finish
  else []
termination_by finish - p
decreasing_by
  have moved := (opcodeAt memory p).size_pos
  omega

theorem opcodesFrom_done (memory : Memory) (p finish : Nat) (done : finish ≤ p) :
    opcodesFrom memory p finish = [] := by
  rw [opcodesFrom, if_neg (by omega)]

theorem opcodesFrom_step (memory : Memory) (p finish : Nat) (more : p < finish) :
    opcodesFrom memory p finish =
      opcodeAt memory p :: opcodesFrom memory (p + (opcodeAt memory p).size) finish := by
  rw [opcodesFrom, if_pos more]

/-- A scan stops at the end, or one byte past it after an XZERO whose second
byte is missing. -/
theorem opcodesFrom_stop (memory : Memory) (p finish : Nat) (start : p ≤ finish) :
    p + sizeAll (opcodesFrom memory p finish) = finish ∨
      p + sizeAll (opcodesFrom memory p finish) = finish + 1 := by
  fun_induction opcodesFrom memory p finish with
  | case1 p more ih =>
      have short := (opcodeAt memory p).size_le
      rw [sizeAll_cons]
      by_cases past : p + (opcodeAt memory p).size ≤ finish
      · have stopped := ih past
        omega
      · rw [opcodesFrom_done _ _ _ (by omega), sizeAll_nil]
        omega
  | case2 p done =>
      rw [sizeAll_nil]
      omega

theorem opcodesFrom_of_encode (memory : Memory) (p : Nat) (opcodes : List Opcode)
    (here : readBytes memory p (sizeAll opcodes) = encodeAll opcodes) :
    opcodesFrom memory p (p + sizeAll opcodes) = opcodes := by
  induction opcodes generalizing p with
  | nil => exact opcodesFrom_done memory p _ (by simp)
  | cons opcode opcodes ih =>
      rw [sizeAll_cons, readBytes_add, encodeAll_cons] at here
      obtain ⟨first, rest⟩ := List.append_inj here
        (by rw [readBytes_length, opcode.encode_length])
      have read := opcodeAt_of_encode memory p opcode first
      have moved := opcode.size_pos
      rw [sizeAll_cons, opcodesFrom_step _ _ _ (by omega), read, ← Nat.add_assoc, ih _ rest]

theorem encodeAll_opcodesFrom (memory : Memory) (p finish : Nat) :
    encodeAll (opcodesFrom memory p finish) =
      readBytes memory p (sizeAll (opcodesFrom memory p finish)) := by
  fun_induction opcodesFrom memory p finish with
  | case1 p more ih => rw [encodeAll_cons, sizeAll_cons, readBytes_add, ih, encode_opcodeAt]
  | case2 p done => rfl

/-- The format, in terms of a scan: it stops exactly at the end and covers
16384 registers. -/
theorem sparseFormat_iff (memory : Memory) (p count : Nat) :
    SparseFormat (readBytes memory p count) ↔
      sizeAll (opcodesFrom memory p (p + count)) = count ∧
        lengthAll (opcodesFrom memory p (p + count)) = 16384 := by
  constructor
  · rintro ⟨opcodes, encoded, covered⟩
    have sized : sizeAll opcodes = count := by
      rw [← encodeAll_length, encoded, readBytes_length]
    subst sized
    rw [opcodesFrom_of_encode memory p opcodes encoded.symm]
    exact ⟨rfl, covered⟩
  · rintro ⟨sized, covered⟩
    refine ⟨opcodesFrom memory p (p + count), ?_, covered⟩
    rw [encodeAll_opcodesFrom, sized]

instance (memory : Memory) (p count : Nat) : Decidable (SparseFormat (readBytes memory p count)) :=
  decidable_of_iff _ (sparseFormat_iff memory p count).symm

end PhpHll
