/-
Strings made of numbers, and the order of strings.

`sdsfromlonglong` writes digits into a local buffer from its last byte on down
and copies what it has written.  Its text is the shortest one that reads as the
number.  `sdscmp` compares as `memcmp` does, and a string that continues another
one is the greater one.
-/

import PhpHll.SdsRepr
import PhpHll.Library.Numerals

namespace PhpHll

open ByteMemory Logged Allocation Numerals

/-! ### `sdsfromlonglong` -/

def digitByte (digit : Nat) : Byte := BitVec.ofNat 8 (0x30 + digit)

/-- The `do` loop: the digits from the last one on, down from `p`. -/
def sdsfromlonglongLoop (buf : Memory) (p : Int) (v : Nat) : Logged Touch (Memory × Int) := do
  emit (.write p)
  let buf := store buf p.toNat (digitByte (v % 10))
  if v / 10 ≠ 0 then sdsfromlonglongLoop buf (p - 1) (v / 10) else pure (buf, p - 1)
termination_by v
decreasing_by omega

def storeSign (value : BitVec 64) (buf : Memory) (p : Int) : Logged Touch (Memory × Int) :=
  if value.toInt < 0 then do
    emit (.write p)
    pure (store buf p.toNat (ascii '-'), p - 1)
  else pure (buf, p)

/-- The local buffer has 32 bytes and comes with whatever the stack has there.
The negation of the least value wraps around. -/
def sdsfromlonglong (env : Env) (stack : Memory) (value : BitVec 64) : Logged Touch Sds := do
  let v := if value.toInt < 0 then -value else value
  let (buf, p) ← sdsfromlonglongLoop stack 31 v.toNat
  let (buf, p) ← storeSign value buf p
  let p := p + 1
  emitAll (reads p (32 - p).toNat)
  pure (sdsnewlen env (readBytes buf p.toNat (32 - p).toNat))

/-! ### Reading numbers -/

def digitOf (byte : Byte) : Option Nat :=
  if 0x30#8 ≤ byte ∧ byte ≤ 0x39#8 then some (byte.toNat - 0x30) else none

def readNatural (text : List Byte) : Option Nat :=
  if text = [] then none else (text.mapM digitOf).map (valueOf 10)

/-- Digits, with a minus sign in front or none. -/
def readInteger : List Byte → Option Int
  | [] => none
  | byte :: text =>
      if byte = ascii '-' then (readNatural text).map fun n : Nat => -(n : Int)
      else (readNatural (byte :: text)).map fun n : Nat => (n : Int)

theorem digitOf_digitByte {digit : Nat} (below : digit < 10) :
    digitOf (digitByte digit) = some digit := by
  interval_cases digit <;> rfl

theorem digitOf_eq_some {byte : Byte} {digit : Nat} (read : digitOf byte = some digit) :
    digit < 10 ∧ byte = digitByte digit := by
  unfold digitOf at read
  split at read
  · rename_i inside
    rw [BitVec.le_def, BitVec.le_def] at inside
    have lower : 0x30 ≤ byte.toNat := inside.1
    have upper : byte.toNat ≤ 0x39 := inside.2
    cases read
    refine ⟨by omega, BitVec.eq_of_toNat_eq ?_⟩
    rw [digitByte, BitVec.toNat_ofNat]
    omega
  · cases read

theorem mapM_digitOf {digits : List Nat} (below : ∀ digit ∈ digits, digit < 10) :
    (digits.map digitByte).mapM digitOf = some digits := by
  induction digits with
  | nil => rfl
  | cons digit digits ih =>
      rw [List.forall_mem_cons] at below
      rw [List.map_cons, List.mapM_cons, digitOf_digitByte below.1, ih below.2]
      rfl

theorem mapM_digitOf_eq_some {text : List Byte} {digits : List Nat}
    (read : text.mapM digitOf = some digits) :
    (∀ digit ∈ digits, digit < 10) ∧ text = digits.map digitByte := by
  induction text generalizing digits with
  | nil =>
      cases read
      exact ⟨fun _ member => absurd member List.not_mem_nil, rfl⟩
  | cons byte text ih =>
      rw [List.mapM_cons] at read
      cases first : digitOf byte with
      | none =>
          rw [first] at read
          cases read
      | some digit =>
          cases rest : text.mapM digitOf with
          | none =>
              rw [first, rest] at read
              cases read
          | some others =>
              rw [first, rest] at read
              cases read
              obtain ⟨below, same⟩ := digitOf_eq_some first
              obtain ⟨belowOthers, sameText⟩ := ih rest
              refine ⟨List.forall_mem_cons.mpr ⟨below, belowOthers⟩, ?_⟩
              rw [List.map_cons, ← same, ← sameText]

def naturalText (n : Nat) : List Byte := (numeral 10 n).map digitByte

theorem naturalText_ne_nil (n : Nat) : naturalText n ≠ [] :=
  mt List.map_eq_nil_iff.mp (numeral_ne_nil 10 n)

theorem readNatural_text (n : Nat) : readNatural (naturalText n) = some n := by
  rw [readNatural, if_neg (naturalText_ne_nil n), naturalText,
    mapM_digitOf (numeral_below (by decide) n), Option.map_some, valueOf_numeral]

theorem naturalText_shortest {text : List Byte} {n : Nat} (read : readNatural text = some n) :
    text = naturalText n ∨ (naturalText n).length < text.length := by
  unfold readNatural at read
  split at read
  · cases read
  · rename_i nonempty
    obtain ⟨digits, mapped, rfl⟩ := Option.map_eq_some_iff.mp read
    obtain ⟨below, rfl⟩ := mapM_digitOf_eq_some mapped
    have digitsNonempty : digits ≠ [] := fun nil => nonempty (by rw [nil, List.map_nil])
    rw [naturalText, List.length_map, List.length_map]
    rcases numeral_shortest (by decide) digitsNonempty below with same | shorter
    · exact Or.inl (congrArg (List.map digitByte) same)
    · exact Or.inr shorter

def integerText (value : Int) : List Byte :=
  if value < 0 then ascii '-' :: naturalText value.natAbs else naturalText value.natAbs

theorem digitByte_ne_minus {digit : Nat} (below : digit < 10) : digitByte digit ≠ ascii '-' := by
  interval_cases digit <;> decide

theorem readInteger_natural (n : Nat) : readInteger (naturalText n) = some (n : Int) := by
  have read := readNatural_text n
  cases text : naturalText n with
  | nil => exact absurd text (naturalText_ne_nil n)
  | cons byte rest =>
      have digit : byte ≠ ascii '-' := by
        have member : byte ∈ naturalText n := by rw [text]; exact List.mem_cons_self
        obtain ⟨value, listed, rfl⟩ := List.mem_map.mp member
        exact digitByte_ne_minus (numeral_below (by decide) n value listed)
      rw [text] at read
      rw [readInteger, if_neg digit, read, Option.map_some]

theorem readInteger_text (value : Int) : readInteger (integerText value) = some value := by
  by_cases negative : value < 0
  · rw [integerText, if_pos negative, readInteger, if_pos rfl, readNatural_text, Option.map_some]
    exact congrArg some (by omega)
  · rw [integerText, if_neg negative, readInteger_natural]
    exact congrArg some (by omega)

theorem integerText_shortest {text : List Byte} {value : Int}
    (read : readInteger text = some value) :
    text = integerText value ∨ (integerText value).length < text.length := by
  cases text with
  | nil => cases read
  | cons byte text =>
      rw [readInteger] at read
      split at read
      · rename_i minus
        obtain ⟨n, natural, rfl⟩ := Option.map_eq_some_iff.mp read
        have absolute : (-(n : Int)).natAbs = n := by omega
        rcases naturalText_shortest natural with same | shorter
        · by_cases negative : -(n : Int) < 0
          · rw [integerText, if_pos negative, absolute, minus, same]
            exact Or.inl rfl
          · rw [integerText, if_neg negative, absolute, ← same]
            exact Or.inr (Nat.lt_succ_self _)
        · by_cases negative : -(n : Int) < 0
          · rw [integerText, if_pos negative, absolute]
            exact Or.inr (Nat.succ_lt_succ shorter)
          · rw [integerText, if_neg negative, absolute]
            exact Or.inr (Nat.lt_succ_of_lt shorter)
      · obtain ⟨n, natural, rfl⟩ := Option.map_eq_some_iff.mp read
        have unsigned : ¬(n : Int) < 0 := by omega
        rw [integerText, if_neg unsigned, Int.natAbs_natCast]
        exact naturalText_shortest natural

/-! ### What is written -/

theorem naturalText_last {v : Nat} (last : v / 10 = 0) : naturalText v = [digitByte (v % 10)] := by
  have below : v < 10 := by omega
  rw [naturalText, numeral_last below, Nat.mod_eq_of_lt below]
  rfl

theorem naturalText_more {v : Nat} (more : v / 10 ≠ 0) :
    naturalText v = naturalText (v / 10) ++ [digitByte (v % 10)] := by
  rw [naturalText, numeral_more (by decide) more, List.map_append]
  rfl

private theorem readBytes_stored (buf : Memory) (p count : Nat) (byte : Byte) :
    readBytes (store buf p byte) p (count + 1) = byte :: readBytes buf (p + 1) count := by
  rw [readBytes_succ, store_same, readBytes_store_outside]
  exact Or.inl (Nat.lt_succ_self p)

/-- The induction follows the loop: the digits stand in front of what the buffer
held behind `p`. -/
theorem sdsfromlonglongLoop_spec (v : Nat) (buf : Memory) (p : Nat) (inside : p < 32)
    (room : (naturalText v).length ≤ p + 1) :
    ∃ after, (sdsfromlonglongLoop buf p v).value = (after, (p : Int) - (naturalText v).length) ∧
      (∀ count, readBytes after (p + 1 - (naturalText v).length)
        ((naturalText v).length + count) = naturalText v ++ readBytes buf (p + 1) count) ∧
      Stays 32 (sdsfromlonglongLoop buf p v) 32 := by
  induction v using Nat.strong_induction_on generalizing buf p with
  | _ v ih =>
      have written : Stays 32 (emit (Touch.write p)) 32 := stays_write ⟨by omega, by omega⟩
      rw [sdsfromlonglongLoop]
      by_cases more : v / 10 ≠ 0
      · have text := naturalText_more more
        have length := congrArg List.length text
        rw [List.length_append, List.length_singleton] at length
        have positive := List.length_pos_iff.mpr (naturalText_ne_nil (v / 10))
        have previous : (p : Int) - 1 = (p - 1 : Nat) := by omega
        obtain ⟨after, value, reads, stays⟩ := ih (v / 10) (by omega)
          (store buf p (digitByte (v % 10))) (p - 1) (by omega) (by omega)
        rw [if_pos more, previous, Int.toNat_natCast]
        refine ⟨after, ?_, fun count => ?_, written.bind stays⟩
        · exact value.trans (congrArg (Prod.mk after) (by omega))
        · have block := reads (count + 1)
          have back : p - 1 + 1 = p := by omega
          rw [back, readBytes_stored] at block
          have start : p + 1 - (naturalText v).length = p - (naturalText (v / 10)).length := by
            omega
          have size : (naturalText v).length + count =
              (naturalText (v / 10)).length + (count + 1) := by omega
          rw [start, size, block, text, List.append_assoc]
          rfl
      · have last : v / 10 = 0 := not_not.mp more
        have text := naturalText_last last
        have length : (naturalText v).length = 1 := by rw [text]; rfl
        rw [if_neg more, length, Int.toNat_natCast]
        refine ⟨store buf p (digitByte (v % 10)), rfl, fun count => ?_,
          written.bind (stays_pure 32 _)⟩
        rw [Nat.add_sub_cancel, Nat.add_comm 1 count, readBytes_stored, text]
        rfl

private theorem naturalText_fits (v : BitVec 64) : (naturalText v.toNat).length ≤ 20 := by
  rw [naturalText, List.length_map]
  exact numeral_length_le (by decide) (by decide) (Nat.lt_trans v.isLt (by decide))

private theorem magnitude (value : BitVec 64) :
    (if value.toInt < 0 then -value else value).toNat = value.toInt.natAbs := by
  have bound := value.isLt
  split
  · rename_i negative
    rw [BitVec.toInt_eq_toNat_cond] at negative ⊢
    rw [BitVec.toNat_neg]
    split at negative <;> omega
  · rename_i nonnegative
    rw [BitVec.toInt_eq_toNat_cond] at nonnegative ⊢
    split at nonnegative <;> omega

private theorem storeSign_spec (value : BitVec 64) (buf : Memory) (p : Nat)
    (fits : p + 1 + (naturalText value.toInt.natAbs).length = 32)
    (short : (naturalText value.toInt.natAbs).length ≤ 20)
    (digits : readBytes buf (p + 1) (naturalText value.toInt.natAbs).length =
      naturalText value.toInt.natAbs) :
    ∃ after, ∃ start : Nat, (storeSign value buf p).value = (after, (start : Int) - 1) ∧
      start + (integerText value.toInt).length = 32 ∧
      readBytes after start (integerText value.toInt).length = integerText value.toInt ∧
      Stays 32 (storeSign value buf p) 32 := by
  by_cases negative : value.toInt < 0
  · have text : integerText value.toInt = ascii '-' :: naturalText value.toInt.natAbs :=
      if_pos negative
    have length := congrArg List.length text
    rw [List.length_cons] at length
    rw [storeSign, if_pos negative, Int.toNat_natCast]
    refine ⟨store buf p (ascii '-'), p, rfl, by omega, ?_, ?_⟩
    · rw [length, readBytes_stored, digits, text]
    · exact (stays_write ⟨by omega, by omega⟩).bind (stays_pure 32 _)
  · have text : integerText value.toInt = naturalText value.toInt.natAbs := if_neg negative
    have shifted : (p : Int) = ((p + 1 : Nat) : Int) - 1 := by omega
    rw [storeSign, if_neg negative, text]
    exact ⟨buf, p + 1, congrArg (Prod.mk buf) shifted, fits, digits, stays_pure 32 _⟩

theorem sdsfromlonglong_text (env : Env) (stack : Memory) (value : BitVec 64) :
    (sdsfromlonglong env stack value).value.bytes = integerText value.toInt ∧
      Stays 32 (sdsfromlonglong env stack value) 32 := by
  have short := naturalText_fits (if value.toInt < 0 then -value else value)
  rw [magnitude] at short
  obtain ⟨buf, written, text, stays⟩ :=
    sdsfromlonglongLoop_spec value.toInt.natAbs stack 31 (by decide) (by omega)
  have digits := text 0
  rw [Nat.add_zero, readBytes_zero, List.append_nil] at digits
  have front : 31 + 1 - (naturalText value.toInt.natAbs).length =
      31 - (naturalText value.toInt.natAbs).length + 1 := by omega
  have position : ((31 : Nat) : Int) - (naturalText value.toInt.natAbs).length =
      (31 - (naturalText value.toInt.natAbs).length : Nat) := by omega
  rw [front] at digits
  rw [position] at written
  obtain ⟨after, start, signed, reaches, whole, staysSign⟩ :=
    storeSign_spec value buf (31 - (naturalText value.toInt.natAbs).length) (by omega) short digits
  have behind : (start : Int) - 1 + 1 = start := by omega
  have count : ((32 : Int) - start).toNat = (integerText value.toInt).length := by omega
  have run : sdsfromlonglong env stack value = (do
      let (buf, p) ← sdsfromlonglongLoop stack (31 : Nat) value.toInt.natAbs
      let (buf, p) ← storeSign value buf p
      let p := p + 1
      emitAll (reads p (32 - p).toNat)
      pure (sdsnewlen env (readBytes buf p.toNat (32 - p).toNat))) := by
    rw [← magnitude]
    rfl
  rw [run]
  constructor
  · simp only [value_bind, written, signed, behind, count, Int.toNat_natCast, whole, value_pure,
      sdsnewlen_bytes]
  · refine stays.bind ?_
    rw [written]
    refine staysSign.bind ?_
    rw [signed]
    simp only [behind, count]
    exact (stays_reads (by omega) (by omega)).bind (stays_pure 32 _)

/-- The text is the shortest one that reads as the number, and the only one of
its length; no digit and no sign is written or read outside the local buffer. -/
theorem sdsfromlonglong_decimal (env : Env) (stack : Memory) (value : BitVec 64) :
    Stays 32 (sdsfromlonglong env stack value) 32 ∧
      readInteger (sdsfromlonglong env stack value).value.bytes = some value.toInt ∧
      ∀ text, readInteger text = some value.toInt →
        text = (sdsfromlonglong env stack value).value.bytes ∨
          (sdsfromlonglong env stack value).value.bytes.length < text.length := by
  obtain ⟨bytes, stays⟩ := sdsfromlonglong_text env stack value
  rw [bytes]
  exact ⟨stays, readInteger_text value.toInt, fun text read => integerText_shortest read⟩

/-! ### `sdscmp` -/

/-- Of two blocks of one size, the difference of the first bytes that differ. -/
def memcmp : List Byte → List Byte → Int
  | byte :: rest, other :: others =>
      if byte = other then memcmp rest others else (byte.toNat : Int) - other.toNat
  | _, _ => 0

/-- `l1-l2` is a difference of `size_t` that is returned as an `int`. -/
def sdscmp (s1 s2 : Sds) : Int :=
  let l1 := s1.len
  let l2 := s2.len
  let minlen := if l1 < l2 then l1 else l2
  let cmp := memcmp (s1.bytes.take minlen) (s2.bytes.take minlen)
  if cmp = 0 then ((BitVec.ofNat 64 l1 - BitVec.ofNat 64 l2).setWidth 32).toInt else cmp

private theorem lengthDifference {l1 l2 : Nat} (small1 : l1 < 2 ^ 31) (small2 : l2 < 2 ^ 31) :
    ((BitVec.ofNat 64 l1 - BitVec.ofNat 64 l2).setWidth 32).toInt = (l1 : Int) - l2 := by
  rw [BitVec.toInt_eq_toNat_cond, BitVec.toNat_setWidth, BitVec.toNat_sub, BitVec.toNat_ofNat,
    BitVec.toNat_ofNat]
  split <;> omega

/-- What is compared, for lists: by recursion instead of by the shorter length. -/
def compareBytes : List Byte → List Byte → Int
  | byte :: rest, other :: others =>
      if byte = other then compareBytes rest others else (byte.toNat : Int) - other.toNat
  | left, right => (left.length : Int) - right.length

theorem compareBytes_eq (left right : List Byte) :
    (if memcmp (left.take (min left.length right.length))
        (right.take (min left.length right.length)) = 0 then (left.length : Int) - right.length
      else memcmp (left.take (min left.length right.length))
        (right.take (min left.length right.length))) = compareBytes left right := by
  induction left generalizing right with
  | nil => rfl
  | cons byte left ih =>
      cases right with
      | nil => rfl
      | cons other right =>
          rw [List.length_cons, List.length_cons, Nat.succ_min_succ, List.take_succ_cons,
            List.take_succ_cons, memcmp, compareBytes]
          by_cases same : byte = other
          · have lengths : ((left.length + 1 : Nat) : Int) - (right.length + 1 : Nat) =
                (left.length : Int) - right.length := by omega
            rw [if_pos same, if_pos same, lengths, ih]
          · have differ : (byte.toNat : Int) - other.toNat ≠ 0 := fun zero =>
              same (BitVec.eq_of_toNat_eq (by omega))
            rw [if_neg same, if_neg same, if_neg differ]

/-- The sign of the result is the lexicographic order. -/
theorem compareBytes_order (left right : List Byte) :
    (compareBytes left right < 0 ↔ left < right) ∧
      (compareBytes left right = 0 ↔ left = right) ∧
      (0 < compareBytes left right ↔ right < left) := by
  induction left generalizing right with
  | nil =>
      cases right with
      | nil => simp [compareBytes]
      | cons other right =>
          have shorter : compareBytes [] (other :: right) = -((right.length + 1 : Nat) : Int) :=
            Int.zero_sub _
          rw [shorter]
          exact ⟨iff_of_true (by omega) (List.nil_lt_cons other right),
            iff_of_false (by omega) (List.cons_ne_nil other right).symm,
            iff_of_false (by omega) (List.not_lt_nil _)⟩
  | cons byte left ih =>
      cases right with
      | nil =>
          have longer : compareBytes (byte :: left) [] = ((left.length + 1 : Nat) : Int) :=
            Int.sub_zero _
          rw [longer]
          exact ⟨iff_of_false (by omega) (List.not_lt_nil _),
            iff_of_false (by omega) (List.cons_ne_nil byte left),
            iff_of_true (by omega) (List.nil_lt_cons byte left)⟩
      | cons other right =>
          rw [compareBytes, List.cons_lt_cons_iff, List.cons_lt_cons_iff, List.cons.injEq]
          by_cases same : byte = other
          · obtain ⟨less, equal, greater⟩ := ih right
            subst same
            rw [if_pos rfl, less, equal, greater]
            simp
          · have differ : byte.toNat ≠ other.toNat := mt BitVec.eq_of_toNat_eq same
            rw [if_neg same, BitVec.lt_def, BitVec.lt_def]
            simp only [same, Ne.symm same, false_and, or_false, iff_false]
            omega

/-- Strings compare as lists of unsigned bytes: at the first byte that differs,
and by their length where one is the front of the other. -/
theorem sdscmp_lexicographic (s1 s2 : Sds) (small1 : s1.len < 2 ^ 31) (small2 : s2.len < 2 ^ 31) :
    (sdscmp s1 s2 < 0 ↔ s1.bytes < s2.bytes) ∧
      (sdscmp s1 s2 = 0 ↔ s1.bytes = s2.bytes) ∧
      (0 < sdscmp s1 s2 ↔ s2.bytes < s1.bytes) := by
  have shorter : (if s1.len < s2.len then s1.len else s2.len) =
      min s1.bytes.length s2.bytes.length := by
    rw [s1.bytes_length, s2.bytes_length]
    split <;> omega
  have compared : sdscmp s1 s2 = compareBytes s1.bytes s2.bytes := by
    rw [sdscmp, shorter, lengthDifference small1 small2, ← compareBytes_eq, s1.bytes_length,
      s2.bytes_length]
  rw [compared]
  exact compareBytes_order s1.bytes s2.bytes

theorem sdscmp_lexicographic_front :
    (sdsnewlen server [0x61#8]).bytes < (sdsnewlen server [0x61#8, 0x00#8]).bytes :=
  (sdscmp_lexicographic (sdsnewlen server [0x61#8]) (sdsnewlen server [0x61#8, 0x00#8]) (by decide)
    (by decide)).1.mp (by decide)

end PhpHll
