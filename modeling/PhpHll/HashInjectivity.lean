/-
What the hash keeps of a key.

Every step of `MurmurHash64A` is a bijection of its 64-bit state: the mixing of
a block, the block xor-ed in, the multiplication, the tail and the final mix.
Two keys of one length that differ inside one aligned block, or only in the
bytes behind the last block, therefore have different hashes, whatever the seed
and however many blocks follow.
-/

import PhpHll.Hash
import PhpHll.Library.BitMixing

namespace PhpHll

open ByteMemory BitMixing

/-! ### The steps -/

theorem murmurMul_injective : Function.Injective fun word : BitVec 64 => word * murmurM :=
  mul_injective murmurM 0x5f7a0ea7e59b19bd#64 (by decide)

theorem murmurShift_injective :
    Function.Injective fun word : BitVec 64 => word ^^^ word >>> murmurR :=
  xorShift_injective murmurR (by decide)

/-- What a turn of the loop does to the eight bytes before they meet the state. -/
def murmurMixBlock (k : BitVec 64) : BitVec 64 :=
  let k := k * murmurM
  let k := k ^^^ k >>> murmurR
  k * murmurM

/-- The lines after the tail. -/
def murmurFinish (h : BitVec 64) : BitVec 64 :=
  let h := h ^^^ h >>> murmurR
  let h := h * murmurM
  h ^^^ h >>> murmurR

theorem murmurMixBlock_injective : Function.Injective murmurMixBlock :=
  murmurMul_injective.comp (murmurShift_injective.comp murmurMul_injective)

theorem murmurFinish_injective : Function.Injective murmurFinish :=
  murmurShift_injective.comp (murmurMul_injective.comp murmurShift_injective)

/-! ### The block loop -/

theorem murmurHash64ABlocks_block (h : BitVec 64) (block data : List Byte)
    (size : block.length = 8) :
    murmurHash64ABlocks h (block ++ data) =
      murmurHash64ABlocks ((h ^^^ murmurMixBlock (pack 64 block)) * murmurM) data := by
  obtain ⟨d0, d1, d2, d3, d4, d5, d6, d7, rfl⟩ :
      ∃ d0 d1 d2 d3 d4 d5 d6 d7, block = [d0, d1, d2, d3, d4, d5, d6, d7] := by
    match block, size with
    | [d0, d1, d2, d3, d4, d5, d6, d7], _ => exact ⟨d0, d1, d2, d3, d4, d5, d6, d7, rfl⟩
  have word : pack 64 [d0, d1, d2, d3, d4, d5, d6, d7] =
      d0.setWidth 64 ||| d1.setWidth 64 <<< 8 ||| d2.setWidth 64 <<< 16 |||
        d3.setWidth 64 <<< 24 ||| d4.setWidth 64 <<< 32 ||| d5.setWidth 64 <<< 40 |||
        d6.setWidth 64 <<< 48 ||| d7.setWidth 64 <<< 56 := by
    simp [pack, BitVec.shiftLeft_or_distrib, ← BitVec.shiftLeft_add, BitVec.or_assoc]
  rw [word]
  rfl

theorem murmurHash64ABlocks_short (h : BitVec 64) (data : List Byte) (short : data.length < 8) :
    murmurHash64ABlocks h data = (h, data) := by
  fun_cases murmurHash64ABlocks h data with
  | case1 =>
      simp only [List.length_cons] at short
      omega
  | case2 => rfl

/-! ### The tail -/

private theorem foldr_zipIdx_pack (h : BitVec 64) (data : List Byte) (start : Nat) :
    (data.zipIdx start).foldr
        (fun (entry : Byte × Nat) hash => hash ^^^ entry.1.setWidth 64 <<< (8 * entry.2)) h =
      h ^^^ pack 64 data <<< (8 * start) := by
  induction data generalizing start with
  | nil => simp [pack]
  | cons byte data ih =>
      have later : 8 * (start + 1) = 8 + 8 * start := by omega
      rw [List.zipIdx_cons, List.foldr_cons, ih, pack_cons_xor, BitVec.shiftLeft_xor_distrib,
        later, BitVec.shiftLeft_add, BitVec.xor_assoc, BitVec.xor_comm (byte.setWidth 64 <<< _)]

theorem murmurHash64ATail_eq (h : BitVec 64) (data : List Byte) :
    murmurHash64ATail h data = if data = [] then h else (h ^^^ pack 64 data) * murmurM := by
  have folded := foldr_zipIdx_pack h data 0
  rw [Nat.mul_zero, BitVec.shiftLeft_zero] at folded
  unfold murmurHash64ATail
  simp only [folded]

theorem murmurHash64ATail_state_injective (data : List Byte) :
    Function.Injective fun h => murmurHash64ATail h data := by
  intro left right same
  simp only [murmurHash64ATail_eq] at same
  split at same
  · exact same
  · exact (BitVec.xor_left_inj _).mp (murmurMul_injective same)

theorem murmurHash64ATail_injective (h : BitVec 64) {left right : List Byte}
    (sameLength : left.length = right.length) (short : left.length < 8)
    (same : murmurHash64ATail h left = murmurHash64ATail h right) : left = right := by
  rw [murmurHash64ATail_eq, murmurHash64ATail_eq] at same
  by_cases empty : left = []
  · subst empty
    exact (List.length_eq_zero_iff.mp sameLength.symm).symm
  · have notEmpty : right ≠ [] := by
      intro isNil
      rw [isNil] at sameLength
      exact empty (List.length_eq_zero_iff.mp sameLength)
    rw [if_neg empty, if_neg notEmpty] at same
    have packed := (BitVec.xor_right_inj _).mp (murmurMul_injective same)
    exact pack_injective sameLength (by omega) packed

/-! ### The whole key -/

/-- The part of `MurmurHash64A` that reads the key. -/
def murmurAbsorb (h : BitVec 64) (key : List Byte) : BitVec 64 :=
  let (h, data) := murmurHash64ABlocks h key
  murmurHash64ATail h data

theorem murmurHash64A_eq (key : List Byte) (seed : BitVec 32) :
    murmurHash64A key seed =
      murmurFinish (murmurAbsorb (seed.setWidth 64 ^^^ BitVec.ofNat 64 key.length * murmurM) key) :=
  rfl

theorem murmurAbsorb_short (h : BitVec 64) (data : List Byte) (short : data.length < 8) :
    murmurAbsorb h data = murmurHash64ATail h data := by
  unfold murmurAbsorb
  rw [murmurHash64ABlocks_short h data short]

theorem murmurAbsorb_block (h : BitVec 64) (block data : List Byte) (size : block.length = 8) :
    murmurAbsorb h (block ++ data) =
      murmurAbsorb ((h ^^^ murmurMixBlock (pack 64 block)) * murmurM) data := by
  unfold murmurAbsorb
  rw [murmurHash64ABlocks_block h block data size]

private theorem exists_block (data : List Byte) (long : 8 ≤ data.length) :
    ∃ block rest, block.length = 8 ∧ rest.length = data.length - 8 ∧ data = block ++ rest := by
  have size : (data.take 8).length = 8 := by
    rw [List.length_take]
    omega
  exact ⟨data.take 8, data.drop 8, size, List.length_drop, (List.take_append_drop 8 data).symm⟩

/-- Different states stay different over any number of blocks and any tail. -/
theorem murmurAbsorb_state_injective (data : List Byte) :
    Function.Injective fun h => murmurAbsorb h data := by
  induction size : data.length using Nat.strong_induction_on generalizing data with
  | _ length ih =>
      intro left right same
      simp only at same
      rcases Nat.lt_or_ge data.length 8 with short | long
      · rw [murmurAbsorb_short left data short, murmurAbsorb_short right data short] at same
        exact murmurHash64ATail_state_injective data same
      · obtain ⟨block, rest, blockSize, restSize, rfl⟩ := exists_block data long
        rw [murmurAbsorb_block left block rest blockSize,
          murmurAbsorb_block right block rest blockSize] at same
        have mixed := ih rest.length (by omega) rest rfl same
        exact (BitVec.xor_left_inj _).mp (murmurMul_injective mixed)

/-- Whole blocks in front come to one state, the same for both keys. -/
theorem murmurAbsorb_front (h : BitVec 64) (front : List Byte) (blocks : Nat)
    (aligned : front.length = 8 * blocks) :
    ∃ state, ∀ data, murmurAbsorb h (front ++ data) = murmurAbsorb state data := by
  induction blocks generalizing h front with
  | zero =>
      have empty : front = [] := List.length_eq_zero_iff.mp aligned
      exact ⟨h, fun data => by rw [empty, List.nil_append]⟩
  | succ blocks ih =>
      obtain ⟨block, rest, blockSize, restSize, rfl⟩ := exists_block front (by omega)
      obtain ⟨state, reached⟩ :=
        ih ((h ^^^ murmurMixBlock (pack 64 block)) * murmurM) rest (by omega)
      have whole : ∀ data, murmurAbsorb h (block ++ rest ++ data) = murmurAbsorb state data := by
        intro data
        rw [List.append_assoc, murmurAbsorb_block h block _ blockSize]
        exact reached data
      exact ⟨state, whole⟩

/-- The keys agree at every position before `first` and from `last` on. -/
def SameOutside (first last : Nat) (left right : List Byte) : Prop :=
  ∀ position, position < first ∨ last ≤ position → left[position]? = right[position]?

private theorem SameOutside.take {first last : Nat} {left right : List Byte}
    (same : SameOutside first last left right) : left.take first = right.take first := by
  apply List.ext_getElem?
  intro position
  rw [List.getElem?_take, List.getElem?_take]
  by_cases before : position < first
  · rw [if_pos before, if_pos before]
    exact same position (Or.inl before)
  · rw [if_neg before, if_neg before]

private theorem SameOutside.drop {first last : Nat} {left right : List Byte}
    (same : SameOutside first last left right) : left.drop last = right.drop last := by
  apply List.ext_getElem?
  intro position
  rw [List.getElem?_drop, List.getElem?_drop]
  exact same (last + position) (Or.inr (Nat.le_add_right _ _))

private theorem split_at_block (data : List Byte) (first : Nat) :
    data = data.take first ++ ((data.drop first).take 8 ++ data.drop (first + 8)) := by
  rw [← List.drop_drop, List.take_append_drop, List.take_append_drop]

theorem murmurAbsorb_eq_of_block (h : BitVec 64) {left right : List Byte} (block : Nat)
    (sameLength : left.length = right.length) (inside : 8 * block + 8 ≤ left.length)
    (outside : SameOutside (8 * block) (8 * block + 8) left right)
    (same : murmurAbsorb h left = murmurAbsorb h right) : left = right := by
  have frontSize : (left.take (8 * block)).length = 8 * block := by
    rw [List.length_take]
    omega
  have leftSize : ((left.drop (8 * block)).take 8).length = 8 := by
    rw [List.length_take, List.length_drop]
    omega
  have rightSize : ((right.drop (8 * block)).take 8).length = 8 := by
    rw [List.length_take, List.length_drop]
    omega
  obtain ⟨state, reached⟩ := murmurAbsorb_front h (left.take (8 * block)) block frontSize
  rw [split_at_block left (8 * block), split_at_block right (8 * block), ← outside.take,
    ← outside.drop, reached, reached, murmurAbsorb_block state _ _ leftSize,
    murmurAbsorb_block state _ _ rightSize] at same
  have mixed := murmurMul_injective (murmurAbsorb_state_injective _ same)
  have words := murmurMixBlock_injective ((BitVec.xor_right_inj _).mp mixed)
  have blocks := pack_injective (leftSize.trans rightSize.symm) (by omega) words
  rw [split_at_block left (8 * block), split_at_block right (8 * block), outside.take,
    outside.drop, blocks]

theorem murmurAbsorb_eq_of_tail (h : BitVec 64) {left right : List Byte}
    (sameLength : left.length = right.length)
    (outside : SameOutside (8 * (left.length / 8)) left.length left right)
    (same : murmurAbsorb h left = murmurAbsorb h right) : left = right := by
  have frontSize : (left.take (8 * (left.length / 8))).length = 8 * (left.length / 8) := by
    rw [List.length_take]
    omega
  have leftShort : (left.drop (8 * (left.length / 8))).length < 8 := by
    rw [List.length_drop]
    omega
  have rightShort : (right.drop (8 * (left.length / 8))).length < 8 := by
    rw [List.length_drop]
    omega
  have tailLength : (left.drop (8 * (left.length / 8))).length =
      (right.drop (8 * (left.length / 8))).length := by
    rw [List.length_drop, List.length_drop, sameLength]
  obtain ⟨state, reached⟩ := murmurAbsorb_front h _ (left.length / 8) frontSize
  have leftSplit := List.take_append_drop (8 * (left.length / 8)) left
  have rightSplit := List.take_append_drop (8 * (left.length / 8)) right
  rw [← outside.take] at rightSplit
  have tails : murmurAbsorb state (left.drop (8 * (left.length / 8))) =
      murmurAbsorb state (right.drop (8 * (left.length / 8))) := by
    rw [← reached, ← reached, leftSplit, rightSplit]
    exact same
  rw [murmurAbsorb_short state _ leftShort, murmurAbsorb_short state _ rightShort] at tails
  rw [← leftSplit, ← rightSplit, murmurHash64ATail_injective state tailLength leftShort tails]

theorem murmurHash64A_eq_iff_absorb {left right : List Byte} (seed : BitVec 32)
    (sameLength : left.length = right.length) :
    murmurHash64A left seed = murmurHash64A right seed ↔
      murmurAbsorb (seed.setWidth 64 ^^^ BitVec.ofNat 64 left.length * murmurM) left =
        murmurAbsorb (seed.setWidth 64 ^^^ BitVec.ofNat 64 left.length * murmurM) right := by
  rw [murmurHash64A_eq, murmurHash64A_eq, ← sameLength]
  exact murmurFinish_injective.eq_iff

/-- Keys of one length that differ within one aligned block, or within the bytes
behind the last block, have different hashes; keys of up to eight bytes always
do. -/
theorem murmurHash64A_separates :
    (∀ (n : Nat) (seed : BitVec 32) (left right : List Byte), n < 2 ^ 31 →
      left.length = n → right.length = n → left ≠ right →
      ((∃ block, block < n / 8 ∧ SameOutside (8 * block) (8 * block + 8) left right) ∨
        SameOutside (8 * (n / 8)) n left right) →
      murmurHash64A left seed ≠ murmurHash64A right seed) ∧
    ∀ (n : Nat) (seed : BitVec 32) (left right : List Byte), n ≤ 8 →
      left.length = n → right.length = n →
      murmurHash64A left seed = murmurHash64A right seed → left = right := by
  constructor
  · intro n seed left right _short leftLength rightLength different within same
    subst leftLength
    rw [murmurHash64A_eq_iff_absorb seed rightLength.symm] at same
    apply different
    rcases within with ⟨block, inside, outside⟩ | outside
    · exact murmurAbsorb_eq_of_block _ block rightLength.symm (by omega) outside same
    · exact murmurAbsorb_eq_of_tail _ rightLength.symm outside same
  · intro n seed left right few leftLength rightLength same
    subst leftLength
    rw [murmurHash64A_eq_iff_absorb seed rightLength.symm] at same
    have beyond : ∀ position, left.length ≤ position → left[position]? = right[position]? := by
      intro position after
      rw [List.getElem?_eq_none after, List.getElem?_eq_none (by omega)]
    rcases Nat.lt_or_ge left.length 8 with short | full
    · apply murmurAbsorb_eq_of_tail _ rightLength.symm _ same
      intro position place
      exact beyond position (by omega)
    · apply murmurAbsorb_eq_of_block _ 0 rightLength.symm (by omega) _ same
      intro position place
      exact beyond position (by omega)

/-- A key of nine bytes whose first byte changes, and two keys of two bytes. -/
theorem murmurHash64A_separates_first :
    murmurHash64A (0#8 :: List.replicate 8 7#8) 5#32 ≠
        murmurHash64A (1#8 :: List.replicate 8 7#8) 5#32 ∧
      murmurHash64A [1#8, 2#8] 5#32 ≠ murmurHash64A [1#8, 3#8] 5#32 := by
  obtain ⟨blocks, short⟩ := murmurHash64A_separates
  have outside : SameOutside (8 * 0) (8 * 0 + 8) (0#8 :: List.replicate 8 7#8)
      (1#8 :: List.replicate 8 7#8) := by
    intro position place
    cases position with
    | zero => omega
    | succ position => rfl
  constructor
  · exact blocks 9 5#32 _ _ (by omega) rfl rfl (by decide) (Or.inl ⟨0, by omega, outside⟩)
  · intro same
    have equal := short 2 5#32 [1#8, 2#8] [1#8, 3#8] (by omega) rfl rfl same
    exact absurd equal (by decide)

end PhpHll
