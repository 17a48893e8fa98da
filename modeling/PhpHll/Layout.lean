/-
The header of a HyperLogLog string.

Four magic bytes, the encoding, three unused bytes and the cached cardinality
in eight little-endian bytes, whose most significant bit marks it stale.  The
registers start at offset 16.
-/

import PhpHll.Hash
import PhpHll.Sds
import PhpHll.Library.PackedFields

namespace PhpHll

open ByteMemory

structure Robj where
  ptr : Sds

def cOk : Int := 0

def cErr : Int := -1

def hllBits : Nat := 6

def hllRegisterMax : BitVec 64 := 63#64

def hllHdrSize : Nat := 16

def hllDenseSize : Nat := hllHdrSize + (hllRegisters * hllBits + 7) / 8

def hllDense : Byte := 0

def hllSparse : Byte := 1

/-- `HLL_RAW`: only used internally, never exposed. -/
def hllRawEncoding : Byte := 255

def hllMaxEncoding : Byte := 1

/-! ### Header fields -/

def encoding (hdr : Memory) : Byte := hdr 4

def setEncoding (hdr : Memory) (encoding : Byte) : Memory := store hdr 4 encoding

def hllInvalidateCache (hdr : Memory) : Memory := store hdr 15 (hdr 15 ||| 1#8 <<< 7)

def hllValidCache (hdr : Memory) : Bool := hdr 15 &&& 1#8 <<< 7 = 0#8

/-- The bytes `card[0]` to `card[7]` put together by `pfCount`. -/
def readCard (hdr : Memory) : BitVec 64 :=
  (List.range 8).foldl (fun card k => card ||| (hdr (8 + k)).setWidth 64 <<< (8 * k)) 0#64

def writeCard (hdr : Memory) (card : BitVec 64) : Memory :=
  (List.range 8).foldl
    (fun hdr k => store hdr (8 + k) ((card >>> (8 * k) &&& 0xff#64).setWidth 8)) hdr

theorem hllDenseSize_eq : hllDenseSize = 12304 := rfl

theorem cOk_ne_cErr : cOk ≠ cErr := by decide

theorem notDense_of_sparse {hdr : Memory} (sparse : encoding hdr = hllSparse) :
    encoding hdr ≠ hllDense := by
  rw [sparse]
  decide

theorem hllValidCache_of_set {hdr : Memory} {byte : Byte} (set : hdr 15 = byte ||| 1#8 <<< 7) :
    hllValidCache hdr = false := by
  have setByte : ∀ byte : Byte, ¬(byte ||| 1#8 <<< 7) &&& 1#8 <<< 7 = 0#8 := by decide
  rw [hllValidCache, set]
  exact decide_eq_false (setByte byte)

/-! ### The cached cardinality as one word -/

private theorem getLsbD_readCard_upTo (hdr : Memory) (count position : Nat) (few : count ≤ 8) :
    ((List.range count).foldl
        (fun card k => card ||| (hdr (8 + k)).setWidth 64 <<< (8 * k)) 0#64).getLsbD position =
      (decide (position < 8 * count) && PackedFields.bit hdr 8 position) := by
  induction count with
  | zero => simp
  | succ count ih =>
      rw [List.range_succ, List.foldl_append, List.foldl_cons, List.foldl_nil,
        BitVec.getLsbD_or, ih (by omega), BitVec.getLsbD_shiftLeft, BitVec.getLsbD_setWidth]
      by_cases earlier : position < 8 * count
      · have within : position < 8 * (count + 1) := by omega
        simp [earlier, within]
      · by_cases here : position < 8 * (count + 1)
        · have quotient : position / 8 = count := by omega
          have remainder : position % 8 = position - 8 * count := by omega
          have inWord : position < 64 := by omega
          have inByte : position - 8 * count < 64 := by omega
          simp [PackedFields.bit, earlier, here, quotient, remainder, inWord, inByte]
        · have beyond : (hdr (8 + count)).getLsbD (position - 8 * count) = false :=
            BitVec.getLsbD_of_ge _ _ (by omega)
          simp [earlier, here, beyond]

theorem getLsbD_readCard (hdr : Memory) (position : Nat) (bound : position < 64) :
    (readCard hdr).getLsbD position = PackedFields.bit hdr 8 position := by
  rw [readCard, getLsbD_readCard_upTo hdr 8 position (Nat.le_refl 8)]
  have within : position < 8 * 8 := bound
  simp [within]

private theorem writeCard_upTo (hdr : Memory) (card : BitVec 64) (count offset : Nat) :
    (List.range count).foldl
        (fun hdr k => store hdr (8 + k) ((card >>> (8 * k) &&& 0xff#64).setWidth 8)) hdr offset =
      if 8 ≤ offset ∧ offset < 8 + count then
        (card >>> (8 * (offset - 8)) &&& 0xff#64).setWidth 8
      else hdr offset := by
  induction count with
  | zero =>
      have outside : ¬(8 ≤ offset ∧ offset < 8 + 0) := by omega
      rw [if_neg outside]
      rfl
  | succ count ih =>
      rw [List.range_succ, List.foldl_append, List.foldl_cons, List.foldl_nil]
      by_cases here : offset = 8 + count
      · subst here
        have within : 8 ≤ 8 + count ∧ 8 + count < 8 + (count + 1) := by omega
        rw [store_same, if_pos within, Nat.add_sub_cancel_left]
      · rw [store_other _ _ _ _ here, ih]
        by_cases earlier : 8 ≤ offset ∧ offset < 8 + count
        · rw [if_pos earlier, if_pos (by omega)]
        · rw [if_neg earlier, if_neg (by omega)]

theorem writeCard_inside (hdr : Memory) (card : BitVec 64) (offset : Nat)
    (inside : 8 ≤ offset ∧ offset < 16) :
    writeCard hdr card offset = (card >>> (8 * (offset - 8)) &&& 0xff#64).setWidth 8 := by
  rw [writeCard, writeCard_upTo, if_pos inside]

theorem writeCard_outside (hdr : Memory) (card : BitVec 64) (offset : Nat)
    (outside : offset < 8 ∨ 16 ≤ offset) : writeCard hdr card offset = hdr offset := by
  rw [writeCard, writeCard_upTo, if_neg (by omega)]

theorem readCard_writeCard (hdr : Memory) (card : BitVec 64) :
    readCard (writeCard hdr card) = card := by
  apply BitVec.eq_of_getLsbD_eq
  intro position bound
  have inByte : position % 8 < 8 := Nat.mod_lt _ (by omega)
  have mask : (0xff#64).getLsbD (position % 8) = true := by
    have all : ∀ k : Fin 8, (0xff#64).getLsbD k.val = true := by decide
    exact all ⟨position % 8, inByte⟩
  rw [getLsbD_readCard _ _ bound, PackedFields.bit, writeCard_inside _ _ _ (by omega),
    BitVec.getLsbD_setWidth, BitVec.getLsbD_and, BitVec.getLsbD_ushiftRight, mask,
    Nat.add_sub_cancel_left, Nat.div_add_mod]
  simp [inByte]

theorem readCard_congr (left right : Memory)
    (same : ∀ offset, 8 ≤ offset → offset < 16 → left offset = right offset) :
    readCard left = readCard right := by
  apply BitVec.eq_of_getLsbD_eq
  intro position bound
  rw [getLsbD_readCard _ _ bound, getLsbD_readCard _ _ bound, PackedFields.bit, PackedFields.bit,
    same _ (by omega) (by omega)]

theorem hllValidCache_iff (hdr : Memory) :
    hllValidCache hdr = true ↔ (readCard hdr).getLsbD 63 = false := by
  have byteFact : ∀ byte : Byte, byte &&& 1#8 <<< 7 = 0#8 ↔ byte.getLsbD 7 = false := by
    decide
  rw [getLsbD_readCard _ _ (by decide), PackedFields.bit, hllValidCache, decide_eq_true_eq]
  exact byteFact (hdr 15)

end PhpHll
