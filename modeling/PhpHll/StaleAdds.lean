/-
Adds on objects whose cardinality is already marked stale.

The edit of a sparse payload stays behind the header, and no add reads the
cardinality.  So on any accepted object, whatever its payload, marking the
cardinality stale before an add or after it leaves the same object.
-/

import PhpHll.CorruptAdds

namespace PhpHll

open ByteMemory

/-! ### Strings with another header -/

def Sds.withHeader (header : Memory) (s : Sds) : Sds :=
  { s with buf := withFront hllHdrSize header s.buf }

theorem opcodeAt_withHeader (header memory : Memory) {p : Nat} (behind : hllHdrSize ≤ p) :
    opcodeAt (withFront hllHdrSize header memory) p = opcodeAt memory p := by
  have next : hllHdrSize ≤ p + 1 := Nat.le_add_right_of_le behind
  simp only [opcodeAt, hllSparseIsZero, hllSparseIsXzero, decide_eq_true_eq,
    withFront_behind _ _ behind, withFront_behind _ _ next]

/-- What the macros on the first byte of an opcode say of two memories. -/
private structure SameMacros (left right : Memory) (p : Nat) : Prop where
  isXzero : hllSparseIsXzero left p = hllSparseIsXzero right p
  isZero : hllSparseIsZero left p = hllSparseIsZero right p
  isVal : hllSparseIsVal left p = hllSparseIsVal right p
  valValue : hllSparseValValue left p = hllSparseValValue right p
  valLen : hllSparseValLen left p = hllSparseValLen right p

private theorem sameMacros_withHeader (header memory : Memory) {p : Nat}
    (behind : hllHdrSize ≤ p) : SameMacros (withFront hllHdrSize header memory) memory p := by
  constructor
  · rw [hllSparseIsXzero, hllSparseIsXzero, withFront_behind _ _ behind]
  · rw [hllSparseIsZero, hllSparseIsZero, withFront_behind _ _ behind]
  · rw [hllSparseIsVal, hllSparseIsVal, withFront_behind _ _ behind]
  · rw [hllSparseValValue, hllSparseValValue, withFront_behind _ _ behind]
  · rw [hllSparseValLen, hllSparseValLen, withFront_behind _ _ behind]

theorem sdsIncrLen_withHeader (header : Memory) (s : Sds) (incr : Int)
    (behind : hllHdrSize ≤ (s.len + incr).toNat) :
    sdsIncrLen (s.withHeader header) incr = (sdsIncrLen s incr).map (Sds.withHeader header) := by
  unfold sdsIncrLen Sds.withHeader
  split
  · rfl
  · simp only
    split
    · rfl
    · rw [store_withFront _ _ behind]
      rfl

/-- The move of the tail over a merged opcode, and the new end of the string. -/
private theorem merged_withHeader (header : Memory) (s : Sds) (p : Nat) (bytes : List Byte)
    (behind : hllHdrSize ≤ p) (inside : p + 1 < s.len) :
    sdsIncrLen
        { s.withHeader header with
          buf := memmove (memcpy (s.withHeader header).buf (p + 1) bytes) p (p + 1) (s.len - p) }
        (-1) =
      (sdsIncrLen { s with buf := memmove (memcpy s.buf (p + 1) bytes) p (p + 1) (s.len - p) }
        (-1)).map (Sds.withHeader header) := by
  have next : hllHdrSize ≤ p + 1 := Nat.le_add_right_of_le behind
  rw [← sdsIncrLen_withHeader header _ _ (by simp only; omega)]
  simp only [Sds.withHeader, memcpy_withFront _ _ next, memmove_withFront _ _ behind next]

/-- The merge loop stays behind the header. -/
theorem sparseMergeLoop_withHeader (header : Memory) (scanlen : Nat) (s : Sds) (p : Nat)
    (behind : hllHdrSize ≤ p) :
    sparseMergeLoop scanlen (s.withHeader header) p s.len =
      (sparseMergeLoop scanlen s p s.len).map (Sds.withHeader header) := by
  induction scanlen generalizing s p with
  | zero => rfl
  | succ scanlen ih =>
      have next : hllHdrSize ≤ p + 1 := Nat.le_add_right_of_le behind
      have here : SameMacros (s.withHeader header).buf s.buf p :=
        sameMacros_withHeader _ _ behind
      have there : SameMacros (s.withHeader header).buf s.buf (p + 1) :=
        sameMacros_withHeader _ _ next
      rw [sparseMergeLoop, sparseMergeLoop]
      simp only [here.isXzero, here.isZero, there.isVal, here.valValue, there.valValue, here.valLen,
        there.valLen]
      by_cases more : p < s.len
      · rw [if_pos more, if_pos more]
        by_cases isXzero : hllSparseIsXzero s.buf p = true
        · rw [if_pos isXzero, if_pos isXzero]
          exact ih s (p + 2) (Nat.le_add_right_of_le behind)
        · rw [if_neg isXzero, if_neg isXzero]
          by_cases isZero : hllSparseIsZero s.buf p = true
          · rw [if_pos isZero, if_pos isZero]
            exact ih s (p + 1) next
          · rw [if_neg isZero, if_neg isZero]
            by_cases nextVal : p + 1 < s.len ∧ hllSparseIsVal s.buf (p + 1) = true
            · rw [if_pos nextVal, if_pos nextVal, merged_withHeader _ _ _ _ behind nextVal.1]
              split
              · cases turned : sdsIncrLen _ (-1) with
                | error abort => rfl
                | ok shorter =>
                    have len : s.len - 1 = shorter.len := by
                      rw [(sdsIncrLen_result turned).1]
                      simp only
                      omega
                    simp only [len]
                    exact ih shorter p behind
              · exact ih s (p + 1) next
            · rw [if_neg nextVal, if_neg nextVal]
              exact ih s (p + 1) next
      · rw [if_neg more, if_neg more]
        rfl

theorem sparseMergeLoop_header {scanlen : Nat} {s next : Sds} {p : Nat} (behind : hllHdrSize ≤ p)
    (ran : sparseMergeLoop scanlen s p s.len = .ok next) (offset : Nat)
    (inside : offset < hllHdrSize) : next.buf offset = s.buf offset := by
  have own : s.withHeader s.buf = s := by rw [Sds.withHeader, withFront_self]
  have commuted := sparseMergeLoop_withHeader s.buf scanlen s p behind
  rw [own, ran] at commuted
  have same : next.buf = (next.withHeader s.buf).buf := congrArg Sds.buf (Except.ok.inj commuted)
  rw [same]
  exact withFront_inside _ _ inside

theorem sparseMergeLoop_long {scanlen : Nat} {s next : Sds} {p : Nat} (behind : hllHdrSize ≤ p)
    (long : hllHdrSize ≤ s.len) (ran : sparseMergeLoop scanlen s p s.len = .ok next) :
    hllHdrSize ≤ next.len := by
  induction scanlen generalizing s p with
  | zero =>
      cases ran
      exact long
  | succ scanlen ih =>
      rw [sparseMergeLoop] at ran
      split at ran
      · split at ran
        · exact ih (Nat.le_add_right_of_le behind) long ran
        · split at ran
          · exact ih (Nat.le_add_right_of_le behind) long ran
          · split at ran
            · rename_i nextVal
              simp only at ran
              split at ran
              · cases turned : sdsIncrLen _ (-1) with
                | error abort =>
                    rw [turned] at ran
                    cases ran
                | ok shorter =>
                    have len := (sdsIncrLen_result turned).1
                    have room := nextVal.1
                    simp only at len
                    have ends : s.len - 1 = shorter.len := by omega
                    rw [turned] at ran
                    simp only [ends] at ran
                    exact ih behind (by omega) ran
              · exact ih (Nat.le_add_right_of_le behind) long ran
            · exact ih (Nat.le_add_right_of_le behind) long ran
      · cases ran
        exact long

/-! ### The stale mark -/

def Sds.stale (s : Sds) : Sds := { s with buf := hllInvalidateCache s.buf }

theorem hllInvalidateCache_eq_withFront (header memory : Memory)
    (kept : ∀ offset, offset < hllHdrSize → memory offset = header offset) :
    hllInvalidateCache memory = withFront hllHdrSize (hllInvalidateCache header) memory := by
  funext offset
  by_cases inside : offset < hllHdrSize
  · rw [withFront_inside _ _ inside, hllInvalidateCache, hllInvalidateCache, store, store,
      kept offset inside, kept 15 (by decide)]
  · rw [withFront_behind _ _ (Nat.le_of_not_lt inside), hllInvalidateCache,
      store_other _ _ _ _ (by rw [hllHdrSize] at inside; omega)]

theorem hllInvalidateCache_twice (memory : Memory) :
    hllInvalidateCache (hllInvalidateCache memory) = hllInvalidateCache memory := by
  have twice : ∀ byte : Byte, byte ||| 1#8 <<< 7 ||| 1#8 <<< 7 = byte ||| 1#8 <<< 7 := by decide
  funext offset
  by_cases last : offset = 15
  · subst last
    simp only [hllInvalidateCache, store_same, twice]
  · rw [hllInvalidateCache, store_other _ _ _ _ last]

section Edits

variable (memory : Memory) {address : Nat} (behind : hllHdrSize ≤ address)
include behind

theorem store_stale (byte : Byte) :
    store (hllInvalidateCache memory) address byte =
      hllInvalidateCache (store memory address byte) := by
  rw [hllInvalidateCache_eq_withFront memory memory fun _ _ => rfl, store_withFront _ _ behind]
  exact (hllInvalidateCache_eq_withFront _ _ fun offset inside =>
    store_other _ _ _ _ (by omega)).symm

theorem memcpy_stale (bytes : List Byte) :
    memcpy (hllInvalidateCache memory) address bytes =
      hllInvalidateCache (memcpy memory address bytes) := by
  rw [hllInvalidateCache_eq_withFront memory memory fun _ _ => rfl, memcpy_withFront _ _ behind]
  exact (hllInvalidateCache_eq_withFront _ _ fun offset inside =>
    memcpy_below _ _ _ _ (by omega)).symm

theorem memmove_stale {source : Nat} (sourceBehind : hllHdrSize ≤ source) (count : Nat) :
    memmove (hllInvalidateCache memory) address source count =
      hllInvalidateCache (memmove memory address source count) := by
  rw [hllInvalidateCache_eq_withFront memory memory fun _ _ => rfl,
    memmove_withFront _ _ behind sourceBehind]
  exact (hllInvalidateCache_eq_withFront _ _ fun offset inside =>
    memmove_below _ _ _ _ _ (by omega)).symm

end Edits

theorem hllInvalidateCache_behind (memory : Memory) {offset : Nat} (behind : hllHdrSize ≤ offset) :
    hllInvalidateCache memory offset = memory offset :=
  store_other _ _ _ _ (by rw [hllHdrSize] at behind; omega)

/-! ### Merging and placing -/

/-- The result of an add, with its object marked stale. -/
def staleResult (result : Int × Robj) : Int × Robj := (result.1, invalidate result.2)

theorem sparseMergeLoop_stale (scanlen : Nat) (s : Sds) (p : Nat) (behind : hllHdrSize ≤ p) :
    sparseMergeLoop scanlen s.stale p s.len =
      (sparseMergeLoop scanlen s p s.len).map Sds.stale := by
  have front : s.stale = s.withHeader (hllInvalidateCache s.buf) := by
    rw [Sds.stale, Sds.withHeader, ← hllInvalidateCache_eq_withFront s.buf s.buf fun _ _ => rfl]
  rw [front, sparseMergeLoop_withHeader _ scanlen s p behind]
  cases ran : sparseMergeLoop scanlen s p s.len with
  | error abort => rfl
  | ok next =>
      have kept := sparseMergeLoop_header behind ran
      simp only [Except.map, Sds.withHeader, Sds.stale,
        ← hllInvalidateCache_eq_withFront s.buf next.buf kept]

theorem hllSparseAddUpdated_stale (s : Sds) (prev : Option Nat)
    (behind : hllHdrSize ≤ prev.getD hllHdrSize) :
    hllSparseAddUpdated s.stale prev s.len =
      (hllSparseAddUpdated s prev s.len).map staleResult := by
  rw [hllSparseAddUpdated, hllSparseAddUpdated, sparseMergeLoop_stale 5 s _ behind]
  cases sparseMergeLoop 5 s (prev.getD hllHdrSize) s.len with
  | error abort => rfl
  | ok next => rfl

theorem sdsIncrLen_stale (s : Sds) (incr : Int) (behind : hllHdrSize ≤ (s.len + incr).toNat) :
    sdsIncrLen s.stale incr = (sdsIncrLen s incr).map Sds.stale := by
  unfold sdsIncrLen Sds.stale
  split
  · rfl
  · simp only
    split
    · rfl
    · rw [store_stale _ behind]
      rfl

/-- The move of the tail, to leave `count` bytes for an opcode of `size` bytes. -/
def tailMoved (s : Sds) (p size count : Nat) : Sds :=
  { s with
    buf :=
      if (count : Int) - size ≠ 0 ∧ p + size < s.len then
        memmove s.buf (((p + size : Nat) : Int) + (count - size)).toNat (p + size)
          (s.len - (p + size))
      else s.buf }

/-- The end of a substitution: the string takes its new length, the sequence is
copied in, and the merge follows. -/
def seqPlaced (s : Sds) (delta : Int) (p : Nat) (prev : Option Nat) (seq : List Byte) :
    Except Abort (Int × Robj) :=
  match sdsIncrLen s delta with
  | .error abort => .error abort
  | .ok grown =>
      hllSparseAddUpdated { grown with buf := memcpy grown.buf p seq } prev (s.len + delta).toNat

theorem hllSparseAddSubstitute_steps (env : Env) (s : Sds) (ele : List Byte)
    (scan : SparseScan) (seq : List Byte) (opcode : Opcode)
    (read : opcodeAt s.buf scan.p = opcode)
    (fits : ¬SplitTooLong env s.len opcode seq.length) :
    hllSparseAddSubstitute env s ele scan seq =
      seqPlaced (tailMoved s scan.p opcode.size seq.length) (seq.length - opcode.size) scan.p
        scan.prev seq :=
  hllSparseAddSubstitute_fits env s ele scan seq opcode read fits

private theorem tailMoved_stale (s : Sds) (p size count : Nat) (behind : hllHdrSize ≤ p) :
    tailMoved s.stale p size count = (tailMoved s p size count).stale := by
  rw [tailMoved, tailMoved, Sds.stale, Sds.stale]
  simp only
  split
  · rw [memmove_stale _ (by omega) (Nat.le_add_right_of_le behind)]
  · rfl

private theorem seqPlaced_stale (s : Sds) (delta : Int) (p : Nat) (prev : Option Nat)
    (seq : List Byte) (long : hllHdrSize ≤ (s.len + delta).toNat) (behind : hllHdrSize ≤ p)
    (prevBehind : hllHdrSize ≤ prev.getD hllHdrSize) :
    seqPlaced s.stale delta p prev seq = (seqPlaced s delta p prev seq).map staleResult := by
  rw [seqPlaced, seqPlaced, sdsIncrLen_stale s delta long]
  cases grew : sdsIncrLen s delta with
  | error abort => rfl
  | ok grown =>
      have copied := hllSparseAddUpdated_stale { grown with buf := memcpy grown.buf p seq } prev
        prevBehind
      have len : (s.stale.len + delta).toNat = grown.len := (sdsIncrLen_result grew).1.symm
      have len' : (s.len + delta).toNat = grown.len := len
      simp only [Except.map, Sds.stale, memcpy_stale _ behind, len'] at copied ⊢
      exact copied

/-! ### Promotion -/

theorem opcodeAt_stale (memory : Memory) {p : Nat} (behind : hllHdrSize ≤ p) :
    opcodeAt (hllInvalidateCache memory) p = opcodeAt memory p := by
  rw [hllInvalidateCache_eq_withFront memory memory fun _ _ => rfl, opcodeAt_withHeader _ _ behind]

private theorem opcodesFrom_stale (memory : Memory) (p finish : Nat) (behind : hllHdrSize ≤ p) :
    opcodesFrom (hllInvalidateCache memory) p finish = opcodesFrom memory p finish := by
  fun_induction opcodesFrom memory p finish with
  | case1 p more ih =>
      rw [opcodesFrom_step _ _ _ more, opcodeAt_stale memory behind,
        ih (Nat.le_add_right_of_le behind)]
  | case2 p done => rw [opcodesFrom, if_neg done]

theorem payloadOpcodes_stale (s : Sds) : payloadOpcodes s.stale = payloadOpcodes s :=
  opcodesFrom_stale s.buf hllHdrSize s.len (Nat.le_refl _)

theorem hllDenseSetRegister_stale (memory : Memory) (regnum : Nat) (val : BitVec 64) :
    hllDenseSetRegister (hllInvalidateCache memory) hllHdrSize regnum val =
      hllInvalidateCache (hllDenseSetRegister memory hllHdrSize regnum val) := by
  have behind : hllHdrSize ≤ hllHdrSize + regnum * hllBits / 8 := Nat.le_add_right _ _
  have next : hllHdrSize ≤ hllHdrSize + regnum * hllBits / 8 + 1 := Nat.le_add_right_of_le behind
  simp only [hllDenseSetRegister, hllInvalidateCache_behind _ behind,
    hllInvalidateCache_behind _ next, store_stale _ behind, store_stale _ next]

theorem hllDenseAdd_stale (memory : Memory) (ele : List Byte) :
    hllDenseAdd (hllInvalidateCache memory) hllHdrSize ele =
      ((hllDenseAdd memory hllHdrSize ele).1,
        hllInvalidateCache (hllDenseAdd memory hllHdrSize ele).2) := by
  have read : hllDenseGetRegister (hllInvalidateCache memory) hllHdrSize (hllPatLen ele).index =
      hllDenseGetRegister memory hllHdrSize (hllPatLen ele).index := by
    have behind : hllHdrSize ≤ hllHdrSize + (hllPatLen ele).index * hllBits / 8 :=
      Nat.le_add_right _ _
    simp only [hllDenseGetRegister, hllInvalidateCache_behind _ behind,
      hllInvalidateCache_behind _ (Nat.le_add_right_of_le behind)]
  simp only [hllDenseAdd, read, hllDenseSetRegister_stale]
  split <;> rfl

theorem denseHeader_stale (env : Env) (s : Sds) :
    denseHeader env s.stale = hllInvalidateCache (denseHeader env s) := by
  funext offset
  by_cases inside : offset < 16
  · rw [denseHeader_header env s.stale offset inside, hllInvalidateCache, store,
      denseHeader_header env s offset inside, denseHeader_header env s 15 (by omega)]
    by_cases last : offset = 15
    · subst last
      rfl
    · have kept : s.stale.buf offset = s.buf offset := store_other _ _ _ _ last
      rw [if_neg last, kept]
  · have behind : hllHdrSize ≤ offset := Nat.le_of_not_lt inside
    rw [hllInvalidateCache_behind _ behind, denseHeader, denseHeader, setEncoding, setEncoding,
      store_other _ _ _ _ (by omega), store_other _ _ _ _ (by omega),
      memcpy_above _ _ _ _ (by rwa [readBytes_length, Nat.zero_add]),
      memcpy_above _ _ _ _ (by rwa [readBytes_length, Nat.zero_add])]

theorem denseFill_stale (env : Env) (s : Sds) :
    denseFill env s.stale =
      { denseFill env s with array := hllInvalidateCache (denseFill env s).array } := by
  rw [denseFill, denseFill, SparseReader.loop_payload, SparseReader.loop_payload,
    payloadOpcodes_stale, denseHeader_stale]
  exact registerReader_map denseWrite hllInvalidateCache
    (fun array i regval => hllDenseSetRegister_stale array i _) (payloadOpcodes s)
    { idx := 0, array := denseHeader env s, touched := [] }

theorem hllSparseToDense_stale (env : Env) (s : Sds) :
    hllSparseToDense env { ptr := s.stale } =
      ((hllSparseToDense env { ptr := s }).1, invalidate (hllSparseToDense env { ptr := s }).2) := by
  have same : encoding s.stale.buf = encoding s.buf := encoding_invalidate { ptr := s }
  rw [hllSparseToDense, hllSparseToDense]
  simp only [same, denseFill_stale]
  split
  · rfl
  · split <;> rfl

private theorem promoteSteps_stale (convert : Env → Robj → Int × Robj)
    (denseAdd : Memory → Nat → List Byte → Int × Memory) (env : Env) (s : Sds) (ele : List Byte)
    (converts : convert env { ptr := s.stale } =
      ((convert env { ptr := s }).1, invalidate (convert env { ptr := s }).2))
    (adds : ∀ memory, denseAdd (hllInvalidateCache memory) hllHdrSize ele =
      ((denseAdd memory hllHdrSize ele).1,
        hllInvalidateCache (denseAdd memory hllHdrSize ele).2)) :
    promoteSteps convert denseAdd env { ptr := s.stale } ele =
      (promoteSteps convert denseAdd env { ptr := s } ele).map staleResult := by
  rw [promoteSteps, promoteSteps, converts]
  cases convert env { ptr := s } with
  | mk status o =>
      simp only
      by_cases failed : status = cErr
      · rw [if_pos failed, if_pos failed]
        rfl
      · rw [if_neg failed, if_neg failed]
        simp only [invalidate, adds]
        cases denseAdd o.ptr.buf hllHdrSize ele with
        | mk retval buf =>
            simp only
            split
            · rfl
            · rfl

theorem hllSparseAddPromote_stale (env : Env) (s : Sds) (ele : List Byte) :
    hllSparseAddPromote env { ptr := s.stale } ele =
      (hllSparseAddPromote env { ptr := s } ele).map staleResult := by
  rw [hllSparseAddPromote_steps, hllSparseAddPromote_steps]
  exact promoteSteps_stale _ _ env s ele (hllSparseToDense_stale env s)
    fun memory => hllDenseAdd_stale memory ele

/-! ### The sparse add -/

theorem hllSparseAddSubstitute_stale (env : Env) (s : Sds) (ele : List Byte) (scan : SparseScan)
    (seq : List Byte) (behind : hllHdrSize ≤ scan.p)
    (prevBehind : hllHdrSize ≤ scan.prev.getD hllHdrSize) (long : hllHdrSize < s.len)
    (some : 1 ≤ seq.length) :
    hllSparseAddSubstitute env s.stale ele scan seq =
      (hllSparseAddSubstitute env s ele scan seq).map staleResult := by
  have read : opcodeAt s.stale.buf scan.p = opcodeAt s.buf scan.p := opcodeAt_stale s.buf behind
  by_cases tooLong : SplitTooLong env s.len (opcodeAt s.buf scan.p) seq.length
  · rw [hllSparseAddSubstitute_tooLong env s ele scan seq tooLong,
      hllSparseAddSubstitute_tooLong env s.stale ele scan seq (by rw [read]; exact tooLong)]
    exact hllSparseAddPromote_stale env s ele
  · have short := (opcodeAt s.buf scan.p).size_le
    rw [hllSparseAddSubstitute_steps env s ele scan seq _ rfl tooLong,
      hllSparseAddSubstitute_steps env s.stale ele scan seq _ read tooLong,
      tailMoved_stale s _ _ _ behind]
    have len (size count : Nat) : (tailMoved s scan.p size count).len = s.len := rfl
    apply seqPlaced_stale _ _ _ _ _ _ behind prevBehind
    rw [len]
    omega

theorem hllSparseAddAt_stale (env : Env) (s : Sds) (ele : List Byte) (pattern : Pattern)
    (scan : SparseScan) (positive : 1 ≤ pattern.count) (behind : hllHdrSize ≤ scan.p)
    (prevBehind : hllHdrSize ≤ scan.prev.getD hllHdrSize) (long : hllHdrSize < s.len) :
    hllSparseAddAt env s.stale ele pattern scan =
      (hllSparseAddAt env s ele pattern scan).map staleResult := by
  have read : opcodeAt s.stale.buf scan.p = opcodeAt s.buf scan.p := opcodeAt_stale s.buf behind
  rw [hllSparseAddAt_eq env s ele pattern scan _ rfl positive,
    hllSparseAddAt_eq env s.stale ele pattern scan _ read positive]
  by_cases enough : pattern.count ≤ (opcodeAt s.buf scan.p).value
  · rw [if_pos enough, if_pos enough]
    rfl
  · rw [if_neg enough, if_neg enough]
    by_cases single : (opcodeAt s.buf scan.p).size = 1 ∧ (opcodeAt s.buf scan.p).length = 1
    · rw [if_pos single, if_pos single]
      have overwritten := hllSparseAddUpdated_stale
        { s with buf := memcpy s.buf scan.p (hllSparseValSet pattern.count 1) } scan.prev prevBehind
      rw [← overwritten]
      simp only [Sds.stale, memcpy_stale _ behind]
    · rw [if_neg single, if_neg single]
      apply hllSparseAddSubstitute_stale env s ele scan _ behind prevBehind long
      rw [splitBytes_length]
      omega

theorem sdsMakeRoomFor_stale (s : Sds) (addlen : Nat) :
    sdsMakeRoomFor s.stale addlen = (sdsMakeRoomFor s addlen).stale := by
  unfold sdsMakeRoomFor Sds.stale
  split
  · rfl
  · rfl

/-- The search in the string marked stale ends in the same place. -/
private def SearchEnd.stale {s : Sds} {index : Nat} (stop : SearchEnd s index) :
    SearchEnd s.stale index :=
  { passed := stop.passed
    rest := stop.rest
    split := (payloadOpcodes_stale s).trans stop.split
    lower := stop.lower
    upper := stop.upper }

theorem SearchEnd.prev_behind {s : Sds} {index : Nat} (stop : SearchEnd s index) :
    hllHdrSize ≤ (SparseScan.start.pass stop.passed).prev.getD hllHdrSize := by
  rw [SparseScan.pass_prev SparseScan.start stop.passed hllHdrSize rfl rfl]
  exact Nat.le_add_right _ _

theorem SearchEnd.long_of_span {s : Sds} {index : Nat} (stop : SearchEnd s index)
    (spanned : stop.span ≠ 0) : hllHdrSize < s.len := by
  by_contra short
  exact spanned (stop.span_eq_zero_iff.mpr (opcodesFrom_done _ _ _ (Nat.le_of_not_lt short)))

theorem hllSparseAdd_stale (env : Env) (o : Robj) (ele : List Byte)
    (long : hllHdrSize ≤ o.ptr.len) :
    hllSparseAdd env (invalidate o) ele = (hllSparseAdd env o ele).map staleResult := by
  by_cases large : hllSparseValMaxValue < (hllPatLen ele).count
  · rw [hllSparseAdd, hllSparseAdd]
    simp only [if_pos large]
    exact hllSparseAddPromote_stale env o.ptr ele
  · have small : (hllPatLen ele).count ≤ 32 := Nat.le_of_not_lt large
    obtain ⟨stop⟩ := exists_searchEnd o.ptr (hllPatLen ele).index
    have room : sdsMakeRoomFor (invalidate o).ptr 3 = (sdsMakeRoomFor o.ptr 3).stale :=
      sdsMakeRoomFor_stale o.ptr 3
    rw [hllSparseAdd_scanned env o ele _ small (stop.scan long),
      hllSparseAdd_scanned env (invalidate o) ele _ small (stop.stale.scan long), room]
    by_cases spanned : stop.span = 0
    · have spannedStale : stop.stale.span = 0 := spanned
      simp only [if_pos spanned, if_pos spannedStale]
      rfl
    · have spannedStale : ¬stop.stale.span = 0 := spanned
      simp only [if_neg spanned, if_neg spannedStale]
      apply hllSparseAddAt_stale env _ ele _ _ (hllPatLen_count_bounds ele).1
      · exact Nat.le_add_right _ _
      · exact stop.prev_behind
      · rw [sdsMakeRoomFor_len]
        exact stop.long_of_span spanned

/-- The dense branch of `hllAdd`, for any dense add that acts behind the header. -/
private theorem denseBranch_stale (denseAdd : Memory → Nat → List Byte → Int × Memory) (o : Robj)
    (ele : List Byte)
    (adds : ∀ memory, denseAdd (hllInvalidateCache memory) hllHdrSize ele =
      ((denseAdd memory hllHdrSize ele).1,
        hllInvalidateCache (denseAdd memory hllHdrSize ele).2)) :
    (match denseAdd (invalidate o).ptr.buf hllHdrSize ele with
      | (updated, buf) => .ok (updated, { ptr := { (invalidate o).ptr with buf := buf } }) :
        Except Abort (Int × Robj)) =
      (match denseAdd o.ptr.buf hllHdrSize ele with
        | (updated, buf) => .ok (updated, { ptr := { o.ptr with buf := buf } }) :
          Except Abort (Int × Robj)).map staleResult := by
  rw [invalidate_buf, adds]
  rfl

/-- Marking the cardinality stale before an add or after it is the same. -/
theorem hllAdd_invalidate (env : Env) (o : Robj) (ele : List Byte)
    (long : hllHdrSize ≤ o.ptr.len) :
    hllAdd env (invalidate o) ele = (hllAdd env o ele).map staleResult := by
  rw [hllAdd, hllAdd, encoding_invalidate]
  by_cases dense : encoding o.ptr.buf = hllDense
  · rw [if_pos dense, if_pos dense]
    exact denseBranch_stale hllDenseAdd o ele fun memory => hllDenseAdd_stale memory ele
  · rw [if_neg dense, if_neg dense]
    by_cases sparse : encoding o.ptr.buf = hllSparse
    · rw [if_pos sparse, if_pos sparse]
      exact hllSparseAdd_stale env o ele long
    · rw [if_neg sparse, if_neg sparse]
      rfl

end PhpHll
