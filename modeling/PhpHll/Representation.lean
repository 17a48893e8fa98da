/-
Objects as register vectors.

`patternObserver` makes the register vector of an object an instance of the
sketches that keep one maximum per bucket: an add raises one register to the
pattern length of its element.  The representation invariant of the objects
this code builds is a predicate of its own, and every primitive operation is
described under it.
-/

import Mathlib.Order.Lattice.Nat
import PhpHll.Commands
import PhpHll.SparseAddSpec
import PhpHll.Library.MaxSketch

namespace PhpHll

open ByteMemory

/-! ### The sketch of a list of elements -/

def patternObserver : MaxSketch.Observer (List Byte) (Fin 16384) Nat :=
  { bucket := registerOf
    rank := fun ele => (hllPatLen ele).count }

def sketchOf (eles : List (List Byte)) : Fin 16384 → Nat := patternObserver.sketch eles

theorem insert_apply (vector : Fin 16384 → Nat) (ele : List Byte) (i : Fin 16384) :
    patternObserver.insert vector ele i =
      if i = registerOf ele then max (vector i) (hllPatLen ele).count else vector i := by
  by_cases same : i = registerOf ele
  · subst same
    rw [if_pos rfl, MaxSketch.Observer.insert]
    exact Function.update_self _ _ _
  · rw [if_neg same, MaxSketch.Observer.insert]
    exact Function.update_of_ne same _ _

theorem insert_of_lt (vector : Fin 16384 → Nat) (ele : List Byte)
    (raises : vector (registerOf ele) < (hllPatLen ele).count) (i : Fin 16384) :
    patternObserver.insert vector ele i =
      if i = registerOf ele then (hllPatLen ele).count else vector i := by
  rw [insert_apply]
  by_cases same : i = registerOf ele
  · rw [if_pos same, if_pos same, same, max_eq_right (Nat.le_of_lt raises)]
  · rw [if_neg same, if_neg same]

theorem insert_eq_self (vector : Fin 16384 → Nat) (ele : List Byte) :
    patternObserver.insert vector ele = vector ↔
      (hllPatLen ele).count ≤ vector (registerOf ele) :=
  patternObserver.insert_eq_self_iff vector ele

/-! ### The header across operations -/

/-- All of the header but the encoding and the cached cardinality byte with the
validity bit, which is kept or set. -/
structure HeaderKept (before after : Memory) : Prop where
  same : ∀ offset, offset < 16 → offset ≠ 4 → offset ≠ 15 → after offset = before offset
  cache : after 15 = before 15 ∨ after 15 = before 15 ||| 1#8 <<< 7

theorem HeaderKept.refl (memory : Memory) : HeaderKept memory memory :=
  ⟨fun _ _ _ _ => rfl, Or.inl rfl⟩

theorem HeaderKept.trans {first second third : Memory} (left : HeaderKept first second)
    (right : HeaderKept second third) : HeaderKept first third := by
  have twice : ∀ byte : Byte, byte ||| 1#8 <<< 7 ||| 1#8 <<< 7 = byte ||| 1#8 <<< 7 := by decide
  refine ⟨fun offset inside notEncoding notCache => ?_, ?_⟩
  · rw [right.same offset inside notEncoding notCache, left.same offset inside notEncoding notCache]
  · rcases right.cache with kept | set
    · rw [kept]
      exact left.cache
    · rw [set]
      rcases left.cache with kept | set
      · exact Or.inr (by rw [kept])
      · exact Or.inr (by rw [set, twice])

theorem headerKept_hllInvalidateCache (memory : Memory) :
    HeaderKept memory (hllInvalidateCache memory) :=
  ⟨fun _ _ _ notCache => store_other _ _ _ _ notCache, Or.inr (store_same _ _ _)⟩

/-! ### Dense objects -/

theorem raiseDense_outside (o : Robj) (ele : List Byte) (offset : Nat)
    (outside : offset < 16 ∨ 12304 ≤ offset) :
    (raiseDense o ele).ptr.buf offset = o.ptr.buf offset := by
  have bounds := hllPatLen_count_bounds ele
  have small : (BitVec.ofNat 64 (hllPatLen ele).count).toNat < 64 := by
    rw [BitVec.toNat_ofNat]
    omega
  exact hllDenseSetRegister_outside o.ptr.buf hllHdrSize (hllPatLen ele).index _ small
    (hllPatLen_index_lt ele) offset (by rw [hllHdrSize]; omega)

theorem raiseDense_encoding (o : Robj) (ele : List Byte) :
    encoding (raiseDense o ele).ptr.buf = encoding o.ptr.buf := by
  rw [encoding, encoding, raiseDense_outside o ele 4 (Or.inl (by omega))]

theorem raiseDense_headerKept (o : Robj) (ele : List Byte) :
    HeaderKept o.ptr.buf (raiseDense o ele).ptr.buf :=
  ⟨fun offset inside _ _ => raiseDense_outside o ele offset (Or.inl inside),
    Or.inl (raiseDense_outside o ele 15 (Or.inl (by omega)))⟩

theorem registers_raiseDense (o : Robj) (ele : List Byte) (dense : encoding o.ptr.buf = hllDense)
    (raises : registers o (registerOf ele) < (hllPatLen ele).count) :
    registers (raiseDense o ele) = patternObserver.insert (registers o) ele := by
  have bounds := hllPatLen_count_bounds ele
  have exact : (BitVec.ofNat 64 (hllPatLen ele).count).toNat = (hllPatLen ele).count := by
    rw [BitVec.toNat_ofNat]
    omega
  funext i
  rw [insert_of_lt _ _ raises,
    registers_of_dense (raiseDense o ele) (by rw [raiseDense_encoding, dense]) i,
    registers_of_dense o dense]
  by_cases same : i = registerOf ele
  · rw [if_pos same, same, registerOf_val, raiseDense, denseRegister_set_same _ _ _ _
      (by rw [exact]; omega), exact]
  · have different : (hllPatLen ele).index ≠ i := fun equal => same (Fin.ext equal.symm)
    rw [if_neg same, raiseDense, denseRegister_set_other _ _ _ _ _ (by rw [exact]; omega) different]

theorem hllDenseAdd_object (o : Robj) (ele : List Byte) (dense : encoding o.ptr.buf = hllDense) :
    hllDenseAdd o.ptr.buf hllHdrSize ele =
      if registers o (registerOf ele) < (hllPatLen ele).count then
        (1, (raiseDense o ele).ptr.buf)
      else (0, o.ptr.buf) := by
  rw [hllDenseAdd_eq, registers_of_dense o dense, registerOf_val, raiseDense]

/-! ### The sparse add on objects -/

/-- What an add that changes the register vector does to an object. -/
structure Raised (o next : Robj) (ele : List Byte) : Prop where
  registers : registers next = patternObserver.insert (registers o) ele
  header : HeaderKept o.ptr.buf next.ptr.buf
  terminated : o.ptr.buf o.ptr.len = 0 → next.ptr.buf next.ptr.len = 0

def DenseObject (o : Robj) : Prop := encoding o.ptr.buf = hllDense ∧ o.ptr.len = hllDenseSize

def SparseObject (o : Robj) : Prop := encoding o.ptr.buf = hllSparse ∧ SparsePayload o.ptr

theorem SparseObject.notDense {o : Robj} (object : SparseObject o) :
    encoding o.ptr.buf ≠ hllDense := notDense_of_sparse object.1

private theorem getD_set (list : List Nat) (index i value : Nat) (inside : index < list.length) :
    (list.set index value).getD i 0 = if i = index then value else list.getD i 0 := by
  by_cases same : i = index
  · rw [if_pos same, same, List.getD_eq_getElem?_getD, List.getElem?_set_self inside,
      Option.getD_some]
  · rw [if_neg same, List.getD_eq_getElem?_getD, List.getElem?_set_ne (Ne.symm same),
      List.getD_eq_getElem?_getD]

/-- Setting a register in the expansion of a payload is an insertion. -/
theorem SparseObject.getD_set_expandAll {o : Robj} (object : SparseObject o) (ele : List Byte)
    (raises : registers o (registerOf ele) < (hllPatLen ele).count) (i : Fin 16384) :
    ((expandAll (payloadOpcodes o.ptr)).set (hllPatLen ele).index (hllPatLen ele).count).getD i 0 =
      patternObserver.insert (registers o) ele i := by
  have inside : (hllPatLen ele).index < (expandAll (payloadOpcodes o.ptr)).length := by
    rw [expandAll_length, object.2.covered]
    exact hllPatLen_index_lt ele
  rw [insert_of_lt _ _ raises, getD_set _ _ _ _ inside, registers_of_sparse o object.notDense]
  by_cases same : i = registerOf ele
  · rw [if_pos same, if_pos (by rw [same, registerOf_val])]
  · have different : ¬(i : Nat) = (hllPatLen ele).index := fun equal => same (Fin.ext equal)
    rw [if_neg same, if_neg different]

private theorem registers_added (o : Robj) (next : Sds) (ele : List Byte) (object : SparseObject o)
    (covering : Covering o.ptr (hllPatLen ele)) (small : (hllPatLen ele).count ≤ 32)
    (added : AddedTo o.ptr next covering.added)
    (raises : registers o (registerOf ele) < (hllPatLen ele).count) :
    SparseObject { ptr := next } ∧
      registers { ptr := next } = patternObserver.insert (registers o) ele := by
  have bounds := hllPatLen_count_bounds ele
  have kept : encoding next.buf = hllSparse := added.encoding_eq.trans object.1
  have covered : lengthAll covering.added = 16384 := by
    rw [Covering.added, lengthAll_addOpcodes _ _ _ _ _ bounds.1 small covering.lower covering.upper,
      ← covering.split, object.2.covered]
  have sparseNext : SparseObject { ptr := next } := ⟨kept, added.encoded.sparsePayload covered⟩
  refine ⟨sparseNext, ?_⟩
  funext i
  rw [registers_of_sparse { ptr := next } sparseNext.notDense, added.encoded.payload,
    Covering.added,
    expandAll_addOpcodes _ _ _ _ _ bounds.1 small covering.lower covering.upper, ← covering.split]
  exact object.getD_set_expandAll ele raises i

private theorem added_len (env : Env) (s next : Sds) (pattern : Pattern)
    (covering : Covering s pattern) (valid : SparsePayload s)
    (fits : ¬SplitTooLong env s.len covering.opcode (sizeAll covering.seq))
    (added : AddedTo s next covering.added) :
    next.len ≤ max s.len env.hll_sparse_max_bytes := by
  have newSize : hllHdrSize + sizeAll covering.added = next.len := added.encoded.1
  have oldSize := valid.sized
  have bound : sizeAll covering.added ≤
      sizeAll covering.before + sizeAll covering.seq + sizeAll covering.after :=
    sizeAll_addOpcodes_le _ _ _ _ _
  rw [covering.split, sizeAll_append, sizeAll_cons] at oldSize
  by_cases grows : covering.opcode.size < sizeAll covering.seq
  · have small :
        ¬env.hll_sparse_max_bytes < s.len + (sizeAll covering.seq - covering.opcode.size) :=
      fun exceeds => fits ⟨grows, exceeds⟩
    omega
  · omega

theorem hllSparseAdd_spec (env : Env) (o : Robj) (ele : List Byte) (object : SparseObject o) :
    ((hllPatLen ele).count ≤ registers o (registerOf ele) ∧
        hllSparseAdd env o ele = .ok (0, { ptr := sdsMakeRoomFor o.ptr 3 })) ∨
      (registers o (registerOf ele) < (hllPatLen ele).count ∧
        ∃ next, hllSparseAdd env o ele = .ok (1, next) ∧ Raised o next ele ∧
          (DenseObject next ∨
            SparseObject next ∧ next.ptr.len ≤ max o.ptr.len env.hll_sparse_max_bytes)) := by
  rcases hllSparseAdd_cases env o ele object.notDense object.2 with
    ⟨enough, kept⟩ | ⟨raises, small, covering, fits, next, edited, added⟩ | ⟨raises, _why, promotes⟩
  · exact Or.inl ⟨enough, kept⟩
  · obtain ⟨sparseNext, vector⟩ := registers_added o next ele object covering small added raises
    refine Or.inr ⟨raises, { ptr := next }, edited, ⟨vector, ?_, added.terminated⟩,
      Or.inr ⟨sparseNext, added_len env o.ptr next _ covering object.2 fits added⟩⟩
    have invalidated := headerKept_hllInvalidateCache o.ptr.buf
    refine ⟨fun offset inside notEncoding notCache => ?_, ?_⟩
    · rw [added.header offset inside]
      exact invalidated.same offset inside notEncoding notCache
    · rw [added.header 15 (by decide)]
      exact invalidated.cache
  · have dense := promoted_encoding env o.ptr
    have vector := registers_promoted env o object.notDense object.2.covered
    have raisesPromoted : registers (promoted env o.ptr) (registerOf ele) <
        (hllPatLen ele).count := by rwa [vector]
    refine Or.inr ⟨raises, raiseDense (promoted env o.ptr) ele, promotes, ⟨?_, ?_, ?_⟩,
      Or.inl ⟨?_, ?_⟩⟩
    · rw [registers_raiseDense _ ele dense raisesPromoted, vector]
    · refine HeaderKept.trans ⟨fun offset inside notEncoding _ => ?_, Or.inl ?_⟩
        (raiseDense_headerKept (promoted env o.ptr) ele)
      · exact promoted_header env o.ptr offset inside notEncoding
      · exact promoted_header env o.ptr 15 (by omega) (by omega)
    · intro _terminated
      have lenEq : (raiseDense (promoted env o.ptr) ele).ptr.len = 12304 := promoted_len env o.ptr
      rw [lenEq, raiseDense_outside _ ele 12304 (Or.inr (Nat.le_refl _)), promoted_terminated]
    · rw [raiseDense_encoding, dense]
    · rfl

end PhpHll
