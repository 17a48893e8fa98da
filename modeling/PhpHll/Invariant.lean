/-
The representation invariant.

`Valid` is what every object built by this code satisfies.  Each exported
operation is described on valid objects: it neither fails nor stops the
process, it keeps the invariant, and its effect on the register vector and on
the cached cardinality is stated.
-/

import PhpHll.Representation

namespace PhpHll

open ByteMemory

structure Valid (env : Env) (o : Robj) : Prop where
  magic : readBytes o.ptr.buf 0 4 = hllMagic
  notused : readBytes o.ptr.buf 5 3 = [0, 0, 0]
  terminated : o.ptr.buf o.ptr.len = 0
  body : (DenseObject o ∧ ∀ i, registers o i ≤ 50) ∨
    (SparseObject o ∧ o.ptr.len ≤ max 18 env.hll_sparse_max_bytes)

/-- What a loaded object satisfies when its payload is as well formed as its
header, whoever wrote it. -/
structure WellFormed (o : Robj) : Prop where
  magic : readBytes o.ptr.buf 0 4 = hllMagic
  body : DenseObject o ∨ SparseObject o

theorem Valid.wellFormed {env : Env} {o : Robj} (valid : Valid env o) : WellFormed o := by
  refine ⟨valid.magic, ?_⟩
  cases valid.body with
  | inl dense => exact Or.inl dense.1
  | inr sparse => exact Or.inr sparse.1

theorem WellFormed.long {o : Robj} (formed : WellFormed o) : 16 ≤ o.ptr.len := by
  cases formed.body with
  | inl dense =>
      rw [dense.2, hllDenseSize_eq]
      omega
  | inr sparse => exact sparse.2.long

theorem WellFormed.readable {o : Robj} (formed : WellFormed o) : Readable o := by
  cases formed.body with
  | inl dense => exact Or.inl dense.1
  | inr sparse => exact Or.inr sparse.2.covered

/-- The cardinality the header offers without a new count. -/
def cachedCard (hdr : Memory) : Option (BitVec 64) :=
  if hllValidCache hdr then some (readCard hdr) else none

/-! ### What carries the invariant over -/

/-- The same string, but for the eight bytes of the cached cardinality. -/
structure SameButCard (first second : Robj) : Prop where
  len : second.ptr.len = first.ptr.len
  bytes : ∀ offset, offset < first.ptr.len → offset < 8 ∨ 16 ≤ offset →
    second.ptr.buf offset = first.ptr.buf offset

/-- The same string, as far as its length reaches. -/
structure SameString (first second : Robj) : Prop where
  len : second.ptr.len = first.ptr.len
  bytes : ∀ offset, offset < first.ptr.len → second.ptr.buf offset = first.ptr.buf offset

theorem SameString.sameButCard {first second : Robj} (same : SameString first second) :
    SameButCard first second :=
  ⟨same.len, fun offset inside _ => same.bytes offset inside⟩

theorem sameString_makeRoom (o : Robj) (addlen : Nat) :
    SameString o { ptr := sdsMakeRoomFor o.ptr addlen } :=
  ⟨sdsMakeRoomFor_len _ _, fun _ _ => by rw [sdsMakeRoomFor_buf]⟩

theorem sameButCard_invalidate (o : Robj) : SameButCard o (invalidate o) :=
  ⟨rfl, fun _ _ outside => store_other _ _ _ _ (by omega)⟩

theorem sameButCard_writeCard (o : Robj) (card : BitVec 64) :
    SameButCard o { ptr := { o.ptr with buf := writeCard o.ptr.buf card } } :=
  ⟨rfl, fun offset _ outside => writeCard_outside o.ptr.buf card offset outside⟩

theorem cachedCard_congr (first second : Memory)
    (same : ∀ offset, 8 ≤ offset → offset < 16 → second offset = first offset) :
    cachedCard second = cachedCard first := by
  have card := readCard_congr second first same
  have validity : hllValidCache second = hllValidCache first := by
    rw [hllValidCache, hllValidCache, same 15 (by omega) (by omega)]
  rw [cachedCard, cachedCard, validity, card]

private theorem cachedCard_of_set {hdr : Memory} {byte : Byte}
    (set : hdr 15 = byte ||| 1#8 <<< 7) : cachedCard hdr = none := by
  rw [cachedCard, hllValidCache_of_set set, if_neg Bool.false_ne_true]

theorem HeaderKept.cachedCard {first second : Memory} (kept : HeaderKept first second) :
    cachedCard second = cachedCard first ∨ cachedCard second = none := by
  rcases kept.cache with same | set
  · refine Or.inl (cachedCard_congr first second fun offset lower upper => ?_)
    by_cases last : offset = 15
    · rw [last, same]
    · exact kept.same offset upper (by omega) last
  · exact Or.inr (cachedCard_of_set set)

theorem cachedCard_hllInvalidateCache (memory : Memory) :
    cachedCard (hllInvalidateCache memory) = none := cachedCard_of_set (store_same _ _ _)

theorem Valid.of_headerKept {env : Env} {o next : Robj} (valid : Valid env o)
    (kept : HeaderKept o.ptr.buf next.ptr.buf) (terminated : next.ptr.buf next.ptr.len = 0)
    (body : (DenseObject next ∧ ∀ i, registers next i ≤ 50) ∨
      (SparseObject next ∧ next.ptr.len ≤ max 18 env.hll_sparse_max_bytes)) : Valid env next := by
  refine ⟨?_, ?_, terminated, body⟩
  · rw [← valid.magic]
    apply readBytes_congr
    intro offset _lower upper
    exact kept.same offset (by omega) (by omega) (by omega)
  · rw [← valid.notused]
    apply readBytes_congr
    intro offset lower upper
    exact kept.same offset (by omega) (by omega) (by omega)

theorem Valid.long {env : Env} {o : Robj} (valid : Valid env o) : 16 ≤ o.ptr.len :=
  valid.wellFormed.long

private theorem SameButCard.encoding {o next : Robj} (same : SameButCard o next)
    (long : 16 ≤ o.ptr.len) : encoding next.ptr.buf = encoding o.ptr.buf := by
  rw [PhpHll.encoding, PhpHll.encoding, same.bytes 4 (by omega) (by omega)]

theorem SameButCard.sparse {o next : Robj} (same : SameButCard o next)
    (sparse : SparseObject o) : SparseObject next ∧ registers next = registers o := by
  have long := sparse.2.long
  have kept := same.encoding long
  have encoded : EncodedAt next.ptr.buf hllHdrSize next.ptr.len (payloadOpcodes o.ptr) := by
    rw [same.len]
    exact (encodedAt_payload o.ptr sparse.2.sized).congr fun offset lower upper =>
      same.bytes offset upper (Or.inr lower)
  have sparseNext : SparseObject next :=
    ⟨by rw [kept, sparse.1], encoded.sparsePayload sparse.2.covered⟩
  refine ⟨sparseNext, ?_⟩
  funext i
  rw [registers_of_sparse next sparseNext.notDense, registers_of_sparse o sparse.notDense,
    encoded.payload]

theorem SameButCard.dense {o next : Robj} (same : SameButCard o next)
    (dense : DenseObject o) : DenseObject next ∧ registers next = registers o := by
  have size : o.ptr.len = 12304 := dense.2
  have kept := same.encoding (by omega)
  have denseNext : DenseObject next := ⟨by rw [kept, dense.1], by rw [same.len, dense.2]⟩
  refine ⟨denseNext, ?_⟩
  funext i
  rw [registers_of_dense next denseNext.1, registers_of_dense o dense.1]
  apply denseRegister_eq_of_area _ _ _ _ i.isLt
  intro offset lower upper
  rw [hllHdrSize] at lower upper
  exact same.bytes offset (by omega) (Or.inr lower)

theorem WellFormed.registers_sameButCard {o next : Robj} (formed : WellFormed o)
    (same : SameButCard o next) : registers next = registers o := by
  cases formed.body with
  | inl dense => exact (same.dense dense).2
  | inr sparse => exact (same.sparse sparse).2

theorem Valid.registers_sameButCard {env : Env} {o next : Robj} (valid : Valid env o)
    (same : SameButCard o next) : registers next = registers o :=
  valid.wellFormed.registers_sameButCard same

theorem WellFormed.of_sameButCard {o next : Robj} (formed : WellFormed o)
    (same : SameButCard o next) : WellFormed next := by
  have long := formed.long
  refine ⟨?_, ?_⟩
  · rw [← formed.magic]
    apply readBytes_congr
    intro offset _lower upper
    exact same.bytes offset (by omega) (by omega)
  · cases formed.body with
    | inl dense => exact Or.inl (same.dense dense).1
    | inr sparse => exact Or.inr (same.sparse sparse).1

theorem Valid.of_sameButCard {env : Env} {o next : Robj} (valid : Valid env o)
    (same : SameButCard o next) (terminated : next.ptr.buf next.ptr.len = 0) :
    Valid env next := by
  have long := valid.long
  refine ⟨(valid.wellFormed.of_sameButCard same).magic, ?_, terminated, ?_⟩
  · rw [← valid.notused]
    apply readBytes_congr
    intro offset _lower upper
    exact same.bytes offset (by omega) (by omega)
  · rcases valid.body with ⟨dense, bounded⟩ | ⟨sparse, short⟩
    · obtain ⟨denseNext, vector⟩ := same.dense dense
      exact Or.inl ⟨denseNext, by rw [vector]; exact bounded⟩
    · exact Or.inr ⟨(same.sparse sparse).1, by rw [same.len]; exact short⟩

theorem Valid.cachedCard_sameString {env : Env} {o next : Robj} (valid : Valid env o)
    (same : SameString o next) : cachedCard next.ptr.buf = cachedCard o.ptr.buf := by
  have long := valid.long
  exact cachedCard_congr _ _ fun offset _ upper => same.bytes offset (by omega)

theorem invalidate_buf (o : Robj) : (invalidate o).ptr.buf = hllInvalidateCache o.ptr.buf := rfl

theorem encoding_invalidate (o : Robj) : encoding (invalidate o).ptr.buf = encoding o.ptr.buf := by
  rw [encoding, encoding, invalidate_buf, hllInvalidateCache, store_other _ _ _ _ (by omega)]

theorem invalidate_valid {env : Env} {o : Robj} (valid : Valid env o) :
    Valid env (invalidate o) := by
  have long := valid.long
  refine valid.of_sameButCard (sameButCard_invalidate o) ?_
  have lenEq : (invalidate o).ptr.len = o.ptr.len := rfl
  rw [invalidate_buf, lenEq, hllInvalidateCache, store_other _ _ _ _ (by omega), valid.terminated]

/-! ### Bounds -/

theorem expandAll_le (opcodes : List Opcode) : ∀ value ∈ expandAll opcodes, value ≤ 32 := by
  induction opcodes with
  | nil => simp
  | cons opcode opcodes ih =>
      intro value member
      rw [expandAll_cons, List.mem_append] at member
      rcases member with inRun | later
      · rw [List.eq_of_mem_replicate inRun]
        exact opcode.value_le
      · exact ih value later

theorem SparseObject.registers_le {o : Robj} (sparse : SparseObject o) (i : Fin 16384) :
    registers o i ≤ 32 := by
  rw [registers_of_sparse o sparse.notDense, List.getD_eq_getElem?_getD]
  cases found : (expandAll (payloadOpcodes o.ptr))[(i : Nat)]? with
  | none => exact Nat.zero_le _
  | some value => exact expandAll_le _ value (List.mem_of_getElem? found)

theorem Valid.registers_le {env : Env} {o : Robj} (valid : Valid env o) (i : Fin 16384) :
    registers o i ≤ 50 := by
  rcases valid.body with ⟨_, bounded⟩ | ⟨sparse, _⟩
  · exact bounded i
  · exact Nat.le_trans (sparse.registers_le i) (by decide)

/-! ### The check of the header, dump and reload -/

theorem accepted_iff (o : Robj) :
    isHLLObjectOrReply (some o) = cOk ↔
      hllHdrSize ≤ o.ptr.len ∧ readBytes o.ptr.buf 0 4 = hllMagic ∧
        encoding o.ptr.buf ≤ hllMaxEncoding ∧
        (encoding o.ptr.buf = hllDense → o.ptr.len = hllDenseSize) := by
  have refused : ¬cErr = cOk := fun same => cOk_ne_cErr same.symm
  rw [isHLLObjectOrReply]
  split
  · rename_i short
    exact iff_of_false refused fun all => Nat.not_le_of_lt short all.1
  · rename_i long
    split
    · rename_i other
      exact iff_of_false refused fun all => other all.2.1
    · rename_i magic
      split
      · rename_i unknown
        exact iff_of_false refused fun all => BitVec.not_le.mpr unknown all.2.2.1
      · rename_i known
        split
        · rename_i wrong
          exact iff_of_false refused fun all => wrong.2 (all.2.2.2 wrong.1)
        · rename_i sized
          refine iff_of_true rfl ⟨Nat.le_of_not_lt long, not_not.mp magic,
            BitVec.not_lt.mp known, fun dense => ?_⟩
          by_contra wrong
          exact sized ⟨dense, wrong⟩

theorem WellFormed.accepted {o : Robj} (formed : WellFormed o) :
    isHLLObjectOrReply (some o) = cOk := by
  refine (accepted_iff o).mpr ⟨formed.long, formed.magic, ?_⟩
  cases formed.body with
  | inl dense =>
      rw [dense.1]
      exact ⟨by decide, fun _ => dense.2⟩
  | inr sparse =>
      rw [sparse.1]
      exact ⟨by decide, fun same => absurd (sparse.1.trans same) sparse.notDense⟩

theorem Valid.accepted {env : Env} {o : Robj} (valid : Valid env o) :
    isHLLObjectOrReply (some o) = cOk := valid.wellFormed.accepted

theorem sameString_sdsdup (env : Env) (o : Robj) : SameString o { ptr := sdsdup env o.ptr } :=
  ⟨sdsdup_len env o.ptr, fun offset inside => sdsdup_buf env o.ptr offset inside⟩

theorem sdsdup_terminated (env : Env) (s : Sds) : (sdsdup env s).buf (sdsdup env s).len = 0 := by
  have marked := sdsnewlen_terminator env s.bytes
  rw [Sds.bytes_length] at marked
  rw [sdsdup_len, sdsdup, marked]

theorem sdsdup_valid {env : Env} {o : Robj} (valid : Valid env o) :
    Valid env { ptr := sdsdup env o.ptr } :=
  valid.of_sameButCard (sameString_sdsdup env o).sameButCard (sdsdup_terminated env o.ptr)

theorem hllLoad_of_accepted (env : Env) (raw : Sds)
    (accepted : isHLLObjectOrReply (some { ptr := sdsdup env raw }) = cOk) :
    hllLoad env raw = (cOk, some { ptr := sdsdup env raw }) := by
  rw [hllLoad]
  simp only [accepted, if_pos cOk_ne_cErr]

theorem hllLoad_spec {env : Env} {o : Robj} (valid : Valid env o) :
    hllLoad env o.ptr = (cOk, some { ptr := sdsdup env o.ptr }) :=
  hllLoad_of_accepted env o.ptr (sdsdup_valid valid).accepted

/-! ### Creation -/

private theorem hllCreateLoop_registers (memory : Memory) (p : Nat) :
    hllCreateLoop memory p hllRegisters =
      (memcpy memory p (Opcode.xzero 63 255).encode, p + 2) := by
  have notZero : ¬hllRegisters = 0 := by decide
  have notMore : ¬hllSparseXzeroMaxLen > hllRegisters := by decide
  have bytes : hllSparseXzeroSet (hllSparseXzeroMaxLen : Int) = (Opcode.xzero 63 255).encode := by
    decide
  have done : hllRegisters - hllSparseXzeroMaxLen = 0 := by decide
  rw [hllCreateLoop, if_neg notZero]
  simp only [if_neg notMore, bytes, done]
  rw [hllCreateLoop, if_pos rfl]

def created (env : Env) : Robj :=
  { ptr :=
      { sdsnewlenZero env 18 with
        buf :=
          setEncoding
            (memcpy (memcpy (sdsnewlenZero env 18).buf hllHdrSize (Opcode.xzero 63 255).encode) 0
              hllMagic) hllSparse } }

theorem hllCreate_eq (env : Env) : hllCreate env = .ok (created env) := by
  have sparselen : hllHdrSize + (hllRegisters + (hllSparseXzeroMaxLen - 1)) /
      hllSparseXzeroMaxLen * 2 = 18 := by decide
  rw [hllCreate]
  simp only [sparselen, hllCreateLoop_registers]
  rw [if_pos (by decide)]
  rfl

private theorem created_buf (env : Env) :
    (created env).ptr.buf =
      store (memcpy (memcpy (sdsnewlenZero env 18).buf hllHdrSize (Opcode.xzero 63 255).encode) 0
        hllMagic) 4 hllSparse := rfl

private theorem created_zero (env : Env) (offset : Nat) (lower : 5 ≤ offset) (upper : offset < 16) :
    (created env).ptr.buf offset = 0 := by
  have magicLength : hllMagic.length = 4 := rfl
  have zeroed : (sdsnewlenZero env 18).buf offset = 0 := if_pos (by omega)
  rw [created_buf, store_other _ _ _ _ (by omega), memcpy_above _ _ _ _ (by omega),
    memcpy_below _ _ _ _ (by rw [hllHdrSize]; omega), zeroed]

private theorem created_encoded (env : Env) :
    EncodedAt (created env).ptr.buf hllHdrSize (created env).ptr.len [Opcode.xzero 63 255] := by
  refine ⟨rfl, ?_⟩
  have block : readBytes (created env).ptr.buf hllHdrSize 2 =
      readBytes (memcpy (sdsnewlenZero env 18).buf hllHdrSize (Opcode.xzero 63 255).encode)
        hllHdrSize 2 := by
    rw [created_buf, readBytes_store_outside _ _ _ _ _ (Or.inl (by decide)),
      readBytes_memcpy_outside _ _ _ _ _ (Or.inr (by decide))]
  exact block.trans (readBytes_memcpy _ _ _)

theorem created_sparse (env : Env) : SparseObject (created env) :=
  ⟨by rw [encoding, created_buf, store_same],
    (created_encoded env).sparsePayload (by decide)⟩

theorem created_payload (env : Env) :
    payloadOpcodes (created env).ptr = [Opcode.xzero 63 255] := (created_encoded env).payload

theorem created_valid (env : Env) : Valid env (created env) := by
  refine ⟨?_, ?_, ?_, Or.inr ⟨created_sparse env, Nat.le_max_left _ _⟩⟩
  · rw [created_buf, readBytes_store_outside _ _ _ _ _ (Or.inr (by decide))]
    exact readBytes_memcpy _ 0 hllMagic
  · simp only [readBytes_succ, readBytes_zero]
    rw [created_zero env 5 (by omega) (by omega), created_zero env 6 (by omega) (by omega),
      created_zero env 7 (by omega) (by omega)]
  · have zeroed : (sdsnewlenZero env 18).buf 18 = 0 := by
      simp only [sdsnewlenZero, Nat.le_refl, if_true]
    change (created env).ptr.buf 18 = 0
    rw [created_buf, store_other _ _ _ _ (by omega), memcpy_above _ _ _ _ (by decide),
      memcpy_above _ _ _ _ (by decide), zeroed]

theorem registers_created (env : Env) : registers (created env) = ⊥ := by
  have covered : (Opcode.xzero 63 255).length = 16384 := by decide
  funext i
  rw [registers_of_sparse _ (created_sparse env).notDense, created_payload,
    expandAll_singleton, covered, List.getD_replicate _ i.isLt]
  rfl

theorem cachedCard_created (env : Env) : cachedCard (created env).ptr.buf = some 0 := by
  have zero : ∀ offset, 8 ≤ offset → offset < 16 →
      (created env).ptr.buf offset = (fun _ => 0 : Memory) offset :=
    fun offset lower upper => created_zero env offset (by omega) upper
  rw [cachedCard_congr (fun _ => 0) (created env).ptr.buf zero]
  decide

/-! ### A payload of other origin -/

/-- This code does not write an XZERO of length 1 beside a ZERO; a VAL and an XZERO
follow them. -/
def foreignOpcodes : List Opcode := [.xzero 0 0, .zero 63, .val 0 0, .xzero 63 189]

def foreign : Robj := { ptr := sparseString (encodeAll foreignOpcodes) }

theorem foreign_sparse : SparseObject foreign := ⟨by decide, by decide +kernel⟩

theorem foreign_payload : payloadOpcodes foreign.ptr = foreignOpcodes := by decide +kernel

theorem foreign_formed : WellFormed foreign := ⟨by decide, Or.inr foreign_sparse⟩

/-! ### Promotion -/

theorem hllSparseToDense_spec {env : Env} {o : Robj} (valid : Valid env o) :
    ∃ next, hllSparseToDense env o = (cOk, next) ∧ Valid env next ∧ DenseObject next ∧
      registers next = registers o ∧ HeaderKept o.ptr.buf next.ptr.buf ∧
      cachedCard next.ptr.buf = cachedCard o.ptr.buf := by
  rcases valid.body with ⟨dense, bounded⟩ | ⟨sparse, _⟩
  · exact ⟨o, hllSparseToDense_dense env o dense.1, valid, dense, rfl, HeaderKept.refl _, rfl⟩
  · have vector := registers_promoted env o sparse.notDense sparse.2.covered
    have object : DenseObject (promoted env o.ptr) :=
      ⟨promoted_encoding env o.ptr, promoted_len env o.ptr⟩
    have kept : HeaderKept o.ptr.buf (promoted env o.ptr).ptr.buf :=
      ⟨fun offset inside notEncoding _ => promoted_header env o.ptr offset inside notEncoding,
        Or.inl (promoted_header env o.ptr 15 (by omega) (by omega))⟩
    refine ⟨promoted env o.ptr, hllSparseToDense_sparse env o sparse.notDense sparse.2.covered,
      ?_, object, vector, kept, ?_⟩
    · refine valid.of_headerKept kept ?_ (Or.inl ⟨object, ?_⟩)
      · rw [promoted_len, promoted_terminated]
      · rw [vector]
        exact valid.registers_le
    · exact cachedCard_congr _ _ fun offset _ upper =>
        promoted_header env o.ptr offset upper (by omega)

end PhpHll
