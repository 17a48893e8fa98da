/-
The exported operations on valid objects.

An add raises the register vector by its elements, a count returns the estimate
of the vector or the cached one, and a merge writes the least upper bound of
the vectors of its sources.  None of them fails, and each keeps the invariant.
-/

import PhpHll.Invariant

namespace PhpHll

open ByteMemory

/-! ### Adding -/

/-- The same bytes; only the free room of the string may differ. -/
structure SameBytes (first second : Robj) : Prop where
  len : second.ptr.len = first.ptr.len
  buf : second.ptr.buf = first.ptr.buf

theorem SameBytes.refl (o : Robj) : SameBytes o o := ⟨rfl, rfl⟩

theorem SameBytes.trans {first second third : Robj} (left : SameBytes first second)
    (right : SameBytes second third) : SameBytes first third :=
  ⟨right.len.trans left.len, right.buf.trans left.buf⟩

theorem SameBytes.sameString {first second : Robj} (same : SameBytes first second) :
    SameString first second :=
  ⟨same.len, fun _ _ => by rw [same.buf]⟩

theorem SameBytes.bytes {first second : Robj} (same : SameBytes first second) :
    second.ptr.bytes = first.ptr.bytes := by
  rw [Sds.bytes, Sds.bytes, same.len, same.buf]

theorem WellFormed.of_sameBytes {o next : Robj} (formed : WellFormed o)
    (same : SameBytes o next) : WellFormed next :=
  formed.of_sameButCard same.sameString.sameButCard

theorem WellFormed.registers_sameBytes {o next : Robj} (formed : WellFormed o)
    (same : SameBytes o next) : registers next = registers o :=
  formed.registers_sameButCard same.sameString.sameButCard

theorem Valid.of_sameBytes {env : Env} {o next : Robj} (valid : Valid env o)
    (same : SameBytes o next) : Valid env next :=
  valid.of_sameButCard same.sameString.sameButCard (by rw [same.buf, same.len, valid.terminated])

theorem Valid.registers_sameBytes {env : Env} {o next : Robj} (valid : Valid env o)
    (same : SameBytes o next) : registers next = registers o :=
  valid.wellFormed.registers_sameBytes same

private theorem insert_le (vector : Fin 16384 → Nat) (ele : List Byte)
    (bounded : ∀ i, vector i ≤ 50) (i : Fin 16384) : patternObserver.insert vector ele i ≤ 50 := by
  have bounds := hllPatLen_count_bounds ele
  have small := bounded i
  rw [insert_apply]
  split <;> omega

/-- One add to a well-formed object: the register is high enough, or it is
raised, in place or with a promotion. -/
theorem hllAdd_cases (env : Env) {o : Robj} (body : DenseObject o ∨ SparseObject o)
    (ele : List Byte) :
    ((hllPatLen ele).count ≤ registers o (registerOf ele) ∧
        ∃ next, hllAdd env o ele = .ok (0, next) ∧ SameBytes o next) ∨
      (registers o (registerOf ele) < (hllPatLen ele).count ∧
        ∃ next, hllAdd env o ele = .ok (1, next) ∧ Raised o next ele ∧
          (DenseObject next ∨ SparseObject o ∧ SparseObject next ∧
            next.ptr.len ≤ max o.ptr.len env.hll_sparse_max_bytes)) := by
  cases body with
  | inl dense =>
      have added := hllDenseAdd_object o ele dense.1
      by_cases raises : registers o (registerOf ele) < (hllPatLen ele).count
      · rw [if_pos raises] at added
        refine Or.inr ⟨raises, raiseDense o ele, ?_,
          ⟨registers_raiseDense o ele dense.1 raises, raiseDense_headerKept o ele, ?_⟩,
          Or.inl ⟨?_, dense.2⟩⟩
        · rw [hllAdd, if_pos dense.1, added, raiseDense]
        · intro terminated
          have lenEq : (raiseDense o ele).ptr.len = 12304 := dense.2
          rw [dense.2, hllDenseSize_eq] at terminated
          rw [lenEq, raiseDense_outside o ele 12304 (Or.inr (Nat.le_refl _)), terminated]
        · rw [raiseDense_encoding, dense.1]
      · rw [if_neg raises] at added
        refine Or.inl ⟨Nat.le_of_not_lt raises, o, ?_, SameBytes.refl o⟩
        rw [hllAdd, if_pos dense.1, added]
  | inr sparse =>
      have isSparse : hllAdd env o ele = hllSparseAdd env o ele := by
        rw [hllAdd, if_neg sparse.notDense, if_pos sparse.1]
      rw [isSparse]
      rcases hllSparseAdd_spec env o ele sparse with
        ⟨enough, kept⟩ | ⟨raises, next, added, raised, bodyNext⟩
      · exact Or.inl ⟨enough, _, kept, ⟨sdsMakeRoomFor_len _ _, sdsMakeRoomFor_buf _ _⟩⟩
      · refine Or.inr ⟨raises, next, added, raised, ?_⟩
        cases bodyNext with
        | inl denseNext => exact Or.inl denseNext
        | inr sparseNext => exact Or.inr ⟨sparse, sparseNext⟩

/-- What carries an add to a well-formed object over to the next one. -/
theorem hllAdd_formed (env : Env) {o : Robj} (formed : WellFormed o) (ele : List Byte) :
    ((hllPatLen ele).count ≤ registers o (registerOf ele) ∧
        ∃ next, hllAdd env o ele = .ok (0, next) ∧ SameBytes o next) ∨
      (registers o (registerOf ele) < (hllPatLen ele).count ∧
        ∃ next, hllAdd env o ele = .ok (1, next) ∧ WellFormed next ∧
          (Valid env o → Valid env next) ∧
          registers next = patternObserver.insert (registers o) ele ∧
          HeaderKept o.ptr.buf next.ptr.buf) := by
  rcases hllAdd_cases env formed.body ele with kept | ⟨raises, next, added, raised, body⟩
  · exact Or.inl kept
  · refine Or.inr ⟨raises, next, added, ⟨?_, ?_⟩, fun valid => ?_, raised.registers,
      raised.header⟩
    · rw [← formed.magic]
      apply readBytes_congr
      intro offset _lower upper
      exact raised.header.same offset (by omega) (by omega) (by omega)
    · cases body with
      | inl denseNext => exact Or.inl denseNext
      | inr stays => exact Or.inr stays.2.1
    · apply valid.of_headerKept raised.header (raised.terminated valid.terminated)
      cases body with
      | inl denseNext =>
          refine Or.inl ⟨denseNext, ?_⟩
          rw [raised.registers]
          exact insert_le _ ele valid.registers_le
      | inr stays =>
          obtain ⟨sparse, sparseNext, shortNext⟩ := stays
          refine Or.inr ⟨sparseNext, ?_⟩
          rcases valid.body with ⟨dense, _bounded⟩ | ⟨_sparse, short⟩
          · exact absurd dense.1 sparse.notDense
          · omega

theorem hllAdd_spec {env : Env} {o : Robj} (valid : Valid env o) (ele : List Byte) :
    ((hllPatLen ele).count ≤ registers o (registerOf ele) ∧
        ∃ next, hllAdd env o ele = .ok (0, next) ∧ SameBytes o next) ∨
      (registers o (registerOf ele) < (hllPatLen ele).count ∧
        ∃ next, hllAdd env o ele = .ok (1, next) ∧ Valid env next ∧
          registers next = patternObserver.insert (registers o) ele ∧
          HeaderKept o.ptr.buf next.ptr.buf) := by
  rcases hllAdd_formed env valid.wellFormed ele with
    kept | ⟨raises, next, added, _formed, validNext, change⟩
  · exact Or.inl kept
  · exact Or.inr ⟨raises, next, added, validNext valid, change⟩

/-- What a batch that changes the registers leaves. -/
structure Grown (env : Env) (o next : Robj) (eles : List (List Byte)) : Prop where
  formed : WellFormed next
  valid : Valid env o → Valid env next
  registers : registers next = eles.foldl patternObserver.insert (registers o)
  header : HeaderKept o.ptr.buf next.ptr.buf
  stale : cachedCard next.ptr.buf = none

/-- The loop of `pfAddMany`: either nothing has changed so far and nothing
does, or the batch ends with the cache marked stale. -/
theorem pfAddManyLoop_spec (env : Env) (eles : List (List Byte)) (updated : Nat) {o : Robj}
    (formed : WellFormed o) :
    (updated = 0 ∧ eles.foldl patternObserver.insert (registers o) = registers o ∧
        ∃ next, pfAddManyLoop env eles updated o = .ok (0, next) ∧ SameBytes o next) ∨
      ((0 < updated ∨ eles.foldl patternObserver.insert (registers o) ≠ registers o) ∧
        ∃ next, pfAddManyLoop env eles updated o = .ok (1, next) ∧ Grown env o next eles) := by
  induction eles generalizing updated o with
  | nil =>
      rcases Nat.eq_zero_or_pos updated with none | some
      · refine Or.inl ⟨none, rfl, o, ?_, SameBytes.refl o⟩
        rw [pfAddManyLoop, if_neg (by omega)]
      · refine Or.inr ⟨Or.inl some, invalidate o, ?_,
          formed.of_sameButCard (sameButCard_invalidate o), invalidate_valid, ?_, ?_, ?_⟩
        · rw [pfAddManyLoop, if_pos some]
        · exact formed.registers_sameButCard (sameButCard_invalidate o)
        · exact headerKept_hllInvalidateCache o.ptr.buf
        · exact cachedCard_hllInvalidateCache o.ptr.buf
  | cons ele eles ih =>
      have notErr : ¬(0 : Int) = -1 := by decide
      have notErr' : ¬(1 : Int) = -1 := by decide
      have notOne : ¬(0 : Int) = 1 := by decide
      rcases hllAdd_formed env formed ele with
        ⟨enough, next, added, same⟩ | ⟨raises, next, added, formedNext, validNext, vector, kept⟩
      · have covered := (insert_eq_self (registers o) ele).mpr enough
        have vector := formed.registers_sameBytes same
        have step : pfAddManyLoop env (ele :: eles) updated o =
            pfAddManyLoop env eles updated next := by
          rw [pfAddManyLoop, added]
          simp only [if_neg notErr, if_neg notOne]
        rw [step, List.foldl_cons, covered, ← vector]
        rcases ih updated (formed.of_sameBytes same) with
          ⟨none, unchanged, last, ran, sameLast⟩ | ⟨some, last, ran, grown⟩
        · exact Or.inl ⟨none, unchanged, last, ran, same.trans sameLast⟩
        · refine Or.inr ⟨some, last, ran, grown.formed,
            fun valid => grown.valid (valid.of_sameBytes same), ?_, ?_, grown.stale⟩
          · rw [grown.registers, List.foldl_cons, ← vector, vector, covered]
          · rw [← same.buf]
            exact grown.header
      · have step : pfAddManyLoop env (ele :: eles) updated o =
            pfAddManyLoop env eles (updated + 1) next := by
          rw [pfAddManyLoop, added]
          simp only [if_neg notErr', if_true]
        have changed : (ele :: eles).foldl patternObserver.insert (registers o) ≠ registers o := by
          intro same
          rw [patternObserver.foldl_insert_eq_self_iff] at same
          exact Nat.not_le_of_lt raises (same ele (List.mem_cons_self ..))
        rw [step]
        rcases ih (updated + 1) formedNext with ⟨none, _⟩ | ⟨_, last, ran, grown⟩
        · omega
        · refine Or.inr ⟨Or.inr changed, last, ran, grown.formed,
            fun valid => grown.valid (validNext valid), ?_, kept.trans grown.header, grown.stale⟩
          rw [grown.registers, vector, List.foldl_cons]

theorem pfAdd_eq_pfAddMany (env : Env) (o : Option Robj) (ele : List Byte) :
    pfAdd env o ele = pfAddMany env o [ele] := by
  cases o with
  | none => rfl
  | some o =>
      rw [pfAdd, pfAddMany]
      by_cases rejected : isHLLObjectOrReply (some o) ≠ cOk
      · rw [if_pos rejected, if_pos rejected]
      · rw [if_neg rejected, if_neg rejected, pfAddManyLoop]
        cases hllAdd env o ele with
        | error abort => rfl
        | ok pair =>
            obtain ⟨retval, next⟩ := pair
            by_cases failed : retval = -1
            · simp only [if_pos failed]
            · by_cases changed : retval = 1
              · simp only [if_neg failed, if_pos changed, pfAddManyLoop]
                rfl
              · simp only [if_neg failed, if_neg changed, pfAddManyLoop]
                rfl

/-- What `pfAdd` makes of the three answers of the low-level add. -/
theorem pfAdd_cases {env : Env} {o : Robj} {ele : List Byte} {retval : Int} {next : Option Robj}
    (accepted : isHLLObjectOrReply (some o) = cOk)
    (ran : pfAdd env (some o) ele = .ok (retval, next)) :
    ∃ status object, hllAdd env o ele = .ok (status, object) ∧
      (status = -1 ∧ retval = cErr ∧ next = some object ∨
        status = 1 ∧ retval = 1 ∧ next = some (invalidate object) ∨
        status ≠ -1 ∧ status ≠ 1 ∧ retval = 0 ∧ next = some object) := by
  rw [pfAdd, if_neg (not_not.mpr accepted)] at ran
  cases added : hllAdd env o ele with
  | error abort =>
      rw [added] at ran
      cases ran
  | ok result =>
      obtain ⟨status, object⟩ := result
      rw [added] at ran
      simp only at ran
      refine ⟨status, object, rfl, ?_⟩
      by_cases failed : status = -1
      · rw [if_pos failed] at ran
        cases ran
        exact Or.inl ⟨failed, rfl, rfl⟩
      · rw [if_neg failed] at ran
        by_cases changed : status = 1
        · rw [if_pos changed] at ran
          cases ran
          exact Or.inr (Or.inl ⟨changed, rfl, rfl⟩)
        · rw [if_neg changed] at ran
          cases ran
          exact Or.inr (Or.inr ⟨failed, changed, rfl, rfl⟩)

theorem pfAddMany_formed (env : Env) {o : Robj} (formed : WellFormed o)
    (eles : List (List Byte)) :
    (eles.foldl patternObserver.insert (registers o) = registers o ∧
        ∃ next, pfAddMany env (some o) eles = .ok (0, some next) ∧ SameBytes o next) ∨
      (eles.foldl patternObserver.insert (registers o) ≠ registers o ∧
        ∃ next, pfAddMany env (some o) eles = .ok (1, some next) ∧ Grown env o next eles) := by
  have accepted : ¬isHLLObjectOrReply (some o) ≠ cOk := not_not.mpr formed.accepted
  rcases pfAddManyLoop_spec env eles 0 formed with
    ⟨_, unchanged, next, ran, same⟩ | ⟨changed, next, ran, grown⟩
  · refine Or.inl ⟨unchanged, next, ?_, same⟩
    rw [pfAddMany]
    simp only [if_neg accepted, ran]
  · refine Or.inr ⟨changed.resolve_left (Nat.lt_irrefl 0), next, ?_, grown⟩
    rw [pfAddMany]
    simp only [if_neg accepted, ran]

theorem pfAddMany_spec {env : Env} {o : Robj} (valid : Valid env o) (eles : List (List Byte)) :
    (eles.foldl patternObserver.insert (registers o) = registers o ∧
        ∃ next, pfAddMany env (some o) eles = .ok (0, some next) ∧ SameBytes o next) ∨
      (eles.foldl patternObserver.insert (registers o) ≠ registers o ∧
        ∃ next, pfAddMany env (some o) eles = .ok (1, some next) ∧ Grown env o next eles) :=
  pfAddMany_formed env valid.wellFormed eles

/-! ### Counting -/

/-- The count of a register vector: the estimate of its exact register sum. -/
def countOf (env : Env) (vector : Fin 16384 → Nat) : BitVec 64 :=
  env.estimate (registerSum vector).E (registerSum vector).ez

theorem hllCount_spec (env : Env) {o : Robj} (formed : WellFormed o) :
    hllCount env o.ptr.buf o.ptr.len = .ok (countOf env (registers o), false) := by
  rcases formed.body with dense | sparse
  · have vector : registers o = fun i : Fin 16384 => denseRegister o.ptr.buf hllHdrSize i := by
      funext i
      exact registers_of_dense o dense.1 i
    rw [hllCount, if_pos dense.1, hllDenseSum_eq, ← vector]
    rfl
  · have sum := hllSparseSum_eq o formed.long sparse.notDense sparse.2.covered
    rw [hllCount, if_neg sparse.notDense, if_pos sparse.1]
    simp only [sum]
    rfl

theorem cachedCard_writeCard (memory : Memory) (card : BitVec 64) :
    cachedCard (writeCard memory card) = if card.getLsbD 63 then none else some card := by
  have written := readCard_writeCard memory card
  have validity := hllValidCache_iff (writeCard memory card)
  rw [written] at validity
  rw [cachedCard, written]
  cases top : card.getLsbD 63 with
  | true =>
      have stale : ¬hllValidCache (writeCard memory card) = true := fun isValid => by
        rw [validity, top] at isValid
        cases isValid
      rw [if_neg stale, if_pos rfl]
  | false =>
      rw [if_pos (validity.mpr top)]
      rfl

def counted (o : Robj) (card : BitVec 64) : Robj :=
  { ptr := { o.ptr with buf := writeCard o.ptr.buf card } }

theorem counted_valid {env : Env} {o : Robj} (valid : Valid env o) (card : BitVec 64) :
    Valid env (counted o card) := by
  have long := valid.long
  refine valid.of_sameButCard (sameButCard_writeCard o card) ?_
  exact (writeCard_outside o.ptr.buf card o.ptr.len (Or.inr long)).trans valid.terminated

/-- `pfCount` on a well-formed object: the cached cardinality if there is one, and
otherwise the count of the registers, which becomes the cached one. -/
theorem pfCount_spec (env : Env) {o : Robj} (formed : WellFormed o) :
    pfCount env (some o) =
      match cachedCard o.ptr.buf with
      | some card => .ok (.card card, some o)
      | none =>
          .ok (.card (countOf env (registers o)),
            some (counted o (countOf env (registers o)))) := by
  have accepted : ¬isHLLObjectOrReply (some o) ≠ cOk := not_not.mpr formed.accepted
  have count := hllCount_spec env formed
  rw [pfCount, if_neg accepted, cachedCard]
  simp only
  by_cases cached : hllValidCache o.ptr.buf = true
  · simp only [if_pos cached]
  · simp only [if_neg cached, count, Bool.false_eq_true, if_false]
    rfl

/-! ### Merging -/

/-- The register vector of an argument: a NULL handle stands for an empty HLL. -/
def vectorOf (heap : Heap) : Hll → Fin 16384 → Nat
  | none => ⊥
  | some handle => registers (heap handle)

def mergedVector (heap : Heap) (hlls : List Hll) : Fin 16384 → Nat :=
  (hlls.map (vectorOf heap)).foldr (· ⊔ ·) ⊥

def AllValid (env : Env) (heap : Heap) (hlls : List Hll) : Prop :=
  ∀ handle, some handle ∈ hlls → Valid env (heap handle)

def arrayAt (base : Nat) (memory : Memory) (i : Fin 16384) : Nat := (memory (base + i)).toNat

theorem mergedVector_cons (heap : Heap) (hll : Hll) (hlls : List Hll) :
    mergedVector heap (hll :: hlls) = vectorOf heap hll ⊔ mergedVector heap hlls := rfl

theorem mergedVector_le_iff (heap : Heap) (hlls : List Hll) (bound : Fin 16384 → Nat) :
    mergedVector heap hlls ≤ bound ↔ ∀ hll ∈ hlls, vectorOf heap hll ≤ bound := by
  induction hlls with
  | nil =>
      simp only [List.not_mem_nil, false_implies, implies_true, iff_true]
      exact bot_le
  | cons hll hlls ih => rw [mergedVector_cons, sup_le_iff, ih, List.forall_mem_cons]

theorem mergedVector_le {env : Env} {heap : Heap} {hlls : List Hll}
    (valid : AllValid env heap hlls) (i : Fin 16384) : mergedVector heap hlls i ≤ 50 := by
  refine (mergedVector_le_iff heap hlls fun _ => 50).mpr (fun hll member => ?_) i
  cases hll with
  | none => exact fun _ => Nat.zero_le _
  | some handle => exact (valid handle member).registers_le

private theorem arrayAt_hllMerge (base : Nat) (array : Memory) (hll : Robj)
    (readable : Readable hll) :
    (hllMerge array base hll).1 = cOk ∧
      arrayAt base (hllMerge array base hll).2 = arrayAt base array ⊔ registers hll ∧
      ∀ offset, offset < base → (hllMerge array base hll).2 offset = array offset := by
  obtain ⟨status, merged, outside⟩ := hllMerge_spec array base hll readable
  exact ⟨status, funext merged, fun offset below => outside offset (Or.inl below)⟩

theorem pfMergeLoop_spec {env : Env} (heap : Heap) (hlls : List Hll) (array : Memory)
    (valid : AllValid env heap hlls) :
    ∃ final, pfMergeLoop heap hlls array = some final ∧
      arrayAt 0 final = arrayAt 0 array ⊔ mergedVector heap hlls := by
  induction hlls generalizing array with
  | nil => exact ⟨array, rfl, (sup_bot_eq _).symm⟩
  | cons hll hlls ih =>
      have validRest : AllValid env heap hlls :=
        fun handle member => valid handle (List.mem_cons_of_mem _ member)
      cases hll with
      | none =>
          obtain ⟨final, ran, merged⟩ := ih array validRest
          refine ⟨final, ran, ?_⟩
          rw [merged, mergedVector_cons, vectorOf, bot_sup_eq]
      | some handle =>
          obtain ⟨status, merged, _⟩ := arrayAt_hllMerge 0 array (heap handle)
            (valid handle (List.mem_cons_self ..)).wellFormed.readable
          obtain ⟨final, ran, mergedRest⟩ := ih (hllMerge array 0 (heap handle)).2 validRest
          refine ⟨final, ?_, ?_⟩
          · rw [pfMergeLoop]
            simp only [status, if_neg cOk_ne_cErr]
            exact ran
          · rw [mergedRest, merged, mergedVector_cons, vectorOf, sup_assoc]

theorem pfCountMergedLoop_spec (heap : Heap) (hlls : List Hll) (array : Memory)
    (formed : ∀ handle, some handle ∈ hlls → WellFormed (heap handle)) :
    ∃ final, pfCountMergedLoop heap hlls array = some final ∧
      arrayAt hllHdrSize final = arrayAt hllHdrSize array ⊔ mergedVector heap hlls ∧
      encoding final = encoding array := by
  induction hlls generalizing array with
  | nil => exact ⟨array, rfl, (sup_bot_eq _).symm, rfl⟩
  | cons hll hlls ih =>
      have formedRest : ∀ handle, some handle ∈ hlls → WellFormed (heap handle) :=
        fun handle member => formed handle (List.mem_cons_of_mem _ member)
      cases hll with
      | none =>
          obtain ⟨final, ran, merged, kept⟩ := ih array formedRest
          refine ⟨final, ran, ?_, kept⟩
          rw [merged, mergedVector_cons, vectorOf, bot_sup_eq]
      | some handle =>
          have source := formed handle (List.mem_cons_self ..)
          have accepted : ¬isHLLObjectOrReply (some (heap handle)) ≠ cOk :=
            not_not.mpr source.accepted
          obtain ⟨status, merged, below⟩ := arrayAt_hllMerge hllHdrSize array (heap handle)
            source.readable
          obtain ⟨final, ran, mergedRest, kept⟩ :=
            ih (hllMerge array hllHdrSize (heap handle)).2 formedRest
          refine ⟨final, ?_, ?_, ?_⟩
          · rw [pfCountMergedLoop, if_neg accepted]
            simp only [status, if_neg cOk_ne_cErr]
            exact ran
          · rw [mergedRest, merged, mergedVector_cons, vectorOf, sup_assoc]
          · rw [kept, encoding, encoding, below 4 (by decide)]

private theorem writeRegisters_upTo (hdr array : Memory) (count : Nat) (fits : count ≤ 16384)
    (small : ∀ j, j < 16384 → (array j).toNat < 64) :
    (∀ j, denseRegister
        ((List.range count).foldl
          (fun hdr j => hllDenseSetRegister hdr hllHdrSize j ((array j).setWidth 64)) hdr)
          hllHdrSize j =
        if j < count then (array j).toNat else denseRegister hdr hllHdrSize j) ∧
      ∀ offset, offset < 16 ∨ 12304 ≤ offset →
        (List.range count).foldl
          (fun hdr j => hllDenseSetRegister hdr hllHdrSize j ((array j).setWidth 64)) hdr offset =
        hdr offset := by
  induction count with
  | zero => exact ⟨fun j => (if_neg (Nat.not_lt_zero j)).symm, fun _ _ => rfl⟩
  | succ count ih =>
      obtain ⟨written, outside⟩ := ih (by omega)
      have wide : ((array count).setWidth 64).toNat = (array count).toNat := by
        have bound := (array count).isLt
        rw [BitVec.toNat_setWidth, Nat.mod_eq_of_lt (by omega)]
      have narrow : ((array count).setWidth 64).toNat < 64 := by
        rw [wide]
        exact small count (by omega)
      rw [List.range_succ, List.foldl_append, List.foldl_cons, List.foldl_nil]
      refine ⟨fun j => ?_, fun offset away => ?_⟩
      · by_cases here : j = count
        · rw [here, denseRegister_set_same _ _ _ _ narrow, wide, if_pos (Nat.lt_succ_self count)]
        · rw [denseRegister_set_other _ _ _ _ _ narrow (Ne.symm here), written]
          by_cases earlier : j < count
          · rw [if_pos earlier, if_pos (by omega)]
          · rw [if_neg earlier, if_neg (by omega)]
      · rw [hllDenseSetRegister_outside _ _ _ _ narrow (by omega) offset
          (by rw [hllHdrSize]; omega), outside offset away]

theorem writeRegisters_spec (hdr array : Memory)
    (small : ∀ j, j < 16384 → (array j).toNat < 64) :
    (∀ i : Fin 16384, denseRegister (writeRegisters hdr array) hllHdrSize i = (array i).toNat) ∧
      ∀ offset, offset < 16 ∨ 12304 ≤ offset → writeRegisters hdr array offset = hdr offset := by
  obtain ⟨written, outside⟩ := writeRegisters_upTo hdr array 16384 (Nat.le_refl _) small
  rw [writeRegisters, hllRegisters_eq]
  refine ⟨fun i => ?_, outside⟩
  rw [written i, if_pos i.isLt]

structure Merged (env : Env) (o next : Robj) (vector : Fin 16384 → Nat) : Prop where
  valid : Valid env next
  dense : DenseObject next
  registers : registers next = vector
  header : HeaderKept o.ptr.buf next.ptr.buf
  stale : cachedCard next.ptr.buf = none

private theorem merged_of_written {env : Env} {o : Robj} (valid : Valid env o)
    (dense : DenseObject o) (buf : Memory) (vector : Fin 16384 → Nat)
    (bounded : ∀ i, vector i ≤ 50)
    (written : ∀ i : Fin 16384, denseRegister buf hllHdrSize i = vector i)
    (outside : ∀ offset, offset < 16 ∨ 12304 ≤ offset → buf offset = o.ptr.buf offset) :
    Merged env o (invalidate { ptr := { o.ptr with buf := buf } }) vector := by
  let filled : Robj := { ptr := { o.ptr with buf := buf } }
  have denseFilled : DenseObject filled := by
    refine ⟨?_, dense.2⟩
    rw [encoding]
    exact (outside 4 (Or.inl (by omega))).trans dense.1
  have kept : HeaderKept o.ptr.buf filled.ptr.buf :=
    ⟨fun offset inside _ _ => outside offset (Or.inl inside),
      Or.inl (outside 15 (Or.inl (by omega)))⟩
  have vectorFilled : registers filled = vector := by
    funext i
    rw [registers_of_dense filled denseFilled.1]
    exact written i
  have validFilled : Valid env filled := by
    refine valid.of_headerKept kept ?_ (Or.inl ⟨denseFilled, by rw [vectorFilled]; exact bounded⟩)
    have terminated := valid.terminated
    have lenEq : filled.ptr.len = 12304 := dense.2
    rw [dense.2, hllDenseSize_eq] at terminated
    rw [lenEq]
    exact (outside 12304 (Or.inr (Nat.le_refl _))).trans terminated
  have vectorEq : registers (invalidate filled) = vector := by
    rw [validFilled.registers_sameButCard (sameButCard_invalidate filled), vectorFilled]
  refine ⟨invalidate_valid validFilled, ⟨?_, dense.2⟩, vectorEq,
    kept.trans (headerKept_hllInvalidateCache _), cachedCard_hllInvalidateCache _⟩
  rw [encoding_invalidate, denseFilled.1]

/-- `pfMerge` with a valid target and valid sources.  The sources are read
before the target is converted, so the target may be one of them. -/
theorem pfMerge_spec {env : Env} (heap : Heap) (target : Nat) (hlls : List Hll)
    (validTarget : Valid env (heap target)) (valid : AllValid env heap hlls) :
    ∃ next, pfMerge env heap (some target) hlls = (cOk, Function.update heap target next) ∧
      Merged env (heap target) next (mergedVector heap hlls) := by
  obtain ⟨array, ran, held⟩ := pfMergeLoop_spec heap hlls (fun _ => 0) valid
  have start : arrayAt 0 (fun _ => 0) = ⊥ := rfl
  rw [start, bot_sup_eq] at held
  obtain ⟨converted, promotes, validConverted, dense, _vector, kept, _cache⟩ :=
    hllSparseToDense_spec validTarget
  have at' (i : Fin 16384) : (array i).toNat = mergedVector heap hlls i := by
    rw [← held, arrayAt, Nat.zero_add]
  obtain ⟨written, outside⟩ := writeRegisters_spec converted.ptr.buf array (fun j inside => by
    have bound := mergedVector_le valid ⟨j, inside⟩
    rw [← at'] at bound
    exact Nat.lt_of_le_of_lt bound (by decide))
  have merged := merged_of_written validConverted dense (writeRegisters converted.ptr.buf array) _
    (mergedVector_le valid) (fun i => (written i).trans (at' i)) outside
  refine ⟨_, ?_, merged.valid, merged.dense, merged.registers, kept.trans merged.header,
    merged.stale⟩
  rw [pfMerge]
  simp only [ran, promotes, if_neg cOk_ne_cErr]

private theorem pfCountMerged_several (env : Env) (heap : Heap) (first second : Hll)
    (rest : List Hll) :
    pfCountMerged env heap (first :: second :: rest) =
      match pfCountMergedLoop heap (first :: second :: rest)
        (setEncoding (fun _ => 0) hllRawEncoding) with
      | none => .ok (.err, heap)
      | some max =>
          match hllCount env max 0 with
          | .error abort => .error abort
          | .ok (card, _) => .ok (.card card, heap) := by
  cases first <;> rfl

theorem pfCountMerged_spec (env : Env) (heap : Heap) (hlls : List Hll)
    (formed : ∀ handle, some handle ∈ hlls → WellFormed (heap handle))
    (several : 2 ≤ hlls.length) :
    pfCountMerged env heap hlls = .ok (.card (countOf env (mergedVector heap hlls)), heap) := by
  obtain ⟨array, ran, held, kept⟩ := pfCountMergedLoop_spec heap hlls
    (setEncoding (fun _ => 0) hllRawEncoding) formed
  have start : arrayAt hllHdrSize (setEncoding (fun _ => 0) hllRawEncoding) = ⊥ := by
    funext i
    have apart : hllHdrSize + (i : Nat) ≠ 4 := by
      rw [hllHdrSize]
      omega
    rw [arrayAt, setEncoding, store_other _ _ _ _ apart]
    rfl
  rw [start, bot_sup_eq] at held
  have raw : encoding array = hllRawEncoding := by rw [kept, encoding, setEncoding, store_same]
  have notDense : ¬hllRawEncoding = hllDense := by decide
  have notSparse : ¬hllRawEncoding = hllSparse := by decide
  have sum : hllRawSum array hllHdrSize = registerSum (mergedVector heap hlls) := by
    rw [hllRawSum_eq, ← held]
    rfl
  have count : hllCount env array 0 = .ok (countOf env (mergedVector heap hlls), false) := by
    rw [hllCount, raw, if_neg notDense, if_neg notSparse, if_pos rfl, sum]
    rfl
  rcases hlls with _ | ⟨first, _ | ⟨second, rest⟩⟩
  · exact absurd several (by decide)
  · exact absurd several (by simp)
  · rw [pfCountMerged_several]
    simp only [ran, count]

theorem pfCountMerged_one (env : Env) (heap : Heap) (handle : Nat) (exit : CountExit) (o : Robj)
    (count : pfCount env (some (heap handle)) = .ok (exit, some o)) :
    pfCountMerged env heap [some handle] = .ok (exit, Function.update heap handle o) := by
  rw [pfCountMerged, count]
  rfl

/-- Whatever the number of valid arguments, a cardinality is returned. -/
theorem pfCountMerged_card {env : Env} (heap : Heap) (handles : List Nat)
    (valid : ∀ handle ∈ handles, Valid env (heap handle)) :
    ∃ card after, pfCountMerged env heap (handles.map some) = .ok (.card card, after) := by
  match handles, valid with
  | [], _ => exact ⟨0, heap, rfl⟩
  | [handle], valid =>
      have count := pfCount_spec env (valid handle (List.mem_singleton_self handle)).wellFormed
      cases cached : cachedCard (heap handle).ptr.buf with
      | some card =>
          rw [cached] at count
          exact ⟨card, _, pfCountMerged_one env heap handle _ _ count⟩
      | none =>
          rw [cached] at count
          exact ⟨_, _, pfCountMerged_one env heap handle _ _ count⟩
  | first :: second :: rest, valid =>
      have all : ∀ handle, some handle ∈ (first :: second :: rest).map some →
          WellFormed (heap handle) := by
        intro handle member
        obtain ⟨listed, inList, same⟩ := List.mem_map.mp member
        rw [← Option.some.inj same]
        exact (valid listed inList).wellFormed
      exact ⟨_, heap, pfCountMerged_spec env heap _ all (by simp)⟩

end PhpHll
