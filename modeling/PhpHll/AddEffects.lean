/-
What an add leaves of an accepted object, whatever its payload.

An add that fails or changes nothing leaves every byte; an edit of the payload
touches the header in the stale mark alone; and a promotion or a dense add
leaves a dense object with the header of the old one.  The object is accepted
afterwards in each case.
-/

import PhpHll.StaleAdds

namespace PhpHll

open ByteMemory

/-- What an add does to an accepted object, whatever its payload: it leaves the
bytes alone, edits them in place, or leaves a dense object. -/
inductive AddEffect (o next : Robj) (retval : Int) : Prop
  | kept (same : SameBytes o next) (quiet : retval = 0 ∨ retval = -1)
  | edited (sparse : encoding o.ptr.buf ≠ hllDense) (changed : retval = 1)
      (long : hllHdrSize ≤ next.ptr.len)
      (header : ∀ offset, offset < hllHdrSize →
        next.ptr.buf offset = hllInvalidateCache o.ptr.buf offset)
  | dense (changed : retval = 1) (object : DenseObject next)
      (header : ∀ offset, offset < hllHdrSize → offset ≠ 4 →
        next.ptr.buf offset = o.ptr.buf offset)

theorem hllSparseAddUpdated_effect {s : Sds} {prev : Option Nat} {retval : Int} {next : Robj}
    (behind : hllHdrSize ≤ prev.getD hllHdrSize) (long : hllHdrSize ≤ s.len)
    (ran : hllSparseAddUpdated s prev s.len = .ok (retval, next)) :
    retval = 1 ∧ hllHdrSize ≤ next.ptr.len ∧ ∀ offset, offset < hllHdrSize →
      next.ptr.buf offset = hllInvalidateCache s.buf offset := by
  rw [hllSparseAddUpdated] at ran
  cases merged : sparseMergeLoop 5 s (prev.getD hllHdrSize) s.len with
  | error abort =>
      rw [merged] at ran
      cases ran
  | ok last =>
      rw [merged] at ran
      cases ran
      have header := sparseMergeLoop_header behind merged
      have longNext := sparseMergeLoop_long behind long merged
      refine ⟨rfl, longNext, fun offset inside => ?_⟩
      simp only [hllInvalidateCache, store, header offset inside, header 15 (by decide)]

private theorem seqPlaced_effect {s : Sds} {delta : Int} {p : Nat} {prev : Option Nat}
    {seq : List Byte} {retval : Int} {next : Robj} (long : hllHdrSize ≤ (s.len + delta).toNat)
    (behind : hllHdrSize ≤ p) (prevBehind : hllHdrSize ≤ prev.getD hllHdrSize)
    (ran : seqPlaced s delta p prev seq = .ok (retval, next)) :
    retval = 1 ∧ hllHdrSize ≤ next.ptr.len ∧ ∀ offset, offset < hllHdrSize →
      next.ptr.buf offset = hllInvalidateCache s.buf offset := by
  rw [seqPlaced] at ran
  cases grew : sdsIncrLen s delta with
  | error abort =>
      rw [grew] at ran
      cases ran
  | ok grown =>
      obtain ⟨len, buf⟩ := sdsIncrLen_result grew
      rw [grew, ← len] at ran
      obtain ⟨changed, longNext, header⟩ := hllSparseAddUpdated_effect
        (s := { grown with buf := memcpy grown.buf p seq }) prevBehind (by simp only; omega) ran
      refine ⟨changed, longNext, fun offset inside => ?_⟩
      have kept : ∀ offset, offset < hllHdrSize →
          memcpy grown.buf p seq offset = s.buf offset := by
        intro offset inside
        rw [memcpy_below _ _ _ _ (by omega), buf, store_other _ _ _ _ (by omega)]
      rw [header offset inside]
      simp only [hllInvalidateCache, store, kept offset inside, kept 15 (by decide)]

private theorem promoteSteps_result {convert : Env → Robj → Int × Robj}
    {denseAdd : Memory → Nat → List Byte → Int × Memory} {env : Env} {o next : Robj}
    {ele : List Byte} {retval : Int}
    (ran : promoteSteps convert denseAdd env o ele = .ok (retval, next)) :
    ((convert env o).1 = cErr ∧ retval = -1 ∧ next = (convert env o).2) ∨
      ((convert env o).1 ≠ cErr ∧ retval = 1 ∧
        ∃ buf, denseAdd (convert env o).2.ptr.buf hllHdrSize ele = (1, buf) ∧
          next = { ptr := { (convert env o).2.ptr with buf := buf } }) := by
  rw [promoteSteps] at ran
  cases converted : convert env o with
  | mk status object =>
      simp only [converted] at ran ⊢
      by_cases failed : status = cErr
      · rw [if_pos failed] at ran
        cases ran
        exact Or.inl ⟨failed, rfl, rfl⟩
      · rw [if_neg failed] at ran
        cases added : denseAdd object.ptr.buf hllHdrSize ele with
        | mk denseRetval buf =>
            simp only [added] at ran
            by_cases one : denseRetval = 1
            · rw [if_pos one] at ran
              cases ran
              exact Or.inr ⟨failed, one, buf, by rw [one], rfl⟩
            · rw [if_neg one] at ran
              cases ran

private theorem hllSparseAddPromote_effect {env : Env} {s : Sds} {ele : List Byte} {retval : Int}
    {next : Robj} (sparse : encoding s.buf ≠ hllDense)
    (ran : hllSparseAddPromote env { ptr := s } ele = .ok (retval, next)) :
    AddEffect { ptr := s } next retval := by
  rw [hllSparseAddPromote_steps] at ran
  have status := hllSparseToDense_status env { ptr := s } sparse
  rcases promoteSteps_result ran with ⟨failed, minus, same⟩ | ⟨converted, one, buf, added, nextEq⟩
  · rcases status with ⟨converts, _wrapped⟩ | ⟨kept, _other⟩
    · exact absurd (failed.symm.trans converts).symm cOk_ne_cErr
    · rw [kept] at same
      subst same
      exact .kept (SameBytes.refl _) (Or.inr minus)
  · rcases status with ⟨_converts, wrapped⟩ | ⟨kept, _other⟩
    · rw [hllSparseToDense_wrapped env { ptr := s } sparse wrapped] at added nextEq
      have raised := hllDenseAdd_eq (promoted env s).ptr.buf hllHdrSize ele
      simp only at added nextEq
      rw [raised] at added
      split at added
      · have bufEq : buf = (raiseDense (promoted env s) ele).ptr.buf := by
          cases added
          rfl
        have nextRaised : next = raiseDense (promoted env s) ele := by
          rw [nextEq, bufEq]
          rfl
        subst nextRaised
        refine .dense one ⟨?_, rfl⟩ fun offset inside other => ?_
        · rw [raiseDense_encoding, promoted_encoding]
        · rw [raiseDense_outside _ _ _ (Or.inl inside), promoted_header env s offset inside other]
      · cases added
    · rw [kept] at converted
      exact absurd rfl converted

private theorem hllSparseAddSubstitute_effect {env : Env} {s : Sds} {ele : List Byte}
    {scan : SparseScan} {seq : List Byte} {retval : Int} {next : Robj}
    (sparse : encoding s.buf ≠ hllDense) (behind : hllHdrSize ≤ scan.p)
    (prevBehind : hllHdrSize ≤ scan.prev.getD hllHdrSize) (long : hllHdrSize < s.len)
    (some : 1 ≤ seq.length)
    (ran : hllSparseAddSubstitute env s ele scan seq = .ok (retval, next)) :
    AddEffect { ptr := s } next retval := by
  by_cases tooLong : SplitTooLong env s.len (opcodeAt s.buf scan.p) seq.length
  · rw [hllSparseAddSubstitute_tooLong env s ele scan seq tooLong] at ran
    exact hllSparseAddPromote_effect sparse ran
  · have short := (opcodeAt s.buf scan.p).size_le
    rw [hllSparseAddSubstitute_steps env s ele scan seq _ rfl tooLong] at ran
    have len (size count : Nat) : (tailMoved s scan.p size count).len = s.len := rfl
    obtain ⟨one, longNext, header⟩ := seqPlaced_effect (by rw [len]; omega) behind prevBehind ran
    refine .edited sparse one longNext fun offset inside => ?_
    have kept (size : Nat) : ∀ offset, offset < hllHdrSize →
        (tailMoved s scan.p size seq.length).buf offset = s.buf offset := by
      intro offset inside
      rw [tailMoved]
      simp only
      split
      · exact memmove_below _ _ _ _ _ (by omega)
      · rfl
    rw [header offset inside]
    simp only [hllInvalidateCache, store, kept _ offset inside, kept _ 15 (by decide)]

private theorem hllSparseAddAt_effect {env : Env} {s : Sds} {ele : List Byte} {pattern : Pattern}
    {scan : SparseScan} {retval : Int} {next : Robj} (positive : 1 ≤ pattern.count)
    (sparse : encoding s.buf ≠ hllDense) (behind : hllHdrSize ≤ scan.p)
    (prevBehind : hllHdrSize ≤ scan.prev.getD hllHdrSize) (long : hllHdrSize < s.len)
    (ran : hllSparseAddAt env s ele pattern scan = .ok (retval, next)) :
    AddEffect { ptr := s } next retval := by
  rw [hllSparseAddAt_eq env s ele pattern scan _ rfl positive] at ran
  split at ran
  · cases ran
    exact .kept (SameBytes.refl _) (Or.inl rfl)
  · split at ran
    · obtain ⟨one, longNext, header⟩ := hllSparseAddUpdated_effect
        (s := { s with buf := memcpy s.buf scan.p (hllSparseValSet pattern.count 1) }) prevBehind
        (Nat.le_of_lt long) ran
      refine .edited sparse one longNext fun offset inside => ?_
      have kept : ∀ offset, offset < hllHdrSize →
          memcpy s.buf scan.p (hllSparseValSet pattern.count 1) offset = s.buf offset :=
        fun offset inside => memcpy_below _ _ _ _ (by omega)
      rw [header offset inside]
      simp only [hllInvalidateCache, store, kept offset inside, kept 15 (by decide)]
    · apply hllSparseAddSubstitute_effect sparse behind prevBehind long _ ran
      rw [splitBytes_length]
      omega

theorem AddEffect.of_sameBytes {o room next : Robj} {retval : Int} (same : SameBytes o room)
    (effect : AddEffect room next retval) : AddEffect o next retval := by
  cases effect with
  | kept kept quiet => exact .kept (same.trans kept) quiet
  | edited sparse one long header =>
      rw [same.buf] at sparse header
      exact .edited sparse one long header
  | dense one object header =>
      rw [same.buf] at header
      exact .dense one object header

theorem hllSparseAdd_effect {env : Env} {o next : Robj} {ele : List Byte} {retval : Int}
    (sparse : encoding o.ptr.buf ≠ hllDense) (long : hllHdrSize ≤ o.ptr.len)
    (ran : hllSparseAdd env o ele = .ok (retval, next)) : AddEffect o next retval := by
  by_cases large : hllSparseValMaxValue < (hllPatLen ele).count
  · rw [hllSparseAdd] at ran
    simp only [if_pos large] at ran
    exact hllSparseAddPromote_effect sparse ran
  · obtain ⟨stop⟩ := exists_searchEnd o.ptr (hllPatLen ele).index
    have room : SameBytes o { ptr := sdsMakeRoomFor o.ptr 3 } :=
      ⟨sdsMakeRoomFor_len _ _, sdsMakeRoomFor_buf _ _⟩
    rw [hllSparseAdd_scanned env o ele _ (Nat.le_of_not_lt large) rfl] at ran
    have scanned := stop.scan long
    generalize sparseScan o.ptr.buf (hllPatLen ele).index o.ptr.len SparseScan.start = scan
      at ran scanned
    have behind : hllHdrSize ≤ scan.p := by
      rw [scanned]
      exact Nat.le_add_right _ _
    have prevBehind : hllHdrSize ≤ scan.prev.getD hllHdrSize := by
      rw [scanned]
      exact stop.prev_behind
    have spanEq : scan.span = stop.span := by rw [scanned]
    split at ran
    · cases ran
      exact .kept room (Or.inr rfl)
    · rename_i spanned
      apply AddEffect.of_sameBytes room
      have longRoom : hllHdrSize < (sdsMakeRoomFor o.ptr 3).len := by
        rw [sdsMakeRoomFor_len]
        exact stop.long_of_span (spanEq ▸ spanned)
      have sparseRoom : encoding (sdsMakeRoomFor o.ptr 3).buf ≠ hllDense := by
        rwa [sdsMakeRoomFor_buf]
      exact hllSparseAddAt_effect (hllPatLen_count_bounds ele).1 sparseRoom behind prevBehind
        longRoom ran

theorem hllAdd_effect {env : Env} {o next : Robj} {ele : List Byte} {retval : Int}
    (accepted : isHLLObjectOrReply (some o) = cOk) (ran : hllAdd env o ele = .ok (retval, next)) :
    AddEffect o next retval := by
  obtain ⟨long, _magic, _known, sized⟩ := (accepted_iff o).mp accepted
  rw [hllAdd] at ran
  by_cases dense : encoding o.ptr.buf = hllDense
  · have object : DenseObject (raiseDense o ele) :=
      ⟨(raiseDense_encoding o ele).trans dense, sized dense⟩
    have added := hllDenseAdd_object o ele dense
    by_cases raises : registers o (registerOf ele) < (hllPatLen ele).count
    · rw [if_pos raises] at added
      rw [if_pos dense, added] at ran
      cases ran
      exact .dense rfl object fun offset inside _ => raiseDense_outside o ele offset (Or.inl inside)
    · rw [if_neg raises] at added
      rw [if_pos dense, added] at ran
      cases ran
      exact .kept (SameBytes.refl o) (Or.inl rfl)
  · rw [if_neg dense] at ran
    split at ran
    · exact hllSparseAdd_effect dense long ran
    · cases ran
      exact .kept (SameBytes.refl o) (Or.inr rfl)

/-- The object that an add leaves is accepted again. -/
theorem AddEffect.accepted {o next : Robj} {retval : Int} (effect : AddEffect o next retval)
    (accepted : isHLLObjectOrReply (some o) = cOk) : isHLLObjectOrReply (some next) = cOk := by
  obtain ⟨long, magic, known, sized⟩ := (accepted_iff o).mp accepted
  have magicKept (same : ∀ offset, offset < 4 → next.ptr.buf offset = o.ptr.buf offset) :
      readBytes next.ptr.buf 0 4 = hllMagic := by
    rw [← magic]
    apply readBytes_congr
    intro offset _lower upper
    exact same offset (by omega)
  cases effect with
  | kept same _quiet =>
      rw [accepted_iff, same.len, same.buf]
      exact ⟨long, magic, known, sized⟩
  | edited sparse _one longNext header =>
      have kept (offset : Nat) (inside : offset < 5) :
          next.ptr.buf offset = o.ptr.buf offset := by
        rw [header offset (by rw [hllHdrSize]; omega), hllInvalidateCache,
          store_other _ _ _ _ (by omega)]
      have same : encoding next.ptr.buf = encoding o.ptr.buf := kept 4 (by omega)
      rw [accepted_iff, same]
      exact ⟨longNext, magicKept fun offset inside => kept offset (by omega), known,
        fun dense => absurd dense sparse⟩
  | dense _one object header =>
      refine (accepted_iff next).mpr ⟨?_, ?_, ?_, fun _ => object.2⟩
      · rw [object.2, hllDenseSize]
        exact Nat.le_add_right _ _
      · exact magicKept fun offset inside => header offset (by rw [hllHdrSize]; omega) (by omega)
      · rw [object.1]
        decide

end PhpHll
