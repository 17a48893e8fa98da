/-
A batch of adds against single adds.

`pfAddMany` marks the cardinality stale once, behind its loop, and not at all
when an add fails; `pfAdd` marks it after every change.  They leave the same
object: an add does not look at the mark, an edit in place sets it by itself,
and no add to a dense object fails.
-/

import PhpHll.AddEffects

namespace PhpHll

open ByteMemory

/-- `pfAdd` on the elements in order, up to the first `C_ERR`: the results of
the calls and the object they leave. -/
def pfAddEach (env : Env) : List (List Byte) → Robj → Except Abort (List Int × Robj)
  | [], o => .ok ([], o)
  | ele :: rest, o =>
      match pfAdd env (some o) ele with
      | .error abort => .error abort
      | .ok (retval, next) =>
          if retval = cErr then .ok ([retval], next.getD o)
          else
            match pfAddEach env rest (next.getD o) with
            | .error abort => .error abort
            | .ok (retvals, last) => .ok (retval :: retvals, last)

/-! ### The mark between two elements -/

/-- A sparse object whose cardinality is marked stale, or a dense object. -/
def Marked (o : Robj) : Prop := encoding o.ptr.buf = hllDense ∨ invalidate o = o

theorem invalidate_twice (o : Robj) : invalidate (invalidate o) = invalidate o := by
  simp only [invalidate, hllInvalidateCache_twice]

theorem hllValidCache_invalidate (o : Robj) : hllValidCache (invalidate o).ptr.buf = false :=
  hllValidCache_of_set (store_same o.ptr.buf 15 _)

theorem accepted_invalidate {o : Robj} (accepted : isHLLObjectOrReply (some o) = cOk) :
    isHLLObjectOrReply (some (invalidate o)) = cOk := by
  obtain ⟨long, magic, known, sized⟩ := (accepted_iff o).mp accepted
  have magicKept : readBytes (invalidate o).ptr.buf 0 4 = hllMagic := by
    rw [← magic]
    exact readBytes_store_outside _ _ _ _ _ (Or.inr (by decide))
  rw [accepted_iff, encoding_invalidate]
  exact ⟨long, magicKept, known, sized⟩

theorem invalidate_of_header {o next : Robj}
    (header : next.ptr.buf 15 = hllInvalidateCache o.ptr.buf 15) : invalidate next = next := by
  have twice : ∀ byte : Byte, byte ||| 1#8 <<< 7 ||| 1#8 <<< 7 = byte ||| 1#8 <<< 7 := by decide
  have set : next.ptr.buf 15 ||| 1#8 <<< 7 = next.ptr.buf 15 := by
    rw [header, hllInvalidateCache, store_same, twice]
  have same : hllInvalidateCache next.ptr.buf = next.ptr.buf := by
    funext offset
    by_cases last : offset = 15
    · rw [last, hllInvalidateCache, store_same, set]
    · exact store_other _ _ _ _ last
  rw [invalidate, same]

theorem AddEffect.marked {o next : Robj} {retval : Int} (effect : AddEffect o next retval)
    (changed : retval = 1 ∨ Marked o) : Marked next := by
  cases effect with
  | kept same quiet =>
      rcases changed with one | marked
      · omega
      · rcases marked with dense | stale
        · exact Or.inl (by rwa [same.buf])
        · have buf : hllInvalidateCache o.ptr.buf = o.ptr.buf :=
            congrArg (fun object : Robj => object.ptr.buf) stale
          right
          rw [invalidate, same.buf, buf, ← same.buf]
  | edited _sparse _one _long header => exact Or.inr (invalidate_of_header (header 15 (by decide)))
  | dense _one object _header => exact Or.inl object.1

theorem hllAdd_dense_not_failed {env : Env} {o next : Robj} {ele : List Byte}
    (dense : encoding o.ptr.buf = hllDense) : hllAdd env o ele ≠ .ok (-1, next) := by
  intro failed
  have added := hllDenseAdd_object o ele dense
  rw [hllAdd, if_pos dense] at failed
  by_cases raises : registers o (registerOf ele) < (hllPatLen ele).count
  · rw [if_pos raises] at added
    rw [added] at failed
    cases failed
  · rw [if_neg raises] at added
    rw [added] at failed
    cases failed

/-- An add that fails leaves the mark of the changes before it. -/
theorem hllAdd_failed_marked {env : Env} {o next : Robj} {ele : List Byte}
    (accepted : isHLLObjectOrReply (some o) = cOk) (marked : Marked o)
    (failed : hllAdd env o ele = .ok (-1, next)) : invalidate next = next := by
  have effect := hllAdd_effect accepted failed
  rcases effect.marked (Or.inr marked) with dense | stale
  · cases effect with
    | kept same _quiet =>
        rw [same.buf] at dense
        exact absurd failed (hllAdd_dense_not_failed dense)
    | edited _sparse one _long _header => omega
    | dense one _object _header => omega
  · exact stale

/-! ### The loop -/

/-- The object of single adds where a batch has `o`, after `updated` changes. -/
def markedAfter (updated : Nat) (o : Robj) : Robj := if 0 < updated then invalidate o else o

private theorem invalidate_markedAfter (updated : Nat) (o : Robj) :
    invalidate (markedAfter updated o) = invalidate o := by
  rw [markedAfter]
  split
  · exact invalidate_twice o
  · rfl

private theorem hllAdd_markedAfter (env : Env) (updated : Nat) (o : Robj) (ele : List Byte)
    (long : hllHdrSize ≤ o.ptr.len) :
    hllAdd env (markedAfter updated o) ele =
      (hllAdd env o ele).map fun result => (result.1, markedAfter updated result.2) := by
  rw [markedAfter]
  by_cases some : 0 < updated
  · simp only [markedAfter, if_pos some]
    exact hllAdd_invalidate env o ele long
  · simp only [markedAfter, if_neg some]
    cases hllAdd env o ele with
    | error abort => rfl
    | ok result => rfl

private theorem pfAdd_markedAfter (env : Env) (updated : Nat) {o : Robj} (ele : List Byte)
    (accepted : isHLLObjectOrReply (some o) = cOk) :
    pfAdd env (some (markedAfter updated o)) ele =
      match hllAdd env o ele with
      | .error abort => .error abort
      | .ok (retval, next) =>
          if retval = -1 then .ok (cErr, some (markedAfter updated next))
          else if retval = 1 then .ok (1, some (invalidate next))
          else .ok (0, some (markedAfter updated next)) := by
  have acceptedMarked : isHLLObjectOrReply (some (markedAfter updated o)) = cOk := by
    rw [markedAfter]
    split
    · exact accepted_invalidate accepted
    · exact accepted
  have added := hllAdd_markedAfter env updated o ele ((accepted_iff o).mp accepted).1
  rw [pfAdd, if_neg (not_not.mpr acceptedMarked), added]
  cases hllAdd env o ele with
  | error abort => rfl
  | ok result =>
      simp only [Except.map, invalidate_markedAfter]

/-- What the loop returns after `updated` changes and further calls. -/
def loopRetval (updated : Nat) (retvals : List Int) : Int :=
  if cErr ∈ retvals then cErr else if 0 < updated ∨ 1 ∈ retvals then 1 else 0

private theorem loopRetval_changed (updated : Nat) (retvals : List Int) :
    loopRetval updated (1 :: retvals) = loopRetval (updated + 1) retvals := by
  have notErr : ¬cErr = 1 := by decide
  simp only [loopRetval, List.mem_cons, notErr, false_or, true_or, or_true, Nat.succ_pos]

private theorem loopRetval_quiet (updated : Nat) (retvals : List Int) :
    loopRetval updated (0 :: retvals) = loopRetval updated retvals := by
  have notErr : ¬cErr = 0 := by decide
  have notOne : ¬(1 : Int) = 0 := by decide
  simp only [loopRetval, List.mem_cons, notErr, notOne, false_or]

/-- The run lemma: the loop of a batch ends in the object of the single adds. -/
theorem pfAddManyLoop_each (env : Env) (eles : List (List Byte)) (updated : Nat) {o : Robj}
    (accepted : isHLLObjectOrReply (some o) = cOk) (marked : 0 < updated → Marked o) :
    pfAddManyLoop env eles updated o =
      (pfAddEach env eles (markedAfter updated o)).map fun result =>
        (loopRetval updated result.1, result.2) := by
  induction eles generalizing updated o with
  | nil =>
      rw [pfAddManyLoop, pfAddEach, markedAfter]
      by_cases some : 0 < updated
      · simp [Except.map, loopRetval, some]
      · simp [Except.map, loopRetval, some]
  | cons ele eles ih =>
      have notErr : ¬(1 : Int) = cErr := by decide
      have notErr' : ¬(0 : Int) = cErr := by decide
      rw [pfAddManyLoop, pfAddEach, pfAdd_markedAfter env updated ele accepted]
      cases added : hllAdd env o ele with
      | error abort => rfl
      | ok result =>
          obtain ⟨retval, next⟩ := result
          have effect := hllAdd_effect accepted added
          have acceptedNext := effect.accepted accepted
          simp only
          by_cases failed : retval = -1
          · have kept : markedAfter updated next = next := by
              rw [markedAfter]
              split
              · rename_i some
                rw [failed] at added
                exact hllAdd_failed_marked accepted (marked some) added
              · rfl
            rw [if_pos failed, if_pos failed, kept]
            simp [Except.map, loopRetval]
          · rw [if_neg failed, if_neg failed]
            by_cases changed : retval = 1
            · have mark : markedAfter (updated + 1) next = invalidate next :=
                if_pos (Nat.succ_pos updated)
              rw [if_pos changed, if_pos changed,
                ih (updated + 1) acceptedNext fun _ => effect.marked (Or.inl changed), mark]
              simp only [if_neg notErr, Option.getD_some]
              cases pfAddEach env eles (invalidate next) with
              | error abort => rfl
              | ok rest => simp only [Except.map, loopRetval_changed]
            · rw [if_neg changed, if_neg changed,
                ih updated acceptedNext fun some => effect.marked (Or.inr (marked some))]
              simp only [if_neg notErr', Option.getD_some]
              cases pfAddEach env eles (markedAfter updated next) with
              | error abort => rfl
              | ok rest => simp only [Except.map, loopRetval_quiet]

theorem pfAddMany_each (env : Env) {o : Robj} (eles : List (List Byte))
    (accepted : isHLLObjectOrReply (some o) = cOk) :
    pfAddMany env (some o) eles =
      (pfAddEach env eles o).map fun result => (loopRetval 0 result.1, some result.2) := by
  have loop := pfAddManyLoop_each env eles 0 accepted fun impossible =>
    absurd impossible (Nat.lt_irrefl 0)
  have start : markedAfter 0 o = o := if_neg (Nat.lt_irrefl 0)
  rw [pfAddMany, if_neg (not_not.mpr accepted), loop, start]
  cases pfAddEach env eles o with
  | error abort => rfl
  | ok result => rfl

/-! ### The mark on the error path -/

/-- One `pfAdd` on an accepted object: the bytes stay, or the cardinality is
stale. -/
theorem pfAdd_outcome {env : Env} {o : Robj} {ele : List Byte} {retval : Int}
    {next : Option Robj} (accepted : isHLLObjectOrReply (some o) = cOk)
    (ran : pfAdd env (some o) ele = .ok (retval, next)) :
    ∃ object, next = some object ∧ isHLLObjectOrReply (some object) = cOk ∧
      (retval ≠ 1 ∧ SameBytes o object ∨ retval = 1 ∧ hllValidCache object.ptr.buf = false) := by
  obtain ⟨status, object, added, answer⟩ := pfAdd_cases accepted ran
  have effect := hllAdd_effect accepted added
  have acceptedNext := effect.accepted accepted
  have unchanged (other : status ≠ 1) : SameBytes o object := by
    cases effect with
    | kept same _quiet => exact same
    | edited _sparse one _long _header => exact absurd one other
    | dense one _object _header => exact absurd one other
  rcases answer with ⟨failed, rfl, rfl⟩ | ⟨_changed, rfl, rfl⟩ | ⟨_fine, quiet, rfl, rfl⟩
  · exact ⟨object, rfl, acceptedNext, Or.inl ⟨by decide, unchanged (by omega)⟩⟩
  · exact ⟨_, rfl, accepted_invalidate acceptedNext,
      Or.inr ⟨rfl, hllValidCache_invalidate object⟩⟩
  · exact ⟨object, rfl, acceptedNext, Or.inl ⟨by decide, unchanged quiet⟩⟩

/-- Where a call reported a change, or the bytes are not the ones met at first,
the cardinality is stale at the end, whether or not the last call failed. -/
theorem pfAddEach_stale {env : Env} {eles : List (List Byte)} {o last : Robj}
    {retvals : List Int} (accepted : isHLLObjectOrReply (some o) = cOk)
    (ran : pfAddEach env eles o = .ok (retvals, last)) :
    (1 ∉ retvals ∧ SameBytes o last) ∨ hllValidCache last.ptr.buf = false := by
  induction eles generalizing o retvals with
  | nil =>
      cases ran
      exact Or.inl ⟨List.not_mem_nil, SameBytes.refl _⟩
  | cons ele eles ih =>
      rw [pfAddEach] at ran
      cases added : pfAdd env (some o) ele with
      | error abort =>
          rw [added] at ran
          cases ran
      | ok result =>
          obtain ⟨retval, next⟩ := result
          obtain ⟨object, nextEq, acceptedNext, outcome⟩ := pfAdd_outcome accepted added
          subst nextEq
          rw [added] at ran
          simp only [Option.getD_some] at ran
          by_cases failed : retval = cErr
          · rw [if_pos failed] at ran
            cases ran
            rcases outcome with ⟨quiet, same⟩ | ⟨_one, stale⟩
            · exact Or.inl ⟨fun member => quiet (List.mem_singleton.mp member).symm, same⟩
            · exact Or.inr stale
          · rw [if_neg failed] at ran
            cases rest : pfAddEach env eles object with
            | error abort =>
                rw [rest] at ran
                cases ran
            | ok result =>
                rw [rest] at ran
                cases ran
                rcases ih acceptedNext rest with ⟨quietRest, sameRest⟩ | stale
                · rcases outcome with ⟨quiet, same⟩ | ⟨_one, stale⟩
                  · refine Or.inl ⟨fun member => ?_, same.trans sameRest⟩
                    rcases List.mem_cons.mp member with here | later
                    · exact quiet here.symm
                    · exact quietRest later
                  · exact Or.inr (by rw [sameRest.buf]; exact stale)
                · exact Or.inr stale

/-- On an accepted object, whatever its payload, a batch leaves the object that
single adds leave up to the first `C_ERR`, or stops the process as they do.  Its
result follows from theirs, and once a byte has changed, or a call reported a
change, the cardinality is stale. -/
theorem pfAddMany_equals_single_adds (env : Env) (o : Robj) (eles : List (List Byte))
    (accepted : isHLLObjectOrReply (some o) = cOk) :
    pfAddMany env (some o) eles =
        (pfAddEach env eles o).map (fun result =>
          (if cErr ∈ result.1 then cErr else if 1 ∈ result.1 then 1 else 0, some result.2)) ∧
      ∀ retvals last, pfAddEach env eles o = .ok (retvals, last) →
        (1 ∈ retvals ∨ last.ptr.bytes ≠ o.ptr.bytes) → hllValidCache last.ptr.buf = false := by
  constructor
  · rw [pfAddMany_each env eles accepted]
    simp only [loopRetval, Nat.lt_irrefl, false_or]
  · intro retvals last ran changed
    rcases pfAddEach_stale accepted ran with ⟨quiet, same⟩ | stale
    · exact absurd same.bytes (changed.resolve_left quiet)
    · exact stale

theorem pfAddMany_equals_single_adds_short :
    pfAddMany server (some loadedShort) [[], [0x61#8]] =
      (pfAddEach server [[], [0x61#8]] loadedShort).map (fun result =>
        (if cErr ∈ result.1 then cErr else if 1 ∈ result.1 then 1 else 0, some result.2)) :=
  (pfAddMany_equals_single_adds server loadedShort [[], [0x61#8]] (by decide)).1

end PhpHll
