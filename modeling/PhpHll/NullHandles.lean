/-
NULL handles.

A NULL handle in a list of arguments is skipped, so it counts as an empty HLL,
except where it is the only argument: `pfCountMerged` then hands it to
`pfCount`, whose check of the object comes before its test for NULL.  A lone
object is handed to `pfCount` too, which trusts its cached cardinality, while
beside a NULL handle its registers are counted.
-/

import Mathlib.Data.List.ReduceOption
import PhpHll.Merging

namespace PhpHll

open ByteMemory

/-- The `uint64_t` that the caller gets. -/
def CountExit.returned : CountExit → BitVec 64
  | .err => BitVec.ofInt 64 cErr
  | .card value => value

theorem pfMergeLoop_reduceOption (heap : Heap) (hlls : List Hll) (max : Memory) :
    pfMergeLoop heap hlls max = pfMergeLoop heap (hlls.reduceOption.map some) max := by
  induction hlls generalizing max with
  | nil => rfl
  | cons hll hlls ih =>
      cases hll with
      | none => rw [pfMergeLoop, List.reduceOption_cons_of_none, ih]
      | some handle =>
          rw [List.reduceOption_cons_of_some, List.map_cons, pfMergeLoop, pfMergeLoop]
          simp only [ih]

theorem pfMerge_reduceOption (env : Env) (heap : Heap) (target : Hll) (hlls : List Hll) :
    pfMerge env heap target hlls = pfMerge env heap target (hlls.reduceOption.map some) := by
  cases target with
  | none => rfl
  | some target => rw [pfMerge, pfMerge, pfMergeLoop_reduceOption]

theorem mergedVector_reduceOption (heap : Heap) (hlls : List Hll) :
    mergedVector heap hlls = mergedVector heap (hlls.reduceOption.map some) := by
  induction hlls with
  | nil => rfl
  | cons hll hlls ih =>
      cases hll with
      | none => rw [mergedVector_cons, List.reduceOption_cons_of_none, ih, vectorOf, bot_sup_eq]
      | some handle =>
          rw [List.reduceOption_cons_of_some, List.map_cons, mergedVector_cons, mergedVector_cons,
            ih]

theorem pfCountMerged_null (env : Env) (heap : Heap) :
    pfCountMerged env heap [none] = .ok (.err, heap) := rfl

/-- What `pfCountMerged` makes of its arguments, by their number. -/
def countExitOf (env : Env) (heap : Heap) : List Hll → CountExit
  | [hll] =>
      match hll with
      | none => .err
      | some handle =>
          .card ((cachedCard (heap handle).ptr.buf).getD (countOf env (registers (heap handle))))
  | hlls => .card (countOf env (mergedVector heap hlls))

theorem pfCountMerged_exit (env : Env) (empty : env.estimate 16384 16384 = 0) (heap : Heap)
    (hlls : List Hll) (formed : ∀ handle ∈ hlls.reduceOption, WellFormed (heap handle)) :
    ∃ after, pfCountMerged env heap hlls = .ok (countExitOf env heap hlls, after) := by
  match hlls, formed with
  | [], _ =>
      have zero : countOf env (mergedVector heap []) = 0 := (countOf_empty env).trans empty
      refine ⟨heap, ?_⟩
      rw [countExitOf, zero]
      · rfl
      · simp
  | [none], _ => exact ⟨heap, pfCountMerged_null env heap⟩
  | [some handle], formed =>
      have count := pfCount_spec env (formed handle (List.mem_singleton_self handle))
      simp only [countExitOf]
      cases cached : cachedCard (heap handle).ptr.buf with
      | some card =>
          rw [cached] at count
          exact ⟨_, pfCountMerged_one env heap handle _ _ count⟩
      | none =>
          rw [cached] at count
          exact ⟨_, pfCountMerged_one env heap handle _ _ count⟩
  | first :: second :: rest, formed =>
      exact ⟨heap, pfCountMerged_spec env heap _
        (fun handle member => formed handle (List.reduceOption_mem_iff.mpr member)) (by simp)⟩

private theorem countExitOf_several (env : Env) (heap : Heap) (hlls : List Hll)
    (notNull : hlls ≠ [none]) (notLone : ∀ handle, hlls ≠ [some handle]) :
    countExitOf env heap hlls =
      .card (countOf env (mergedVector heap (hlls.reduceOption.map some))) := by
  rw [← mergedVector_reduceOption]
  match hlls, notNull, notLone with
  | [], _, _ => rfl
  | [none], notNull, _ => exact absurd rfl notNull
  | [some handle], _, notLone => exact absurd rfl (notLone handle)
  | first :: second :: rest, _, _ => rfl

private theorem coherent_iff_getD (env : Env) (o : Robj) :
    (counterModel env).Coherent (abstraction o) ↔
      (cachedCard o.ptr.buf).getD (countOf env (registers o)) = countOf env (registers o) := by
  have stored : (abstraction o).cache = cachedCard o.ptr.buf := rfl
  simp only [CachedSketch.Model.Coherent, stored]
  cases cachedCard o.ptr.buf with
  | none => exact iff_of_true (fun _ impossible => nomatch impossible) rfl
  | some card =>
      constructor
      · exact fun coherent => coherent card rfl
      · rintro same _ ⟨⟩
        exact same

private theorem countExitOf_lone_eq (env : Env) (heap : Heap) (handle : Nat) (hlls : List Hll)
    (same : hlls.reduceOption = [handle]) (longer : hlls ≠ [some handle]) :
    (countExitOf env heap [some handle]).returned = (countExitOf env heap hlls).returned ↔
      (counterModel env).Coherent (abstraction (heap handle)) := by
  have notNull : hlls ≠ [none] := by
    rintro rfl
    cases same
  have notLone (other : Nat) : hlls ≠ [some other] := by
    rintro rfl
    cases same
    exact longer rfl
  have vector : mergedVector heap [some handle] = registers (heap handle) := sup_bot_eq _
  rw [countExitOf_several env heap hlls notNull notLone, same, List.map_singleton, vector,
    coherent_iff_getD]
  rfl

/-- The lists agree: they are the same, or neither is the lone NULL, and a lone
object has the count of its registers in its cache, if it has one. -/
def CountsAgree (env : Env) (heap : Heap) (first second : List Hll) : Prop :=
  first = second ∨
    first ≠ [none] ∧ second ≠ [none] ∧
      ∀ handle, first = [some handle] ∨ second = [some handle] →
        (counterModel env).Coherent (abstraction (heap handle))

private theorem countExitOf_null_ne (env : Env) (empty : env.estimate 16384 16384 = 0) (heap : Heap)
    (hlls : List Hll) (same : hlls.reduceOption = []) (other : hlls ≠ [none]) :
    (countExitOf env heap [none]).returned ≠ (countExitOf env heap hlls).returned := by
  have notLone (handle : Nat) : hlls ≠ [some handle] := by
    rintro rfl
    cases same
  have zero : countOf env (mergedVector heap []) = 0 := (countOf_empty env).trans empty
  have refused : (countExitOf env heap [none]).returned = CountExit.err.returned := rfl
  rw [refused, countExitOf_several env heap hlls other notLone, same, List.map_nil, zero]
  decide

theorem countExitOf_returned_iff (env : Env) (empty : env.estimate 16384 16384 = 0) (heap : Heap)
    (first second : List Hll) (same : first.reduceOption = second.reduceOption) :
    (countExitOf env heap first).returned = (countExitOf env heap second).returned ↔
      CountsAgree env heap first second := by
  by_cases equal : first = second
  · exact iff_of_true (by rw [equal]) (Or.inl equal)
  rw [CountsAgree, or_iff_right equal]
  by_cases firstNull : first = [none]
  · subst firstNull
    have differ := countExitOf_null_ne env empty heap second same.symm fun null => equal null.symm
    exact iff_of_false differ fun agree => agree.1 rfl
  by_cases secondNull : second = [none]
  · subst secondNull
    have differ := countExitOf_null_ne env empty heap first same equal
    exact iff_of_false differ.symm fun agree => agree.2.1 rfl
  rw [and_iff_right firstNull, and_iff_right secondNull]
  by_cases firstLone : ∃ handle, first = [some handle]
  · obtain ⟨handle, rfl⟩ := firstLone
    have agree := countExitOf_lone_eq env heap handle second same.symm fun lone => equal lone.symm
    rw [agree]
    constructor
    · rintro coherent other (lone | lone)
      · cases lone
        exact coherent
      · subst lone
        cases same
        exact coherent
    · exact fun coherent => coherent handle (Or.inl rfl)
  by_cases secondLone : ∃ handle, second = [some handle]
  · obtain ⟨handle, rfl⟩ := secondLone
    have agree := countExitOf_lone_eq env heap handle first same equal
    rw [eq_comm, agree]
    constructor
    · rintro coherent other (lone | lone)
      · exact absurd ⟨other, lone⟩ firstLone
      · cases lone
        exact coherent
    · exact fun coherent => coherent handle (Or.inr rfl)
  · have several : (countExitOf env heap first).returned =
        (countExitOf env heap second).returned := by
      rw [countExitOf_several env heap first firstNull fun handle lone => firstLone ⟨handle, lone⟩,
        countExitOf_several env heap second secondNull
          fun handle lone => secondLone ⟨handle, lone⟩, same]
    refine iff_of_true several ?_
    rintro handle (lone | lone)
    · exact absurd ⟨handle, lone⟩ firstLone
    · exact absurd ⟨handle, lone⟩ secondLone

/-- Two lists of arguments that differ in NULL handles only: the merged counts
are the same exactly when the lists agree, a merge into any target is the same,
and a NULL given to `pfCount` is an error. -/
theorem null_handles_iff (env : Env) (empty : env.estimate 16384 16384 = 0) (heap : Heap)
    (first second : List Hll) (same : first.reduceOption = second.reduceOption)
    (formed : ∀ handle ∈ first.reduceOption, WellFormed (heap handle)) :
    (∃ firstExit firstAfter secondExit secondAfter,
      pfCountMerged env heap first = .ok (firstExit, firstAfter) ∧
      pfCountMerged env heap second = .ok (secondExit, secondAfter) ∧
      (firstExit.returned = secondExit.returned ↔ CountsAgree env heap first second)) ∧
    (∀ target : Hll, pfMerge env heap target first = pfMerge env heap target second) ∧
    ∀ exit after, pfCount env none = .ok (exit, after) → exit.returned ≠ 0 := by
  have errNotZero : CountExit.returned .err ≠ 0 := by decide
  refine ⟨?_, fun target => ?_, fun exit after counted => ?_⟩
  · obtain ⟨firstAfter, firstCounted⟩ := pfCountMerged_exit env empty heap first formed
    obtain ⟨secondAfter, secondCounted⟩ := pfCountMerged_exit env empty heap second
      (same ▸ formed)
    exact ⟨_, firstAfter, _, secondAfter, firstCounted, secondCounted,
      countExitOf_returned_iff env empty heap first second same⟩
  · rw [pfMerge_reduceOption, same, ← pfMerge_reduceOption]
  · cases counted
    exact errNotZero

/-- An object that has been added to has no cached cardinality, so NULL handles
beside it change nothing. -/
theorem null_handles_iff_added :
    ∃ o, pfAddMany countingServer (some (created countingServer)) [[0x61#8], [0x62#8]] =
        .ok (1, some o) ∧
      ∃ firstExit firstAfter secondExit secondAfter,
        pfCountMerged countingServer (fun _ => o) [some 0] = .ok (firstExit, firstAfter) ∧
        pfCountMerged countingServer (fun _ => o) [none, some 0, none] =
          .ok (secondExit, secondAfter) ∧
        firstExit.returned = secondExit.returned := by
  obtain ⟨o, added, built, stale⟩ := exists_fed countingServer [[0x61#8], [0x62#8]] (by decide)
  obtain ⟨⟨firstExit, firstAfter, secondExit, secondAfter, first, second, agree⟩, _merges, _null⟩ :=
    null_handles_iff countingServer (by decide) (fun _ => o) [some 0] [none, some 0, none] rfl
      (fun _ _ => built.valid.wellFormed)
  refine ⟨o, added, firstExit, firstAfter, secondExit, secondAfter, first, second,
    agree.mpr (Or.inr ⟨by decide, by decide, fun handle _ => ?_⟩)⟩
  exact (counterModel countingServer).coherent_of_none (abstraction o) stale

/-- The comment in `pfCount` promises 0 for a NULL handle, and no list but the
lone NULL gets anything else. -/
theorem lone_null_is_an_error :
    pfCountMerged server (fun _ => created server) [none] =
        .ok (.err, fun _ => created server) ∧
      pfCountMerged server (fun _ => created server) [] =
        .ok (.card 0, fun _ => created server) ∧
      pfCountMerged server (fun _ => created server) [none, none] =
        .ok (.card 0, fun _ => created server) ∧
      pfCount server none = .ok (.err, none) ∧
      CountExit.returned .err = 0xffffffffffffffff#64 ∧ CountExit.returned (.card 0) = 0 := by
  have several := pfCountMerged_spec server (fun _ => created server) [none, none]
    (fun handle member => absurd member (by simp)) (Nat.le_refl 2)
  exact ⟨rfl, rfl, several, rfl, rfl, rfl⟩

end PhpHll
