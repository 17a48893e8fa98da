/-
A failed operation leaves its object as it was.

Corruption is found in a source of a merge, in the target when it is promoted,
in an add once room has been made, or by the count.  Each of these exits comes
before the first write to an object.
-/

import PhpHll.CorruptAdds

namespace PhpHll

open ByteMemory

theorem hllSparseToDense_failed {env : Env} {o next : Robj}
    (failed : hllSparseToDense env o = (cErr, next)) : next = o := by
  by_cases dense : encoding o.ptr.buf = hllDense
  · rw [hllSparseToDense_dense env o dense] at failed
    exact absurd (congrArg Prod.fst failed) cOk_ne_cErr
  · cases hllSparseToDense_status env o dense with
    | inl converted =>
        rw [failed] at converted
        exact absurd converted.1.symm cOk_ne_cErr
    | inr kept =>
        rw [failed] at kept
        exact congrArg Prod.snd kept.1

theorem hllSparseAdd_failed {env : Env} {o next : Robj} {ele : List Byte}
    (accepted : isHLLObjectOrReply (some o) = cOk) (sparse : encoding o.ptr.buf = hllSparse)
    (failed : hllSparseAdd env o ele = .ok (-1, next)) : SameBytes o next := by
  cases hllSparseAdd_fails_cases env o ele (notDense_of_sparse sparse)
      (long_of_accepted accepted) with
  | inl noticed =>
      obtain ⟨_noticed, kept, failedKept, same⟩ := noticed
      rw [failed] at failedKept
      cases failedKept
      exact same
  | inr fine => exact absurd failed (fine.2 next)

theorem pfMerge_failed {env : Env} {heap after : Heap} {target : Hll} {hlls : List Hll}
    (failed : pfMerge env heap target hlls = (cErr, after)) : after = heap := by
  cases target with
  | none => exact (congrArg Prod.snd failed).symm
  | some target =>
      rw [pfMerge] at failed
      cases merged : pfMergeLoop heap hlls (fun _ => 0) with
      | none =>
          simp only [merged] at failed
          exact (congrArg Prod.snd failed).symm
      | some max =>
          simp only [merged] at failed
          by_cases refused : (hllSparseToDense env (heap target)).1 = cErr
          · have kept := hllSparseToDense_failed (Prod.ext refused rfl)
            simp only [if_pos refused, kept, Function.update_eq_self] at failed
            exact (congrArg Prod.snd failed).symm
          · rw [if_neg refused] at failed
            exact absurd (congrArg Prod.fst failed) cOk_ne_cErr

theorem pfCount_failed {env : Env} {o : Robj} {next : Option Robj}
    (failed : pfCount env (some o) = .ok (.err, next)) : next = some o := by
  rw [pfCount] at failed
  split at failed
  · cases failed
    rfl
  · split at failed
    · cases failed
    · split at failed
      · cases failed
      · split at failed
        · cases failed
          rfl
        · cases failed

/-- Whatever the payloads: a `C_ERR` of `pfMerge` leaves the target and all
sources as they were, one of `hllSparseToDense` or of `pfCount` its object, and
a -1 of `hllSparseAdd` every byte of the string. -/
theorem failed_operations_change_nothing (env : Env) :
    (∀ (heap after : Heap) (target : Hll) (hlls : List Hll),
      pfMerge env heap target hlls = (cErr, after) → after = heap) ∧
    (∀ o next : Robj, hllSparseToDense env o = (cErr, next) → next = o) ∧
    (∀ (o next : Robj) (ele : List Byte), isHLLObjectOrReply (some o) = cOk →
      encoding o.ptr.buf = hllSparse →
      hllSparseAdd env o ele = .ok (-1, next) → SameBytes o next) ∧
    ∀ (o : Robj) (next : Option Robj),
      pfCount env (some o) = .ok (.err, next) → next = some o :=
  ⟨fun _ _ _ _ => pfMerge_failed, fun _ _ => hllSparseToDense_failed,
    fun _ _ _ accepted sparse => hllSparseAdd_failed accepted sparse,
    fun _ _ => pfCount_failed⟩

/-- A sparse header without a payload. -/
def headerOnly : Robj := { ptr := sparseString [] }

theorem failed_operations_change_nothing_header_only :
    (pfMerge server (fun _ => headerOnly) (some 0) [none, some 1]).1 = cErr ∧
      (pfMerge server (fun _ => headerOnly) (some 0) [none, some 1]).2 = (fun _ => headerOnly) ∧
      ∃ next, hllSparseAdd server headerOnly [] = .ok (-1, next) ∧ SameBytes headerOnly next := by
  obtain ⟨merges, _promotes, adds, _counts⟩ := failed_operations_change_nothing server
  have refused : (pfMerge server (fun _ => headerOnly) (some 0) [none, some 1]).1 = cErr := by
    decide +kernel
  have status : (hllSparseAdd server headerOnly []).map Prod.fst = .ok (-1) := by decide +kernel
  refine ⟨refused, merges _ _ _ _ (Prod.ext refused rfl), ?_⟩
  cases added : hllSparseAdd server headerOnly [] with
  | error abort =>
      rw [added] at status
      cases status
  | ok result =>
      obtain ⟨retval, next⟩ := result
      rw [added] at status
      cases status
      exact ⟨next, rfl, adds headerOnly next [] (by decide) (by decide) added⟩

end PhpHll
