/-
Sketches that keep one supremum per bucket.

An observer sends every element to a bucket and to a rank in a join-semilattice
with bottom.  The sketch of a list of elements holds, for every bucket, the
supremum of the ranks that fell into it.  It is the least array above every
observation, and from that property alone follow the facts a user of such a
sketch relies on: the order, the repetition and the batching of the elements
do not matter, and the sketch of a union is the supremum of the sketches.
-/

import Mathlib.Order.Lattice
import Mathlib.Order.BoundedOrder.Basic
import Mathlib.Logic.Function.Basic
import Mathlib.Data.List.Basic
import Mathlib.Algebra.Group.Basic

namespace PhpHll.MaxSketch

structure Observer (Element Bucket Rank : Type) where
  bucket : Element → Bucket
  rank : Element → Rank

variable {Element Bucket Rank : Type} [DecidableEq Bucket] [SemilatticeSup Rank]

def Observer.insert (observer : Observer Element Bucket Rank) (array : Bucket → Rank)
    (element : Element) : Bucket → Rank :=
  Function.update array (observer.bucket element)
    (array (observer.bucket element) ⊔ observer.rank element)

theorem Observer.insert_le_iff (observer : Observer Element Bucket Rank)
    (array bound : Bucket → Rank) (element : Element) :
    observer.insert array element ≤ bound ↔
      array ≤ bound ∧ observer.rank element ≤ bound (observer.bucket element) := by
  constructor
  · intro below
    have atBucket := below (observer.bucket element)
    rw [Observer.insert, Function.update_self] at atBucket
    refine ⟨fun bucket => ?_, le_trans le_sup_right atBucket⟩
    by_cases same : bucket = observer.bucket element
    · subst bucket
      exact le_trans le_sup_left atBucket
    · have elsewhere := below bucket
      rwa [Observer.insert, Function.update_of_ne same] at elsewhere
  · rintro ⟨arrayBelow, rankBelow⟩ bucket
    by_cases same : bucket = observer.bucket element
    · subst bucket
      rw [Observer.insert, Function.update_self]
      exact sup_le (arrayBelow _) rankBelow
    · rw [Observer.insert, Function.update_of_ne same]
      exact arrayBelow bucket

theorem Observer.le_insert (observer : Observer Element Bucket Rank) (array : Bucket → Rank)
    (element : Element) : array ≤ observer.insert array element :=
  ((observer.insert_le_iff array _ element).mp le_rfl).1

theorem Observer.insert_eq_self_iff (observer : Observer Element Bucket Rank)
    (array : Bucket → Rank) (element : Element) :
    observer.insert array element = array ↔
      observer.rank element ≤ array (observer.bucket element) := by
  constructor
  · intro unchanged
    exact ((observer.insert_le_iff array array element).mp (le_of_eq unchanged)).2
  · intro covered
    exact le_antisymm ((observer.insert_le_iff array array element).mpr ⟨le_rfl, covered⟩)
      (observer.le_insert array element)

private theorem foldl_insert_le_iff (observer : Observer Element Bucket Rank)
    (elements : List Element) (array bound : Bucket → Rank) :
    elements.foldl observer.insert array ≤ bound ↔
      array ≤ bound ∧
        ∀ element ∈ elements, observer.rank element ≤ bound (observer.bucket element) := by
  induction elements generalizing array with
  | nil => simp
  | cons element elements ih =>
      rw [List.foldl_cons, ih, observer.insert_le_iff, and_assoc, List.forall_mem_cons]

/-- Two batches leave the same array exactly when each array covers the other
batch. -/
theorem Observer.foldl_insert_eq_iff (observer : Observer Element Bucket Rank)
    (first second : List Element) (array : Bucket → Rank) :
    first.foldl observer.insert array = second.foldl observer.insert array ↔
      (∀ element ∈ first,
        observer.rank element ≤ second.foldl observer.insert array (observer.bucket element)) ∧
      ∀ element ∈ second,
        observer.rank element ≤ first.foldl observer.insert array (observer.bucket element) := by
  have grows (elements : List Element) : array ≤ elements.foldl observer.insert array :=
    ((foldl_insert_le_iff observer elements array _).mp le_rfl).1
  constructor
  · intro same
    exact ⟨((foldl_insert_le_iff observer first array _).mp (le_of_eq same)).2,
      ((foldl_insert_le_iff observer second array _).mp (le_of_eq same.symm)).2⟩
  · rintro ⟨coversFirst, coversSecond⟩
    exact le_antisymm
      ((foldl_insert_le_iff observer first array _).mpr ⟨grows second, coversFirst⟩)
      ((foldl_insert_le_iff observer second array _).mpr ⟨grows first, coversSecond⟩)

variable [OrderBot Rank]

def Observer.sketch (observer : Observer Element Bucket Rank) (elements : List Element) :
    Bucket → Rank :=
  elements.foldl observer.insert ⊥

/-- The sketch is the least array above all observations. -/
theorem Observer.sketch_le_iff (observer : Observer Element Bucket Rank)
    (elements : List Element) (bound : Bucket → Rank) :
    observer.sketch elements ≤ bound ↔
      ∀ element ∈ elements, observer.rank element ≤ bound (observer.bucket element) := by
  rw [Observer.sketch, foldl_insert_le_iff]
  exact and_iff_right bot_le

theorem Observer.sketch_append (observer : Observer Element Bucket Rank)
    (first second : List Element) :
    observer.sketch (first ++ second) = observer.sketch first ⊔ observer.sketch second := by
  apply eq_of_forall_ge_iff
  intro bound
  rw [sup_le_iff, observer.sketch_le_iff, observer.sketch_le_iff, observer.sketch_le_iff]
  exact List.forall_mem_append

theorem Observer.foldl_insert (observer : Observer Element Bucket Rank)
    (elements : List Element) (array : Bucket → Rank) :
    elements.foldl observer.insert array = array ⊔ observer.sketch elements := by
  apply eq_of_forall_ge_iff
  intro bound
  rw [foldl_insert_le_iff, sup_le_iff, observer.sketch_le_iff]

theorem Observer.sketch_eq_of_mem_iff (observer : Observer Element Bucket Rank)
    (first second : List Element) (same : ∀ element, element ∈ first ↔ element ∈ second) :
    observer.sketch first = observer.sketch second := by
  apply eq_of_forall_ge_iff
  intro bound
  rw [observer.sketch_le_iff, observer.sketch_le_iff]
  constructor
  · exact fun all element member => all element ((same element).mpr member)
  · exact fun all element member => all element ((same element).mp member)

/-- A batch changes nothing exactly when the array covers all of it. -/
theorem Observer.foldl_insert_eq_self_iff (observer : Observer Element Bucket Rank)
    (elements : List Element) (array : Bucket → Rank) :
    elements.foldl observer.insert array = array ↔
      ∀ element ∈ elements, observer.rank element ≤ array (observer.bucket element) := by
  rw [observer.foldl_insert, sup_eq_left, observer.sketch_le_iff]

theorem Observer.sketch_flatten (observer : Observer Element Bucket Rank)
    (batches : List (List Element)) :
    observer.sketch batches.flatten = (batches.map observer.sketch).foldr (· ⊔ ·) ⊥ := by
  induction batches with
  | nil => rfl
  | cons batch batches ih =>
      rw [List.flatten_cons, observer.sketch_append, ih, List.map_cons, List.foldr_cons]

theorem Observer.sketch_apply (observer : Observer Element Bucket Rank)
    (elements : List Element) (bucket : Bucket) :
    observer.sketch elements bucket =
      ((elements.filter fun element => observer.bucket element = bucket).map
        observer.rank).foldr (· ⊔ ·) ⊥ := by
  induction elements with
  | nil => rfl
  | cons element elements ih =>
      have split := observer.sketch_append [element] elements
      rw [List.singleton_append] at split
      rw [split, Pi.sup_apply, ih]
      by_cases here : observer.bucket element = bucket
      · subst here
        simp [Observer.sketch, Observer.insert]
      · simp [Observer.sketch, Observer.insert, here, Function.update_of_ne (Ne.symm here)]

/-! ### Totally ordered ranks -/

section Linear

variable {Level : Type} [LinearOrder Level]

/-- A batch covers a rank when the array did, or one of its elements does. -/
theorem Observer.le_foldl_insert_apply_iff (observer : Observer Element Bucket Level)
    (elements : List Element) (array : Bucket → Level) (bucket : Bucket) (rank : Level) :
    rank ≤ elements.foldl observer.insert array bucket ↔
      rank ≤ array bucket ∨
        ∃ element ∈ elements, observer.bucket element = bucket ∧ rank ≤ observer.rank element := by
  induction elements generalizing array with
  | nil => simp
  | cons element elements ih =>
      rw [List.foldl_cons, ih, Observer.insert]
      by_cases here : bucket = observer.bucket element
      · subst here
        rw [Function.update_self, le_sup_iff]
        simp [or_assoc]
      · rw [Function.update_of_ne here]
        simp [Ne.symm here]

end Linear

end PhpHll.MaxSketch
