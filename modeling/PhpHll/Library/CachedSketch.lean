/-
Sketches with a cached summary.

The machine keeps one supremum per bucket and, beside it, a summary of the
array that was computed earlier.  Whatever changes the array drops the summary;
a summary is stored only if it can be told from a dropped one.  A stored
summary is therefore always the summary of the present array.
-/

import PhpHll.Library.MaxSketch

namespace PhpHll.CachedSketch

structure State (Bucket Rank Summary : Type) where
  array : Bucket → Rank
  cache : Option Summary

structure Model (Element Bucket Rank Summary : Type) where
  observer : MaxSketch.Observer Element Bucket Rank
  summary : (Bucket → Rank) → Summary
  storable : Summary → Bool

/-- `absorb` replaces the array by the supremum of the given ones, where `none`
is the array itself; `idle` stands for any change of representation. -/
inductive Op (Element Bucket Rank : Type)
  | observe (elements : List Element)
  | absorb (sources : List (Option (Bucket → Rank)))
  | summarise
  | idle

inductive Reply (Summary : Type)
  | changed (flag : Bool)
  | done
  | summary (value : Summary)

variable {Element Bucket Rank Summary : Type}

/-- A stored summary is the summary of the array. -/
def Model.Coherent (model : Model Element Bucket Rank Summary)
    (state : State Bucket Rank Summary) : Prop :=
  ∀ value, state.cache = some value → value = model.summary state.array

theorem Model.coherent_of_none (model : Model Element Bucket Rank Summary)
    (state : State Bucket Rank Summary) (dropped : state.cache = none) : model.Coherent state := by
  intro value stored
  rw [dropped] at stored
  cases stored

variable [DecidableEq Bucket] [SemilatticeSup Rank] [OrderBot Rank]

def absorbed (array : Bucket → Rank) (sources : List (Option (Bucket → Rank))) : Bucket → Rank :=
  (sources.map fun source => source.getD array).foldr (· ⊔ ·) ⊥

open Classical in
noncomputable def Model.step (model : Model Element Bucket Rank Summary) :
    Op Element Bucket Rank → State Bucket Rank Summary →
      Reply Summary × State Bucket Rank Summary
  | .observe elements, state =>
      if elements.foldl model.observer.insert state.array = state.array then
        (.changed false, state)
      else
        (.changed true,
          { array := elements.foldl model.observer.insert state.array
            cache := none })
  | .absorb sources, state =>
      (.done, { array := absorbed state.array sources, cache := none })
  | .summarise, state =>
      match state.cache with
      | some value => (.summary value, state)
      | none =>
          (.summary (model.summary state.array),
            { state with
              cache :=
                if model.storable (model.summary state.array) then
                  some (model.summary state.array)
                else none })
  | .idle, state => (.done, state)

theorem Model.step_observe_same (model : Model Element Bucket Rank Summary)
    (elements : List Element) (state : State Bucket Rank Summary)
    (same : elements.foldl model.observer.insert state.array = state.array) :
    model.step (.observe elements) state = (.changed false, state) := if_pos same

theorem Model.step_observe_new (model : Model Element Bucket Rank Summary)
    (elements : List Element) (state : State Bucket Rank Summary)
    (new : elements.foldl model.observer.insert state.array ≠ state.array) :
    model.step (.observe elements) state =
      (.changed true,
        { array := elements.foldl model.observer.insert state.array
          cache := none }) := if_neg new

theorem Model.step_array (model : Model Element Bucket Rank Summary) (op : Op Element Bucket Rank)
    (state : State Bucket Rank Summary) :
    (model.step op state).2.array =
      match op with
      | .observe elements => elements.foldl model.observer.insert state.array
      | .absorb sources => absorbed state.array sources
      | .summarise => state.array
      | .idle => state.array := by
  cases op with
  | observe elements =>
      by_cases same : elements.foldl model.observer.insert state.array = state.array
      · rw [model.step_observe_same elements state same]
        exact same.symm
      · rw [model.step_observe_new elements state same]
  | absorb sources => rfl
  | summarise =>
      obtain ⟨array, cache⟩ := state
      cases cache <;> rfl
  | idle => rfl

theorem Model.coherent_step (model : Model Element Bucket Rank Summary)
    (op : Op Element Bucket Rank) (state : State Bucket Rank Summary)
    (coherent : model.Coherent state) : model.Coherent (model.step op state).2 := by
  cases op with
  | observe elements =>
      by_cases same : elements.foldl model.observer.insert state.array = state.array
      · rw [model.step_observe_same elements state same]
        exact coherent
      · rw [model.step_observe_new elements state same]
        exact model.coherent_of_none _ rfl
  | absorb sources => exact model.coherent_of_none _ rfl
  | summarise =>
      obtain ⟨array, cache⟩ := state
      cases cache with
      | some value => exact coherent
      | none =>
          intro value stored
          simp only [Model.step] at stored ⊢
          split at stored
          · exact (Option.some.inj stored).symm
          · cases stored
  | idle => exact coherent

end PhpHll.CachedSketch
