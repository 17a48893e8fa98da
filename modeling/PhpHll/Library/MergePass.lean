/-
One bounded pass that merges neighbours in a list.

The pass stands at one element.  A turn merges it with the next one, where the
partial operation allows it, and stays there, or moves on; after a given number
of turns the pass stops.  A relation between neighbours that survives a merge
of either of them is kept by the pass, and a pass with a turn for each element
of a disturbed front leaves no two neighbours that can be merged.
-/

import Mathlib.Data.List.Chain

namespace PhpHll.MergePass

variable {α : Type} (merge : α → α → Option α)

def pass : Nat → List α → List α
  | 0, items => items
  | _ + 1, [] => []
  | _ + 1, [item] => [item]
  | turns + 1, first :: second :: rest =>
      match merge first second with
      | some merged => pass turns (merged :: rest)
      | none => first :: pass turns (second :: rest)

def Apart (first second : α) : Prop := merge first second = none

/-- What holds between an element and its neighbours holds between them and the
element it is merged into. -/
structure Survives (Rel : α → α → Prop) : Prop where
  left : ∀ first second merged before, merge first second = some merged →
    Rel before first → Rel before merged
  right : ∀ first second merged after, merge first second = some merged →
    Rel second after → Rel merged after

variable {merge} {Rel : α → α → Prop}

theorem Survives.pass_head (survives : Survives merge Rel) (turns : Nat) (before first : α)
    (rest : List α) (related : Rel before first) :
    ∀ head ∈ (pass merge turns (first :: rest)).head?, Rel before head := by
  induction turns generalizing first rest with
  | zero =>
      intro head member
      cases member
      exact related
  | succ turns ih =>
      cases rest with
      | nil =>
          intro head member
          cases member
          exact related
      | cons second rest =>
          rw [pass]
          cases can : merge first second with
          | none =>
              intro head member
              cases member
              exact related
          | some merged => exact ih merged rest (survives.left _ _ _ _ can related)

theorem Survives.pass_isChain (survives : Survives merge Rel) (turns : Nat) (items : List α)
    (chain : items.IsChain Rel) : (pass merge turns items).IsChain Rel := by
  fun_induction pass merge turns items with
  | case1 items => exact chain
  | case2 turns => exact chain
  | case3 turns item => exact chain
  | case4 turns first second rest merged can ih =>
      apply ih
      have tail := List.isChain_cons.mp (List.isChain_cons.mp chain).2
      exact List.isChain_cons.mpr
        ⟨fun after member => survives.right _ _ _ _ can (tail.1 after member), tail.2⟩
  | case5 turns first second rest cannot ih =>
      obtain ⟨related, tail⟩ := List.isChain_cons.mp chain
      exact List.isChain_cons.mpr
        ⟨survives.pass_head turns first second rest (related second rfl), ih tail⟩

/-- What holds where a kept list meets the items holds where it meets the pass. -/
theorem Survives.junction (survives : Survives merge Rel) (turns : Nat) (kept items : List α)
    (related : ∀ last ∈ kept.getLast?, ∀ head ∈ items.head?, Rel last head) :
    ∀ last ∈ kept.getLast?, ∀ head ∈ (pass merge turns items).head?, Rel last head := by
  intro last lastMember
  cases items with
  | nil =>
      intro head member
      cases turns <;> cases member
  | cons first rest =>
      exact survives.pass_head turns last first rest (related last lastMember first rfl)

theorem Survives.append_pass_isChain (survives : Survives merge Rel) (turns : Nat)
    (kept items : List α) (chain : (kept ++ items).IsChain Rel) :
    (kept ++ pass merge turns items).IsChain Rel := by
  obtain ⟨keptChain, itemsChain, related⟩ := List.isChain_append.mp chain
  exact List.isChain_append.mpr ⟨keptChain, survives.pass_isChain turns items itemsChain,
    survives.junction turns kept items related⟩

/-- Behind the front nothing can be merged, so a turn for each element of the
front is enough. -/
theorem pass_apart (survives : Survives merge (Apart merge)) (turns : Nat) (front rest : List α)
    (enough : front.length ≤ turns) (apart : rest.IsChain (Apart merge)) :
    (pass merge turns (front ++ rest)).IsChain (Apart merge) := by
  induction turns generalizing front rest with
  | zero =>
      have empty := List.length_eq_zero_iff.mp (Nat.le_zero.mp enough)
      rw [empty]
      exact apart
  | succ turns ih =>
      cases front with
      | nil => exact survives.pass_isChain (turns + 1) rest apart
      | cons first front =>
          have fewer : front.length ≤ turns := Nat.le_of_succ_le_succ enough
          have later := ih front rest fewer apart
          rw [List.cons_append]
          cases split : front ++ rest with
          | nil => exact List.isChain_singleton first
          | cons second tail =>
              rw [split] at later
              rw [pass]
              cases can : merge first second with
              | none =>
                  exact List.isChain_cons.mpr
                    ⟨survives.pass_head turns first second tail can, later⟩
              | some merged =>
                  cases front with
                  | nil =>
                      rw [List.nil_append] at split
                      rw [split] at apart
                      obtain ⟨related, tailApart⟩ := List.isChain_cons.mp apart
                      apply survives.pass_isChain turns
                      exact List.isChain_cons.mpr
                        ⟨fun after member => survives.right _ _ _ _ can (related after member),
                          tailApart⟩
                  | cons other front =>
                      obtain ⟨_same, tailEq⟩ := List.cons.inj split
                      rw [← tailEq]
                      exact ih (merged :: front) rest fewer apart

theorem pass_all {Holds : α → Prop}
    (keeps : ∀ first second merged, merge first second = some merged → Holds merged)
    (turns : Nat) (items : List α) (all : ∀ item ∈ items, Holds item) :
    ∀ item ∈ pass merge turns items, Holds item := by
  fun_induction pass merge turns items with
  | case1 items => exact all
  | case2 turns => exact all
  | case3 turns item => exact all
  | case4 turns first second rest merged can ih =>
      apply ih
      obtain ⟨_first, tail⟩ := List.forall_mem_cons.mp all
      exact List.forall_mem_cons.mpr
        ⟨keeps first second merged can, (List.forall_mem_cons.mp tail).2⟩
  | case5 turns first second rest cannot ih =>
      obtain ⟨here, tail⟩ := List.forall_mem_cons.mp all
      exact List.forall_mem_cons.mpr ⟨here, ih tail⟩

end PhpHll.MergePass
