/-
Accesses to one allocation that may be resized.

A computation that logs its reads, its writes and the sizes it asks the
allocator for is replayed against the size of its allocation: every access has
to lie inside the size of that moment.  The replay ends with the last size, so
the rules below follow the computation step by step.
-/

import Mathlib.Data.List.Basic
import PhpHll.Library.Logged

namespace PhpHll.Allocation

open Logged

/-- Offsets count from the start of the allocation; they are integers, so that
one in front of it would show. -/
inductive Touch
  | read (offset : Int)
  | write (offset : Int)
  | resize (size : Nat)
  deriving DecidableEq

/-- The size after the accesses, unless one of them lies outside. -/
def replay : Nat → List Touch → Option Nat
  | size, [] => some size
  | size, .read offset :: rest =>
      if 0 ≤ offset ∧ offset < size then replay size rest else none
  | size, .write offset :: rest =>
      if 0 ≤ offset ∧ offset < size then replay size rest else none
  | _, .resize size :: rest => replay size rest

theorem replay_append (size : Nat) (first second : List Touch) :
    replay size (first ++ second) = (replay size first).bind fun next => replay next second := by
  induction first generalizing size with
  | nil => rfl
  | cons touch first ih =>
      cases touch with
      | read offset =>
          simp only [List.cons_append, replay]
          split
          · exact ih size
          · rfl
      | write offset =>
          simp only [List.cons_append, replay]
          split
          · exact ih size
          · rfl
      | resize next => exact ih next

variable {Value Result : Type}

/-- In an allocation of the first size, all accesses lie inside, and the second
size is the last one. -/
def Stays (before : Nat) (logged : Logged Touch Value) (after : Nat) : Prop :=
  replay before logged.events = some after

theorem stays_pure (size : Nat) (value : Value) :
    Stays size (pure value : Logged Touch Value) size := rfl

theorem Stays.bind {before between after : Nat} {first : Logged Touch Value}
    {next : Value → Logged Touch Result} (left : Stays before first between)
    (right : Stays between (next first.value) after) : Stays before (first >>= next) after := by
  have split : (first >>= next).events = first.events ++ (next first.value).events := rfl
  unfold Stays at left right ⊢
  rw [split, replay_append, left, Option.bind_some, right]

theorem Stays.andThen {Fault : Type} {before between after : Nat} {value : Value}
    {first : Logged Touch (Except Fault Value)}
    {next : Value → Logged Touch (Except Fault Result)} (left : Stays before first between)
    (ran : first.value = .ok value) (right : Stays between (next value) after) :
    Stays before (first.andThen next) after := by
  refine left.bind ?_
  rw [ran]
  exact right

theorem stays_read {size : Nat} {offset : Int} (inside : 0 ≤ offset ∧ offset < size) :
    Stays size (emit (.read offset)) size := if_pos inside

theorem stays_write {size : Nat} {offset : Int} (inside : 0 ≤ offset ∧ offset < size) :
    Stays size (emit (.write offset)) size := if_pos inside

theorem stays_resize (before after : Nat) : Stays before (emit (.resize after)) after := rfl

/-! ### Blocks -/

def reads (start : Int) (count : Nat) : List Touch :=
  (List.range count).map fun i : Nat => .read (start + i)

def writes (start : Int) (count : Nat) : List Touch :=
  (List.range count).map fun i : Nat => .write (start + i)

private theorem replay_all (size : Nat) (touches : List Touch)
    (inside : ∀ touch ∈ touches, replay size [touch] = some size) :
    replay size touches = some size := by
  induction touches with
  | nil => rfl
  | cons touch touches ih =>
      rw [List.forall_mem_cons] at inside
      have split : touch :: touches = [touch] ++ touches := rfl
      rw [split, replay_append, inside.1, Option.bind_some, ih inside.2]

theorem stays_reads {size count : Nat} {start : Int} (front : 0 ≤ start)
    (back : start + count ≤ size) : Stays size (emitAll (reads start count)) size := by
  refine replay_all size (reads start count) fun touch member => ?_
  obtain ⟨i, below, rfl⟩ := List.mem_map.mp member
  have bound := List.mem_range.mp below
  exact if_pos ⟨by omega, by omega⟩

theorem stays_writes {size count : Nat} {start : Int} (front : 0 ≤ start)
    (back : start + count ≤ size) : Stays size (emitAll (writes start count)) size := by
  refine replay_all size (writes start count) fun touch member => ?_
  obtain ⟨i, below, rfl⟩ := List.mem_map.mp member
  have bound := List.mem_range.mp below
  exact if_pos ⟨by omega, by omega⟩

end PhpHll.Allocation
