/-
Computations with a log.

A logged computation is a value together with the events of its evaluation, in
order.  `value` forgets the log and commutes with every way of putting
computations together, so a logged program is compared with the plain one by
rewriting.  `Each` says that all events have a property, and is decided one
step at a time.
-/

import Mathlib.Data.List.Basic

namespace PhpHll

structure Logged (Event Value : Type) where
  events : List Event
  value : Value

namespace Logged

variable {Event Value Result : Type}

def emit (event : Event) : Logged Event Unit := { events := [event], value := () }

def emitAll (events : List Event) : Logged Event Unit := { events := events, value := () }

/-- The value together with where it came from, for recursions that terminate
because of it. -/
def attach (logged : Logged Event Value) : Logged Event { value // value = logged.value } :=
  { events := logged.events, value := ⟨logged.value, rfl⟩ }

instance : Monad (Logged Event) where
  pure value := { events := [], value := value }
  bind first next :=
    { events := first.events ++ (next first.value).events
      value := (next first.value).value }

@[simp] theorem value_pure (value : Value) :
    (pure value : Logged Event Value).value = value := rfl

@[simp] theorem value_bind (first : Logged Event Value) (next : Value → Logged Event Result) :
    (first >>= next).value = (next first.value).value := rfl

@[simp] theorem value_ite (condition : Prop) [Decidable condition]
    (first second : Logged Event Value) :
    (if condition then first else second).value =
      if condition then first.value else second.value := apply_ite Logged.value _ _ _

/-- Go on with the value of a computation that has not failed. -/
def andThen {Fault : Type} (first : Logged Event (Except Fault Value))
    (next : Value → Logged Event (Except Fault Result)) : Logged Event (Except Fault Result) :=
  first >>= fun outcome =>
    match outcome with
    | .error fault => pure (.error fault)
    | .ok value => next value

theorem value_andThen {Fault : Type} (first : Logged Event (Except Fault Value))
    (next : Value → Logged Event (Except Fault Result)) :
    (first.andThen next).value =
      match first.value with
      | .error fault => .error fault
      | .ok value => (next value).value := by
  rw [andThen, value_bind]
  cases first.value <;> rfl

/-- Every event of the log has the property. -/
def Each (property : Event → Prop) (logged : Logged Event Value) : Prop :=
  ∀ event ∈ logged.events, property event

section Each

variable {property : Event → Prop}

@[simp] theorem each_pure (value : Value) :
    (pure value : Logged Event Value).Each property :=
  fun _ member => absurd member List.not_mem_nil

@[simp] theorem each_emit (event : Event) : (emit event).Each property ↔ property event :=
  List.forall_mem_singleton

@[simp] theorem each_emitAll (events : List Event) :
    (emitAll events).Each property ↔ ∀ event ∈ events, property event := Iff.rfl

@[simp] theorem each_bind (first : Logged Event Value) (next : Value → Logged Event Result) :
    (first >>= next).Each property ↔
      first.Each property ∧ (next first.value).Each property := List.forall_mem_append

theorem each_andThen {Fault : Type} (first : Logged Event (Except Fault Value))
    (next : Value → Logged Event (Except Fault Result)) :
    (first.andThen next).Each property ↔
      first.Each property ∧ ∀ value, first.value = .ok value → (next value).Each property := by
  rw [andThen, each_bind]
  cases first.value with
  | error fault => simp
  | ok value => simp

/-- A branch has to be good only where it is taken. -/
@[simp] theorem each_ite (condition : Prop) [Decidable condition]
    (first second : Logged Event Value) :
    (if condition then first else second).Each property ↔
      (condition → first.Each property) ∧ (¬condition → second.Each property) := by
  by_cases holds : condition
  · simp [holds]
  · simp [holds]

end Each

end Logged

end PhpHll
