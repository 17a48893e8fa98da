/-
Runs of a state machine with results and faults.

A step takes an operation and a state to a result and a next state, or stops
with a fault.  One simulation rule lifts a step-by-step correspondence with a
total abstract machine to whole runs, and one invariant rule lifts a preserved
property.  Both are used for every sequence argument of the development.
-/

import Mathlib.Data.List.Basic
import Mathlib.Data.List.Forall2

namespace PhpHll.Machine

variable {Op Result State Fault : Type}

def run (step : Op → State → Except Fault (Result × State)) :
    List Op → State → Except Fault (List Result × State)
  | [], state => .ok ([], state)
  | op :: ops, state =>
      match step op state with
      | .error fault => .error fault
      | .ok (result, next) =>
          match run step ops next with
          | .error fault => .error fault
          | .ok (results, last) => .ok (result :: results, last)

def drive (step : Op → State → Result × State) : List Op → State → List Result × State
  | [], state => ([], state)
  | op :: ops, state =>
      let (result, next) := step op state
      let (results, last) := drive step ops next
      (result :: results, last)

theorem run_cons_ok (step : Op → State → Except Fault (Result × State)) (op : Op) (ops : List Op)
    (state next last : State) (result : Result) (results : List Result)
    (first : step op state = .ok (result, next))
    (rest : run step ops next = .ok (results, last)) :
    run step (op :: ops) state = .ok (result :: results, last) := by
  simp only [run, first, rest]

theorem run_append_ok (step : Op → State → Except Fault (Result × State)) (first second : List Op)
    (state last : State) (results : List Result)
    (ran : run step (first ++ second) state = .ok (results, last)) :
    ∃ before between after, run step first state = .ok (before, between) ∧
      run step second between = .ok (after, last) := by
  induction first generalizing state results with
  | nil => exact ⟨[], state, results, rfl, ran⟩
  | cons op first ih =>
      rw [List.cons_append, run] at ran
      cases stepped : step op state with
      | error fault =>
          rw [stepped] at ran
          cases ran
      | ok outcome =>
          obtain ⟨result, next⟩ := outcome
          rw [stepped] at ran
          simp only at ran
          cases rest : run step (first ++ second) next with
          | error fault =>
              rw [rest] at ran
              cases ran
          | ok ending =>
              rw [rest] at ran
              cases ran
              obtain ⟨before, between, after, ranFirst, ranSecond⟩ := ih next _ rest
              exact ⟨result :: before, between, after,
                run_cons_ok step op first state next between result before stepped ranFirst,
                ranSecond⟩

/-- An invariant kept by every admissible step holds at the end of every
admissible run that returns. -/
theorem run_invariant (step : Op → State → Except Fault (Result × State))
    (Admissible : Op → Prop) (Invariant : State → Prop)
    (kept : ∀ op state result next, Admissible op → Invariant state →
      step op state = .ok (result, next) → Invariant next)
    (ops : List Op) (state last : State) (results : List Result)
    (admissible : ∀ op ∈ ops, Admissible op) (initial : Invariant state)
    (ran : run step ops state = .ok (results, last)) : Invariant last := by
  induction ops generalizing state results with
  | nil =>
      cases ran
      exact initial
  | cons op ops ih =>
      rw [run] at ran
      cases first : step op state with
      | error fault =>
          rw [first] at ran
          cases ran
      | ok outcome =>
          obtain ⟨result, next⟩ := outcome
          have between := kept op state result next (admissible op (List.mem_cons_self ..)) initial
            first
          rw [first] at ran
          simp only at ran
          cases rest : run step ops next with
          | error fault =>
              rw [rest] at ran
              cases ran
          | ok outcome =>
              rw [rest] at ran
              cases ran
              exact ih next _ (fun later member => admissible later (List.mem_cons_of_mem op member))
                between rest

/-- Where every admissible step under an invariant returns and keeps it, every
admissible run returns. -/
theorem run_returns (step : Op → State → Except Fault (Result × State))
    (Admissible : Op → Prop) (Invariant : State → Prop)
    (returns : ∀ op state, Admissible op → Invariant state →
      ∃ result next, step op state = .ok (result, next) ∧ Invariant next)
    (ops : List Op) (state : State) (admissible : ∀ op ∈ ops, Admissible op)
    (initial : Invariant state) :
    ∃ results last, run step ops state = .ok (results, last) ∧ Invariant last := by
  induction ops generalizing state with
  | nil => exact ⟨[], state, rfl, initial⟩
  | cons op ops ih =>
      obtain ⟨result, next, first, between⟩ :=
        returns op state (admissible op (List.mem_cons_self ..)) initial
      obtain ⟨results, last, rest, final⟩ :=
        ih next (fun later member => admissible later (List.mem_cons_of_mem op member)) between
      exact ⟨result :: results, last,
        run_cons_ok step op ops state next last result results first rest, final⟩

/-- A relation kept by every admissible step, with equal results, is kept by
every admissible run, with equal results. -/
theorem run_refines {AbstractOp AbstractState : Type}
    (step : Op → State → Except Fault (Result × State))
    (abstractStep : AbstractOp → AbstractState → Result × AbstractState)
    (abstractOp : Op → AbstractOp) (Admissible : Op → Prop)
    (Related : State → AbstractState → Prop)
    (simulates : ∀ op state abstract, Admissible op → Related state abstract →
      ∃ next, step op state = .ok ((abstractStep (abstractOp op) abstract).1, next) ∧
        Related next (abstractStep (abstractOp op) abstract).2)
    (ops : List Op) (state : State) (abstract : AbstractState)
    (admissible : ∀ op ∈ ops, Admissible op) (related : Related state abstract) :
    ∃ last, run step ops state =
        .ok ((drive abstractStep (ops.map abstractOp) abstract).1, last) ∧
      Related last (drive abstractStep (ops.map abstractOp) abstract).2 := by
  induction ops generalizing state abstract with
  | nil => exact ⟨state, rfl, related⟩
  | cons op ops ih =>
      obtain ⟨next, first, nextRelated⟩ :=
        simulates op state abstract (admissible op (List.mem_cons_self ..)) related
      obtain ⟨last, rest, lastRelated⟩ :=
        ih next _ (fun later member => admissible later (List.mem_cons_of_mem op member))
          nextRelated
      refine ⟨last, ?_, lastRelated⟩
      exact run_cons_ok step op ops state next last _ _ first rest

/-- Operations that leave the abstract state alone can be dropped from a run
together with their results. -/
theorem drive_filter (step : Op → State → Result × State) (silent : Op → Bool)
    (idle : ∀ op state, silent op = true → (step op state).2 = state)
    (ops : List Op) (state : State) :
    ((ops.zip (drive step ops state).1).filter fun pair => !silent pair.1).map Prod.snd =
        (drive step (ops.filter fun op => !silent op) state).1 ∧
      (drive step ops state).2 = (drive step (ops.filter fun op => !silent op) state).2 := by
  induction ops generalizing state with
  | nil => exact ⟨rfl, rfl⟩
  | cons op ops ih =>
      obtain ⟨results, final⟩ := ih (step op state).2
      cases quiet : silent op with
      | true =>
          rw [idle op state quiet] at results final
          simp only [drive, List.zip_cons_cons, List.filter_cons, quiet, Bool.not_true,
            Bool.false_eq_true, if_false, idle op state quiet]
          exact ⟨results, final⟩
      | false =>
          simp only [drive, List.zip_cons_cons, List.filter_cons, quiet, Bool.not_false, if_true,
            List.map_cons, results, final]
          exact ⟨trivial, trivial⟩

/-! ### Machines that may both stop -/

section Agreement

variable {AbstractOp AbstractResult AbstractState : Type}

/-- Both stop with the same fault, or both go on, with results and states that
correspond. -/
def Agrees (Shows : Result → AbstractResult → Prop) (Related : State → AbstractState → Prop) :
    Except Fault (Result × State) → Except Fault (AbstractResult × AbstractState) → Prop
  | .error fault, .error abstractFault => fault = abstractFault
  | .ok (result, state), .ok (abstractResult, abstract) =>
      Shows result abstractResult ∧ Related state abstract
  | _, _ => False

/-- Steps that agree on corresponding operations make runs that agree. -/
theorem run_agrees (step : Op → State → Except Fault (Result × State))
    (abstractStep : AbstractOp → AbstractState → Except Fault (AbstractResult × AbstractState))
    (Corresponds : Op → AbstractOp → Prop) (Shows : Result → AbstractResult → Prop)
    (Related : State → AbstractState → Prop)
    (simulates : ∀ op abstractOp state abstract, Corresponds op abstractOp →
      Related state abstract →
      Agrees Shows Related (step op state) (abstractStep abstractOp abstract))
    (ops : List Op) (abstractOps : List AbstractOp)
    (corresponding : List.Forall₂ Corresponds ops abstractOps) (state : State)
    (abstract : AbstractState) (related : Related state abstract) :
    Agrees (List.Forall₂ Shows) Related (run step ops state)
      (run abstractStep abstractOps abstract) := by
  induction corresponding generalizing state abstract with
  | nil => exact ⟨.nil, related⟩
  | @cons op abstractOp ops abstractOps corresponds _ ih =>
      have first := simulates op abstractOp state abstract corresponds related
      rw [run, run]
      cases concrete : step op state with
      | error fault =>
          cases specified : abstractStep abstractOp abstract with
          | error abstractFault =>
              rw [concrete, specified] at first
              exact first
          | ok outcome =>
              rw [concrete, specified] at first
              exact first.elim
      | ok outcome =>
          cases specified : abstractStep abstractOp abstract with
          | error abstractFault =>
              rw [concrete, specified] at first
              exact first.elim
          | ok abstractOutcome =>
              rw [concrete, specified] at first
              obtain ⟨shows, next⟩ := first
              have rest := ih outcome.2 abstractOutcome.2 next
              simp only
              cases later : run step ops outcome.2 with
              | error fault =>
                  cases laterSpecified : run abstractStep abstractOps abstractOutcome.2 with
                  | error abstractFault =>
                      rw [later, laterSpecified] at rest
                      exact rest
                  | ok ending =>
                      rw [later, laterSpecified] at rest
                      exact rest.elim
              | ok ending =>
                  cases laterSpecified : run abstractStep abstractOps abstractOutcome.2 with
                  | error abstractFault =>
                      rw [later, laterSpecified] at rest
                      exact rest.elim
                  | ok abstractEnding =>
                      rw [later, laterSpecified] at rest
                      exact ⟨.cons shows rest.1, rest.2⟩

end Agreement

end PhpHll.Machine
