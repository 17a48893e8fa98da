/-
The update flags of the PHP interfaces.

The core answers an add with 1, 0 or -1.  `hll_add` returns whether the answer
is 1, while `HyperLogLog::add` stores whether it is not 0 in its second
argument.  The two agree, and say what happened, on every answer but -1.  An add
answers -1 when it looks at a payload as a whole and finds it corrupt; a batch
is a run of such adds, each on the object that the one before it leaves.
-/

import PhpHll.Batches
import PhpHll.Failures
import PhpHll.BinarySafety

namespace PhpHll

open ByteMemory

/-! ### The adds that fail -/

/-- The add of an element finds the payload corrupt. -/
def Notices (env : Env) (o : Robj) (ele : List Byte) : Prop :=
  encoding o.ptr.buf = hllSparse ∧ lengthAll (payloadOpcodes o.ptr) % 2 ^ 32 ≠ 16384 ∧
    AddNotices env o.ptr (hllPatLen ele)

/-- An add that looks at the payload as a whole finds the registers it asks for,
and no run that leaves the array. -/
def PayloadPasses (env : Env) (o : Robj) (ele : List Byte) : Prop :=
  encoding o.ptr.buf = hllSparse → AddNotices env o.ptr (hllPatLen ele) →
    lengthAll (payloadOpcodes o.ptr) % 2 ^ 32 = 16384 ∧ RunsInArray 0 (payloadOpcodes o.ptr)

def hllAddIndices (env : Env) (o : Robj) (ele : List Byte) : List Int :=
  if encoding o.ptr.buf = hllDense then [((hllPatLen ele).index : Int)]
  else if encoding o.ptr.buf = hllSparse then hllSparseAddIndices env o ele
  else []

/-- The register indices of the loop of `pfAddMany`, up to an add that fails. -/
def pfAddManyIndices (env : Env) : List (List Byte) → Robj → List Int
  | [], _ => []
  | ele :: rest, o =>
      hllAddIndices env o ele ++
        match hllAdd env o ele with
        | .error _ => []
        | .ok (retval, o) => if retval = -1 then [] else pfAddManyIndices env rest o

/-- A run of adds, every one of which meets the condition on the object it finds. -/
inductive AddsRun (env : Env) : Robj → List (List Byte) → Robj → Prop
  | start (o : Robj) : AddsRun env o [] o
  | step {o next last : Robj} {ele : List Byte} {rest : List (List Byte)} {retval : Int}
      (passes : PayloadPasses env o ele) (added : hllAdd env o ele = .ok (retval, next))
      (later : AddsRun env next rest last) : AddsRun env o (ele :: rest) last

private theorem encoding_cases {o : Robj} (accepted : isHLLObjectOrReply (some o) = cOk) :
    encoding o.ptr.buf = hllDense ∨ encoding o.ptr.buf = hllSparse := by
  have twoEncodings : ∀ byte : Byte, byte ≤ hllMaxEncoding →
      byte = hllDense ∨ byte = hllSparse := by decide
  obtain ⟨_long, _magic, known, _sized⟩ := (accepted_iff o).mp accepted
  exact twoEncodings _ known

private theorem hllAdd_failed_iff (env : Env) (o : Robj) (ele : List Byte)
    (accepted : isHLLObjectOrReply (some o) = cOk) :
    (∃ next, hllAdd env o ele = .ok (-1, next)) ↔ Notices env o ele := by
  rcases encoding_cases accepted with dense | sparse
  · constructor
    · rintro ⟨next, failed⟩
      exact absurd failed (hllAdd_dense_not_failed dense)
    · rintro ⟨sparse, _⟩
      exact absurd dense (notDense_of_sparse sparse)
  · have notDense := notDense_of_sparse sparse
    have added : hllAdd env o ele = hllSparseAdd env o ele := by
      rw [hllAdd, if_neg notDense, if_pos sparse]
    rw [added, Notices, and_iff_right sparse]
    rcases hllSparseAdd_fails_cases env o ele notDense (long_of_accepted accepted) with
      ⟨noticed, next, failed, _same⟩ | ⟨unnoticed, fine⟩
    · exact iff_of_true ⟨next, failed⟩ noticed
    · refine iff_of_false ?_ unnoticed
      rintro ⟨next, failed⟩
      exact fine next failed

theorem payloadPasses_iff (env : Env) (o : Robj) (ele : List Byte)
    (accepted : isHLLObjectOrReply (some o) = cOk) :
    PayloadPasses env o ele ↔
      ¬Notices env o ele ∧ ∀ idx ∈ hllAddIndices env o ele, 0 ≤ idx ∧ idx < 16384 := by
  rcases encoding_cases accepted with dense | sparse
  · have notSparse : encoding o.ptr.buf ≠ hllSparse := fun sparse =>
      notDense_of_sparse sparse dense
    have inside := hllPatLen_index_lt ele
    refine iff_of_true (fun sparse => absurd sparse notSparse) ⟨fun noticed => ?_, ?_⟩
    · exact notSparse noticed.1
    · rw [hllAddIndices, if_pos dense, List.forall_mem_singleton]
      omega
  · have notDense := notDense_of_sparse sparse
    rw [hllAddIndices, if_neg notDense, if_pos sparse,
      hllSparseAddIndices_in_array_iff env o ele notDense (long_of_accepted accepted),
      PayloadPasses, Notices]
    constructor
    · intro passes
      exact ⟨fun noticed => noticed.2.1 (passes sparse noticed.2.2).1,
        fun noticed => (passes sparse noticed).2⟩
    · rintro ⟨unnoticed, inside⟩ _ noticed
      exact ⟨not_not.mp fun other => unnoticed ⟨sparse, other, noticed⟩, inside noticed⟩

/-- The step lemma: an add that meets the condition answers 1 or 0. -/
private theorem hllAdd_passes {env : Env} {o next : Robj} {ele : List Byte} {retval : Int}
    (accepted : isHLLObjectOrReply (some o) = cOk) (passes : PayloadPasses env o ele)
    (added : hllAdd env o ele = .ok (retval, next)) :
    isHLLObjectOrReply (some next) = cOk ∧ (retval = 1 ∨ retval = 0) := by
  have effect := hllAdd_effect accepted added
  have unnoticed := ((payloadPasses_iff env o ele accepted).mp passes).1
  refine ⟨effect.accepted accepted, ?_⟩
  cases effect with
  | kept _same quiet =>
      refine Or.inr (quiet.resolve_right fun failed => unnoticed ?_)
      subst failed
      exact (hllAdd_failed_iff env o ele accepted).mp ⟨next, added⟩
  | edited _sparse one _long _header => exact Or.inl one
  | dense one _object _header => exact Or.inl one

/-- The run lemma: a batch of such adds answers 1 or 0 and stays in the array. -/
theorem AddsRun.answer {env : Env} {o last : Robj} {eles : List (List Byte)}
    (run : AddsRun env o eles last) (accepted : isHLLObjectOrReply (some o) = cOk)
    (updated : Nat) :
    (∃ retval after, pfAddManyLoop env eles updated o = .ok (retval, after) ∧
        (retval = 1 ∨ retval = 0)) ∧
      ∀ idx ∈ pfAddManyIndices env eles o, 0 ≤ idx ∧ idx < 16384 := by
  induction run generalizing updated with
  | start o =>
      refine ⟨?_, List.forall_mem_nil _⟩
      rw [pfAddManyLoop]
      split
      · exact ⟨1, _, rfl, Or.inl rfl⟩
      · exact ⟨0, _, rfl, Or.inr rfl⟩
  | @step o next last ele rest retval passes added later ih =>
      obtain ⟨acceptedNext, answer⟩ := hllAdd_passes accepted passes added
      have fine : ¬retval = -1 := by omega
      have inside := ((payloadPasses_iff env o ele accepted).mp passes).2
      rw [pfAddManyLoop, pfAddManyIndices, added]
      simp only [if_neg fine]
      refine ⟨?_, List.forall_mem_append.mpr ⟨inside, (ih acceptedNext updated).2⟩⟩
      split
      · exact (ih acceptedNext (updated + 1)).1
      · exact (ih acceptedNext updated).1

theorem AddsRun.fails {env : Env} {o found : Robj} {before after : List (List Byte)}
    {ele : List Byte} (run : AddsRun env o before found)
    (accepted : isHLLObjectOrReply (some o) = cOk) (noticed : Notices env found ele)
    (updated : Nat) :
    ∃ last, pfAddManyLoop env (before ++ ele :: after) updated o = .ok (cErr, last) := by
  induction run generalizing updated with
  | start o =>
      obtain ⟨next, failed⟩ := (hllAdd_failed_iff env o ele accepted).mpr noticed
      refine ⟨next, ?_⟩
      rw [List.nil_append, pfAddManyLoop, failed]
      simp only [if_true]
  | @step o next last first rest retval passes added later ih =>
      obtain ⟨acceptedNext, answer⟩ := hllAdd_passes accepted passes added
      have fine : ¬retval = -1 := by omega
      rw [List.cons_append, pfAddManyLoop, added]
      simp only [if_neg fine]
      split
      · exact ih acceptedNext noticed (updated + 1)
      · exact ih acceptedNext noticed updated

private theorem pfAddMany_of_loop {env : Env} {o after : Robj} {eles : List (List Byte)}
    {retval updated : Int} {next : Option Robj} (accepted : isHLLObjectOrReply (some o) = cOk)
    (loop : pfAddManyLoop env eles 0 o = .ok (retval, after))
    (ran : pfAddMany env (some o) eles = .ok (updated, next)) : updated = retval := by
  rw [pfAddMany, if_neg (not_not.mpr accepted), loop] at ran
  cases ran
  rfl

/-! ### The flags -/

theorem php_flags {env : Env} {tryConvertToString : TryConvert} {hll : Robj} {data : Zval}
    {added : PhpAdd} (ran : phpHllAdd env tryConvertToString hll data 0 = .ok added)
    (success : added.ret = .success) :
    phpMethodAdd env tryConvertToString hll data =
        .ok
          { returnsThis := true
            updArg := some (decide (added.updated ≠ 0))
            warnings := added.warnings
            hll := added.hll } ∧
      phpFunctionAdd env tryConvertToString hll data =
        .ok
          { returned := decide (added.updated = 1)
            warnings := added.warnings
            hll := added.hll } := by
  rw [phpMethodAdd, phpFunctionAdd, ran]
  simp only [success, ne_eq, not_true, if_false, and_self]

/-- Both interfaces tell the truth about an add: they agree, neither reports a
failed add as an update, and on a well-formed object both report exactly the
changes of the registers. -/
structure Truthful (hll : Robj) (added : PhpAdd) (method : MethodAdd) (function : FunctionAdd) :
    Prop where
  agree : method.updArg = some function.returned
  failed : added.updated = cErr → method.updArg = some false ∧ function.returned = false
  changed : WellFormed hll → (function.returned = true ↔ registers function.hll ≠ registers hll)

theorem phpHllAdd_success {env : Env} {tryConvertToString : TryConvert} {hll : Robj} {data : Zval}
    {added : PhpAdd} (ran : phpHllAdd env tryConvertToString hll data 0 = .ok added)
    (success : added.ret = .success) :
    ∃ strings next, data.takenStrings tryConvertToString = some strings ∧
      pfAddMany env (some hll) (strings.map cString) = .ok (added.updated, next) ∧
      added.hll = next.getD hll := by
  have adds := phpHllAdd_eq env tryConvertToString hll data 0
  cases converted : data.takenStrings tryConvertToString with
  | none =>
      rw [converted] at adds
      obtain ⟨warnings, refused⟩ := adds
      rw [ran] at refused
      cases refused
      cases success
  | some strings =>
      rw [converted] at adds
      simp only at adds
      rw [ran] at adds
      cases answer : pfAddMany env (some hll) (strings.map cString) with
      | error abort =>
          rw [answer] at adds
          cases adds
      | ok result =>
          rw [answer] at adds
          cases adds
          exact ⟨strings, result.2, rfl, answer, rfl⟩

def FlagsTruthful (env : Env) (tryConvertToString : TryConvert) (hll : Robj) (data : Zval)
    (added : PhpAdd) : Prop :=
  ∃ method function,
    phpMethodAdd env tryConvertToString hll data = .ok method ∧
    phpFunctionAdd env tryConvertToString hll data = .ok function ∧
    Truthful hll added method function

private theorem not_truthful_of_failed {env : Env} {tryConvertToString : TryConvert} {hll : Robj}
    {data : Zval} {added : PhpAdd} (ran : phpHllAdd env tryConvertToString hll data 0 = .ok added)
    (success : added.ret = .success) (failed : added.updated = cErr) :
    ¬FlagsTruthful env tryConvertToString hll data added := by
  rintro ⟨_, _, ranMethod, _ranFunction, truthful⟩
  cases (php_flags ran success).1.symm.trans ranMethod
  have stored := (truthful.failed failed).1
  rw [failed] at stored
  cases stored

private theorem truthful_of_fine {env : Env} {tryConvertToString : TryConvert} {hll : Robj}
    {data : Zval} {added : PhpAdd} (ran : phpHllAdd env tryConvertToString hll data 0 = .ok added)
    (success : added.ret = .success) (fine : added.updated = 1 ∨ added.updated = 0) :
    FlagsTruthful env tryConvertToString hll data added := by
  obtain ⟨method, function⟩ := php_flags ran success
  obtain ⟨strings, next, _converted, answer, left⟩ := phpHllAdd_success ran success
  have notErr : added.updated ≠ cErr := by
    rcases fine with one | zero
    · rw [one]
      decide
    · rw [zero]
      decide
  refine ⟨_, _, method, function, ?_, fun error => absurd error notErr, ?_⟩
  · rcases fine with one | zero
    · rw [one]
      rfl
    · rw [zero]
      rfl
  · intro formed
    obtain ⟨after, answered, formedAfter, _valid, observed⟩ :=
      pfAddMany_observes env formed (strings.map cString)
    have same := Except.ok.inj (answer.symm.trans answered)
    have object : added.hll = after := by
      rw [left, (Prod.mk.inj same).2]
      rfl
    have vector : registers added.hll =
        (strings.map cString).foldl patternObserver.insert (registers hll) := by
      rw [object]
      exact (congrArg CachedSketch.State.array observed).trans
        ((counterModel env).step_array _ (abstraction hll))
    simp only [decide_eq_true_eq, (Prod.mk.inj same).1, vector]
    split
    · rename_i unchanged
      exact iff_of_false (by decide) (not_not.mpr unchanged)
    · rename_i changed
      exact iff_of_true rfl changed

private theorem truthful_of_wellFormed {env : Env} {tryConvertToString : TryConvert} {hll : Robj}
    {data : Zval} {added : PhpAdd} (ran : phpHllAdd env tryConvertToString hll data 0 = .ok added)
    (success : added.ret = .success) (formed : WellFormed hll) :
    FlagsTruthful env tryConvertToString hll data added := by
  obtain ⟨strings, next, _converted, answer, _left⟩ := phpHllAdd_success ran success
  obtain ⟨after, answered, _⟩ := pfAddMany_observes env formed (strings.map cString)
  have same := (Prod.mk.inj (Except.ok.inj (answer.symm.trans answered))).1
  refine truthful_of_fine ran success ?_
  rw [same]
  exact (ite_eq_or_eq _ _ _).symm

/-- On an accepted object, whatever its payload: for a lone string the interfaces
stay in the registers and are truthful exactly when its add meets the condition;
for a batch they are when every add meets it on the object it finds, and are not
when an add finds the payload corrupt behind such adds; and on a well-formed
object they always are. -/
theorem php_flags_truthful_iff (env : Env) (tryConvertToString : TryConvert) (hll : Robj)
    (data : Zval) (added : PhpAdd) (accepted : isHLLObjectOrReply (some hll) = cOk)
    (ran : phpHllAdd env tryConvertToString hll data 0 = .ok added)
    (success : added.ret = .success) :
    (∀ value, data.takenStrings tryConvertToString = some [value] →
      ((∀ idx ∈ hllAddIndices env hll (cString value), 0 ≤ idx ∧ idx < 16384) ∧
          FlagsTruthful env tryConvertToString hll data added ↔
        PayloadPasses env hll (cString value))) ∧
    (∀ strings last, data.takenStrings tryConvertToString = some strings →
      AddsRun env hll (strings.map cString) last →
      (∀ idx ∈ pfAddManyIndices env (strings.map cString) hll, 0 ≤ idx ∧ idx < 16384) ∧
        FlagsTruthful env tryConvertToString hll data added) ∧
    (∀ before value after found,
      data.takenStrings tryConvertToString = some (before ++ value :: after) →
      AddsRun env hll (before.map cString) found → Notices env found (cString value) →
      ¬FlagsTruthful env tryConvertToString hll data added) ∧
    (WellFormed hll → FlagsTruthful env tryConvertToString hll data added) := by
  obtain ⟨strings, next, converted, answer, left⟩ := phpHllAdd_success ran success
  have fails (before : List (List Byte)) (value : List Byte) (after : List (List Byte))
      (found : Robj) (split : strings = before ++ value :: after)
      (run : AddsRun env hll (before.map cString) found)
      (noticed : Notices env found (cString value)) :
      ¬FlagsTruthful env tryConvertToString hll data added := by
    obtain ⟨last, loop⟩ : ∃ last, pfAddManyLoop env
        (before.map cString ++ cString value :: after.map cString) 0 hll = .ok (cErr, last) :=
      run.fails accepted noticed 0
    rw [split, List.map_append, List.map_cons] at answer
    exact not_truthful_of_failed ran success (pfAddMany_of_loop accepted loop answer)
  have holds (last : Robj) (run : AddsRun env hll (strings.map cString) last) :
      (∀ idx ∈ pfAddManyIndices env (strings.map cString) hll, 0 ≤ idx ∧ idx < 16384) ∧
        FlagsTruthful env tryConvertToString hll data added := by
    obtain ⟨⟨retval, object, loop, fine⟩, inside⟩ := run.answer accepted 0
    rw [← pfAddMany_of_loop accepted loop answer] at fine
    exact ⟨inside, truthful_of_fine ran success fine⟩
  refine ⟨fun value single => ?_, fun strings' last same run => ?_,
    fun before value after found same run noticed => ?_, truthful_of_wellFormed ran success⟩
  · cases converted.symm.trans single
    rw [payloadPasses_iff env hll _ accepted, and_comm]
    refine and_congr_left fun inside => ?_
    constructor
    · exact fun truthful noticed => fails [] value [] hll rfl (.start hll) noticed truthful
    · intro unnoticed
      have passes := (payloadPasses_iff env hll _ accepted).mpr ⟨unnoticed, inside⟩
      cases step : hllAdd env hll (cString value) with
      | error abort =>
          rw [List.map_singleton, pfAddMany, if_neg (not_not.mpr accepted), pfAddManyLoop,
            step] at answer
          cases answer
      | ok result => exact (holds result.2 (.step passes step (.start _))).2
  · cases converted.symm.trans same
    exact holds last run
  · cases converted.symm.trans same
    exact fails before value after found rfl run noticed

/-- Two new elements: the answer is 1, and both flags say so. -/
theorem php_flags_truthful_iff_two :
    ∃ added,
      phpHllAdd server convertsPlain (created server)
          (.isArray [.isString [0x61#8], .isTrue]) 0 = .ok added ∧
      added.updated = 1 ∧
      FlagsTruthful server convertsPlain (created server)
        (.isArray [.isString [0x61#8], .isTrue]) added := by
  obtain ⟨after, answered, _⟩ := exists_fed server [[0x61#8], [0x31#8]] (by decide)
  have formed := (created_valid server).wellFormed
  have ran := phpHllAdd_eq server convertsPlain (created server)
    (.isArray [.isString [0x61#8], .isTrue]) 0
  change phpHllAdd server convertsPlain (created server)
    (.isArray [.isString [0x61#8], .isTrue]) 0 =
      phpHllAdded (created server)
        (pfAddMany server (some (created server)) [[0x61#8], [0x31#8]]) at ran
  rw [answered] at ran
  exact ⟨_, ran, rfl, (php_flags_truthful_iff server convertsPlain (created server) _ _
    formed.accepted ran rfl).2.2.2 formed⟩

/-- A failed add to a loaded object is an update to `HyperLogLog::add`, and none
to `hll_add`. -/
theorem failed_add_reported_as_update :
    hllLoad server headerOnly.ptr = (cOk, some { ptr := sdsdup server headerOnly.ptr }) ∧
      ∃ added method function,
        phpHllAdd server convertsPlain { ptr := sdsdup server headerOnly.ptr }
            (.isString [0x61#8]) 0 = .ok added ∧
        added.ret = .success ∧ added.updated = cErr ∧
        phpMethodAdd server convertsPlain { ptr := sdsdup server headerOnly.ptr }
            (.isString [0x61#8]) = .ok method ∧
        phpFunctionAdd server convertsPlain { ptr := sdsdup server headerOnly.ptr }
            (.isString [0x61#8]) = .ok function ∧
        method.updArg = some true ∧ function.returned = false := by
  have status : (phpHllAdd server convertsPlain { ptr := sdsdup server headerOnly.ptr }
      (.isString [0x61#8]) 0).map (fun added => (added.ret, added.updated)) =
      .ok (.success, cErr) := by decide +kernel
  cases ran : phpHllAdd server convertsPlain { ptr := sdsdup server headerOnly.ptr }
      (.isString [0x61#8]) 0 with
  | error abort =>
      rw [ran] at status
      cases status
  | ok added =>
      rw [ran] at status
      have answer := Prod.mk.inj (Except.ok.inj status)
      obtain ⟨method, function⟩ := php_flags ran answer.1
      refine ⟨hllLoad_of_accepted server _ (by decide), added, _, _, rfl, answer.1, answer.2,
        method, function, ?_, ?_⟩
      · rw [answer.2]
        rfl
      · rw [answer.2]
        rfl

end PhpHll
