/-
What a call changes.

A call changes the HLL of one resource at most, the one it adds to or the one
that its object names, and it takes no element from any.  So at any later point
of a script every HLL is still there, with all its elements.
-/

import PhpHll.PhpSafety

namespace PhpHll

open ByteMemory Machine

/-! ### What a call changes -/

/-- The resource whose HLL a call may change: the one it adds to, or the one its
object names. -/
def PhpCall.target (objects : List (Option Nat)) : PhpCall → Option Nat
  | .hllAdd (.isResource resource) _ => some resource
  | .add object _ => objects[object]?.join
  | .merge object _ => objects[object]?.join
  | _ => none

/-- The resources behind a call: the same ones, with more elements in the
target, or with one more of them. -/
inductive SetStore.Changes (store : SetStore) (target : Option Nat) :
    List (Option ElementSet) → Prop
  | same : SetStore.Changes store target store.resources
  | insert (resource : Nat) (added : ElementSet) (here : target = some resource)
      (live : store.Live resource) :
      SetStore.Changes store target
        (store.resources.set resource (some (store.setOf resource ∪ added)))
  | register (set : Option ElementSet) :
      SetStore.Changes store target (store.resources ++ [set])

section Changes

variable {env : Env} {zend : Zend} {store next : SetStore} {reply : PhpReply SetValue}
  {target : Option Nat}

private theorem found_of_hllArgOnly {fetch : Fetch} {hll : Zval} {handle : Nat}
    (checked : hllArgOnly fetch hll = .found handle) :
    ∃ resource, hll = .isResource resource ∧ fetched (fetch resource) = .found handle := by
  cases hll with
  | isResource resource => exact ⟨resource, rfl, checked⟩
  | _ => cases checked

private theorem SetStore.found_iff {resource handle : Nat}
    (checked : fetched (store.fetch resource) = .found handle) : handle = resource := by
  cases fetches : store.fetch resource with
  | mk messages found =>
      rw [fetches] at checked
      cases found with
      | none => cases checked
      | some found =>
          cases checked
          exact (SetStore.live_of_fetch fetches).1

private theorem SetStore.found_of_object {object handle : Nat}
    (checked : hllObjArgOnly store.objects store.fetch object = .ok (.found handle)) :
    store.objects[object]?.join = some handle := by
  unfold hllObjArgOnly at checked
  split at checked
  · cases checked
  · cases checked
  · rename_i resource found
    rw [SetStore.found_iff (Except.ok.inj checked), found]
    rfl

/-- An answer that leaves the store alone. -/
private theorem changes_same {answered : PhpReply SetValue}
    (ran : (Except.ok (answered, store) : SetOutcome) = .ok (reply, next)) :
    store.Changes target next.resources := by
  cases ran
  exact .same

private theorem addSet_changes {hll data : Zval}
    (ran : addSet zend store hll data = .ok (reply, next)) :
    store.Changes ((PhpCall.hllAdd hll data).target store.objects) next.resources := by
  rw [addSet] at ran
  split at ran
  · exact changes_same ran
  · exact changes_same ran
  · rename_i handle checked
    obtain ⟨resource, rfl, fetches⟩ := found_of_hllArgOnly checked
    split at ran
    · exact changes_same ran
    · cases ran
      exact .insert handle _ (congrArg some (SetStore.found_iff fetches).symm)
        (SetStore.live_of_hllArgOnly checked)

private theorem addToObject_changes {object : Nat} {data : Zval}
    (ran : addToObject zend store object data = .ok (reply, next)) :
    store.Changes ((PhpCall.add object data).target store.objects) next.resources := by
  rw [addToObject] at ran
  split at ran
  · cases ran
  · exact changes_same ran
  · exact changes_same ran
  · rename_i resource checked
    split at ran
    · exact changes_same ran
    · cases ran
      exact .insert resource _ (SetStore.found_of_object checked)
        (SetStore.live_of_hllObjArgOnly checked)

private theorem mergeIntoObject_changes {object : Nat} {args : List Zval}
    (ran : mergeIntoObject store object args = .ok (reply, next)) :
    store.Changes ((PhpCall.merge object args).target store.objects) next.resources := by
  rw [mergeIntoObject] at ran
  split at ran
  · exact changes_same ran
  split at ran
  · cases ran
  · exact changes_same ran
  · exact changes_same ran
  rename_i resource checked
  split at ran
  · cases ran
  · exact changes_same ran
  split at ran
  · exact changes_same ran
  · cases ran
    exact .insert resource _ (SetStore.found_of_object checked)
      (SetStore.live_of_hllObjArgOnly checked)

private theorem mergeSets_changes {args : List Zval}
    (ran : mergeSets store args = .ok (reply, next)) : store.Changes target next.resources := by
  rw [mergeSets] at ran
  split at ran
  · exact changes_same ran
  split at ran
  · cases ran
  · exact changes_same ran
  split at ran
  · exact changes_same ran
  · cases ran
    exact .register _

private theorem countSets_changes {args : List Zval}
    (ran : countSets env store args = .ok (reply, next)) : store.Changes target next.resources := by
  rw [countSets] at ran
  split at ran
  · exact changes_same ran
  split at ran
  · cases ran
  · exact changes_same ran
  · exact changes_same ran

private theorem withResource_changes {hll : Zval} {missing : SetValue} {value : Nat → SetValue}
    (ran : withResource store hll missing value = .ok (reply, next)) :
    store.Changes target next.resources := by
  rw [withResource] at ran
  split at ran <;> cases ran <;> exact .same

private theorem withObject_changes {object : Nat} {body : Nat → PhpReply SetValue × SetStore}
    (kept : ∀ resource, (body resource).2 = store)
    (ran : withObject store object body = .ok (reply, next)) :
    store.Changes target next.resources := by
  rw [withObject] at ran
  split at ran
  · cases ran
  · exact changes_same ran
  · exact changes_same ran
  · rename_i resource _
    have same := kept resource
    rw [Except.ok.inj ran] at same
    rw [← same]
    exact .same

private theorem newSet_changes {input : Option Zval} {reading : Option ElementSet}
    (ran : newSet store input reading = .ok (reply, next)) :
    store.Changes target next.resources := by
  rw [newSet] at ran
  split at ran
  · cases ran
  · split at ran
    · exact changes_same ran
    · cases ran
      exact .same
  · cases ran
    exact .register _

private theorem constructSet_changes {object : Nat} {input : Option Zval}
    {reading : Option ElementSet}
    (ran : constructSet store object input reading = .ok (reply, next)) :
    store.Changes target next.resources := by
  rw [constructSet] at ran
  split at ran
  · exact changes_same ran
  split at ran
  · cases ran
  · exact changes_same ran
  · cases ran
    exact .register _

private theorem loadSet_changes {reading : Option ElementSet}
    (ran : (loadSet store reading : SetOutcome) = .ok (reply, next)) :
    store.Changes target next.resources := by
  cases reading with
  | none =>
      exact changes_same ran
  | some set =>
      cases ran
      exact .register _

private theorem serializeSet_changes {object : Nat}
    (ran : serializeSet store object = .ok (reply, next)) :
    store.Changes target next.resources := by
  rw [serializeSet] at ran
  split at ran
  · exact changes_same ran
  · cases ran
  · split at ran
    · cases ran
    · exact changes_same ran

private theorem unserializeSet_changes {buf : List Byte} {reading : Option ElementSet}
    (ran : unserializeSet zend store buf reading = .ok (reply, next)) :
    store.Changes target next.resources := by
  unfold unserializeSet at ran
  split at ran
  · split at ran
    · exact changes_same ran
    · cases ran
      exact .register _
  · exact changes_same ran

/-- The inversion lemma: all that a call can do to the resources. -/
theorem setStep_changes {call : PhpCall} {reading : Option ElementSet}
    (ran : setStep env zend (call, reading) store = .ok (reply, next)) :
    store.Changes (call.target store.objects) next.resources := by
  cases call with
  | hllCreate allowSparse =>
      cases ran
      exact .register _
  | hllAdd hll data => exact addSet_changes ran
  | hllMerge args => exact mergeSets_changes ran
  | hllCount args => exact countSets_changes ran
  | hllPromote hll => exact withResource_changes ran
  | hllInfo hll => exact withResource_changes ran
  | hllDump hll => exact withResource_changes ran
  | hllLoad input => exact loadSet_changes ran
  | new input => exact newSet_changes ran
  | subclass =>
      cases ran
      exact .same
  | construct object input => exact constructSet_changes ran
  | add object data => exact addToObject_changes ran
  | merge object args => exact mergeIntoObject_changes ran
  | count object => exact withObject_changes (fun _ => rfl) ran
  | promote object => exact withObject_changes (fun _ => rfl) ran
  | info object => exact withObject_changes (fun _ => rfl) ran
  | dump object => exact withObject_changes (fun _ => rfl) ran
  | serialize object => exact serializeSet_changes ran
  | unserialize buf => exact unserializeSet_changes ran

end Changes

/-! ### What every call keeps -/

theorem sketchOfSet_mono {set more : ElementSet} (subset : set ⊆ more) :
    sketchOfSet set ≤ sketchOfSet more := by
  rw [sketchOfSet, sketchOf, patternObserver.sketch_le_iff]
  intro ele member
  have covered := (patternObserver.sketch_le_iff more.toList _).mp (le_refl (sketchOfSet more))
  exact covered ele (Finset.mem_toList.mpr (subset (Finset.mem_toList.mp member)))

/-- The sets of one store are still there in another, larger or the same, and the
same unless they are those of the target. -/
def SetStore.Keeps (store next : SetStore) (target : Option Nat) : Prop :=
  ∀ (resource : Nat) (set : ElementSet), store.resources[resource]? = some (some set) →
    ∃ more, next.resources[resource]? = some (some more) ∧ set ⊆ more ∧
      (target ≠ some resource → more = set)

theorem SetStore.Changes.keeps {store next : SetStore} {target : Option Nat}
    (changes : store.Changes target next.resources) : store.Keeps next target := by
  intro resource set held
  generalize next.resources = resources at changes ⊢
  cases changes with
  | same => exact ⟨set, held, Finset.Subset.refl set, fun _ => rfl⟩
  | register new =>
      have inside := (List.getElem?_eq_some_iff.mp held).1
      exact ⟨set, by rw [List.getElem?_append_left inside, held], Finset.Subset.refl set,
        fun _ => rfl⟩
  | insert changed added here live =>
      have inside := (List.getElem?_eq_some_iff.mp held).1
      by_cases same : changed = resource
      · subst same
        have before : store.setOf changed = set := by
          rw [SetStore.setOf, held]
          rfl
        rw [before]
        exact ⟨set ∪ added, List.getElem?_set_self inside, Finset.subset_union_left,
          fun other => absurd here other⟩
      · exact ⟨set, by rw [List.getElem?_set_ne same, held], Finset.Subset.refl set, fun _ => rfl⟩

/-- The registers behind the resources of one state are still there in another,
raised or the same, and the same unless the resource was touched. -/
def Php.Keeps (php last : Php) (touched : List (Option Nat)) : Prop :=
  ∀ resource handle : Nat, php.resources[resource]? = some (some handle) →
    ∃ kept, last.resources[resource]? = some (some kept) ∧
      registers (php.heap handle) ≤ registers (last.heap kept) ∧
      (some resource ∉ touched → registers (last.heap kept) = registers (php.heap handle))

theorem Php.Keeps.refl (php : Php) : php.Keeps php [] :=
  fun _ handle pointer => ⟨handle, pointer, le_rfl, fun _ => rfl⟩

theorem Php.Keeps.trans {first second third : Php} {before later : List (Option Nat)}
    (left : first.Keeps second before) (right : second.Keeps third later) :
    first.Keeps third (before ++ later) := by
  intro resource handle pointer
  obtain ⟨between, foundBetween, raised, same⟩ := left resource handle pointer
  obtain ⟨kept, found, raisedLater, sameLater⟩ := right resource between foundBetween
  refine ⟨kept, found, raised.trans raisedLater, fun untouched => ?_⟩
  rw [List.mem_append, not_or] at untouched
  exact (sameLater untouched.2).trans (same untouched.1)

theorem Represents.keeps {env : Env} {php last : Php} {store next : SetStore}
    {target : Option Nat} (before : Represents env php store) (after : Represents env last next)
    (keeps : store.Keeps next target) : php.Keeps last [target] := by
  intro resource handle pointer
  have points := before.points resource
  rw [pointer] at points
  generalize held : store.resources[resource]? = found at points
  cases points with
  | @held _ set allocated holds =>
      obtain ⟨more, heldNext, subset, unchanged⟩ := keeps resource set held
      have pointsNext := after.points resource
      rw [heldNext] at pointsNext
      generalize pointerNext : last.resources[resource]? = ptr at pointsNext
      cases pointsNext with
      | @held kept _ allocatedNext holdsNext =>
          refine ⟨kept, rfl, ?_, fun other => ?_⟩
          · rw [holds.registers, holdsNext.registers]
            exact sketchOfSet_mono subset
          · rw [List.mem_singleton] at other
            rw [holds.registers, holdsNext.registers, unchanged (Ne.symm other)]

/-- The targets of the calls of a script, each at its point. -/
def touched (env : Env) (zend : Zend) : List PhpCall → Php → List (Option Nat)
  | [], _ => []
  | call :: rest, php =>
      call.target php.objects ::
        match call.step env zend php with
        | .error _ => []
        | .ok (_, next) => touched env zend rest next

section Scripts

variable {env : Env} {zend : Zend}

/-- The step lemma: a call leaves all registers alone but those of its target,
and lowers none of these. -/
theorem Represents.call (empty : env.estimate 16384 16384 = 0) {php last : Php}
    {store : SetStore} (represents : Represents env php store) {call : PhpCall}
    {reading : Option ElementSet} (reads : call.Reads env zend reading)
    {reply : PhpReply PhpValue} (called : call.step env zend php = .ok (reply, last)) :
    php.Keeps last [call.target php.objects] ∧ ∃ next, Represents env last next := by
  have agrees := PhpCall.step_agrees empty represents call reading reads
  rw [called] at agrees
  cases abstract : setStep env zend (call, reading) store with
  | error fault =>
      rw [abstract] at agrees
      exact agrees.elim
  | ok outcome =>
      rw [abstract] at agrees
      rw [represents.objects]
      exact ⟨represents.keeps agrees.2 (setStep_changes abstract).keeps, _, agrees.2⟩

/-- The run lemma, by induction on the calls. -/
theorem Represents.script (empty : env.estimate 16384 16384 = 0)
    (script : List (PhpCall × Option ElementSet)) (reads : ScriptReads env zend script)
    {php last : Php} {store : SetStore} (represents : Represents env php store)
    {replies : List (PhpReply PhpValue)}
    (ran : run (PhpCall.step env zend) (script.map Prod.fst) php = .ok (replies, last)) :
    php.Keeps last (touched env zend (script.map Prod.fst) php) ∧
      ∃ next, Represents env last next := by
  induction script generalizing php store replies with
  | nil =>
      cases ran
      exact ⟨Php.Keeps.refl _, store, represents⟩
  | cons op script ih =>
      rw [ScriptReads, List.forall_mem_cons] at reads
      rw [List.map_cons, run] at ran
      rw [List.map_cons, touched]
      cases called : op.1.step env zend php with
      | error fault =>
          rw [called] at ran
          cases ran
      | ok outcome =>
          obtain ⟨reply, next⟩ := outcome
          rw [called] at ran
          obtain ⟨keeps, store', representsNext⟩ := represents.call empty reads.1 called
          simp only at ran ⊢
          cases rest : run (PhpCall.step env zend) (script.map Prod.fst) next with
          | error fault =>
              rw [rest] at ran
              cases ran
          | ok ending =>
              rw [rest] at ran
              cases ran
              obtain ⟨keepsRest, final⟩ := ih reads.2 representsNext rest
              exact ⟨keeps.trans keepsRest, final⟩

/-- From any point of a script to any later one no HLL goes away, no register
goes down, and the registers of an HLL that is no target stay the same.  Every
string that is loaded or unserialized is a dump of a built object or is
refused. -/
theorem php_script_keeps_registers (env : Env) (zend : Zend)
    (empty : env.estimate 16384 16384 = 0) (before later : List (PhpCall × Option ElementSet))
    (readsBefore : ScriptReads env zend before) (readsLater : ScriptReads env zend later)
    (php last : Php) (repliesBefore repliesLater : List (PhpReply PhpValue))
    (ranBefore : run (PhpCall.step env zend) (before.map Prod.fst) .start =
      .ok (repliesBefore, php))
    (ranLater : run (PhpCall.step env zend) (later.map Prod.fst) php =
      .ok (repliesLater, last)) :
    php.Keeps last (touched env zend (later.map Prod.fst) php) := by
  obtain ⟨_keeps, store, represents⟩ :=
    Represents.script empty before readsBefore (represents_start env) ranBefore
  exact (Represents.script empty later readsLater represents ranLater).1

end Scripts

/-- The first two calls of a script, and the others. -/
theorem php_script_keeps_registers_merge :
    ∃ php last repliesBefore repliesLater,
      run (PhpCall.step server plainZend) ((mergeScript.take 2).map Prod.fst) .start =
        .ok (repliesBefore, php) ∧
      run (PhpCall.step server plainZend) ((mergeScript.drop 2).map Prod.fst) php =
        .ok (repliesLater, last) ∧
      php.Keeps last (touched server plainZend ((mergeScript.drop 2).map Prod.fst) php) := by
  obtain ⟨replies, last, _store, ran, _⟩ :=
    careful_script_returns server plainZend rfl mergeScript_reads
      mergeScript_careful
  rw [← List.take_append_drop 2 mergeScript, List.map_append] at ran
  obtain ⟨before, php, later, ranBefore, ranLater⟩ := run_append_ok _ _ _ _ _ _ ran
  refine ⟨php, last, before, later, ranBefore, ranLater, ?_⟩
  exact php_script_keeps_registers server plainZend rfl (mergeScript.take 2) (mergeScript.drop 2)
    (fun op member => mergeScript_reads op (List.mem_of_mem_take member))
    (fun op member => mergeScript_reads op (List.mem_of_mem_drop member)) php last before later
    ranBefore ranLater

end PhpHll
