/-
Scripts that stop nowhere.

A call trips only over an object without a resource, or over a resource without
an HLL.  A script that gives the constructor what it is made for has neither, at
no point; this is an invariant of the sets, carried over to the extension.
-/

import PhpHll.PhpRefinement

namespace PhpHll

open ByteMemory Machine

/-! ### Scripts without faults -/

/-- No resource is without a set, and every object names a resource. -/
structure SetStore.Sound (store : SetStore) : Prop where
  held : none ∉ store.resources
  named : ∀ property ∈ store.objects, ∃ resource < store.resources.length,
    property = some resource

/-- What the constructor is made for. -/
def ConstructorInput : Option Zval → Prop
  | none | some .isNull | some .isFalse | some .isTrue | some (.isString _)
  | some (.isArray _) => True
  | _ => False

def PhpCall.Careful : PhpCall → Prop
  | .new input => ConstructorInput input
  | .construct _ input => ConstructorInput input
  | .subclass => False
  | _ => True

section Sound

variable {env : Env} {zend : Zend} {store : SetStore}

theorem SetStore.sound_start : SetStore.start.Sound :=
  ⟨List.not_mem_nil, fun _ member => absurd member List.not_mem_nil⟩

/-- A resource that is not found is reported. -/
theorem SetStore.Sound.fetch (sound : store.Sound) (resource : Nat) :
    store.fetch resource = ([.invalidResource], none) ∧ store.resources.length ≤ resource ∨
      store.fetch resource = ([], some resource) := by
  rw [SetStore.fetch]
  cases found : store.resources[resource]? with
  | none => exact Or.inl ⟨rfl, List.getElem?_eq_none_iff.mp found⟩
  | some set =>
      cases set with
      | none => exact absurd (List.mem_of_getElem? found) sound.held
      | some set => exact Or.inr rfl

theorem SetStore.Sound.put (sound : store.Sound) (resource : Nat) (set : ElementSet) :
    (store.put resource set).Sound := by
  constructor
  · intro member
    rcases List.mem_or_eq_of_mem_set member with old | new
    · exact sound.held old
    · cases new
  · intro property member
    obtain ⟨number, inside, same⟩ := sound.named property member
    refine ⟨number, ?_, same⟩
    rw [SetStore.put, List.length_set]
    exact inside

theorem SetStore.Sound.register (sound : store.Sound) (set : ElementSet) :
    (store.register (some set)).Sound := by
  have longer : (store.register (some set)).resources.length = store.resources.length + 1 :=
    List.length_append
  constructor
  · intro member
    rcases List.mem_append.mp member with old | new
    · exact sound.held old
    · cases List.mem_singleton.mp new
  · intro property member
    obtain ⟨number, inside, same⟩ := sound.named property member
    exact ⟨number, by omega, same⟩

/-- The objects that are left or made name resources, the one that is changed
names the new one. -/
private theorem SetStore.Sound.withSet (sound : store.Sound) (objects : List (Option Nat))
    (object : Nat) (set : ElementSet)
    (named : ∀ property ∈ objects.set object (some store.resources.length),
      property ∈ store.objects ∨ property = some store.resources.length) :
    SetStore.Sound
      { resources := store.resources ++ [some set]
        objects := objects.set object (some store.resources.length) } := by
  refine ⟨(sound.register set).held, fun property member => ?_⟩
  rcases named property member with old | new
  · exact (sound.register set).named property old
  · exact ⟨_, by simp, new⟩

theorem SetStore.Sound.attachSet (sound : store.Sound) (object : Nat) (set : ElementSet) :
    (store.attachSet object (some set)).Sound :=
  sound.withSet store.objects object set fun _ member => List.mem_or_eq_of_mem_set member

/-- A new object is sound once it has a set. -/
theorem SetStore.Sound.newObject (sound : store.Sound) (set : ElementSet) :
    (store.objectInit.attachSet store.objects.length (some set)).Sound := by
  refine sound.withSet (store.objects ++ [none]) store.objects.length set fun property member => ?_
  rw [List.set_append_right _ _ (Nat.le_refl _), Nat.sub_self, List.set_cons_zero] at member
  rcases List.mem_append.mp member with old | new
  · exact Or.inl old
  · exact Or.inr (List.mem_singleton.mp new)

private theorem SetStore.Sound.property (sound : store.Sound) {object : Nat}
    {property : Option Nat} (found : store.objects[object]? = some property) :
    ∃ resource, property = some resource ∧ store.fetch resource = ([], some resource) := by
  obtain ⟨resource, inside, same⟩ := sound.named property (List.mem_of_getElem? found)
  refine ⟨resource, same, ?_⟩
  rcases sound.fetch resource with ⟨_, outside⟩ | fetched
  · omega
  · exact fetched

theorem SetStore.Sound.objArgOnly (sound : store.Sound) (object : Nat) :
    ∃ found, hllObjArgOnly store.objects store.fetch object = .ok found := by
  rw [hllObjArgOnly]
  cases found : store.objects[object]? with
  | none => exact ⟨_, rfl⟩
  | some property =>
      obtain ⟨resource, rfl, _⟩ := sound.property found
      exact ⟨_, rfl⟩

private theorem SetStore.Sound.fromZval (sound : store.Sound) (current : Zval) :
    ∃ messages found, phpHllFromZval store.objects store.fetch current = .ok (messages, found) ∧
      (found = none → messages ≠ []) := by
  unfold phpHllFromZval
  split
  · rename_i resource
    rcases sound.fetch resource with ⟨missing, _⟩ | fetched
    · exact ⟨_, _, congrArg Except.ok missing, fun _ => List.cons_ne_nil _ _⟩
    · exact ⟨_, _, congrArg Except.ok fetched, fun none => by cases none⟩
  · rename_i object
    split
    · exact ⟨_, _, rfl, fun _ => List.cons_ne_nil _ _⟩
    · rename_i found
      obtain ⟨resource, same, _⟩ := sound.property found
      cases same
    · rename_i resource found
      obtain ⟨named, same, fetched⟩ := sound.property found
      cases same
      exact ⟨_, _, congrArg Except.ok fetched, fun none => by cases none⟩
  · exact ⟨_, _, rfl, fun _ => List.cons_ne_nil _ _⟩

/-- The check of a list of arguments returns, and says something where it
fails. -/
theorem SetStore.Sound.list (sound : store.Sound) (args : List Zval) :
    ∃ messages found, PhpHll.phpHllList store.objects store.fetch args = .ok (messages, found) ∧
      (found = none → messages ≠ []) := by
  induction args with
  | nil => exact ⟨[], some [], rfl, fun none => by cases none⟩
  | cons current rest ih =>
      obtain ⟨messages, found, checked, reports⟩ := sound.fromZval current
      obtain ⟨laterMessages, later, loop, reportsLater⟩ := ih
      rw [PhpHll.phpHllList, checked]
      cases found with
      | none => exact ⟨messages, none, rfl, fun _ => reports rfl⟩
      | some handle =>
          simp only [loop]
          refine ⟨laterMessages, _, rfl, fun none => reportsLater ?_⟩
          exact Option.map_eq_none_iff.mp none

theorem SetStore.Sound.sources (sound : store.Sound) (args : List Zval) :
    ∃ messages found, mergeSources store.objects store.fetch args = .ok (messages, found) := by
  obtain ⟨entries, same⟩ := mergeSources_eq store.objects args
  obtain ⟨messages, found, checked, _⟩ := sound.list entries
  exact ⟨messages, found, by rw [same, checked]⟩

/-! ### Calls of a sound store -/

/-- A call that returns and leaves the store sound. -/
def ReturnsSound (outcome : SetOutcome) : Prop :=
  ∃ reply next, outcome = .ok (reply, next) ∧ next.Sound

theorem SetStore.Sound.withResource (sound : store.Sound) (hll : Zval) (missing : SetValue)
    (value : Nat → SetValue) : ReturnsSound (PhpHll.withResource store hll missing value) := by
  unfold PhpHll.withResource
  split <;> exact ⟨_, _, rfl, sound⟩

theorem SetStore.Sound.withObject (sound : store.Sound) (object : Nat)
    (body : Nat → PhpReply SetValue × SetStore) (same : ∀ resource, (body resource).2 = store) :
    ReturnsSound (PhpHll.withObject store object body) := by
  obtain ⟨found, checked⟩ := sound.objArgOnly object
  rw [PhpHll.withObject, checked]
  cases found with
  | refused => exact ⟨_, _, rfl, sound⟩
  | missing messages => exact ⟨_, _, rfl, sound⟩
  | found resource => exact ⟨_, _, rfl, by rw [same]; exact sound⟩

/-- Of an input it is made for, the constructor makes a set, or says why not. -/
theorem SetStore.Sound.constructedSet (sound : store.Sound) {input : Option Zval}
    (made : ConstructorInput input) (reading : Option ElementSet) :
    (∃ set, PhpHll.constructedSet store input reading = .ok ([], some (some set))) ∨
      ∃ messages, PhpHll.constructedSet store input reading = .ok (messages, none) ∧
        messages ≠ [] := by
  match input with
  | none | some .isNull | some .isFalse | some .isTrue => exact Or.inl ⟨∅, rfl⟩
  | some (.isString _) =>
      cases reading with
      | none => exact Or.inr ⟨_, rfl, List.cons_ne_nil _ _⟩
      | some set => exact Or.inl ⟨set, rfl⟩
  | some (.isArray entries) =>
      obtain ⟨messages, found, checked, reports⟩ := sound.list entries
      simp only [PhpHll.constructedSet, phpHllArrayToList, checked]
      cases found with
      | none => exact Or.inr ⟨messages, rfl, reports rfl⟩
      | some sources => exact Or.inl ⟨_, rfl⟩
  | some (.isLong _) | some (.isDouble _) | some (.isObject _) | some (.isResource _)
  | some (.isReference _) => exact False.elim made

theorem SetStore.Sound.newSet (sound : store.Sound) {input : Option Zval}
    (made : ConstructorInput input) (reading : Option ElementSet) :
    ReturnsSound (PhpHll.newSet store input reading) := by
  rw [PhpHll.newSet]
  rcases sound.constructedSet made reading with ⟨set, built⟩ | ⟨messages, failed, reported⟩
  · rw [built]
    exact ⟨_, _, rfl, sound.newObject set⟩
  · rw [failed]
    exact ⟨_, _, if_pos reported, sound⟩

theorem SetStore.Sound.constructSet (sound : store.Sound) (object : Nat) {input : Option Zval}
    (made : ConstructorInput input) (reading : Option ElementSet) :
    ReturnsSound (PhpHll.constructSet store object input reading) := by
  rw [PhpHll.constructSet]
  cases store.objects[object]? with
  | none => exact ⟨_, _, rfl, sound⟩
  | some property =>
      rcases sound.constructedSet made reading with ⟨set, built⟩ | ⟨messages, failed, _⟩
      · rw [built]
        exact ⟨_, _, rfl, sound.attachSet object set⟩
      · rw [failed]
        exact ⟨_, _, rfl, sound⟩

theorem SetStore.Sound.addSet (sound : store.Sound) (zend : Zend) (hll data : Zval) :
    ReturnsSound (PhpHll.addSet zend store hll data) := by
  rw [PhpHll.addSet]
  cases hllArgOnly store.fetch hll with
  | refused => exact ⟨_, _, rfl, sound⟩
  | missing messages => exact ⟨_, _, rfl, sound⟩
  | found resource =>
      cases data.elements zend.tryConvertToString with
      | none => exact ⟨_, _, rfl, sound⟩
      | some added => exact ⟨_, _, rfl, sound.put resource _⟩

theorem SetStore.Sound.addToObject (sound : store.Sound) (zend : Zend) (object : Nat)
    (data : Zval) : ReturnsSound (PhpHll.addToObject zend store object data) := by
  obtain ⟨found, checked⟩ := sound.objArgOnly object
  rw [PhpHll.addToObject, checked]
  cases found with
  | refused => exact ⟨_, _, rfl, sound⟩
  | missing messages => exact ⟨_, _, rfl, sound⟩
  | found resource =>
      cases data.elements zend.tryConvertToString with
      | none => exact ⟨_, _, rfl, sound⟩
      | some added => exact ⟨_, _, rfl, sound.put resource _⟩

theorem SetStore.Sound.mergeSets (sound : store.Sound) (args : List Zval) :
    ReturnsSound (PhpHll.mergeSets store args) := by
  obtain ⟨messages, found, checked⟩ := sound.sources args
  rw [PhpHll.mergeSets, checked]
  split
  · exact ⟨_, _, rfl, sound⟩
  · cases found with
    | none => exact ⟨_, _, rfl, sound⟩
    | some sources =>
        simp only
        split
        · exact ⟨_, _, rfl, sound⟩
        · exact ⟨_, _, rfl, sound.register _⟩

theorem SetStore.Sound.mergeIntoObject (sound : store.Sound) (object : Nat) (args : List Zval) :
    ReturnsSound (PhpHll.mergeIntoObject store object args) := by
  obtain ⟨found, checkedObject⟩ := sound.objArgOnly object
  obtain ⟨messages, sources, checked⟩ := sound.sources args
  rw [PhpHll.mergeIntoObject, checkedObject, checked]
  split
  · exact ⟨_, _, rfl, sound⟩
  · cases found with
    | refused => exact ⟨_, _, rfl, sound⟩
    | missing messages => exact ⟨_, _, rfl, sound⟩
    | found target =>
        cases sources with
        | none => exact ⟨_, _, rfl, sound⟩
        | some sources =>
            simp only
            split
            · exact ⟨_, _, rfl, sound⟩
            · exact ⟨_, _, rfl, sound.put target _⟩

theorem SetStore.Sound.countSets (sound : store.Sound) (env : Env) (args : List Zval) :
    ReturnsSound (PhpHll.countSets env store args) := by
  obtain ⟨messages, found, checked, _⟩ := sound.list args
  rw [PhpHll.countSets, phpHllArgsToList, checked]
  split
  · exact ⟨_, _, rfl, sound⟩
  · cases found with
    | none => exact ⟨_, _, rfl, sound⟩
    | some sources => exact ⟨_, _, rfl, sound⟩

theorem SetStore.Sound.loadSet (sound : store.Sound) (reading : Option ElementSet) :
    ReturnsSound (PhpHll.loadSet store reading) := by
  cases reading with
  | none => exact ⟨_, _, rfl, sound⟩
  | some set => exact ⟨_, _, rfl, sound.register set⟩

theorem SetStore.Sound.serializeSet (sound : store.Sound) (object : Nat) :
    ReturnsSound (PhpHll.serializeSet store object) := by
  rw [PhpHll.serializeSet]
  cases found : store.objects[object]? with
  | none => exact ⟨_, _, rfl, sound⟩
  | some property =>
      obtain ⟨resource, rfl, fetched⟩ := sound.property found
      simp only [fetched]
      exact ⟨_, _, rfl, sound⟩

theorem SetStore.Sound.unserializeSet (sound : store.Sound) (zend : Zend) (buf : List Byte)
    (reading : Option ElementSet) : ReturnsSound (PhpHll.unserializeSet zend store buf reading) := by
  unfold PhpHll.unserializeSet
  split
  · cases reading with
    | none => exact ⟨_, _, rfl, sound⟩
    | some set => exact ⟨_, _, rfl, sound.newObject set⟩
  · exact ⟨_, _, rfl, sound⟩

/-- The step lemma: in a sound store a careful call returns. -/
theorem SetStore.Sound.step (sound : store.Sound) {call : PhpCall} (careful : call.Careful)
    (reading : Option ElementSet) : ReturnsSound (setStep env zend (call, reading) store) := by
  cases call with
  | hllCreate allowSparse => exact ⟨_, _, rfl, sound.register ∅⟩
  | hllAdd hll data => exact sound.addSet zend hll data
  | hllMerge args => exact sound.mergeSets args
  | hllCount args => exact sound.countSets env args
  | hllPromote hll => exact sound.withResource hll _ _
  | hllInfo hll => exact sound.withResource hll _ _
  | hllDump hll => exact sound.withResource hll _ _
  | hllLoad input => exact sound.loadSet reading
  | new input => exact sound.newSet careful reading
  | subclass => exact careful.elim
  | construct object input => exact sound.constructSet object careful reading
  | add object data => exact sound.addToObject zend object data
  | merge object args => exact sound.mergeIntoObject object args
  | count object => exact sound.withObject object _ fun _ => rfl
  | promote object => exact sound.withObject object _ fun _ => rfl
  | info object => exact sound.withObject object _ fun _ => rfl
  | dump object => exact sound.withObject object _ fun _ => rfl
  | serialize object => exact sound.serializeSet object
  | unserialize buf => exact sound.unserializeSet zend buf reading

end Sound

/-- The run lemma: a careful script runs to its end, and its state is that of a
sound store. -/
theorem careful_script_returns (env : Env) (zend : Zend) (empty : env.estimate 16384 16384 = 0)
    {script : List (PhpCall × Option ElementSet)} (reads : ScriptReads env zend script)
    (careful : ∀ op ∈ script, op.1.Careful) :
    ∃ replies last store,
      run (PhpCall.step env zend) (script.map Prod.fst) .start = .ok (replies, last) ∧
      Represents env last store ∧ store.Sound := by
  have agrees := script_agrees empty (represents_start env) reads
  obtain ⟨replies, store, ran, sound⟩ := run_returns (setStep env zend)
    (fun op => op.1.Careful) SetStore.Sound
    (fun op _ carefulOp soundBefore => soundBefore.step carefulOp op.2) script .start
    careful SetStore.sound_start
  rw [ran] at agrees
  cases concrete : run (PhpCall.step env zend) (script.map Prod.fst) .start with
  | error fault =>
      rw [concrete] at agrees
      exact agrees.elim
  | ok outcome =>
      rw [concrete] at agrees
      exact ⟨outcome.1, outcome.2, store, rfl, agrees.2, sound⟩

/-- A script that constructs objects from null, a boolean, a string or an array
only, and no subclass that forgets to, runs to its end as long as every string
it loads or unserializes is a dump of a built object or is refused: no call
trips over an object without a resource or a resource without an HLL, and no
assertion of the library fails. -/
theorem php_script_returns (env : Env) (zend : Zend) (empty : env.estimate 16384 16384 = 0)
    (script : List (PhpCall × Option ElementSet)) (reads : ScriptReads env zend script)
    (careful : ∀ op ∈ script, op.1.Careful) :
    ∃ replies last,
      run (PhpCall.step env zend) (script.map Prod.fst) .start = .ok (replies, last) ∧
      (∀ ptr ∈ last.resources, ∃ handle, ptr = some handle ∧ Valid env (last.heap handle)) ∧
      ∀ property ∈ last.objects, ∃ resource < last.resources.length, property = some resource := by
  obtain ⟨replies, last, store, ran, represents, sound⟩ :=
    careful_script_returns env zend empty reads careful
  refine ⟨replies, last, ran, fun ptr member => ?_, ?_⟩
  · obtain ⟨resource, pointer⟩ := List.mem_iff_getElem?.mp member
    have points := represents.points resource
    rw [pointer] at points
    generalize found : store.resources[resource]? = set at points
    cases points with
    | empty => exact absurd (List.mem_of_getElem? found) sound.held
    | held allocated holds => exact ⟨_, rfl, holds.valid⟩
  · rw [represents.objects, represents.length]
    exact sound.named

theorem mergeScript_careful : ∀ op ∈ mergeScript, op.1.Careful := by
  intro op member
  simp only [mergeScript, List.mem_cons, List.not_mem_nil, or_false] at member
  rcases member with rfl | rfl | rfl | rfl | rfl <;> exact trivial

theorem php_script_returns_merge :
    ∃ replies last,
      run (PhpCall.step server plainZend) (mergeScript.map Prod.fst) .start = .ok (replies, last) ∧
      (∀ ptr ∈ last.resources, ∃ handle, ptr = some handle ∧ Valid server (last.heap handle)) ∧
      ∀ property ∈ last.objects,
        ∃ resource < last.resources.length, property = some resource :=
  php_script_returns server plainZend rfl mergeScript mergeScript_reads mergeScript_careful

/-- A number is taken without a word and leaves NULL; an array of that object is
then refused without a word, too, and leaves an object without a resource. -/
example :
    run (PhpCall.step server plainZend)
      [.new (some (.isLong 5)), .new (some (.isArray [.isObject 0])), .count 1] .start =
        .error .typeConfusion := rfl

end PhpHll
