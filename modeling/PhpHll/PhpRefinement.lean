/-
Scripts are runs on sets.

Every call of the extension agrees with its counterpart on sets: both stop with
the same fault, or both return, with replies and states that correspond.  By the
rule for runs so do whole scripts, from the first call on.
-/

import PhpHll.BinarySafety
import PhpHll.PhpRepresents

namespace PhpHll

open ByteMemory Machine

/-! ### Replies -/

inductive ShowsValue (env : Env) (zend : Zend) : PhpValue → SetValue → Prop
  | null : ShowsValue env zend .null .null
  | bool (value : Bool) : ShowsValue env zend (.bool value) (.bool value)
  | long (value : Int) : ShowsValue env zend (.long value) (.long value)
  | dumped (bytes : List Byte) (set : ElementSet) (dump : IsDump env bytes set) :
      ShowsValue env zend (.string bytes) (.dumped set)
  | serialized (bytes : List Byte) (set : ElementSet) (dump : IsDump env bytes set) :
      ShowsValue env zend (.string (zend.phpVarSerialize bytes)) (.serialized set)
  | dense : ShowsValue env zend (.info "dense") .info
  | sparse : ShowsValue env zend (.info "sparse") .info
  | resource (number : Nat) : ShowsValue env zend (.resource number) (.resource number)
  | object (number : Nat) : ShowsValue env zend (.object number) (.object number)

structure ShowsReply (env : Env) (zend : Zend) (reply : PhpReply PhpValue)
    (abstract : PhpReply SetValue) : Prop where
  value : ShowsValue env zend reply.value abstract.value
  messages : reply.messages = abstract.messages
  thrown : reply.thrown = abstract.thrown
  updArg : reply.updArg = abstract.updArg

def PhpAgrees (env : Env) (zend : Zend) : PhpOutcome → SetOutcome → Prop :=
  Agrees (ShowsReply env zend) (Represents env)

/-- What the string that a call loads is read as. -/
def PhpCall.Reads (env : Env) (zend : Zend) (call : PhpCall) (reading : Option ElementSet) : Prop :=
  match call with
  | .hllLoad input => PhpHll.Reads env input reading
  | .new (some (.isString input)) => PhpHll.Reads env input reading
  | .construct _ (some (.isString input)) => PhpHll.Reads env input reading
  | .unserialize buf =>
      ∀ value, zend.phpVarUnserialize buf = some (.isString value) →
        PhpHll.Reads env value reading
  | _ => True

section Agreement

variable {env : Env} {zend : Zend} {php : Php} {store : SetStore}

theorem shows_answer {value : PhpValue} {abstract : SetValue}
    (shows : ShowsValue env zend value abstract) (messages : List PhpMessage) :
    ShowsReply env zend (answer value messages) (answer abstract messages) :=
  ⟨shows, rfl, rfl, rfl⟩

theorem shows_answerThrowing {value : PhpValue} {abstract : SetValue}
    (shows : ShowsValue env zend value abstract) (messages : List PhpMessage) :
    ShowsReply env zend (answerThrowing value messages) (answerThrowing abstract messages) :=
  ⟨shows, rfl, rfl, rfl⟩

/-! ### Parts of calls -/

theorem returnResource_agrees (represents : Represents env php store) {hll : Robj}
    {set : ElementSet} (holds : HoldsSet env set hll) :
    PhpAgrees env zend (.ok (returnResource php hll)) (.ok (returnSet store set)) := by
  refine ⟨⟨?_, rfl, rfl, rfl⟩, represents.register holds⟩
  change ShowsValue env zend (.resource php.resources.length) (.resource store.resources.length)
  rw [represents.length]
  exact .resource _

theorem countOne_agrees (empty : env.estimate 16384 16384 = 0)
    (represents : Represents env php store) {resource : Nat} (live : store.Live resource) :
    PhpAgrees env zend (countOne env php (php.address resource))
      (.ok (countSet env store (store.setOf resource))) := by
  obtain ⟨_pointer, _allocated, holds⟩ := represents.live live
  obtain ⟨next, counted, after⟩ := holds.count empty
  rw [countOne, counted]
  exact ⟨shows_answer (.long _) [], represents.putSame live after⟩

theorem promote_agrees (represents : Represents env php store) {resource : Nat}
    (live : store.Live resource) {value : PhpValue} {abstract : SetValue}
    (shows : ShowsValue env zend value abstract) :
    PhpAgrees env zend (promote env php (php.address resource) value)
      (.ok (answer abstract [], store)) := by
  obtain ⟨_pointer, _allocated, holds⟩ := represents.live live
  obtain ⟨next, ran, after⟩ := holds.toDense
  rw [promote, ran]
  exact ⟨shows_answer shows [], represents.putSame live after⟩

theorem info_agrees (represents : Represents env php store) {resource : Nat}
    (live : store.Live resource) :
    PhpAgrees env zend (info php (php.address resource)) (.ok (answer .info [], store)) := by
  obtain ⟨_pointer, _allocated, holds⟩ := represents.live live
  rw [info]
  rcases holds.info with dense | sparse
  · rw [dense]
    exact ⟨shows_answer .dense [], represents⟩
  · rw [sparse]
    exact ⟨shows_answer .sparse [], represents⟩

theorem dump_agrees (represents : Represents env php store) {resource : Nat}
    (live : store.Live resource) {value : List Byte → PhpValue} {abstract : SetValue}
    (shows : ∀ bytes, IsDump env bytes (store.setOf resource) →
      ShowsValue env zend (value bytes) abstract) :
    PhpAgrees env zend (dump env php (some (php.address resource)) value)
      (.ok (answer abstract [], store)) := by
  obtain ⟨_pointer, _allocated, holds⟩ := represents.live live
  obtain ⟨raw, dumped, isDump⟩ := holds.dump
  rw [dump, Option.map_some, dumped]
  exact ⟨shows_answer (shows raw.bytes isDump) [], represents⟩

/-! ### Functions -/

theorem phpFunctionCreate_agrees (represents : Represents env php store) (allowSparse : Bool) :
    PhpAgrees env zend (phpFunctionCreate env php allowSparse) (.ok (returnSet store ∅)) := by
  obtain ⟨hll, ran, holds⟩ := phpHllCreate_holds env allowSparse
  rw [phpFunctionCreate, ran]
  exact returnResource_agrees represents holds

theorem phpFunctionHllAdd_agrees (represents : Represents env php store) (hll data : Zval) :
    PhpAgrees env zend (phpFunctionHllAdd env zend php hll data) (addSet zend store hll data) := by
  rw [phpFunctionHllAdd, addSet, represents.fetch, hllArgOnly_relabel]
  cases checked : hllArgOnly store.fetch hll with
  | refused => exact ⟨shows_answer .null _, represents⟩
  | missing messages => exact ⟨shows_answer (.bool false) _, represents⟩
  | found resource =>
      have live := SetStore.live_of_hllArgOnly checked
      obtain ⟨_pointer, _allocated, holds⟩ := represents.live live
      have adds := holds.phpFunctionAdd zend.tryConvertToString data
      cases elements : data.elements zend.tryConvertToString with
      | none =>
          rw [elements] at adds
          simp only at adds
          simp only [Fetched.relabel, adds]
          exact ⟨shows_answer (.bool false) _, represents.putSame live holds⟩
      | some added =>
          rw [elements] at adds
          obtain ⟨next, ran, after⟩ := adds
          simp only [Fetched.relabel, ran]
          exact ⟨shows_answer (.bool _) _, represents.put live after⟩

theorem withResource_agrees (represents : Represents env php store) (hll : Zval)
    {missing : SetValue} {value : Nat → SetValue} {concreteMissing : PhpValue}
    {body : Nat → PhpOutcome} (showsMissing : ShowsValue env zend concreteMissing missing)
    (agrees : ∀ resource, store.Live resource →
      PhpAgrees env zend (body (php.address resource)) (.ok (answer (value resource) [], store))) :
    PhpAgrees env zend
      (match hllArgOnly php.zendFetchResource hll with
        | .refused => .ok (answer .null [.parameters], php)
        | .missing messages => .ok (answer concreteMissing messages, php)
        | .found handle => body handle)
      (withResource store hll missing value) := by
  rw [withResource, represents.fetch, hllArgOnly_relabel]
  cases checked : hllArgOnly store.fetch hll with
  | refused => exact ⟨shows_answer .null _, represents⟩
  | missing messages => exact ⟨shows_answer showsMissing _, represents⟩
  | found resource => exact agrees resource (SetStore.live_of_hllArgOnly checked)

theorem phpFunctionLoad_agrees (represents : Represents env php store) {input : List Byte}
    {reading : Option ElementSet} (reads : Reads env input reading) :
    PhpAgrees env zend (phpFunctionLoad env php input) (loadSet store reading) := by
  cases reading with
  | none =>
      rw [phpFunctionLoad, phpHllLoad_refused reads]
      exact ⟨shows_answer (.bool false) _, represents⟩
  | some set =>
      obtain ⟨hll, loaded, holds⟩ := phpHllLoad_holds reads
      rw [phpFunctionLoad, loaded]
      exact returnResource_agrees represents holds

/-- What a list of arguments is checked to, in the words of both states. -/
theorem Represents.mergeSources (represents : Represents env php store) (args : List Zval) :
    PhpHll.mergeSources php.objects php.zendFetchResource args =
      (PhpHll.mergeSources store.objects store.fetch args).map (relabelList php.address) := by
  rw [represents.fetch, represents.objects, mergeSources_relabel]

theorem Represents.phpHllList (represents : Represents env php store) (args : List Zval) :
    PhpHll.phpHllList php.objects php.zendFetchResource args =
      (PhpHll.phpHllList store.objects store.fetch args).map (relabelList php.address) := by
  rw [represents.fetch, represents.objects, phpHllList_relabel]

theorem phpFunctionMerge_agrees (represents : Represents env php store) (args : List Zval) :
    PhpAgrees env zend (phpFunctionMerge env php args) (mergeSets store args) := by
  rw [phpFunctionMerge, mergeSets]
  by_cases none : args = []
  · rw [if_pos none, if_pos none]
    exact ⟨shows_answer .null _, represents⟩
  rw [if_neg none, if_neg none, hllCreate_eq]
  -- The target stays behind where the call fails.
  have allocated := represents.allocate (created env)
  have sources := allocated.mergeSources args
  simp only [sources]
  cases checked : PhpHll.mergeSources store.objects store.fetch args with
  | error fault => exact rfl
  | ok found =>
      obtain ⟨messages, resources⟩ := found
      cases resources with
      | none => exact ⟨shows_answer (.bool false) _, allocated⟩
      | some resources =>
          have live := SetStore.live_of_mergeSources checked
          simp only [Except.map, relabelList, Option.map_some, List.length_map]
          by_cases few : resources.length < 2
          · rw [if_pos few, if_pos few]
            exact ⟨shows_answer (.bool false) _, allocated⟩
          · rw [if_neg few, if_neg few]
            obtain ⟨next, ran, holds⟩ := represents.pfMergeNew (holdsSet_created env) live
            have address : (php.allocate (created env)).2.address = php.address := rfl
            have target : (php.allocate (created env)).1 = php.next := rfl
            simp only [address, target, ran, ne_eq, not_true_eq_false, if_false]
            exact returnResource_agrees represents holds

private theorem phpHllList_length {objects : List (Option Nat)} {fetch : Fetch} {args : List Zval}
    {messages : List PhpMessage} {handles : List Nat}
    (checked : PhpHll.phpHllList objects fetch args = .ok (messages, some handles)) :
    handles.length = args.length := by
  induction args generalizing messages handles with
  | nil =>
      cases checked
      rfl
  | cons current rest ih =>
      rw [PhpHll.phpHllList] at checked
      split at checked
      · cases checked
      · cases checked
      · split at checked
        · cases checked
        · rename_i later loop
          cases later with
          | none => cases checked
          | some later =>
              cases checked
              rw [List.length_cons, List.length_cons, ih loop]

theorem phpFunctionCount_agrees (empty : env.estimate 16384 16384 = 0)
    (represents : Represents env php store) (args : List Zval) :
    PhpAgrees env zend (phpFunctionCount env php args) (countSets env store args) := by
  rw [phpFunctionCount, countSets]
  by_cases none : args = []
  · rw [if_pos none, if_pos none]
    exact ⟨shows_answer .null _, represents⟩
  rw [if_neg none, if_neg none, phpHllArgsToList, phpHllArgsToList, represents.phpHllList]
  cases checked : PhpHll.phpHllList store.objects store.fetch args with
  | error fault => exact rfl
  | ok found =>
      obtain ⟨messages, resources⟩ := found
      cases resources with
      | none => exact ⟨shows_answer (.bool false) _, represents⟩
      | some resources =>
          have live := SetStore.live_of_phpHllList checked
          have length := phpHllList_length checked
          simp only [Except.map, relabelList, Option.map_some]
          match resources, live, length with
          | [], _, length => exact absurd (List.length_eq_zero_iff.mp length.symm) none
          | [resource], live, _ =>
              have union : store.unionOf [resource] = store.setOf resource :=
                Finset.singleton_biUnion
              rw [union]
              exact countOne_agrees empty represents (live resource (List.mem_singleton_self _))
          | first :: second :: rest, live, _ =>
              obtain ⟨sets, setsAt, union⟩ := represents.setsAt
              have counted := pfCountMerged_holds env php.heap sets
                ((first :: second :: rest).map php.address) (by simp) (fun handle member => by
                  obtain ⟨resource, listed, rfl⟩ := List.mem_map.mp member
                  rw [setsAt resource (live resource listed)]
                  exact (represents.live (live resource listed)).2.2)
              rw [union _ live] at counted
              simp only [List.map_cons] at counted ⊢
              rw [counted]
              exact ⟨shows_answer (.long _) [], represents⟩

/-! ### The constructor -/

theorem Represents.object (represents : Represents env php store) :
    php.objectInitEx.1 = store.objects.length := congrArg List.length represents.objects

/-- What the constructor is about to register: nothing, NULL, or a new HLL. -/
def ConstructedAgrees (env : Env) (store : SetStore) :
    Except PhpFault (List PhpMessage × Option Hll × Php) →
      Except PhpFault (List PhpMessage × Option (Option ElementSet)) → Prop
  | .error fault, .error abstractFault => fault = abstractFault
  | .ok (messages, none, php), .ok (abstractMessages, none) =>
      messages = abstractMessages ∧ Represents env php store
  | .ok (_, some ptr, php), .ok (_, some set) =>
      Represents env php store ∧ Represents env (php.zendRegisterResource ptr).2 (store.register set)
  | _, _ => False

private theorem constructed_new (represents : Represents env php store) {hll : Robj}
    {set : ElementSet} (holds : HoldsSet env set hll) :
    ConstructedAgrees env store (.ok ([], some (some (php.allocate hll).1), (php.allocate hll).2))
      (.ok ([], some (some set))) :=
  ⟨represents.allocate hll, represents.register holds⟩

private theorem constructed_created (represents : Represents env php store) (allowSparse : Bool) :
    ConstructedAgrees env store
      (match phpHllCreate env allowSparse with
        | .error fault => .error fault
        | .ok (messages, none) => .ok (messages, none, php)
        | .ok (_, some hll) => .ok ([], some (some (php.allocate hll).1), (php.allocate hll).2))
      (.ok ([], some (some ∅))) := by
  obtain ⟨hll, ran, holds⟩ := phpHllCreate_holds env allowSparse
  rw [ran]
  exact constructed_new represents holds

theorem constructed_agrees (represents : Represents env php store) {input : Option Zval}
    {reading : Option ElementSet}
    (reads : ∀ bytes, input = some (.isString bytes) → Reads env bytes reading) :
    ConstructedAgrees env store (constructed env php input)
      (constructedSet store input reading) := by
  cases input with
  | none => exact constructed_created represents false
  | some input =>
      cases input with
      | isNull => exact constructed_created represents false
      | isFalse => exact constructed_created represents false
      | isTrue => exact constructed_created represents true
      | isString bytes =>
          have reading' := reads bytes rfl
          cases reading with
          | none =>
              simp only [constructed, phpHllLoad_refused reading']
              exact ⟨rfl, represents⟩
          | some set =>
              obtain ⟨hll, loaded, holds⟩ := phpHllLoad_holds reading'
              simp only [constructed, loaded]
              exact constructed_new represents holds
      | isArray entries =>
          simp only [constructed, constructedSet, phpHllArrayToList, represents.phpHllList]
          cases checked : PhpHll.phpHllList store.objects store.fetch entries with
          | error fault => exact rfl
          | ok found =>
              obtain ⟨messages, resources⟩ := found
              cases resources with
              | none => exact ⟨rfl, represents⟩
              | some resources =>
                  have live := SetStore.live_of_phpHllList checked
                  obtain ⟨hll, ran, holdsNew⟩ := phpHllCreate_holds env false
                  obtain ⟨next, merged, holds⟩ := represents.pfMergeNew holdsNew live
                  have target : (php.allocate hll).1 = php.next := rfl
                  simp only [Except.map, relabelList, Option.map_some, ran, target, merged, ne_eq,
                    not_true_eq_false, if_false]
                  exact constructed_new represents holds
      | isLong value => exact ⟨represents, represents.registerNull⟩
      | isDouble bits => exact ⟨represents, represents.registerNull⟩
      | isObject object => exact ⟨represents, represents.registerNull⟩
      | isResource resource => exact ⟨represents, represents.registerNull⟩
      | isReference handle => exact ⟨represents, represents.registerNull⟩

theorem phpMethodConstruct_agrees (represents : Represents env php store) (object : Nat)
    {input : Option Zval} {reading : Option ElementSet}
    (reads : ∀ bytes, input = some (.isString bytes) → Reads env bytes reading) :
    PhpAgrees env zend (phpMethodConstruct env php object input)
      (constructSet store object input reading) := by
  rw [phpMethodConstruct, constructSet, represents.objects]
  cases store.objects[object]? with
  | none => exact ⟨shows_answerThrowing (.bool false) _, represents⟩
  | some property =>
      have agrees := constructed_agrees represents reads
      generalize constructed env php input = concrete, constructedSet store input reading = abstract
        at agrees ⊢
      match concrete, abstract, agrees with
      | .error fault, .error abstractFault, agrees => exact agrees
      | .ok (messages, none, last), .ok (abstractMessages, none), ⟨same, after⟩ =>
          subst same
          exact ⟨shows_answerThrowing (.bool false) _, after⟩
      | .ok (_, some ptr, last), .ok (_, some set), ⟨after, registered⟩ =>
          exact ⟨shows_answerThrowing .null [], after.attachPointer registered object⟩

theorem phpNew_agrees (represents : Represents env php store) {input : Option Zval}
    {reading : Option ElementSet}
    (reads : ∀ bytes, input = some (.isString bytes) → Reads env bytes reading) :
    PhpAgrees env zend (phpNew env php input) (newSet store input reading) := by
  have agrees := constructed_agrees represents reads
  rw [phpNew, newSet]
  generalize constructed env php input = concrete, constructedSet store input reading = abstract
    at agrees ⊢
  match concrete, abstract, agrees with
  | .error fault, .error abstractFault, agrees => exact agrees
  | .ok (messages, none, last), .ok (abstractMessages, none), ⟨same, after⟩ =>
      subst same
      simp only
      by_cases excepts : messages ≠ []
      · rw [if_pos excepts, if_pos excepts]
        exact ⟨shows_answerThrowing .null _, after⟩
      · rw [if_neg excepts, if_neg excepts, after.object]
        exact ⟨shows_answerThrowing (.object _) [], after.objectInit⟩
  | .ok (_, some ptr, last), .ok (_, some set), ⟨after, registered⟩ =>
      have object := after.object
      simp only [object]
      exact ⟨shows_answerThrowing (.object _) [],
        after.objectInit.attachPointer registered.objectInit store.objects.length⟩

/-! ### Methods -/

private theorem SetStore.unionOf_append_singleton (store : SetStore) (resources : List Nat)
    (last : Nat) :
    store.unionOf (resources ++ [last]) = store.setOf last ∪ store.unionOf resources := by
  ext ele
  simp only [SetStore.unionOf, Finset.mem_biUnion, Finset.mem_union, List.mem_toFinset,
    List.mem_append, List.mem_singleton]
  constructor
  · rintro ⟨resource, listed | rfl, member⟩
    · exact Or.inr ⟨resource, listed, member⟩
    · exact Or.inl member
  · rintro (member | ⟨resource, listed, member⟩)
    · exact ⟨last, Or.inr rfl, member⟩
    · exact ⟨resource, Or.inl listed, member⟩

theorem Represents.objArgOnly (represents : Represents env php store) (object : Nat) :
    hllObjArgOnly php.objects php.zendFetchResource object =
      (hllObjArgOnly store.objects store.fetch object).map (Fetched.relabel php.address) := by
  rw [represents.fetch, represents.objects, hllObjArgOnly_relabel]

theorem phpMethodHllAdd_agrees (represents : Represents env php store) (object : Nat)
    (data : Zval) :
    PhpAgrees env zend (phpMethodHllAdd env zend php object data)
      (addToObject zend store object data) := by
  rw [phpMethodHllAdd, addToObject, represents.objArgOnly]
  cases checked : hllObjArgOnly store.objects store.fetch object with
  | error fault => exact rfl
  | ok found =>
      cases found with
      | refused => exact ⟨shows_answerThrowing (.bool false) _, represents⟩
      | missing messages => exact ⟨shows_answerThrowing (.bool false) _, represents⟩
      | found resource =>
          have live := SetStore.live_of_hllObjArgOnly checked
          obtain ⟨_pointer, _allocated, holds⟩ := represents.live live
          have adds := holds.phpMethodAdd zend.tryConvertToString data
          cases elements : data.elements zend.tryConvertToString with
          | none =>
              rw [elements] at adds
              simp only at adds
              simp only [Except.map, Fetched.relabel, adds]
              exact ⟨⟨.bool false, rfl, rfl, rfl⟩, represents.putSame live holds⟩
          | some added =>
              rw [elements] at adds
              obtain ⟨next, ran, after⟩ := adds
              simp only [Except.map, Fetched.relabel, ran]
              exact ⟨⟨.object object, rfl, rfl, rfl⟩, represents.put live after⟩

theorem phpMethodMerge_agrees (represents : Represents env php store) (object : Nat)
    (args : List Zval) :
    PhpAgrees env zend (phpMethodMerge env php object args) (mergeIntoObject store object args) := by
  rw [phpMethodMerge, mergeIntoObject]
  by_cases none : args = []
  · rw [if_pos none, if_pos none]
    exact ⟨shows_answer .null _, represents⟩
  rw [if_neg none, if_neg none, represents.objArgOnly]
  cases checked : hllObjArgOnly store.objects store.fetch object with
  | error fault => exact rfl
  | ok found =>
      cases found with
      | refused => exact ⟨shows_answer .null _, represents⟩
      | missing messages => exact ⟨shows_answer (.bool false) _, represents⟩
      | found target =>
          have liveTarget := SetStore.live_of_hllObjArgOnly checked
          simp only [Except.map, Fetched.relabel, represents.mergeSources]
          cases sources : PhpHll.mergeSources store.objects store.fetch args with
          | error fault => exact rfl
          | ok listed =>
              obtain ⟨messages, resources⟩ := listed
              cases resources with
              | none => exact ⟨shows_answer (.bool false) _, represents⟩
              | some resources =>
                  have live : ∀ resource ∈ resources ++ [target], store.Live resource := by
                    intro resource member
                    rcases List.mem_append.mp member with source | last
                    · exact SetStore.live_of_mergeSources sources resource source
                    · rw [List.mem_singleton.mp last]
                      exact liveTarget
                  obtain ⟨next, ran, holds⟩ := represents.pfMerge liveTarget live
                  rw [List.map_append, List.map_append, List.map_singleton, List.map_singleton]
                    at ran
                  rw [store.unionOf_append_singleton] at holds
                  simp only [relabelList, Option.map_some, List.length_map, ran, ne_eq,
                    not_true_eq_false, if_false]
                  by_cases alone : resources = []
                  · rw [if_pos alone, alone]
                    exact ⟨shows_answer (.bool false) _, represents⟩
                  · have several : ¬resources.length + 1 < 2 := by
                      have positive := List.length_pos_iff.mpr alone
                      omega
                    rw [if_neg alone, if_neg several]
                    exact ⟨shows_answer (.object object) [], represents.put liveTarget holds⟩

theorem phpMethod_agrees (represents : Represents env php store) (object : Nat)
    {body : Nat → PhpOutcome} {abstractBody : Nat → PhpReply SetValue × SetStore}
    (agrees : ∀ resource, store.Live resource →
      PhpAgrees env zend (body (php.address resource)) (.ok (abstractBody resource))) :
    PhpAgrees env zend (phpMethod php object body) (withObject store object abstractBody) := by
  rw [phpMethod, withObject, represents.objArgOnly]
  cases checked : hllObjArgOnly store.objects store.fetch object with
  | error fault => exact rfl
  | ok found =>
      cases found with
      | refused => exact ⟨shows_answer (.bool false) _, represents⟩
      | missing messages => exact ⟨shows_answer (.bool false) _, represents⟩
      | found resource => exact agrees resource (SetStore.live_of_hllObjArgOnly checked)

theorem phpHllSerialize_agrees (represents : Represents env php store) (object : Nat) :
    PhpAgrees env zend (phpHllSerialize env zend php object) (serializeSet store object) := by
  rw [phpHllSerialize, serializeSet, represents.objects, represents.fetch]
  cases store.objects[object]? with
  | none => exact ⟨shows_answer .null _, represents⟩
  | some property =>
      cases property with
      | none => exact rfl
      | some resource =>
          simp only [Fetch.relabel]
          cases fetches : store.fetch resource with
          | mk messages found =>
              cases found with
              | none => exact rfl
              | some handle =>
                  obtain ⟨same, live⟩ := SetStore.live_of_fetch fetches
                  subst same
                  exact dump_agrees represents live fun bytes dump => .serialized bytes _ dump

theorem phpHllUnserialize_agrees (represents : Represents env php store) (buf : List Byte)
    {reading : Option ElementSet}
    (reads : ∀ value, zend.phpVarUnserialize buf = some (.isString value) →
      Reads env value reading) :
    PhpAgrees env zend (phpHllUnserialize env zend php buf)
      (unserializeSet zend store buf reading) := by
  unfold phpHllUnserialize unserializeSet
  cases parsed : zend.phpVarUnserialize buf with
  | none => exact ⟨shows_answerThrowing (.bool false) _, represents⟩
  | some zv =>
      cases zv with
      | isString value =>
          have reads' := reads value parsed
          cases reading with
          | none =>
              have refused : hllLoad env (sdsnewlen env value) = (cErr, none) := reads'
              simp only [refused, if_true]
              exact ⟨shows_answerThrowing (.bool false) _, represents⟩
          | some set =>
              obtain ⟨hll, loaded, holds⟩ := reads'.load
              simp only [loaded, if_neg cOk_ne_cErr]
              rw [represents.object]
              have initial := represents.objectInit
              exact ⟨shows_answer (.object _) [],
                (initial.allocate hll).attachPointer (initial.register holds) store.objects.length⟩
      | _ => exact ⟨shows_answerThrowing (.bool false) _, represents⟩

/-! ### Calls and scripts -/

/-- The step lemma: a call agrees with its counterpart on sets. -/
theorem PhpCall.step_agrees (empty : env.estimate 16384 16384 = 0)
    (represents : Represents env php store) (call : PhpCall) (reading : Option ElementSet)
    (reads : call.Reads env zend reading) :
    PhpAgrees env zend (call.step env zend php) (setStep env zend (call, reading) store) := by
  cases call with
  | hllCreate allowSparse => exact phpFunctionCreate_agrees represents allowSparse
  | hllAdd hll data => exact phpFunctionHllAdd_agrees represents hll data
  | hllMerge args => exact phpFunctionMerge_agrees represents args
  | hllCount args => exact phpFunctionCount_agrees empty represents args
  | hllPromote hll =>
      exact withResource_agrees represents hll .null fun _ live =>
        promote_agrees represents live .null
  | hllInfo hll =>
      exact withResource_agrees represents hll (.bool false) fun _ live =>
        info_agrees represents live
  | hllDump hll =>
      exact withResource_agrees represents hll (.bool false) fun _ live =>
        dump_agrees represents live fun bytes dump => .dumped bytes _ dump
  | hllLoad input => exact phpFunctionLoad_agrees represents reads
  | new input =>
      refine phpNew_agrees represents ?_
      rintro bytes rfl
      exact reads
  | subclass =>
      rw [PhpCall.step, represents.object]
      exact ⟨shows_answer (.object _) [], represents.objectInit⟩
  | construct object input =>
      refine phpMethodConstruct_agrees represents object ?_
      rintro bytes rfl
      exact reads
  | add object data => exact phpMethodHllAdd_agrees represents object data
  | merge object args => exact phpMethodMerge_agrees represents object args
  | count object =>
      exact phpMethod_agrees represents object fun _ live => countOne_agrees empty represents live
  | promote object =>
      exact phpMethod_agrees represents object fun _ live =>
        promote_agrees represents live (.object object)
  | info object =>
      exact phpMethod_agrees represents object fun _ live => info_agrees represents live
  | dump object =>
      exact phpMethod_agrees represents object fun _ live =>
        dump_agrees represents live fun bytes dump => .dumped bytes _ dump
  | serialize object => exact phpHllSerialize_agrees represents object
  | unserialize buf => exact phpHllUnserialize_agrees represents buf reads

/-- Each string that a script loads is read as the set beside its call. -/
def ScriptReads (env : Env) (zend : Zend) (script : List (PhpCall × Option ElementSet)) : Prop :=
  ∀ op ∈ script, op.1.Reads env zend op.2

/-- The run lemma. -/
theorem script_agrees (empty : env.estimate 16384 16384 = 0)
    (represents : Represents env php store) {script : List (PhpCall × Option ElementSet)}
    (reads : ScriptReads env zend script) :
    Agrees (List.Forall₂ (ShowsReply env zend)) (Represents env)
      (run (PhpCall.step env zend) (script.map Prod.fst) php)
      (run (setStep env zend) script store) := by
  refine run_agrees _ _ (fun call op => op.1 = call ∧ call.Reads env zend op.2) _ _ ?_ _ script ?_
    php store represents
  · rintro call ⟨_, reading⟩ php store ⟨rfl, readsCall⟩ related
    exact PhpCall.step_agrees empty related _ reading readsCall
  · rw [List.forall₂_map_left_iff, List.forall₂_same]
    exact fun op member => ⟨rfl, reads op member⟩

end Agreement

/-- From the first call on, every script returns what the same script on finite
sets returns, and stops with a fault where that one does, as long as each string
it loads is a dump of some set or is refused.  The sets hold what is left of each
string in front of its first NUL. -/
theorem php_script_refines_sets (env : Env) (zend : Zend) (empty : env.estimate 16384 16384 = 0)
    (script : List (PhpCall × Option ElementSet)) (reads : ScriptReads env zend script) :
    Agrees (List.Forall₂ (ShowsReply env zend)) (Represents env)
      (run (PhpCall.step env zend) (script.map Prod.fst) .start)
      (run (setStep env zend) script .start) :=
  script_agrees empty (represents_start env) reads

/-- An engine that knows no objects and whose serialized strings are the strings
themselves. -/
def plainZend : Zend :=
  { tryConvertToString := convertsPlain
    phpVarSerialize := id
    phpVarUnserialize := fun buf => some (.isString buf) }

/-- An add, a string that is no dump, a merge and a count. -/
def mergeScript : List (PhpCall × Option ElementSet) :=
  [(.new none, none), (.add 0 (.isString [0x61#8]), none), (.hllLoad [], none),
    (.hllMerge [.isObject 0, .isObject 0], none), (.hllCount [.isResource 1], none)]

theorem mergeScript_reads : ScriptReads server plainZend mergeScript := by
  have refused : Reads server [] none := rfl
  intro op member
  simp only [mergeScript, List.mem_cons, List.not_mem_nil, or_false] at member
  rcases member with rfl | rfl | rfl | rfl | rfl
  · exact trivial
  · exact trivial
  · exact refused
  · exact trivial
  · exact trivial

theorem php_script_refines_sets_merge :
    Agrees (List.Forall₂ (ShowsReply server plainZend)) (Represents server)
      (run (PhpCall.step server plainZend) (mergeScript.map Prod.fst) .start)
      (run (setStep server plainZend) mergeScript .start) :=
  php_script_refines_sets server plainZend rfl mergeScript mergeScript_reads

end PhpHll
