/-
The state of the extension as a store of sets.

Every resource with a pointer points at an HLL of its own that holds the set of
that resource.  The checks of the arguments then find, in both states, the same
resources and say the same; the pointers are the addresses of these resources.
-/

import PhpHll.HeldSets

namespace PhpHll

open ByteMemory

/-! ### Checks under other handles -/

def Fetch.relabel (fetch : Fetch) (address : Nat → Nat) : Fetch := fun resource =>
  ((fetch resource).1, (fetch resource).2.map address)

def Fetched.relabel (address : Nat → Nat) : Fetched → Fetched
  | .refused => .refused
  | .missing messages => .missing messages
  | .found handle => .found (address handle)

/-- The handles a check finds, by other names. -/
def relabelList (address : Nat → Nat) (found : List PhpMessage × Option (List Nat)) :
    List PhpMessage × Option (List Nat) :=
  (found.1, found.2.map fun handles => handles.map address)

section Relabel

variable (objects : List (Option Nat)) (fetch : Fetch) (address : Nat → Nat)

private theorem fetched_relabel (found : List PhpMessage × Hll) :
    fetched (found.1, found.2.map address) = (fetched found).relabel address := by
  obtain ⟨messages, handle⟩ := found
  cases handle with
  | none => rfl
  | some handle => rfl

theorem hllArgOnly_relabel (hll : Zval) :
    hllArgOnly (fetch.relabel address) hll = (hllArgOnly fetch hll).relabel address := by
  cases hll with
  | isResource resource => exact fetched_relabel address (fetch resource)
  | _ => rfl

theorem hllObjArgOnly_relabel (object : Nat) :
    hllObjArgOnly objects (fetch.relabel address) object =
      (hllObjArgOnly objects fetch object).map (Fetched.relabel address) := by
  rw [hllObjArgOnly, hllObjArgOnly]
  cases objects[object]? with
  | none => rfl
  | some property =>
      cases property with
      | none => rfl
      | some resource => exact congrArg Except.ok (fetched_relabel address (fetch resource))

theorem phpHllFromZval_relabel (current : Zval) :
    phpHllFromZval objects (fetch.relabel address) current =
      (phpHllFromZval objects fetch current).map fun found =>
        (found.1, found.2.map address) := by
  cases current with
  | isObject object =>
      rw [phpHllFromZval, phpHllFromZval]
      cases objects[object]? with
      | none => rfl
      | some property => cases property <;> rfl
  | _ => rfl

theorem phpHllList_relabel (args : List Zval) :
    phpHllList objects (fetch.relabel address) args =
      (phpHllList objects fetch args).map (relabelList address) := by
  induction args with
  | nil => rfl
  | cons current rest ih =>
      rw [phpHllList, phpHllList, phpHllFromZval_relabel, ih]
      cases phpHllFromZval objects fetch current with
      | error fault => rfl
      | ok found =>
          obtain ⟨messages, handle⟩ := found
          cases handle with
          | none => rfl
          | some handle =>
              cases phpHllList objects fetch rest with
              | error fault => rfl
              | ok later =>
                  obtain ⟨laterMessages, handles⟩ := later
                  cases handles with
                  | none => rfl
                  | some handles => rfl

/-- The arguments of a merge are checked by the loop, over one array or all. -/
theorem mergeSources_eq (args : List Zval) :
    ∃ entries, ∀ other : Fetch,
      mergeSources objects other args = phpHllList objects other entries := by
  unfold mergeSources
  split
  · rename_i entries
    exact ⟨entries, fun _ => rfl⟩
  · exact ⟨args, fun _ => rfl⟩

theorem mergeSources_relabel (args : List Zval) :
    mergeSources objects (fetch.relabel address) args =
      (mergeSources objects fetch args).map (relabelList address) := by
  obtain ⟨entries, same⟩ := mergeSources_eq objects args
  rw [same, same, phpHllList_relabel]

end Relabel

/-! ### Resources with a set -/

namespace SetStore

def Live (store : SetStore) (resource : Nat) : Prop :=
  store.resources[resource]? = some (some (store.setOf resource))

theorem live_of_fetch {store : SetStore} {resource found : Nat} {messages : List PhpMessage}
    (fetches : store.fetch resource = (messages, some found)) :
    found = resource ∧ store.Live resource := by
  unfold fetch at fetches
  split at fetches
  · cases fetches
  · cases fetches
  · rename_i set held
    cases fetches
    refine ⟨rfl, ?_⟩
    rw [Live, setOf, held]
    rfl

private theorem live_of_fetched {store : SetStore} {resource found : Nat}
    (checked : fetched (store.fetch resource) = .found found) : store.Live found := by
  cases fetches : store.fetch resource with
  | mk messages handle =>
      rw [fetches] at checked
      cases handle with
      | none => cases checked
      | some handle =>
          cases checked
          obtain ⟨same, live⟩ := live_of_fetch fetches
          rw [same]
          exact live

theorem live_of_hllArgOnly {store : SetStore} {hll : Zval} {resource : Nat}
    (checked : hllArgOnly store.fetch hll = .found resource) : store.Live resource := by
  cases hll with
  | isResource number => exact live_of_fetched checked
  | _ => cases checked

theorem live_of_hllObjArgOnly {store : SetStore} {object resource : Nat}
    (checked : hllObjArgOnly store.objects store.fetch object = .ok (.found resource)) :
    store.Live resource := by
  unfold hllObjArgOnly at checked
  split at checked
  · cases checked
  · cases checked
  · exact live_of_fetched (Except.ok.inj checked)

private theorem live_of_phpHllFromZval {store : SetStore} {current : Zval}
    {messages : List PhpMessage} {resource : Nat}
    (checked : phpHllFromZval store.objects store.fetch current = .ok (messages, some resource)) :
    store.Live resource := by
  unfold phpHllFromZval at checked
  split at checked
  · obtain ⟨same, live⟩ := live_of_fetch (Except.ok.inj checked)
    rw [same]
    exact live
  · split at checked
    · cases checked
    · cases checked
    · obtain ⟨same, live⟩ := live_of_fetch (Except.ok.inj checked)
      rw [same]
      exact live
  · cases checked

theorem live_of_phpHllList {store : SetStore} {args : List Zval} {messages : List PhpMessage}
    {resources : List Nat}
    (checked : phpHllList store.objects store.fetch args = .ok (messages, some resources)) :
    ∀ resource ∈ resources, store.Live resource := by
  induction args generalizing messages resources with
  | nil =>
      cases checked
      exact fun resource member => absurd member List.not_mem_nil
  | cons current rest ih =>
      rw [phpHllList] at checked
      split at checked
      · cases checked
      · cases checked
      · rename_i first fromZval
        split at checked
        · cases checked
        · rename_i laterMessages later loop
          cases later with
          | none => cases checked
          | some later =>
              cases checked
              rw [List.forall_mem_cons]
              exact ⟨live_of_phpHllFromZval fromZval, ih loop⟩

theorem live_of_mergeSources {store : SetStore} {args : List Zval} {messages : List PhpMessage}
    {resources : List Nat}
    (checked : mergeSources store.objects store.fetch args = .ok (messages, some resources)) :
    ∀ resource ∈ resources, store.Live resource := by
  obtain ⟨entries, same⟩ := mergeSources_eq store.objects args
  rw [same] at checked
  exact live_of_phpHllList checked

end SetStore

/-! ### The relation -/

/-- The pointer of a resource and its set, if there is such a resource. -/
inductive Points (env : Env) (heap : Heap) (next : Nat) :
    Option Hll → Option (Option ElementSet) → Prop
  | absent : Points env heap next none none
  | empty : Points env heap next (some none) (some none)
  | held {handle : Nat} {set : ElementSet} (allocated : handle < next)
      (holds : HoldsSet env set (heap handle)) :
      Points env heap next (some (some handle)) (some (some set))

structure Represents (env : Env) (php : Php) (store : SetStore) : Prop where
  objects : php.objects = store.objects
  points : ∀ resource : Nat,
    Points env php.heap php.next php.resources[resource]? store.resources[resource]?
  distinct : ∀ first second handle : Nat, php.resources[first]? = some (some handle) →
    php.resources[second]? = some (some handle) → first = second

/-- The pointer of a resource that has one. -/
def Php.address (php : Php) (resource : Nat) : Nat := (php.resources[resource]?.join).getD 0

theorem represents_start (env : Env) : Represents env .start .start :=
  ⟨rfl, fun _ => .absent, fun _ _ _ found => by cases found⟩

section Represented

variable {env : Env} {php : Php} {store : SetStore}

theorem Represents.length (represents : Represents env php store) :
    php.resources.length = store.resources.length := by
  have same (resource : Nat) :
      php.resources.length ≤ resource ↔ store.resources.length ≤ resource := by
    have points := represents.points resource
    rw [← List.getElem?_eq_none_iff, ← List.getElem?_eq_none_iff]
    generalize php.resources[resource]? = pointer, store.resources[resource]? = set at points ⊢
    cases points with
    | absent => exact iff_of_true rfl rfl
    | empty => exact iff_of_false (Option.some_ne_none _) (Option.some_ne_none _)
    | held => exact iff_of_false (Option.some_ne_none _) (Option.some_ne_none _)
  have below := same php.resources.length
  have above := same store.resources.length
  omega

theorem Represents.fetch (represents : Represents env php store) :
    php.zendFetchResource = Fetch.relabel store.fetch php.address := by
  funext resource
  have points := represents.points resource
  have address : php.address resource = (php.resources[resource]?.join).getD 0 := rfl
  have relabelled : Fetch.relabel store.fetch php.address resource =
      ((store.fetch resource).1, (store.fetch resource).2.map php.address) := rfl
  rw [relabelled, Php.zendFetchResource, SetStore.fetch]
  generalize php.resources[resource]? = pointer, store.resources[resource]? = set
    at points address ⊢
  cases points with
  | absent => rfl
  | empty => rfl
  | held allocated holds => exact congrArg (fun handle => ([], some handle)) address.symm

theorem Represents.live (represents : Represents env php store) {resource : Nat}
    (live : store.Live resource) :
    php.resources[resource]? = some (some (php.address resource)) ∧
      php.address resource < php.next ∧
      HoldsSet env (store.setOf resource) (php.heap (php.address resource)) := by
  have points := represents.points resource
  have address : php.address resource = (php.resources[resource]?.join).getD 0 := rfl
  rw [live] at points
  rw [address]
  generalize php.resources[resource]? = pointer at points ⊢
  cases points with
  | held allocated holds => exact ⟨rfl, allocated, holds⟩

theorem Represents.address_injective (represents : Represents env php store)
    {first second : Nat} (liveFirst : store.Live first) (liveSecond : store.Live second)
    (same : php.address first = php.address second) : first = second := by
  have pointer := (represents.live liveSecond).1
  rw [← same] at pointer
  exact represents.distinct _ _ _ (represents.live liveFirst).1 pointer

/-! ### Steps of the state -/

theorem SetStore.put_setOf {resource : Nat} (live : store.Live resource) :
    store.put resource (store.setOf resource) = store := by
  have inside := List.getElem?_eq_some_iff.mp live
  obtain ⟨bound, held⟩ := inside
  rw [SetStore.put, ← held, List.set_getElem_self]

/-- An HLL that no resource points at is of no account. -/
theorem Represents.allocate (represents : Represents env php store) (hll : Robj) :
    Represents env (php.allocate hll).2 store := by
  refine ⟨represents.objects, fun resource => ?_, represents.distinct⟩
  have points := represents.points resource
  have same : (php.allocate hll).2.resources = php.resources := rfl
  rw [same]
  generalize php.resources[resource]? = pointer, store.resources[resource]? = set at points ⊢
  cases points with
  | absent => exact .absent
  | empty => exact .empty
  | @held handle set allocated holds =>
      have other : handle ≠ php.next := Nat.ne_of_lt allocated
      have kept : (php.allocate hll).2.heap handle = php.heap handle := by
        change Function.update php.heap php.next hll handle = php.heap handle
        exact Function.update_of_ne other hll php.heap
      exact .held (Nat.lt_succ_of_lt allocated) (by rw [kept]; exact holds)

private theorem getElem?_concat {Entry : Type} (entries : List Entry) (last : Entry)
    (position : Nat) :
    (entries ++ [last])[position]? =
      if position = entries.length then some last else entries[position]? := by
  rw [List.getElem?_append]
  split
  · rw [if_neg (by omega)]
  · split
    · rename_i outside here
      rw [here, Nat.sub_self]
      rfl
    · rw [List.getElem?_eq_none (by rw [List.length_singleton]; omega),
        List.getElem?_eq_none (by omega)]

/-- A resource is registered for a pointer that no other has. -/
private theorem Represents.registerPointer (represents : Represents env php store) {ptr : Hll}
    {set : Option ElementSet} (points : Points env php.heap php.next (some ptr) (some set))
    (new : ∀ (handle resource : Nat), ptr = some handle →
      php.resources[resource]? ≠ some (some handle)) :
    Represents env (php.zendRegisterResource ptr).2 (store.register set) := by
  have length := represents.length
  refine ⟨represents.objects, fun resource => ?_,
    fun first second handle foundFirst foundSecond => ?_⟩
  · change Points env php.heap php.next (php.resources ++ [ptr])[resource]?
      (store.resources ++ [set])[resource]?
    rw [getElem?_concat, getElem?_concat, length]
    split
    · exact points
    · exact represents.points resource
  · change (php.resources ++ [ptr])[first]? = some (some handle) at foundFirst
    change (php.resources ++ [ptr])[second]? = some (some handle) at foundSecond
    rw [getElem?_concat] at foundFirst foundSecond
    split at foundFirst
    · split at foundSecond
      · omega
      · exact absurd foundSecond (new handle second (Option.some.inj foundFirst))
    · split at foundSecond
      · exact absurd foundFirst (new handle first (Option.some.inj foundSecond))
      · exact represents.distinct first second handle foundFirst foundSecond

theorem Represents.allocated (represents : Represents env php store) {resource handle : Nat}
    (pointer : php.resources[resource]? = some (some handle)) : handle < php.next := by
  have points := represents.points resource
  rw [pointer] at points
  generalize store.resources[resource]? = set at points
  cases points with
  | held allocated holds => exact allocated

/-- A resource that is registered for a new HLL. -/
theorem Represents.register (represents : Represents env php store) {hll : Robj}
    {set : ElementSet} (holds : HoldsSet env set hll) :
    Represents env ((php.allocate hll).2.zendRegisterResource (some php.next)).2
      (store.register (some set)) := by
  have written : (php.allocate hll).2.heap php.next = hll := Function.update_self ..
  refine (represents.allocate hll).registerPointer
    (.held (Nat.lt_succ_self _) (by rw [written]; exact holds)) ?_
  rintro handle resource ⟨⟩ found
  exact Nat.lt_irrefl _ (represents.allocated found)

/-- A resource that is registered for NULL. -/
theorem Represents.registerNull (represents : Represents env php store) :
    Represents env (php.zendRegisterResource none).2 (store.register none) :=
  represents.registerPointer .empty fun handle resource none => by cases none

/-- The HLL of a resource is changed, and with it the set of that resource
alone. -/
theorem Represents.put (represents : Represents env php store) {resource : Nat} {hll : Robj}
    {set : ElementSet} (live : store.Live resource) (holds : HoldsSet env set hll) :
    Represents env (php.put (php.address resource) hll) (store.put resource set) := by
  obtain ⟨pointer, allocated, _⟩ := represents.live live
  refine ⟨represents.objects, fun other => ?_, represents.distinct⟩
  have points := represents.points other
  have inside : resource < store.resources.length := (List.getElem?_eq_some_iff.mp live).1
  change Points env (Function.update php.heap (php.address resource) hll) php.next
    php.resources[other]? (store.resources.set resource (some set))[other]?
  by_cases same : resource = other
  · subst same
    rw [List.getElem?_set_self inside, pointer]
    exact .held allocated (by rw [Function.update_self]; exact holds)
  · rw [List.getElem?_set_ne same]
    generalize found : php.resources[other]? = ptr, store.resources[other]? = held at points ⊢
    cases points with
    | absent => exact .absent
    | empty => exact .empty
    | @held handle kept allocatedOther holdsOther =>
        have elsewhere : handle ≠ php.address resource := by
          rintro rfl
          exact same (represents.distinct resource other _ pointer found)
        exact .held allocatedOther (by rw [Function.update_of_ne elsewhere]; exact holdsOther)

theorem Represents.putSame (represents : Represents env php store) {resource : Nat} {hll : Robj}
    (live : store.Live resource) (holds : HoldsSet env (store.setOf resource) hll) :
    Represents env (php.put (php.address resource) hll) store := by
  have after := represents.put live holds
  rwa [SetStore.put_setOf live] at after

theorem Represents.objectInit (represents : Represents env php store) :
    Represents env php.objectInitEx.2 store.objectInit := by
  refine ⟨?_, represents.points, represents.distinct⟩
  exact congrArg (· ++ [none]) represents.objects

theorem Represents.attach (represents : Represents env php store) (object resource : Nat) :
    Represents env (php.addPropertyResource object resource) (store.attach object resource) := by
  refine ⟨?_, represents.points, represents.distinct⟩
  exact congrArg (fun objects => objects.set object (some resource)) represents.objects

/-- A new pointer, with the resource it gets and the object that gets this. -/
theorem Represents.attachPointer (represents : Represents env php store) {ptr : Hll}
    {set : Option ElementSet}
    (registered : Represents env (php.zendRegisterResource ptr).2 (store.register set))
    (object : Nat) : Represents env (php.attachPointer object ptr) (store.attachSet object set) := by
  rw [SetStore.attachSet, ← represents.length]
  exact registered.attach object php.resources.length

/-! ### Sets by address -/

/-- Resources with sets have addresses of their own, so the sets can be told
from the addresses. -/
theorem Represents.setsAt (represents : Represents env php store) :
    ∃ sets : Nat → ElementSet,
      (∀ resource, store.Live resource → sets (php.address resource) = store.setOf resource) ∧
      ∀ resources : List Nat, (∀ resource ∈ resources, store.Live resource) →
        (resources.map php.address).toFinset.biUnion sets = store.unionOf resources := by
  classical
  let resourceAt (handle : Nat) : Nat :=
    if found : ∃ resource, store.Live resource ∧ php.address resource = handle then found.choose
    else 0
  have known (resource : Nat) (live : store.Live resource) :
      resourceAt (php.address resource) = resource := by
    have found : ∃ other, store.Live other ∧ php.address other = php.address resource :=
      ⟨resource, live, rfl⟩
    simp only [resourceAt, dif_pos found]
    exact represents.address_injective found.choose_spec.1 live found.choose_spec.2
  refine ⟨fun handle => store.setOf (resourceAt handle), fun resource live => ?_,
    fun resources live => ?_⟩
  · exact congrArg store.setOf (known resource live)
  · ext ele
    rw [SetStore.unionOf, Finset.mem_biUnion, Finset.mem_biUnion]
    constructor
    · rintro ⟨handle, member, here⟩
      obtain ⟨resource, listed, rfl⟩ := List.mem_map.mp (List.mem_toFinset.mp member)
      rw [known resource (live resource listed)] at here
      exact ⟨resource, List.mem_toFinset.mpr listed, here⟩
    · rintro ⟨resource, member, here⟩
      have listed := List.mem_toFinset.mp member
      refine ⟨php.address resource,
        List.mem_toFinset.mpr (List.mem_map.mpr ⟨resource, listed, rfl⟩), ?_⟩
      rw [known resource (live resource listed)]
      exact here

/-- A merge of resources into a resource leaves it with the union of theirs. -/
theorem Represents.pfMerge (represents : Represents env php store) {target : Nat}
    {resources : List Nat} (liveTarget : store.Live target)
    (live : ∀ resource ∈ resources, store.Live resource) :
    ∃ next, PhpHll.pfMerge env php.heap (some (php.address target))
        ((resources.map php.address).map some) =
          (cOk, Function.update php.heap (php.address target) next) ∧
      HoldsSet env (store.unionOf resources) next := by
  obtain ⟨sets, setsAt, union⟩ := represents.setsAt
  obtain ⟨next, ran, holds⟩ := pfMerge_holds php.heap sets (php.address target)
    (store.setOf target) (resources.map php.address) (represents.live liveTarget).2.2
    (fun handle member => by
      obtain ⟨resource, listed, rfl⟩ := List.mem_map.mp member
      rw [setsAt resource (live resource listed)]
      exact (represents.live (live resource listed)).2.2)
  rw [union resources live] at holds
  exact ⟨next, ran, holds⟩

/-- The same for a new HLL, which is none of the sources. -/
theorem Represents.pfMergeNew (represents : Represents env php store) {resources : List Nat}
    {new : Robj} {before : ElementSet} (holdsNew : HoldsSet env before new)
    (live : ∀ resource ∈ resources, store.Live resource) :
    ∃ next, PhpHll.pfMerge env (php.allocate new).2.heap (some php.next)
        ((resources.map php.address).map some) = (cOk, (php.allocate next).2.heap) ∧
      HoldsSet env (store.unionOf resources) next := by
  have allocated := represents.allocate new
  have written : (php.allocate new).2.heap php.next = new := Function.update_self ..
  obtain ⟨sets, setsAt, union⟩ := allocated.setsAt
  obtain ⟨next, ran, holds⟩ := pfMerge_holds (php.allocate new).2.heap sets php.next before
    (resources.map php.address) (by rw [written]; exact holdsNew)
    (fun handle member => by
      obtain ⟨resource, listed, rfl⟩ := List.mem_map.mp member
      have held := (allocated.live (live resource listed)).2.2
      rw [← setsAt resource (live resource listed)] at held
      exact held)
  have unionNew := union resources live
  have updated : Function.update (php.allocate new).2.heap php.next next =
      (php.allocate next).2.heap := Function.update_idem ..
  rw [updated] at ran
  exact ⟨next, ran, unionNew ▸ holds⟩

end Represented

end PhpHll
