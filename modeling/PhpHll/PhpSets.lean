/-
What the extension is for.

A store of finite sets of byte strings behind numbered resources, with objects
that name a resource.  Adding is inserting, merging is uniting, a dump stands
for a set, and a count is the estimate that belongs to a set.  Nothing of an
HLL is left but the estimate and the question whether an add shows.
-/

import Mathlib.Data.Finset.Union
import Mathlib.Data.Finset.Lattice.Lemmas
import PhpHll.PhpCalls

namespace PhpHll

open ByteMemory

abbrev ElementSet := Finset (List Byte)

/-- A resource without a set is one that holds no HLL. -/
structure SetStore where
  resources : List (Option ElementSet)
  objects : List (Option Nat)

inductive SetValue
  | null
  | bool (value : Bool)
  | long (value : Int)
  | dumped (set : ElementSet)
  | serialized (set : ElementSet)
  | info
  | resource (number : Nat)
  | object (number : Nat)

abbrev SetOutcome := Except PhpFault (PhpReply SetValue × SetStore)

namespace SetStore

def start : SetStore := { resources := [], objects := [] }

/-- A resource with a set is its own handle. -/
def fetch (store : SetStore) : Fetch := fun resource =>
  match store.resources[resource]? with
  | none => ([.invalidResource], none)
  | some none => ([], none)
  | some (some _) => ([], some resource)

def setOf (store : SetStore) (resource : Nat) : ElementSet :=
  (store.resources[resource]?.join).getD ∅

def unionOf (store : SetStore) (resources : List Nat) : ElementSet :=
  resources.toFinset.biUnion store.setOf

def put (store : SetStore) (resource : Nat) (set : ElementSet) : SetStore :=
  { store with resources := store.resources.set resource (some set) }

def register (store : SetStore) (set : Option ElementSet) : SetStore :=
  { store with resources := store.resources ++ [set] }

def objectInit (store : SetStore) : SetStore := { store with objects := store.objects ++ [none] }

def attach (store : SetStore) (object resource : Nat) : SetStore :=
  { store with objects := store.objects.set object (some resource) }

def attachSet (store : SetStore) (object : Nat) (set : Option ElementSet) : SetStore :=
  (store.register set).attach object store.resources.length

end SetStore

/-! ### The estimate and the elements of a value -/

/-- The sketch of a set: of its elements in some order. -/
noncomputable def sketchOfSet (set : ElementSet) : Fin 16384 → Nat := sketchOf set.toList

noncomputable def estimateOf (env : Env) (set : ElementSet) : Int :=
  (countOf env (sketchOfSet set)).toInt

/-- An add shows when it changes the sketch. -/
noncomputable def shows (set added : ElementSet) : Bool :=
  open Classical in decide (sketchOfSet (set ∪ added) ≠ sketchOfSet set)

/-- What is said of the entry of an array that is not added. -/
def Zval.entryComplaints : Zval → List String
  | .isArray _ | .isResource _ | .isReference _ => ["Invalid type"]
  | _ => []

/-- What is said of a value that is not added: of an array, what is said of its
first such entry. -/
def Zval.complaints (tryConvertToString : TryConvert) : Zval → List String
  | .isArray entries =>
      ((entries.find? fun entry => (entry.takenBytes tryConvertToString).isNone).map
        Zval.entryComplaints).getD []
  | .isResource _ | .isReference _ => ["Argument could not be converted to string"]
  | _ => []

/-- The elements that an add of a value inserts, each cut at its first NUL. -/
def Zval.elements (tryConvertToString : TryConvert) (data : Zval) : Option ElementSet :=
  (data.takenStrings tryConvertToString).map fun strings => (strings.map cString).toFinset

/-! ### The calls on sets -/

section Calls

variable (env : Env) (zend : Zend) (store : SetStore)

def returnSet (set : ElementSet) : PhpReply SetValue × SetStore :=
  (answer (.resource store.resources.length) [], store.register (some set))

noncomputable def countSet (set : ElementSet) : PhpReply SetValue × SetStore :=
  (answer (.long (estimateOf env set)) [], store)

noncomputable def addSet (hll data : Zval) : SetOutcome :=
  match hllArgOnly store.fetch hll with
  | .refused => .ok (answer .null [.parameters], store)
  | .missing messages => .ok (answer (.bool false) messages, store)
  | .found resource =>
      match data.elements zend.tryConvertToString with
      | none =>
          .ok
            (answer (.bool false) ((data.complaints zend.tryConvertToString).map .text), store)
      | some added =>
          .ok
            (answer (.bool (shows (store.setOf resource) added)) [],
              store.put resource (store.setOf resource ∪ added))

def mergeSets (args : List Zval) : SetOutcome :=
  if args = [] then .ok (answer .null [.parameters], store)
  else
    match mergeSources store.objects store.fetch args with
    | .error fault => .error fault
    | .ok (messages, none) => .ok (answer (.bool false) messages, store)
    | .ok (_, some sources) =>
        if sources.length < 2 then .ok (answer (.bool false) [.wrongParamCount], store)
        else .ok (returnSet store (store.unionOf sources))

noncomputable def countSets (args : List Zval) : SetOutcome :=
  if args = [] then .ok (answer .null [.parameters], store)
  else
    match phpHllArgsToList store.objects store.fetch args with
    | .error fault => .error fault
    | .ok (messages, none) => .ok (answer (.bool false) messages, store)
    | .ok (_, some sources) => .ok (countSet env store (store.unionOf sources))

/-- A call with a resource, by what it returns without an HLL and with one. -/
def withResource (hll : Zval) (missing : SetValue) (value : Nat → SetValue) : SetOutcome :=
  match hllArgOnly store.fetch hll with
  | .refused => .ok (answer .null [.parameters], store)
  | .missing messages => .ok (answer missing messages, store)
  | .found resource => .ok (answer (value resource) [], store)

def loadSet (reading : Option ElementSet) : SetOutcome :=
  match reading with
  | none => .ok (answer (.bool false) [.text "Supplied HLL dump was invalid"], store)
  | some set => .ok (returnSet store set)

/-- What the constructor registers, `none` where it fails. -/
def constructedSet (input : Option Zval) (reading : Option ElementSet) :
    Except PhpFault (List PhpMessage × Option (Option ElementSet)) :=
  match input with
  | none | some .isNull | some .isFalse | some .isTrue => .ok ([], some (some ∅))
  | some (.isString _) =>
      match reading with
      | none => .ok ([.text "Supplied HLL dump was invalid"], none)
      | some set => .ok ([], some (some set))
  | some (.isArray entries) =>
      match phpHllArrayToList store.objects store.fetch entries with
      | .error fault => .error fault
      | .ok (messages, none) => .ok (messages, none)
      | .ok (_, some sources) => .ok ([], some (some (store.unionOf sources)))
  | some _ => .ok ([], some none)

def constructSet (object : Nat) (input : Option Zval) (reading : Option ElementSet) :
    SetOutcome :=
  match store.objects[object]? with
  | none => .ok (answerThrowing (.bool false) [.parameters], store)
  | some _ =>
      match constructedSet store input reading with
      | .error fault => .error fault
      | .ok (messages, none) => .ok (answerThrowing (.bool false) messages, store)
      | .ok (_, some set) =>
          .ok (answerThrowing .null [], store.attachSet object set)

def newSet (input : Option Zval) (reading : Option ElementSet) : SetOutcome :=
  match constructedSet store input reading with
  | .error fault => .error fault
  | .ok (messages, none) =>
      if messages ≠ [] then .ok (answerThrowing .null messages, store)
      else .ok (answerThrowing (.object store.objects.length) [], store.objectInit)
  | .ok (_, some set) =>
      .ok
        (answerThrowing (.object store.objects.length) [],
          store.objectInit.attachSet store.objects.length set)

/-- A method call, by what it does with an HLL. -/
def withObject (object : Nat) (body : Nat → PhpReply SetValue × SetStore) : SetOutcome :=
  match hllObjArgOnly store.objects store.fetch object with
  | .error fault => .error fault
  | .ok .refused => .ok (answer (.bool false) [.parameters], store)
  | .ok (.missing messages) => .ok (answer (.bool false) messages, store)
  | .ok (.found resource) => .ok (body resource)

noncomputable def addToObject (object : Nat) (data : Zval) : SetOutcome :=
  match hllObjArgOnly store.objects store.fetch object with
  | .error fault => .error fault
  | .ok .refused => .ok (answerThrowing (.bool false) [.parameters], store)
  | .ok (.missing messages) => .ok (answerThrowing (.bool false) messages, store)
  | .ok (.found resource) =>
      match data.elements zend.tryConvertToString with
      | none =>
          .ok
            (answerThrowing (.bool false)
              ((data.complaints zend.tryConvertToString).map .text), store)
      | some added =>
          .ok
            ({ answerThrowing (.object object) [] with
                updArg := some (shows (store.setOf resource) added) },
              store.put resource (store.setOf resource ∪ added))

def mergeIntoObject (object : Nat) (args : List Zval) : SetOutcome :=
  if args = [] then .ok (answer .null [.parameters], store)
  else
    match hllObjArgOnly store.objects store.fetch object with
    | .error fault => .error fault
    | .ok .refused => .ok (answer .null [.parameters], store)
    | .ok (.missing messages) => .ok (answer (.bool false) messages, store)
    | .ok (.found target) =>
        match mergeSources store.objects store.fetch args with
        | .error fault => .error fault
        | .ok (messages, none) => .ok (answer (.bool false) messages, store)
        | .ok (_, some sources) =>
            if sources = [] then .ok (answer (.bool false) [.wrongParamCount], store)
            else
              .ok
                (answer (.object object) [],
                  store.put target (store.setOf target ∪ store.unionOf sources))

def serializeSet (object : Nat) : SetOutcome :=
  match store.objects[object]? with
  | none => .ok (answer .null [], store)
  | some none => .error .typeConfusion
  | some (some resource) =>
      match (store.fetch resource).2 with
      | none => .error .nullDereference
      | some _ => .ok (answer (.serialized (store.setOf resource)) [], store)

def unserializeSet (buf : List Byte) (reading : Option ElementSet) : SetOutcome :=
  match zend.phpVarUnserialize buf with
  | some (.isString _) =>
      match reading with
      | none =>
          .ok
            (answerThrowing (.bool false) [.text "Could not create HLL from unserialized string"],
              store)
      | some set =>
          .ok
            (answer (.object store.objects.length) [],
              store.objectInit.attachSet store.objects.length (some set))
  | _ => .ok (answerThrowing (.bool false) [.text "Could not unserialize HLL"], store)

end Calls

/-- A call together with the set that the string it loads is read as, if any. -/
noncomputable def setStep (env : Env) (zend : Zend) (op : PhpCall × Option ElementSet)
    (store : SetStore) : SetOutcome :=
  match op.1 with
  | .hllCreate _ => .ok (returnSet store ∅)
  | .hllAdd hll data => addSet zend store hll data
  | .hllMerge args => mergeSets store args
  | .hllCount args => countSets env store args
  | .hllPromote hll => withResource store hll .null fun _ => .null
  | .hllInfo hll => withResource store hll (.bool false) fun _ => .info
  | .hllDump hll =>
      withResource store hll (.bool false) fun resource => .dumped (store.setOf resource)
  | .hllLoad _ => loadSet store op.2
  | .new input => newSet store input op.2
  | .subclass => .ok (answer (.object store.objects.length) [], store.objectInit)
  | .construct object input => constructSet store object input op.2
  | .add object data => addToObject zend store object data
  | .merge object args => mergeIntoObject store object args
  | .count object =>
      withObject store object fun resource => countSet env store (store.setOf resource)
  | .promote object => withObject store object fun _ => (answer (.object object) [], store)
  | .info object => withObject store object fun _ => (answer .info [], store)
  | .dump object =>
      withObject store object fun resource => (answer (.dumped (store.setOf resource)) [], store)
  | .serialize object => serializeSet store object
  | .unserialize buf => unserializeSet zend store buf op.2

end PhpHll
