/-
The functions and methods of the extension.

The state is what the extension shares with the engine: HLLs on the heap, the
pointers of the resources it registered, and the property `hll` of every object
of its class.  A resource number or an object number that is not in these lists
is a resource of another type or an object of another class.  Values are never
released, so no number is used twice.
-/

import PhpHll.NullHandles
import PhpHll.PhpAdd

namespace PhpHll

open ByteMemory

/-! ### The state and the replies -/

structure Php where
  heap : Heap
  next : Nat
  resources : List Hll
  objects : List (Option Nat)

/-- Before the first call; nothing is at any address. -/
def Php.start : Php :=
  { heap := fun _ => { ptr := { len := 0, free := 0, buf := fun _ => 0 } }
    next := 0
    resources := []
    objects := [] }

/-- `typeConfusion` stands for `Z_RES_P` of a value that is no resource. -/
inductive PhpFault
  | abort (abort : Abort)
  | typeConfusion
  | nullDereference

inductive PhpMessage
  | text (message : String)
  | parameters
  | wrongParamCount
  | invalidResource
  deriving DecidableEq

inductive PhpValue
  | null
  | bool (value : Bool)
  | long (value : Int)
  | string (value : List Byte)
  | info (encoding : String)
  | resource (number : Nat)
  | object (number : Nat)

/-- The value returned, the messages, whether they are thrown as exceptions, and
what is assigned to an argument passed by reference. -/
structure PhpReply (Value : Type) where
  value : Value
  messages : List PhpMessage
  thrown : Bool
  updArg : Option Bool

def answer {Value : Type} (value : Value) (messages : List PhpMessage) : PhpReply Value :=
  { value := value, messages := messages, thrown := false, updArg := none }

/-- The same under `EH_THROW`. -/
def answerThrowing {Value : Type} (value : Value) (messages : List PhpMessage) : PhpReply Value :=
  { value := value, messages := messages, thrown := true, updArg := none }

abbrev PhpOutcome := Except PhpFault (PhpReply PhpValue × Php)

/-- What the extension takes from the engine. -/
structure Zend where
  tryConvertToString : TryConvert
  phpVarSerialize : List Byte → List Byte
  phpVarUnserialize : List Byte → Option Zval

/-! ### Helpers -/

namespace Php

def put (php : Php) (handle : Nat) (hll : Robj) : Php :=
  { php with heap := Function.update php.heap handle hll }

def allocate (php : Php) (hll : Robj) : Nat × Php :=
  (php.next, { php.put php.next hll with next := php.next + 1 })

def zendRegisterResource (php : Php) (ptr : Hll) : Nat × Php :=
  (php.resources.length, { php with resources := php.resources ++ [ptr] })

def addPropertyResource (php : Php) (object resource : Nat) : Php :=
  { php with objects := php.objects.set object (some resource) }

def objectInitEx (php : Php) : Nat × Php :=
  (php.objects.length, { php with objects := php.objects ++ [none] })

def zendFetchResource (php : Php) (resource : Nat) : List PhpMessage × Hll :=
  match php.resources[resource]? with
  | some ptr => ([], ptr)
  | none => ([.invalidResource], none)

end Php

/-- What fetching a resource by its number says and gives. -/
abbrev Fetch := Nat → List PhpMessage × Hll

/-- Where the common start of a function leaves it: the parameters do not parse,
there is no HLL, or there is one. -/
inductive Fetched
  | refused
  | missing (messages : List PhpMessage)
  | found (handle : Nat)

def fetched : List PhpMessage × Hll → Fetched
  | (messages, none) => .missing messages
  | (_, some handle) => .found handle

/-- `HLL_ARG_ONLY`, up to what it returns. -/
def hllArgOnly (fetch : Fetch) : Zval → Fetched
  | .isResource resource => fetched (fetch resource)
  | _ => .refused

def hllObjArgOnly (objects : List (Option Nat)) (fetch : Fetch) (object : Nat) :
    Except PhpFault Fetched :=
  match objects[object]? with
  | none => .ok .refused
  | some none => .error .typeConfusion
  | some (some resource) => .ok (fetched (fetch resource))

def phpHllFromZval (objects : List (Option Nat)) (fetch : Fetch) :
    Zval → Except PhpFault (List PhpMessage × Hll)
  | .isResource resource => .ok (fetch resource)
  | .isObject object =>
      match objects[object]? with
      | none => .ok ([.text "Supplied argument is not a valid HyperLogLog class"], none)
      | some none => .error .typeConfusion
      | some (some resource) => .ok (fetch resource)
  | _ =>
      .ok ([.text "Supplied argument is not a valid HyperLogLog resource or HyperLogLog class"],
        none)

/-- The loop that `php_hll_array_to_list` and `php_hll_args_to_list` share. -/
def phpHllList (objects : List (Option Nat)) (fetch : Fetch) :
    List Zval → Except PhpFault (List PhpMessage × Option (List Nat))
  | [] => .ok ([], some [])
  | current :: rest =>
      match phpHllFromZval objects fetch current with
      | .error fault => .error fault
      | .ok (messages, none) => .ok (messages, none)
      | .ok (_, some handle) =>
          match phpHllList objects fetch rest with
          | .error fault => .error fault
          | .ok (messages, handles) => .ok (messages, handles.map fun handles => handle :: handles)

def phpHllArrayToList (objects : List (Option Nat)) (fetch : Fetch) (entries : List Zval) :
    Except PhpFault (List PhpMessage × Option (List Nat)) :=
  phpHllList objects fetch entries

def phpHllArgsToList (objects : List (Option Nat)) (fetch : Fetch) (args : List Zval) :
    Except PhpFault (List PhpMessage × Option (List Nat)) :=
  phpHllList objects fetch args

/-- The sources of a merge: those of one array, or all arguments. -/
def mergeSources (objects : List (Option Nat)) (fetch : Fetch) :
    List Zval → Except PhpFault (List PhpMessage × Option (List Nat))
  | [.isArray entries] => phpHllArrayToList objects fetch entries
  | args => phpHllArgsToList objects fetch args

def phpHllCreate (env : Env) (allowSparse : Bool) :
    Except PhpFault (List PhpMessage × Option Robj) :=
  match hllCreate env with
  | .error abort => .error (.abort abort)
  | .ok hll =>
      if allowSparse then .ok ([], some hll)
      else
        let (status, dense) := hllSparseToDense env hll
        if status ≠ cOk then .ok ([.text "HLL could not be converted to dense"], none)
        else .ok ([], some dense)

def phpHllLoad (env : Env) (input : List Byte) : List PhpMessage × Option Robj :=
  let (res, hll) := hllLoad env (sdsnewlen env input)
  if hll.isNone ∨ res ≠ cOk then ([.text "Supplied HLL dump was invalid"], none) else ([], hll)

def phpHllInfo (hll : Robj) : String :=
  if encoding hll.ptr.buf = hllDense then "dense"
  else if encoding hll.ptr.buf = hllSparse then "sparse"
  else "unknown"

def returnResource (php : Php) (hll : Robj) : PhpReply PhpValue × Php :=
  let (handle, php) := php.allocate hll
  let (resource, php) := php.zendRegisterResource (some handle)
  (answer (.resource resource) [], php)

/-! ### What functions and methods share -/

def countOne (env : Env) (php : Php) (handle : Nat) : PhpOutcome :=
  match pfCount env (some (php.heap handle)) with
  | .error abort => .error (.abort abort)
  | .ok (exit, hll) =>
      .ok (answer (.long exit.returned.toInt) [], php.put handle (hll.getD (php.heap handle)))

def promote (env : Env) (php : Php) (handle : Nat) (value : PhpValue) : PhpOutcome :=
  let (status, hll) := hllSparseToDense env (php.heap handle)
  .ok
    (answer value (if status ≠ cOk then [.text "HLL could not be promoted"] else []),
      php.put handle hll)

def info (php : Php) (handle : Nat) : PhpOutcome :=
  .ok (answer (.info (phpHllInfo (php.heap handle))) [], php)

/-- `sdslen(NULL)` reads in front of address 0. -/
def dump (env : Env) (php : Php) (ptr : Hll) (value : List Byte → PhpValue) : PhpOutcome :=
  match hllRaw env (ptr.map php.heap) with
  | none => .error .nullDereference
  | some raw => .ok (answer (value raw.bytes) [], php)

/-! ### Functions -/

def phpFunctionCreate (env : Env) (php : Php) (allowSparse : Bool) : PhpOutcome :=
  match phpHllCreate env allowSparse with
  | .error fault => .error fault
  | .ok (messages, none) => .ok (answer (.bool false) messages, php)
  | .ok (_, some hll) => .ok (returnResource php hll)

def phpFunctionHllAdd (env : Env) (zend : Zend) (php : Php) (hll data : Zval) : PhpOutcome :=
  match hllArgOnly php.zendFetchResource hll with
  | .refused => .ok (answer .null [.parameters], php)
  | .missing messages => .ok (answer (.bool false) messages, php)
  | .found handle =>
      match phpFunctionAdd env zend.tryConvertToString (php.heap handle) data with
      | .error abort => .error (.abort abort)
      | .ok added =>
          .ok (answer (.bool added.returned) (added.warnings.map .text), php.put handle added.hll)

/-- The target is created before the arguments are looked at. -/
def phpFunctionMerge (env : Env) (php : Php) (args : List Zval) : PhpOutcome :=
  if args = [] then .ok (answer .null [.parameters], php)
  else
    match hllCreate env with
    | .error abort => .error (.abort abort)
    | .ok hll =>
        let (target, php) := php.allocate hll
        match mergeSources php.objects php.zendFetchResource args with
        | .error fault => .error fault
        | .ok (messages, none) => .ok (answer (.bool false) messages, php)
        | .ok (_, some sources) =>
            if sources.length < 2 then .ok (answer (.bool false) [.wrongParamCount], php)
            else
              let (status, heap) := pfMerge env php.heap (some target) (sources.map some)
              if status ≠ cOk then
                .ok (answer (.bool false) [.text "Expected array or resource"],
                  { php with heap := heap })
              else
                let (resource, php) :=
                  { php with heap := heap : Php }.zendRegisterResource (some target)
                .ok (answer (.resource resource) [], php)

def phpFunctionCount (env : Env) (php : Php) (args : List Zval) : PhpOutcome :=
  if args = [] then .ok (answer .null [.parameters], php)
  else
    match phpHllArgsToList php.objects php.zendFetchResource args with
    | .error fault => .error fault
    | .ok (messages, none) => .ok (answer (.bool false) messages, php)
    | .ok (_, some [handle]) => countOne env php handle
    | .ok (_, some handles) =>
        match pfCountMerged env php.heap (handles.map some) with
        | .error abort => .error (.abort abort)
        | .ok (exit, heap) =>
            .ok (answer (.long exit.returned.toInt) [], { php with heap := heap })

/-- Every way out of `hll_promote` returns null. -/
def phpFunctionPromote (env : Env) (php : Php) (hll : Zval) : PhpOutcome :=
  match hllArgOnly php.zendFetchResource hll with
  | .refused => .ok (answer .null [.parameters], php)
  | .missing messages => .ok (answer .null messages, php)
  | .found handle => promote env php handle .null

def phpFunctionInfo (php : Php) (hll : Zval) : PhpOutcome :=
  match hllArgOnly php.zendFetchResource hll with
  | .refused => .ok (answer .null [.parameters], php)
  | .missing messages => .ok (answer (.bool false) messages, php)
  | .found handle => info php handle

def phpFunctionDump (env : Env) (php : Php) (hll : Zval) : PhpOutcome :=
  match hllArgOnly php.zendFetchResource hll with
  | .refused => .ok (answer .null [.parameters], php)
  | .missing messages => .ok (answer (.bool false) messages, php)
  | .found handle => dump env php (some handle) .string

def phpFunctionLoad (env : Env) (php : Php) (input : List Byte) : PhpOutcome :=
  match phpHllLoad env input with
  | (messages, none) => .ok (answer (.bool false) messages, php)
  | (_, some hll) => .ok (returnResource php hll)

/-! ### The constructor -/

/-- The pointer that `__construct` registers, `none` for `goto fail`.  A number,
an object or a resource falls through all branches and leaves NULL. -/
def constructed (env : Env) (php : Php) :
    Option Zval → Except PhpFault (List PhpMessage × Option Hll × Php)
  | none | some .isNull | some .isFalse =>
      match phpHllCreate env false with
      | .error fault => .error fault
      | .ok (messages, none) => .ok (messages, none, php)
      | .ok (_, some hll) => .ok ([], some (some (php.allocate hll).1), (php.allocate hll).2)
  | some .isTrue =>
      match phpHllCreate env true with
      | .error fault => .error fault
      | .ok (messages, none) => .ok (messages, none, php)
      | .ok (_, some hll) => .ok ([], some (some (php.allocate hll).1), (php.allocate hll).2)
  | some (.isString input) =>
      match phpHllLoad env input with
      | (messages, none) => .ok (messages, none, php)
      | (_, some hll) => .ok ([], some (some (php.allocate hll).1), (php.allocate hll).2)
  | some (.isArray entries) =>
      match phpHllArrayToList php.objects php.zendFetchResource entries with
      | .error fault => .error fault
      | .ok (messages, none) => .ok (messages, none, php)
      | .ok (_, some sources) =>
          match phpHllCreate env false with
          | .error fault => .error fault
          | .ok (messages, none) => .ok (messages, none, php)
          | .ok (_, some hll) =>
              let (target, php) := php.allocate hll
              let (status, heap) := pfMerge env php.heap (some target) (sources.map some)
              if status ≠ cOk then
                .ok ([.text "Expected array or resource"], none, { php with heap := heap })
              else .ok ([], some (some target), { php with heap := heap })
  | some _ => .ok ([], some none, php)

/-- The pointer gets a resource, and the object that resource. -/
def Php.attachPointer (php : Php) (object : Nat) (ptr : Hll) : Php :=
  let (resource, php) := php.zendRegisterResource ptr
  php.addPropertyResource object resource

def phpMethodConstruct (env : Env) (php : Php) (object : Nat) (input : Option Zval) : PhpOutcome :=
  match php.objects[object]? with
  | none => .ok (answerThrowing (.bool false) [.parameters], php)
  | some _ =>
      match constructed env php input with
      | .error fault => .error fault
      | .ok (messages, none, php) => .ok (answerThrowing (.bool false) messages, php)
      | .ok (_, some ptr, php) => .ok (answerThrowing .null [], php.attachPointer object ptr)

/-- `new HyperLogLog`: an exception of the constructor discards the object, but
a failure without a message keeps it.  The arguments cannot name the object. -/
def phpNew (env : Env) (php : Php) (input : Option Zval) : PhpOutcome :=
  match constructed env php input with
  | .error fault => .error fault
  | .ok (messages, none, php) =>
      if messages ≠ [] then .ok (answerThrowing .null messages, php)
      else .ok (answerThrowing (.object php.objectInitEx.1) [], php.objectInitEx.2)
  | .ok (_, some ptr, php) =>
      let (object, php) := php.objectInitEx
      .ok (answerThrowing (.object object) [], php.attachPointer object ptr)

/-! ### Methods -/

def phpMethodHllAdd (env : Env) (zend : Zend) (php : Php) (object : Nat) (data : Zval) :
    PhpOutcome :=
  match hllObjArgOnly php.objects php.zendFetchResource object with
  | .error fault => .error fault
  | .ok .refused => .ok (answerThrowing (.bool false) [.parameters], php)
  | .ok (.missing messages) => .ok (answerThrowing (.bool false) messages, php)
  | .ok (.found handle) =>
      match phpMethodAdd env zend.tryConvertToString (php.heap handle) data with
      | .error abort => .error (.abort abort)
      | .ok added =>
          .ok
            ({ value := if added.returnsThis then .object object else .bool false
               messages := added.warnings.map .text
               thrown := true
               updArg := added.updArg },
              php.put handle added.hll)

/-- The object itself is merged last, so its registers are kept. -/
def phpMethodMerge (env : Env) (php : Php) (object : Nat) (args : List Zval) : PhpOutcome :=
  if args = [] then .ok (answer .null [.parameters], php)
  else
    match hllObjArgOnly php.objects php.zendFetchResource object with
    | .error fault => .error fault
    | .ok .refused => .ok (answer .null [.parameters], php)
    | .ok (.missing messages) => .ok (answer (.bool false) messages, php)
    | .ok (.found target) =>
        match mergeSources php.objects php.zendFetchResource args with
        | .error fault => .error fault
        | .ok (messages, none) => .ok (answer (.bool false) messages, php)
        | .ok (_, some sources) =>
            if sources.length + 1 < 2 then .ok (answer (.bool false) [.wrongParamCount], php)
            else
              let (status, heap) :=
                pfMerge env php.heap (some target) (sources.map some ++ [some target])
              if status ≠ cOk then
                .ok (answer (.bool false) [.text "Expected array or resource"],
                  { php with heap := heap })
              else .ok (answer (.object object) [], { php with heap := heap })

def phpMethod (php : Php) (object : Nat) (body : Nat → PhpOutcome) : PhpOutcome :=
  match hllObjArgOnly php.objects php.zendFetchResource object with
  | .error fault => .error fault
  | .ok .refused => .ok (answer (.bool false) [.parameters], php)
  | .ok (.missing messages) => .ok (answer (.bool false) messages, php)
  | .ok (.found handle) => body handle

def phpMethodCount (env : Env) (php : Php) (object : Nat) : PhpOutcome :=
  phpMethod php object (countOne env php)

def phpMethodPromote (env : Env) (php : Php) (object : Nat) : PhpOutcome :=
  phpMethod php object fun handle => promote env php handle (.object object)

def phpMethodInfo (php : Php) (object : Nat) : PhpOutcome := phpMethod php object (info php)

def phpMethodDump (env : Env) (php : Php) (object : Nat) : PhpOutcome :=
  phpMethod php object fun handle => dump env php (some handle) .string

/-! ### Serialization -/

/-- The class handler of `serialize`; an object of another class does not get
here.  A resource without an HLL is not checked for. -/
def phpHllSerialize (env : Env) (zend : Zend) (php : Php) (object : Nat) : PhpOutcome :=
  match php.objects[object]? with
  | none => .ok (answer .null [], php)
  | some none => .error .typeConfusion
  | some (some resource) =>
      dump env php (php.zendFetchResource resource).2 fun raw => .string (zend.phpVarSerialize raw)

def phpHllUnserialize (env : Env) (zend : Zend) (php : Php) (buf : List Byte) : PhpOutcome :=
  match zend.phpVarUnserialize buf with
  | some (.isString value) =>
      let (res, hll) := hllLoad env (sdsnewlen env value)
      if res = cErr then
        .ok
          (answerThrowing (.bool false) [.text "Could not create HLL from unserialized string"],
            php)
      else
        let (object, php) := php.objectInitEx
        let (ptr, php) : Hll × Php :=
          match hll with
          | none => (none, php)
          | some hll => (some (php.allocate hll).1, (php.allocate hll).2)
        .ok (answer (.object object) [], php.attachPointer object ptr)
  | _ => .ok (answerThrowing (.bool false) [.text "Could not unserialize HLL"], php)

/-! ### Scripts -/

/-- `subclass` is an object whose own constructor does not call this one. -/
inductive PhpCall
  | hllCreate (allowSparse : Bool)
  | hllAdd (hll data : Zval)
  | hllMerge (args : List Zval)
  | hllCount (args : List Zval)
  | hllPromote (hll : Zval)
  | hllInfo (hll : Zval)
  | hllDump (hll : Zval)
  | hllLoad (input : List Byte)
  | new (input : Option Zval)
  | subclass
  | construct (object : Nat) (input : Option Zval)
  | add (object : Nat) (data : Zval)
  | merge (object : Nat) (args : List Zval)
  | count (object : Nat)
  | promote (object : Nat)
  | info (object : Nat)
  | dump (object : Nat)
  | serialize (object : Nat)
  | unserialize (buf : List Byte)

def PhpCall.step (env : Env) (zend : Zend) (call : PhpCall) (php : Php) : PhpOutcome :=
  match call with
  | .hllCreate allowSparse => phpFunctionCreate env php allowSparse
  | .hllAdd hll data => phpFunctionHllAdd env zend php hll data
  | .hllMerge args => phpFunctionMerge env php args
  | .hllCount args => phpFunctionCount env php args
  | .hllPromote hll => phpFunctionPromote env php hll
  | .hllInfo hll => phpFunctionInfo php hll
  | .hllDump hll => phpFunctionDump env php hll
  | .hllLoad input => phpFunctionLoad env php input
  | .new input => phpNew env php input
  | .subclass => .ok (answer (.object php.objectInitEx.1) [], php.objectInitEx.2)
  | .construct object input => phpMethodConstruct env php object input
  | .add object data => phpMethodHllAdd env zend php object data
  | .merge object args => phpMethodMerge env php object args
  | .count object => phpMethodCount env php object
  | .promote object => phpMethodPromote env php object
  | .info object => phpMethodInfo php object
  | .dump object => phpMethodDump env php object
  | .serialize object => phpHllSerialize env zend php object
  | .unserialize buf => phpHllUnserialize env zend php buf

end PhpHll
