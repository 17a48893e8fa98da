/-
Adds through the PHP interfaces.

`phpHllAdd` turns a PHP value into byte strings and hands them to `pfAdd` or
`pfAddMany`.  It builds each string with `sdsnew`, which stops at the first NUL,
so what is added is the C string at the front of the value's bytes.  That is the
value itself only when the bytes have no NUL, and leaves the right registers
exactly when the registers and the rest of the batch make up for every cut.

The conversion of a value to its bytes is PHP's own.  The methods are modelled
from the fetched handle on; under `EH_THROW` a warning becomes an exception and
the method goes on.
-/

import Mathlib.Data.List.TakeWhile
import PhpHll.Operations

namespace PhpHll

open ByteMemory

/-! ### The interface -/

inductive Zval
  | isNull
  | isFalse
  | isTrue
  | isLong (value : Int)
  | isDouble (bits : BitVec 64)
  | isString (value : List Byte)
  | isArray (entries : List Zval)
  | isObject (handle : Nat)
  | isResource (handle : Nat)
  | isReference (handle : Nat)

/-- `try_convert_to_string`: the bytes of the string, `none` when the conversion
throws.  For PHP before 7.4 the extension has its own, which never fails. -/
abbrev TryConvert := Zval → Option (List Byte)

inductive ZendResult
  | success
  | failure
  deriving DecidableEq, Repr

structure PhpAdd where
  ret : ZendResult
  updated : Int
  warnings : List String
  hll : Robj

/-- The loop over the entries of an array: the strings, or the warnings given
where it leaves for `cleanup`. -/
def phpHllAddStrings (env : Env) (tryConvertToString : TryConvert) :
    List Zval → Except (List String) (List (List Byte))
  | [] => .ok []
  | current :: rest =>
      match current with
      | .isArray _ | .isResource _ | .isReference _ => .error ["Invalid type"]
      | _ =>
          match tryConvertToString current with
          | none => .error []
          | some duplicate =>
              match phpHllAddStrings env tryConvertToString rest with
              | .error warnings => .error warnings
              | .ok addStrings => .ok ((sdsnew env duplicate).bytes :: addStrings)

def phpHllAdded (hll : Robj) :
    Except Abort (Int × Option Robj) → Except Abort PhpAdd
  | .error abort => .error abort
  | .ok (updated, next) =>
      .ok
        { ret := .success
          updated := updated
          warnings := if updated = cErr then ["Could not add element to HyperLogLog"] else []
          hll := next.getD hll }

def phpHllAdd (env : Env) (tryConvertToString : TryConvert) (hll : Robj) (data : Zval)
    (updated : Int) : Except Abort PhpAdd :=
  match data with
  | .isArray entries =>
      match phpHllAddStrings env tryConvertToString entries with
      | .error warnings =>
          .ok { ret := .failure, updated := updated, warnings := warnings, hll := hll }
      | .ok addStrings => phpHllAdded hll (pfAddMany env (some hll) addStrings)
  | .isResource _ | .isReference _ =>
      .ok
        { ret := .failure
          updated := updated
          warnings := ["Argument could not be converted to string"]
          hll := hll }
  | data =>
      match tryConvertToString data with
      | none => .ok { ret := .failure, updated := updated, warnings := [], hll := hll }
      | some duplicate => phpHllAdded hll (pfAdd env (some hll) (sdsnew env duplicate).bytes)

/-- What `HyperLogLog::add` leaves: the object or `false` as its value, and the
value assigned to the second argument, if any. -/
structure MethodAdd where
  returnsThis : Bool
  updArg : Option Bool
  warnings : List String
  hll : Robj

def phpMethodAdd (env : Env) (tryConvertToString : TryConvert) (hll : Robj) (data : Zval) :
    Except Abort MethodAdd :=
  match phpHllAdd env tryConvertToString hll data 0 with
  | .error abort => .error abort
  | .ok added =>
      if added.ret ≠ .success then
        .ok { returnsThis := false, updArg := none, warnings := added.warnings, hll := added.hll }
      else
        .ok
          { returnsThis := true
            updArg := some (decide (added.updated ≠ 0))
            warnings := added.warnings
            hll := added.hll }

structure FunctionAdd where
  returned : Bool
  warnings : List String
  hll : Robj

def phpFunctionAdd (env : Env) (tryConvertToString : TryConvert) (hll : Robj) (data : Zval) :
    Except Abort FunctionAdd :=
  match phpHllAdd env tryConvertToString hll data 0 with
  | .error abort => .error abort
  | .ok added =>
      .ok
        { returned := decide (added.updated = 1)
          warnings := added.warnings
          hll := added.hll }

/-! ### The strings of a value -/

def Zval.takenBytes (tryConvertToString : TryConvert) : Zval → Option (List Byte)
  | .isArray _ | .isResource _ | .isReference _ => none
  | data => tryConvertToString data

def Zval.takenStrings (tryConvertToString : TryConvert) : Zval → Option (List (List Byte))
  | .isArray entries => entries.mapM (Zval.takenBytes tryConvertToString)
  | data => (data.takenBytes tryConvertToString).map fun value => [value]

/-- The front of a string up to the first NUL. -/
def cString (value : List Byte) : List Byte := value.takeWhile fun byte => byte ≠ 0

theorem cString_of_noNul (value : List Byte) (noNul : 0 ∉ value) : cString value = value := by
  rw [cString, List.takeWhile_eq_self_iff]
  intro byte member
  exact decide_eq_true fun zero => noNul (zero ▸ member)

section Conversion

variable (env : Env) (tryConvertToString : TryConvert)

private theorem phpHllAddStrings_some (current : Zval) (rest : List Zval) (duplicate : List Byte)
    (converted : current.takenBytes tryConvertToString = some duplicate) :
    phpHllAddStrings env tryConvertToString (current :: rest) =
      match phpHllAddStrings env tryConvertToString rest with
      | .error warnings => .error warnings
      | .ok addStrings => .ok (cString duplicate :: addStrings) := by
  cases current with
  | isArray entries => cases converted
  | isResource handle => cases converted
  | isReference handle => cases converted
  | _ =>
      have label := converted
      simp only [Zval.takenBytes] at label
      simp only [phpHllAddStrings, label, sdsnew_bytes]
      rfl

private theorem phpHllAddStrings_none (current : Zval) (rest : List Zval)
    (refused : current.takenBytes tryConvertToString = none) :
    ∃ warnings,
      phpHllAddStrings env tryConvertToString (current :: rest) = .error warnings := by
  cases current with
  | isArray entries => exact ⟨_, rfl⟩
  | isResource handle => exact ⟨_, rfl⟩
  | isReference handle => exact ⟨_, rfl⟩
  | _ =>
      have label := refused
      simp only [Zval.takenBytes] at label
      simp only [phpHllAddStrings, label]
      exact ⟨[], rfl⟩

/-- The loop stops at the first entry that does not convert, and otherwise
collects the C strings of all entries in order. -/
theorem phpHllAddStrings_eq (entries : List Zval) :
    match entries.mapM (Zval.takenBytes tryConvertToString) with
    | none => ∃ warnings, phpHllAddStrings env tryConvertToString entries = .error warnings
    | some strings =>
        phpHllAddStrings env tryConvertToString entries = .ok (strings.map cString) := by
  induction entries with
  | nil => rfl
  | cons current rest ih =>
      rw [List.mapM_cons]
      cases converted : current.takenBytes tryConvertToString with
      | none => exact phpHllAddStrings_none env tryConvertToString current rest converted
      | some duplicate =>
          have step := phpHllAddStrings_some env tryConvertToString current rest duplicate converted
          cases strings : rest.mapM (Zval.takenBytes tryConvertToString) with
          | none =>
              rw [strings] at ih
              obtain ⟨warnings, stopped⟩ := ih
              exact ⟨warnings, by rw [step, stopped]⟩
          | some later =>
              rw [strings] at ih
              simp only at ih
              change phpHllAddStrings env tryConvertToString (current :: rest) =
                .ok ((duplicate :: later).map cString)
              rw [step, ih]
              rfl

/-- A value that stands for elements adds their C strings; any other value is
refused and adds nothing. -/
theorem phpHllAdd_eq (hll : Robj) (data : Zval) (updated : Int) :
    match data.takenStrings tryConvertToString with
    | none => ∃ warnings, phpHllAdd env tryConvertToString hll data updated =
        .ok { ret := .failure, updated := updated, warnings := warnings, hll := hll }
    | some strings => phpHllAdd env tryConvertToString hll data updated =
        phpHllAdded hll (pfAddMany env (some hll) (strings.map cString)) := by
  cases data with
  | isArray entries =>
      have loop := phpHllAddStrings_eq env tryConvertToString entries
      rw [Zval.takenStrings]
      cases converted : entries.mapM (Zval.takenBytes tryConvertToString) with
      | none =>
          rw [converted] at loop
          obtain ⟨warnings, stopped⟩ := loop
          exact ⟨warnings, by rw [phpHllAdd, stopped]⟩
      | some strings =>
          rw [converted] at loop
          simp only at loop ⊢
          rw [phpHllAdd, loop]
  | isResource handle => exact ⟨_, rfl⟩
  | isReference handle => exact ⟨_, rfl⟩
  | _ =>
      simp only [Zval.takenStrings, Zval.takenBytes, phpHllAdd, sdsnew_bytes, pfAdd_eq_pfAddMany]
      split
      · rename_i refused
        rw [Option.map_eq_none_iff] at refused
        rw [refused]
        exact ⟨[], rfl⟩
      · rename_i strings converted
        obtain ⟨duplicate, bytes, single⟩ := Option.map_eq_some_iff.mp converted
        rw [bytes, ← single]
        rfl

end Conversion

end PhpHll
