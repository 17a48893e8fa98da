/-
Adds of binary strings through the PHP interfaces.

What is added for a value is the front of its bytes up to the first NUL, and
nothing if the value is or holds a reference.  The core reads nothing of an
element but the pattern of its hash, so a cut goes unnoticed where the front has
the pattern of the whole string, or where both are covered when their turn
comes.
-/

import PhpHll.PhpAdd

namespace PhpHll

open ByteMemory

/-! ### An add reads the pattern of its element -/

section Pattern

variable (env : Env) (o : Robj) (s : Sds) {first second : List Byte}
  (same : hllPatLen first = hllPatLen second)

include same

theorem hllDenseAdd_pattern (memory : Memory) :
    hllDenseAdd memory hllHdrSize first = hllDenseAdd memory hllHdrSize second := by
  rw [hllDenseAdd, hllDenseAdd, same]

omit same in
private theorem promoteSteps_pattern (convert : Env → Robj → Int × Robj)
    (denseAdd : Memory → Nat → List Byte → Int × Memory)
    (adds : ∀ memory, denseAdd memory hllHdrSize first = denseAdd memory hllHdrSize second) :
    promoteSteps convert denseAdd env o first = promoteSteps convert denseAdd env o second := by
  simp only [promoteSteps, adds]

theorem hllSparseAddPromote_pattern :
    hllSparseAddPromote env o first = hllSparseAddPromote env o second := by
  rw [hllSparseAddPromote_steps, hllSparseAddPromote_steps]
  exact promoteSteps_pattern env o _ _ (hllDenseAdd_pattern same)

theorem hllSparseAddAt_pattern (pattern : Pattern) (scan : SparseScan) :
    hllSparseAddAt env s first pattern scan = hllSparseAddAt env s second pattern scan := by
  rw [hllSparseAddAt, hllSparseAddAt]
  simp only [hllSparseAddSubstitute, hllSparseAddPromote_pattern env _ same]

theorem hllSparseAdd_pattern : hllSparseAdd env o first = hllSparseAdd env o second := by
  rw [hllSparseAdd, hllSparseAdd, same]
  simp only [hllSparseAddPromote_pattern env o same, hllSparseAddAt_pattern env _ same]

theorem hllAdd_pattern : hllAdd env o first = hllAdd env o second := by
  rw [hllAdd, hllAdd, hllDenseAdd_pattern same, hllSparseAdd_pattern env o same]

end Pattern

def untouched (o : Robj) : Robj :=
  if encoding o.ptr.buf = hllDense then o else { ptr := sdsMakeRoomFor o.ptr 3 }

theorem hllAdd_covered (env : Env) {o : Robj} (formed : WellFormed o) (ele : List Byte)
    (covered : (hllPatLen ele).count ≤ registers o (registerOf ele)) :
    hllAdd env o ele = .ok (0, untouched o) := by
  cases formed.body with
  | inl dense =>
      have added := hllDenseAdd_object o ele dense.1
      rw [if_neg (Nat.not_lt_of_le covered)] at added
      rw [hllAdd, if_pos dense.1, added, untouched, if_pos dense.1]
  | inr sparse =>
      rw [hllAdd, if_neg sparse.notDense, if_pos sparse.1, untouched, if_neg sparse.notDense]
      rcases hllSparseAdd_spec env o ele sparse with ⟨_, kept⟩ | ⟨raises, _⟩
      · exact kept
      · omega

/-! ### When a cut goes unnoticed -/

/-- An element changes nothing beside a batch: the registers, or an element of
the batch, have its register at its count already. -/
def Covered (vector : Fin 16384 → Nat) (eles : List (List Byte)) (ele : List Byte) : Prop :=
  (hllPatLen ele).count ≤ vector (registerOf ele) ∨
    ∃ other ∈ eles, registerOf other = registerOf ele ∧
      (hllPatLen ele).count ≤ (hllPatLen other).count

/-- The fronts of the strings bring nothing that the strings do not, and lose
nothing. -/
def CutsCovered (vector : Fin 16384 → Nat) (strings : List (List Byte)) : Prop :=
  (∀ value ∈ strings, Covered vector strings (cString value)) ∧
    ∀ value ∈ strings, Covered vector (strings.map cString) value

theorem cutsCovered_iff (vector : Fin 16384 → Nat) (strings : List (List Byte)) :
    (strings.map cString).foldl patternObserver.insert vector =
        strings.foldl patternObserver.insert vector ↔ CutsCovered vector strings := by
  rw [patternObserver.foldl_insert_eq_iff, List.forall_mem_map]
  simp only [patternObserver.le_foldl_insert_apply_iff]
  rfl

private theorem pattern_eq_iff (first second : List Byte) :
    hllPatLen first = hllPatLen second ↔
      registerOf first = registerOf second ∧ (hllPatLen first).count = (hllPatLen second).count := by
  constructor
  · intro same
    exact ⟨Fin.ext (congrArg Pattern.index same), congrArg Pattern.count same⟩
  · rintro ⟨register, count⟩
    have index := congrArg Fin.val register
    rw [registerOf_val, registerOf_val] at index
    calc
      hllPatLen first = ⟨(hllPatLen first).count, (hllPatLen first).index⟩ := rfl
      _ = ⟨(hllPatLen second).count, (hllPatLen second).index⟩ := by rw [count, index]

theorem cutsCovered_single (vector : Fin 16384 → Nat) (value : List Byte) :
    CutsCovered vector [value] ↔
      hllPatLen (cString value) = hllPatLen value ∨
        (hllPatLen (cString value)).count ≤ vector (registerOf (cString value)) ∧
          (hllPatLen value).count ≤ vector (registerOf value) := by
  rw [pattern_eq_iff]
  simp only [CutsCovered, Covered, List.map_cons, List.map_nil, List.mem_singleton,
    forall_eq, exists_eq_left]
  constructor
  · rintro ⟨front | ⟨sameFront, below⟩, whole | ⟨sameWhole, above⟩⟩
    · exact Or.inr ⟨front, whole⟩
    · rw [sameWhole] at front ⊢
      exact Or.inr ⟨front, Nat.le_trans above front⟩
    · rw [sameFront] at whole
      rw [sameFront]
      exact Or.inr ⟨Nat.le_trans below whole, whole⟩
    · exact Or.inl ⟨sameWhole, Nat.le_antisymm below above⟩
  · rintro (⟨same, count⟩ | ⟨front, whole⟩)
    · exact ⟨Or.inr ⟨same.symm, Nat.le_of_eq count⟩, Or.inr ⟨same, Nat.le_of_eq count.symm⟩⟩
    · exact ⟨Or.inl front, Or.inl whole⟩

/-- No string of a batch shows that it is cut, at its turn: the strings before it
have been added whole. -/
def CutsUnnoticed (vector : Fin 16384 → Nat) : List (List Byte) → Prop
  | [] => True
  | value :: rest =>
      CutsCovered vector [value] ∧ CutsUnnoticed (patternObserver.insert vector value) rest

theorem hllAdd_cut (env : Env) {o : Robj} (formed : WellFormed o) (value : List Byte)
    (covered : CutsCovered (registers o) [value]) :
    hllAdd env o (cString value) = hllAdd env o value := by
  rcases (cutsCovered_single _ value).mp covered with same | ⟨front, whole⟩
  · exact hllAdd_pattern env o same
  · rw [hllAdd_covered env formed _ front, hllAdd_covered env formed _ whole]

private theorem pfAddManyLoop_cuts (env : Env) (strings : List (List Byte)) (updated : Nat)
    {o : Robj} (formed : WellFormed o) (unnoticed : CutsUnnoticed (registers o) strings) :
    pfAddManyLoop env (strings.map cString) updated o = pfAddManyLoop env strings updated o := by
  induction strings generalizing updated o with
  | nil => rfl
  | cons value rest ih =>
      obtain ⟨here, later⟩ := unnoticed
      rw [List.map_cons, pfAddManyLoop, pfAddManyLoop, hllAdd_cut env formed value here]
      rcases hllAdd_formed env formed value with
        ⟨enough, next, added, same⟩ | ⟨_raises, next, added, formedNext, _valid, vector, _kept⟩
      · rw [(insert_eq_self (registers o) value).mpr enough,
          ← formed.registers_sameBytes same] at later
        simp only [added, ih _ (formed.of_sameBytes same) later]
      · rw [← vector] at later
        simp only [added, ih _ formedNext later]

theorem pfAddMany_cuts (env : Env) {o : Robj} (formed : WellFormed o)
    (strings : List (List Byte)) (unnoticed : CutsUnnoticed (registers o) strings) :
    pfAddMany env (some o) (strings.map cString) = pfAddMany env (some o) strings := by
  rw [pfAddMany, pfAddMany, pfAddManyLoop_cuts env strings 0 formed unnoticed]

/-! ### Batches on dense registers -/

private structure SameFrame (o next : Robj) : Prop where
  len : next.ptr.len = o.ptr.len
  free : next.ptr.free = o.ptr.free
  around : ∀ offset, offset < 16 ∨ 12304 ≤ offset → next.ptr.buf offset = o.ptr.buf offset

private theorem SameFrame.dense {o next : Robj} (frame : SameFrame o next)
    (dense : encoding o.ptr.buf = hllDense) : encoding next.ptr.buf = hllDense := by
  rw [← dense, encoding, encoding, frame.around 4 (Or.inl (by decide))]

private theorem SameFrame.eq {o first second : Robj} (dense : encoding o.ptr.buf = hllDense)
    (left : SameFrame o first) (right : SameFrame o second)
    (same : registers first = registers second) : first = second := by
  have buf : first.ptr.buf = second.ptr.buf := by
    apply memory_eq_of_registers _ _ hllHdrSize
    · intro regnum valid
      have equal := congrFun same ⟨regnum, valid⟩
      rwa [registers_of_dense first (left.dense dense),
        registers_of_dense second (right.dense dense)] at equal
    · intro offset outside
      rw [hllHdrSize] at outside
      rw [left.around offset outside, right.around offset outside]
  obtain ⟨⟨len, free, memory⟩⟩ := first
  obtain ⟨⟨_, _, _⟩⟩ := second
  cases buf
  cases left.len.trans right.len.symm
  cases left.free.trans right.free.symm
  rfl

private theorem pfAddManyLoop_dense (env : Env) (eles : List (List Byte)) (updated : Nat)
    {o : Robj} (dense : encoding o.ptr.buf = hllDense) :
    ∃ last, SameFrame o last ∧
      registers last = eles.foldl patternObserver.insert (registers o) ∧
      pfAddManyLoop env eles updated o =
        .ok (if 0 < updated ∨ eles.foldl patternObserver.insert (registers o) ≠ registers o
          then (1, invalidate last) else (0, last)) := by
  have notErr : ¬(0 : Int) = -1 := by decide
  have notErr' : ¬(1 : Int) = -1 := by decide
  have notOne : ¬(0 : Int) = 1 := by decide
  induction eles generalizing updated o with
  | nil =>
      refine ⟨o, ⟨rfl, rfl, fun _ _ => rfl⟩, rfl, ?_⟩
      rw [pfAddManyLoop]
      simp only [List.foldl_nil, ne_eq, not_true, or_false]
      split <;> rfl
  | cons ele eles ih =>
      have added := hllDenseAdd_object o ele dense
      by_cases raises : registers o (registerOf ele) < (hllPatLen ele).count
      · have changed : (ele :: eles).foldl patternObserver.insert (registers o) ≠ registers o := by
          intro same
          rw [patternObserver.foldl_insert_eq_self_iff] at same
          exact Nat.not_le_of_lt raises (same ele (List.mem_cons_self ..))
        obtain ⟨last, frame, vector, ran⟩ := ih (updated + 1)
          (o := raiseDense o ele) (by rw [raiseDense_encoding, dense])
        rw [registers_raiseDense o ele dense raises] at vector
        rw [if_pos raises] at added
        refine ⟨last, ⟨frame.len, frame.free, fun offset outside => ?_⟩, vector, ?_⟩
        · rw [frame.around offset outside, raiseDense_outside o ele offset outside]
        · rw [if_pos (Or.inl (Nat.succ_pos updated))] at ran
          rw [if_pos (Or.inr changed), ← ran, pfAddManyLoop, hllAdd, if_pos dense, added]
          simp only [if_neg notErr', if_true]
          rfl
      · have covered := (insert_eq_self (registers o) ele).mpr (Nat.le_of_not_lt raises)
        obtain ⟨last, frame, vector, ran⟩ := ih updated dense
        rw [if_neg raises] at added
        rw [List.foldl_cons, covered]
        refine ⟨last, frame, vector, ?_⟩
        rw [← ran, pfAddManyLoop, hllAdd, if_pos dense, added]
        simp only [if_neg notErr, if_neg notOne]

/-- On dense registers the order and the repetition of the elements are lost. -/
theorem pfAddMany_dense (env : Env) {o : Robj} (dense : encoding o.ptr.buf = hllDense)
    {first second : List (List Byte)}
    (same : first.foldl patternObserver.insert (registers o) =
      second.foldl patternObserver.insert (registers o)) :
    pfAddMany env (some o) first = pfAddMany env (some o) second := by
  obtain ⟨left, frameLeft, vectorLeft, ranLeft⟩ := pfAddManyLoop_dense env first 0 dense
  obtain ⟨right, frameRight, vectorRight, ranRight⟩ := pfAddManyLoop_dense env second 0 dense
  have object := frameLeft.eq dense frameRight (by rw [vectorLeft, vectorRight, same])
  rw [pfAddMany, pfAddMany, ranLeft, ranRight, same, object]

/-! ### The strings that a value stands for -/

/-- The bytes of a value that stands for one element.  A reference stands for the
value behind it, and converts where that does. -/
def Zval.bytes (tryConvertToString : TryConvert) : Zval → Option (List Byte)
  | .isArray _ | .isResource _ => none
  | data => tryConvertToString data

def Zval.strings (tryConvertToString : TryConvert) : Zval → Option (List (List Byte))
  | .isArray entries => entries.mapM (Zval.bytes tryConvertToString)
  | data => (data.bytes tryConvertToString).map fun value => [value]

def Zval.IsReference : Zval → Prop
  | .isReference _ => True
  | _ => False

def Zval.HoldsReference : Zval → Prop
  | .isArray entries => ∃ entry ∈ entries, entry.IsReference
  | data => data.IsReference

/-- What an add of a value is to do: every byte of every string counts, and a
value that does not convert adds nothing. -/
def addWhole (env : Env) (tryConvertToString : TryConvert) (hll : Robj) :
    Zval → Except Abort (Int × Option Robj)
  | .isArray entries =>
      match entries.mapM (Zval.bytes tryConvertToString) with
      | none => .ok (0, some hll)
      | some strings => pfAddMany env (some hll) strings
  | data =>
      match data.bytes tryConvertToString with
      | none => .ok (0, some hll)
      | some value => pfAdd env (some hll) value

def PhpLeaves (env : Env) (tryConvertToString : TryConvert) (hll : Robj) (data : Zval)
    (after : Robj) : Prop :=
  (phpMethodAdd env tryConvertToString hll data).map MethodAdd.hll = .ok after ∧
    (phpFunctionAdd env tryConvertToString hll data).map FunctionAdd.hll = .ok after

/-- The interfaces leave the bytes that an add of the whole strings leaves. -/
def BinarySafe (env : Env) (tryConvertToString : TryConvert) (hll : Robj) (data : Zval) : Prop :=
  ∃ after retval whole,
    PhpLeaves env tryConvertToString hll data after ∧
    addWhole env tryConvertToString hll data = .ok (retval, some whole) ∧
    SameBytes whole after

/-- Of a value without references the cuts decide; one with a reference adds
nothing, so the registers have to cover its strings. -/
def Zval.AddsAlike (cuts : (Fin 16384 → Nat) → List (List Byte) → Prop)
    (tryConvertToString : TryConvert) (vector : Fin 16384 → Nat) (data : Zval) : Prop :=
  ∀ strings, data.strings tryConvertToString = some strings →
    (¬data.HoldsReference → cuts vector strings) ∧
      (data.HoldsReference →
        ∀ value ∈ strings, (hllPatLen value).count ≤ vector (registerOf value))

section Conversion

variable (env : Env) (tryConvertToString : TryConvert)

private theorem takenBytes_cases (data : Zval) :
    data.bytes tryConvertToString = none ∧ data.takenBytes tryConvertToString = none ∨
      ∃ value, data.bytes tryConvertToString = some value ∧
        (data.IsReference ∧ data.takenBytes tryConvertToString = none ∨
          ¬data.IsReference ∧ data.takenBytes tryConvertToString = some value) := by
  cases converted : data.bytes tryConvertToString with
  | none =>
      left
      cases data with
      | isReference handle => exact ⟨rfl, rfl⟩
      | _ => exact ⟨rfl, converted⟩
  | some value =>
      right
      cases data with
      | isArray entries => cases converted
      | isResource handle => cases converted
      | isReference handle => exact ⟨value, rfl, Or.inl ⟨trivial, rfl⟩⟩
      | _ => exact ⟨value, rfl, Or.inr ⟨id, converted⟩⟩

private theorem takenEntries_cases (entries : List Zval) :
    entries.mapM (Zval.bytes tryConvertToString) = none ∧
        entries.mapM (Zval.takenBytes tryConvertToString) = none ∨
      ∃ strings, entries.mapM (Zval.bytes tryConvertToString) = some strings ∧
        ((∃ entry ∈ entries, entry.IsReference) ∧
            entries.mapM (Zval.takenBytes tryConvertToString) = none ∨
          (¬∃ entry ∈ entries, entry.IsReference) ∧
            entries.mapM (Zval.takenBytes tryConvertToString) = some strings) := by
  induction entries with
  | nil => exact Or.inr ⟨[], rfl, Or.inr ⟨by simp, rfl⟩⟩
  | cons current rest ih =>
      simp only [List.mapM_cons, List.exists_mem_cons_iff]
      rcases takenBytes_cases tryConvertToString current with
        ⟨whole, taken⟩ | ⟨value, whole, ⟨reference, taken⟩ | ⟨plain, taken⟩⟩
      · rw [whole, taken]
        exact Or.inl ⟨rfl, rfl⟩
      · rw [whole, taken]
        rcases ih with ⟨wholeRest, _⟩ | ⟨strings, wholeRest, _⟩
        · rw [wholeRest]
          exact Or.inl ⟨rfl, rfl⟩
        · rw [wholeRest]
          exact Or.inr ⟨value :: strings, rfl, Or.inl ⟨Or.inl reference, rfl⟩⟩
      · rw [whole, taken]
        rcases ih with ⟨wholeRest, takenRest⟩ |
          ⟨strings, wholeRest, ⟨reference, takenRest⟩ | ⟨plainRest, takenRest⟩⟩
        · rw [wholeRest, takenRest]
          exact Or.inl ⟨rfl, rfl⟩
        · rw [wholeRest, takenRest]
          exact Or.inr ⟨value :: strings, rfl, Or.inl ⟨Or.inr reference, rfl⟩⟩
        · rw [wholeRest, takenRest]
          exact Or.inr ⟨value :: strings, rfl, Or.inr ⟨fun either => either.elim plain plainRest, rfl⟩⟩

/-- What `php_hll_add` takes of a value that converts: its strings, or nothing if
there is a reference. -/
theorem Zval.takenStrings_cases (data : Zval) :
    data.strings tryConvertToString = none ∧ data.takenStrings tryConvertToString = none ∨
      ∃ strings, data.strings tryConvertToString = some strings ∧
        (data.HoldsReference ∧ data.takenStrings tryConvertToString = none ∨
          ¬data.HoldsReference ∧ data.takenStrings tryConvertToString = some strings) := by
  cases data with
  | isArray entries => exact takenEntries_cases tryConvertToString entries
  | _ =>
      simp only [Zval.strings, Zval.takenStrings, Zval.HoldsReference]
      rcases takenBytes_cases tryConvertToString _ with
        ⟨whole, taken⟩ | ⟨value, whole, ⟨reference, taken⟩ | ⟨plain, taken⟩⟩
      · exact Or.inl ⟨by rw [whole]; rfl, by rw [taken]; rfl⟩
      · exact Or.inr ⟨[value], by rw [whole]; rfl, Or.inl ⟨reference, by rw [taken]; rfl⟩⟩
      · exact Or.inr ⟨[value], by rw [whole]; rfl, Or.inr ⟨plain, by rw [taken]; rfl⟩⟩

theorem addWhole_eq (hll : Robj) (data : Zval) :
    addWhole env tryConvertToString hll data =
      match data.strings tryConvertToString with
      | none => .ok (0, some hll)
      | some strings => pfAddMany env (some hll) strings := by
  cases data with
  | isArray entries => rfl
  | isResource handle => rfl
  | _ =>
      simp only [addWhole, Zval.strings, Zval.bytes, pfAdd_eq_pfAddMany]
      split
      · rename_i refused
        rw [refused]
        rfl
      · rename_i converted
        rw [converted]
        rfl

theorem phpLeaves_of_ran {hll : Robj} {data : Zval} {added : PhpAdd}
    (ran : phpHllAdd env tryConvertToString hll data 0 = .ok added) :
    PhpLeaves env tryConvertToString hll data added.hll := by
  rw [PhpLeaves, phpMethodAdd, phpFunctionAdd, ran]
  simp only
  split <;> exact ⟨rfl, rfl⟩

theorem PhpLeaves.unique {hll : Robj} {data : Zval} {first second : Robj}
    (left : PhpLeaves env tryConvertToString hll data first)
    (right : PhpLeaves env tryConvertToString hll data second) : first = second := by
  have same := left.2.symm.trans right.2
  cases same
  rfl

theorem phpLeaves_refused (hll : Robj) (data : Zval)
    (refused : data.takenStrings tryConvertToString = none) :
    PhpLeaves env tryConvertToString hll data hll := by
  have adds := phpHllAdd_eq env tryConvertToString hll data 0
  rw [refused] at adds
  obtain ⟨warnings, ran⟩ := adds
  exact phpLeaves_of_ran env tryConvertToString ran

theorem phpLeaves_added (hll : Robj) (data : Zval) (strings : List (List Byte)) {updated : Int}
    {after : Robj} (converted : data.takenStrings tryConvertToString = some strings)
    (ran : pfAddMany env (some hll) (strings.map cString) = .ok (updated, some after)) :
    PhpLeaves env tryConvertToString hll data after := by
  have adds := phpHllAdd_eq env tryConvertToString hll data 0
  rw [converted] at adds
  simp only [ran, phpHllAdded] at adds
  exact phpLeaves_of_ran env tryConvertToString adds

theorem binarySafe_iff {hll : Robj} {data : Zval} {after whole : Robj} {retval : Int}
    (leaves : PhpLeaves env tryConvertToString hll data after)
    (ran : addWhole env tryConvertToString hll data = .ok (retval, some whole)) :
    BinarySafe env tryConvertToString hll data ↔ SameBytes whole after := by
  constructor
  · rintro ⟨left, _, right, leavesLeft, ranRight, same⟩
    rw [leavesLeft.unique env tryConvertToString leaves] at same
    cases ran.symm.trans ranRight
    exact same
  · exact fun same => ⟨after, retval, whole, leaves, ran, same⟩

private theorem pfAddMany_registers {o next : Robj} {eles : List (List Byte)} {retval : Int}
    (formed : WellFormed o) (ran : pfAddMany env (some o) eles = .ok (retval, some next)) :
    WellFormed next ∧ registers next = eles.foldl patternObserver.insert (registers o) := by
  rcases pfAddMany_formed env formed eles with
    ⟨unchanged, _, added, same⟩ | ⟨_changed, _, added, grown⟩
  · cases ran.symm.trans added
    exact ⟨formed.of_sameBytes same, (formed.registers_sameBytes same).trans unchanged.symm⟩
  · cases ran.symm.trans added
    exact ⟨grown.formed, grown.registers⟩

private theorem binarySafe_refused (hll : Robj) {data : Zval}
    (whole : data.strings tryConvertToString = none)
    (taken : data.takenStrings tryConvertToString = none) :
    BinarySafe env tryConvertToString hll data := by
  have adds := addWhole_eq env tryConvertToString hll data
  rw [whole] at adds
  exact ⟨hll, 0, hll, phpLeaves_refused env tryConvertToString hll data taken, adds,
    SameBytes.refl hll⟩

private theorem binarySafe_reference_iff {hll : Robj} {data : Zval} {strings : List (List Byte)}
    (formed : WellFormed hll) (converted : data.strings tryConvertToString = some strings)
    (taken : data.takenStrings tryConvertToString = none) :
    BinarySafe env tryConvertToString hll data ↔
      ∀ value ∈ strings, (hllPatLen value).count ≤ registers hll (registerOf value) := by
  have adds := addWhole_eq env tryConvertToString hll data
  have leaves := phpLeaves_refused env tryConvertToString hll data taken
  rw [converted] at adds
  refine Iff.trans ?_ (patternObserver.foldl_insert_eq_self_iff strings (registers hll))
  rcases pfAddMany_formed env formed strings with
    ⟨unchanged, whole, ran, same⟩ | ⟨changed, whole, ran, grown⟩
  · rw [binarySafe_iff env tryConvertToString leaves (adds.trans ran)]
    exact iff_of_true ⟨same.len.symm, same.buf.symm⟩ unchanged
  · rw [binarySafe_iff env tryConvertToString leaves (adds.trans ran)]
    refine iff_of_false (fun same => changed ?_) changed
    rw [← grown.registers, grown.formed.registers_sameBytes same]

private theorem php_leaves_whole {hll : Robj} {data : Zval} {strings : List (List Byte)}
    (formed : WellFormed hll) (converted : data.strings tryConvertToString = some strings)
    (taken : data.takenStrings tryConvertToString = some strings)
    (same : pfAddMany env (some hll) (strings.map cString) = pfAddMany env (some hll) strings) :
    ∃ after retval,
      PhpLeaves env tryConvertToString hll data after ∧
      addWhole env tryConvertToString hll data = .ok (retval, some after) := by
  have adds := addWhole_eq env tryConvertToString hll data
  rw [converted] at adds
  obtain ⟨after, ran, _⟩ := pfAddMany_observes env formed strings
  exact ⟨after, _, phpLeaves_added env tryConvertToString hll data strings taken (same.trans ran),
    adds.trans ran⟩

private theorem cutsCovered_of_binarySafe {hll : Robj} {data : Zval} {strings : List (List Byte)}
    (formed : WellFormed hll) (converted : data.strings tryConvertToString = some strings)
    (taken : data.takenStrings tryConvertToString = some strings)
    (safe : BinarySafe env tryConvertToString hll data) :
    CutsCovered (registers hll) strings := by
  have adds := addWhole_eq env tryConvertToString hll data
  rw [converted] at adds
  obtain ⟨front, ranFront, _⟩ := pfAddMany_observes env formed (strings.map cString)
  obtain ⟨whole, ranWhole, _⟩ := pfAddMany_observes env formed strings
  have leaves := phpLeaves_added env tryConvertToString hll data strings taken ranFront
  have same := (binarySafe_iff env tryConvertToString leaves (adds.trans ranWhole)).mp safe
  obtain ⟨_, fronts⟩ := pfAddMany_registers env formed ranFront
  obtain ⟨formedWhole, wholes⟩ := pfAddMany_registers env formed ranWhole
  rw [← cutsCovered_iff, ← fronts, ← wholes, formedWhole.registers_sameBytes same]

private theorem strings_single {data : Zval} {strings : List (List Byte)}
    (single : ∀ entries, data ≠ .isArray entries)
    (converted : data.strings tryConvertToString = some strings) : ∃ value, strings = [value] := by
  cases data with
  | isArray entries => exact absurd rfl (single entries)
  | isResource handle => cases converted
  | _ =>
      obtain ⟨value, _bytes, same⟩ := Option.map_eq_some_iff.mp converted
      exact ⟨value, same.symm⟩

private theorem pfAddMany_cutsCovered {hll : Robj} {data : Zval} {strings : List (List Byte)}
    (formed : WellFormed hll) (converted : data.strings tryConvertToString = some strings)
    (easy : encoding hll.ptr.buf = hllDense ∨ ∀ entries, data ≠ .isArray entries)
    (covered : CutsCovered (registers hll) strings) :
    pfAddMany env (some hll) (strings.map cString) = pfAddMany env (some hll) strings := by
  rcases easy with dense | single
  · exact pfAddMany_dense env dense ((cutsCovered_iff _ strings).mpr covered)
  · obtain ⟨value, rfl⟩ := strings_single tryConvertToString single converted
    exact pfAddMany_cuts env formed [value] ⟨covered, trivial⟩

end Conversion

/-- The adds of PHP are binary safe where every cut goes unnoticed at its turn, and
only where the fronts and the whole strings cover one another; the two are the
same for a lone value and on dense registers.  A value that does not convert
changes nothing, and strings without a NUL are added whole. -/
theorem php_adds_binary_safe_iff (env : Env) (tryConvertToString : TryConvert) (hll : Robj)
    (data : Zval) (formed : WellFormed hll) :
    ((encoding hll.ptr.buf = hllDense ∨ ∀ entries, data ≠ .isArray entries) →
      (BinarySafe env tryConvertToString hll data ↔
        data.AddsAlike CutsCovered tryConvertToString (registers hll))) ∧
    (data.AddsAlike CutsUnnoticed tryConvertToString (registers hll) →
      BinarySafe env tryConvertToString hll data) ∧
    (BinarySafe env tryConvertToString hll data →
      data.AddsAlike CutsCovered tryConvertToString (registers hll)) ∧
    (data.strings tryConvertToString = none → PhpLeaves env tryConvertToString hll data hll) ∧
    ∀ strings, data.strings tryConvertToString = some strings → ¬data.HoldsReference →
      (∀ value ∈ strings, 0 ∉ value) →
      ∃ after retval,
        PhpLeaves env tryConvertToString hll data after ∧
        addWhole env tryConvertToString hll data = .ok (retval, some after) := by
  rcases data.takenStrings_cases tryConvertToString with
    ⟨whole, taken⟩ | ⟨strings, whole, ⟨reference, taken⟩ | ⟨plain, taken⟩⟩
  · have safe := binarySafe_refused env tryConvertToString hll whole taken
    have alike (cuts : (Fin 16384 → Nat) → List (List Byte) → Prop) :
        data.AddsAlike cuts tryConvertToString (registers hll) := by
      intro strings converted
      cases whole.symm.trans converted
    refine ⟨fun _ => iff_of_true safe (alike _), fun _ => safe, fun _ => alike _,
      fun _ => phpLeaves_refused env tryConvertToString hll data taken, ?_⟩
    intro strings converted
    cases whole.symm.trans converted
  · have safeIff := binarySafe_reference_iff env tryConvertToString formed whole taken
    have alikeIff (cuts : (Fin 16384 → Nat) → List (List Byte) → Prop) :
        BinarySafe env tryConvertToString hll data ↔
          data.AddsAlike cuts tryConvertToString (registers hll) := by
      rw [safeIff]
      constructor
      · intro covered _ converted
        cases whole.symm.trans converted
        exact ⟨fun none => absurd reference none, fun _ => covered⟩
      · exact fun alike => (alike strings whole).2 reference
    refine ⟨fun _ => alikeIff _, (alikeIff _).mpr, (alikeIff _).mp, ?_, ?_⟩
    · intro none
      cases whole.symm.trans none
    · intro _ _ none
      exact absurd reference none
  · have alikeIff (cuts : (Fin 16384 → Nat) → List (List Byte) → Prop) :
        data.AddsAlike cuts tryConvertToString (registers hll) ↔ cuts (registers hll) strings := by
      constructor
      · exact fun alike => (alike strings whole).1 plain
      · intro covered _ converted
        cases whole.symm.trans converted
        exact ⟨fun _ => covered, fun reference => absurd reference plain⟩
    have sameObject := php_leaves_whole env tryConvertToString formed whole taken
    have safe (same : pfAddMany env (some hll) (strings.map cString) =
        pfAddMany env (some hll) strings) : BinarySafe env tryConvertToString hll data := by
      obtain ⟨after, retval, leaves, ran⟩ := sameObject same
      exact ⟨after, retval, after, leaves, ran, SameBytes.refl after⟩
    have needed := cutsCovered_of_binarySafe env tryConvertToString formed whole taken
    refine ⟨fun easy => ?_, fun alike => ?_, fun safe => (alikeIff _).mpr (needed safe), ?_, ?_⟩
    · rw [alikeIff]
      exact ⟨needed, fun covered =>
        safe (pfAddMany_cutsCovered env tryConvertToString formed whole easy covered)⟩
    · exact safe (pfAddMany_cuts env formed strings ((alikeIff _).mp alike))
    · intro none
      cases whole.symm.trans none
    · intro _ converted _ noNul
      cases whole.symm.trans converted
      have kept : strings.map cString = strings :=
        (List.map_congr_left fun value member =>
          cString_of_noNul value (noNul value member)).trans (List.map_id strings)
      exact sameObject (by rw [kept])

/-- A conversion that knows strings, `null` and the booleans. -/
def convertsPlain : TryConvert
  | .isNull => some []
  | .isFalse => some []
  | .isTrue => some [0x31#8]
  | .isString value => some value
  | _ => none

def embeddedNul : List Byte := [0x61#8, 0x00#8, 0x62#8]

/-- An object that has both strings already shows nothing of the cut, whatever
else is in the array. -/
theorem php_adds_binary_safe_iff_covered :
    ∃ retval hll,
      pfAddMany server (some (created server)) [[0x61#8], embeddedNul] = .ok (retval, some hll) ∧
      BinarySafe server convertsPlain hll (.isArray [.isString embeddedNul, .isTrue]) := by
  have start := (created_valid server).wellFormed
  obtain ⟨hll, ran, formed, _⟩ := pfAddMany_observes server start [[0x61#8], embeddedNul]
  obtain ⟨_, vector⟩ := pfAddMany_registers server start ran
  have covered (ele : List Byte) (member : ele ∈ [[0x61#8], embeddedNul]) :
      (hllPatLen ele).count ≤ registers hll (registerOf ele) := by
    rw [vector]
    exact (patternObserver.le_foldl_insert_apply_iff _ _ _ _).mpr
      (Or.inr ⟨ele, member, rfl, Nat.le_refl _⟩)
  refine ⟨_, hll, ran, (php_adds_binary_safe_iff server convertsPlain hll
    (.isArray [.isString embeddedNul, .isTrue]) formed).2.1 ?_⟩
  intro strings converted
  cases converted
  refine ⟨fun _ => ⟨?_, ?_, trivial⟩, ?_⟩
  · exact (cutsCovered_single _ _).mpr
      (Or.inr ⟨covered [0x61#8] (by decide), covered embeddedNul (by decide)⟩)
  · exact (cutsCovered_single _ _).mpr (Or.inl rfl)
  · rintro ⟨entry, member, reference⟩
    simp only [List.mem_cons, List.not_mem_nil, or_false] at member
    rcases member with rfl | rfl <;> exact reference.elim

/-- `"a\0b"` is added as `"a"`, and the register of the whole string stays 0. -/
theorem embedded_nul_is_cut :
    Valid server (created server) ∧
      (∃ after retval whole,
        PhpLeaves server convertsPlain (created server) (.isString embeddedNul) after ∧
        addWhole server convertsPlain (created server) (.isString embeddedNul) =
          .ok (retval, some whole) ∧
        registers after 15487 = 0 ∧ registers whole 15487 = 2) ∧
      ¬BinarySafe server convertsPlain (created server) (.isString embeddedNul) := by
  have elsewhere : (15487 : Fin 16384) ≠ registerOf [0x61#8] := by decide +kernel
  have register : (15487 : Fin 16384) = registerOf embeddedNul := by decide +kernel
  have count : (hllPatLen embeddedNul).count = 2 := by decide +kernel
  have cut : [embeddedNul].map cString = [[0x61#8]] := by decide
  have formed := (created_valid server).wellFormed
  obtain ⟨left, ranLeft, _⟩ := pfAddMany_observes server formed [[0x61#8]]
  obtain ⟨right, ranRight, _⟩ := pfAddMany_observes server formed [embeddedNul]
  obtain ⟨_, leftVector⟩ := pfAddMany_registers server formed ranLeft
  obtain ⟨formedRight, rightVector⟩ := pfAddMany_registers server formed ranRight
  have leaves := phpLeaves_added server convertsPlain (created server) (.isString embeddedNul)
    [embeddedNul] rfl (by rw [cut]; exact ranLeft)
  have low : registers left 15487 = 0 := by
    rw [leftVector, List.foldl_cons, List.foldl_nil, insert_apply, if_neg elsewhere,
      registers_created]
    rfl
  have high : registers right 15487 = 2 := by
    rw [rightVector, List.foldl_cons, List.foldl_nil, insert_apply, if_pos register, count,
      registers_created]
    rfl
  have ranWhole := (addWhole_eq server convertsPlain (created server) (.isString embeddedNul)).trans
    ranRight
  refine ⟨created_valid server, ⟨left, _, right, leaves, ranWhole, low, high⟩, fun safe => ?_⟩
  have same := (binarySafe_iff server convertsPlain leaves ranWhole).mp safe
  rw [formedRight.registers_sameBytes same, high] at low
  cases low

end PhpHll
