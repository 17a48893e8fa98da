/-
HLLs and the sets they stand for.

An HLL holds a set when it was built by the operations of this code and was fed
the elements of the set.  One lemma for each operation says what the HLL then
holds and what the operation returns, in terms of the set alone: order,
repetition and encoding are forgotten here.
-/

import PhpHll.PhpSets

namespace PhpHll

open ByteMemory

def HoldsSet (env : Env) (set : ElementSet) (o : Robj) : Prop :=
  ∃ eles, Built env eles o ∧ eles.toFinset = set

theorem sketchOf_toFinset (eles : List (List Byte)) :
    sketchOf eles = sketchOfSet eles.toFinset :=
  patternObserver.sketch_eq_of_mem_iff eles eles.toFinset.toList fun ele => by
    rw [Finset.mem_toList, List.mem_toFinset]

section Held

variable {env : Env} {set : ElementSet} {o : Robj}

theorem HoldsSet.valid (holds : HoldsSet env set o) : Valid env o := by
  obtain ⟨eles, built, _⟩ := holds
  exact built.valid

theorem HoldsSet.registers (holds : HoldsSet env set o) : registers o = sketchOfSet set := by
  obtain ⟨eles, built, rfl⟩ := holds
  rw [built.registers, sketchOf_toFinset]

theorem HoldsSet.coherent (holds : HoldsSet env set o) (empty : env.estimate 16384 16384 = 0) :
    (counterModel env).Coherent (abstraction o) := by
  obtain ⟨eles, built, _⟩ := holds
  exact built.coherent empty

theorem holdsSet_created (env : Env) : HoldsSet env ∅ (created env) :=
  ⟨[], .create (created env) (hllCreate_eq env), rfl⟩

/-- An operation without sources that feeds nothing. -/
private theorem HoldsSet.kept {next : Robj} (holds : HoldsSet env set o) (op : Op) (reply : Reply)
    (alone : op.sources = [])
    (same : ∀ lists eles, op.fed lists eles = eles) (ran : op.step env o = .ok (reply, next)) :
    HoldsSet env set next := by
  obtain ⟨eles, built, elements⟩ := holds
  have after := Built.step op o next reply eles (fun _ => []) built
    (fun source member => by rw [alone] at member; cases member) ran
  rw [same] at after
  exact ⟨eles, after, elements⟩

theorem HoldsSet.toDense (holds : HoldsSet env set o) :
    ∃ next, hllSparseToDense env o = (cOk, next) ∧ HoldsSet env set next := by
  obtain ⟨next, ran, _⟩ := hllSparseToDense_spec holds.valid
  refine ⟨next, ran, holds.kept .toDense (.status cOk) rfl (fun _ _ => rfl) ?_⟩
  rw [Op.step, ran]

theorem HoldsSet.count (holds : HoldsSet env set o) (empty : env.estimate 16384 16384 = 0) :
    ∃ next, pfCount env (some o) = .ok (.card (countOf env (sketchOfSet set)), some next) ∧
      HoldsSet env set next := by
  obtain ⟨next, counted, _⟩ := pfCount_coherent holds.valid.wellFormed (holds.coherent empty)
  have ran : Op.count.step env o =
      .ok (.count (.card (countOf env (PhpHll.registers o))), next) := by
    rw [Op.step, counted]
    rfl
  have after := holds.kept .count _ rfl (fun _ _ => rfl) ran
  rw [holds.registers] at counted
  exact ⟨next, counted, after⟩

theorem HoldsSet.info (holds : HoldsSet env set o) :
    phpHllInfo o = "dense" ∨ phpHllInfo o = "sparse" := by
  rcases holds.valid.body with ⟨dense, _⟩ | ⟨sparse, _⟩
  · exact Or.inl (if_pos dense.1)
  · refine Or.inr ?_
    rw [phpHllInfo, if_neg sparse.notDense, if_pos sparse.1]

theorem HoldsSet.addMany (holds : HoldsSet env set o) (strings : List (List Byte)) :
    ∃ next, pfAddMany env (some o) strings =
        .ok (if shows set strings.toFinset then 1 else 0, some next) ∧
      HoldsSet env (set ∪ strings.toFinset) next := by
  obtain ⟨next, ran, _⟩ := pfAddMany_observes env holds.valid.wellFormed strings
  obtain ⟨eles, built, rfl⟩ := holds
  have after := Built.step (.addMany strings) o next _ eles (fun _ => []) built
    (fun source member => by cases member) (by rw [Op.step, ran]; rfl)
  refine ⟨next, ?_, eles ++ strings, after, List.toFinset_append⟩
  have grown : strings.foldl patternObserver.insert (PhpHll.registers o) =
      sketchOfSet (eles.toFinset ∪ strings.toFinset) := by
    rw [built.registers, ← sketchOf_append, sketchOf_toFinset, List.toFinset_append]
  rw [ran, grown, built.registers, sketchOf_toFinset, shows]
  by_cases same : sketchOfSet (eles.toFinset ∪ strings.toFinset) = sketchOfSet eles.toFinset
  · rw [if_pos same, if_neg (by simpa using same)]
  · rw [if_neg same, if_pos (by simpa using same)]

/-! ### Dumps -/

/-- The bytes of some HLL that holds the set. -/
def IsDump (env : Env) (bytes : List Byte) (set : ElementSet) : Prop :=
  ∃ o, HoldsSet env set o ∧ bytes = o.ptr.bytes

theorem HoldsSet.dump (holds : HoldsSet env set o) :
    ∃ raw, hllRaw env (some o) = some raw ∧ IsDump env raw.bytes set :=
  ⟨sdsdup env o.ptr, rfl, o, holds, sdsdup_bytes env o.ptr⟩

theorem IsDump.load {bytes : List Byte} (dump : IsDump env bytes set) :
    ∃ next, hllLoad env (sdsnewlen env bytes) = (cOk, some next) ∧ HoldsSet env set next := by
  obtain ⟨o, holds, rfl⟩ := dump
  have loaded := hllLoad_spec (sdsdup_valid holds.valid)
  refine ⟨_, loaded, holds.kept .reload (.status cOk) rfl (fun _ _ => rfl) ?_⟩
  simp only [Op.step, hllRaw, Option.map_some, loaded]
  rfl

end Held

/-! ### Merges -/

private theorem toFinset_flatMap (lists : Nat → List (List Byte)) (sets : Nat → ElementSet)
    (handles : List Nat) (elements : ∀ handle ∈ handles, (lists handle).toFinset = sets handle) :
    (handles.flatMap lists).toFinset = handles.toFinset.biUnion sets := by
  ext ele
  rw [List.mem_toFinset, List.mem_flatMap, Finset.mem_biUnion]
  constructor
  · rintro ⟨handle, member, here⟩
    rw [← List.mem_toFinset, elements handle member] at here
    exact ⟨handle, List.mem_toFinset.mpr member, here⟩
  · rintro ⟨handle, member, here⟩
    rw [List.mem_toFinset] at member
    rw [← elements handle member, List.mem_toFinset] at here
    exact ⟨handle, member, here⟩

/-- The target is left with what the sources hold together; it may be one of
them. -/
theorem pfMerge_holds {env : Env} (heap : Heap) (sets : Nat → ElementSet) (target : Nat)
    (before : ElementSet) (handles : List Nat) (holdsTarget : HoldsSet env before (heap target))
    (holds : ∀ handle ∈ handles, HoldsSet env (sets handle) (heap handle)) :
    ∃ next, pfMerge env heap (some target) (handles.map some) =
        (cOk, Function.update heap target next) ∧
      HoldsSet env (handles.toFinset.biUnion sets) next := by
  choose! lists built elements using holds
  obtain ⟨own, builtOwn, _⟩ := holdsTarget
  obtain ⟨next, ran, _⟩ := pfMerge_spec heap target (handles.map some) builtOwn.valid
    fun handle member => (built handle ((mem_map_some handle handles).mp member)).valid
  -- The target was fed the list of its place among the sources, if it has one.
  let eles := if target ∈ handles then lists target else own
  have builtTarget : Built env eles (heap target) := by
    by_cases listed : target ∈ handles
    · simp only [eles, if_pos listed]
      exact built target listed
    · simp only [eles, if_neg listed]
      exact builtOwn
  have fed : (Op.merge heap target (handles.map some)).fed lists eles = handles.flatMap lists := by
    rw [Op.fed, List.flatMap_map]
    refine List.flatMap_congr fun handle member => ?_
    by_cases same : handle = target
    · subst same
      simp only [eles, if_pos member, ite_self]
    · simp only [if_neg same]
  have sources : ∀ source ∈ (Op.merge heap target (handles.map some)).sources,
      Built env (lists source.1) source.2 := by
    intro source member
    obtain ⟨hll, listed, found⟩ := List.mem_filterMap.mp member
    obtain ⟨handle, memberHandle, rfl⟩ := List.mem_map.mp listed
    rw [Option.bind_some] at found
    split at found
    · cases found
    · cases found
      exact built handle memberHandle
  have after := Built.step (.merge heap target (handles.map some)) (heap target) next (.status cOk)
    eles lists builtTarget sources (by
      rw [Op.step, Function.update_eq_self, ran]
      simp only [Function.update_self])
  rw [fed] at after
  exact ⟨next, ran, _, after, toFinset_flatMap lists sets handles elements⟩

theorem pfCountMerged_holds (env : Env) (heap : Heap) (sets : Nat → ElementSet)
    (handles : List Nat) (several : 2 ≤ handles.length)
    (holds : ∀ handle ∈ handles, HoldsSet env (sets handle) (heap handle)) :
    pfCountMerged env heap (handles.map some) =
      .ok (.card (countOf env (sketchOfSet (handles.toFinset.biUnion sets))), heap) := by
  choose! lists built elements using holds
  have builtSome : ∀ handle, some handle ∈ handles.map some →
      Built env (lists handle) (heap handle) :=
    fun handle member => built handle ((mem_map_some handle handles).mp member)
  rw [pfCountMerged_spec env heap _ (fun handle member => (builtSome handle member).valid.wellFormed)
      (by rw [List.length_map]; exact several),
    mergedVector_built heap lists _ builtSome, sketchOf_toFinset, List.flatMap_map]
  have elementsEq := toFinset_flatMap lists sets handles elements
  rw [← elementsEq]
  rfl

/-! ### Adds of PHP values -/

section Adds

variable {env : Env} {set : ElementSet} {o : Robj}

/-- The loop stops at the first entry that does not convert, with what is said
of that entry. -/
private theorem phpHllAddStrings_complaints (env : Env) (tryConvertToString : TryConvert)
    (entries : List Zval) (refused : entries.mapM (Zval.takenBytes tryConvertToString) = none) :
    phpHllAddStrings env tryConvertToString entries =
      .error ((Zval.isArray entries).complaints tryConvertToString) := by
  induction entries with
  | nil => cases refused
  | cons current rest ih =>
      cases converted : current.takenBytes tryConvertToString with
      | none =>
          have found : (current :: rest).find? (fun entry =>
              (entry.takenBytes tryConvertToString).isNone) = some current :=
            List.find?_cons_of_pos (by rw [converted]; rfl)
          simp only [Zval.complaints, found, Option.map_some, Option.getD_some]
          cases current with
          | isArray entries => rfl
          | isResource handle => rfl
          | isReference handle => rfl
          | _ =>
              simp only [Zval.takenBytes] at converted
              simp only [phpHllAddStrings, converted, Zval.entryComplaints]
      | some duplicate =>
          have refusedRest : rest.mapM (Zval.takenBytes tryConvertToString) = none := by
            rw [List.mapM_cons, converted] at refused
            cases later : rest.mapM (Zval.takenBytes tryConvertToString) with
            | none => rfl
            | some strings =>
                rw [later] at refused
                cases refused
          have same : (Zval.isArray (current :: rest)).complaints tryConvertToString =
              (Zval.isArray rest).complaints tryConvertToString := by
            rw [Zval.complaints, Zval.complaints,
              List.find?_cons_of_neg (by rw [converted]; exact Bool.false_ne_true)]
          have stopped := ih refusedRest
          rw [same, ← stopped]
          cases current with
          | isArray entries => cases converted
          | isResource handle => cases converted
          | isReference handle => cases converted
          | _ =>
              simp only [Zval.takenBytes] at converted
              simp only [phpHllAddStrings, converted, stopped]

theorem HoldsSet.phpHllAdd (holds : HoldsSet env set o) (tryConvertToString : TryConvert)
    (data : Zval) :
    match data.elements tryConvertToString with
    | none =>
        PhpHll.phpHllAdd env tryConvertToString o data 0 =
          .ok
            { ret := .failure
              updated := 0
              warnings := data.complaints tryConvertToString
              hll := o }
    | some added =>
        ∃ next, PhpHll.phpHllAdd env tryConvertToString o data 0 =
            .ok
              { ret := .success
                updated := if shows set added then 1 else 0
                warnings := []
                hll := next } ∧
          HoldsSet env (set ∪ added) next := by
  have adds := phpHllAdd_eq env tryConvertToString o data 0
  rw [Zval.elements]
  cases converted : data.takenStrings tryConvertToString with
  | none =>
      rw [Option.map_none]
      cases data with
      | isArray entries =>
          have stopped := phpHllAddStrings_complaints env tryConvertToString entries converted
          simp only [PhpHll.phpHllAdd, stopped]
      | isResource handle => rfl
      | isReference handle => rfl
      | _ =>
          simp only [Zval.takenStrings, Option.map_eq_none_iff, Zval.takenBytes] at converted
          simp only [PhpHll.phpHllAdd, converted, Zval.complaints]
  | some strings =>
      rw [converted] at adds
      obtain ⟨next, ran, after⟩ := holds.addMany (strings.map cString)
      simp only [ran, phpHllAdded] at adds
      refine ⟨next, ?_, after⟩
      rw [adds]
      cases shows set (strings.map cString).toFinset with
      | true => rfl
      | false => rfl

theorem HoldsSet.phpMethodAdd (holds : HoldsSet env set o) (tryConvertToString : TryConvert)
    (data : Zval) :
    match data.elements tryConvertToString with
    | none =>
        PhpHll.phpMethodAdd env tryConvertToString o data =
          .ok
            { returnsThis := false
              updArg := none
              warnings := data.complaints tryConvertToString
              hll := o }
    | some added =>
        ∃ next, PhpHll.phpMethodAdd env tryConvertToString o data =
            .ok
              { returnsThis := true
                updArg := some (shows set added)
                warnings := []
                hll := next } ∧
          HoldsSet env (set ∪ added) next := by
  have adds := holds.phpHllAdd tryConvertToString data
  cases elements : data.elements tryConvertToString with
  | none =>
      rw [elements] at adds
      simp only at adds
      rw [PhpHll.phpMethodAdd, adds]
      rfl
  | some added =>
      rw [elements] at adds
      obtain ⟨next, ran, after⟩ := adds
      refine ⟨next, ?_, after⟩
      rw [PhpHll.phpMethodAdd, ran]
      cases shows set added with
      | true => rfl
      | false => rfl

theorem HoldsSet.phpFunctionAdd (holds : HoldsSet env set o) (tryConvertToString : TryConvert)
    (data : Zval) :
    match data.elements tryConvertToString with
    | none =>
        PhpHll.phpFunctionAdd env tryConvertToString o data =
          .ok { returned := false, warnings := data.complaints tryConvertToString, hll := o }
    | some added =>
        ∃ next, PhpHll.phpFunctionAdd env tryConvertToString o data =
            .ok { returned := shows set added, warnings := [], hll := next } ∧
          HoldsSet env (set ∪ added) next := by
  have adds := holds.phpHllAdd tryConvertToString data
  cases elements : data.elements tryConvertToString with
  | none =>
      rw [elements] at adds
      simp only at adds
      rw [PhpHll.phpFunctionAdd, adds]
      rfl
  | some added =>
      rw [elements] at adds
      obtain ⟨next, ran, after⟩ := adds
      refine ⟨next, ?_, after⟩
      rw [PhpHll.phpFunctionAdd, ran]
      cases shows set added with
      | true => rfl
      | false => rfl

end Adds

/-! ### New HLLs -/

theorem phpHllCreate_holds (env : Env) (allowSparse : Bool) :
    ∃ hll, phpHllCreate env allowSparse = .ok ([], some hll) ∧ HoldsSet env ∅ hll := by
  have holds := holdsSet_created env
  obtain ⟨dense, ran, holdsDense⟩ := holds.toDense
  rw [phpHllCreate, hllCreate_eq]
  cases allowSparse with
  | true => exact ⟨created env, rfl, holds⟩
  | false =>
      refine ⟨dense, ?_, holdsDense⟩
      simp only [ran, Bool.false_eq_true, if_false, ne_eq, not_true_eq_false]

/-- What a loaded string is read as: a dump stands for its set, and nothing
else is accepted. -/
def Reads (env : Env) (bytes : List Byte) : Option ElementSet → Prop
  | none => hllLoad env (sdsnewlen env bytes) = (cErr, none)
  | some set => IsDump env bytes set

theorem phpHllLoad_refused {env : Env} {bytes : List Byte} (reads : Reads env bytes none) :
    phpHllLoad env bytes = ([.text "Supplied HLL dump was invalid"], none) := by
  rw [phpHllLoad, reads]
  rfl

theorem phpHllLoad_holds {env : Env} {bytes : List Byte} {set : ElementSet}
    (reads : Reads env bytes (some set)) :
    ∃ hll, phpHllLoad env bytes = ([], some hll) ∧ HoldsSet env set hll := by
  obtain ⟨hll, loaded, holds⟩ := reads.load
  refine ⟨hll, ?_, holds⟩
  rw [phpHllLoad, loaded]
  rfl

end PhpHll
