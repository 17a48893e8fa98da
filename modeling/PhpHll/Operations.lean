/-
Operations on one object and the objects they build.

`Op` lists the ways in which a process changes an object it holds; `Op.step`
performs them with the code of the exported operations.  On valid objects they
simulate the sketch with a cached summary, whatever the encoding, and `Built`
collects the objects that such operations reach from `hllCreate`, with the
elements each of them was fed.
-/

import PhpHll.CommandsSpec
import PhpHll.Library.CachedSketch
import PhpHll.Library.Machine

namespace PhpHll

open ByteMemory

inductive Reply
  | status (code : Int)
  | count (exit : CountExit)
  deriving DecidableEq

/-- In `merge` the object is the target, under the given handle; every other
handle of the list is an object of the heap. -/
inductive Op
  | add (ele : List Byte)
  | addMany (eles : List (List Byte))
  | toDense
  | count
  | reload
  | merge (heap : Heap) (target : Nat) (hlls : List Hll)

def Op.step (env : Env) : Op → Robj → Except Abort (Reply × Robj)
  | .add ele, o =>
      match pfAdd env (some o) ele with
      | .error abort => .error abort
      | .ok (status, next) => .ok (.status status, next.getD o)
  | .addMany eles, o =>
      match pfAddMany env (some o) eles with
      | .error abort => .error abort
      | .ok (status, next) => .ok (.status status, next.getD o)
  | .toDense, o =>
      let (status, next) := hllSparseToDense env o
      .ok (.status status, next)
  | .count, o =>
      match pfCount env (some o) with
      | .error abort => .error abort
      | .ok (exit, next) => .ok (.count exit, next.getD o)
  | .reload, o =>
      match hllRaw env (some o) with
      | none => .ok (.status cErr, o)
      | some raw =>
          let (status, loaded) := hllLoad env raw
          .ok (.status status, loaded.getD o)
  | .merge heap target hlls, o =>
      let (status, after) := pfMerge env (Function.update heap target o) (some target) hlls
      .ok (.status status, after target)

/-- The objects an operation reads besides the one it changes, with their
handles. -/
def Op.sources : Op → List (Nat × Robj)
  | .merge heap target hlls =>
      hlls.filterMap fun hll =>
        hll.bind fun handle => if handle = target then none else some (handle, heap handle)
  | _ => []

def Reply.IsError : Reply → Prop
  | .status code => code = cErr
  | .count exit => exit = .err

/-! ### The objects built by these operations -/

/-- The elements an object was fed once an operation is done, when it was fed
`eles` before and the source with a handle was fed `lists handle`. -/
def Op.fed (lists : Nat → List (List Byte)) (eles : List (List Byte)) : Op → List (List Byte)
  | .add ele => eles ++ [ele]
  | .addMany more => eles ++ more
  | .merge _ target hlls =>
      hlls.flatMap fun hll =>
        match hll with
        | none => []
        | some handle => if handle = target then eles else lists handle
  | _ => eles

inductive Built (env : Env) : List (List Byte) → Robj → Prop
  | create (o : Robj) (made : hllCreate env = .ok o) : Built env [] o
  | step (op : Op) (o next : Robj) (reply : Reply) (eles : List (List Byte))
      (lists : Nat → List (List Byte)) (before : Built env eles o)
      (sources : ∀ source ∈ op.sources, Built env (lists source.1) source.2)
      (ran : op.step env o = .ok (reply, next)) : Built env (op.fed lists eles) next

def Reachable (env : Env) (o : Robj) : Prop := ∃ eles, Built env eles o

def Op.Genuine (env : Env) (op : Op) : Prop := ∀ source ∈ op.sources, Reachable env source.2

/-! ### Refinement of the abstract sketch -/

/-- The abstract model: the summary is the count, and a count with bit 63 set
cannot be told from a stale cache. -/
def counterModel (env : Env) : CachedSketch.Model (List Byte) (Fin 16384) Nat (BitVec 64) :=
  { observer := patternObserver
    summary := countOf env
    storable := fun card => !card.getLsbD 63 }

def abstraction (o : Robj) : CachedSketch.State (Fin 16384) Nat (BitVec 64) :=
  { array := registers o
    cache := cachedCard o.ptr.buf }

def sourceVector (heap : Heap) (target : Nat) : Hll → Option (Fin 16384 → Nat)
  | none => some ⊥
  | some handle => if handle = target then none else some (registers (heap handle))

def Op.abstract : Op → CachedSketch.Op (List Byte) (Fin 16384) Nat
  | .add ele => .observe [ele]
  | .addMany eles => .observe eles
  | .toDense => .idle
  | .count => .summarise
  | .reload => .idle
  | .merge heap target hlls => .absorb (hlls.map (sourceVector heap target))

def Reply.ofAbstract : CachedSketch.Reply (BitVec 64) → Reply
  | .changed flag => .status (if flag then 1 else 0)
  | .done => .status cOk
  | .summary card => .count (.card card)

noncomputable def abstractStep (env : Env) (op : Op)
    (state : CachedSketch.State (Fin 16384) Nat (BitVec 64)) :
    Reply × CachedSketch.State (Fin 16384) Nat (BitVec 64) :=
  (Reply.ofAbstract ((counterModel env).step op.abstract state).1,
    ((counterModel env).step op.abstract state).2)

structure Related (env : Env) (o : Robj)
    (state : CachedSketch.State (Fin 16384) Nat (BitVec 64)) : Prop where
  valid : Valid env o
  state : abstraction o = state

/-- A batch of adds to a well-formed object observes its elements. -/
theorem pfAddMany_observes (env : Env) {o : Robj} (formed : WellFormed o)
    (eles : List (List Byte)) :
    ∃ next, pfAddMany env (some o) eles =
        .ok (if eles.foldl patternObserver.insert (registers o) = registers o then 0 else 1,
          some next) ∧
      WellFormed next ∧ (Valid env o → Valid env next) ∧
      abstraction next = (abstractStep env (.addMany eles) (abstraction o)).2 := by
  rcases pfAddMany_formed env formed eles with
    ⟨unchanged, next, ran, same⟩ | ⟨changed, next, ran, grown⟩
  · have quiet := (counterModel env).step_observe_same eles (abstraction o) unchanged
    refine ⟨next, by rw [ran, if_pos unchanged], formed.of_sameBytes same,
      fun valid => valid.of_sameBytes same, ?_⟩
    rw [abstractStep, Op.abstract, quiet, abstraction, abstraction,
      formed.registers_sameBytes same, same.buf]
  · have new := (counterModel env).step_observe_new eles (abstraction o) changed
    refine ⟨next, by rw [ran, if_neg changed], grown.formed, grown.valid, ?_⟩
    rw [abstractStep, Op.abstract, new, abstraction, grown.registers, grown.stale]
    rfl

private theorem step_addMany (env : Env) (o : Robj) (eles : List (List Byte))
    (valid : Valid env o) :
    ∃ next, (Op.addMany eles).step env o =
        .ok ((abstractStep env (.addMany eles) (abstraction o)).1, next) ∧
      Related env next (abstractStep env (.addMany eles) (abstraction o)).2 := by
  obtain ⟨next, ran, _formed, validNext, observed⟩ :=
    pfAddMany_observes env valid.wellFormed eles
  refine ⟨next, ?_, validNext valid, observed⟩
  rw [Op.step, ran, abstractStep, Op.abstract]
  by_cases unchanged : eles.foldl patternObserver.insert (registers o) = registers o
  · rw [(counterModel env).step_observe_same eles (abstraction o) unchanged, if_pos unchanged]
    rfl
  · rw [(counterModel env).step_observe_new eles (abstraction o) unchanged, if_neg unchanged]
    rfl

private theorem step_add (env : Env) (o : Robj) (ele : List Byte) :
    (Op.add ele).step env o = (Op.addMany [ele]).step env o := by
  rw [Op.step, Op.step, pfAdd_eq_pfAddMany]

private theorem step_count (env : Env) (o : Robj) (valid : Valid env o) :
    ∃ next, Op.count.step env o = .ok ((abstractStep env .count (abstraction o)).1, next) ∧
      Related env next (abstractStep env .count (abstraction o)).2 := by
  have count := pfCount_spec env valid.wellFormed
  cases cached : cachedCard o.ptr.buf with
  | some card =>
      rw [cached] at count
      refine ⟨o, ?_, valid, ?_⟩
      · rw [Op.step, count, abstractStep, Op.abstract, abstraction, cached]
        rfl
      · rw [abstractStep, Op.abstract, abstraction, cached]
        rfl
  | none =>
      rw [cached] at count
      refine ⟨counted o (countOf env (registers o)), ?_, counted_valid valid _, ?_⟩
      · rw [Op.step, count, abstractStep, Op.abstract, abstraction, cached]
        rfl
      · have vector : registers (counted o (countOf env (registers o))) = registers o :=
          valid.registers_sameButCard (sameButCard_writeCard o _)
        have cache := cachedCard_writeCard o.ptr.buf (countOf env (registers o))
        have flipped (card : BitVec 64) : (if card.getLsbD 63 = true then none else some card) =
            if (!card.getLsbD 63) = true then some card else none := by
          cases card.getLsbD 63 <;> rfl
        have buf : (counted o (countOf env (registers o))).ptr.buf =
            writeCard o.ptr.buf (countOf env (registers o)) := rfl
        rw [abstractStep, Op.abstract, abstraction, abstraction, vector, buf, cache, cached,
          flipped]
        rfl

private theorem step_toDense (env : Env) (o : Robj) (valid : Valid env o) :
    ∃ next, Op.toDense.step env o = .ok ((abstractStep env .toDense (abstraction o)).1, next) ∧
      Related env next (abstractStep env .toDense (abstraction o)).2 := by
  obtain ⟨next, ran, validNext, _dense, vector, _kept, cache⟩ := hllSparseToDense_spec valid
  have idle : (counterModel env).step CachedSketch.Op.idle (abstraction o) =
      (.done, abstraction o) := rfl
  refine ⟨next, ?_, validNext, ?_⟩
  · rw [Op.step, ran, abstractStep, Op.abstract, idle, Reply.ofAbstract]
  · rw [abstractStep, Op.abstract, idle, abstraction, abstraction, vector, cache]

private theorem step_reload (env : Env) (o : Robj) (valid : Valid env o) :
    ∃ next, Op.reload.step env o = .ok ((abstractStep env .reload (abstraction o)).1, next) ∧
      Related env next (abstractStep env .reload (abstraction o)).2 := by
  have validDump := sdsdup_valid valid
  have validNext := sdsdup_valid validDump
  have dump := sameString_sdsdup env o
  have reload := sameString_sdsdup env { ptr := sdsdup env o.ptr }
  refine ⟨{ ptr := sdsdup env (sdsdup env o.ptr) }, ?_, validNext, ?_⟩
  · have loaded := hllLoad_spec validDump
    simp only [Op.step, hllRaw, Option.map_some, loaded]
    rfl
  · rw [abstraction, validDump.registers_sameButCard reload.sameButCard,
      valid.registers_sameButCard dump.sameButCard, validDump.cachedCard_sameString reload,
      valid.cachedCard_sameString dump]
    rfl

theorem mergedVector_update (heap : Heap) (target : Nat) (o : Robj) (hlls : List Hll) :
    mergedVector (Function.update heap target o) hlls =
      CachedSketch.absorbed (registers o) (hlls.map (sourceVector heap target)) := by
  rw [mergedVector, CachedSketch.absorbed, List.map_map]
  congr 1
  apply List.map_congr_left
  intro hll _member
  cases hll with
  | none => rfl
  | some handle =>
      rw [vectorOf, Function.comp_apply, sourceVector]
      by_cases same : handle = target
      · rw [if_pos same, same, Function.update_self]
        rfl
      · rw [if_neg same, Function.update_of_ne same]
        rfl

theorem allValid_update {env : Env} {heap : Heap} {target : Nat} {o : Robj} {hlls : List Hll}
    (valid : Valid env o)
    (sources : ∀ source ∈ (Op.merge heap target hlls).sources, Valid env source.2) :
    AllValid env (Function.update heap target o) hlls := by
  intro handle member
  by_cases same : handle = target
  · rw [same, Function.update_self]
    exact valid
  · rw [Function.update_of_ne same]
    refine sources (handle, heap handle) (List.mem_filterMap.mpr ⟨some handle, member, ?_⟩)
    rw [Option.bind_some, if_neg same]

private theorem step_merge (env : Env) (o : Robj) (heap : Heap) (target : Nat) (hlls : List Hll)
    (valid : Valid env o)
    (sources : ∀ source ∈ (Op.merge heap target hlls).sources, Valid env source.2) :
    ∃ next, (Op.merge heap target hlls).step env o =
        .ok ((abstractStep env (.merge heap target hlls) (abstraction o)).1, next) ∧
      Related env next (abstractStep env (.merge heap target hlls) (abstraction o)).2 := by
  have validTarget : Valid env (Function.update heap target o target) := by
    rw [Function.update_self]
    exact valid
  obtain ⟨next, ran, merged⟩ := pfMerge_spec (Function.update heap target o) target hlls validTarget
    (allValid_update valid sources)
  refine ⟨next, ?_, merged.valid, ?_⟩
  · simp only [Op.step, ran, Function.update_self]
    rfl
  · rw [abstraction, merged.registers, merged.stale, mergedVector_update]
    rfl

/-- The step lemma: on valid objects every operation returns, with the reply of
the abstract model and an object for its next state. -/
theorem Op.step_refines (env : Env) (op : Op) (o : Robj) (valid : Valid env o)
    (sources : ∀ source ∈ op.sources, Valid env source.2) :
    ∃ next, op.step env o = .ok ((abstractStep env op (abstraction o)).1, next) ∧
      Related env next (abstractStep env op (abstraction o)).2 := by
  cases op with
  | add ele =>
      rw [step_add]
      exact step_addMany env o [ele] valid
  | addMany eles => exact step_addMany env o eles valid
  | toDense => exact step_toDense env o valid
  | count => exact step_count env o valid
  | reload => exact step_reload env o valid
  | merge heap target hlls => exact step_merge env o heap target hlls valid sources

theorem Built.valid {env : Env} {eles : List (List Byte)} {o : Robj} (built : Built env eles o) :
    Valid env o := by
  induction built with
  | create o made =>
      rw [hllCreate_eq] at made
      cases made
      exact created_valid env
  | step op o next reply eles lists _before _sources ran valid validSources =>
      obtain ⟨result, stepped, related⟩ := op.step_refines env o valid validSources
      rw [ran] at stepped
      cases stepped
      exact related.valid

theorem Reachable.valid {env : Env} {o : Robj} (reachable : Reachable env o) : Valid env o := by
  obtain ⟨eles, built⟩ := reachable
  exact built.valid

theorem Op.Genuine.valid {env : Env} {op : Op} (genuine : op.Genuine env) :
    ∀ source ∈ op.sources, Valid env source.2 :=
  fun source member => (genuine source member).valid

/-- A new object that is fed elements. -/
theorem exists_fed (env : Env) (eles : List (List Byte)) (fed : eles ≠ []) :
    ∃ o, pfAddMany env (some (created env)) eles = .ok (1, some o) ∧ Built env eles o ∧
      cachedCard o.ptr.buf = none := by
  rcases pfAddMany_spec (created_valid env) eles with
    ⟨unchanged, _⟩ | ⟨_changed, o, ran, grown⟩
  · obtain ⟨ele, rest, rfl⟩ := List.exists_cons_of_ne_nil fed
    rw [patternObserver.foldl_insert_eq_self_iff, registers_created] at unchanged
    have none : (hllPatLen ele).count ≤ 0 := unchanged ele (List.mem_cons_self ..)
    exact absurd ((hllPatLen_count_bounds ele).1.trans none) (Nat.not_succ_le_zero 0)
  · refine ⟨o, ran, ?_, grown.stale⟩
    refine .step (.addMany eles) (created env) o (.status 1) [] (fun _ => [])
      (.create _ (hllCreate_eq env)) (fun _ member => absurd member List.not_mem_nil) ?_
    rw [Op.step, ran]
    rfl

def twoObjects (first second : Robj) : Heap := fun handle => if handle = 0 then first else second

theorem exists_two_fed (env : Env) (eles more : List (List Byte)) (fed : eles ≠ [])
    (fedMore : more ≠ []) :
    ∃ first second, pfAddMany env (some (created env)) eles = .ok (1, some first) ∧
      pfAddMany env (some (created env)) more = .ok (1, some second) ∧
      ∀ handle, Built env (if handle = 0 then eles else more) (twoObjects first second handle) := by
  obtain ⟨first, ranFirst, builtFirst, _⟩ := exists_fed env eles fed
  obtain ⟨second, ranSecond, builtSecond, _⟩ := exists_fed env more fedMore
  refine ⟨first, second, ranFirst, ranSecond, fun handle => ?_⟩
  rw [twoObjects]
  split
  · exact builtFirst
  · exact builtSecond

/-! ### The register vectors of built objects -/

theorem sketchOf_append (first second : List (List Byte)) :
    sketchOf (first ++ second) = second.foldl patternObserver.insert (sketchOf first) := by
  rw [sketchOf, sketchOf, MaxSketch.Observer.sketch, MaxSketch.Observer.sketch,
    List.foldl_append]

def fedBy (lists : Nat → List (List Byte)) : Hll → List (List Byte)
  | none => []
  | some handle => lists handle

theorem sketchOf_flatMap (lists : Hll → List (List Byte)) (hlls : List Hll) :
    sketchOf (hlls.flatMap lists) = (hlls.map fun hll => sketchOf (lists hll)).foldr (· ⊔ ·) ⊥ := by
  rw [sketchOf, List.flatMap_def, patternObserver.sketch_flatten, List.map_map]
  rfl

private theorem absorbed_fed (o : Robj) (eles : List (List Byte))
    (lists : Nat → List (List Byte)) (heap : Heap) (target : Nat) (hlls : List Hll)
    (vector : registers o = sketchOf eles)
    (sources : ∀ source ∈ (Op.merge heap target hlls).sources,
      registers source.2 = sketchOf (lists source.1)) :
    CachedSketch.absorbed (registers o) (hlls.map (sourceVector heap target)) =
      sketchOf ((Op.merge heap target hlls).fed lists eles) := by
  rw [Op.fed, sketchOf_flatMap, CachedSketch.absorbed, List.map_map]
  congr 1
  apply List.map_congr_left
  intro hll member
  rw [Function.comp_apply]
  cases hll with
  | none => rfl
  | some handle =>
      rw [sourceVector]
      by_cases same : handle = target
      · rw [if_pos same]
        simp only [if_pos same]
        exact vector
      · rw [if_neg same]
        simp only [if_neg same]
        refine sources (handle, heap handle) (List.mem_filterMap.mpr ⟨some handle, member, ?_⟩)
        rw [Option.bind_some, if_neg same]

/-- The registers of a built object are the sketch of the elements it was fed. -/
theorem Built.registers {env : Env} {eles : List (List Byte)} {o : Robj}
    (built : Built env eles o) : registers o = sketchOf eles := by
  induction built with
  | create o made =>
      rw [hllCreate_eq] at made
      cases made
      exact registers_created env
  | step op o next reply eles lists before sources ran vector vectorSources =>
      obtain ⟨result, stepped, related⟩ := op.step_refines env o before.valid
        (fun source member => (sources source member).valid)
      rw [ran] at stepped
      cases stepped
      have array : PhpHll.registers next = (abstraction next).array := rfl
      rw [array, related.state, abstractStep, CachedSketch.Model.step_array]
      cases op with
      | add ele => rw [Op.fed, sketchOf_append, ← vector]; rfl
      | addMany more => rw [Op.fed, sketchOf_append, ← vector]; rfl
      | toDense => exact vector
      | count => exact vector
      | reload => exact vector
      | merge heap target hlls =>
          exact absorbed_fed o eles lists heap target hlls vector vectorSources

/-! ### Runs -/

/-- The run lemma: from a valid object, operations with valid sources reply as
the abstract model does and end in an object for its last state. -/
theorem run_refines_abstract (env : Env) (ops : List Op) (o : Robj) (valid : Valid env o)
    (genuine : ∀ op ∈ ops, op.Genuine env) :
    ∃ last, Machine.run (Op.step env) ops o =
        .ok ((Machine.drive (abstractStep env) ops (abstraction o)).1, last) ∧
      Related env last (Machine.drive (abstractStep env) ops (abstraction o)).2 := by
  have simulates : ∀ op o state, op.Genuine env → Related env o state →
      ∃ next, op.step env o = .ok ((abstractStep env (id op) state).1, next) ∧
        Related env next (abstractStep env (id op) state).2 := by
    intro op o state genuineOp related
    rw [← related.state]
    exact op.step_refines env o related.valid genuineOp.valid
  have ran := Machine.run_refines (Op.step env) (abstractStep env) id (Op.Genuine env)
    (Related env) simulates ops o (abstraction o) genuine ⟨valid, rfl⟩
  rwa [List.map_id] at ran

theorem Reply.ofAbstract_not_error (reply : CachedSketch.Reply (BitVec 64)) :
    ¬(Reply.ofAbstract reply).IsError := by
  cases reply with
  | changed flag => cases flag <;> simp [Reply.ofAbstract, Reply.IsError, cErr]
  | done => simp [Reply.ofAbstract, Reply.IsError, cOk, cErr]
  | summary card => simp [Reply.ofAbstract, Reply.IsError]

theorem drive_not_error (env : Env) (ops : List Op)
    (state : CachedSketch.State (Fin 16384) Nat (BitVec 64)) :
    ∀ reply ∈ (Machine.drive (abstractStep env) ops state).1, ¬reply.IsError := by
  induction ops generalizing state with
  | nil => simp [Machine.drive]
  | cons op ops ih =>
      intro reply member
      rw [Machine.drive] at member
      rcases List.mem_cons.mp member with first | later
      · rw [first]
        exact Reply.ofAbstract_not_error _
      · exact ih _ reply later

end PhpHll
