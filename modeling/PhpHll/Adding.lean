/-
Adding elements.

One sparse add is a point-wise maximum on the registers, for every payload in
the format.  From there, whatever way elements are fed to a new object, its
registers end as the maxima of their pattern lengths.
-/

import PhpHll.Operations

namespace PhpHll

open ByteMemory

/-! ### One sparse add -/

/-- `hllSparseAdd` raises one register, returns whether it did, and never
reports or trips over an error, on every payload in the format. -/
theorem hllSparseAdd_raises_register (env : Env) (o : Robj) (ele : List Byte)
    (sparse : encoding o.ptr.buf = hllSparse) (payload : SparsePayload o.ptr) :
    ∃ next,
      hllSparseAdd env o ele =
        .ok (if registers o (registerOf ele) < (hllPatLen ele).count then 1 else 0, next) ∧
      (∀ i, registers next i =
        if i = registerOf ele then max (registers o i) (hllPatLen ele).count
        else registers o i) ∧
      (SparseObject next ∨ DenseObject next) ∧
      HeaderKept o.ptr.buf next.ptr.buf := by
  have object : SparseObject o := ⟨sparse, payload⟩
  rcases hllSparseAdd_spec env o ele object with
    ⟨enough, kept⟩ | ⟨raises, next, added, raised, body⟩
  · have same := (sameString_makeRoom o 3).sameButCard
    obtain ⟨objectNext, vector⟩ := same.sparse object
    refine ⟨{ ptr := sdsMakeRoomFor o.ptr 3 }, ?_, fun i => ?_, Or.inl objectNext, ?_⟩
    · rw [kept, if_neg (Nat.not_lt.mpr enough)]
    · rw [vector, ← insert_apply, (insert_eq_self (registers o) ele).mpr enough]
    · simp only [sdsMakeRoomFor_buf]
      exact HeaderKept.refl _
  · refine ⟨next, ?_, fun i => ?_, ?_, raised.header⟩
    · rw [added, if_pos raises]
    · rw [raised.registers, insert_apply]
    · rcases body with dense | ⟨sparseNext, _short⟩
      · exact Or.inr dense
      · exact Or.inl sparseNext

theorem hllSparseAdd_raises_register_foreign :
    ∃ next, hllSparseAdd server foreign [0x61#8] =
        .ok (if registers foreign (registerOf [0x61#8]) < (hllPatLen [0x61#8]).count
          then 1 else 0, next) ∧
      (SparseObject next ∨ DenseObject next) := by
  obtain ⟨next, added, _raised, object, _header⟩ :=
    hllSparseAdd_raises_register server foreign [0x61#8] foreign_sparse.1 foreign_sparse.2
  exact ⟨next, added, object⟩

/-! ### Feeding a new object -/

def Op.elements : Op → List (List Byte)
  | .add ele => [ele]
  | .addMany eles => eles
  | _ => []

def Op.IsPlain : Op → Prop
  | .merge _ _ _ => False
  | _ => True

def fedElements (ops : List Op) : List (List Byte) := ops.flatMap Op.elements

theorem Op.IsPlain.genuine {op : Op} (plain : op.IsPlain) (env : Env) : op.Genuine env := by
  intro source member
  cases op with
  | merge heap target hlls => exact plain.elim
  | _ => cases member

/-- The array of the abstract model after a run without merges. -/
theorem drive_plain_array (env : Env) (ops : List Op)
    (state : CachedSketch.State (Fin 16384) Nat (BitVec 64)) (plain : ∀ op ∈ ops, op.IsPlain) :
    (Machine.drive (abstractStep env) ops state).2.array =
      (fedElements ops).foldl patternObserver.insert state.array := by
  induction ops generalizing state with
  | nil => rfl
  | cons op ops ih =>
      have plainOp := plain op (List.mem_cons_self ..)
      have step : (abstractStep env op state).2.array =
          op.elements.foldl patternObserver.insert state.array := by
        rw [abstractStep, CachedSketch.Model.step_array]
        cases op with
        | merge heap target hlls => exact plainOp.elim
        | _ => rfl
      rw [Machine.drive, fedElements, List.flatMap_cons, List.foldl_append, ← step]
      exact ih _ fun later member => plain later (List.mem_cons_of_mem op member)

theorem sketchOf_apply (eles : List (List Byte)) (i : Fin 16384) :
    sketchOf eles i =
      ((eles.filter fun ele => (hllPatLen ele).index = i).map
        fun ele => (hllPatLen ele).count).foldr max 0 := by
  have sameIndex : (fun ele => decide (patternObserver.bucket ele = i)) =
      fun ele => decide ((hllPatLen ele).index = i) := by
    funext ele
    apply decide_eq_decide.mpr
    exact Fin.ext_iff
  rw [sketchOf, patternObserver.sketch_apply, sameIndex]
  rfl

theorem run_plain (env : Env) (ops : List Op) (plain : ∀ op ∈ ops, op.IsPlain) :
    ∃ last, Machine.run (Op.step env) ops (created env) =
        .ok ((Machine.drive (abstractStep env) ops (abstraction (created env))).1, last) ∧
      Valid env last ∧ registers last = sketchOf (fedElements ops) := by
  obtain ⟨last, ran, related⟩ := run_refines_abstract env ops (created env) (created_valid env)
    fun op member => (plain op member).genuine env
  refine ⟨last, ran, related.valid, ?_⟩
  have array := drive_plain_array env ops (abstraction (created env)) plain
  rw [← related.state] at array
  have start : (abstraction (created env)).array = ⊥ := registers_created env
  rw [start] at array
  exact array

private theorem pfAdd_reports_change {env : Env} {o : Robj} (valid : Valid env o)
    (ele : List Byte) :
    ∃ next, (pfAdd env (some o) ele = .ok (1, some next) ∧ registers next ≠ registers o) ∨
      (pfAdd env (some o) ele = .ok (0, some next) ∧ registers next = registers o ∧
        SameBytes o next) := by
  rw [pfAdd_eq_pfAddMany]
  rcases pfAddMany_spec valid [ele] with ⟨_unchanged, next, ran, same⟩ | ⟨changed, next, ran, grown⟩
  · exact ⟨next, Or.inr ⟨ran, valid.registers_sameBytes same, same⟩⟩
  · exact ⟨next, Or.inl ⟨ran, by rw [grown.registers]; exact changed⟩⟩

/-- Elements fed to a new object, one by one or in batches, with promotions,
counts and reloads anywhere between: no call fails, every register is the
maximum of the pattern lengths that belong to it, a further `pfAdd` reports
exactly the changes of the registers, and only the set of elements matters. -/
theorem fed_registers_are_maxima (env : Env) (ops : List Op) (plain : ∀ op ∈ ops, op.IsPlain) :
    ∃ o replies last,
      hllCreate env = .ok o ∧
      Machine.run (Op.step env) ops o = .ok (replies, last) ∧
      (∀ reply ∈ replies, ¬reply.IsError) ∧
      (∀ i, registers last i =
        (((fedElements ops).filter fun ele => (hllPatLen ele).index = i).map
          fun ele => (hllPatLen ele).count).foldr max 0) ∧
      (∀ ele, ∃ next,
        (pfAdd env (some last) ele = .ok (1, some next) ∧ registers next ≠ registers last) ∨
        (pfAdd env (some last) ele = .ok (0, some next) ∧ registers next = registers last ∧
          SameBytes last next)) ∧
      ∀ others, (∀ op ∈ others, op.IsPlain) →
        (∀ ele, ele ∈ fedElements others ↔ ele ∈ fedElements ops) →
        ∃ otherReplies otherLast,
          Machine.run (Op.step env) others o = .ok (otherReplies, otherLast) ∧
          registers otherLast = registers last := by
  obtain ⟨last, ran, valid, vector⟩ := run_plain env ops plain
  refine ⟨created env, _, last, hllCreate_eq env, ran, drive_not_error env ops _, fun i => ?_,
    fun ele => pfAdd_reports_change valid ele, fun others plainOthers sameElements => ?_⟩
  · rw [vector, sketchOf_apply]
  · obtain ⟨otherLast, otherRan, _otherValid, otherVector⟩ := run_plain env others plainOthers
    refine ⟨_, otherLast, otherRan, ?_⟩
    rw [otherVector, vector]
    exact patternObserver.sketch_eq_of_mem_iff _ _ sameElements

theorem fed_registers_are_maxima_three :
    ∃ o replies last,
      hllCreate server = .ok o ∧
      Machine.run (Op.step server)
        [.add [0x61#8], .toDense, .addMany [[0x62#8], [0x61#8]], .count, .reload] o =
          .ok (replies, last) ∧
      ∀ reply ∈ replies, ¬reply.IsError := by
  obtain ⟨o, replies, last, made, ran, fine, _⟩ := fed_registers_are_maxima server
    [.add [0x61#8], .toDense, .addMany [[0x62#8], [0x61#8]], .count, .reload]
    (by simp [Op.IsPlain])
  exact ⟨o, replies, last, made, ran, fine⟩

end PhpHll
