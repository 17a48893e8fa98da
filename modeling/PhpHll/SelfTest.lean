/-
The self-test.

The second part adds elements to a dense register array and to an object at the
same time, and at every power of ten it looks at the encoding of the object and
compares the two counts.  Whatever random numbers it is given, the counts agree,
and the object is dense too early only if one of its elements has a pattern
length that the sparse encoding cannot say.  What is left to fail is the
estimate.
-/

import PhpHll.RegisterArray
import PhpHll.SparseCapacity

namespace PhpHll

open ByteMemory Machine

/-! ### `pfselftestCommand` -/

inductive SelfTestEnd
  | abort (abort : Abort)
  | register (i : Nat)
  | sparseNotUsed
  | denseSparseDisagree
  | tooBigError (checkpoint : Nat) (abserr : BitVec 64)

structure Approximation where
  bitcounters : Sds
  o : Robj

def selfTestElement (seed : BitVec 64) (j : Nat) : List Byte :=
  (List.range 8).map fun k => ((BitVec.ofNat 64 j ^^^ seed) >>> (8 * k)).setWidth 8

def absoluteError (checkpoint : Nat) (card : BitVec 64) : BitVec 64 :=
  let abserr := BitVec.ofNat 64 checkpoint - card
  if abserr.toInt < 0 then -abserr else abserr

/-- What is checked when `j == checkpoint`; `maxerr` stands for
`ceil(relerr*6*checkpoint)`. -/
def approximationCheck (env : Env) (maxerr : Nat → BitVec 64) (j : Nat) (test : Approximation) :
    Except SelfTestEnd Unit :=
  if j < env.hll_sparse_max_bytes / 2 ∧ encoding test.o.ptr.buf ≠ hllSparse then
    .error .sparseNotUsed
  else
    match hllCount env test.bitcounters.buf test.bitcounters.len with
    | .error abort => .error (.abort abort)
    | .ok (dense, _) =>
        match hllCount env test.o.ptr.buf test.o.ptr.len with
        | .error abort => .error (.abort abort)
        | .ok (sparse, _) =>
            if dense ≠ sparse then .error .denseSparseDisagree
            else
              let abserr := absoluteError j dense
              let maxerr := if j = 10 then 1 else maxerr j
              if abserr.toInt > maxerr.toInt then .error (.tooBigError j abserr) else .ok ()

def approximationAdd (env : Env) (test : Approximation) (ele : List Byte) :
    Except SelfTestEnd Approximation :=
  match hllAdd env test.o ele with
  | .error abort => .error (.abort abort)
  | .ok (_, o) =>
      let counters := (hllDenseAdd test.bitcounters.buf hllHdrSize ele).2
      .ok { bitcounters := { test.bitcounters with buf := counters }, o := o }

def approximationLoop (env : Env) (maxerr : Nat → BitVec 64) (seed : BitVec 64) :
    Nat → Nat → Nat → Approximation → Except SelfTestEnd Unit
  | 0, _, _, _ => .ok ()
  | turns + 1, j, checkpoint, test =>
      match approximationAdd env test (selfTestElement seed j) with
      | .error stop => .error stop
      | .ok test =>
          if j = checkpoint then
            match approximationCheck env maxerr j test with
            | .error stop => .error stop
            | .ok () => approximationLoop env maxerr seed turns (j + 1) (checkpoint * 10) test
          else approximationLoop env maxerr seed turns (j + 1) checkpoint test

def hllTestCycles : Nat := 1000

def hllTestElements : Nat := 10000000

def selfTestApproximation (env : Env) (createHLLObject : Except Abort Robj)
    (maxerr : Nat → BitVec 64) (bitcounters : Sds) (seed : BitVec 64) : Except SelfTestEnd Unit :=
  let counters := memset bitcounters.buf hllHdrSize 0 (hllDenseSize - hllHdrSize)
  match createHLLObject with
  | .error abort => .error (.abort abort)
  | .ok o =>
      approximationLoop env maxerr seed hllTestElements 1 1
        { bitcounters := { bitcounters with buf := counters }, o := o }

def selfTestContinue (env : Env) (createHLLObject : Except Abort Robj)
    (maxerr : Nat → BitVec 64) (bitcounters : Sds) (seed : BitVec 64) :
    Except Nat (List Unit × SelfTest) → Except SelfTestEnd Unit
  | .error i => .error (.register i)
  | .ok (_, test) =>
      selfTestApproximation env createHLLObject maxerr
        { bitcounters with buf := test.registers } seed

/-- `rands` are the values of `rand` in the first part, by cycle and turn, `low`
and `high` those of the second; `bytecounters` is what the stack holds. -/
def pfselftestCommand (env : Env) (createHLLObject : Except Abort Robj)
    (maxerr : Nat → BitVec 64) (bytecounters : Nat → Byte) (rands : Nat → Nat → BitVec 32)
    (low high : BitVec 32) : Except SelfTestEnd Unit :=
  let bitcounters := sdsnewlenZero env hllDenseSize
  selfTestContinue env createHLLObject maxerr bitcounters
    (low.setWidth 64 ||| high.setWidth 64 <<< 32)
    (run (selfTestCycle hllHdrSize) ((List.range hllTestCycles).map rands)
      { registers := bitcounters.buf, bytecounters := bytecounters })

/-! ### One turn -/

def addedElements (seed : BitVec 64) (turns : Nat) : List (List Byte) :=
  (List.range turns).map fun i => selfTestElement seed (i + 1)

/-- After some turns the counters and the object have the same registers, those
of the elements so far. -/
structure Approximates (env : Env) (seed : BitVec 64) (turns : Nat) (test : Approximation) :
    Prop where
  dense : DenseObject { ptr := test.bitcounters }
  counters : registers { ptr := test.bitcounters } = sketchOf (addedElements seed turns)
  valid : Valid env test.o
  filled : FilledObject env test.o
  object : registers test.o = sketchOf (addedElements seed turns)

def Excusable (env : Env) (seed : BitVec 64) : SelfTestEnd → Prop
  | .tooBigError _ _ => True
  | .sparseNotUsed => ∃ k, 10 ^ k < env.hll_sparse_max_bytes / 2 ∧
      ((∃ ele ∈ addedElements seed (10 ^ k), 32 < (hllPatLen ele).count) ∨
        env.hll_sparse_max_bytes < 269 + 2 * 10 ^ k)
  | _ => False

theorem sketchOf_addedElements (seed : BitVec 64) (turns : Nat) :
    sketchOf (addedElements seed (turns + 1)) =
      patternObserver.insert (sketchOf (addedElements seed turns))
        (selfTestElement seed (turns + 1)) := by
  rw [addedElements, addedElements, List.range_succ, List.map_append, List.map_singleton, sketchOf,
    sketchOf, MaxSketch.Observer.sketch, MaxSketch.Observer.sketch, List.foldl_append,
    List.foldl_cons, List.foldl_nil]

theorem hllDenseAdd_counters {counters : Sds} (dense : DenseObject { ptr := counters })
    (ele : List Byte) :
    DenseObject
        { ptr := { counters with buf := (hllDenseAdd counters.buf hllHdrSize ele).2 } } ∧
      registers
          { ptr := { counters with buf := (hllDenseAdd counters.buf hllHdrSize ele).2 } } =
        patternObserver.insert (registers { ptr := counters }) ele := by
  have added := hllDenseAdd_object { ptr := counters } ele dense.1
  by_cases raises : registers { ptr := counters } (registerOf ele) < (hllPatLen ele).count
  · rw [if_pos raises] at added
    rw [added]
    refine ⟨⟨?_, dense.2⟩, registers_raiseDense { ptr := counters } ele dense.1 raises⟩
    exact (raiseDense_encoding { ptr := counters } ele).trans dense.1
  · rw [if_neg raises] at added
    rw [added, (insert_eq_self _ ele).mpr (Nat.le_of_not_lt raises)]
    exact ⟨dense, rfl⟩

theorem hllCount_dense (env : Env) {o : Robj} (dense : DenseObject o) :
    hllCount env o.ptr.buf o.ptr.len = .ok (countOf env (registers o), false) := by
  have vector : registers o = fun i : Fin 16384 => denseRegister o.ptr.buf hllHdrSize i := by
    funext i
    exact registers_of_dense o dense.1 i
  rw [hllCount, if_pos dense.1, hllDenseSum_eq, ← vector]
  rfl

theorem hllAdd_registers {env : Env} {o : Robj} (valid : Valid env o) (ele : List Byte) :
    ∃ retval next, hllAdd env o ele = .ok (retval, next) ∧
      registers next = patternObserver.insert (registers o) ele := by
  rcases hllAdd_spec valid ele with
    ⟨enough, next, kept, same⟩ | ⟨_raises, next, raised, _valid, vector, _header⟩
  · refine ⟨0, next, kept, ?_⟩
    rw [valid.registers_sameBytes same, (insert_eq_self _ ele).mpr enough]
  · exact ⟨1, next, raised, vector⟩

private theorem addedElements_card (seed : BitVec 64) (turns : Nat) :
    (addedElements seed turns).toFinset.card ≤ turns := by
  have few := List.toFinset_card_le (addedElements seed turns)
  rwa [addedElements, List.length_map, List.length_range] at few

theorem Approximates.check {env : Env} {seed : BitVec 64} {k : Nat} {test : Approximation}
    (approximates : Approximates env seed (10 ^ k) test) (maxerr : Nat → BitVec 64) :
    approximationCheck env maxerr (10 ^ k) test = .ok () ∨
      ∃ stop, approximationCheck env maxerr (10 ^ k) test = .error stop ∧
        Excusable env seed stop := by
  have dense := hllCount_dense env approximates.dense
  have sparse := hllCount_spec env approximates.valid.wellFormed
  rw [approximates.counters] at dense
  rw [approximates.object] at sparse
  rw [approximationCheck]
  by_cases early : 10 ^ k < env.hll_sparse_max_bytes / 2 ∧ encoding test.o.ptr.buf ≠ hllSparse
  · rw [if_pos early]
    refine Or.inr ⟨.sparseNotUsed, rfl, k, early.1, ?_⟩
    rcases approximates.valid.wellFormed.body with denseObject | sparseObject
    · have filled := approximates.filled.filled denseObject
      rw [approximates.object] at filled
      have few := addedElements_card seed (10 ^ k)
      rcases filled.elements with large | many
      · exact Or.inl large
      · exact Or.inr (by omega)
    · exact absurd sparseObject.1 early.2
  · rw [if_neg early]
    simp only [dense, sparse, ne_eq, not_true_eq_false, if_false]
    generalize (if 10 ^ k = 10 then (1 : BitVec 64) else maxerr (10 ^ k)) = bound
    by_cases tooBig : (absoluteError (10 ^ k)
        (countOf env (sketchOf (addedElements seed (10 ^ k))))).toInt > bound.toInt
    · rw [if_pos tooBig]
      exact Or.inr ⟨_, rfl, trivial⟩
    · rw [if_neg tooBig]
      exact Or.inl rfl

theorem Approximates.add {env : Env} {seed : BitVec 64} {turns : Nat} {test : Approximation}
    (approximates : Approximates env seed turns test) :
    ∃ next, approximationAdd env test (selfTestElement seed (turns + 1)) = .ok next ∧
      Approximates env seed (turns + 1) next := by
  obtain ⟨dense, counters⟩ :=
    hllDenseAdd_counters approximates.dense (selfTestElement seed (turns + 1))
  obtain ⟨retval, o, added, object⟩ :=
    hllAdd_registers approximates.valid (selfTestElement seed (turns + 1))
  rw [approximates.counters, ← sketchOf_addedElements] at counters
  rw [approximates.object, ← sketchOf_addedElements] at object
  rw [approximationAdd, added]
  exact ⟨_, rfl, dense, counters, hllAdd_valid approximates.valid added,
    hllAdd_filled approximates.valid approximates.filled added, object⟩

/-- The run lemma, by induction on the turns left. -/
theorem Approximates.loop {env : Env} {seed : BitVec 64} (maxerr : Nat → BitVec 64) (left : Nat)
    {turns k : Nat} {test : Approximation} (approximates : Approximates env seed turns test) :
    approximationLoop env maxerr seed left (turns + 1) (10 ^ k) test = .ok () ∨
      ∃ stop, approximationLoop env maxerr seed left (turns + 1) (10 ^ k) test = .error stop ∧
        Excusable env seed stop := by
  induction left generalizing turns k test with
  | zero => exact Or.inl rfl
  | succ left ih =>
      obtain ⟨next, added, approximatesNext⟩ := approximates.add
      rw [approximationLoop, added]
      simp only
      by_cases reached : turns + 1 = 10 ^ k
      · rw [reached] at approximatesNext ⊢
        rw [if_pos rfl]
        rcases approximatesNext.check maxerr with passed | ⟨stop, failed, excusable⟩
        · rw [passed, ← pow_succ, ← reached]
          rw [← reached] at approximatesNext
          exact ih approximatesNext
        · rw [failed]
          exact Or.inr ⟨stop, rfl, excusable⟩
      · rw [if_neg reached]
        exact ih approximatesNext

/-! ### The command -/

theorem selfTestFill_header (rand : Nat → BitVec 32) (p : Nat) (test : SelfTest) (turns : Nat)
    (valid : turns ≤ hllRegisters) (offset : Nat) (front : offset < p) :
    (selfTestFill rand p test turns).registers offset = test.registers offset := by
  induction turns with
  | zero => rfl
  | succ turns ih =>
      have inside : turns < 16384 := valid
      have small := masked_lt (rand turns)
      have fits : ((rand turns &&& hllRegisterMax.setWidth 32).setWidth 64).toNat < 64 := by
        rw [BitVec.toNat_setWidth, Nat.mod_eq_of_lt (by omega)]
        exact small
      have kept := hllDenseSetRegister_outside (selfTestFill rand p test turns).registers p turns _
        fits inside offset (Or.inl front)
      exact kept.trans (ih (Nat.le_of_succ_le valid))

private theorem selfTestCycles_header (rands : List (Nat → BitVec 32)) (test : SelfTest) :
    ∃ results last, run (selfTestCycle hllHdrSize) rands test = .ok (results, last) ∧
      encoding last.registers = encoding test.registers := by
  refine run_returns (selfTestCycle hllHdrSize) (fun _ => True)
    (fun last => encoding last.registers = encoding test.registers) ?_ rands test
    (fun _ _ => trivial) rfl
  intro rand between _admissible same
  refine ⟨(), _, selfTestCycle_passes rand hllHdrSize between, ?_⟩
  have kept := selfTestFill_header rand hllHdrSize between hllRegisters (Nat.le_refl _) 4 (by decide)
  rw [encoding, encoding] at same ⊢
  rw [kept, same]

private theorem approximates_start (env : Env) (seed : BitVec 64) (bitcounters : Sds)
    (dense : DenseObject { ptr := bitcounters }) :
    Approximates env seed 0
      { bitcounters :=
          { bitcounters with
            buf := memset bitcounters.buf hllHdrSize 0 (hllDenseSize - hllHdrSize) }
        o := created env } := by
  have kept : encoding (memset bitcounters.buf hllHdrSize 0 (hllDenseSize - hllHdrSize)) =
      hllDense := dense.1
  refine ⟨⟨kept, dense.2⟩, ?_, created_valid env, filledObject_created env,
    registers_created env⟩
  funext i
  have vector := registers_of_dense
    { ptr :=
        { bitcounters with
          buf := memset bitcounters.buf hllHdrSize 0 (hllDenseSize - hllHdrSize) } } kept i
  refine vector.trans ((denseRegister_eq_of_area _ (fun _ => 0) hllHdrSize i i.isLt ?_).trans ?_)
  · intro offset lower upper
    exact if_pos ⟨lower, upper⟩
  · simp [denseRegister, hllDenseGetRegister]
    rfl

private theorem selfTestApproximation_excusable (env : Env) (maxerr : Nat → BitVec 64)
    (bitcounters : Sds) (seed : BitVec 64) (dense : DenseObject { ptr := bitcounters }) :
    selfTestApproximation env (hllCreate env) maxerr bitcounters seed = .ok () ∨
      ∃ stop, selfTestApproximation env (hllCreate env) maxerr bitcounters seed = .error stop ∧
        Excusable env seed stop := by
  have loop := (approximates_start env seed bitcounters dense).loop (k := 0) maxerr hllTestElements
  rw [pow_zero, Nat.zero_add] at loop
  rw [hllCreate_eq, selfTestApproximation]
  exact loop

private theorem pfselftestCommand_continues (env : Env) (maxerr : Nat → BitVec 64)
    (bytecounters : Nat → Byte) (rands : Nat → Nat → BitVec 32) (low high : BitVec 32) :
    ∃ bitcounters, DenseObject { ptr := bitcounters } ∧
      pfselftestCommand env (hllCreate env) maxerr bytecounters rands low high =
        selfTestApproximation env (hllCreate env) maxerr bitcounters
          (low.setWidth 64 ||| high.setWidth 64 <<< 32) := by
  obtain ⟨results, test, ran, header⟩ := selfTestCycles_header
    ((List.range hllTestCycles).map rands)
    { registers := (sdsnewlenZero env hllDenseSize).buf, bytecounters := bytecounters }
  have zeroed : encoding (sdsnewlenZero env hllDenseSize).buf = hllDense := by
    have inside : 4 ≤ hllDenseSize := by decide
    simp only [encoding, sdsnewlenZero, if_pos inside]
    rfl
  refine ⟨{ sdsnewlenZero env hllDenseSize with buf := test.registers },
    ⟨header.trans zeroed, rfl⟩, ?_⟩
  rw [pfselftestCommand, ran, selfTestContinue]

/-- The encoding is asked for at 10, 100 and 1000 elements, which are too few to
fill the sparse string of the source. -/
private theorem Excusable.long_pattern {env : Env} {seed : BitVec 64}
    (limit : env.hll_sparse_max_bytes = server.hll_sparse_max_bytes)
    (excusable : Excusable env seed .sparseNotUsed) :
    ∃ j, 1 ≤ j ∧ j ≤ 1000 ∧ 32 < (hllPatLen (selfTestElement seed j)).count := by
  obtain ⟨k, early, reason⟩ := excusable
  have bytes : env.hll_sparse_max_bytes = 3000 := limit
  have small : 10 ^ k ≤ 1000 := by
    by_contra large
    have fourth : 3 < k := by
      by_contra below
      exact large (Nat.pow_le_pow_right (by decide) (Nat.le_of_not_lt below))
    have power : 10 ^ 4 ≤ 10 ^ k := Nat.pow_le_pow_right (by decide) fourth
    omega
  rcases reason with ⟨ele, member, count⟩ | many
  · obtain ⟨i, below, rfl⟩ := List.mem_map.mp member
    have inside := List.mem_range.mp below
    exact ⟨i + 1, by omega, by omega, count⟩
  · omega

/-- Whatever `rand` returns, the test passes or ends with an error of the
estimate, but for a sparse object that was promoted early because one of the
first elements has a pattern length above 32. -/
theorem pfselftestCommand_default (env : Env)
    (limit : env.hll_sparse_max_bytes = server.hll_sparse_max_bytes) (maxerr : Nat → BitVec 64)
    (bytecounters : Nat → Byte) (rands : Nat → Nat → BitVec 32) (low high : BitVec 32) :
    pfselftestCommand env (hllCreate env) maxerr bytecounters rands low high = .ok () ∨
      (∃ checkpoint abserr,
        pfselftestCommand env (hllCreate env) maxerr bytecounters rands low high =
          .error (.tooBigError checkpoint abserr)) ∨
      (pfselftestCommand env (hllCreate env) maxerr bytecounters rands low high =
          .error .sparseNotUsed ∧
        ∃ j, 1 ≤ j ∧ j ≤ 1000 ∧
          32 < (hllPatLen (selfTestElement
            (low.setWidth 64 ||| high.setWidth 64 <<< 32) j)).count) := by
  obtain ⟨bitcounters, dense, command⟩ :=
    pfselftestCommand_continues env maxerr bytecounters rands low high
  rw [command]
  rcases selfTestApproximation_excusable env maxerr bitcounters
    (low.setWidth 64 ||| high.setWidth 64 <<< 32) dense with passed | ⟨stop, failed, excusable⟩
  · exact Or.inl passed
  · rw [failed]
    cases stop with
    | tooBigError checkpoint abserr => exact Or.inr (Or.inl ⟨checkpoint, abserr, rfl⟩)
    | sparseNotUsed => exact Or.inr (Or.inr ⟨rfl, excusable.long_pattern limit⟩)
    | _ => exact excusable.elim

/-- The test under the settings of the source, where `rand` returns zeros only. -/
theorem pfselftestCommand_default_zeros :
    pfselftestCommand server (hllCreate server) (fun _ => 0) (fun _ => 0) (fun _ _ => 0) 0 0 =
        .ok () ∨
      (∃ checkpoint abserr,
        pfselftestCommand server (hllCreate server) (fun _ => 0) (fun _ => 0) (fun _ _ => 0) 0 0 =
          .error (.tooBigError checkpoint abserr)) ∨
      (pfselftestCommand server (hllCreate server) (fun _ => 0) (fun _ => 0) (fun _ _ => 0) 0 0 =
          .error .sparseNotUsed ∧
        ∃ j, 1 ≤ j ∧ j ≤ 1000 ∧
          32 < (hllPatLen (selfTestElement
            ((0#32).setWidth 64 ||| (0#32).setWidth 64 <<< 32) j)).count) :=
  pfselftestCommand_default server rfl (fun _ => 0) (fun _ => 0) (fun _ _ => 0) 0 0

end PhpHll
