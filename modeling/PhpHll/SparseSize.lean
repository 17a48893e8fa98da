/-
The size of a sparse object and the promotions it leads to.

No two zero opcodes are neighbours, so a payload takes at most three bytes for
each non-zero register and two more.  This holds just behind a split as well,
which is where the size is tested: an add promotes only for a pattern length
that a VAL cannot say, or when the non-zero registers are too many.
-/

import PhpHll.SparseNormal
import PhpHll.Batches

namespace PhpHll

open ByteMemory

/-! ### Non-zero registers -/

def nonZero (vector : Fin 16384 → Nat) : Nat := (Finset.univ.filter fun i => vector i ≠ 0).card

def nonZeros (registers : List Nat) : Nat := registers.countP fun reg => reg ≠ 0

theorem nonZero_getD (list : List Nat) (sized : list.length = 16384) :
    nonZero (fun i => list.getD i 0) = nonZeros list := by
  have listed :
      (Finset.univ.val.map fun i : Fin 16384 => list.getD i 0) = (list : Multiset Nat) := by
    rw [Fin.univ_val_map, ofFn_getD 16384 list sized]
  have counted := Multiset.countP_map (fun i : Fin 16384 => list.getD i 0) Finset.univ.val
    fun reg => reg ≠ 0
  rw [listed, Multiset.coe_countP] at counted
  exact counted.symm

theorem nonZero_mono {first second : Fin 16384 → Nat} (below : first ≤ second) :
    nonZero first ≤ nonZero second := by
  apply Finset.card_le_card
  intro i member
  rw [Finset.mem_filter] at member ⊢
  have step : first i ≤ second i := below i
  have positive : first i ≠ 0 := member.2
  exact ⟨member.1, by omega⟩

theorem nonZeros_expandAll_cons (opcode : Opcode) (opcodes : List Opcode) :
    nonZeros (expandAll (opcode :: opcodes)) =
      (if opcode.value = 0 then 0 else opcode.length) + nonZeros (expandAll opcodes) := by
  rw [expandAll_cons, nonZeros, nonZeros, List.countP_append, List.countP_replicate]
  by_cases zero : opcode.value = 0
  · simp [zero]
  · simp [zero]

/-! ### Sizes -/

theorem Opcode.size_of_value {opcode : Opcode} (positive : opcode.value ≠ 0) :
    opcode.size = 1 := by
  cases opcode with
  | zero count => exact absurd rfl positive
  | xzero high low => exact absurd rfl positive
  | val value count => rfl

/-- A zero opcode is paid for by the non-zero one before it, but for a zero
opcode at the start. -/
theorem sizeAll_le_nonZeros (opcodes : List Opcode)
    (zeros : opcodes.IsChain fun first second => ¬first.BothZero second) :
    sizeAll opcodes ≤ 3 * nonZeros (expandAll opcodes) + 2 ∧
      ((∀ head ∈ opcodes.head?, head.value ≠ 0) →
        sizeAll opcodes ≤ 3 * nonZeros (expandAll opcodes)) := by
  induction opcodes with
  | nil => exact ⟨Nat.zero_le _, fun _ => Nat.zero_le _⟩
  | cons opcode opcodes ih =>
      obtain ⟨apart, chain⟩ := List.isChain_cons.mp zeros
      obtain ⟨general, afterValue⟩ := ih chain
      rw [sizeAll_cons, nonZeros_expandAll_cons]
      by_cases zero : opcode.value = 0
      · have short := opcode.size_le
        have rest := afterValue fun head member headZero => apart head member ⟨zero, headZero⟩
        rw [if_pos zero]
        exact ⟨by omega, fun first => absurd zero (first opcode rfl)⟩
      · have size := Opcode.size_of_value zero
        have long := opcode.length_pos
        rw [if_neg zero, size]
        exact ⟨by omega, fun _ => by omega⟩

theorem SparseObject.len_le {o : Robj} (sparse : SparseObject o) (normal : SparseNormal o) :
    o.ptr.len ≤ 18 + 3 * nonZero (registers o) := by
  have vector : registers o = fun i : Fin 16384 => (expandAll (payloadOpcodes o.ptr)).getD i 0 := by
    funext i
    exact registers_of_sparse o sparse.notDense i
  have sized := sparse.2.sized
  have bound := (sizeAll_le_nonZeros _ (normal sparse).zeros).1
  rw [vector, nonZero_getD _ (by rw [expandAll_length, sparse.2.covered])]
  rw [hllHdrSize] at sized
  omega

/-- The size that an add tests is bounded by the registers it would leave. -/
theorem Covering.tooLong_nonZero {env : Env} {o : Robj} {ele : List Byte}
    (sparse : SparseObject o) (normal : SparseNormal o)
    (raises : registers o (registerOf ele) < (hllPatLen ele).count)
    (small : (hllPatLen ele).count ≤ 32) (covering : Covering o.ptr (hllPatLen ele))
    (tooLong : SplitTooLong env o.ptr.len covering.opcode (sizeAll covering.seq)) :
    env.hll_sparse_max_bytes <
      18 + 3 * nonZero (patternObserver.insert (registers o) ele) := by
  have positive := (hllPatLen_count_bounds ele).1
  have lower := covering.lower
  have upper := covering.upper
  have zeros := (normal sparse).zeros
  have sized := sparse.2.sized
  have expanded := expandAll_split covering.before covering.after covering.opcode
    (hllPatLen ele).count (hllPatLen ele).index positive small lower upper
  have vector : patternObserver.insert (registers o) ele = fun i : Fin 16384 =>
      ((expandAll (payloadOpcodes o.ptr)).set (hllPatLen ele).index (hllPatLen ele).count).getD
        i 0 := by
    funext i
    exact (sparse.getD_set_expandAll ele raises i).symm
  rw [vector, nonZero_getD _ (by rw [List.length_set, expandAll_length, sparse.2.covered])]
  rw [covering.split] at zeros sized ⊢
  rw [← expanded]
  have firstInside : (hllPatLen ele).index - lengthAll covering.before ≤
      covering.opcode.length := by omega
  have lastInside : lengthAll covering.before + covering.opcode.length - 1 -
      (hllPatLen ele).index ≤ covering.opcode.length := by omega
  have bound := (sizeAll_le_nonZeros _
    (zeros_split positive small firstInside lastInside zeros)).1
  obtain ⟨grows, exceeds⟩ := tooLong
  rw [Covering.seq] at grows exceeds
  rw [sizeAll_append, sizeAll_append] at bound
  rw [sizeAll_append, sizeAll_cons, hllHdrSize] at sized
  omega

/-! ### Promotions -/

/-- An add that leaves a dense object in place of a sparse one was forced to. -/
theorem hllSparseAdd_forced {env : Env} {o next : Robj} {ele : List Byte} {retval : Int}
    (sparse : SparseObject o) (normal : SparseNormal o)
    (added : hllSparseAdd env o ele = .ok (retval, next)) (dense : encoding next.ptr.buf = hllDense) :
    retval = 1 ∧ registers next = patternObserver.insert (registers o) ele ∧
      registers o (registerOf ele) < (hllPatLen ele).count ∧
      (32 < (hllPatLen ele).count ∨
        env.hll_sparse_max_bytes < 18 + 3 * nonZero (registers next)) := by
  rcases hllSparseAdd_cases env o ele sparse.notDense sparse.2 with
    ⟨_enough, kept⟩ | ⟨_raises, _small, covering, _fits, result, edited, addedTo⟩ |
      ⟨raises, reason, promotes⟩
  · rw [added] at kept
    cases kept
    rw [sdsMakeRoomFor_buf] at dense
    exact absurd dense sparse.notDense
  · rw [added] at edited
    cases edited
    exact absurd (addedTo.encoding_eq.symm.trans dense) sparse.notDense
  · rcases hllSparseAdd_spec env o ele sparse with
      ⟨enough, _kept⟩ | ⟨_raises, result, raised, change, _body⟩
    · exact absurd raises (Nat.not_lt.mpr enough)
    · rw [added] at promotes raised
      cases promotes
      cases raised
      refine ⟨rfl, change.registers, raises, ?_⟩
      by_cases large : 32 < (hllPatLen ele).count
      · exact Or.inl large
      · obtain ⟨covering, tooLong⟩ := reason.resolve_left large
        rw [change.registers]
        exact Or.inr (covering.tooLong_nonZero sparse normal raises (Nat.le_of_not_lt large) tooLong)

/-- What the registers of a dense object say when no operation but adds can have
made it dense. -/
def Forced (env : Env) (vector : Fin 16384 → Nat) : Prop :=
  (∃ i, 32 < vector i) ∨ env.hll_sparse_max_bytes < 18 + 3 * nonZero vector

theorem Forced.mono {env : Env} {first second : Fin 16384 → Nat} (forced : Forced env first)
    (below : first ≤ second) : Forced env second := by
  rcases forced with ⟨i, large⟩ | many
  · exact Or.inl ⟨i, Nat.lt_of_lt_of_le large (below i)⟩
  · have more := nonZero_mono below
    exact Or.inr (by omega)

/-- The invariant of objects that are fed: in normal form while sparse, and
dense only when forced. -/
structure FedObject (env : Env) (o : Robj) : Prop where
  normal : SparseNormal o
  forced : DenseObject o → Forced env (registers o)

theorem hllAdd_fed {env : Env} {o next : Robj} {ele : List Byte} {retval : Int}
    (valid : Valid env o) (fed : FedObject env o) (added : hllAdd env o ele = .ok (retval, next)) :
    FedObject env next := by
  refine ⟨(keptByAdds_sparseNormal env).add o ele retval next valid fed.normal added, ?_⟩
  intro denseNext
  rcases valid.wellFormed.body with dense | sparse
  · apply (fed.forced dense).mono
    rcases hllAdd_spec valid ele with
      ⟨_enough, result, kept, same⟩ | ⟨_raises, result, raised, _valid, vector, _header⟩
    · rw [added] at kept
      cases kept
      rw [valid.registers_sameBytes same]
    · rw [added] at raised
      cases raised
      rw [vector]
      exact patternObserver.le_insert (registers o) ele
  · rw [hllAdd, if_neg sparse.notDense, if_pos sparse.1] at added
    obtain ⟨_one, vector, raises, reason⟩ :=
      hllSparseAdd_forced sparse fed.normal added denseNext.1
    rcases reason with large | many
    · refine Or.inl ⟨registerOf ele, ?_⟩
      rw [vector, insert_of_lt _ _ raises, if_pos rfl]
      exact large
    · exact Or.inr many

theorem keptByAdds_fed (env : Env) : KeptByAdds env (FedObject env) := by
  constructor
  · intro o ele retval next valid fed added
    exact hllAdd_fed valid fed added
  · intro o next valid same fed
    refine ⟨(keptByAdds_sparseNormal env).same o next valid same fed.normal, fun denseNext => ?_⟩
    rw [valid.registers_sameButCard same]
    rcases valid.wellFormed.body with dense | sparse
    · exact fed.forced dense
    · exact absurd denseNext.1 (same.sparse sparse).1.notDense

theorem fedObject_created (env : Env) : FedObject env (created env) :=
  ⟨sparseNormal_created env, fun dense => absurd dense.1 (created_sparse env).notDense⟩

/-- The invariant over a whole run of feeding operations. -/
theorem run_fed {env : Env} {ops : List Op} {replies : List Reply} {last : Robj}
    (feeding : ∀ op ∈ ops, op.IsFeeding)
    (ran : Machine.run (Op.step env) ops (created env) = .ok (replies, last)) :
    Valid env last ∧ FedObject env last := by
  apply Machine.run_invariant (Op.step env) Op.IsFeeding
    (fun o => Valid env o ∧ FedObject env o) _ ops (created env) last replies feeding
    ⟨created_valid env, fedObject_created env⟩ ran
  intro op o reply next feedingOp before stepped
  obtain ⟨valid, fed⟩ := before
  refine ⟨?_, (keptByAdds_fed env).step feedingOp valid fed stepped⟩
  obtain ⟨result, refined, related⟩ := op.step_refines env o valid
    (feedingOp.genuine env).valid
  rw [stepped] at refined
  cases refined
  exact related.valid

/-! ### Where a batch promotes -/

theorem Valid.sparseObject {env : Env} {o : Robj} (valid : Valid env o)
    (sparse : encoding o.ptr.buf = hllSparse) : SparseObject o := by
  rcases valid.wellFormed.body with dense | object
  · exact absurd dense.1 (notDense_of_sparse sparse)
  · exact object

theorem pfAdd_forced {env : Env} {o next : Robj} {ele : List Byte} {retval : Int}
    (valid : Valid env o) (normal : SparseNormal o) (sparse : encoding o.ptr.buf = hllSparse)
    (added : pfAdd env (some o) ele = .ok (retval, some next))
    (dense : encoding next.ptr.buf = hllDense) :
    32 < (hllPatLen ele).count ∨
      env.hll_sparse_max_bytes < 18 + 3 * nonZero (registers next) := by
  have object := valid.sparseObject sparse
  have notErr : ¬(0 : Int) = -1 := by decide
  have notErr' : ¬(1 : Int) = -1 := by decide
  have notOne : ¬(0 : Int) = 1 := by decide
  rw [pfAdd, if_neg (not_not.mpr valid.accepted)] at added
  rcases hllAdd_spec valid ele with
    ⟨_enough, result, kept, same⟩ | ⟨_raises, result, raised, validNext, _vector, _header⟩
  · rw [kept] at added
    simp only [if_neg notErr, if_neg notOne] at added
    cases added
    rw [same.buf] at dense
    exact absurd dense object.notDense
  · rw [raised] at added
    simp only [if_neg notErr', if_true] at added
    cases added
    rw [encoding_invalidate] at dense
    rw [hllAdd, if_neg object.notDense, if_pos object.1] at raised
    rw [validNext.registers_sameButCard (sameButCard_invalidate result)]
    exact (hllSparseAdd_forced object normal raised dense).2.2.2

/-- One `pfAdd` on a valid object, as the next element of a batch meets it. -/
private theorem pfAdd_valid {env : Env} {o : Robj} (valid : Valid env o) (normal : SparseNormal o)
    (ele : List Byte) :
    ∃ retval next, pfAdd env (some o) ele = .ok (retval, some next) ∧ retval ≠ cErr ∧
      Valid env next ∧ SparseNormal next := by
  have notErr : (0 : Int) ≠ cErr := by decide
  have notErr' : (1 : Int) ≠ cErr := by decide
  rw [pfAdd_eq_pfAddMany]
  rcases pfAddMany_spec valid [ele] with ⟨_unchanged, next, ran, same⟩ | ⟨_changed, next, ran, grown⟩
  · exact ⟨0, next, ran, notErr, valid.of_sameBytes same,
      (keptByAdds_sparseNormal env).batch valid normal ran⟩
  · exact ⟨1, next, ran, notErr', grown.valid valid,
      (keptByAdds_sparseNormal env).batch valid normal ran⟩

/-- Single adds that turn a sparse object dense do so at one of the elements. -/
theorem pfAddEach_crossing {env : Env} {eles : List (List Byte)} {o last : Robj}
    {retvals : List Int} (valid : Valid env o) (normal : SparseNormal o)
    (sparse : encoding o.ptr.buf = hllSparse)
    (ran : pfAddEach env eles o = .ok (retvals, last)) (dense : encoding last.ptr.buf = hllDense) :
    ∃ before ele after retvalsBefore middle retval turned,
      eles = before ++ ele :: after ∧
      pfAddEach env before o = .ok (retvalsBefore, middle) ∧
      encoding middle.ptr.buf = hllSparse ∧
      pfAdd env (some middle) ele = .ok (retval, some turned) ∧
      encoding turned.ptr.buf = hllDense ∧
      (32 < (hllPatLen ele).count ∨
        env.hll_sparse_max_bytes < 18 + 3 * nonZero (registers turned)) := by
  induction eles generalizing o retvals with
  | nil =>
      cases ran
      exact absurd dense (notDense_of_sparse sparse)
  | cons ele eles ih =>
      obtain ⟨retval, next, added, fine, validNext, normalNext⟩ := pfAdd_valid valid normal ele
      rw [pfAddEach, added] at ran
      simp only [if_neg fine, Option.getD_some] at ran
      rcases validNext.wellFormed.body with denseNext | sparseNext
      · exact ⟨[], ele, eles, [], o, retval, next, rfl, rfl, sparse, added, denseNext.1,
          pfAdd_forced valid normal sparse added denseNext.1⟩
      · cases rest : pfAddEach env eles next with
        | error abort =>
            rw [rest] at ran
            cases ran
        | ok result =>
            rw [rest] at ran
            cases ran
            obtain ⟨before, turning, after, retvalsBefore, middle, status, turned, split, reached,
              facts⟩ := ih validNext normalNext sparseNext.1 rest
            refine ⟨ele :: before, turning, after, retval :: retvalsBefore, middle, status, turned,
              by rw [split, List.cons_append], ?_, facts⟩
            rw [pfAddEach, added]
            simp only [if_neg fine, Option.getD_some, reached]

/-- Elements fed to a new object in any order, one by one or in batches, with
counts and reloads between, for any size limit: a sparse object takes at most
`18 + 3 * k` bytes for `k` non-zero registers, and the add that turns it dense
has a pattern length above 32 or leaves `k` with `18 + 3 * k` above the limit. -/
theorem no_premature_promotion (env : Env) (ops : List Op) (feeding : ∀ op ∈ ops, op.IsFeeding) :
    ∃ o replies last,
      hllCreate env = .ok o ∧
      Machine.run (Op.step env) ops o = .ok (replies, last) ∧
      (encoding last.ptr.buf = hllSparse ∨ encoding last.ptr.buf = hllDense) ∧
      (encoding last.ptr.buf = hllSparse → last.ptr.len ≤ 18 + 3 * nonZero (registers last)) ∧
      (encoding last.ptr.buf = hllSparse →
        ∀ ele retval next, pfAdd env (some last) ele = .ok (retval, some next) →
          encoding next.ptr.buf = hllDense →
          32 < (hllPatLen ele).count ∨
            env.hll_sparse_max_bytes < 18 + 3 * nonZero (registers next)) ∧
      (encoding last.ptr.buf = hllSparse →
        ∀ eles retval next, pfAddMany env (some last) eles = .ok (retval, some next) →
          encoding next.ptr.buf = hllDense →
          ∃ before ele after retvals middle status turned,
            eles = before ++ ele :: after ∧
            pfAddEach env before last = .ok (retvals, middle) ∧
            encoding middle.ptr.buf = hllSparse ∧
            pfAdd env (some middle) ele = .ok (status, some turned) ∧
            encoding turned.ptr.buf = hllDense ∧
            (32 < (hllPatLen ele).count ∨
              env.hll_sparse_max_bytes < 18 + 3 * nonZero (registers turned))) ∧
      ((∀ i, registers last i ≤ 32) → 18 + 3 * nonZero (registers last) ≤ env.hll_sparse_max_bytes →
        encoding last.ptr.buf = hllSparse) ∧
      (env.hll_sparse_max_bytes = 3000 → nonZero (registers last) ≤ 994 →
        (∀ i, registers last i ≤ 32) → encoding last.ptr.buf = hllSparse) := by
  obtain ⟨last, ran, _related⟩ := run_refines_abstract env ops (created env) (created_valid env)
    fun op member => (feeding op member).genuine env
  obtain ⟨valid, fed⟩ := run_fed feeding ran
  have unforced (small : ∀ i, registers last i ≤ 32)
      (few : 18 + 3 * nonZero (registers last) ≤ env.hll_sparse_max_bytes) :
      encoding last.ptr.buf = hllSparse := by
    rcases valid.wellFormed.body with dense | sparse
    · rcases fed.forced dense with ⟨i, large⟩ | many
      · exact absurd large (Nat.not_lt.mpr (small i))
      · omega
    · exact sparse.1
  refine ⟨created env, _, last, hllCreate_eq env, ran, ?_, fun sparse => ?_,
    fun sparse ele retval next added dense => ?_, fun sparse eles retval next added dense => ?_,
    unforced, fun limit few small => unforced small (by omega)⟩
  · rcases valid.wellFormed.body with dense | sparse
    · exact Or.inr dense.1
    · exact Or.inl sparse.1
  · exact (valid.sparseObject sparse).len_le fed.normal
  · exact pfAdd_forced valid fed.normal sparse added dense
  · rw [pfAddMany_each env eles valid.accepted] at added
    cases each : pfAddEach env eles last with
    | error abort =>
        rw [each] at added
        cases added
    | ok result =>
        rw [each] at added
        cases added
        exact pfAddEach_crossing valid fed.normal sparse each dense

theorem no_premature_promotion_three :
    ∃ o replies last,
      hllCreate server = .ok o ∧
      Machine.run (Op.step server) [.add [0x61#8], .addMany [[0x62#8], [0x61#8]], .reload] o =
        .ok (replies, last) ∧
      (encoding last.ptr.buf = hllSparse → last.ptr.len ≤ 18 + 3 * nonZero (registers last)) := by
  obtain ⟨o, replies, last, made, ran, _encoding, short, _⟩ := no_premature_promotion server
    [.add [0x61#8], .addMany [[0x62#8], [0x61#8]], .reload] (by simp [Op.IsFeeding])
  exact ⟨o, replies, last, made, ran, short⟩

end PhpHll
