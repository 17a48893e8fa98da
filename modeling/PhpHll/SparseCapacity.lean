/-
How much a sparse object holds.

In normal form at most one zero opcode more than there are VALs stands between
them, and one of two bytes covers at least 65 of the 16384 registers.  So `k`
non-zero registers take at most `269 + 2 * k` bytes with the header, and with
the limit of the source 1365 of them never force a promotion.
-/

import PhpHll.Adding
import PhpHll.SparseSize

namespace PhpHll

open ByteMemory

/-! ### Sizes -/

/-- The opcodes of two bytes. -/
def longZeros (opcodes : List Opcode) : Nat := opcodes.countP fun opcode => opcode.size = 2

theorem sizeAll_eq_longZeros (opcodes : List Opcode) :
    sizeAll opcodes = opcodes.length + longZeros opcodes := by
  induction opcodes with
  | nil => rfl
  | cons opcode opcodes ih =>
      have positive := opcode.size_pos
      have short := opcode.size_le
      rw [sizeAll_cons, ih, List.length_cons, longZeros, longZeros, List.countP_cons]
      by_cases long : opcode.size = 2
      · simp only [long, decide_true, if_true]
        omega
      · simp only [long, decide_false, Bool.false_eq_true, if_false]
        omega

theorem longZeros_le (opcodes : List Opcode) (runs : ∀ opcode ∈ opcodes, opcode.Canonical) :
    65 * longZeros opcodes ≤ lengthAll opcodes := by
  induction opcodes with
  | nil => exact Nat.zero_le _
  | cons opcode opcodes ih =>
      rw [List.forall_mem_cons] at runs
      have rest := ih runs.2
      rw [longZeros, List.countP_cons, lengthAll_cons]
      rw [longZeros] at rest
      by_cases long : opcode.size = 2
      · have zero : opcode.value = 0 := by
          by_contra positive
          have one := Opcode.size_of_value positive
          omega
        have covers : ¬opcode.length ≤ 64 := fun few => by
          have one := (runs.1 zero).mpr few
          omega
        simp only [long, decide_true, if_true]
        omega
      · simp only [long, decide_false, Bool.false_eq_true, if_false]
        omega

/-- A zero opcode is counted with the VAL before it, but for one at the start. -/
theorem length_le_nonZeros (opcodes : List Opcode)
    (zeros : opcodes.IsChain fun first second => ¬first.BothZero second) :
    opcodes.length ≤ 2 * nonZeros (expandAll opcodes) + 1 ∧
      ((∀ head ∈ opcodes.head?, head.value ≠ 0) →
        opcodes.length ≤ 2 * nonZeros (expandAll opcodes)) := by
  induction opcodes with
  | nil => exact ⟨Nat.zero_le _, fun _ => Nat.zero_le _⟩
  | cons opcode opcodes ih =>
      obtain ⟨apart, chain⟩ := List.isChain_cons.mp zeros
      obtain ⟨general, afterValue⟩ := ih chain
      rw [List.length_cons, nonZeros_expandAll_cons]
      by_cases zero : opcode.value = 0
      · have rest := afterValue fun head member headZero => apart head member ⟨zero, headZero⟩
        rw [if_pos zero]
        exact ⟨by omega, fun first => absurd zero (first opcode rfl)⟩
      · have long := opcode.length_pos
        rw [if_neg zero]
        exact ⟨by omega, fun _ => by omega⟩

theorem sizeAll_le_capacity (opcodes : List Opcode)
    (zeros : opcodes.IsChain fun first second => ¬first.BothZero second)
    (runs : ∀ opcode ∈ opcodes, opcode.Canonical) (covered : lengthAll opcodes = 16384) :
    sizeAll opcodes ≤ 2 * nonZeros (expandAll opcodes) + 253 := by
  have count := (length_le_nonZeros opcodes zeros).1
  have long := longZeros_le opcodes runs
  rw [sizeAll_eq_longZeros]
  omega

theorem SparseObject.len_le_capacity {o : Robj} (sparse : SparseObject o)
    (normal : SparseNormal o) : o.ptr.len ≤ 269 + 2 * nonZero (registers o) := by
  have vector : registers o = fun i : Fin 16384 => (expandAll (payloadOpcodes o.ptr)).getD i 0 := by
    funext i
    exact registers_of_sparse o sparse.notDense i
  have sized := sparse.2.sized
  have bound := sizeAll_le_capacity _ (normal sparse).zeros (normal sparse).runs sparse.2.covered
  rw [vector, nonZero_getD _ (by rw [expandAll_length, sparse.2.covered])]
  rw [hllHdrSize] at sized
  omega

/-! ### Promotions -/

/-- The size that an add tests is bounded by the registers it would leave. -/
theorem Covering.tooLong_capacity {env : Env} {o : Robj} {ele : List Byte}
    (sparse : SparseObject o) (normal : SparseNormal o)
    (raises : registers o (registerOf ele) < (hllPatLen ele).count)
    (small : (hllPatLen ele).count ≤ 32) (covering : Covering o.ptr (hllPatLen ele))
    (tooLong : SplitTooLong env o.ptr.len covering.opcode (sizeAll covering.seq)) :
    env.hll_sparse_max_bytes <
      269 + 2 * nonZero (patternObserver.insert (registers o) ele) := by
  have positive := (hllPatLen_count_bounds ele).1
  have lower := covering.lower
  have upper := covering.upper
  have zeros := (normal sparse).zeros
  have runs := (normal sparse).runs
  have sized := sparse.2.sized
  have covered := sparse.2.covered
  have expanded := expandAll_split covering.before covering.after covering.opcode
    (hllPatLen ele).count (hllPatLen ele).index positive small lower upper
  have vector : patternObserver.insert (registers o) ele = fun i : Fin 16384 =>
      ((expandAll (payloadOpcodes o.ptr)).set (hllPatLen ele).index (hllPatLen ele).count).getD
        i 0 := by
    funext i
    exact (sparse.getD_set_expandAll ele raises i).symm
  rw [vector, nonZero_getD _ (by rw [List.length_set, expandAll_length, covered])]
  rw [covering.split] at zeros runs sized covered ⊢
  have others : ∀ kept ∈ covering.before ++ covering.after, kept.Canonical := by
    obtain ⟨beforeRuns, restRuns⟩ := List.forall_mem_append.mp runs
    exact List.forall_mem_append.mpr ⟨beforeRuns, (List.forall_mem_cons.mp restRuns).2⟩
  have firstInside : (hllPatLen ele).index - lengthAll covering.before ≤
      covering.opcode.length := by omega
  have lastInside : lengthAll covering.before + covering.opcode.length - 1 -
      (hllPatLen ele).index ≤ covering.opcode.length := by omega
  have coveredSplit := congrArg List.length expanded
  rw [List.length_set, expandAll_length, expandAll_length, covered] at coveredSplit
  rw [← expanded]
  have bound := sizeAll_le_capacity _ (zeros_split positive small firstInside lastInside zeros)
    (canonical_split positive small firstInside lastInside others) coveredSplit
  obtain ⟨grows, exceeds⟩ := tooLong
  rw [Covering.seq] at grows exceeds
  rw [sizeAll_append, sizeAll_append] at bound
  rw [sizeAll_append, sizeAll_cons, hllHdrSize] at sized
  omega

/-- What makes room for a promotion: a register that a VAL cannot say, or many
registers. -/
def Filled (env : Env) (vector : Fin 16384 → Nat) : Prop :=
  (∃ i, 32 < vector i) ∨ env.hll_sparse_max_bytes < 269 + 2 * nonZero vector

theorem Filled.mono {env : Env} {first second : Fin 16384 → Nat} (filled : Filled env first)
    (below : first ≤ second) : Filled env second := by
  rcases filled with ⟨i, large⟩ | many
  · exact Or.inl ⟨i, Nat.lt_of_lt_of_le large (below i)⟩
  · have more := nonZero_mono below
    exact Or.inr (by omega)

theorem hllSparseAdd_filled {env : Env} {o next : Robj} {ele : List Byte} {retval : Int}
    (sparse : SparseObject o) (normal : SparseNormal o)
    (added : hllSparseAdd env o ele = .ok (retval, next)) (dense : DenseObject next) :
    Filled env (registers next) := by
  obtain ⟨_one, vector, raises, _reason⟩ := hllSparseAdd_forced sparse normal added dense.1
  have raised : registers next (registerOf ele) = (hllPatLen ele).count := by
    rw [vector, insert_of_lt _ _ raises, if_pos rfl]
  rcases hllSparseAdd_cases env o ele sparse.notDense sparse.2 with
    ⟨enough, _kept⟩ | ⟨_raises, _small, _covering, _fits, result, edited, addedTo⟩ |
      ⟨_raises, reason, _promotes⟩
  · exact absurd raises (Nat.not_lt.mpr enough)
  · rw [added] at edited
    cases edited
    exact absurd (addedTo.encoding_eq.symm.trans dense.1) sparse.notDense
  · by_cases large : 32 < (hllPatLen ele).count
    · exact Or.inl ⟨registerOf ele, by rw [raised]; exact large⟩
    · obtain ⟨covering, tooLong⟩ := reason.resolve_left large
      rw [vector]
      exact Or.inr
        (covering.tooLong_capacity sparse normal raises (Nat.le_of_not_lt large) tooLong)

/-- The invariant of objects that are fed: in normal form while sparse, and
dense only when filled. -/
structure FilledObject (env : Env) (o : Robj) : Prop where
  normal : SparseNormal o
  filled : DenseObject o → Filled env (registers o)

theorem filledObject_created (env : Env) : FilledObject env (created env) :=
  ⟨sparseNormal_created env, fun dense => absurd dense.1 (created_sparse env).notDense⟩

theorem hllAdd_filled {env : Env} {o next : Robj} {ele : List Byte} {retval : Int}
    (valid : Valid env o) (before : FilledObject env o)
    (added : hllAdd env o ele = .ok (retval, next)) : FilledObject env next := by
  refine ⟨(keptByAdds_sparseNormal env).add o ele retval next valid before.normal added, ?_⟩
  intro denseNext
  rcases valid.wellFormed.body with dense | sparse
  · apply (before.filled dense).mono
    rcases hllAdd_spec valid ele with
      ⟨_enough, result, kept, same⟩ | ⟨_raises, result, raised, _valid, vector, _header⟩
    · rw [added] at kept
      cases kept
      rw [valid.registers_sameBytes same]
    · rw [added] at raised
      cases raised
      rw [vector]
      exact patternObserver.le_insert (registers o) ele
  · rw [hllAdd, if_neg sparse.notDense, if_pos sparse.1] at added
    exact hllSparseAdd_filled sparse before.normal added denseNext

theorem keptByAdds_filled (env : Env) : KeptByAdds env (FilledObject env) := by
  constructor
  · intro o ele retval next valid before added
    exact hllAdd_filled valid before added
  · intro o next valid same before
    refine ⟨(keptByAdds_sparseNormal env).same o next valid same before.normal, fun denseNext => ?_⟩
    rw [valid.registers_sameButCard same]
    rcases valid.wellFormed.body with dense | sparse
    · exact before.filled dense
    · exact absurd denseNext.1 (same.sparse sparse).1.notDense

/-! ### In terms of the elements -/

/-- A register is raised by one of the elements. -/
theorem exists_of_le_sketchOf {eles : List (List Byte)} {i : Fin 16384} {rank : Nat}
    (positive : 0 < rank) (below : rank ≤ sketchOf eles i) :
    ∃ ele ∈ eles, registerOf ele = i ∧ rank ≤ (hllPatLen ele).count := by
  rcases (patternObserver.le_foldl_insert_apply_iff eles ⊥ i rank).mp below with bottom | raised
  · exact absurd bottom (Nat.not_le_of_lt positive)
  · exact raised

theorem nonZero_sketchOf_le (eles : List (List Byte)) :
    nonZero (sketchOf eles) ≤ eles.toFinset.card := by
  have image : (Finset.univ.filter fun i => sketchOf eles i ≠ 0) ⊆
      eles.toFinset.image registerOf := by
    intro i member
    have positive := Nat.pos_of_ne_zero (Finset.mem_filter.mp member).2
    obtain ⟨ele, listed, here, _rank⟩ := exists_of_le_sketchOf (Nat.zero_lt_one) positive
    exact Finset.mem_image.mpr ⟨ele, List.mem_toFinset.mpr listed, here⟩
  exact (Finset.card_le_card image).trans Finset.card_image_le

theorem Filled.elements {env : Env} {eles : List (List Byte)}
    (filled : Filled env (sketchOf eles)) :
    (∃ ele ∈ eles, 32 < (hllPatLen ele).count) ∨
      env.hll_sparse_max_bytes < 269 + 2 * eles.toFinset.card := by
  rcases filled with ⟨i, large⟩ | many
  · obtain ⟨ele, member, _here, count⟩ := exists_of_le_sketchOf (Nat.succ_pos 32) large
    exact Or.inl ⟨ele, member, count⟩
  · have few := nonZero_sketchOf_le eles
    exact Or.inr (by omega)

theorem Op.IsFeeding.isPlain {op : Op} (feeding : op.IsFeeding) : op.IsPlain := by
  cases op with
  | merge heap target hlls => exact feeding.elim
  | _ => exact trivial

/-- The invariant over a whole run of feeding operations, with the registers
that the elements leave. -/
private theorem run_filled (env : Env) {ops : List Op} (feeding : ∀ op ∈ ops, op.IsFeeding) :
    ∃ replies last, Machine.run (Op.step env) ops (created env) = .ok (replies, last) ∧
      (∀ reply ∈ replies, ¬reply.IsError) ∧
      Valid env last ∧ FilledObject env last ∧ registers last = sketchOf (fedElements ops) := by
  obtain ⟨last, ran, _valid, vector⟩ := run_plain env ops fun op member =>
    (feeding op member).isPlain
  have kept : Valid env last ∧ FilledObject env last := by
    apply Machine.run_invariant (Op.step env) Op.IsFeeding
      (fun o => Valid env o ∧ FilledObject env o) _ ops (created env) last _ feeding
      ⟨created_valid env, filledObject_created env⟩ ran
    intro op o reply next feedingOp before stepped
    obtain ⟨valid, filled⟩ := before
    obtain ⟨result, refined, relatedNext⟩ := op.step_refines env o valid
      (feedingOp.genuine env).valid
    refine ⟨?_, (keptByAdds_filled env).step feedingOp valid filled stepped⟩
    rw [stepped] at refined
    cases refined
    exact relatedNext.valid
  exact ⟨_, last, ran, drive_not_error env ops _, kept.1, kept.2, vector⟩

/-- However elements are fed, with counts and reloads between: no call fails and
the registers are those of the elements; a sparse object takes at most
`269 + 2 * k` bytes for `k` distinct elements, and it is sparse as
long as no pattern length is above 32 and that many bytes stay within the limit,
which is so for 1365 elements and the limit of the source. -/
theorem fed_stay_sparse (env : Env) (ops : List Op) (feeding : ∀ op ∈ ops, op.IsFeeding) :
    ∃ o replies last,
      hllCreate env = .ok o ∧
      Machine.run (Op.step env) ops o = .ok (replies, last) ∧
      (∀ reply ∈ replies, ¬reply.IsError) ∧
      registers last = sketchOf (fedElements ops) ∧
      (encoding last.ptr.buf = hllSparse →
        last.ptr.len ≤ 269 + 2 * (fedElements ops).toFinset.card) ∧
      ((∀ ele ∈ fedElements ops, (hllPatLen ele).count ≤ 32) →
        269 + 2 * (fedElements ops).toFinset.card ≤ env.hll_sparse_max_bytes →
        encoding last.ptr.buf = hllSparse) ∧
      ((∀ ele ∈ fedElements ops, (hllPatLen ele).count ≤ 32) →
        env.hll_sparse_max_bytes = server.hll_sparse_max_bytes →
        (fedElements ops).toFinset.card ≤ 1365 → encoding last.ptr.buf = hllSparse) := by
  obtain ⟨replies, last, ran, fine, valid, before, vector⟩ := run_filled env feeding
  have stays (small : ∀ ele ∈ fedElements ops, (hllPatLen ele).count ≤ 32)
      (few : 269 + 2 * (fedElements ops).toFinset.card ≤ env.hll_sparse_max_bytes) :
      encoding last.ptr.buf = hllSparse := by
    rcases valid.wellFormed.body with dense | sparse
    · have filled := before.filled dense
      rw [vector] at filled
      rcases filled.elements with ⟨ele, member, large⟩ | many
      · exact absurd large (Nat.not_lt.mpr (small ele member))
      · omega
    · exact sparse.1
  refine ⟨created env, replies, last, hllCreate_eq env, ran, fine, vector, fun sparse => ?_,
    stays, fun small limit few => stays small ?_⟩
  · have short := (valid.sparseObject sparse).len_le_capacity before.normal
    have few := nonZero_sketchOf_le (fedElements ops)
    rw [vector] at short
    omega
  · have same : env.hll_sparse_max_bytes = 3000 := limit
    omega

theorem fed_stay_sparse_three :
    ∃ o replies last,
      hllCreate server = .ok o ∧
      Machine.run (Op.step server) [.add [0x61#8], .addMany [[0x62#8], [0x61#8]], .reload] o =
        .ok (replies, last) ∧
      (∀ reply ∈ replies, ¬reply.IsError) ∧ encoding last.ptr.buf = hllSparse := by
  obtain ⟨o, replies, last, made, ran, fine, _vector, _short, _stays, stay⟩ :=
    fed_stay_sparse server [.add [0x61#8], .addMany [[0x62#8], [0x61#8]], .reload]
      (by simp [Op.IsFeeding])
  exact ⟨o, replies, last, made, ran, fine, stay (by decide +kernel) rfl (by decide)⟩

end PhpHll
