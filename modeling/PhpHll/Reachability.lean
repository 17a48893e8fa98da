/-
What holds of every object built by this code.

The representation invariant and the coherence of the cached cardinality are
carried from `hllCreate` through every operation, merges of built objects
included.
-/

import PhpHll.Operations

namespace PhpHll

open ByteMemory

/-! ### The representation -/

/-- Every built object has the header and one of the two bodies of the format;
it and its dump are accepted; no operation on it fails or stops the process. -/
theorem reachable_representation (env : Env) (o : Robj) (reachable : Reachable env o) :
    (∃ new, hllCreate env = .ok new) ∧
    readBytes o.ptr.buf 0 4 = hllMagic ∧
    readBytes o.ptr.buf 5 3 = [0, 0, 0] ∧
    ((encoding o.ptr.buf = hllDense ∧ o.ptr.len = 16 + 12288 ∧ ∀ i, registers o i ≤ 50) ∨
      (encoding o.ptr.buf = hllSparse ∧ SparsePayload o.ptr ∧
        o.ptr.len ≤ max 18 env.hll_sparse_max_bytes)) ∧
    isHLLObjectOrReply (some o) = cOk ∧
    (∃ raw loaded, hllRaw env (some o) = some raw ∧ isHLLObjectOrReply (some { ptr := raw }) = cOk ∧
      hllLoad env raw = (cOk, some loaded)) ∧
    (∀ op : Op, op.Genuine env →
      ∃ reply next, op.step env o = .ok (reply, next) ∧ ¬reply.IsError) ∧
    ∀ (heap : Heap) (handles : List Nat), (∀ handle ∈ handles, Reachable env (heap handle)) →
      ∃ card after, pfCountMerged env heap (handles.map some) = .ok (.card card, after) := by
  have valid := reachable.valid
  have validDump := sdsdup_valid valid
  refine ⟨⟨created env, hllCreate_eq env⟩, valid.magic, valid.notused, ?_, valid.accepted,
    ⟨sdsdup env o.ptr, _, rfl, validDump.accepted, hllLoad_spec validDump⟩, ?_, ?_⟩
  · rcases valid.body with ⟨dense, bounded⟩ | ⟨sparse, short⟩
    · exact Or.inl ⟨dense.1, dense.2.trans hllDenseSize_eq, bounded⟩
    · exact Or.inr ⟨sparse.1, sparse.2, short⟩
  · intro op genuine
    obtain ⟨next, stepped, _related⟩ := op.step_refines env o valid genuine.valid
    exact ⟨_, next, stepped, Reply.ofAbstract_not_error _⟩
  · intro heap handles all
    exact pfCountMerged_card heap handles fun handle member => (all handle member).valid

/-- An object fed two elements and a second one it is merged with. -/
theorem reachable_representation_fed :
    ∃ o source, pfAddMany server (some (created server)) [[0x61#8], [0x62#8]] = .ok (1, some o) ∧
      pfAddMany server (some (created server)) [[0x63#8]] = .ok (1, some source) ∧
      isHLLObjectOrReply (some o) = cOk ∧
      (∃ raw loaded, hllRaw server (some o) = some raw ∧
        hllLoad server raw = (cOk, some loaded)) ∧
      (∃ reply next, (Op.merge (fun _ => source) 0 [some 1, none, some 0]).step server o =
        .ok (reply, next) ∧ ¬reply.IsError) ∧
      ∃ card after, pfCountMerged server (twoObjects o source) ([1, 0, 1].map some) =
        .ok (.card card, after) := by
  obtain ⟨o, source, fed, fedSource, built⟩ :=
    exists_two_fed server [[0x61#8], [0x62#8]] [[0x63#8]] (by decide) (by decide)
  obtain ⟨_new, _magic, _notused, _body, accepted, dump, operations, merged⟩ :=
    reachable_representation server o ⟨_, built 0⟩
  refine ⟨o, source, fed, fedSource, accepted, ?_, ?_,
    merged (twoObjects o source) [1, 0, 1] fun handle _listed => ⟨_, built handle⟩⟩
  · obtain ⟨raw, loaded, dumped, _accepted, back⟩ := dump
    exact ⟨raw, loaded, dumped, back⟩
  · refine operations (.merge (fun _ => source) 0 [some 1, none, some 0]) fun read member => ?_
    cases List.mem_singleton.mp member
    exact ⟨_, built 1⟩

/-! ### The cached cardinality -/

theorem countOf_empty (env : Env) : countOf env ⊥ = env.estimate 16384 16384 := by
  have sum : registerSum ⊥ = { E := 16384, ez := 16384 } := by
    simp [registerSum, PE, zeroCount]
  rw [countOf, sum]

theorem Op.step_coherent (env : Env) (op : Op) (o next : Robj) (reply : Reply)
    (valid : Valid env o) (sources : ∀ source ∈ op.sources, Valid env source.2)
    (ran : op.step env o = .ok (reply, next))
    (coherent : (counterModel env).Coherent (abstraction o)) :
    (counterModel env).Coherent (abstraction next) := by
  obtain ⟨result, stepped, related⟩ := op.step_refines env o valid sources
  rw [ran] at stepped
  cases stepped
  rw [related.state]
  exact (counterModel env).coherent_step op.abstract (abstraction o) coherent

theorem Built.coherent {env : Env} (empty : env.estimate 16384 16384 = 0) {eles : List (List Byte)}
    {o : Robj} (built : Built env eles o) : (counterModel env).Coherent (abstraction o) := by
  induction built with
  | create o made =>
      rw [hllCreate_eq] at made
      cases made
      intro value stored
      have zero : some 0 = some value := (cachedCard_created env).symm.trans stored
      have vector : (abstraction (created env)).array = ⊥ := registers_created env
      rw [vector, ← Option.some.inj zero]
      exact (countOf_empty env).trans empty |>.symm
  | step op o next reply eles lists before sources ran coherent _ =>
      exact op.step_coherent env o next reply before.valid
        (fun source member => (sources source member).valid) ran coherent

theorem pfCount_coherent {env : Env} {o : Robj} (formed : WellFormed o)
    (coherent : (counterModel env).Coherent (abstraction o)) :
    ∃ next, pfCount env (some o) = .ok (.card (countOf env (registers o)), some next) ∧
      WellFormed next ∧ (counterModel env).Coherent (abstraction next) ∧
      registers next = registers o ∧ next.ptr.len = o.ptr.len ∧
      ∀ offset, offset < 8 ∨ 16 ≤ offset → next.ptr.buf offset = o.ptr.buf offset := by
  have count := pfCount_spec env formed
  cases cached : cachedCard o.ptr.buf with
  | some card =>
      rw [cached] at count
      have same : card = countOf env (registers o) := coherent card cached
      rw [same] at count
      exact ⟨o, count, formed, coherent, rfl, rfl, fun _ _ => rfl⟩
  | none =>
      rw [cached] at count
      have vector : registers (counted o (countOf env (registers o))) = registers o :=
        formed.registers_sameButCard (sameButCard_writeCard o _)
      refine ⟨_, count, formed.of_sameButCard (sameButCard_writeCard o _), ?_, vector, rfl,
        fun offset outside => ?_⟩
      · intro value stored
        have cache := cachedCard_writeCard o.ptr.buf (countOf env (registers o))
        have kept : (if (countOf env (registers o)).getLsbD 63 = true then none
            else some (countOf env (registers o))) = some value := cache.symm.trans stored
        have array : (abstraction (counted o (countOf env (registers o)))).array = registers o :=
          vector
        rw [array]
        split at kept
        · cases kept
        · exact (Option.some.inj kept).symm
      · exact writeCard_outside o.ptr.buf _ offset outside

/-- A cardinality that is not marked stale is the count of the registers, and
`pfCount` returns that count on either path and changes only the cardinality. -/
theorem reachable_cache_coherent (env : Env) (empty : env.estimate 16384 16384 = 0) (o : Robj)
    (reachable : Reachable env o) :
    ((o.ptr.buf 15).getLsbD 7 = false →
      hllCount env o.ptr.buf o.ptr.len = .ok (readCard o.ptr.buf, false)) ∧
    ∃ next last,
      hllCount env o.ptr.buf o.ptr.len = .ok (countOf env (registers o), false) ∧
      pfCount env (some o) = .ok (.card (countOf env (registers o)), some next) ∧
      pfCount env (some next) = .ok (.card (countOf env (registers o)), some last) ∧
      next.ptr.len = o.ptr.len ∧
      ∀ offset, offset < 8 ∨ 16 ≤ offset → next.ptr.buf offset = o.ptr.buf offset := by
  obtain ⟨eles, built⟩ := reachable
  have formed := built.valid.wellFormed
  have coherent := built.coherent empty
  have count := hllCount_spec env formed
  obtain ⟨next, first, formedNext, coherentNext, vector, len, outside⟩ :=
    pfCount_coherent formed coherent
  obtain ⟨last, second, _⟩ := pfCount_coherent formedNext coherentNext
  rw [vector] at second
  refine ⟨fun clear => ?_, next, last, count, first, second, len, outside⟩
  have isValid : hllValidCache o.ptr.buf = true := by
    rw [hllValidCache_iff, getLsbD_readCard _ _ (by decide)]
    exact clear
  have cached : cachedCard o.ptr.buf = some (readCard o.ptr.buf) := if_pos isValid
  have same : readCard o.ptr.buf = countOf env (registers o) := coherent _ cached
  rw [count, same]

/-- Counts the registers that are not zero. -/
def countingServer : Env :=
  { server with estimate := fun _ zeros => BitVec.ofInt 64 (16384 - zeros) }

/-- The first count of an object that has been added to finds a stale cache, the
second one a valid cache. -/
theorem reachable_cache_coherent_fed :
    ∃ o next last,
      pfAddMany countingServer (some (created countingServer)) [[0x61#8], [0x62#8]] =
        .ok (1, some o) ∧
      cachedCard o.ptr.buf = none ∧
      pfCount countingServer (some o) =
        .ok (.card (countOf countingServer (registers o)), some next) ∧
      pfCount countingServer (some next) =
        .ok (.card (countOf countingServer (registers o)), some last) := by
  obtain ⟨o, fed, built, stale⟩ := exists_fed countingServer [[0x61#8], [0x62#8]] (by decide)
  obtain ⟨_cached, next, last, _count, first, second, _kept⟩ :=
    reachable_cache_coherent countingServer (by decide) o ⟨_, built⟩
  exact ⟨o, next, last, fed, stale, first, second⟩

end PhpHll
