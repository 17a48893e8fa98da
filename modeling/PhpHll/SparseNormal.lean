/-
The normal form of the objects this code builds.

What every add keeps, and every change of the cardinality alone, holds of an
object whatever is done with it that does not convert it.  The normal form of
the payload is such a property, and a dense object has no payload to keep it.
-/

import PhpHll.NormalForm
import PhpHll.Operations

namespace PhpHll

open ByteMemory

/-! ### Properties kept by adds -/

/-- What every add keeps, and every change of the cardinality alone. -/
structure KeptByAdds (env : Env) (Holds : Robj → Prop) : Prop where
  add : ∀ o ele retval next, Valid env o → Holds o → hllAdd env o ele = .ok (retval, next) →
    Holds next
  same : ∀ o next, Valid env o → SameButCard o next → Holds o → Holds next

/-- The operations that neither convert an object nor write registers into it. -/
def Op.IsFeeding : Op → Prop
  | .toDense => False
  | .merge _ _ _ => False
  | _ => True

theorem Op.IsFeeding.genuine {op : Op} (feeding : op.IsFeeding) (env : Env) : op.Genuine env := by
  intro source member
  cases op with
  | merge heap target hlls => exact feeding.elim
  | _ => cases member

theorem hllAdd_valid {env : Env} {o next : Robj} {ele : List Byte} {retval : Int}
    (valid : Valid env o) (added : hllAdd env o ele = .ok (retval, next)) : Valid env next := by
  rcases hllAdd_spec valid ele with
    ⟨_enough, result, kept, same⟩ | ⟨_raises, result, raised, validNext, _vector, _header⟩
  · rw [added] at kept
    cases kept
    exact valid.of_sameBytes same
  · rw [added] at raised
    cases raised
    exact validNext

section Keep

variable {env : Env} {Holds : Robj → Prop}

theorem KeptByAdds.loop (keep : KeptByAdds env Holds) (eles : List (List Byte))
    (updated : Nat) {o next : Robj} {retval : Int} (valid : Valid env o) (holds : Holds o)
    (ran : pfAddManyLoop env eles updated o = .ok (retval, next)) : Holds next := by
  induction eles generalizing updated o with
  | nil =>
      rw [pfAddManyLoop] at ran
      split at ran
      · cases ran
        exact keep.same o _ valid (sameButCard_invalidate o) holds
      · cases ran
        exact holds
  | cons ele eles ih =>
      rw [pfAddManyLoop] at ran
      cases added : hllAdd env o ele with
      | error abort =>
          rw [added] at ran
          cases ran
      | ok pair =>
          obtain ⟨status, between⟩ := pair
          have validBetween := hllAdd_valid valid added
          have holdsBetween := keep.add o ele status between valid holds added
          rw [added] at ran
          simp only at ran
          split at ran
          · cases ran
            exact holdsBetween
          · split at ran
            · exact ih (updated + 1) validBetween holdsBetween ran
            · exact ih updated validBetween holdsBetween ran

theorem KeptByAdds.batch (keep : KeptByAdds env Holds) {o next : Robj}
    {eles : List (List Byte)} {retval : Int} (valid : Valid env o) (holds : Holds o)
    (ran : pfAddMany env (some o) eles = .ok (retval, some next)) : Holds next := by
  have accepted : ¬isHLLObjectOrReply (some o) ≠ cOk := not_not.mpr valid.accepted
  rw [pfAddMany] at ran
  simp only [if_neg accepted] at ran
  cases loop : pfAddManyLoop env eles 0 o with
  | error abort =>
      rw [loop] at ran
      cases ran
  | ok pair =>
      rw [loop] at ran
      cases ran
      exact keep.loop eles 0 valid holds loop

private theorem KeptByAdds.addMany (keep : KeptByAdds env Holds) {o next : Robj}
    {eles : List (List Byte)} {reply : Reply} (valid : Valid env o) (holds : Holds o)
    (ran : (Op.addMany eles).step env o = .ok (reply, next)) : Holds next := by
  rw [Op.step] at ran
  cases added : pfAddMany env (some o) eles with
  | error abort =>
      rw [added] at ran
      cases ran
  | ok pair =>
      obtain ⟨status, result⟩ := pair
      rw [added] at ran
      cases ran
      cases result with
      | none => exact holds
      | some result => exact keep.batch valid holds added

private theorem KeptByAdds.count (keep : KeptByAdds env Holds) {o next : Robj} {reply : Reply}
    (valid : Valid env o) (holds : Holds o) (ran : Op.count.step env o = .ok (reply, next)) :
    Holds next := by
  have count := pfCount_spec env valid.wellFormed
  cases cached : cachedCard o.ptr.buf with
  | some card =>
      rw [cached] at count
      rw [Op.step, count] at ran
      cases ran
      exact holds
  | none =>
      rw [cached] at count
      rw [Op.step, count] at ran
      cases ran
      exact keep.same o _ valid (sameButCard_writeCard o _) holds

private theorem KeptByAdds.reload (keep : KeptByAdds env Holds) {o next : Robj} {reply : Reply}
    (valid : Valid env o) (holds : Holds o) (ran : Op.reload.step env o = .ok (reply, next)) :
    Holds next := by
  have validDump := sdsdup_valid valid
  have loaded := hllLoad_spec validDump
  simp only [Op.step, hllRaw, Option.map_some, loaded] at ran
  cases ran
  have holdsDump := keep.same o _ valid (sameString_sdsdup env o).sameButCard holds
  exact keep.same _ _ validDump (sameString_sdsdup env _).sameButCard holdsDump

theorem KeptByAdds.step (keep : KeptByAdds env Holds) {op : Op} (feeding : op.IsFeeding)
    {o next : Robj} {reply : Reply} (valid : Valid env o) (holds : Holds o)
    (ran : op.step env o = .ok (reply, next)) : Holds next := by
  cases op with
  | add ele =>
      have single : (Op.add ele).step env o = (Op.addMany [ele]).step env o := by
        rw [Op.step, Op.step, pfAdd_eq_pfAddMany]
      rw [single] at ran
      exact keep.addMany valid holds ran
  | addMany eles => exact keep.addMany valid holds ran
  | toDense => exact feeding.elim
  | count => exact keep.count valid holds ran
  | reload => exact keep.reload valid holds ran
  | merge heap target hlls => exact feeding.elim

end Keep

/-! ### The normal form -/

def SparseNormal (o : Robj) : Prop := SparseObject o → NormalForm (payloadOpcodes o.ptr)

theorem sparseNormal_of_dense {o : Robj} (dense : DenseObject o) : SparseNormal o :=
  fun sparse => absurd dense.1 sparse.notDense

theorem SameButCard.payload {o next : Robj} (same : SameButCard o next)
    (sparse : SparseObject o) : payloadOpcodes next.ptr = payloadOpcodes o.ptr := by
  have encoded : EncodedAt next.ptr.buf hllHdrSize next.ptr.len (payloadOpcodes o.ptr) := by
    rw [same.len]
    exact (encodedAt_payload o.ptr sparse.2.sized).congr fun offset lower upper =>
      same.bytes offset upper (Or.inr lower)
  exact encoded.payload

/-- The invariant on sparse objects is carried by the cases of the sparse add. -/
theorem hllSparseAdd_normal {env : Env} {o next : Robj} {ele : List Byte} {retval : Int}
    (sparse : SparseObject o) (normal : NormalForm (payloadOpcodes o.ptr))
    (added : hllSparseAdd env o ele = .ok (retval, next)) : SparseNormal next := by
  rcases hllSparseAdd_cases env o ele sparse.notDense sparse.2 with
    ⟨_enough, kept⟩ | ⟨_raises, small, covering, _fits, result, edited, addedTo⟩ |
      ⟨_raises, _reason, promotes⟩
  · rw [added] at kept
    cases kept
    intro _sparse
    rw [payloadOpcodes_makeRoom]
    exact normal
  · rw [added] at edited
    cases edited
    intro _sparse
    rw [covering.split] at normal
    rw [addedTo.encoded.payload, Covering.added]
    exact normal.addOpcodes (hllPatLen_count_bounds ele).1 small covering.lower covering.upper
  · rw [added] at promotes
    cases promotes
    intro object
    refine absurd ?_ object.notDense
    rw [raiseDense_encoding, promoted_encoding]

theorem hllSparseAdd_stays_sparse {env : Env} {o next : Robj} {ele : List Byte} {retval : Int}
    (sparse : SparseObject o) (small : (hllPatLen ele).count ≤ 32)
    (room : o.ptr.len + 3 ≤ env.hll_sparse_max_bytes)
    (added : hllSparseAdd env o ele = .ok (retval, next)) : encoding next.ptr.buf = hllSparse := by
  rcases hllSparseAdd_cases env o ele sparse.notDense sparse.2 with
    ⟨_enough, kept⟩ | ⟨_raises, _small, covering, _fits, result, edited, addedTo⟩ |
      ⟨_raises, reason, _promotes⟩
  · rw [added] at kept
    cases kept
    exact (congrFun (sdsMakeRoomFor_buf o.ptr 3) 4).trans sparse.1
  · rw [added] at edited
    cases edited
    exact addedTo.encoding_eq.trans sparse.1
  · obtain ⟨covering, _grows, exceeds⟩ := reason.resolve_left (Nat.not_lt.mpr small)
    have lower := covering.lower
    have upper := covering.upper
    have short := (covering.opcode.sizeAll_split_bounds (hllPatLen ele).count
      ((hllPatLen ele).index - lengthAll covering.before)
      (lengthAll covering.before + covering.opcode.length - 1 - (hllPatLen ele).index)
      (by omega) (by omega)).2
    rw [Covering.seq] at exceeds
    omega

theorem hllAdd_dense {env : Env} {o next : Robj} {ele : List Byte} {retval : Int}
    (dense : DenseObject o) (added : hllAdd env o ele = .ok (retval, next)) :
    DenseObject next := by
  rcases hllAdd_cases env (Or.inl dense) ele with
    ⟨_enough, result, kept, same⟩ | ⟨_raises, result, raised, _change, body⟩
  · rw [added] at kept
    cases kept
    exact ⟨by rw [same.buf, dense.1], by rw [same.len, dense.2]⟩
  · rw [added] at raised
    cases raised
    rcases body with denseNext | ⟨sparse, _sparseNext, _short⟩
    · exact denseNext
    · exact absurd dense.1 sparse.notDense

theorem keptByAdds_sparseNormal (env : Env) : KeptByAdds env SparseNormal := by
  constructor
  · intro o ele retval next valid normal added
    rcases valid.wellFormed.body with dense | sparse
    · exact sparseNormal_of_dense (hllAdd_dense dense added)
    · rw [hllAdd, if_neg sparse.notDense, if_pos sparse.1] at added
      exact hllSparseAdd_normal sparse (normal sparse) added
  · intro o next valid same normal sparse
    rcases valid.wellFormed.body with dense | object
    · exact absurd (same.dense dense).1.1 sparse.notDense
    · rw [same.payload object]
      exact normal object

theorem sparseNormal_created (env : Env) : SparseNormal (created env) := by
  intro _sparse
  rw [created_payload]
  refine ⟨List.isChain_singleton _, List.isChain_singleton _, ?_⟩
  exact List.forall_mem_singleton.mpr fun _zero => by decide

theorem Op.step_sparseNormal {env : Env} {op : Op} {o next : Robj} {reply : Reply}
    (valid : Valid env o) (sources : ∀ source ∈ op.sources, Valid env source.2)
    (normal : SparseNormal o) (ran : op.step env o = .ok (reply, next)) : SparseNormal next := by
  by_cases feeding : op.IsFeeding
  · exact (keptByAdds_sparseNormal env).step feeding valid normal ran
  · cases op with
    | toDense =>
        obtain ⟨result, converted, _valid, dense, _⟩ := hllSparseToDense_spec valid
        rw [Op.step, converted] at ran
        cases ran
        exact sparseNormal_of_dense dense
    | merge heap target hlls =>
        have validTarget : Valid env (Function.update heap target o target) := by
          rw [Function.update_self]
          exact valid
        obtain ⟨result, merged, outcome⟩ := pfMerge_spec (Function.update heap target o) target
          hlls validTarget (allValid_update valid sources)
        simp only [Op.step, merged, Function.update_self] at ran
        cases ran
        exact sparseNormal_of_dense outcome.dense
    | _ => exact absurd trivial feeding

theorem Built.sparseNormal {env : Env} {eles : List (List Byte)} {o : Robj}
    (built : Built env eles o) : SparseNormal o := by
  induction built with
  | create o made =>
      rw [hllCreate_eq] at made
      cases made
      exact sparseNormal_created env
  | step op o next reply eles lists before sources ran normal _normalSources =>
      exact Op.step_sparseNormal before.valid
        (fun source member => (sources source member).valid) normal ran

/-- The payload of a sparse object built by this code is a sequence of opcodes
that ends with the string, covers the registers, and is in normal form. -/
theorem reachable_normal_form (env : Env) (o : Robj) (reachable : Reachable env o)
    (sparse : encoding o.ptr.buf = hllSparse) :
    SparsePayload o.ptr ∧ NormalForm (payloadOpcodes o.ptr) := by
  obtain ⟨eles, built⟩ := reachable
  rcases built.valid.wellFormed.body with dense | object
  · have different : ¬hllSparse = hllDense := by decide
    exact absurd (sparse.symm.trans dense.1) different
  · exact ⟨object.2, built.sparseNormal object⟩

/-- A new object with one element, which is still sparse. -/
theorem reachable_normal_form_fed :
    ∃ o, pfAddMany server (some (created server)) [[0x61#8]] = .ok (1, some o) ∧
      encoding o.ptr.buf = hllSparse ∧ SparsePayload o.ptr ∧ NormalForm (payloadOpcodes o.ptr) := by
  obtain ⟨o, fed, built, _stale⟩ := exists_fed server [[0x61#8]] (by decide)
  have sparse : encoding o.ptr.buf = hllSparse := by
    have new := created_sparse server
    have added := fed
    rw [← pfAdd_eq_pfAddMany, pfAdd, if_neg (not_not.mpr (created_valid server).accepted), hllAdd,
      if_neg new.notDense, if_pos new.1] at added
    cases step : hllSparseAdd server (created server) [0x61#8] with
    | error abort =>
        rw [step] at added
        cases added
    | ok result =>
        have stays := hllSparseAdd_stays_sparse new (by decide +kernel) (by decide) step
        rw [step] at added
        dsimp only at added
        split at added
        · cases added
        · split at added
          · cases added
            exact (encoding_invalidate _).trans stays
          · cases added
  exact ⟨o, fed, sparse, reachable_normal_form server o ⟨_, built⟩ sparse⟩

end PhpHll
