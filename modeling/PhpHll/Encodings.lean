/-
Sparse and dense objects are not told apart.

Two runs of the same operations, one from a new object and one from its
promotion, go through the same abstract states, wherever either of them
promotes its object on the way; so they give the same replies.
-/

import PhpHll.Operations

namespace PhpHll

open ByteMemory

def Op.isPromotion : Op → Bool
  | .toDense => true
  | _ => false

/-- The replies of a run to the operations other than promotions. -/
def visibleReplies (ops : List Op) (replies : List Reply) : List Reply :=
  ((ops.zip replies).filter fun pair => !pair.1.isPromotion).map Prod.snd

theorem promotion_idle (env : Env) (op : Op)
    (state : CachedSketch.State (Fin 16384) Nat (BitVec 64)) (promotion : op.isPromotion = true) :
    (abstractStep env op state).2 = state := by
  cases op with
  | toDense => rfl
  | _ => cases promotion

/-- A run from any object of an abstract state: its visible replies and its
last abstract state are those of the operations without the promotions. -/
private theorem run_visible (env : Env) (ops : List Op) (o : Robj) (valid : Valid env o)
    (genuine : ∀ op ∈ ops, op.Genuine env) :
    ∃ replies last, Machine.run (Op.step env) ops o = .ok (replies, last) ∧
      (visibleReplies ops replies, abstraction last) =
        Machine.drive (abstractStep env) (ops.filter fun op => !op.isPromotion) (abstraction o) := by
  obtain ⟨last, ran, related⟩ := run_refines_abstract env ops o valid genuine
  obtain ⟨replies, final⟩ := Machine.drive_filter (abstractStep env) Op.isPromotion
    (promotion_idle env) ops (abstraction o)
  exact ⟨_, last, ran, Prod.ext replies (related.state.trans final)⟩

/-- The run of a new object and the run of its promotion agree on every reply
but those to the promotions themselves, and on the registers they end with. -/
theorem sparse_and_dense_agree (env : Env) (first second : List Op)
    (genuineFirst : ∀ op ∈ first, op.Genuine env)
    (genuineSecond : ∀ op ∈ second, op.Genuine env)
    (same : (first.filter fun op => !op.isPromotion) =
      second.filter fun op => !op.isPromotion) :
    ∃ o dense firstReplies firstLast secondReplies secondLast,
      hllCreate env = .ok o ∧
      hllSparseToDense env o = (cOk, dense) ∧
      encoding o.ptr.buf = hllSparse ∧
      encoding dense.ptr.buf = hllDense ∧
      Machine.run (Op.step env) first o = .ok (firstReplies, firstLast) ∧
      Machine.run (Op.step env) second dense = .ok (secondReplies, secondLast) ∧
      visibleReplies first firstReplies = visibleReplies second secondReplies ∧
      registers firstLast = registers secondLast := by
  have valid := created_valid env
  obtain ⟨dense, promotes, validDense, object, vector, _kept, cache⟩ :=
    hllSparseToDense_spec valid
  have start : abstraction dense = abstraction (created env) := by
    rw [abstraction, abstraction, vector, cache]
  obtain ⟨firstReplies, firstLast, firstRan, firstSeen⟩ :=
    run_visible env first (created env) valid genuineFirst
  obtain ⟨secondReplies, secondLast, secondRan, secondSeen⟩ :=
    run_visible env second dense validDense genuineSecond
  rw [same, ← start, ← secondSeen] at firstSeen
  obtain ⟨repliesEq, lastEq⟩ := Prod.ext_iff.mp firstSeen
  exact ⟨created env, dense, firstReplies, firstLast, secondReplies, secondLast, hllCreate_eq env,
    promotes, (created_sparse env).1, object.1, firstRan, secondRan, repliesEq,
    congrArg CachedSketch.State.array lastEq⟩

theorem sparse_and_dense_agree_add_count :
    ∃ o dense firstReplies firstLast secondReplies secondLast,
      hllCreate server = .ok o ∧
      hllSparseToDense server o = (cOk, dense) ∧
      Machine.run (Op.step server) [.add [0x61#8], .toDense, .count] o =
        .ok (firstReplies, firstLast) ∧
      Machine.run (Op.step server) [.add [0x61#8], .count, .toDense] dense =
        .ok (secondReplies, secondLast) ∧
      visibleReplies [.add [0x61#8], .toDense, .count] firstReplies =
        visibleReplies [.add [0x61#8], .count, .toDense] secondReplies := by
  obtain ⟨o, dense, firstReplies, firstLast, secondReplies, secondLast, made, promotes, _sparse,
    _dense, firstRan, secondRan, agree, _registers⟩ := sparse_and_dense_agree server
      [.add [0x61#8], .toDense, .count] [.add [0x61#8], .count, .toDense]
      (by simp [Op.Genuine, Op.sources]) (by simp [Op.Genuine, Op.sources]) rfl
  exact ⟨o, dense, firstReplies, firstLast, secondReplies, secondLast, made, promotes, firstRan,
    secondRan, agree⟩

end PhpHll
