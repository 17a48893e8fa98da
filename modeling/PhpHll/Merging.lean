/-
Merging and counting merges.

A merge leaves the target with the registers of one object fed everything its
sources were fed, and a merged count is the count of that object.  Both follow
from the registers alone, so neither order, repetition, NULL handles nor the
encodings of the sources matter.
-/

import PhpHll.Reachability

namespace PhpHll

open ByteMemory

/-! ### The vectors of built sources -/

theorem mergedVector_built {env : Env} (heap : Heap) (lists : Nat → List (List Byte))
    (hlls : List Hll)
    (built : ∀ handle, some handle ∈ hlls → Built env (lists handle) (heap handle)) :
    mergedVector heap hlls = sketchOf (hlls.flatMap (fedBy lists)) := by
  rw [sketchOf_flatMap, mergedVector]
  congr 1
  apply List.map_congr_left
  intro hll member
  cases hll with
  | none => rfl
  | some handle => exact (built handle member).registers

theorem mergedVector_eq_of_mem_iff (heap : Heap) (first second : List Hll)
    (same : ∀ hll, hll ∈ first ↔ hll ∈ second) :
    mergedVector heap first = mergedVector heap second := by
  apply eq_of_forall_ge_iff
  intro bound
  rw [mergedVector_le_iff, mergedVector_le_iff]
  constructor
  · exact fun all hll member => all hll ((same hll).mpr member)
  · exact fun all hll member => all hll ((same hll).mp member)

/-! ### Counts after a merge -/

theorem drive_coherent (env : Env) (ops : List Op)
    (state : CachedSketch.State (Fin 16384) Nat (BitVec 64))
    (coherent : (counterModel env).Coherent state) :
    (counterModel env).Coherent (Machine.drive (abstractStep env) ops state).2 := by
  induction ops generalizing state with
  | nil => exact coherent
  | cons op ops ih =>
      rw [Machine.drive]
      exact ih _ ((counterModel env).coherent_step op.abstract state coherent)

/-- After any further operations on an object with a stale cache, `pfCount`
returns the count of the registers the object then has. -/
private theorem count_after_run {env : Env} (o : Robj) (valid : Valid env o)
    (stale : cachedCard o.ptr.buf = none) (ops : List Op) (genuine : ∀ op ∈ ops, op.Genuine env) :
    ∃ replies last next, Machine.run (Op.step env) ops o = .ok (replies, last) ∧
      hllCount env last.ptr.buf last.ptr.len = .ok (countOf env (registers last), false) ∧
      pfCount env (some last) = .ok (.card (countOf env (registers last)), some next) := by
  obtain ⟨last, ran, related⟩ := run_refines_abstract env ops o valid genuine
  have coherent := drive_coherent env ops (abstraction o)
    ((counterModel env).coherent_of_none (abstraction o) stale)
  rw [← related.state] at coherent
  obtain ⟨next, counted, _⟩ := pfCount_coherent related.valid.wellFormed coherent
  exact ⟨_, last, next, ran, hllCount_spec env related.valid.wellFormed, counted⟩

/-! ### Merges are concatenations -/

private theorem pfMerge_built {env : Env} (heap : Heap) (lists : Nat → List (List Byte))
    (target : Nat) (hlls : List Hll) (validTarget : Valid env (heap target))
    (built : ∀ handle, some handle ∈ hlls → Built env (lists handle) (heap handle)) :
    ∃ next, pfMerge env heap (some target) hlls = (cOk, Function.update heap target next) ∧
      Valid env next ∧ registers next = sketchOf (hlls.flatMap (fedBy lists)) ∧
      cachedCard next.ptr.buf = none := by
  obtain ⟨next, ran, merged⟩ := pfMerge_spec heap target hlls validTarget
    fun handle member => (built handle member).valid
  refine ⟨next, ran, merged.valid, ?_, merged.stale⟩
  rw [merged.registers, mergedVector_built heap lists hlls built]

private theorem pfMerge_into_new {env : Env} (heap : Heap) (lists : Nat → List (List Byte))
    (fresh : Nat) (new : Robj) (hlls : List Hll) (made : hllCreate env = .ok new)
    (notListed : some fresh ∉ hlls)
    (built : ∀ handle, some handle ∈ hlls → Built env (lists handle) (heap handle)) :
    ∃ next, pfMerge env (Function.update heap fresh new) (some fresh) hlls =
        (cOk, Function.update (Function.update heap fresh new) fresh next) ∧
      Valid env next ∧ registers next = sketchOf (hlls.flatMap (fedBy lists)) ∧
      cachedCard next.ptr.buf = none := by
  have validNew : Valid env (Function.update heap fresh new fresh) := by
    rw [hllCreate_eq] at made
    cases made
    rw [Function.update_self]
    exact created_valid env
  apply pfMerge_built (Function.update heap fresh new) lists fresh hlls validNew
  intro handle member
  have other : handle ≠ fresh := fun same => notListed (same ▸ member)
  rw [Function.update_of_ne other]
  exact built handle member

/-- `HyperLogLog::merge` passes the target behind its sources, and leaves it
with the registers of an object fed its own elements and all of theirs;
`hll_merge` passes a new target alone.  NULL handles are skipped, sources keep
their bytes, and no count cached before the merge is returned after it. -/
theorem merge_is_concatenation (env : Env) (heap : Heap) (lists : Nat → List (List Byte))
    (target : Nat) (hlls : List Hll)
    (built : ∀ handle, handle = target ∨ some handle ∈ hlls →
      Built env (lists handle) (heap handle)) :
    (∃ after,
      pfMerge env heap (some target) (hlls ++ [some target]) = (cOk, after) ∧
      registers (after target) = sketchOf (lists target ++ hlls.flatMap (fedBy lists)) ∧
      (∀ fed, Built env (lists target ++ hlls.flatMap (fedBy lists)) fed →
        registers (after target) = registers fed) ∧
      (∀ handle, handle ≠ target → after handle = heap handle) ∧
      ∀ ops : List Op, (∀ op ∈ ops, op.Genuine env) →
        ∃ replies last next,
          Machine.run (Op.step env) ops (after target) = .ok (replies, last) ∧
          hllCount env last.ptr.buf last.ptr.len = .ok (countOf env (registers last), false) ∧
          pfCount env (some last) = .ok (.card (countOf env (registers last)), some next)) ∧
    ∀ fresh new, hllCreate env = .ok new → some fresh ∉ hlls →
      ∃ after,
        pfMerge env (Function.update heap fresh new) (some fresh) hlls = (cOk, after) ∧
        registers (after fresh) = sketchOf (hlls.flatMap (fedBy lists)) ∧
        (∀ fed, Built env (hlls.flatMap (fedBy lists)) fed →
          registers (after fresh) = registers fed) ∧
        (∀ handle, handle ≠ fresh → after handle = heap handle) ∧
        ∀ ops : List Op, (∀ op ∈ ops, op.Genuine env) →
          ∃ replies last next,
            Machine.run (Op.step env) ops (after fresh) = .ok (replies, last) ∧
            hllCount env last.ptr.buf last.ptr.len = .ok (countOf env (registers last), false) ∧
            pfCount env (some last) = .ok (.card (countOf env (registers last)), some next) := by
  constructor
  · have validTarget := (built target (Or.inl rfl)).valid
    have builtAll : ∀ handle, some handle ∈ hlls ++ [some target] →
        Built env (lists handle) (heap handle) := by
      intro handle member
      rcases List.mem_append.mp member with source | last
      · exact built handle (Or.inr source)
      · exact built handle (Or.inl (Option.some.inj (List.mem_singleton.mp last)))
    obtain ⟨next, ran, valid, vector, stale⟩ :=
      pfMerge_built heap lists target (hlls ++ [some target]) validTarget builtAll
    have reordered : registers next = sketchOf (lists target ++ hlls.flatMap (fedBy lists)) := by
      rw [vector, List.flatMap_append, List.flatMap_singleton]
      apply patternObserver.sketch_eq_of_mem_iff
      intro ele
      rw [List.mem_append, List.mem_append, or_comm]
      rfl
    refine ⟨_, ran, ?_, fun fed builtFed => ?_, fun handle other => Function.update_of_ne other _ _,
      fun ops genuine => ?_⟩
    · rw [Function.update_self, reordered]
    · rw [Function.update_self, reordered, builtFed.registers]
    · rw [Function.update_self]
      exact count_after_run next valid stale ops genuine
  · intro fresh new made notListed
    obtain ⟨next, ran, valid, vector, stale⟩ := pfMerge_into_new heap lists fresh new hlls made
      notListed fun handle member => built handle (Or.inr member)
    refine ⟨_, ran, ?_, fun fed builtFed => ?_, fun handle other => ?_, fun ops genuine => ?_⟩
    · rw [Function.update_self, vector]
    · rw [Function.update_self, vector, builtFed.registers]
    · rw [Function.update_of_ne other, Function.update_of_ne other]
    · rw [Function.update_self]
      exact count_after_run next valid stale ops genuine

/-- The target is fed one element, the source two others; the target is among
its own sources, the source stands in the list twice, and a NULL between. -/
theorem merge_is_concatenation_fed :
    ∃ target source after,
      pfAddMany server (some (created server)) [[0x61#8]] = .ok (1, some target) ∧
      pfAddMany server (some (created server)) [[0x62#8], [0x63#8]] = .ok (1, some source) ∧
      pfMerge server (twoObjects target source) (some 0)
        ([some 1, none, some 0, some 1] ++ [some 0]) = (cOk, after) ∧
      registers (after 0) =
        sketchOf [[0x61#8], [0x62#8], [0x63#8], [0x61#8], [0x62#8], [0x63#8]] ∧
      after 1 = source ∧
      ∃ next, pfCount server (some (after 0)) =
        .ok (.card (countOf server (registers (after 0))), some next) := by
  obtain ⟨target, source, fedTarget, fedSource, built⟩ :=
    exists_two_fed server [[0x61#8]] [[0x62#8], [0x63#8]] (by decide) (by decide)
  obtain ⟨⟨after, ran, vector, _fed, others, later⟩, _fresh⟩ :=
    merge_is_concatenation server (twoObjects target source)
      (fun handle => if handle = 0 then [[0x61#8]] else [[0x62#8], [0x63#8]]) 0
      [some 1, none, some 0, some 1] fun handle _listed => built handle
  obtain ⟨_replies, last, next, stopped, _count, counted⟩ :=
    later [] (fun op member => absurd member List.not_mem_nil)
  cases stopped
  exact ⟨target, source, after, fedTarget, fedSource, ran, vector, others 1 (by decide), next,
    counted⟩

/-! ### The merged count -/

/-- Whatever the number of arguments, the merged count is the count of their least
upper bound; only a lone NULL handle is not counted. -/
theorem pfCountMerged_coherent {env : Env} (empty : env.estimate 16384 16384 = 0)
    (heap : Heap) (hlls : List Hll) (notNull : hlls ≠ [none])
    (formed : ∀ handle, some handle ∈ hlls → WellFormed (heap handle))
    (coherent : ∀ handle, some handle ∈ hlls →
      (counterModel env).Coherent (abstraction (heap handle))) :
    ∃ after,
      pfCountMerged env heap hlls = .ok (.card (countOf env (mergedVector heap hlls)), after) ∧
      ∀ handle, registers (after handle) = registers (heap handle) := by
  match hlls, notNull, formed, coherent with
  | [], _, _, _ =>
      have none : countOf env (mergedVector heap []) = 0 := (countOf_empty env).trans empty
      refine ⟨heap, ?_, fun _ => rfl⟩
      rw [none]
      rfl
  | [none], notNull, _, _ => exact absurd rfl notNull
  | [some handle], _, formed, coherent =>
      have member := List.mem_singleton_self (some handle)
      have vector : mergedVector heap [some handle] = registers (heap handle) := sup_bot_eq _
      obtain ⟨next, counted, _formed, _coherent, same, _⟩ :=
        pfCount_coherent (formed handle member) (coherent handle member)
      refine ⟨Function.update heap handle next, ?_, fun other => ?_⟩
      · rw [vector]
        exact pfCountMerged_one env heap handle _ next counted
      · by_cases here : other = handle
        · rw [here, Function.update_self, same]
        · rw [Function.update_of_ne here]
  | first :: second :: rest, _, formed, _ =>
      exact ⟨heap, pfCountMerged_spec env heap _ formed (by simp), fun _ => rfl⟩

theorem mem_map_some (handle : Nat) (handles : List Nat) :
    some handle ∈ handles.map some ↔ handle ∈ handles := by
  simp

theorem map_some_ne_null (handles : List Nat) : handles.map some ≠ [none] := by
  intro null
  have member : none ∈ handles.map some := null ▸ List.mem_singleton_self none
  simp at member

/-- `pfCountMerged` returns what `pfCount` returns for the merge of its
arguments into a new object, and for one object fed all their elements; the
order and the repetition of the arguments do not matter, and no register of
theirs changes. -/
theorem merged_count_is_count_of_merge (env : Env) (empty : env.estimate 16384 16384 = 0)
    (heap : Heap) (lists : Nat → List (List Byte)) (handles : List Nat)
    (built : ∀ handle ∈ handles, Built env (lists handle) (heap handle)) :
    ∃ card after,
      pfCountMerged env heap (handles.map some) = .ok (.card card, after) ∧
      (∀ handle, registers (after handle) = registers (heap handle)) ∧
      (∀ fresh new, hllCreate env = .ok new → fresh ∉ handles →
        ∃ merged next,
          pfMerge env (Function.update heap fresh new) (some fresh) (handles.map some) =
            (cOk, merged) ∧
          pfCount env (some (merged fresh)) = .ok (.card card, some next)) ∧
      (∀ fed, Built env (handles.flatMap lists) fed →
        ∃ next, pfCount env (some fed) = .ok (.card card, some next)) ∧
      ∀ others : List Nat, (∀ handle, handle ∈ others ↔ handle ∈ handles) →
        ∃ otherAfter, pfCountMerged env heap (others.map some) = .ok (.card card, otherAfter) := by
  have builtSome : ∀ handle, some handle ∈ handles.map some →
      Built env (lists handle) (heap handle) :=
    fun handle member => built handle ((mem_map_some handle handles).mp member)
  have vector : mergedVector heap (handles.map some) = sketchOf (handles.flatMap lists) := by
    rw [mergedVector_built heap lists _ builtSome, List.flatMap_map]
    rfl
  obtain ⟨after, counted, kept⟩ := pfCountMerged_coherent empty heap (handles.map some)
    (map_some_ne_null handles)
    (fun handle member => (builtSome handle member).valid.wellFormed)
    (fun handle member => (builtSome handle member).coherent empty)
  refine ⟨_, after, counted, kept, ?_, ?_, ?_⟩
  · intro fresh new made notListed
    obtain ⟨merged, ran, validMerged, mergedRegisters, stale⟩ := pfMerge_into_new heap lists fresh
      new (handles.map some) made
      (fun listed => notListed ((mem_map_some fresh handles).mp listed)) builtSome
    obtain ⟨next, mergedCount, _⟩ := pfCount_coherent validMerged.wellFormed
      ((counterModel env).coherent_of_none (abstraction merged) stale)
    rw [mergedRegisters, ← mergedVector_built heap lists _ builtSome] at mergedCount
    refine ⟨_, next, ran, ?_⟩
    rw [Function.update_self]
    exact mergedCount
  · intro fed builtFed
    obtain ⟨next, fedCount, _⟩ := pfCount_coherent builtFed.valid.wellFormed (builtFed.coherent empty)
    rw [builtFed.registers, ← vector] at fedCount
    exact ⟨next, fedCount⟩
  · intro others same
    have sameVector :
        mergedVector heap (others.map some) = mergedVector heap (handles.map some) := by
      apply mergedVector_eq_of_mem_iff
      intro hll
      cases hll with
      | none => simp
      | some handle => rw [mem_map_some, mem_map_some, same]
    have builtOther : ∀ handle, some handle ∈ others.map some →
        Built env (lists handle) (heap handle) :=
      fun handle member => built handle ((same handle).mp ((mem_map_some handle others).mp member))
    obtain ⟨otherAfter, otherCounted, _⟩ := pfCountMerged_coherent empty heap (others.map some)
      (map_some_ne_null others)
      (fun handle member => (builtOther handle member).valid.wellFormed)
      (fun handle member => (builtOther handle member).coherent empty)
    rw [sameVector] at otherCounted
    exact ⟨otherAfter, otherCounted⟩

/-- Two objects fed different elements, the first of them counted twice. -/
theorem merged_count_is_count_of_merge_fed :
    ∃ first second fed card after merged next last,
      pfAddMany countingServer (some (created countingServer)) [[0x61#8]] = .ok (1, some first) ∧
      pfAddMany countingServer (some (created countingServer)) [[0x62#8], [0x63#8]] =
        .ok (1, some second) ∧
      pfAddMany countingServer (some (created countingServer))
        [[0x61#8], [0x62#8], [0x63#8], [0x61#8]] = .ok (1, some fed) ∧
      pfCountMerged countingServer (twoObjects first second) ([0, 1, 0].map some) =
        .ok (.card card, after) ∧
      pfMerge countingServer
        (Function.update (twoObjects first second) 2 (created countingServer)) (some 2)
        ([0, 1, 0].map some) = (cOk, merged) ∧
      pfCount countingServer (some (merged 2)) = .ok (.card card, some next) ∧
      pfCount countingServer (some fed) = .ok (.card card, some last) := by
  obtain ⟨first, second, fedFirst, fedSecond, built⟩ :=
    exists_two_fed countingServer [[0x61#8]] [[0x62#8], [0x63#8]] (by decide) (by decide)
  obtain ⟨fed, fedAll, builtAll, _⟩ :=
    exists_fed countingServer [[0x61#8], [0x62#8], [0x63#8], [0x61#8]] (by decide)
  obtain ⟨card, after, counted, _kept, ofMerge, ofFed, _others⟩ :=
    merged_count_is_count_of_merge countingServer (by decide) (twoObjects first second)
      (fun handle => if handle = 0 then [[0x61#8]] else [[0x62#8], [0x63#8]]) [0, 1, 0]
      fun handle _listed => built handle
  obtain ⟨merged, next, ran, mergedCount⟩ :=
    ofMerge 2 (created countingServer) (hllCreate_eq countingServer) (by decide)
  obtain ⟨last, fedCount⟩ := ofFed fed builtAll
  exact ⟨first, second, fed, card, after, merged, next, last, fedFirst, fedSecond, fedAll, counted,
    ran, mergedCount, fedCount⟩

end PhpHll
