/-
Objects that are serialized and come back.

What `serialize` makes of an object at one point of a script, `unserialize`
turns into a new object at any later point, whatever happened in between.  The
engine's own strings are assumed to come back as they were.
-/

import PhpHll.PhpChanges

namespace PhpHll

open ByteMemory Machine

section Serialization

variable {env : Env} {zend : Zend} {php : Php} {store : SetStore}

theorem Represents.serialized (represents : Represents env php store) {object : Nat}
    {buf : List Byte} {reply : PhpReply PhpValue} {after : Php}
    (ran : phpHllSerialize env zend php object = .ok (reply, after))
    (string : reply.value = .string buf) :
    after = php ∧ ∃ resource, store.Live resource ∧
      php.objects[object]? = some (some resource) ∧
      ∃ raw, IsDump env raw (store.setOf resource) ∧ buf = zend.phpVarSerialize raw := by
  unfold phpHllSerialize at ran
  split at ran
  · cases ran
    cases string
  · cases ran
  · rename_i resource property
    rw [represents.fetch, Fetch.relabel] at ran
    cases fetches : store.fetch resource with
    | mk messages found =>
        rw [fetches] at ran
        cases found with
        | none => cases ran
        | some handle =>
            obtain ⟨same, live⟩ := SetStore.live_of_fetch fetches
            subst same
            obtain ⟨_pointer, _allocated, holds⟩ := represents.live live
            obtain ⟨raw, dumped, isDump⟩ := holds.dump
            simp only [Option.map_some, PhpHll.dump, dumped] at ran
            cases ran
            cases string
            exact ⟨rfl, handle, live, property, raw.bytes, isDump, rfl⟩

/-- The object that comes back: the last one, with the last resource and an HLL
at an address of its own. -/
def Php.withObject (php : Php) (hll : Robj) : Php :=
  { heap := Function.update php.heap php.next hll
    next := php.next + 1
    resources := php.resources ++ [some php.next]
    objects := php.objects ++ [some php.resources.length] }

theorem phpHllUnserialize_dump (php : Php) {raw : List Byte} {set : ElementSet}
    (dump : IsDump env raw set)
    (string : zend.phpVarUnserialize (zend.phpVarSerialize raw) = some (.isString raw)) :
    ∃ hll, HoldsSet env set hll ∧
      phpHllUnserialize env zend php (zend.phpVarSerialize raw) =
        .ok (answer (.object php.objects.length) [], php.withObject hll) := by
  obtain ⟨hll, loaded, holds⟩ := dump.load
  refine ⟨hll, holds, ?_⟩
  rw [phpHllUnserialize, string]
  simp only [loaded, if_neg cOk_ne_cErr]
  have attached : (php.objects ++ [none]).set php.objects.length (some php.resources.length) =
      php.objects ++ [some php.resources.length] := by
    rw [List.set_append_right _ _ (Nat.le_refl _), Nat.sub_self, List.set_cons_zero]
  rw [Php.withObject, ← attached]
  rfl

end Serialization

/-- The string of an object, unserialized at any later point, is a new object
with the registers the first one had.  Its resource and its HLL are new, too, so
that the two share nothing, and all that was there stays.  The strings that the
calls before and between load or unserialize are dumps of built objects or are
refused. -/
theorem php_serialize_unserialize (env : Env) (zend : Zend)
    (empty : env.estimate 16384 16384 = 0)
    (strings : ∀ value,
      zend.phpVarUnserialize (zend.phpVarSerialize value) = some (.isString value))
    (before later : List (PhpCall × Option ElementSet))
    (readsBefore : ScriptReads env zend before) (readsLater : ScriptReads env zend later)
    (php after last : Php) (repliesBefore repliesLater : List (PhpReply PhpValue))
    (reply : PhpReply PhpValue) (object : Nat) (buf : List Byte)
    (ranBefore : run (PhpCall.step env zend) (before.map Prod.fst) .start =
      .ok (repliesBefore, php))
    (serialized : (PhpCall.serialize object).step env zend php = .ok (reply, after))
    (string : reply.value = .string buf)
    (ranLater : run (PhpCall.step env zend) (later.map Prod.fst) after =
      .ok (repliesLater, last)) :
    ∃ resource handle new next,
      php.objects[object]? = some (some resource) ∧
      php.resources[resource]? = some (some handle) ∧
      (PhpCall.unserialize buf).step env zend last =
        .ok (answer (.object last.objects.length) [], next) ∧
      next.objects = last.objects ++ [some last.resources.length] ∧
      next.resources = last.resources ++ [some new] ∧
      some new ∉ last.resources ∧
      registers (next.heap new) = registers (php.heap handle) ∧
      ∀ other, other ≠ new → next.heap other = last.heap other := by
  obtain ⟨_keeps, store, represents⟩ :=
    Represents.script empty before readsBefore (represents_start env) ranBefore
  obtain ⟨rfl, resource, live, property, raw, dump, rfl⟩ :=
    represents.serialized serialized string
  obtain ⟨_keepsLater, lastStore, representsLast⟩ :=
    Represents.script empty later readsLater represents ranLater
  obtain ⟨pointer, _allocated, holds⟩ := represents.live live
  obtain ⟨hll, holdsNew, ran⟩ := phpHllUnserialize_dump last dump (strings raw)
  refine ⟨resource, after.address resource, last.next, last.withObject hll, property, pointer,
    ran, rfl, rfl, fun member => ?_, ?_, fun other elsewhere => ?_⟩
  · obtain ⟨position, found⟩ := List.mem_iff_getElem?.mp member
    exact Nat.lt_irrefl _ (representsLast.allocated found)
  · have written : (last.withObject hll).heap last.next = hll := Function.update_self ..
    rw [written, holdsNew.registers, holds.registers]
  · exact Function.update_of_ne elsewhere hll last.heap

/-- A sparse object that is serialized before another HLL is created. -/
theorem php_serialize_unserialize_sparse :
    ∃ php after last repliesBefore repliesLater reply buf,
      run (PhpCall.step server plainZend) [.new (some .isTrue)] .start =
        .ok (repliesBefore, php) ∧
      (PhpCall.serialize 0).step server plainZend php = .ok (reply, after) ∧
      reply.value = .string buf ∧
      run (PhpCall.step server plainZend) [.hllCreate true] after = .ok (repliesLater, last) ∧
      ∃ resource handle new next,
        php.objects[0]? = some (some resource) ∧
        php.resources[resource]? = some (some handle) ∧
        (PhpCall.unserialize buf).step server plainZend last =
          .ok (answer (.object last.objects.length) [], next) ∧
        next.objects = last.objects ++ [some last.resources.length] ∧
        next.resources = last.resources ++ [some new] ∧
        some new ∉ last.resources ∧
        registers (next.heap new) = registers (php.heap handle) ∧
        ∀ other, other ≠ new → next.heap other = last.heap other := by
  let php : Php := Php.start.withObject (created server)
  let last : Php := (returnResource php (created server)).2
  let bytes : List Byte := (sdsdup server (created server).ptr).bytes
  have ranBefore : run (PhpCall.step server plainZend) [.new (some .isTrue)] .start =
      .ok ([answerThrowing (.object 0) []], php) := by
    simp only [run, PhpCall.step, phpNew, constructed, phpHllCreate, hllCreate_eq]
    rfl
  have serialized : (PhpCall.serialize 0).step server plainZend php =
      .ok (answer (.string bytes) [], php) := rfl
  have ranLater : run (PhpCall.step server plainZend) [.hllCreate true] php =
      .ok ([answer (.resource 1) []], last) := by
    simp only [run, PhpCall.step, phpFunctionCreate, phpHllCreate, hllCreate_eq]
    rfl
  exact ⟨php, php, last, _, _, _, bytes, ranBefore, serialized, rfl, ranLater,
    php_serialize_unserialize server plainZend rfl (fun _ => rfl)
      [(.new (some .isTrue), none)] [(.hllCreate true, none)]
      (by simp [ScriptReads, PhpCall.Reads]) (by simp [ScriptReads, PhpCall.Reads])
      php php last _ _ _ 0 bytes ranBefore serialized rfl ranLater⟩

end PhpHll
