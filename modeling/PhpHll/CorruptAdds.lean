/-
The sparse add on corrupt payloads.

The add looks for one register and edits the opcode it finds there, or whatever
byte is behind a payload that is too short.  It checks the payload as a whole
only on the path through `promote`, and there only after every register of the
payload has been written to the new string.  The results say when a corrupt
payload makes it fail with all of these writes inside the array, and that it
leaves the string alone then.
-/

import PhpHll.CorruptReaders

namespace PhpHll

open ByteMemory

/-! ### The size of an edit -/

/-- The bytes of `len` registers of an opcode as an opcode of their own.  Past
the end of a corrupt payload the length may be negative. -/
def Opcode.partSize (opcode : Opcode) (len : Int) : Nat :=
  if len = 0 then 0 else if opcode.value = 0 ∧ 64 < len then 2 else 1

def EditTooLong (env : Env) (len count : Nat) (opcode : Opcode) (before after : Int) : Prop :=
  opcode.value < count ∧ ¬(opcode.size = 1 ∧ opcode.length = 1) ∧
    SplitTooLong env len opcode (opcode.partSize before + 1 + opcode.partSize after)

private theorem side_length (opcode : Opcode) (runBytes : Int → List Byte) (left right : Int)
    (stored : ∀ len, len ≠ 0 → (runBytes len).length = opcode.partSize len) :
    (if left ≠ right then runBytes (left - right) else []).length =
      opcode.partSize (left - right) := by
  by_cases same : left = right
  · rw [if_neg (not_not.mpr same), Opcode.partSize, if_pos (Int.sub_eq_zero.mpr same)]
    rfl
  · rw [if_pos same, stored _ (fun zero => same (Int.sub_eq_zero.mp zero))]

private theorem sides_length (opcode : Opcode) (runBytes : Int → List Byte) (count : Nat)
    (index first last : Int)
    (stored : ∀ len, len ≠ 0 → (runBytes len).length = opcode.partSize len) :
    ((if index ≠ first then runBytes (index - first) else []) ++ hllSparseValSet count 1 ++
        (if index ≠ last then runBytes (last - index) else [])).length =
      opcode.partSize (index - first) + 1 + opcode.partSize (last - index) := by
  have before := side_length opcode runBytes index first stored
  have after := side_length opcode runBytes last index stored
  rw [List.length_append, List.length_append, before, ← after]
  simp only [ne_comm (a := index) (b := last)]
  rfl

theorem splitBytes_length (opcode : Opcode) (count : Nat) (index first last : Int) :
    (splitBytes opcode count index first last).length =
      opcode.partSize (index - first) + 1 + opcode.partSize (last - index) := by
  rw [splitBytes]
  by_cases zeroRun : opcode.value = 0
  · rw [if_pos zeroRun]
    apply sides_length opcode splitZeroRun
    intro len some
    rw [splitZeroRun_length, Opcode.partSize, if_neg some, zeroRun]
    simp only [true_and]
  · rw [if_neg zeroRun]
    apply sides_length opcode (hllSparseValSet opcode.value)
    intro len some
    rw [Opcode.partSize, if_neg some, if_neg (fun zero => zeroRun zero.1)]
    rfl

/-! ### The ways in which an add fails -/

theorem hllSparseAddUpdated_not_error (s : Sds) (prev : Option Nat) (finish : Nat) (next : Robj) :
    hllSparseAddUpdated s prev finish ≠ .ok (-1, next) := by
  intro failed
  rw [hllSparseAddUpdated] at failed
  split at failed
  · cases failed
  · cases failed

theorem hllSparseAddSubstitute_not_error (env : Env) (s : Sds) (ele : List Byte)
    (scan : SparseScan) (seq : List Byte)
    (fits : ¬SplitTooLong env s.len (opcodeAt s.buf scan.p) seq.length) (next : Robj) :
    hllSparseAddSubstitute env s ele scan seq ≠ .ok (-1, next) := by
  rw [hllSparseAddSubstitute_fits env s ele scan seq _ rfl fits]
  split
  · intro impossible
    cases impossible
  · exact hllSparseAddUpdated_not_error _ _ _ next

/-! ### The registers that an add accesses -/

instance (env : Env) (len : Nat) (opcode : Opcode) (seqlen : Nat) :
    Decidable (SplitTooLong env len opcode seqlen) :=
  inferInstanceAs (Decidable (_ ∧ _))

def hllSparseAddAtIndices (env : Env) (s : Sds) (pattern : Pattern) (scan : SparseScan) :
    List Int :=
  let opcode := opcodeAt s.buf scan.p
  if pattern.count ≤ opcode.value then []
  else if opcode.size = 1 ∧ opcode.length = 1 then []
  else
    let seq := splitBytes opcode pattern.count pattern.index scan.first
      (scan.first + scan.span - 1)
    if SplitTooLong env s.len opcode seq.length then hllSparseToDenseIndices env { ptr := s }
    else []

/-- The register indices that an add hands to the register macro, all of them in
the conversion at the label `promote`. -/
def hllSparseAddIndices (env : Env) (o : Robj) (ele : List Byte) : List Int :=
  let pattern := hllPatLen ele
  if hllSparseValMaxValue < pattern.count then hllSparseToDenseIndices env o
  else
    let s := sdsMakeRoomFor o.ptr 3
    let scan := sparseScan s.buf pattern.index s.len SparseScan.start
    if scan.span = 0 then [] else hllSparseAddAtIndices env s pattern scan

theorem hllSparseAddAt_cases (env : Env) (s : Sds) (ele : List Byte) (pattern : Pattern)
    (scan : SparseScan) (opcode : Opcode) (here : opcodeAt s.buf scan.p = opcode)
    (positive : 1 ≤ pattern.count) :
    (EditTooLong env s.len pattern.count opcode (pattern.index - scan.first)
          (scan.first + scan.span - 1 - pattern.index) ∧
        hllSparseAddAt env s ele pattern scan = hllSparseAddPromote env { ptr := s } ele ∧
        hllSparseAddAtIndices env s pattern scan = hllSparseToDenseIndices env { ptr := s }) ∨
      (¬EditTooLong env s.len pattern.count opcode (pattern.index - scan.first)
          (scan.first + scan.span - 1 - pattern.index) ∧
        (∀ next, hllSparseAddAt env s ele pattern scan ≠ .ok (-1, next)) ∧
        hllSparseAddAtIndices env s pattern scan = []) := by
  rw [hllSparseAddAt_eq env s ele pattern scan opcode here positive, hllSparseAddAtIndices, here]
  by_cases enough : pattern.count ≤ opcode.value
  · rw [if_pos enough, if_pos enough]
    refine Or.inr ⟨fun edit => Nat.not_lt.mpr enough edit.1, fun next failed => ?_, rfl⟩
    cases failed
  · rw [if_neg enough, if_neg enough]
    by_cases single : opcode.size = 1 ∧ opcode.length = 1
    · rw [if_pos single, if_pos single]
      exact Or.inr ⟨fun edit => edit.2.1 single, hllSparseAddUpdated_not_error _ _ _, rfl⟩
    · have sized := splitBytes_length opcode pattern.count pattern.index scan.first
        (scan.first + scan.span - 1)
      rw [if_neg single, if_neg single, EditTooLong, ← sized]
      by_cases tooLong : SplitTooLong env s.len opcode
          (splitBytes opcode pattern.count pattern.index scan.first
            (scan.first + scan.span - 1)).length
      · exact Or.inl ⟨⟨Nat.lt_of_not_le enough, single, tooLong⟩,
          hllSparseAddSubstitute_tooLong env s ele scan _ (by rwa [here]), if_pos tooLong⟩
      · exact Or.inr ⟨fun edit => tooLong edit.2.2,
          hllSparseAddSubstitute_not_error env s ele scan _ (by rwa [here]), if_neg tooLong⟩

/-! ### Where a search ends -/

/-- Where a payload is left by a search for one register: the opcodes that end
before the register, and the rest, whose first opcode covers it.  On a payload
that is too short the rest is empty. -/
structure SearchEnd (s : Sds) (index : Nat) where
  passed : List Opcode
  rest : List Opcode
  split : payloadOpcodes s = passed ++ rest
  lower : lengthAll passed ≤ index
  upper : ∀ opcode ∈ rest.head?, index < lengthAll passed + opcode.length

namespace SearchEnd

variable {s : Sds} {index : Nat} (stop : SearchEnd s index)

/-- The opcode found; behind a payload that is too short, whatever is read there. -/
def opcode : Opcode := opcodeAt s.buf (hllHdrSize + sizeAll stop.passed)

def span : Nat := ((stop.rest.head?.or stop.passed.getLast?).map Opcode.length).getD 0

def TooLong (env : Env) (count : Nat) : Prop :=
  EditTooLong env s.len count stop.opcode (index - lengthAll stop.passed)
    (lengthAll stop.passed + stop.span - 1 - index)

end SearchEnd

theorem exists_searchEnd (s : Sds) (index : Nat) : Nonempty (SearchEnd s index) := by
  by_cases covered : index < lengthAll (payloadOpcodes s)
  · obtain ⟨before, opcode, after, split, lower, upper⟩ :=
      exists_covering (payloadOpcodes s) index covered
    refine ⟨⟨before, opcode :: after, split, lower, ?_⟩⟩
    intro first member
    cases member
    exact upper
  · refine ⟨⟨payloadOpcodes s, [], (List.append_nil _).symm, Nat.le_of_not_lt covered, ?_⟩⟩
    intro first member
    cases member

theorem SearchEnd.scan {s : Sds} {index : Nat} (stop : SearchEnd s index)
    (long : hllHdrSize ≤ s.len) :
    sparseScan s.buf index s.len SparseScan.start =
      { p := hllHdrSize + sizeAll stop.passed
        prev := (SparseScan.start.pass stop.passed).prev
        first := lengthAll stop.passed
        span := stop.span } := by
  obtain ⟨passed, rest, split, lower, upper⟩ := stop
  have pEq : (SparseScan.start.pass passed).p = hllHdrSize + sizeAll passed :=
    SparseScan.pass_p _ passed
  have firstEq : (SparseScan.start.pass passed).first = lengthAll passed :=
    (SparseScan.pass_first _ passed).trans (Nat.zero_add _)
  rw [← pEq, ← firstEq]
  cases rest with
  | cons opcode after =>
      have covers : index < lengthAll passed + opcode.length := upper opcode rfl
      exact (sparseScan_found s.buf index s.len passed after opcode SparseScan.start split
        (by rw [SparseScan.start, Nat.zero_add]; exact lower)
        (by rw [SparseScan.start, Nat.zero_add]; exact covers)).1
  | nil =>
      rw [List.append_nil] at split
      subst split
      have stops := opcodesFrom_stop s.buf hllHdrSize s.len long
      have past := sparseScan_past s.buf index s.len SparseScan.start
        ((Nat.zero_add _).trans_le lower)
        (show s.len ≤ hllHdrSize + sizeAll (payloadOpcodes s) by
          rw [payloadOpcodes]
          omega)
      refine past.trans ?_
      change SparseScan.start.pass (payloadOpcodes s) = _
      rcases List.eq_nil_or_concat (payloadOpcodes s) with empty | ⟨kept, last, concat⟩
      · simp only [SearchEnd.span, empty]
        rfl
      · rw [List.concat_eq_append] at concat
        simp only [SearchEnd.span, concat, SparseScan.pass_append, List.head?_nil, Option.none_or,
          List.getLast?_concat]
        rfl

theorem SearchEnd.span_eq_zero_iff {s : Sds} {index : Nat} (stop : SearchEnd s index) :
    stop.span = 0 ↔ payloadOpcodes s = [] := by
  obtain ⟨passed, rest, split, lower, upper⟩ := stop
  simp only [SearchEnd.span, split]
  cases rest with
  | cons opcode after => exact iff_of_false (Nat.ne_of_gt opcode.length_pos) (by simp)
  | nil =>
      rcases List.eq_nil_or_concat passed with empty | ⟨kept, last, concat⟩
      · subst empty
        exact iff_of_true rfl rfl
      · rw [List.concat_eq_append] at concat
        subst concat
        simp only [List.head?_nil, Option.none_or, List.getLast?_concat]
        exact iff_of_false (Nat.ne_of_gt last.length_pos) (by simp)

theorem SearchEnd.tooLong_iff {s : Sds} {index : Nat} (first second : SearchEnd s index)
    (long : hllHdrSize ≤ s.len) (env : Env) (count : Nat) :
    first.TooLong env count ↔ second.TooLong env count := by
  have same := (first.scan long).symm.trans (second.scan long)
  obtain ⟨place, _prev, passed, span⟩ := SparseScan.mk.inj same
  rw [SearchEnd.TooLong, SearchEnd.TooLong, SearchEnd.opcode, SearchEnd.opcode, place, passed, span]

/-! ### Adding -/

/-- What makes an add notice that a payload does not cover the array: it takes
the path through `promote`, or there is no opcode at all. -/
def AddNotices (env : Env) (s : Sds) (pattern : Pattern) : Prop :=
  32 < pattern.count ∨ payloadOpcodes s = [] ∨
    ∃ stop : SearchEnd s pattern.index, stop.TooLong env pattern.count

/-- The ways of an add through a sparse string, whatever its payload. -/
inductive SparseAddPath (env : Env) (o : Robj) (ele : List Byte) : Prop
  | promotes (room : Robj) (same : SameBytes o room)
      (noticed : AddNotices env o.ptr (hllPatLen ele))
      (added : hllSparseAdd env o ele = hllSparseAddPromote env room ele)
      (accessed : hllSparseAddIndices env o ele = hllSparseToDenseIndices env room)
  | empty (none : payloadOpcodes o.ptr = [])
      (failed : hllSparseAdd env o ele = .ok (-1, { ptr := sdsMakeRoomFor o.ptr 3 }))
      (accessed : hllSparseAddIndices env o ele = [])
  | stays (unnoticed : ¬AddNotices env o.ptr (hllPatLen ele))
      (fine : ∀ next, hllSparseAdd env o ele ≠ .ok (-1, next))
      (accessed : hllSparseAddIndices env o ele = [])

theorem payloadOpcodes_sameBytes {o room : Robj} (same : SameBytes o room) :
    payloadOpcodes room.ptr = payloadOpcodes o.ptr := by
  rw [payloadOpcodes, payloadOpcodes, same.len, same.buf]

theorem sameBytes_makeRoom (o : Robj) (addlen : Nat) :
    SameBytes o { ptr := sdsMakeRoomFor o.ptr addlen } :=
  ⟨sdsMakeRoomFor_len _ _, sdsMakeRoomFor_buf _ _⟩

private theorem hllSparseAddIndices_scanned (env : Env) (o : Robj) (ele : List Byte)
    (scan : SparseScan) (small : (hllPatLen ele).count ≤ 32)
    (scanned : sparseScan o.ptr.buf (hllPatLen ele).index o.ptr.len SparseScan.start = scan) :
    hllSparseAddIndices env o ele =
      if scan.span = 0 then []
      else hllSparseAddAtIndices env (sdsMakeRoomFor o.ptr 3) (hllPatLen ele) scan := by
  have notLarge : ¬hllSparseValMaxValue < (hllPatLen ele).count := Nat.not_lt.mpr small
  simp only [hllSparseAddIndices, if_neg notLarge, sdsMakeRoomFor_buf, sdsMakeRoomFor_len, scanned]

theorem sparseAddPath (env : Env) (o : Robj) (ele : List Byte) (long : hllHdrSize ≤ o.ptr.len) :
    SparseAddPath env o ele := by
  by_cases large : 32 < (hllPatLen ele).count
  · refine .promotes o (SameBytes.refl o) (Or.inl large) ?_ ?_
    · rw [hllSparseAdd]
      exact if_pos large
    · rw [hllSparseAddIndices]
      exact if_pos large
  · have small := Nat.le_of_not_lt large
    obtain ⟨stop⟩ := exists_searchEnd o.ptr (hllPatLen ele).index
    have scanned := stop.scan long
    have added := hllSparseAdd_scanned env o ele _ small scanned
    have accessed := hllSparseAddIndices_scanned env o ele _ small scanned
    by_cases empty : payloadOpcodes o.ptr = []
    · have spanned := stop.span_eq_zero_iff.mpr empty
      exact .empty empty (added.trans (if_pos spanned)) (accessed.trans (if_pos spanned))
    · have spanned : ¬stop.span = 0 := fun none => empty (stop.span_eq_zero_iff.mp none)
      rw [if_neg spanned] at added accessed
      have atEnd := hllSparseAddAt_cases env (sdsMakeRoomFor o.ptr 3) ele (hllPatLen ele)
        { p := hllHdrSize + sizeAll stop.passed, prev := (SparseScan.start.pass stop.passed).prev,
          first := lengthAll stop.passed, span := stop.span } stop.opcode
        (by rw [sdsMakeRoomFor_buf]; rfl) (hllPatLen_count_bounds ele).1
      rw [sdsMakeRoomFor_len, ← added, ← accessed] at atEnd
      rcases atEnd with ⟨tooLong, promotes, indices⟩ | ⟨fits, fine, indices⟩
      · exact .promotes _ (sameBytes_makeRoom o 3) (Or.inr (Or.inr ⟨stop, tooLong⟩)) promotes
          indices
      · refine .stays ?_ fine indices
        rintro (isLarge | isEmpty | ⟨found, tooLong⟩)
        · exact large isLarge
        · exact empty isEmpty
        · exact fits ((found.tooLong_iff stop long env _).mp tooLong)

theorem hllSparseAdd_fails_cases (env : Env) (o : Robj) (ele : List Byte)
    (sparse : encoding o.ptr.buf ≠ hllDense) (long : hllHdrSize ≤ o.ptr.len) :
    ((lengthAll (payloadOpcodes o.ptr) % 2 ^ 32 ≠ 16384 ∧ AddNotices env o.ptr (hllPatLen ele)) ∧
        ∃ next, hllSparseAdd env o ele = .ok (-1, next) ∧ SameBytes o next) ∨
      (¬(lengthAll (payloadOpcodes o.ptr) % 2 ^ 32 ≠ 16384 ∧
          AddNotices env o.ptr (hllPatLen ele)) ∧
        ∀ next, hllSparseAdd env o ele ≠ .ok (-1, next)) := by
  cases sparseAddPath env o ele long with
  | promotes room same noticed added accessed =>
      have promotion := hllSparseAddPromote_cases env room ele (by rwa [same.buf])
      rw [payloadOpcodes_sameBytes same, ← added] at promotion
      rcases promotion with ⟨other, failed⟩ | ⟨wrapped, fine⟩
      · exact Or.inl ⟨⟨other, noticed⟩, room, failed, same⟩
      · exact Or.inr ⟨fun noticed => noticed.1 wrapped, fine⟩
  | empty none failed accessed =>
      refine Or.inl ⟨⟨?_, Or.inr (Or.inl none)⟩, _, failed, sameBytes_makeRoom o 3⟩
      rw [none]
      decide
  | stays unnoticed fine accessed => exact Or.inr ⟨fun noticed => unnoticed noticed.2, fine⟩

/-- The accesses of an add to the registers are those of the payload's runs if
the add goes through `promote`, and there are none otherwise. -/
theorem hllSparseAddIndices_in_array_iff (env : Env) (o : Robj) (ele : List Byte)
    (sparse : encoding o.ptr.buf ≠ hllDense) (long : hllHdrSize ≤ o.ptr.len) :
    (∀ idx ∈ hllSparseAddIndices env o ele, 0 ≤ idx ∧ idx < 16384) ↔
      (AddNotices env o.ptr (hllPatLen ele) → RunsInArray 0 (payloadOpcodes o.ptr)) := by
  cases sparseAddPath env o ele long with
  | promotes room same noticed added accessed =>
      have notDense : ¬encoding room.ptr.buf = hllDense := by rwa [same.buf]
      have inside := accessedIndices_in_array_iff 0 (payloadOpcodes room.ptr)
      rw [Nat.cast_zero] at inside
      rw [accessed, hllSparseToDenseIndices, if_neg notDense, denseFill_touched, inside,
        payloadOpcodes_sameBytes same, forall_prop_of_true noticed]
  | empty none failed accessed =>
      rw [accessed, none]
      exact iff_of_true (List.forall_mem_nil _) fun _ => runsInArray_nil 0
  | stays unnoticed fine accessed =>
      rw [accessed]
      exact iff_of_true (List.forall_mem_nil _) fun noticed => absurd noticed unnoticed

private theorem pfAdd_of_hllSparseAdd (env : Env) (o : Robj) (ele : List Byte)
    (accepted : isHLLObjectOrReply (some o) = cOk) (sparse : encoding o.ptr.buf = hllSparse)
    (next : Robj) :
    pfAdd env (some o) ele = .ok (cErr, some next) ↔ hllSparseAdd env o ele = .ok (-1, next) := by
  have notDense := notDense_of_sparse sparse
  have added : hllAdd env o ele = hllSparseAdd env o ele := by
    rw [hllAdd, if_neg notDense, if_pos sparse]
  rw [pfAdd]
  simp only [if_neg (not_not.mpr accepted), added]
  cases hllSparseAdd env o ele with
  | error abort => exact iff_of_false (by simp) (by simp)
  | ok result =>
      obtain ⟨retval, after⟩ := result
      simp only
      by_cases failed : retval = -1
      · rw [if_pos failed, failed]
        simp
      · rw [if_neg failed]
        refine iff_of_false ?_ (by simp [failed])
        split
        · intro impossible
          cases impossible
        · intro impossible
          cases impossible

/-- On a sparse string that `hllLoad` accepts, `pfAdd` stays within the registers,
returns `C_ERR` and leaves the string and its terminator unchanged exactly when
the registers do not end at 16384 modulo `2 ^ 32`, the add notices, and no run of
the payload leaves the array. -/
theorem corrupt_add_fails_iff (env : Env) (raw : Sds) (o : Robj) (ele : List Byte)
    (loaded : hllLoad env raw = (cOk, some o)) (sparse : encoding o.ptr.buf = hllSparse) :
    ((∀ idx ∈ hllSparseAddIndices env o ele, 0 ≤ idx ∧ idx < 16384) ∧
        ∃ next, pfAdd env (some o) ele = .ok (cErr, some next) ∧ next.ptr.len = o.ptr.len ∧
          readBytes next.ptr.buf 0 (o.ptr.len + 1) = readBytes o.ptr.buf 0 (o.ptr.len + 1)) ↔
      lengthAll (payloadOpcodes o.ptr) % 2 ^ 32 ≠ 16384 ∧
        AddNotices env o.ptr (hllPatLen ele) ∧ RunsInArray 0 (payloadOpcodes o.ptr) := by
  have accepted := accepted_of_hllLoad loaded
  have notDense := notDense_of_sparse sparse
  have long := long_of_accepted accepted
  rw [hllSparseAddIndices_in_array_iff env o ele notDense long]
  simp only [pfAdd_of_hllSparseAdd env o ele accepted sparse]
  rcases hllSparseAdd_fails_cases env o ele notDense long with
    ⟨⟨other, noticed⟩, next, failed, same⟩ | ⟨unnoticed, fine⟩
  · constructor
    · rintro ⟨inside, _failed⟩
      exact ⟨other, noticed, inside noticed⟩
    · rintro ⟨_other, _noticed, inside⟩
      exact ⟨fun _ => inside, next, failed, same.len, by rw [same.buf]⟩
  · constructor
    · rintro ⟨_inside, next, failed, _⟩
      exact absurd failed (fine next)
    · rintro ⟨other, noticed, _inside⟩
      exact absurd ⟨other, noticed⟩ unnoticed

def tightServer : Env := { server with hll_sparse_max_bytes := 19 }

/-- A VAL over the first register and a ZERO of 64 registers. -/
def valThenZero : List Byte := [0x80#8, 0x3f#8]

def loadedValThenZero : Robj := { ptr := sdsdup tightServer (sparseString valThenZero) }

/-- The element falls into register 3, and the ZERO found there would become
three bytes. -/
theorem corrupt_add_fails_iff_promoted :
    (∀ idx ∈ hllSparseAddIndices tightServer loadedValThenZero [0x66#8, 0x73#8],
        0 ≤ idx ∧ idx < 16384) ∧
      ∃ next, pfAdd tightServer (some loadedValThenZero) [0x66#8, 0x73#8] =
          .ok (cErr, some next) ∧
        next.ptr.len = loadedValThenZero.ptr.len ∧
        readBytes next.ptr.buf 0 (loadedValThenZero.ptr.len + 1) =
          readBytes loadedValThenZero.ptr.buf 0 (loadedValThenZero.ptr.len + 1) := by
  have loaded := hllLoad_of_accepted tightServer (sparseString valThenZero) (by decide)
  have opcodes : payloadOpcodes loadedValThenZero.ptr = [.val 0 0, .zero 63] := by decide +kernel
  have index : (hllPatLen [0x66#8, 0x73#8]).index = 3 := by decide +kernel
  have notices : AddNotices tightServer loadedValThenZero.ptr (hllPatLen [0x66#8, 0x73#8]) := by
    have lower : lengthAll [.val 0 0] ≤ (hllPatLen [0x66#8, 0x73#8]).index := by
      rw [index]
      decide
    have upper : ∀ opcode ∈ [Opcode.zero 63].head?,
        (hllPatLen [0x66#8, 0x73#8]).index < lengthAll [.val 0 0] + opcode.length := by
      rw [index]
      decide
    refine Or.inr (Or.inr ⟨⟨[.val 0 0], [.zero 63], opcodes, lower, upper⟩, ?_⟩)
    simp only [SearchEnd.TooLong, SearchEnd.opcode, SearchEnd.span, EditTooLong, SplitTooLong]
    decide +kernel
  have inside := (accessedIndices_in_array_iff 0 [.val 0 0, .zero 63]).mp (by decide)
  refine (corrupt_add_fails_iff tightServer _ loadedValThenZero [0x66#8, 0x73#8] loaded
    (by decide)).mpr ⟨?_, notices, ?_⟩
  · rw [opcodes]
    decide
  · rw [opcodes]
    exact inside

def shortPayload : List Byte := [0x3f#8]

def loadedShort : Robj := { ptr := sdsdup server (sparseString shortPayload) }

/-- The add runs off the end, takes the terminator for a ZERO of length 1,
overwrites it with a VAL and reports a change. -/
theorem corrupt_add_succeeds :
    hllLoad server (sparseString shortPayload) = (cOk, some loadedShort) ∧
      encoding loadedShort.ptr.buf = hllSparse ∧
      ¬SparsePayload loadedShort.ptr ∧
      loadedShort.ptr.len = 17 ∧ loadedShort.ptr.buf 17 = 0x00#8 ∧
      ((pfAdd server (some loadedShort) []).map fun result =>
          (result.1, result.2.map fun o => (o.ptr.len, o.ptr.buf 17))) =
        .ok (1, some (17, 0x84#8)) ∧
      ∀ next, pfAdd server (some loadedShort) [] ≠ .ok (cErr, next) := by
  have ran : ((pfAdd server (some loadedShort) []).map fun result =>
      (result.1, result.2.map fun o => (o.ptr.len, o.ptr.buf 17))) =
      .ok (1, some (17, 0x84#8)) := by decide +kernel
  have accepted : isHLLObjectOrReply (some loadedShort) = cOk := by decide
  refine ⟨hllLoad_of_accepted _ _ accepted, by decide, by decide +kernel, rfl, by decide, ran, ?_⟩
  intro next failed
  rw [failed] at ran
  cases ran

end PhpHll
