/-
The line counter.

`hllcnt` adds the lines of its standard input to a dense object and prints how
many it added and their count.  It takes a returned length of zero for the end
of the input, so it stops at the first blank line, and what `readln` cuts off a
last line without a newline is lost.  Every line is counted exactly when the
input consists of non-empty lines, each with its newline, and blank lines behind
them.
-/

import PhpHll.LineReader
import PhpHll.Library.Lines
import PhpHll.Reachability

namespace PhpHll

open ByteMemory Logged

/-! ### `main` -/

inductive DriverExit
  | nope
  | printed (cnt : BitVec 64) (count : CountExit)

/-- `while ((len = readln(stdin, '\n', &buffer, &bufsize)) > 0)`, and the lines
behind it. -/
def hllcntLoop (env : Env) (hll : Robj) (source : LineSource) (cnt : BitVec 64) :
    Logged DriverEvent (Except Abort DriverExit) := do
  let ⟨(len, next), read⟩ ← (readln newline source).attach
  if more : len > 0 then
    have shorter : next.stream.length < source.stream.length := by
      have shrinks := readln_shorter source
      rw [← read] at shrinks
      exact shrinks more
    let sdsbuf := sdsnewlen env (readBytes next.buffer 0 len.toNat)
    emit (.pfAdd sdsbuf.bytes)
    match pfAdd env (some hll) sdsbuf.bytes with
    | .error abort => pure (.error abort)
    | .ok (status, o) =>
        if status = cErr then pure (.ok .nope)
        else hllcntLoop env (o.getD hll) next (cnt + 1)
  else
    match pfCount env (some hll) with
    | .error abort => pure (.error abort)
    | .ok (count, _) => pure (.ok (.printed cnt count))
termination_by source.stream.length
decreasing_by exact shorter

def lineBuffer (env : Env) : Memory :=
  fun offset => if offset < growrate then 0 else env.fresh offset

def hllcntMain (env : Env) (stdin : List Byte) : Logged DriverEvent (Except Abort DriverExit) :=
  match hllCreate env with
  | .error abort => pure (.error abort)
  | .ok hll =>
      let (_, hll) := hllSparseToDense env hll
      hllcntLoop env hll
        { stream := stdin, feof := false, buffer := lineBuffer env, bufsize := growrate } 0#64

/-! ### One line -/

theorem hllcntLoop_eq (env : Env) (hll : Robj) (source : LineSource) (cnt : BitVec 64) :
    hllcntLoop env hll source cnt = (do
      let (len, next) ← readln newline source
      if len > 0 then
        let ele := readBytes next.buffer 0 len.toNat
        emit (.pfAdd ele)
        match pfAdd env (some hll) ele with
        | .error abort => pure (.error abort)
        | .ok (status, o) =>
            if status = cErr then pure (.ok .nope)
            else hllcntLoop env (o.getD hll) next (cnt + 1)
      else
        match pfCount env (some hll) with
        | .error abort => pure (.error abort)
        | .ok (count, _) => pure (.ok (.printed cnt count))) := by
  rw [hllcntLoop]
  simp only [sdsnewlen_bytes, dite_eq_ite]
  rfl

/-- The element that is added for a returned line: its first bytes, as many as
the length has left as an `int`, and none if that is not positive. -/
def addedFor (line : List Byte) : Option (List Byte) :=
  if intOfSize line.length > 0 then some (line.take (intOfSize line.length).toNat) else none

def DriverEvent.element : DriverEvent → Option (List Byte)
  | .write _ _ => none
  | .pfAdd ele => some ele

def elementsOf (run : Logged DriverEvent (Except Abort DriverExit)) : List (List Byte) :=
  run.events.filterMap DriverEvent.element

def StoresInBuffer (run : Logged DriverEvent (Except Abort DriverExit)) : Prop :=
  ∀ offset bufsize, .write offset bufsize ∈ run.events → offset < bufsize

/-- A run of the loop that adds `elements` to an object that was fed `before`,
and prints how many they are and the count of all. -/
structure Drives (env : Env) (before elements : List (List Byte)) (cnt : BitVec 64)
    (run : Logged DriverEvent (Except Abort DriverExit)) : Prop where
  passes : elementsOf run = elements
  inBuffer : StoresInBuffer run
  prints : ∃ last card after, Built env (before ++ elements) last ∧
    pfCount env (some last) = .ok (.card card, some after) ∧
    run.value = .ok (.printed (cnt + BitVec.ofNat 64 elements.length) (.card card))

theorem Built.pfAdd {env : Env} {eles : List (List Byte)} {o : Robj} (built : Built env eles o)
    (ele : List Byte) :
    ∃ status next, pfAdd env (some o) ele = .ok (status, some next) ∧ status ≠ cErr ∧
      Built env (eles ++ [ele]) next := by
  have added : ∃ status next, PhpHll.pfAdd env (some o) ele = .ok (status, some next) ∧
      status ≠ cErr := by
    rw [pfAdd_eq_pfAddMany]
    rcases pfAddMany_spec built.valid [ele] with ⟨_unchanged, next, ran, _⟩ | ⟨_changed, next, ran, _⟩
    · exact ⟨0, next, ran, by decide⟩
    · exact ⟨1, next, ran, by decide⟩
  obtain ⟨status, next, ran, good⟩ := added
  have step : Op.step env (.add ele) o = .ok (.status status, next) := by
    simp only [Op.step, ran, Option.getD_some]
  have noSources : ∀ source ∈ (Op.add ele).sources, Built env [] source.2 := by
    intro source member
    cases member
  exact ⟨status, next, ran, good,
    .step (.add ele) o next (.status status) eles (fun _ => []) built noSources step⟩

theorem Built.pfCount {env : Env} {eles : List (List Byte)} {o : Robj} (built : Built env eles o) :
    ∃ card after, pfCount env (some o) = .ok (.card card, some after) := by
  have count := pfCount_spec env built.valid.wellFormed
  cases cached : cachedCard o.ptr.buf with
  | some card =>
      rw [cached] at count
      exact ⟨card, o, count⟩
  | none =>
      rw [cached] at count
      exact ⟨_, _, count⟩

private theorem elementsOf_readln {events : List DriverEvent}
    (inBuffer : ∀ event ∈ events, event.InBuffer) :
    events.filterMap DriverEvent.element = [] := by
  rw [List.filterMap_eq_nil_iff]
  intro event member
  have stored := inBuffer event member
  cases event with
  | write offset bufsize => rfl
  | pfAdd ele => cases stored

section Lines

variable {env : Env} {eles : List (List Byte)} {hll : Robj} (built : Built env eles hll)
variable {source : LineSource} {line rest : List Byte} {feof : Bool}
variable (returned : ReturnsLine (readln newline source) line rest feof) (cnt : BitVec 64)

include built returned

theorem drives_stop (nothing : addedFor line = none) :
    Drives env eles [] cnt (hllcntLoop env hll source cnt) := by
  have small : ¬(readln newline source).value.1 > 0 := by
    intro positive
    rw [returned.len] at positive
    rw [addedFor, if_pos positive] at nothing
    cases nothing
  obtain ⟨card, after, counted⟩ := built.pfCount
  have events : (hllcntLoop env hll source cnt).events = (readln newline source).events ++ [] := by
    rw [hllcntLoop_eq]
    simp only [bind, if_neg small, counted]
    rfl
  have value : (hllcntLoop env hll source cnt).value = .ok (.printed cnt (.card card)) := by
    rw [hllcntLoop_eq]
    simp only [value_bind, if_neg small, counted, value_pure]
  rw [List.append_nil] at events
  constructor
  · unfold elementsOf
    rw [events]
    exact elementsOf_readln returned.inBuffer
  · intro offset bufsize member
    rw [events] at member
    exact returned.inBuffer _ member
  · rw [List.append_nil, value]
    have same : cnt + BitVec.ofNat 64 ([] : List (List Byte)).length = cnt := BitVec.add_zero cnt
    rw [same]
    exact ⟨hll, card, after, built, counted, rfl⟩

theorem drives_add {ele : List Byte} (added : addedFor line = some ele)
    {elements : List (List Byte)}
    (goesOn : ∀ next, Built env (eles ++ [ele]) next →
      Drives env (eles ++ [ele]) elements (cnt + 1)
        (hllcntLoop env next (readln newline source).value.2 (cnt + 1))) :
    Drives env eles (ele :: elements) cnt (hllcntLoop env hll source cnt) := by
  have positive : intOfSize line.length > 0 := by
    by_contra small
    rw [addedFor, if_neg small] at added
    cases added
  have large : (readln newline source).value.1 > 0 := by
    rw [returned.len]
    exact positive
  have stored : readBytes (readln newline source).value.2.buffer 0
      (readln newline source).value.1.toNat = ele := by
    have fewer : (intOfSize line.length).toNat ≤ line.length := by
      have bound := intOfSize_le line.length
      omega
    rw [addedFor, if_pos positive] at added
    rw [returned.len, readBytes_take _ _ _ _ fewer, returned.bytes]
    exact Option.some.inj added
  obtain ⟨status, next, ran, good, builtNext⟩ := built.pfAdd ele
  obtain ⟨passes, inBuffer, prints⟩ := goesOn next builtNext
  have events : (hllcntLoop env hll source cnt).events = (readln newline source).events ++
      .pfAdd ele :: (hllcntLoop env next (readln newline source).value.2 (cnt + 1)).events := by
    rw [hllcntLoop_eq]
    simp only [bind, if_pos large, stored, ran, if_neg good, Option.getD_some]
    rfl
  have value : (hllcntLoop env hll source cnt).value =
      (hllcntLoop env next (readln newline source).value.2 (cnt + 1)).value := by
    rw [hllcntLoop_eq]
    simp only [value_bind, if_pos large, stored, ran, if_neg good, Option.getD_some]
  constructor
  · unfold elementsOf
    rw [events, List.filterMap_append, elementsOf_readln returned.inBuffer, List.nil_append]
    exact congrArg (List.cons ele) passes
  · intro offset bufsize member
    rw [events, List.mem_append, List.mem_cons] at member
    rcases member with early | impossible | late
    · exact returned.inBuffer _ early
    · cases impossible
    · exact inBuffer offset bufsize late
  · obtain ⟨last, card, after, builtLast, counted, printed⟩ := prints
    have total : cnt + 1 + BitVec.ofNat 64 elements.length =
        cnt + BitVec.ofNat 64 (ele :: elements).length := by
      rw [List.length_cons, Nat.add_comm elements.length 1, BitVec.ofNat_add, BitVec.add_assoc]
      rfl
    rw [List.append_assoc, List.singleton_append] at builtLast
    rw [total] at printed
    exact ⟨last, card, after, builtLast, counted, value.trans printed⟩

end Lines

/-! ### The whole input -/

/-- The elements that are added for the pieces of an input between its newlines.
The last piece loses its last byte. -/
def passedLines : List (List Byte) → List (List Byte)
  | [] => []
  | [last] => (addedFor last.dropLast).toList
  | line :: next :: more =>
      match addedFor line with
      | none => []
      | some ele => ele :: passedLines (next :: more)

private theorem first_newline (stream : List Byte) :
    newline ∉ stream ∨ ∃ line rest, newline ∉ line ∧ stream = line ++ newline :: rest := by
  by_cases inside : newline ∈ stream
  · obtain ⟨line, rest, split, before⟩ := List.eq_append_cons_of_mem inside
    exact Or.inr ⟨line, rest, before, split⟩
  · exact Or.inl inside

/-- The step of the loop, once for each line, and the run by the number of bytes
that are left. -/
theorem hllcntLoop_drives {env : Env} {eles : List (List Byte)} {hll : Robj}
    (built : Built env eles hll) (source : LineSource) (room : 0 < source.bufsize)
    (more : source.stream ≠ [] → source.feof = false) (cnt : BitVec 64) :
    Drives env eles (passedLines (source.stream.splitOn newline)) cnt
      (hllcntLoop env hll source cnt) := by
  induction left : source.stream.length using Nat.strong_induction_on
    generalizing eles hll source cnt with
  | _ length ih =>
      rcases first_newline source.stream with last | ⟨line, rest, inside, stream⟩
      · have returned := readln_last room source.stream last rfl more
        rw [List.splitOn_eq_singleton last, passedLines]
        cases added : addedFor source.stream.dropLast with
        | none => exact drives_stop built returned cnt added
        | some ele =>
            apply drives_add built returned cnt added
            intro next builtNext
            have ended := readln_last returned.room [] List.not_mem_nil returned.stream
              fun impossible => absurd rfl impossible
            exact drives_stop builtNext ended _ rfl
      · have nonempty : source.stream ≠ [] := by
          rw [stream]
          simp
        have returned := readln_line room line rest inside stream (more nonempty)
        obtain ⟨next, pieces, split⟩ := List.exists_cons_of_ne_nil (List.splitOn_ne_nil newline rest)
        rw [stream, List.splitOn_append_cons_self_of_not_mem inside, split, passedLines]
        cases added : addedFor line with
        | none => exact drives_stop built returned cnt added
        | some ele =>
            apply drives_add built returned cnt added
            intro object builtNext
            have fewer : rest.length < length := by
              rw [← left, stream, List.length_append, List.length_cons]
              omega
            have later := ih rest.length fewer builtNext (readln newline source).value.2
              returned.room (fun _ => returned.feof) (cnt + 1) (congrArg List.length returned.stream)
            rw [returned.stream, split] at later
            exact later

theorem hllcntMain_drives (env : Env) (stdin : List Byte) :
    Drives env [] (passedLines (stdin.splitOn newline)) 0#64 (hllcntMain env stdin) := by
  obtain ⟨dense, promoted, _⟩ := hllSparseToDense_spec (created_valid env)
  have step : Op.step env .toDense (created env) = .ok (.status cOk, dense) := by
    simp only [Op.step, promoted]
  have noSources : ∀ source ∈ Op.toDense.sources, Built env [] source.2 := by
    intro source member
    cases member
  have built : Built env [] dense :=
    .step .toDense (created env) dense (.status cOk) [] (fun _ => [])
      (.create (created env) (hllCreate_eq env)) noSources step
  have room : 0 < growrate := by decide
  have loop := hllcntLoop_drives built
    { stream := stdin, feof := false, buffer := lineBuffer env, bufsize := growrate }
    room (fun _ => rfl) 0#64
  have run : hllcntMain env stdin = hllcntLoop env dense
      { stream := stdin, feof := false, buffer := lineBuffer env, bufsize := growrate } 0#64 := by
    unfold hllcntMain
    simp only [hllCreate_eq, promoted]
  rw [run]
  exact loop

/-- For any input, the line buffer is never left. -/
theorem hllcntMain_storesInBuffer (env : Env) (stdin : List Byte) :
    StoresInBuffer (hllcntMain env stdin) :=
  (hllcntMain_drives env stdin).inBuffer

/-- The driver prints how many elements it added and the count of these elements. -/
theorem hllcntMain_prints (env : Env) (empty : env.estimate 16384 16384 = 0) (stdin : List Byte) :
    (hllcntMain env stdin).value = .ok
      (.printed (BitVec.ofNat 64 (elementsOf (hllcntMain env stdin)).length)
        (.card (countOf env (sketchOf (elementsOf (hllcntMain env stdin)))))) := by
  obtain ⟨passes, _inBuffer, last, card, after, built, counted, printed⟩ :=
    hllcntMain_drives env stdin
  rw [List.nil_append] at built
  obtain ⟨next, count, _⟩ := pfCount_coherent built.valid.wellFormed (built.coherent empty)
  rw [counted, built.registers] at count
  cases count
  rw [printed, passes, BitVec.zero_add]

theorem hllcntMain_prints_line :
    (hllcntMain server [0x61#8, newline]).value = .ok
      (.printed (BitVec.ofNat 64 (elementsOf (hllcntMain server [0x61#8, newline])).length)
        (.card (countOf server (sketchOf (elementsOf (hllcntMain server [0x61#8, newline])))))) :=
  hllcntMain_prints server rfl [0x61#8, newline]

/-! ### When every line is counted -/

def nonBlank (pieces : List (List Byte)) : List (List Byte) :=
  pieces.filter fun piece => piece ≠ []

/-- Every non-empty line of the input is added as it is and in order, the
printed number is how many they are, and no store leaves the line buffer. -/
def CountsEveryLine (env : Env) (stdin : List Byte) : Prop :=
  elementsOf (hllcntMain env stdin) = nonBlank (stdin.splitOn newline) ∧
    (∃ cnt count, (hllcntMain env stdin).value = .ok (.printed cnt count) ∧
      cnt.toNat = (nonBlank (stdin.splitOn newline)).length) ∧
    StoresInBuffer (hllcntMain env stdin)

/-- Non-empty lines with their newlines, and then nothing but newlines; the
lines are shorter than `2 ^ 31` and fewer than `2 ^ 64`. -/
def Framed (stdin : List Byte) : Prop :=
  ∃ (lines : List (List Byte)) (blanks : Nat),
    stdin = Lines.terminated newline lines ++ List.replicate blanks newline ∧
      (∀ line ∈ lines, newline ∉ line ∧ line ≠ [] ∧ line.length < 2 ^ 31) ∧
      lines.length < 2 ^ 64

theorem addedFor_eq_self_iff (line : List Byte) :
    addedFor line = some line ↔ line ≠ [] ∧ line.length < 2 ^ 31 := by
  have limit := intOfSize_lt line.length
  constructor
  · intro added
    by_cases positive : intOfSize line.length > 0
    · rw [addedFor, if_pos positive, Option.some_inj, List.take_eq_self_iff] at added
      constructor
      · intro empty
        rw [empty] at positive
        exact absurd positive (by decide)
      · omega
    · rw [addedFor, if_neg positive] at added
      cases added
  · rintro ⟨nonempty, short⟩
    have length := List.length_pos_iff.mpr nonempty
    have same := intOfSize_of_lt short
    have positive : intOfSize line.length > 0 := by omega
    rw [addedFor, if_pos positive, Option.some_inj, List.take_eq_self_iff]
    omega

private theorem nonBlank_cons (line : List Byte) (pieces : List (List Byte)) :
    nonBlank (line :: pieces) = if line ≠ [] then line :: nonBlank pieces else nonBlank pieces := by
  simp [nonBlank, List.filter_cons]

private theorem nonBlank_eq_nil_iff (pieces : List (List Byte)) :
    nonBlank pieces = [] ↔ pieces = List.replicate pieces.length [] := by
  rw [nonBlank, List.filter_eq_nil_iff, List.eq_replicate_iff]
  simp

private theorem addedFor_length {line ele : List Byte} (added : addedFor line = some ele) :
    ele.length ≤ line.length := by
  unfold addedFor at added
  split at added
  · cases added
    rw [List.length_take]
    exact Nat.min_le_right _ _
  · cases added

private theorem passed_last (last : List Byte) :
    (addedFor last.dropLast).toList = nonBlank [last] ↔ last = [] := by
  rw [nonBlank_cons]
  constructor
  · intro same
    by_contra nonempty
    rw [if_pos nonempty] at same
    have added : addedFor last.dropLast = some last := by
      cases result : addedFor last.dropLast with
      | none =>
          rw [result] at same
          cases same
      | some ele =>
          rw [result] at same
          cases same
          rfl
    have shorter := addedFor_length added
    rw [List.length_dropLast] at shorter
    have positive := List.length_pos_iff.mpr nonempty
    omega
  · rintro rfl
    rfl

def FramedPieces (pieces : List (List Byte)) : Prop :=
  ∃ (lines : List (List Byte)) (blanks : Nat),
    pieces = lines ++ List.replicate (blanks + 1) [] ∧
      ∀ line ∈ lines, line ≠ [] ∧ line.length < 2 ^ 31

private theorem framedPieces_last (last : List Byte) : FramedPieces [last] ↔ last = [] := by
  constructor
  · rintro ⟨lines, blanks, split, _good⟩
    have ends := congrArg List.getLast? split
    rw [List.replicate_succ', ← List.append_assoc, List.getLast?_concat] at ends
    exact Option.some.inj ends
  · rintro rfl
    exact ⟨[], 0, rfl, List.forall_mem_nil _⟩

private theorem framedPieces_blank (pieces : List (List Byte)) :
    FramedPieces ([] :: pieces) ↔ nonBlank pieces = [] := by
  rw [nonBlank_eq_nil_iff]
  constructor
  · rintro ⟨lines, blanks, split, good⟩
    cases lines with
    | nil =>
        rw [List.nil_append, List.replicate_succ] at split
        have same : pieces = List.replicate blanks [] := (List.cons.inj split).2
        rw [same, List.length_replicate]
    | cons line lines =>
        have blank : [] = line := (List.cons.inj split).1
        exact absurd blank.symm (good line List.mem_cons_self).1
  · intro same
    have split : [] :: pieces = [] ++ List.replicate (pieces.length + 1) [] := by
      rw [List.nil_append, List.replicate_succ, ← same]
    exact ⟨[], pieces.length, split, List.forall_mem_nil _⟩

private theorem framedPieces_cons {line : List Byte} (nonempty : line ≠ [])
    (pieces : List (List Byte)) :
    FramedPieces (line :: pieces) ↔ line.length < 2 ^ 31 ∧ FramedPieces pieces := by
  constructor
  · rintro ⟨lines, blanks, split, good⟩
    cases lines with
    | nil => exact absurd (List.cons.inj split).1 nonempty
    | cons first lines =>
        obtain ⟨same, rest⟩ := List.cons.inj split
        rw [List.forall_mem_cons] at good
        rw [same]
        exact ⟨good.1.2, lines, blanks, rest, good.2⟩
  · rintro ⟨short, lines, blanks, split, good⟩
    have all : ∀ other ∈ line :: lines, other ≠ [] ∧ other.length < 2 ^ 31 :=
      List.forall_mem_cons.mpr ⟨⟨nonempty, short⟩, good⟩
    exact ⟨line :: lines, blanks, by rw [split, List.cons_append], all⟩

/-- The lines that are passed are all the lines exactly when those before the
first blank one are short enough and no other follows. -/
theorem passedLines_eq_iff (pieces : List (List Byte)) (nonempty : pieces ≠ []) :
    passedLines pieces = nonBlank pieces ↔ FramedPieces pieces := by
  induction pieces with
  | nil => exact absurd rfl nonempty
  | cons line pieces ih =>
      cases pieces with
      | nil => rw [passedLines, passed_last, framedPieces_last]
      | cons next more =>
          rw [passedLines]
          by_cases blank : line = []
          · have nothing : addedFor line = none := by
              rw [blank]
              rfl
            rw [nothing, nonBlank_cons, if_neg (not_not.mpr blank), blank, framedPieces_blank]
            exact eq_comm
          · have whole := addedFor_eq_self_iff line
            rw [nonBlank_cons, if_pos blank, framedPieces_cons blank,
              ← ih (List.cons_ne_nil next more)]
            cases added : addedFor line with
            | none =>
                rw [added] at whole
                have long : ¬line.length < 2 ^ 31 := by
                  intro short
                  cases whole.mpr ⟨blank, short⟩
                constructor
                · intro impossible
                  cases impossible
                · intro both
                  exact absurd both.1 long
            | some ele =>
                rw [added, Option.some_inj] at whole
                simp only [List.cons.injEq, whole, blank, ne_eq, not_false_eq_true, true_and]

theorem framed_iff_pieces (stdin : List Byte) :
    Framed stdin ↔
      FramedPieces (stdin.splitOn newline) ∧ (nonBlank (stdin.splitOn newline)).length < 2 ^ 64 := by
  have count : ∀ (lines : List (List Byte)) (blanks : Nat), (∀ line ∈ lines, line ≠ []) →
      nonBlank (lines ++ List.replicate (blanks + 1) []) = lines := by
    intro lines blanks nonempty
    have kept : lines.filter (fun piece => piece ≠ []) = lines :=
      List.filter_eq_self.mpr fun line member => decide_eq_true (nonempty line member)
    rw [nonBlank, List.filter_append, kept]
    simp
  constructor
  · rintro ⟨lines, blanks, stream, good, few⟩
    have inside : ∀ line ∈ lines, newline ∉ line := fun line member => (good line member).1
    have split := (Lines.splitOn_eq_iff newline stdin lines blanks).mpr ⟨stream, inside⟩
    rw [split, count lines blanks fun line member => (good line member).2.1]
    exact ⟨⟨lines, blanks, rfl, fun line member => (good line member).2⟩, few⟩
  · rintro ⟨⟨lines, blanks, split, good⟩, few⟩
    obtain ⟨stream, inside⟩ := (Lines.splitOn_eq_iff newline stdin lines blanks).mp split
    rw [split, count lines blanks fun line member => (good line member).1] at few
    exact ⟨lines, blanks, stream, fun line member => ⟨inside line member, good line member⟩, few⟩

/-- The elements, the count of them and the stores, for any input; and every
line is counted exactly for the framed inputs. -/
theorem hllcnt_counts_every_line_iff (env : Env) (stdin : List Byte) :
    CountsEveryLine env stdin ↔ Framed stdin := by
  obtain ⟨passes, inBuffer, _last, card, _after, _built, _counted, printed⟩ :=
    hllcntMain_drives env stdin
  have pieces := passedLines_eq_iff (stdin.splitOn newline) (List.splitOn_ne_nil _ _)
  rw [framed_iff_pieces, ← pieces]
  unfold CountsEveryLine
  rw [passes, printed]
  constructor
  · rintro ⟨same, ⟨cnt, count, answer, total⟩, _stores⟩
    cases answer
    rw [same, BitVec.zero_add, BitVec.toNat_ofNat] at total
    exact ⟨same, by omega⟩
  · rintro ⟨same, few⟩
    have total : (0#64 + BitVec.ofNat 64 (passedLines (stdin.splitOn newline)).length).toNat =
        (nonBlank (stdin.splitOn newline)).length := by
      rw [same, BitVec.zero_add, BitVec.toNat_ofNat, Nat.mod_eq_of_lt few]
    exact ⟨same, ⟨_, .card card, rfl, total⟩, inBuffer⟩

/-- The second line behind a blank one is not added, and a last line loses its
last byte. -/
theorem hllcnt_misses_lines :
    elementsOf (hllcntMain server [0x61, newline, newline, 0x62, newline]) = [[0x61]] ∧
      ¬CountsEveryLine server [0x61, newline, newline, 0x62, newline] ∧
      elementsOf (hllcntMain server [0x61, 0x62]) = [[0x61]] ∧
      ¬CountsEveryLine server [0x61, 0x62] := by
  have blank := (hllcntMain_drives server [0x61, newline, newline, 0x62, newline]).passes
  have unended := (hllcntMain_drives server [0x61, 0x62]).passes
  have blankLines : passedLines ([0x61, newline, newline, 0x62, newline].splitOn newline) =
      [[0x61]] := by decide
  have unendedLines : passedLines ([0x61, 0x62].splitOn newline) = [[0x61]] := by decide
  rw [blankLines] at blank
  rw [unendedLines] at unended
  refine ⟨blank, ?_, unended, ?_⟩
  · rintro ⟨every, _⟩
    rw [blank] at every
    exact absurd every (by decide)
  · rintro ⟨every, _⟩
    rw [unended] at every
    exact absurd every (by decide)

end PhpHll
