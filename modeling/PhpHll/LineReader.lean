/-
Reading a line.

`readln` of the driver's utilities reads a stream byte by byte into a buffer
that it enlarges in steps, and returns the length of the line.  The stream is
the list of the bytes that are still to come.  Every store to the buffer is
logged with the size that the buffer has at that moment.

Enlarging the buffer does not fail, and its sizes are natural numbers: a line
long enough to overflow a `size_t` does not fit into a memory.

A line that ends with the delimiter is returned without it.  The end of the
stream is no delimiter, but the last byte is cut off there as well.
-/

import Mathlib.Algebra.Group.Int.Defs
import Mathlib.Algebra.Group.Nat.Defs
import PhpHll.Library.ByteMemory
import PhpHll.Library.Logged

namespace PhpHll

open ByteMemory Logged

/-! ### `readln` -/

/-- What the driver does that can be seen from outside: a store to the line
buffer at an offset, while its size is `bufsize`, and a call of `pfAdd`. -/
inductive DriverEvent
  | write (offset bufsize : Nat)
  | pfAdd (ele : List Byte)
  deriving DecidableEq

def growrate : Nat := 8192

def endOfFile : Int := -1

structure Reading where
  feof : Bool
  buffer : Memory
  bufsize : Nat
  pos : Nat

def writeByte (state : Reading) (offset : Nat) (byte : Byte) : Logged DriverEvent Reading := do
  emit (.write offset state.bufsize)
  pure { state with buffer := store state.buffer offset byte }

def growBuffer (state : Reading) : Logged DriverEvent Reading := do
  let oldsize := state.bufsize
  let bufsize := oldsize + growrate
  emitAll ((List.range growrate).map fun k => .write (oldsize + k) bufsize)
  pure { state with buffer := memset state.buffer oldsize 0 growrate, bufsize := bufsize }

def readlnTurn (c : Int) (state : Reading) : Logged DriverEvent Reading := do
  let state ←
    if c ≠ endOfFile then do
      let state ← writeByte state state.pos (BitVec.ofInt 8 c)
      pure { state with pos := state.pos + 1 }
    else pure state
  if state.pos = state.bufsize then growBuffer state else pure state

/-- `do ... while (c != delim && !feof(stream))`.  At the end of the stream
`getc` returns `EOF` and sets the flag. -/
def readlnLoop (delim : Byte) (state : Reading) :
    List Byte → Logged DriverEvent (Reading × List Byte)
  | [] => do
      let state ← readlnTurn endOfFile { state with feof := true }
      pure (state, [])
  | c :: stream => do
      let state ← readlnTurn c.toNat state
      if (c.toNat : Int) ≠ delim.toInt ∧ state.feof = false then readlnLoop delim state stream
      else pure (state, stream)

/-- The stream, with the flag of its end, and the line buffer: what `readln` is
given and changes. -/
structure LineSource where
  stream : List Byte
  feof : Bool
  buffer : Memory
  bufsize : Nat

/-- `return pos;` converts a `size_t` to an `int`. -/
def intOfSize (pos : Nat) : Int := (BitVec.ofNat 32 pos).toInt

def readlnEnd (state : Reading) : Logged DriverEvent Reading := do
  let state ← writeByte state state.pos 0
  if state.pos > 0 then do
    let state ← writeByte state (state.pos - 1) 0
    pure { state with pos := state.pos - 1 }
  else pure state

def LineSource.start (source : LineSource) : Reading :=
  { feof := source.feof, buffer := source.buffer, bufsize := source.bufsize, pos := 0 }

def readln (delim : Byte) (source : LineSource) : Logged DriverEvent (Int × LineSource) := do
  let (state, stream) ← readlnLoop delim source.start source.stream
  let state ← readlnEnd state
  pure (intOfSize state.pos,
    { stream := stream, feof := state.feof, buffer := state.buffer, bufsize := state.bufsize })

/-! ### The returned length -/

private theorem intOfSize_eq (pos : Nat) :
    intOfSize pos =
      if 2 * (pos % 2 ^ 32) < 2 ^ 32 then ((pos % 2 ^ 32 : Nat) : Int)
      else ((pos % 2 ^ 32 : Nat) : Int) - ((2 ^ 32 : Nat) : Int) := by
  unfold intOfSize
  rw [BitVec.toInt_eq_toNat_cond, BitVec.toNat_ofNat]

theorem intOfSize_of_lt {pos : Nat} (small : pos < 2 ^ 31) : intOfSize pos = pos := by
  rw [intOfSize_eq]
  split <;> omega

theorem intOfSize_le (pos : Nat) : intOfSize pos ≤ pos := by
  rw [intOfSize_eq]
  split <;> omega

theorem intOfSize_lt (pos : Nat) : intOfSize pos < 2 ^ 31 := by
  rw [intOfSize_eq]
  split <;> omega

/-! ### The loop -/

def newline : Byte := 10

def DriverEvent.InBuffer : DriverEvent → Prop
  | .write offset bufsize => offset < bufsize
  | .pfAdd _ => False

/-- The bytes read so far stand at the front of the buffer, which has room for
one more. -/
structure Held (read : List Byte) (state : Reading) : Prop where
  room : state.pos < state.bufsize
  bytes : readBytes state.buffer 0 state.pos = read

theorem Held.pos {read : List Byte} {state : Reading} (held : Held read state) :
    state.pos = read.length := by
  rw [← held.bytes, readBytes_length]

private theorem growBuffer_value (state : Reading) :
    (growBuffer state).value =
      { state with
        buffer := memset state.buffer state.bufsize 0 growrate
        bufsize := state.bufsize + growrate } := rfl

private theorem growBuffer_inBuffer (state : Reading) :
    (growBuffer state).Each DriverEvent.InBuffer := by
  simp only [growBuffer, each_bind, each_emitAll, each_pure, and_true]
  intro event member
  obtain ⟨k, inRange, rfl⟩ := List.mem_map.mp member
  exact Nat.add_lt_add_left (List.mem_range.mp inRange) state.bufsize

private theorem readlnTurn_grow (stored : Reading) (read : List Byte)
    (fits : stored.pos ≤ stored.bufsize)
    (bytes : readBytes stored.buffer 0 stored.pos = read) :
    Held read (if stored.pos = stored.bufsize then growBuffer stored else pure stored).value ∧
      (if stored.pos = stored.bufsize then growBuffer stored else pure stored).value.feof =
        stored.feof ∧
      (if stored.pos = stored.bufsize then growBuffer stored else pure stored).Each
        DriverEvent.InBuffer := by
  by_cases full : stored.pos = stored.bufsize
  · rw [if_pos full, growBuffer_value]
    have kept : readBytes (memset stored.buffer stored.bufsize 0 growrate) 0 stored.pos = read := by
      rw [readBytes_memset_below _ _ _ _ _ _ (by omega)]
      exact bytes
    have larger : stored.pos < stored.bufsize + growrate := by
      unfold growrate
      omega
    exact ⟨⟨larger, kept⟩, rfl, growBuffer_inBuffer stored⟩
  · rw [if_neg full]
    have room : stored.pos < stored.bufsize := by omega
    exact ⟨⟨room, bytes⟩, rfl, each_pure stored⟩

theorem readlnTurn_byte {read : List Byte} {state : Reading} (held : Held read state) (c : Byte) :
    Held (read ++ [c]) (readlnTurn c.toNat state).value ∧
      (readlnTurn c.toNat state).value.feof = state.feof ∧
      (readlnTurn c.toNat state).Each DriverEvent.InBuffer := by
  have byte : (c.toNat : Int) ≠ endOfFile := by
    unfold endOfFile
    omega
  have same : BitVec.ofInt 8 (c.toNat : Int) = c := by simp
  have before := readBytes_store_outside state.buffer 0 state.pos state.pos c
    (Or.inr (Nat.le_of_eq (Nat.zero_add _)))
  have kept : readBytes (store state.buffer state.pos c) 0 (state.pos + 1) = read ++ [c] := by
    rw [readBytes_add, before, held.bytes, Nat.zero_add, readBytes_succ, store_same, readBytes_zero]
  obtain ⟨heldNext, feof, inBuffer⟩ :=
    readlnTurn_grow { state with buffer := store state.buffer state.pos c, pos := state.pos + 1 } _
      held.room kept
  unfold readlnTurn
  simp only [if_pos byte, same, value_bind, value_pure, each_bind, each_pure, writeByte, each_emit,
    and_true, true_and]
  exact ⟨heldNext, feof, held.room, inBuffer⟩

theorem readlnTurn_eof {state : Reading} (room : state.pos < state.bufsize) :
    readlnTurn endOfFile state = pure state := by
  have notFull : state.pos ≠ state.bufsize := Nat.ne_of_lt room
  unfold readlnTurn
  simp only [ne_eq, not_true_eq_false, if_false]
  change (if state.pos = state.bufsize then growBuffer state else pure state) = pure state
  exact if_neg notFull

private theorem readlnLoop_other (state : Reading) (c : Byte) (stream : List Byte)
    (other : c ≠ newline) (more : (readlnTurn c.toNat state).value.feof = false) :
    readlnLoop newline state (c :: stream) =
      readlnTurn c.toNat state >>= fun next => readlnLoop newline next stream := by
  have differs : (c.toNat : Int) ≠ newline.toInt := by
    intro same
    apply other
    apply BitVec.eq_of_toNat_eq
    exact Int.ofNat.inj same
  have go : (c.toNat : Int) ≠ newline.toInt ∧
      (readlnTurn c.toNat state).value.feof = false := ⟨differs, more⟩
  rw [readlnLoop]
  simp only [bind, if_pos go]

/-- A run of the loop that comes to hold `read` and leaves `rest`. -/
structure LoopReads (run : Logged DriverEvent (Reading × List Byte)) (read rest : List Byte)
    (feof : Bool) : Prop where
  held : Held read run.value.1
  feof : run.value.1.feof = feof
  stream : run.value.2 = rest
  inBuffer : run.Each DriverEvent.InBuffer

private theorem LoopReads.turn {read all rest stream : List Byte} {state : Reading} {feof : Bool}
    (held : Held read state) (c : Byte) (other : c ≠ newline) (more : state.feof = false)
    (later : ∀ next, Held (read ++ [c]) next → next.feof = false →
      LoopReads (readlnLoop newline next stream) all rest feof) :
    LoopReads (readlnLoop newline state (c :: stream)) all rest feof := by
  obtain ⟨heldNext, feofNext, inBuffer⟩ := readlnTurn_byte held c
  have moreNext := feofNext.trans more
  have ends := later _ heldNext moreNext
  rw [readlnLoop_other state c stream other moreNext]
  exact
    { held := ends.held
      feof := ends.feof
      stream := ends.stream
      inBuffer := (each_bind _ _).mpr ⟨inBuffer, ends.inBuffer⟩ }

/-- The invariant of the loop up to the first newline of the stream. -/
theorem readlnLoop_line (line rest : List Byte) (inside : newline ∉ line) {read : List Byte}
    {state : Reading} (held : Held read state) (more : state.feof = false) :
    LoopReads (readlnLoop newline state (line ++ newline :: rest)) (read ++ line ++ [newline]) rest
      false := by
  induction line generalizing read state with
  | nil =>
      obtain ⟨heldNext, feof, inBuffer⟩ := readlnTurn_byte held newline
      have stop : ¬((newline.toNat : Int) ≠ newline.toInt ∧
          (readlnTurn newline.toNat state).value.feof = false) := fun ⟨other, _⟩ => other rfl
      rw [List.nil_append, List.append_nil, readlnLoop]
      constructor
      · simp only [value_bind, if_neg stop, value_pure]
        exact heldNext
      · simp only [value_bind, if_neg stop, value_pure]
        exact feof.trans more
      · simp only [value_bind, if_neg stop, value_pure]
      · simp only [each_bind, if_neg stop, each_pure, and_true]
        exact inBuffer
  | cons c line ih =>
      rw [List.mem_cons, not_or] at inside
      rw [List.cons_append, List.append_cons read c line]
      apply LoopReads.turn held c (Ne.symm inside.1) more
      intro next heldNext moreNext
      exact ih inside.2 heldNext moreNext

theorem readlnLoop_last (line : List Byte) (inside : newline ∉ line) {read : List Byte}
    {state : Reading} (held : Held read state) (more : line ≠ [] → state.feof = false) :
    LoopReads (readlnLoop newline state line) (read ++ line) [] true := by
  induction line generalizing read state with
  | nil =>
      have room : ({ state with feof := true } : Reading).pos <
          ({ state with feof := true } : Reading).bufsize := held.room
      rw [readlnLoop, readlnTurn_eof room, List.append_nil]
      constructor
      · exact ⟨held.room, held.bytes⟩
      · rfl
      · rfl
      · simp only [each_bind, each_pure, and_true]
  | cons c line ih =>
      rw [List.mem_cons, not_or] at inside
      rw [List.append_cons read c line]
      apply LoopReads.turn held c (Ne.symm inside.1) (more (List.cons_ne_nil c line))
      intro next heldNext moreNext
      exact ih inside.2 heldNext fun _ => moreNext

/-! ### The whole call -/

theorem readlnEnd_held {read : List Byte} {state : Reading} (held : Held read state) :
    (readlnEnd state).value.pos = read.length - 1 ∧
      readBytes (readlnEnd state).value.buffer 0 (read.length - 1) = read.take (read.length - 1) ∧
      (readlnEnd state).value.bufsize = state.bufsize ∧
      (readlnEnd state).value.feof = state.feof ∧
      (readlnEnd state).Each DriverEvent.InBuffer := by
  have front := readBytes_take state.buffer 0 state.pos (read.length - 1)
    (by rw [held.pos]; exact Nat.sub_le _ _)
  rw [held.bytes] at front
  have first := readBytes_store_outside state.buffer 0 state.pos (read.length - 1) 0
    (Or.inr (by rw [held.pos]; omega))
  unfold readlnEnd
  simp only [writeByte, value_bind, each_bind, value_pure, each_pure, each_emit, and_true]
  by_cases positive : state.pos > 0
  · rw [if_pos positive]
    simp only [value_bind, each_bind, value_pure, each_pure, each_emit, and_true]
    have cut : state.pos - 1 = read.length - 1 := by rw [held.pos]
    have second := readBytes_store_outside (store state.buffer state.pos 0) 0 (state.pos - 1)
      (read.length - 1) 0 (Or.inr (by omega))
    have below : state.pos - 1 < state.bufsize := Nat.lt_of_le_of_lt (Nat.sub_le _ _) held.room
    exact ⟨cut, second.trans (first.trans front), trivial, trivial, held.room, below⟩
  · rw [if_neg positive]
    simp only [value_pure, each_pure, and_true]
    have empty : state.pos = read.length - 1 := by
      rw [held.pos] at positive ⊢
      omega
    exact ⟨empty, first.trans front, trivial, trivial, held.room⟩

private theorem readlnLoop_shorter (state : Reading) (stream : List Byte) :
    (readlnLoop newline state stream).value.2.length ≤ stream.length - 1 := by
  induction stream generalizing state with
  | nil => exact Nat.le_refl 0
  | cons c stream ih =>
      rw [readlnLoop]
      simp only [value_bind, value_ite, value_pure, List.length_cons, Nat.add_sub_cancel]
      split
      · exact Nat.le_trans (ih _) (Nat.sub_le _ _)
      · exact Nat.le_refl _

private theorem readlnTurn_eof_pos (state : Reading) :
    (readlnTurn endOfFile state).value.pos = state.pos := by
  unfold readlnTurn
  simp only [ne_eq, not_true_eq_false, if_false, value_bind, value_pure, value_ite,
    growBuffer_value]
  split <;> rfl

theorem readln_shorter (source : LineSource) (more : (readln newline source).value.1 > 0) :
    (readln newline source).value.2.stream.length < source.stream.length := by
  have shorter := readlnLoop_shorter source.start source.stream
  cases stream : source.stream with
  | nil =>
      have zero : (readln newline source).value.1 = intOfSize 0 := by
        unfold readln readlnEnd
        simp only [stream, readlnLoop, writeByte, value_bind, value_pure, readlnTurn_eof_pos,
          LineSource.start, gt_iff_lt, Nat.lt_irrefl, if_false]
      rw [zero] at more
      exact absurd more (by decide)
  | cons c rest =>
      rw [stream] at shorter
      have left : (readln newline source).value.2.stream =
          (readlnLoop newline source.start (c :: rest)).value.2 := by
        unfold readln
        simp only [value_bind, value_pure, stream]
      rw [left]
      simp only [List.length_cons] at shorter ⊢
      omega

/-- A call of `readln` that returns `line` and leaves `rest`. -/
structure ReturnsLine (run : Logged DriverEvent (Int × LineSource)) (line rest : List Byte)
    (feof : Bool) : Prop where
  len : run.value.1 = intOfSize line.length
  bytes : readBytes run.value.2.buffer 0 line.length = line
  stream : run.value.2.stream = rest
  feof : run.value.2.feof = feof
  room : 0 < run.value.2.bufsize
  inBuffer : run.Each DriverEvent.InBuffer

private theorem returnsLine_of_loop {source : LineSource} {read rest : List Byte} {feof : Bool}
    (loop : LoopReads (readlnLoop newline source.start source.stream) read rest feof) :
    ReturnsLine (readln newline source) (read.take (read.length - 1)) rest feof := by
  obtain ⟨held, ended, left, inBuffer⟩ := loop
  obtain ⟨pos, bytes, bufsize, kept, inBufferEnd⟩ := readlnEnd_held held
  have length : (read.take (read.length - 1)).length = read.length - 1 := by
    rw [List.length_take]
    omega
  unfold readln
  constructor
  · simp only [value_bind, value_pure, pos, length]
  · simp only [value_bind, value_pure, length]
    exact bytes
  · simp only [value_bind, value_pure]
    exact left
  · simp only [value_bind, value_pure]
    exact kept.trans ended
  · simp only [value_bind, value_pure, bufsize]
    exact Nat.lt_of_le_of_lt (Nat.zero_le _) held.room
  · simp only [each_bind, each_pure, and_true]
    exact ⟨inBuffer, inBufferEnd⟩

section Calls

variable {source : LineSource} (room : 0 < source.bufsize)

include room

private theorem start_held : Held [] source.start := ⟨room, readBytes_zero source.buffer 0⟩

theorem readln_line (line rest : List Byte) (inside : newline ∉ line)
    (stream : source.stream = line ++ newline :: rest) (more : source.feof = false) :
    ReturnsLine (readln newline source) line rest false := by
  have loop := readlnLoop_line line rest inside (start_held room) more
  rw [← stream] at loop
  have returned := returnsLine_of_loop loop
  rwa [List.nil_append, List.length_append, List.length_singleton, Nat.add_sub_cancel,
    List.take_left] at returned

/-- Without a newline the last byte is lost. -/
theorem readln_last (line : List Byte) (inside : newline ∉ line) (stream : source.stream = line)
    (more : line ≠ [] → source.feof = false) :
    ReturnsLine (readln newline source) line.dropLast [] true := by
  have loop := readlnLoop_last line inside (start_held room) more
  rw [← stream] at loop
  have returned := returnsLine_of_loop loop
  rwa [stream, List.nil_append, ← List.dropLast_eq_take] at returned

end Calls

end PhpHll
