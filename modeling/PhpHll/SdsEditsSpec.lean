/-
What the edits of a string do.

An edit is described by the bytes it leaves.  It keeps the terminator, and with
the accesses it makes it stays inside the allocation that the header accounts
for: before the edit, during it and behind it.  Runs of edits then are runs of
an abstract machine on lists of bytes.  That the lengths of the source are
`int` makes no difference as long as every string of a run is shorter than
`2 ^ 31` bytes.
-/

import Mathlib.Data.List.DropRight
import Mathlib.Data.List.TakeWhile
import PhpHll.SdsEdits
import PhpHll.Library.Machine

namespace PhpHll

open ByteMemory Logged Allocation

structure Edits (s : Sds) (edit : Logged Touch Sds) (bytes : List Byte) : Prop where
  bytes : edit.value.bytes = bytes
  terminated : edit.value.Terminated
  stays : Stays s.room edit edit.value.room

theorem Edits.after {Value : Type} {s : Sds} {before : Logged Touch Value}
    {edit : Value → Logged Touch Sds} {bytes : List Byte} (stays : Stays s.room before s.room)
    (edits : Edits s (edit before.value) bytes) : Edits s (before >>= edit) bytes :=
  ⟨edits.bytes, edits.terminated, stays.bind edits.stays⟩

/-! ### Blocks of a string -/

section Blocks

variable {size : Nat}

theorem loadAt_stays (s : Sds) {offset : Nat} (inside : offset < size) :
    Stays size (loadAt s offset) size :=
  (stays_read ⟨by omega, by omega⟩).bind (stays_pure _ _)

theorem storeAt_stays (s : Sds) {offset : Nat} (byte : Byte) (inside : offset < size) :
    Stays size (storeAt s offset byte) size :=
  (stays_write ⟨by omega, by omega⟩).bind (stays_pure _ _)

theorem copyInto_stays (s : Sds) {target : Nat} (bytes : List Byte)
    (inside : target + bytes.length ≤ size) : Stays size (copyInto s target bytes) size :=
  (stays_writes (by omega) (by omega)).bind (stays_pure _ _)

theorem moveWithin_stays (s : Sds) {target source count : Nat} (inTarget : target + count ≤ size)
    (inSource : source + count ≤ size) : Stays size (moveWithin s target source count) size :=
  (stays_reads (by omega) (by omega)).bind
    ((stays_writes (by omega) (by omega)).bind (stays_pure _ _))

theorem clearBlock_stays (s : Sds) {target count : Nat} (inside : target + count ≤ size) :
    Stays size (clearBlock s target count) size :=
  (stays_writes (by omega) (by omega)).bind (stays_pure _ _)

end Blocks

private theorem readBytes_store_end (memory : Memory) (count : Nat) (byte : Byte) :
    readBytes (store memory count byte) 0 count = readBytes memory 0 count :=
  readBytes_store_outside memory 0 count count byte (Or.inr (by omega))

theorem Edits.of_value {s : Sds} {edit : Logged Touch Sds} {bytes : List Byte} {len free : Nat}
    {buf : Memory} (value : edit.value = { len := len, free := free, buf := buf })
    (front : readBytes buf 0 len = bytes) (terminated : buf len = 0)
    (stays : Stays s.room edit (len + free + 1)) : Edits s edit bytes := by
  refine ⟨?_, ?_, ?_⟩
  · rw [value]
    exact front
  · rw [value]
    exact terminated
  · rw [value]
    exact stays

theorem sdsMakeRoomForLogged_value (s : Sds) (addlen : Nat) :
    (sdsMakeRoomForLogged s addlen).value = sdsMakeRoomFor s addlen := by
  rw [sdsMakeRoomForLogged, sdsMakeRoomFor, value_ite]
  rfl

theorem sdsMakeRoomForLogged_stays (s : Sds) (addlen : Nat) :
    Stays s.room (sdsMakeRoomForLogged s addlen) (sdsMakeRoomFor s addlen).room := by
  unfold sdsMakeRoomForLogged sdsMakeRoomFor
  by_cases enough : addlen ≤ s.free
  · rw [if_pos enough, if_pos enough]
    exact stays_pure _ _
  · rw [if_neg enough, if_neg enough]
    simp only [Sds.room]
    refine (stays_resize _ _).bind ?_
    have longer : s.len ≤ if s.len + addlen < sdsMaxPrealloc then (s.len + addlen) * 2
        else s.len + addlen + sdsMaxPrealloc := by
      split <;> omega
    rw [Nat.add_sub_cancel' longer]
    exact stays_pure _ _

/-- Behind `sdsMakeRoomFor` there is room for the bytes and a terminator. -/
theorem sdsMakeRoomFor_room (s : Sds) (addlen : Nat) :
    (sdsMakeRoomFor s addlen).room = s.len + (sdsMakeRoomFor s addlen).free + 1 ∧
      addlen ≤ (sdsMakeRoomFor s addlen).free :=
  ⟨by rw [Sds.room, sdsMakeRoomFor_len], sdsMakeRoomFor_free s addlen⟩

/-! ### Growing and shrinking -/

theorem sdsMakeRoomFor_edits (s : Sds) (addlen : Nat) (terminated : s.Terminated) :
    Edits s (sdsMakeRoomForLogged s addlen) s.bytes := by
  refine ⟨?_, ?_, ?_⟩
  · rw [sdsMakeRoomForLogged_value, Sds.bytes, Sds.bytes, sdsMakeRoomFor_len, sdsMakeRoomFor_buf]
  · rw [sdsMakeRoomForLogged_value, Sds.Terminated, sdsMakeRoomFor_len, sdsMakeRoomFor_buf]
    exact terminated
  · rw [sdsMakeRoomForLogged_value]
    exact sdsMakeRoomForLogged_stays s addlen

theorem sdsRemoveFreeSpace_edits (s : Sds) (terminated : s.Terminated) :
    Edits s (sdsRemoveFreeSpace s) s.bytes :=
  ⟨rfl, terminated, (stays_resize _ _).bind (stays_pure _ _)⟩

theorem sdscatlen_edits (s : Sds) (t : List Byte) : Edits s (sdscatlen s t) (s.bytes ++ t) := by
  obtain ⟨room, enough⟩ := sdsMakeRoomFor_room s t.length
  have value : (sdscatlen s t).value =
      { len := s.len + t.length
        free := (sdsMakeRoomFor s t.length).free - t.length
        buf := store (memcpy s.buf s.len t) (s.len + t.length) 0 } := by
    rw [← sdsMakeRoomFor_buf s t.length, ← sdsMakeRoomForLogged_value]
    rfl
  refine Edits.of_value value ?_ (store_same _ _ _) ?_
  · rw [readBytes_store_end, readBytes_add, Nat.zero_add,
      readBytes_memcpy_outside _ _ _ _ _ (Or.inl (by omega)), readBytes_memcpy]
    rfl
  · have total : s.len + t.length + ((sdsMakeRoomFor s t.length).free - t.length) + 1 =
        (sdsMakeRoomFor s t.length).room := by omega
    rw [total]
    refine (sdsMakeRoomForLogged_stays s t.length).bind ?_
    exact (copyInto_stays _ t (by omega)).bind (storeAt_stays _ 0 (by omega))

theorem sdsgrowzero_edits (s : Sds) (len : Nat) (terminated : s.Terminated) :
    Edits s (sdsgrowzero s len) (s.bytes ++ List.replicate (len - s.len) 0) := by
  by_cases longer : s.len < len
  · obtain ⟨room, enough⟩ := sdsMakeRoomFor_room s (len - s.len)
    have grows : ¬len ≤ s.len := by omega
    have value : (sdsgrowzero s len).value =
        { len := len
          free := s.len + (sdsMakeRoomFor s (len - s.len)).free - len
          buf := memset s.buf s.len 0 (len - s.len + 1) } := by
      rw [sdsgrowzero, if_neg grows, ← sdsMakeRoomFor_buf s (len - s.len)]
      simp only [value_bind, value_pure, sdsMakeRoomForLogged_value, clearBlock, sdsMakeRoomFor_len]
    refine Edits.of_value value ?_ (if_pos ⟨by omega, by omega⟩) ?_
    · have split : readBytes (memset s.buf s.len 0 (len - s.len + 1)) 0 len =
          readBytes (memset s.buf s.len 0 (len - s.len + 1)) 0 (s.len + (len - s.len)) := by
        rw [Nat.add_sub_cancel' (by omega)]
      rw [split, readBytes_add, Nat.zero_add, readBytes_memset_below _ _ _ _ _ _ (by omega),
        readBytes_memset _ _ _ _ _ (by omega)]
      rfl
    · have total : len + (s.len + (sdsMakeRoomFor s (len - s.len)).free - len) + 1 =
          (sdsMakeRoomFor s (len - s.len)).room := by omega
      rw [total, sdsgrowzero, if_neg grows]
      refine (sdsMakeRoomForLogged_stays s (len - s.len)).bind ?_
      exact (clearBlock_stays _ (by omega)).bind (stays_pure _ _)
  · have same : sdsgrowzero s len = pure s := if_pos (by omega)
    have nothing : len - s.len = 0 := by omega
    rw [same, nothing, List.replicate_zero, List.append_nil]
    exact ⟨rfl, terminated, stays_pure _ _⟩

/-- The string that `sdscpylen` copies into has the room, grown for it or not. -/
private theorem sdscpylen_room (s : Sds) (length : Nat) :
    ∃ room : Sds,
      (if s.free + s.len < length then sdsMakeRoomForLogged s (length - s.len) else pure s).value =
        room ∧
      length ≤ room.free + room.len ∧
      Stays s.room
        (if s.free + s.len < length then sdsMakeRoomForLogged s (length - s.len) else pure s)
        room.room := by
  by_cases short : s.free + s.len < length
  · obtain ⟨room, enough⟩ := sdsMakeRoomFor_room s (length - s.len)
    rw [if_pos short]
    refine ⟨_, sdsMakeRoomForLogged_value s (length - s.len), ?_, sdsMakeRoomForLogged_stays _ _⟩
    rw [sdsMakeRoomFor_len]
    omega
  · rw [if_neg short]
    exact ⟨s, rfl, by omega, stays_pure _ _⟩

theorem sdscpylen_edits (s : Sds) (t : List Byte) : Edits s (sdscpylen s t) t := by
  obtain ⟨room, grown, enough, stays⟩ := sdscpylen_room s t.length
  have value : (sdscpylen s t).value =
      { len := t.length
        free := room.free + room.len - t.length
        buf := store (memcpy room.buf 0 t) t.length 0 } := by
    rw [← grown]
    rfl
  refine Edits.of_value value ?_ (store_same _ _ _) ?_
  · rw [readBytes_store_end, readBytes_memcpy]
  · have total : t.length + (room.free + room.len - t.length) + 1 = room.room := by
      rw [Sds.room]
      omega
    have inside : t.length < room.room := by
      rw [Sds.room]
      omega
    rw [total]
    refine stays.bind ?_
    rw [grown]
    refine (copyInto_stays _ t (by omega)).bind ?_
    exact (storeAt_stays _ 0 inside).bind (stays_pure _ _)

/-! ### Cutting -/

theorem strlen_le (bytes : List Byte) : strlen bytes ≤ bytes.length :=
  (List.takeWhile_prefix _).length_le

theorem take_strlen (bytes : List Byte) :
    bytes.take (strlen bytes) = bytes.takeWhile fun byte => byte ≠ 0 :=
  (List.prefix_iff_eq_take.mp (List.takeWhile_prefix _)).symm

/-- The byte behind the C string is the NUL that ends it. -/
theorem getElem?_strlen (bytes : List Byte) (byte : Byte)
    (found : bytes[strlen bytes]? = some byte) : byte = 0 := by
  induction bytes with
  | nil => cases found
  | cons first rest ih =>
      by_cases nul : first = 0
      · rw [strlen, nul] at found
        exact (Option.some.inj found).symm
      · have longer : strlen (first :: rest) = strlen rest + 1 := by
          rw [strlen, strlen, List.takeWhile_cons_of_pos (p := fun byte : Byte => byte ≠ 0)
            (decide_eq_true nul), List.length_cons]
        rw [longer, List.getElem?_cons_succ] at found
        exact ih found

theorem terminated_strlen (s : Sds) (terminated : s.Terminated) :
    s.buf (strlen s.bytes) = 0 := by
  have short := strlen_le s.bytes
  rw [Sds.bytes_length] at short
  by_cases whole : strlen s.bytes = s.len
  · rw [whole]
    exact terminated
  · refine getElem?_strlen s.bytes _ ?_
    rw [Sds.bytes, readBytes_apply _ _ _ _ (by rw [Sds.bytes] at short whole; omega), Nat.zero_add]

theorem sdsupdatelen_edits (s : Sds) (terminated : s.Terminated) :
    Edits s (sdsupdatelen s) (s.bytes.takeWhile fun byte => byte ≠ 0) := by
  have short := strlen_le s.bytes
  rw [Sds.bytes_length] at short
  refine Edits.of_value rfl ?_ (terminated_strlen s terminated) ?_
  · rw [readBytes_take s.buf 0 s.len _ short, ← take_strlen]
    rfl
  · have total : strlen s.bytes + (s.free + (s.len - strlen s.bytes)) + 1 = s.room := by
      rw [Sds.room]
      omega
    have inside : strlen s.bytes + 1 ≤ s.room := by
      rw [Sds.room]
      omega
    rw [total]
    exact (stays_reads (by omega) (by omega)).bind (stays_pure _ _)

theorem sdsclear_edits (s : Sds) : Edits s (sdsclear s) [] := by
  refine Edits.of_value rfl rfl (store_same _ _ _) ?_
  have total : 0 + (s.free + s.len) + 1 = s.room := by
    rw [Sds.room]
    omega
  rw [total]
  exact storeAt_stays _ 0 (by rw [Sds.room]; omega)

/-- A part of a string, cut out of its bytes. -/
private theorem readBytes_part (s : Sds) {start count : Nat} (inside : start + count ≤ s.len) :
    readBytes s.buf start count = (s.bytes.take (start + count)).drop start := by
  have front := readBytes_take s.buf 0 s.len (start + count) inside
  rw [Sds.bytes, ← front, readBytes_add, Nat.zero_add]
  exact (List.drop_left' (readBytes_length _ _ _)).symm

theorem cutTo_value (s : Sds) (moved : Bool) (start len : Nat) :
    (cutTo s moved start len).value =
      { len := len
        free := s.free + (s.len - len)
        buf := store (if moved then memmove s.buf 0 start len else s.buf) len 0 } := by
  cases moved with
  | true => rfl
  | false => rfl

/-- The move is left out only for a part that is at the front, or empty. -/
theorem cutTo_edits (s : Sds) {moved : Bool} {start len : Nat} (inside : start + len ≤ s.len)
    (needed : moved = false → start = 0 ∨ len = 0) :
    Edits s (cutTo s moved start len) ((s.bytes.take (start + len)).drop start) := by
  have room : s.len + s.free + 1 = s.room := rfl
  refine Edits.of_value (cutTo_value s moved start len) ?_ (store_same _ _ _) ?_
  · rw [readBytes_store_end, ← readBytes_part s inside]
    cases moved with
    | true => exact readBytes_memmove s.buf 0 start len len (Nat.le_refl len)
    | false =>
        rcases needed rfl with front | empty
        · rw [front]
          rfl
        · rw [empty]
          rfl
  · have total : len + (s.free + (s.len - len)) + 1 = s.room := by omega
    rw [total]
    have moves : Stays s.room
        (if moved then moveWithin s 0 start len else pure s) s.room := by
      split
      · exact moveWithin_stays s (by omega) (by omega)
      · exact stays_pure _ _
    exact moves.bind ((storeAt_stays _ 0 (by omega)).bind (stays_pure _ _))

/-! ### Trimming -/

/-- A string without the bytes of a set at its ends. -/
def stripped (inSet : Byte → Bool) (bytes : List Byte) : List Byte :=
  (bytes.rdropWhile inSet).dropWhile inSet

/-- The end that is dropped does not matter for the front, unless all is
dropped. -/
theorem stripped_eq_drop (inSet : Byte → Bool) (bytes : List Byte)
    (kept : bytes.rdropWhile inSet ≠ []) :
    (bytes.takeWhile inSet).length < (bytes.rdropWhile inSet).length ∧
      stripped inSet bytes = (bytes.rdropWhile inSet).drop (bytes.takeWhile inSet).length := by
  have last := List.rdropWhile_last_not inSet bytes kept
  have proper : (bytes.rdropWhile inSet).takeWhile inSet ≠ bytes.rdropWhile inSet := by
    intro all
    rw [List.takeWhile_eq_self_iff] at all
    exact last (all _ (List.getLast_mem kept))
  have shorter : ((bytes.rdropWhile inSet).takeWhile inSet).length <
      (bytes.rdropWhile inSet).length := by
    have prefixed := List.takeWhile_prefix (l := bytes.rdropWhile inSet) inSet
    refine Nat.lt_of_le_of_ne prefixed.length_le fun same => proper ?_
    exact prefixed.eq_of_length same
  have front : bytes.takeWhile inSet = (bytes.rdropWhile inSet).takeWhile inSet := by
    conv_lhs => rw [← List.rdropWhile_append_rtakeWhile (p := inSet) (l := bytes)]
    rw [List.takeWhile_append, if_neg (Nat.ne_of_lt shorter)]
  refine ⟨by rw [front]; exact shorter, ?_⟩
  have joined := congrArg (List.drop ((bytes.rdropWhile inSet).takeWhile inSet).length)
    (List.takeWhile_append_dropWhile (p := inSet) (l := bytes.rdropWhile inSet))
  rw [List.drop_left] at joined
  rw [stripped, front, joined]

section Trim

variable (s : Sds) (cset : List Byte)

theorem sdstrimStart_value (left sp : Nat) :
    (sdstrimStart s cset left sp).value =
      sp + ((readBytes s.buf sp left).takeWhile (strchr cset)).length := by
  induction left generalizing sp with
  | zero => rfl
  | succ left ih =>
      simp only [sdstrimStart, value_bind, value_ite, value_pure, readBytes_succ]
      have loaded : (loadAt s sp).value = s.buf sp := rfl
      rw [loaded]
      by_cases trimmed : strchr cset (s.buf sp) = true
      · rw [if_pos trimmed, ih, List.takeWhile_cons_of_pos trimmed, List.length_cons]
        omega
      · rw [if_neg trimmed, List.takeWhile_cons_of_neg trimmed]
        rfl

theorem sdstrimStart_stays {size : Nat} (left sp : Nat) (inside : sp + left ≤ size) :
    Stays size (sdstrimStart s cset left sp) size := by
  induction left generalizing sp with
  | zero => exact stays_pure _ _
  | succ left ih =>
      refine (loadAt_stays s (by omega)).bind ?_
      split
      · exact ih (sp + 1) (by omega)
      · exact stays_pure _ _

/-- The loop stops at the front, whether that byte is in the set or not. -/
theorem sdstrimEnd_value (ep : Nat) :
    (sdstrimEnd s cset ep).value + 1 =
      max 1 ((readBytes s.buf 0 (ep + 1)).rdropWhile (strchr cset)).length := by
  induction ep with
  | zero =>
      have single : readBytes s.buf 0 (0 + 1) = [s.buf 0] := rfl
      rw [single, List.rdropWhile_singleton]
      by_cases trimmed : strchr cset (s.buf 0) = true
      · rw [if_pos trimmed]
        rfl
      · rw [if_neg trimmed]
        rfl
  | succ ep ih =>
      have last : readBytes s.buf 0 (ep + 1 + 1) = readBytes s.buf 0 (ep + 1) ++ [s.buf (ep + 1)] := by
        rw [readBytes_add s.buf 0 (ep + 1) 1, Nat.zero_add]
        rfl
      have loaded : (loadAt s (ep + 1)).value = s.buf (ep + 1) := rfl
      simp only [sdstrimEnd, value_bind, value_ite, value_pure, loaded]
      rw [last, List.rdropWhile_concat]
      by_cases trimmed : strchr cset (s.buf (ep + 1)) = true
      · rw [if_pos trimmed, if_pos trimmed, ih]
      · rw [if_neg trimmed, if_neg trimmed, List.length_append, readBytes_length]
        have single : [s.buf (ep + 1)].length = 1 := rfl
        omega

theorem sdstrimEnd_stays {size : Nat} (ep : Nat) (inside : ep < size) :
    Stays size (sdstrimEnd s cset ep) size := by
  induction ep with
  | zero => exact stays_pure _ _
  | succ ep ih =>
      refine (loadAt_stays s inside).bind ?_
      split
      · exact ih (by omega)
      · exact stays_pure _ _

theorem sdstrimLast_value :
    (sdstrimLast s cset).value =
      if s.len = 0 then -1
      else ((max 1 (s.bytes.rdropWhile (strchr cset)).length : Nat) : Int) - 1 := by
  rw [Sds.bytes]
  unfold sdstrimLast
  cases s.len with
  | zero => rfl
  | succ last =>
      rw [if_neg (Nat.succ_ne_zero last), ← sdstrimEnd_value s cset last]
      simp only [value_bind, value_pure]
      omega

theorem sdstrimLast_stays {size : Nat} (inside : s.len ≤ size) :
    Stays size (sdstrimLast s cset) size := by
  unfold sdstrimLast
  cases len : s.len with
  | zero => exact stays_pure _ _
  | succ last => exact (sdstrimEnd_stays s cset last (by omega)).bind (stays_pure _ _)

/-- The length that `sdstrim` leaves, from what the two loops leave out. -/
private theorem sdstrim_count (len sp kept : Nat) (nothing : kept = 0 → sp = len)
    (something : 0 < kept → sp < kept) (short : kept ≤ len) :
    (if (sp : Int) > (if len = 0 then -1 else ((max 1 kept : Nat) : Int) - 1) then 0
      else ((if len = 0 then -1 else ((max 1 kept : Nat) : Int) - 1) - sp + 1).toNat) =
      kept - sp := by
  by_cases empty : len = 0
  · rw [if_pos empty]
    split <;> omega
  · rw [if_neg empty]
    split <;> omega

theorem sdstrim_edits : Edits s (sdstrim s cset) (stripped (strchr cset) s.bytes) := by
  have room : s.len + s.free + 1 = s.room := rfl
  have length := s.bytes_length
  have sp := sdstrimStart_value s cset s.len 0
  rw [Nat.zero_add] at sp
  have bytes : readBytes s.buf 0 s.len = s.bytes := rfl
  have shorter := (List.takeWhile_prefix (l := s.bytes) (strchr cset)).length_le
  have prefixed := List.rdropWhile_prefix (strchr cset) s.bytes
  have cut := prefixed.length_le
  have allTrimmed : (s.bytes.rdropWhile (strchr cset)).length = 0 →
      (s.bytes.takeWhile (strchr cset)).length = s.len := by
    intro nothing
    rw [List.length_eq_zero_iff, List.rdropWhile_eq_nil_iff] at nothing
    rw [List.takeWhile_eq_self_iff.mpr nothing, length]
  have someKept : 0 < (s.bytes.rdropWhile (strchr cset)).length →
      (s.bytes.takeWhile (strchr cset)).length < (s.bytes.rdropWhile (strchr cset)).length :=
    fun some => (stripped_eq_drop (strchr cset) s.bytes (List.ne_nil_of_length_pos some)).1
  refine Edits.after (sdstrimStart_stays s cset s.len 0 (by omega)) ?_
  refine Edits.after (sdstrimLast_stays s cset (by omega)) ?_
  simp only [sp, sdstrimLast_value s cset]
  rw [bytes, sdstrim_count s.len _ _ allTrimmed someKept (by omega)]
  have part : stripped (strchr cset) s.bytes =
      (s.bytes.take ((s.bytes.takeWhile (strchr cset)).length +
        ((s.bytes.rdropWhile (strchr cset)).length -
          (s.bytes.takeWhile (strchr cset)).length))).drop
        (s.bytes.takeWhile (strchr cset)).length := by
    by_cases nothing : s.bytes.rdropWhile (strchr cset) = []
    · have all := allTrimmed (by rw [nothing]; rfl)
      have none : stripped (strchr cset) s.bytes = [] := by
        rw [stripped, nothing]
        rfl
      rw [none, eq_comm, List.drop_eq_nil_iff, List.length_take]
      omega
    · obtain ⟨front, drop⟩ := stripped_eq_drop (strchr cset) s.bytes nothing
      rw [Nat.add_sub_cancel' (Nat.le_of_lt front), drop, ← List.prefix_iff_eq_take.mp prefixed]
  rw [part]
  refine cutTo_edits s (by omega) fun stays => Or.inl ?_
  simpa using stays

end Trim

/-! ### Ranges -/

/-- The place of an index, where -1 is the last one; the front for an index
before it. -/
def placeOf (length : Nat) (index : Int) : Nat :=
  (if index < 0 then length + index else index).toNat

/-- The bytes between two indexes, both of them included. -/
def between (bytes : List Byte) (start finish : Int) : List Byte :=
  (bytes.take (placeOf bytes.length finish + 1)).drop (placeOf bytes.length start)

theorem sdsrangeIndex_eq (len : Nat) (index : Int) : sdsrangeIndex len index = placeOf len index := by
  unfold sdsrangeIndex placeOf
  by_cases negative : index < 0
  · rw [if_pos negative, if_pos negative]
    split <;> omega
  · rw [if_neg negative, if_neg negative]
    omega

/-- What is kept is the part between the indexes, or nothing when there is
none; the start does not matter then. -/
theorem sdsrangeBounds_cases (len start finish : Nat) :
    ((sdsrangeBounds len start finish).2 = 0 ∧ min (finish + 1) len ≤ start) ∨
      ((sdsrangeBounds len start finish).1 = start ∧
        (sdsrangeBounds len start finish).2 ≠ 0 ∧
        start + (sdsrangeBounds len start finish).2.toNat = min (finish + 1) len) := by
  unfold sdsrangeBounds
  by_cases none : (start : Int) > finish
  · simp only [if_pos none, ne_eq, not_true_eq_false, if_false]
    exact Or.inl ⟨trivial, by omega⟩
  · have some : ¬(finish : Int) - start + 1 = 0 := by omega
    simp only [if_neg none, ne_eq, if_pos some]
    by_cases behind : (start : Int) ≥ len
    · rw [if_pos behind]
      exact Or.inl ⟨rfl, by omega⟩
    · rw [if_neg behind]
      by_cases past : (finish : Int) ≥ len
      · have within : ¬(start : Int) > (len : Int) - 1 := by omega
        rw [if_pos past, if_neg within]
        exact Or.inr ⟨rfl, by omega, by omega⟩
      · rw [if_neg past]
        exact Or.inr ⟨rfl, some, by omega⟩

theorem sdsrange_edits (s : Sds) (start finish : Int) (terminated : s.Terminated) :
    Edits s (sdsrange s start finish) (between s.bytes start finish) := by
  have length := s.bytes_length
  by_cases empty : s.len = 0
  · have same : sdsrange s start finish = pure s := if_pos empty
    have nothing : between s.bytes start finish = s.bytes := by
      have nil : s.bytes = [] := List.length_eq_zero_iff.mp (length.trans empty)
      rw [nil, between, List.take_nil, List.drop_nil]
    rw [same, nothing]
    exact ⟨rfl, terminated, stays_pure _ _⟩
  · rw [sdsrange, if_neg empty, between, length, sdsrangeIndex_eq, sdsrangeIndex_eq]
    have cases := sdsrangeBounds_cases s.len (placeOf s.len start) (placeOf s.len finish)
    generalize placeOf s.len start = first at cases ⊢
    generalize placeOf s.len finish = last at cases ⊢
    generalize sdsrangeBounds s.len first last = bounds at cases ⊢
    obtain ⟨kept, newlen⟩ := bounds
    rcases cases with ⟨none, past⟩ | ⟨same, some, count⟩
    · have nothing : (s.bytes.take (last + 1)).drop first = [] := by
        rw [List.drop_eq_nil_iff, List.length_take, length]
        exact past
      simp only at none
      have inside : 0 + 0 ≤ s.len := by omega
      have unmoved := cutTo_edits s inside fun _ : false = false => Or.inl rfl
      have cut : cutTo s (decide (kept ≠ 0 ∧ newlen ≠ 0)) kept.toNat newlen.toNat =
          cutTo s false 0 0 := by
        simp [cutTo, none]
      rw [nothing]
      change Edits s (cutTo s (decide (kept ≠ 0 ∧ newlen ≠ 0)) kept.toNat newlen.toNat) []
      rw [cut]
      exact unmoved
    · simp only at same some count
      have start : kept.toNat = first := by omega
      have part : (s.bytes.take (last + 1)).drop first =
          (s.bytes.take (kept.toNat + newlen.toNat)).drop kept.toNat := by
        rw [start, count, ← length, ← List.take_eq_take_min]
      rw [part]
      refine cutTo_edits s (by rw [start, count]; omega) fun stays => ?_
      rw [decide_eq_false_iff_not, not_and_or, not_not, not_not] at stays
      rcases stays with front | none
      · rw [front]
        exact Or.inl rfl
      · exact absurd none some

/-! ### Replacing single bytes -/

/-- The byte that a loop of replacements leaves. -/
def replaced (replacement : Byte → Option Byte) (byte : Byte) : Byte :=
  (replacement byte).getD byte

/-- The byte at `j` first, then the ones behind it. -/
private theorem replaced_step {replacement : Byte → Option Byte} {memory next : Memory}
    {j left : Nat} (here : next j = replaced replacement (memory j))
    (apart : ∀ offset, offset ≠ j → next offset = memory offset) :
    (fun offset =>
        if j + 1 ≤ offset ∧ offset < j + 1 + left then replaced replacement (next offset)
        else next offset) =
      fun offset =>
        if j ≤ offset ∧ offset < j + (left + 1) then replaced replacement (memory offset)
        else memory offset := by
  funext offset
  by_cases same : offset = j
  · have passed : ¬(j + 1 ≤ offset ∧ offset < j + 1 + left) := by omega
    have within : j ≤ offset ∧ offset < j + (left + 1) := by omega
    rw [if_neg passed, if_pos within, same, here]
  · rw [apart offset same]
    by_cases later : j + 1 ≤ offset ∧ offset < j + 1 + left
    · rw [if_pos later, if_pos (by omega)]
    · rw [if_neg later, if_neg (by omega)]

theorem replaceEach_value (replacement : Byte → Option Byte) (left j : Nat) (s : Sds) :
    (replaceEach replacement left j s).value =
      { s with
        buf := fun offset =>
          if j ≤ offset ∧ offset < j + left then replaced replacement (s.buf offset)
          else s.buf offset } := by
  induction left generalizing j s with
  | zero =>
      have none : ∀ offset, ¬(j ≤ offset ∧ offset < j + 0) := fun offset => by omega
      simp only [none, if_false]
      rfl
  | succ left ih =>
      have loaded : (loadAt s j).value = s.buf j := rfl
      simp only [replaceEach, value_bind, loaded]
      cases found : replacement (s.buf j) with
      | none =>
          simp only [ih]
          refine congrArg (fun buf => { s with buf := buf }) (replaced_step ?_ fun _ _ => rfl)
          rw [replaced, found, Option.getD_none]
      | some other =>
          have stored : (storeAt s j other).value = { s with buf := store s.buf j other } := rfl
          simp only [value_bind, stored, ih]
          refine congrArg (fun buf => { s with buf := buf })
            (replaced_step ?_ fun offset apart => store_other _ _ _ _ apart)
          rw [store_same, replaced, found, Option.getD_some]

theorem replaceEach_stays {size : Nat} (replacement : Byte → Option Byte) (left j : Nat) (s : Sds)
    (inside : j + left ≤ size) : Stays size (replaceEach replacement left j s) size := by
  induction left generalizing j s with
  | zero => exact stays_pure _ _
  | succ left ih =>
      refine (loadAt_stays s (by omega)).bind ?_
      split
      · exact ih (j + 1) s (by omega)
      · exact (storeAt_stays s _ (by omega)).bind (ih (j + 1) _ (by omega))

theorem replaceEach_edits (replacement : Byte → Option Byte) (s : Sds)
    (terminated : s.Terminated) :
    Edits s (replaceEach replacement s.len 0 s) (s.bytes.map (replaced replacement)) := by
  have inside : 0 + s.len ≤ s.room := by
    rw [Sds.room]
    omega
  refine Edits.of_value (replaceEach_value replacement s.len 0 s) ?_ ?_
    (replaceEach_stays replacement s.len 0 s inside)
  · apply List.ext_getElem?
    intro step
    rw [Sds.bytes, List.getElem?_map]
    by_cases inside : step < s.len
    · have within : 0 ≤ 0 + step ∧ 0 + step < 0 + s.len := by omega
      rw [readBytes_apply _ _ _ _ inside, readBytes_apply _ _ _ _ inside, if_pos within,
        Option.map_some]
    · rw [List.getElem?_eq_none (by rw [readBytes_length]; omega),
        List.getElem?_eq_none (by rw [readBytes_length]; omega)]
      rfl
  · have behind : ¬(0 ≤ s.len ∧ s.len < 0 + s.len) := by omega
    simp only [if_neg behind]
    exact terminated

/-! ### Runs of edits -/

inductive SdsEdit
  | makeRoomFor (addlen : Nat)
  | removeFreeSpace
  | growzero (len : Nat)
  | catlen (t : List Byte)
  | cat (t : List Byte)
  | catsds (t : Sds)
  | cpylen (t : List Byte)
  | cpy (t : List Byte)
  | incrLen (incr : Int)
  | updatelen
  | clear
  | trim (cset : List Byte)
  | range (start finish : Int)
  | lower
  | upper
  | mapchars (fromSet toSet : List Byte)

def SdsEdit.step : SdsEdit → Sds → Logged Touch (Except Abort Sds)
  | .makeRoomFor addlen, s => Except.ok <$> sdsMakeRoomForLogged s addlen
  | .removeFreeSpace, s => Except.ok <$> sdsRemoveFreeSpace s
  | .growzero len, s => Except.ok <$> sdsgrowzero s len
  | .catlen t, s => Except.ok <$> sdscatlen s t
  | .cat t, s => Except.ok <$> sdscat s t
  | .catsds t, s => Except.ok <$> sdscatsds s t
  | .cpylen t, s => Except.ok <$> sdscpylen s t
  | .cpy t, s => Except.ok <$> sdscpy s t
  | .incrLen incr, s => sdsIncrLenStored s incr
  | .updatelen, s => Except.ok <$> sdsupdatelen s
  | .clear, s => Except.ok <$> sdsclear s
  | .trim cset, s => Except.ok <$> sdstrim s cset
  | .range start finish, s => Except.ok <$> sdsrange s start finish
  | .lower, s => Except.ok <$> sdstolower s
  | .upper, s => Except.ok <$> sdstoupper s
  | .mapchars fromSet toSet, s => Except.ok <$> sdsmapchars s fromSet toSet

/-- The edits of the list of bytes.  A length is changed by hand only to cut
bytes off that are there. -/
def SdsEdit.onBytes : SdsEdit → List Byte → Option (List Byte)
  | .makeRoomFor _, bytes => some bytes
  | .removeFreeSpace, bytes => some bytes
  | .growzero len, bytes => some (bytes ++ List.replicate (len - bytes.length) 0)
  | .catlen t, bytes => some (bytes ++ t)
  | .cat t, bytes => some (bytes ++ t.takeWhile fun byte => byte ≠ 0)
  | .catsds t, bytes => some (bytes ++ t.bytes)
  | .cpylen t, _ => some t
  | .cpy t, _ => some (t.takeWhile fun byte => byte ≠ 0)
  | .incrLen incr, bytes =>
      if -(bytes.length : Int) ≤ incr ∧ incr ≤ 0 then
        some (bytes.take (bytes.length + incr).toNat)
      else none
  | .updatelen, bytes => some (bytes.takeWhile fun byte => byte ≠ 0)
  | .clear, _ => some []
  | .trim cset, bytes => some (stripped (strchr cset) bytes)
  | .range start finish, bytes => some (between bytes start finish)
  | .lower, bytes => some (bytes.map tolower)
  | .upper, bytes => some (bytes.map toupper)
  | .mapchars fromSet toSet, bytes =>
      some (bytes.map fun byte => (mapchar byte fromSet toSet).getD byte)

private theorem step_of_edits {s : Sds} {edit : Logged Touch Sds} {bytes : List Byte}
    (edits : Edits s edit bytes) :
    ∃ next, (Except.ok <$> edit : Logged Touch (Except Abort Sds)).value = .ok next ∧
      next.bytes = bytes ∧ next.Terminated ∧
      Stays s.room (Except.ok <$> edit : Logged Touch (Except Abort Sds)) next.room :=
  ⟨edit.value, rfl, edits.bytes, edits.terminated, edits.stays.bind (stays_pure _ _)⟩

private theorem incrLen_step (s : Sds) (incr : Int) (fewer : -(s.len : Int) ≤ incr ∧ incr ≤ 0) :
    ∃ next, (sdsIncrLenStored s incr).value = .ok next ∧
      next.bytes = s.bytes.take (s.len + incr).toNat ∧ next.Terminated ∧
      Stays s.room (sdsIncrLenStored s incr) next.room := by
  have room : s.len + s.free + 1 = s.room := rfl
  have ran := sdsIncrLen_ok s incr (by omega)
  unfold sdsIncrLenStored
  rw [ran]
  refine ⟨_, rfl, ?_, store_same _ _ _, ?_⟩
  · rw [Sds.bytes, readBytes_store_end, readBytes_take s.buf 0 s.len _ (by omega)]
    rfl
  · have total : (s.len + incr).toNat + (s.free - incr).toNat + 1 = s.room := by omega
    change Stays s.room _ ((s.len + incr).toNat + (s.free - incr).toNat + 1)
    rw [total]
    exact (stays_write ⟨by omega, by omega⟩).bind (stays_pure _ _)

/-- The step lemma: an edit of a terminated string does to its bytes what it is
there for, inside the allocation. -/
theorem SdsEdit.step_refines (edit : SdsEdit) (s : Sds) (bytes : List Byte)
    (terminated : s.Terminated) (allowed : edit.onBytes s.bytes = some bytes) :
    ∃ next, (edit.step s).value = .ok next ∧ next.bytes = bytes ∧ next.Terminated ∧
      Stays s.room (edit.step s) next.room := by
  cases edit with
  | incrLen incr =>
      rw [SdsEdit.onBytes, Sds.bytes_length] at allowed
      split at allowed
      · rename_i fewer
        rw [← Option.some.inj allowed]
        exact incrLen_step s incr fewer
      · cases allowed
  | growzero len =>
      rw [SdsEdit.onBytes, Sds.bytes_length] at allowed
      rw [← Option.some.inj allowed]
      exact step_of_edits (sdsgrowzero_edits s len terminated)
  | makeRoomFor addlen =>
      cases allowed
      exact step_of_edits (sdsMakeRoomFor_edits s addlen terminated)
  | removeFreeSpace =>
      cases allowed
      exact step_of_edits (sdsRemoveFreeSpace_edits s terminated)
  | catlen t =>
      cases allowed
      exact step_of_edits (sdscatlen_edits s t)
  | cat t =>
      cases allowed
      rw [← take_strlen]
      exact step_of_edits (sdscatlen_edits s (t.take (strlen t)))
  | catsds t =>
      cases allowed
      exact step_of_edits (sdscatlen_edits s t.bytes)
  | cpylen t =>
      rw [← Option.some.inj allowed]
      exact step_of_edits (sdscpylen_edits s t)
  | cpy t =>
      cases allowed
      rw [← take_strlen]
      exact step_of_edits (sdscpylen_edits s (t.take (strlen t)))
  | updatelen =>
      cases allowed
      exact step_of_edits (sdsupdatelen_edits s terminated)
  | clear =>
      cases allowed
      exact step_of_edits (sdsclear_edits s)
  | trim cset =>
      cases allowed
      exact step_of_edits (sdstrim_edits s cset)
  | range start finish =>
      cases allowed
      exact step_of_edits (sdsrange_edits s start finish terminated)
  | lower =>
      cases allowed
      exact step_of_edits (replaceEach_edits _ s terminated)
  | upper =>
      cases allowed
      exact step_of_edits (replaceEach_edits _ s terminated)
  | mapchars fromSet toSet =>
      cases allowed
      exact step_of_edits (replaceEach_edits _ s terminated)

end PhpHll
