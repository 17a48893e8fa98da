/-
The normal form of a sequence of opcodes.

No two neighbouring VAL opcodes could be one, no two zero opcodes are
neighbours, and a zero run takes the shorter opcode whenever that can say it.
The add of an element keeps the normal form: its split disturbs at most four
opcodes, the previous one included, and the merge pass has a turn for each.
-/

import PhpHll.Library.MergePass
import PhpHll.SparseEdit

namespace PhpHll

open MergePass

/-- Two VAL opcodes that one VAL could stand for. -/
def Opcode.Mergeable (first second : Opcode) : Prop :=
  0 < first.value ∧ first.value = second.value ∧ first.length + second.length ≤ 4

def Opcode.BothZero (first second : Opcode) : Prop := first.value = 0 ∧ second.value = 0

/-- A zero run of at most 64 registers is a ZERO, a longer one an XZERO. -/
def Opcode.Canonical (opcode : Opcode) : Prop :=
  opcode.value = 0 → (opcode.size = 1 ↔ opcode.length ≤ 64)

structure NormalForm (opcodes : List Opcode) : Prop where
  vals : opcodes.IsChain fun first second => ¬first.Mergeable second
  zeros : opcodes.IsChain fun first second => ¬first.BothZero second
  runs : ∀ opcode ∈ opcodes, opcode.Canonical

/-! ### Merging -/

theorem Opcode.merge_eq_none_iff (first second : Opcode) :
    first.merge second = none ↔ ¬first.Mergeable second := by
  cases first with
  | zero count => exact iff_of_true rfl fun both => Nat.lt_irrefl 0 both.1
  | xzero high low => exact iff_of_true rfl fun both => Nat.lt_irrefl 0 both.1
  | val value count =>
      cases second with
      | zero count' => exact iff_of_true rfl fun both => Nat.succ_ne_zero _ both.2.1
      | xzero high low => exact iff_of_true rfl fun both => Nat.succ_ne_zero _ both.2.1
      | val value' count' =>
          have positive : 0 < (Opcode.val value count).value := Nat.succ_pos _
          rw [Opcode.merge, Opcode.Mergeable, Opcode.val_value_eq_iff, and_iff_right positive]
          exact ite_eq_right_iff.trans (by simp [hllSparseValMaxLen])

theorem Opcode.mergeable_of_merge {first second merged : Opcode}
    (can : first.merge second = some merged) : first.Mergeable second := by
  by_contra apart
  rw [(first.merge_eq_none_iff second).mpr apart] at can
  cases can

theorem mergeOpcodes_eq_pass (scanlen : Nat) (opcodes : List Opcode) :
    mergeOpcodes scanlen opcodes = MergePass.pass Opcode.merge scanlen opcodes := by
  fun_induction mergeOpcodes scanlen opcodes with
  | case1 opcodes => rfl
  | case2 scanlen => rfl
  | case3 scanlen opcode => rfl
  | case4 scanlen first second rest merged can ih => rw [MergePass.pass, can, ih]
  | case5 scanlen first second rest cannot ih => rw [MergePass.pass, cannot, ih]

theorem apart_eq : Apart Opcode.merge = fun first second => ¬first.Mergeable second := by
  funext first second
  exact propext (first.merge_eq_none_iff second)

private theorem survives_notMergeable :
    Survives Opcode.merge fun first second => ¬first.Mergeable second := by
  constructor
  · intro first second merged before can apart mergeable
    obtain ⟨value, _secondValue, length⟩ := first.merge_some second merged can
    obtain ⟨positive, same, short⟩ := mergeable
    exact apart ⟨positive, same.trans value, by omega⟩
  · intro first second merged after can apart mergeable
    obtain ⟨value, secondValue, length⟩ := first.merge_some second merged can
    obtain ⟨positive, same, short⟩ := mergeable
    exact apart ⟨by omega, by omega, by omega⟩

private theorem survives_notBothZero :
    Survives Opcode.merge fun first second => ¬first.BothZero second := by
  constructor
  · intro first second merged before can _apart both
    have positive := (Opcode.mergeable_of_merge can).1
    have value := (first.merge_some second merged can).1
    have zero := both.2
    omega
  · intro first second merged after can _apart both
    have positive := (Opcode.mergeable_of_merge can).1
    have value := (first.merge_some second merged can).1
    have zero := both.1
    omega

private theorem canonical_merged (first second merged : Opcode)
    (can : first.merge second = some merged) : merged.Canonical := by
  intro zero
  have positive := (Opcode.mergeable_of_merge can).1
  have value := (first.merge_some second merged can).1
  omega

/-! ### Splitting -/

private theorem canonical_ofZeroRun (len : Nat) (positive : 1 ≤ len) (covered : len ≤ 16384) :
    (Opcode.ofZeroRun len).Canonical := by
  intro _zero
  rw [Opcode.ofZeroRun_length len positive covered, Opcode.ofZeroRun]
  by_cases long : len > hllSparseZeroMaxLen
  · rw [if_pos long]
    exact iff_of_false (Nat.succ_ne_self 1) (Nat.not_le_of_lt long)
  · rw [if_neg long]
    exact iff_of_true rfl (Nat.le_of_not_lt long)

/-- A side of a split is empty or one opcode with the value of the split one. -/
private theorem part_cases (opcode : Opcode) (len : Nat) (inside : len ≤ opcode.length) :
    opcode.part len = [] ∨
      ∃ piece : Opcode, opcode.part len = [piece] ∧ piece.value = opcode.value ∧
        piece.Canonical := by
  by_cases empty : len = 0
  · exact Or.inl (if_pos empty)
  · right
    have positive : 1 ≤ len := Nat.one_le_iff_ne_zero.mpr empty
    have canonical := canonical_ofZeroRun len positive (Nat.le_trans inside opcode.length_le)
    have value := Opcode.ofZeroRun_value len
    cases opcode with
    | zero count => exact ⟨_, if_neg empty, value, canonical⟩
    | xzero high low => exact ⟨_, if_neg empty, value, canonical⟩
    | val value count =>
        have valued := Opcode.ofVal_value (Opcode.val value count).value len (Nat.succ_pos _)
          (Opcode.val value count).value_le
        refine ⟨_, if_neg empty, valued, fun zero => ?_⟩
        exact absurd (valued.symm.trans zero) (Nat.succ_ne_zero _)

section Split

variable {before after : List Opcode} {opcode : Opcode} {count first last : Nat}

private theorem split_length (count : Nat) (firstInside : first ≤ opcode.length)
    (lastInside : last ≤ opcode.length) : (opcode.split count first last).length ≤ 3 := by
  have single (len : Nat) (inside : len ≤ opcode.length) : (opcode.part len).length ≤ 1 := by
    rcases part_cases opcode len inside with none | ⟨piece, one, _value, _canonical⟩
    · rw [none]
      exact Nat.zero_le 1
    · rw [one]
      exact Nat.le_refl 1
  have left := single first firstInside
  have right := single last lastInside
  rw [Opcode.split, List.length_append, List.length_cons]
  omega

/-- The split of an opcode puts no two zero opcodes side by side. -/
theorem zeros_split (positive : 1 ≤ count) (small : count ≤ 32)
    (firstInside : first ≤ opcode.length) (lastInside : last ≤ opcode.length)
    (zeros : (before ++ opcode :: after).IsChain fun first second => ¬first.BothZero second) :
    (before ++ opcode.split count first last ++ after).IsChain
      fun first second => ¬first.BothZero second := by
  obtain ⟨beforeChain, restChain, beforeJoin⟩ := List.isChain_append.mp zeros
  obtain ⟨afterJoin, afterChain⟩ := List.isChain_cons.mp restChain
  have valued := Opcode.ofVal_value count 1 positive small
  have left : (before ++ opcode.part first).IsChain fun first second => ¬first.BothZero second := by
    rcases part_cases opcode first firstInside with none | ⟨piece, one, value, _canonical⟩
    · rw [none, List.append_nil]
      exact beforeChain
    · rw [one]
      refine List.isChain_append.mpr ⟨beforeChain, List.isChain_singleton piece, ?_⟩
      intro last member head headMember both
      cases headMember
      exact beforeJoin last member opcode rfl ⟨both.1, value.symm.trans both.2⟩
  have right : (opcode.part last ++ after).IsChain fun first second => ¬first.BothZero second := by
    rcases part_cases opcode last lastInside with none | ⟨piece, one, value, _canonical⟩
    · rw [none, List.nil_append]
      exact afterChain
    · rw [one]
      refine List.isChain_cons.mpr ⟨fun head headMember both => ?_, afterChain⟩
      exact afterJoin head headMember ⟨value.symm.trans both.1, both.2⟩
  have arranged : before ++ opcode.split count first last ++ after =
      (before ++ opcode.part first) ++ Opcode.ofVal count 1 :: (opcode.part last ++ after) := by
    simp only [Opcode.split, List.append_assoc, List.cons_append]
  rw [arranged]
  refine List.isChain_append.mpr ⟨left, List.isChain_cons.mpr ⟨?_, right⟩, ?_⟩
  · intro head _member both
    have zero := both.1
    omega
  · intro last _lastMember head headMember both
    cases headMember
    have zero := both.2
    omega

theorem canonical_split (positive : 1 ≤ count) (small : count ≤ 32)
    (firstInside : first ≤ opcode.length) (lastInside : last ≤ opcode.length)
    (runs : ∀ kept ∈ before ++ after, kept.Canonical) :
    ∀ kept ∈ before ++ opcode.split count first last ++ after, kept.Canonical := by
  have piece (len : Nat) (inside : len ≤ opcode.length) :
      ∀ part ∈ opcode.part len, part.Canonical := by
    rcases part_cases opcode len inside with none | ⟨piece, one, _value, canonical⟩
    · rw [none]
      intro part member
      cases member
    · rw [one]
      exact List.forall_mem_singleton.mpr canonical
  have middle : (Opcode.ofVal count 1).Canonical := by
    intro zero
    rw [Opcode.ofVal_value count 1 positive small] at zero
    omega
  obtain ⟨beforeRuns, afterRuns⟩ := List.forall_mem_append.mp runs
  refine List.forall_mem_append.mpr ⟨List.forall_mem_append.mpr ⟨beforeRuns, ?_⟩, afterRuns⟩
  exact List.forall_mem_append.mpr
    ⟨piece first firstInside, List.forall_mem_cons.mpr ⟨middle, piece last lastInside⟩⟩

end Split

/-! ### Adding -/

/-- The add keeps the normal form, whichever register it raises. -/
theorem NormalForm.addOpcodes {before after : List Opcode} {opcode : Opcode} {count index : Nat}
    (normal : NormalForm (before ++ opcode :: after)) (positive : 1 ≤ count) (small : count ≤ 32)
    (lower : lengthAll before ≤ index) (upper : index < lengthAll before + opcode.length) :
    NormalForm (addOpcodes before after opcode count index) := by
  have firstInside : index - lengthAll before ≤ opcode.length := by omega
  have lastInside : lengthAll before + opcode.length - 1 - index ≤ opcode.length := by omega
  have rejoin (rest : List Opcode) : before.take (before.length - 1) ++
      (before.drop (before.length - 1) ++ rest) = before ++ rest := by
    rw [← List.append_assoc, List.take_append_drop]
  have zeros := zeros_split positive small firstInside lastInside normal.zeros
  have others : ∀ kept ∈ before ++ after, kept.Canonical := by
    obtain ⟨beforeRuns, restRuns⟩ := List.forall_mem_append.mp normal.runs
    exact List.forall_mem_append.mpr ⟨beforeRuns, (List.forall_mem_cons.mp restRuns).2⟩
  have runs := canonical_split positive small firstInside lastInside others
  rw [List.append_assoc, ← rejoin, ← List.append_assoc (before.drop _)] at zeros runs
  rw [PhpHll.addOpcodes, mergeOpcodes_eq_pass]
  refine ⟨?_, survives_notBothZero.append_pass_isChain 5 _ _ zeros, ?_⟩
  · have vals := normal.vals
    obtain ⟨_beforeChain, restChain, _join⟩ := List.isChain_append.mp vals
    have afterChain := (List.isChain_cons.mp restChain).2
    have few : (before.drop (before.length - 1) ++ opcode.split count (index - lengthAll before)
        (lengthAll before + opcode.length - 1 - index)).length ≤ 5 := by
      have three := split_length count firstInside lastInside
      rw [List.length_append, List.length_drop]
      omega
    have survives := survives_notMergeable
    rw [← apart_eq] at survives vals afterChain ⊢
    rw [← rejoin] at vals
    refine List.isChain_append.mpr ⟨(List.isChain_append.mp vals).1,
      pass_apart survives 5 _ after few afterChain, survives.junction 5 _ _ ?_⟩
    intro last lastMember head headMember
    -- the kept opcodes end where the previous one starts, if there is a previous one
    rcases List.eq_nil_or_concat before with empty | ⟨kept, prev, concat⟩
    · subst empty
      cases lastMember
    · rw [List.concat_eq_append] at concat
      subst concat
      have keptLength : (kept ++ [prev]).length - 1 = kept.length := by simp
      rw [keptLength, List.drop_left] at headMember
      rw [keptLength] at lastMember vals
      cases headMember
      rw [List.drop_left] at vals
      exact (List.isChain_append.mp vals).2.2 last lastMember head rfl
  · obtain ⟨keptRuns, passRuns⟩ := List.forall_mem_append.mp runs
    exact List.forall_mem_append.mpr
      ⟨keptRuns, pass_all canonical_merged 5 _ passRuns⟩

end PhpHll
