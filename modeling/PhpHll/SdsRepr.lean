/-
Printed strings and argument lines.

`sdscatrepr` prints a string in double quotes, with escapes for what does not
print; `sdssplitargs` splits a line of such strings and of plain words into its
arguments.  Character classes are those of the C locale.  A line is the list of
its bytes; the bytes at and behind its end read as NUL, where every test of the
source stops.  The strings printed and taken are shorter than `2 ^ 31` bytes,
so that the `int` fields of the source hold their lengths.
-/

import PhpHll.SdsSplit

namespace PhpHll

open ByteMemory Logged Allocation

/-! ### Characters -/

def ascii (char : Char) : Byte := BitVec.ofNat 8 char.toNat

def backslash : Byte := 0x5c#8

def doubleQuote : Byte := 0x22#8

def singleQuote : Byte := 0x27#8

def isprint (byte : Byte) : Bool := 0x20#8 ≤ byte ∧ byte ≤ 0x7e#8

def isspace (byte : Byte) : Bool := byte = 0x20#8 ∨ 0x09#8 ≤ byte ∧ byte ≤ 0x0d#8

/-! ### `sdscatprintf` -/

/-- The string that `vsnprintf` leaves in a buffer of some length. -/
def vsnprintf (formatted : List Byte) (buflen : Nat) : List Byte := formatted.take (buflen - 1)

theorem vsnprintf_filled {formatted : List Byte} {buflen : Nat}
    (filled : (vsnprintf formatted buflen).getD (buflen - 2) 0 ≠ 0) :
    1 ≤ buflen ∧ buflen < formatted.length + 2 := by
  rw [vsnprintf, List.getD_eq_getElem?_getD] at filled
  have inside : buflen - 2 < (formatted.take (buflen - 1)).length := by
    by_contra outside
    rw [List.getElem?_eq_none (by omega)] at filled
    exact filled rfl
  rw [List.length_take] at inside
  omega

/-- The buffer is doubled while its last byte but one, preset to NUL, holds
text. -/
def sdscatvprintfLoop (s : Sds) (formatted : List Byte) (buflen : Nat) : Logged Touch Sds :=
  if filled : (vsnprintf formatted buflen).getD (buflen - 2) 0 ≠ 0 then
    sdscatvprintfLoop s formatted (buflen * 2)
  else sdscat s (vsnprintf formatted buflen)
termination_by formatted.length + 2 - buflen
decreasing_by
  have bounds := vsnprintf_filled filled
  omega

def sdscatprintf (s : Sds) (formatted : List Byte) : Logged Touch Sds :=
  sdscatvprintfLoop s formatted 16

/-! ### `sdscatrepr` -/

def hexDigit (value : Nat) : Byte :=
  if value < 10 then BitVec.ofNat 8 (0x30 + value) else BitVec.ofNat 8 (0x57 + value)

def sdscatreprByte (s : Sds) (byte : Byte) : Logged Touch Sds :=
  if byte = backslash ∨ byte = doubleQuote then sdscatprintf s [backslash, byte]
  else if byte = 0x0a#8 then sdscatlen s [backslash, ascii 'n']
  else if byte = 0x0d#8 then sdscatlen s [backslash, ascii 'r']
  else if byte = 0x09#8 then sdscatlen s [backslash, ascii 't']
  else if byte = 0x07#8 then sdscatlen s [backslash, ascii 'a']
  else if byte = 0x08#8 then sdscatlen s [backslash, ascii 'b']
  else if isprint byte then sdscatprintf s [byte]
  else
    sdscatprintf s
      [backslash, ascii 'x', hexDigit (byte.toNat / 16), hexDigit (byte.toNat % 16)]

def sdscatreprLoop : List Byte → Sds → Logged Touch Sds
  | [], s => pure s
  | byte :: rest, s => do
      let s ← sdscatreprByte s byte
      sdscatreprLoop rest s

def sdscatrepr (s : Sds) (p : List Byte) : Logged Touch Sds := do
  let s ← sdscatlen s [doubleQuote]
  let s ← sdscatreprLoop p s
  sdscatlen s [doubleQuote]

/-! ### `sdssplitargs` -/

def isHexDigit (c : Byte) : Bool :=
  ascii '0' ≤ c ∧ c ≤ ascii '9' ∨ ascii 'a' ≤ c ∧ c ≤ ascii 'f' ∨ ascii 'A' ≤ c ∧ c ≤ ascii 'F'

def hexDigitToInt (c : Byte) : Nat :=
  if ascii '0' ≤ c ∧ c ≤ ascii '9' then c.toNat - 0x30
  else if ascii 'a' ≤ c ∧ c ≤ ascii 'f' then c.toNat - 0x57
  else if ascii 'A' ≤ c ∧ c ≤ ascii 'F' then c.toNat - 0x37
  else 0

def unescaped (c : Byte) : Byte :=
  if c = ascii 'n' then 0x0a#8
  else if c = ascii 'r' then 0x0d#8
  else if c = ascii 't' then 0x09#8
  else if c = ascii 'b' then 0x08#8
  else if c = ascii 'a' then 0x07#8
  else c

inductive Quoting
  | plain
  | inq
  | insq
  deriving DecidableEq

/-- A closing quote must be followed by a space or nothing at all. -/
def closed (current p : List Byte) : Option (List Byte × List Byte) :=
  if p.getD 1 0 ≠ 0 ∧ isspace (p.getD 1 0) = false then none else some (current, p.drop 1)

/-- The loop that gets one token: `current` with the line behind it, or `none`
for `goto err`. -/
def splitToken (quoting : Quoting) (current p : List Byte) : Option (List Byte × List Byte) :=
  match quoting with
  | .inq =>
      if p.getD 0 0 = backslash ∧ p.getD 1 0 = ascii 'x' ∧ isHexDigit (p.getD 2 0) ∧
          isHexDigit (p.getD 3 0) then
        splitToken .inq
          (current ++
            [BitVec.ofNat 8 (hexDigitToInt (p.getD 2 0) * 16 + hexDigitToInt (p.getD 3 0))])
          (p.drop 4)
      else if p.getD 0 0 = backslash ∧ p.getD 1 0 ≠ 0 then
        splitToken .inq (current ++ [unescaped (p.getD 1 0)]) (p.drop 2)
      else if p.getD 0 0 = doubleQuote then closed current p
      else if p.getD 0 0 = 0 then none
      else splitToken .inq (current ++ [p.getD 0 0]) (p.drop 1)
  | .insq =>
      if p.getD 0 0 = backslash ∧ p.getD 1 0 = singleQuote then
        splitToken .insq (current ++ [singleQuote]) (p.drop 2)
      else if p.getD 0 0 = singleQuote then closed current p
      else if p.getD 0 0 = 0 then none
      else splitToken .insq (current ++ [p.getD 0 0]) (p.drop 1)
  | .plain =>
      if p.getD 0 0 = 0 then some (current, p)
      else if p.getD 0 0 = 0x20#8 ∨ p.getD 0 0 = 0x0a#8 ∨ p.getD 0 0 = 0x0d#8 ∨
          p.getD 0 0 = 0x09#8 then some (current, p.drop 1)
      else if p.getD 0 0 = doubleQuote then splitToken .inq current (p.drop 1)
      else if p.getD 0 0 = singleQuote then splitToken .insq current (p.drop 1)
      else splitToken .plain (current ++ [p.getD 0 0]) (p.drop 1)
termination_by p.length
decreasing_by
  all_goals
    have filled : p ≠ [] := by
      rintro rfl
      simp_all [backslash, doubleQuote, singleQuote]
    have positive := List.length_pos_iff.mpr filled
    rw [List.length_drop]
    omega

theorem length_pos_of_getD {p : List Byte} (nonzero : p.getD 0 0 ≠ 0) : 0 < p.length := by
  cases p with
  | nil => exact absurd rfl nonzero
  | cons byte p => exact Nat.succ_pos _

theorem closed_some {current p current' rest : List Byte}
    (found : closed current p = some (current', rest)) : current' = current ∧ rest = p.drop 1 := by
  unfold closed at found
  split at found
  · cases found
  · cases found
    exact ⟨rfl, rfl⟩

private theorem shorter_of_drop {p rest : List Byte} {k : Nat} (nonzero : p.getD 0 0 ≠ 0)
    (behind : rest.length ≤ (p.drop (k + 1)).length) :
    rest.length ≤ p.length ∧ (p.getD 0 0 ≠ 0 → rest.length < p.length) := by
  have positive := length_pos_of_getD nonzero
  rw [List.length_drop] at behind
  exact ⟨by omega, fun _ => by omega⟩

/-- A token takes a part of the line, unless the line is at its end. -/
theorem splitToken_length {quoting : Quoting} {current p current' rest : List Byte}
    (found : splitToken quoting current p = some (current', rest)) :
    rest.length ≤ p.length ∧ (p.getD 0 0 ≠ 0 → rest.length < p.length) := by
  fun_induction splitToken quoting current p with
  | case1 current p hex ih => exact shorter_of_drop (by rw [hex.1]; decide) (ih found).1
  | case2 current p _ escape ih => exact shorter_of_drop (by rw [escape.1]; decide) (ih found).1
  | case3 current p _ _ quote =>
      exact shorter_of_drop (by rw [quote]; decide) (Nat.le_of_eq (by rw [(closed_some found).2]))
  | case4 => cases found
  | case5 current p _ _ _ nonzero ih => exact shorter_of_drop nonzero (ih found).1
  | case6 current p escape ih => exact shorter_of_drop (by rw [escape.1]; decide) (ih found).1
  | case7 current p _ quote =>
      exact shorter_of_drop (by rw [quote]; decide) (Nat.le_of_eq (by rw [(closed_some found).2]))
  | case8 => cases found
  | case9 current p _ _ nonzero ih => exact shorter_of_drop nonzero (ih found).1
  | case10 current p atEnd =>
      cases found
      exact ⟨Nat.le_refl _, fun nonzero => absurd atEnd nonzero⟩
  | case11 current p nonzero =>
      cases found
      exact shorter_of_drop nonzero (Nat.le_refl _)
  | case12 current p nonzero _ _ ih => exact shorter_of_drop nonzero (ih found).1
  | case13 current p nonzero _ _ _ ih => exact shorter_of_drop nonzero (ih found).1
  | case14 current p nonzero _ _ _ ih => exact shorter_of_drop nonzero (ih found).1

def sdssplitargsLoop (vector : List (List Byte)) (line : List Byte) : Option (List (List Byte)) :=
  if _more : (line.dropWhile isspace).getD 0 0 ≠ 0 then
    match _token : splitToken .plain [] (line.dropWhile isspace) with
    | none => none
    | some (current, p) => sdssplitargsLoop (vector ++ [current]) p
  else some vector
termination_by line.length
decreasing_by
  have shorter := (splitToken_length _token).2 _more
  have suffix := (List.dropWhile_suffix isspace (l := line)).length_le
  omega

/-- `none` for unbalanced quotes and for quotes that are not closed before a
blank. -/
def sdssplitargs (line : List Byte) : Option (List (List Byte)) := sdssplitargsLoop [] line

/-! ### What is printed -/

def escape (byte : Byte) : List Byte :=
  if byte = backslash ∨ byte = doubleQuote then [backslash, byte]
  else if byte = 0x0a#8 then [backslash, ascii 'n']
  else if byte = 0x0d#8 then [backslash, ascii 'r']
  else if byte = 0x09#8 then [backslash, ascii 't']
  else if byte = 0x07#8 then [backslash, ascii 'a']
  else if byte = 0x08#8 then [backslash, ascii 'b']
  else if isprint byte then [byte]
  else [backslash, ascii 'x', hexDigit (byte.toNat / 16), hexDigit (byte.toNat % 16)]

/-- Text cut at a NUL in its last place has lost nothing of its C string. -/
private theorem takeWhile_vsnprintf {formatted : List Byte} {buflen : Nat} (two : 2 ≤ buflen)
    (ends : (vsnprintf formatted buflen).getD (buflen - 2) 0 = 0) :
    (vsnprintf formatted buflen).takeWhile (fun byte => byte ≠ 0) =
      formatted.takeWhile fun byte => byte ≠ 0 := by
  rw [vsnprintf, ← List.take_takeWhile]
  refine List.take_of_length_le ?_
  by_contra long
  have prefixed := List.takeWhile_prefix (l := formatted) fun byte => byte ≠ 0
  have inside : buflen - 2 < (formatted.takeWhile fun byte => byte ≠ 0).length := by omega
  have visible := List.mem_takeWhile_imp (List.getElem_mem inside)
  have same := prefixed.getElem inside
  rw [vsnprintf, List.getD_eq_getElem?_getD, List.getElem?_take_of_lt (by omega),
    List.getElem?_eq_getElem (by have := prefixed.length_le; omega), Option.getD_some, ← same] at ends
  rw [ends] at visible
  exact absurd visible (by decide)

theorem sdscatvprintfLoop_edits (s : Sds) (formatted : List Byte) (buflen : Nat)
    (two : 2 ≤ buflen) :
    Edits s (sdscatvprintfLoop s formatted buflen)
      (s.bytes ++ formatted.takeWhile fun byte => byte ≠ 0) := by
  rw [sdscatvprintfLoop]
  by_cases filled : (vsnprintf formatted buflen).getD (buflen - 2) 0 ≠ 0
  · rw [dif_pos filled]
    have bounds := vsnprintf_filled filled
    exact sdscatvprintfLoop_edits s formatted (buflen * 2) (by omega)
  · rw [dif_neg filled, ← takeWhile_vsnprintf two (not_not.mp filled), ← take_strlen]
    exact sdscatlen_edits s _
termination_by formatted.length + 2 - buflen

/-- The whole text is appended, whatever its length, up to its first NUL. -/
theorem sdscatprintf_edits (s : Sds) (formatted : List Byte) :
    Edits s (sdscatprintf s formatted) (s.bytes ++ formatted.takeWhile fun byte => byte ≠ 0) :=
  sdscatvprintfLoop_edits s formatted 16 (by decide)

theorem sdscatprintf_visible (s : Sds) (formatted : List Byte)
    (visible : ∀ byte ∈ formatted, byte ≠ 0) :
    Edits s (sdscatprintf s formatted) (s.bytes ++ formatted) := by
  have whole : formatted.takeWhile (fun byte => byte ≠ 0) = formatted :=
    List.takeWhile_eq_self_iff.mpr fun byte member => decide_eq_true (visible byte member)
  have edits := sdscatprintf_edits s formatted
  rw [whole] at edits
  exact edits

theorem hexDigit_read (value : Nat) (digit : value < 16) :
    isHexDigit (hexDigit value) = true ∧ hexDigitToInt (hexDigit value) = value ∧
      hexDigit value ≠ 0 := by
  revert value
  decide

theorem escape_visible (byte : Byte) : ∀ char ∈ escape byte, char ≠ 0 := by
  have low : byte.toNat / 16 < 16 := by
    have bound := byte.isLt
    omega
  have hexadecimal := And.intro (hexDigit_read _ low).2.2
    (hexDigit_read _ (Nat.mod_lt byte.toNat (by decide))).2.2
  intro char member nul
  rw [nul] at member
  unfold escape at member
  grind [isprint, ascii, backslash, doubleQuote]

theorem sdscatreprByte_edits (s : Sds) (byte : Byte) :
    Edits s (sdscatreprByte s byte) (s.bytes ++ escape byte) := by
  have printed := sdscatprintf_visible s (escape byte) (escape_visible byte)
  unfold sdscatreprByte
  unfold escape at printed ⊢
  grind [sdscatlen_edits]

theorem sdscatreprLoop_edits (p : List Byte) (s : Sds) (terminated : s.Terminated) :
    Edits s (sdscatreprLoop p s) (s.bytes ++ p.flatMap escape) := by
  induction p generalizing s with
  | nil =>
      rw [List.flatMap_nil, List.append_nil]
      exact ⟨rfl, terminated, stays_pure _ _⟩
  | cons byte p ih =>
      have first := sdscatreprByte_edits s byte
      have later := ih (sdscatreprByte s byte).value first.terminated
      rw [first.bytes] at later
      rw [List.flatMap_cons, ← List.append_assoc]
      exact ⟨later.bytes, later.terminated, first.stays.bind later.stays⟩

theorem sdscatrepr_edits (s : Sds) (p : List Byte) :
    Edits s (sdscatrepr s p) (s.bytes ++ (doubleQuote :: (p.flatMap escape ++ [doubleQuote]))) := by
  have opened := sdscatlen_edits s [doubleQuote]
  have escaped := sdscatreprLoop_edits p (sdscatlen s [doubleQuote]).value opened.terminated
  have last := sdscatlen_edits (sdscatreprLoop p (sdscatlen s [doubleQuote]).value).value
    [doubleQuote]
  refine ⟨last.bytes.trans ?_, last.terminated, opened.stays.bind (escaped.stays.bind last.stays)⟩
  rw [escaped.bytes, opened.bytes, List.append_assoc, List.append_assoc, List.singleton_append]

/-! ### What is read back -/

def endsWord (byte : Byte) : Bool :=
  byte = 0x20#8 ∨ byte = 0x0a#8 ∨ byte = 0x0d#8 ∨ byte = 0x09#8

def wordByte (byte : Byte) : Bool :=
  byte ≠ 0 ∧ isspace byte = false ∧ byte ≠ doubleQuote ∧ byte ≠ singleQuote

private theorem splitToken_letter (current rest : List Byte) {c : Byte} (letter : c ≠ ascii 'x')
    (visible : c ≠ 0) :
    splitToken .inq current (backslash :: c :: rest) =
      splitToken .inq (current ++ [unescaped c]) rest := by
  rw [splitToken, if_neg fun hex => letter hex.2.1, if_pos ⟨rfl, visible⟩]
  rfl

private theorem splitToken_hex (current rest : List Byte) {high low : Byte}
    (digits : isHexDigit high = true ∧ isHexDigit low = true) :
    splitToken .inq current (backslash :: ascii 'x' :: high :: low :: rest) =
      splitToken .inq
        (current ++ [BitVec.ofNat 8 (hexDigitToInt high * 16 + hexDigitToInt low)]) rest := by
  rw [splitToken, if_pos ⟨rfl, rfl, digits⟩]
  rfl

private theorem splitToken_visible (current rest : List Byte) {byte : Byte}
    (plain : byte ≠ backslash ∧ byte ≠ doubleQuote ∧ byte ≠ 0) :
    splitToken .inq current (byte :: rest) = splitToken .inq (current ++ [byte]) rest := by
  have first : (byte :: rest).getD 0 0 = byte := rfl
  rw [splitToken, first, if_neg fun hex => plain.1 hex.1, if_neg fun escape => plain.1 escape.1,
    if_neg plain.2.1, if_neg plain.2.2]
  rfl

theorem splitToken_escape (current rest : List Byte) (byte : Byte) :
    splitToken .inq current (escape byte ++ rest) = splitToken .inq (current ++ [byte]) rest := by
  have letter (c : Byte) (escapes : c ≠ ascii 'x' ∧ c ≠ 0) (stands : unescaped c = byte) :
      splitToken .inq current ([backslash, c] ++ rest) =
        splitToken .inq (current ++ [byte]) rest := by
    rw [← stands]
    exact splitToken_letter current rest escapes.1 escapes.2
  unfold escape
  split_ifs with self n r t a b printable
  · rcases self with rfl | rfl
    · exact letter _ (by decide) (by decide)
    · exact letter _ (by decide) (by decide)
  · exact letter _ (by decide) (by rw [n]; decide)
  · exact letter _ (by decide) (by rw [r]; decide)
  · exact letter _ (by decide) (by rw [t]; decide)
  · exact letter _ (by decide) (by rw [a]; decide)
  · exact letter _ (by decide) (by rw [b]; decide)
  · refine splitToken_visible current rest ⟨fun same => self (Or.inl same),
      fun same => self (Or.inr same), ?_⟩
    rintro rfl
    exact absurd printable (by decide)
  · have small := byte.isLt
    obtain ⟨highDigit, high, _⟩ := hexDigit_read (byte.toNat / 16) (by omega)
    obtain ⟨lowDigit, low, _⟩ := hexDigit_read (byte.toNat % 16) (by omega)
    have value : byte.toNat / 16 * 16 + byte.toNat % 16 = byte.toNat := by omega
    have back : BitVec.ofNat 8 (hexDigitToInt (hexDigit (byte.toNat / 16)) * 16 +
        hexDigitToInt (hexDigit (byte.toNat % 16))) = byte := by
      rw [high, low, value, BitVec.ofNat_toNat, BitVec.setWidth_eq]
    exact (splitToken_hex current rest ⟨highDigit, lowDigit⟩).trans (by rw [back])

theorem splitToken_escaped (current bytes rest : List Byte) :
    splitToken .inq current (bytes.flatMap escape ++ rest) =
      splitToken .inq (current ++ bytes) rest := by
  induction bytes generalizing current with
  | nil => rw [List.flatMap_nil, List.append_nil, List.nil_append]
  | cons byte bytes ih =>
      rw [List.flatMap_cons, List.append_assoc, splitToken_escape, ih, List.append_assoc,
        List.singleton_append]

private theorem splitToken_closed (current rest : List Byte)
    (ended : rest.head?.all isspace = true) :
    splitToken .inq current (doubleQuote :: rest) = some (current, rest) := by
  have other : doubleQuote ≠ backslash := by decide
  have first : (doubleQuote :: rest).getD 0 0 = doubleQuote := rfl
  rw [splitToken, first, if_neg fun hex => other hex.1, if_neg fun escape => other escape.1,
    if_pos rfl]
  refine if_neg fun follows => ?_
  cases rest with
  | nil => exact follows.1 rfl
  | cons byte rest => exact absurd ended (Bool.eq_false_iff.mp follows.2)

private theorem wordByte_spec {byte : Byte} (member : wordByte byte = true) :
    byte ≠ 0 ∧ isspace byte = false ∧ byte ≠ doubleQuote ∧ byte ≠ singleQuote ∧
      ¬(byte = 0x20#8 ∨ byte = 0x0a#8 ∨ byte = 0x0d#8 ∨ byte = 0x09#8) := by
  obtain ⟨visible, blank, double, single⟩ := of_decide_eq_true member
  refine ⟨visible, blank, double, single, ?_⟩
  rintro (rfl | rfl | rfl | rfl) <;> exact absurd blank (by decide)

private theorem splitToken_word (current word rest : List Byte)
    (plain : ∀ byte ∈ word, wordByte byte = true) :
    splitToken .plain current (word ++ rest) = splitToken .plain (current ++ word) rest := by
  induction word generalizing current with
  | nil => rw [List.append_nil, List.nil_append]
  | cons byte word ih =>
      rw [List.forall_mem_cons] at plain
      obtain ⟨visible, _, double, single, goesOn⟩ := wordByte_spec plain.1
      have first : (byte :: word ++ rest).getD 0 0 = byte := rfl
      rw [splitToken, first, if_neg visible, if_neg goesOn, if_neg double, if_neg single]
      have later := ih (current ++ [byte]) plain.2
      rw [List.append_assoc, List.singleton_append] at later
      exact later

/-- An unquoted token is ended by one of four blanks, which it takes, or by the
end of the line. -/
private theorem splitToken_ended (current rest : List Byte)
    (ended : rest.head?.all endsWord = true) :
    splitToken .plain current rest = some (current, rest.drop 1) := by
  cases rest with
  | nil =>
      rw [splitToken]
      exact if_pos rfl
  | cons byte rest =>
      have ends := of_decide_eq_true ended
      have visible : byte ≠ 0 := by
        rintro rfl
        exact absurd ends (by decide)
      have first : (byte :: rest).getD 0 0 = byte := rfl
      rw [splitToken, first, if_neg visible, if_pos ends]

private theorem splitToken_quote (current rest : List Byte) :
    splitToken .plain current (doubleQuote :: rest) = splitToken .inq current rest := by
  have first : (doubleQuote :: rest).getD 0 0 = doubleQuote := rfl
  conv_lhs => rw [splitToken, first, if_neg (by decide), if_neg (by decide), if_pos rfl]
  rfl

theorem sdssplitargsLoop_blanks (vector : List (List Byte)) (blanks line : List Byte)
    (blank : ∀ byte ∈ blanks, isspace byte = true) :
    sdssplitargsLoop vector (blanks ++ line) = sdssplitargsLoop vector line := by
  have skipped : (blanks ++ line).dropWhile isspace = line.dropWhile isspace := by
    rw [List.dropWhile_append, List.dropWhile_eq_nil_iff.mpr blank]
    rfl
  rw [sdssplitargsLoop, sdssplitargsLoop, skipped]

private theorem sdssplitargsLoop_token {line current p : List Byte} (vector : List (List Byte))
    (token : splitToken .plain [] line = some (current, p))
    (starts : isspace (line.getD 0 0) = false ∧ line.getD 0 0 ≠ 0) :
    sdssplitargsLoop vector line = sdssplitargsLoop (vector ++ [current]) p := by
  have unskipped : line.dropWhile isspace = line := by
    cases line with
    | nil => rfl
    | cons byte line => exact List.dropWhile_cons_of_neg (Bool.eq_false_iff.mp starts.1)
  rw [sdssplitargsLoop, unskipped, dif_pos starts.2, token]

/-- Lines that show a list of arguments: plain words, printed strings and
printed strings right behind a word, with blanks between them. -/
inductive Shows (env : Env) : List (List Byte) → List Byte → Prop
  | blanks {line : List Byte} (blank : ∀ byte ∈ line, isspace byte = true) : Shows env [] line
  | word {blanks word rest : List Byte} {args : List (List Byte)}
      (blank : ∀ byte ∈ blanks, isspace byte = true) (nonempty : word ≠ [])
      (plain : ∀ byte ∈ word, wordByte byte = true) (ended : rest.head?.all endsWord = true)
      (later : Shows env args rest) : Shows env (word :: args) (blanks ++ (word ++ rest))
  | printed {blanks word p rest : List Byte} {args : List (List Byte)}
      (blank : ∀ byte ∈ blanks, isspace byte = true)
      (plain : ∀ byte ∈ word, wordByte byte = true) (ended : rest.head?.all isspace = true)
      (later : Shows env args rest) :
      Shows env ((word ++ p) :: args)
        (blanks ++ (word ++ ((sdscatrepr (sdsempty env).value p).value.bytes ++ rest)))

theorem sdscatrepr_bytes (env : Env) (p : List Byte) :
    (sdscatrepr (sdsempty env).value p).value.bytes =
      doubleQuote :: (p.flatMap escape ++ [doubleQuote]) :=
  (sdscatrepr_edits (sdsempty env).value p).bytes

private theorem endsWord_blank (byte : Byte) (ends : endsWord byte = true) :
    isspace byte = true := by
  rcases of_decide_eq_true ends with rfl | rfl | rfl | rfl <;> decide

theorem Shows.loop {env : Env} {args : List (List Byte)} {line : List Byte}
    (shows : Shows env args line) (vector : List (List Byte)) :
    sdssplitargsLoop vector line = some (vector ++ args) := by
  induction shows generalizing vector with
  | @blanks line blank =>
      have skipped := sdssplitargsLoop_blanks vector line [] blank
      rw [List.append_nil] at skipped
      rw [skipped, List.append_nil, sdssplitargsLoop]
      exact dif_neg fun more => more rfl
  | @word blanks word rest args blank nonempty plain ended later ih =>
      have token := splitToken_word [] word rest plain
      rw [splitToken_ended _ _ ended, List.nil_append] at token
      -- The token has taken a blank, which the next turn would have skipped.
      have passed : sdssplitargsLoop (vector ++ [word]) (rest.drop 1) =
          sdssplitargsLoop (vector ++ [word]) rest := by
        cases rest with
        | nil => rfl
        | cons byte rest =>
            refine (sdssplitargsLoop_blanks _ [byte] rest ?_).symm
            rw [List.forall_mem_singleton]
            exact endsWord_blank byte ended
      obtain ⟨byte, word, rfl⟩ := List.exists_cons_of_ne_nil nonempty
      obtain ⟨visible, solid, _⟩ := wordByte_spec (plain byte (List.mem_cons_self ..))
      rw [sdssplitargsLoop_blanks _ _ _ blank, sdssplitargsLoop_token vector token ⟨solid, visible⟩,
        passed, ih, List.append_assoc, List.singleton_append]
  | @printed blanks word p rest args blank plain ended later ih =>
      rw [sdscatrepr_bytes]
      have token := splitToken_word [] word
        (doubleQuote :: (p.flatMap escape ++ [doubleQuote]) ++ rest) plain
      rw [List.cons_append, splitToken_quote, List.append_assoc, splitToken_escaped,
        List.singleton_append, splitToken_closed _ _ ended, List.nil_append] at token
      have starts : isspace ((word ++ doubleQuote ::
          (p.flatMap escape ++ doubleQuote :: rest)).getD 0 0) = false ∧
          (word ++ doubleQuote :: (p.flatMap escape ++ doubleQuote :: rest)).getD 0 0 ≠ 0 := by
        cases word with
        | nil =>
            have quote : isspace doubleQuote = false ∧ doubleQuote ≠ 0 := by decide
            exact quote
        | cons byte word =>
            obtain ⟨visible, solid, _⟩ := wordByte_spec (plain byte (List.mem_cons_self ..))
            exact ⟨solid, visible⟩
      rw [sdssplitargsLoop_blanks _ _ _ blank, List.cons_append, List.append_assoc,
        List.singleton_append, sdssplitargsLoop_token vector token starts, ih, List.append_assoc,
        List.singleton_append]

/-- A line of words and of strings that `sdscatrepr` printed, all shorter than
`2 ^ 31` bytes in the source, is split into exactly the words and the strings,
whatever bytes the strings hold. -/
theorem sdssplitargs_shows (env : Env) (args : List (List Byte)) (line : List Byte)
    (shows : Shows env args line) : sdssplitargs line = some args :=
  shows.loop []

/-- A word and a printed string of a NUL and a quote. -/
theorem sdssplitargs_word_string :
    sdssplitargs ([] ++ ([0x61#8] ++ ([0x20#8] ++ ([] ++
        ((sdscatrepr (sdsempty server).value [0, doubleQuote]).value.bytes ++ []))))) =
      some [[0x61#8], [0, doubleQuote]] :=
  sdssplitargs_shows server _ _
    (.word (by decide) (by decide) (by decide) (by decide)
      (@Shows.printed server [0x20#8] [] [0, doubleQuote] [] [] (by decide) (by decide) (by decide)
        (.blanks (by decide))))

end PhpHll
