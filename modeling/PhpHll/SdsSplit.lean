/-
Splitting and joining.

`sdssplitlen` cuts a byte string at a separator, `sdsjoinsds` puts pieces and
separators together again.  The array of tokens is an allocation of its own; it
is measured in tokens here.  A token is the list of bytes that `sdsnewlen` is
given.  Lengths, places and counts are natural numbers; they are `int` in the
source, so strings are shorter than `2 ^ 31` bytes.
-/

import PhpHll.SdsEditsSpec
import PhpHll.Library.Separated

namespace PhpHll

open ByteMemory Logged Allocation Separated

/-! ### `sdssplitlen` -/

def sdsempty (env : Env) : Logged Touch Sds := sdsnewlenLogged env []

def sdsjoinLoop (sep : List Byte) : List (List Byte) → Sds → Logged Touch Sds
  | [], join => pure join
  | [last], join => sdscatlen join last
  | arg :: next :: rest, join => do
      let join ← sdscatlen join arg
      let join ← sdscatlen join sep
      sdsjoinLoop sep (next :: rest) join

def sdsjoinsds (env : Env) (argv : List (List Byte)) (sep : List Byte) : Logged Touch Sds := do
  let join ← sdsempty env
  sdsjoinLoop sep argv join

/-- `sdsjoin` takes C strings. -/
def sdsjoin (env : Env) (argv : List (List Byte)) (sep : List Byte) : Logged Touch Sds := do
  let join ← sdsempty env
  sdsjoinLoop sep (argv.map fun arg => arg.take (strlen arg)) join

/-! ### The tokens -/

section Passed

variable (s sep : List Byte) {start j : Nat}
  (passed : ∀ k, start ≤ k → k < j → ¬sep <+: s.drop k)
include passed

end Passed

theorem sdsjoin_eq (env : Env) (argv : List (List Byte)) (sep : List Byte) :
    sdsjoin env argv sep =
      sdsjoinsds env (argv.map fun arg => arg.takeWhile fun byte => byte ≠ 0) sep := by
  simp only [sdsjoin, sdsjoinsds, take_strlen]

/-! ### Round trips -/

end PhpHll
