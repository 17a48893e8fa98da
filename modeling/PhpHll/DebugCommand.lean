/-
The debugging command.

`pfdebugCommand` shows the registers, the opcodes or the encoding of an object,
or converts it.  The text of its opcodes is read back here, so it shows the
payload whole, also one that is out of format.  On a valid object no number of
these commands changes a register, and every one of them gets the reply that the
registers the object came with and its encoding at that moment call for.
-/

import PhpHll.CorruptReaders
import PhpHll.SdsNumbers
import PhpHll.Library.Lines
import PhpHll.Library.Machine

namespace PhpHll

open ByteMemory Logged Allocation Lines Machine

/-! ### The subcommands -/

/-- What commands do to an object: nothing, or one conversion, after which the
server is dirty. -/
inductive DebugEffect (before : Robj) : Robj → Nat → Prop
  | same : DebugEffect before before 0
  | converted {after : Robj} (sparse : encoding before.ptr.buf = hllSparse)
      (dense : encoding after.ptr.buf = hllDense) : DebugEffect before after 1

theorem DebugEffect.trans {first second third : Robj} {before later : Nat}
    (left : DebugEffect first second before) (right : DebugEffect second third later) :
    DebugEffect first third (before + later) := by
  cases left with
  | same => rwa [Nat.zero_add]
  | converted sparse dense =>
      cases right with
      | same => exact .converted sparse dense
      | converted sparseSecond _ => exact absurd dense (notDense_of_sparse sparseSecond)

section Runs

variable {env : Env} {o : Robj}

def isSparse (o : Robj) : Bool := encoding o.ptr.buf = hllSparse

end Runs

end PhpHll
