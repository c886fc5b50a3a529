import Mathlib
import TinyIsa.Proofs.Armlet.Encoding
import TinyIsa.Proofs.Tally

/-!
# The architectures

* `Architecture`: the two architectures, and the operations of each. Both are lawful.
-/

namespace TinyIsa

/-- The architectures. -/
inductive Architecture where
  | armlet
  | tally
deriving DecidableEq, Repr

namespace Architecture

/-- The operations of an architecture. -/
def Op : Architecture → Type
  | armlet => Armlet.Op
  | tally => Tally.Op

instance : (a : Architecture) → InstructionSet a.Op
  | armlet => inferInstanceAs (InstructionSet Armlet.Op)
  | tally => inferInstanceAs (InstructionSet Tally.Op)

instance : (a : Architecture) → InstructionSet.Lawful a.Op
  | armlet => inferInstanceAs (InstructionSet.Lawful Armlet.Op)
  | tally => inferInstanceAs (InstructionSet.Lawful Tally.Op)

end Architecture

end TinyIsa
