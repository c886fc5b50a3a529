/-!
# Words

A word is a bit pattern that carries its width. An operation on two words keeps
the width of the left one; the right one enters with its signed value, cut or
sign-extended to that width.

* `ofInt`, `ofNat`, `ofBits`: words from numbers and bits, modulo the width.
* `toNat`, `toInt`: the unsigned and the two's complement value.
* `operand`: the bits with which a word enters an operation of another width.
* `shift`, `arithmeticShift`: shifts by a signed amount, to the left when positive.
-/

namespace TinyIsa

/-- A bit pattern of a given width. -/
structure Word where
  /-- The number of bits. -/
  width : Nat
  /-- The bits. -/
  bits : BitVec width
deriving DecidableEq

namespace Word

/-- The word of zeros. -/
def zero (w : Nat) : Word := ⟨w, 0⟩

/-- The word that is congruent to an integer. -/
def ofInt (w : Nat) (v : Int) : Word := ⟨w, BitVec.ofInt w v⟩

/-- The word that is congruent to a natural number. -/
def ofNat (w n : Nat) : Word := ⟨w, BitVec.ofNat w n⟩

/-- The word of the given bits, least significant first. -/
def ofBits (bits : List Bool) : Word := ⟨bits.length, BitVec.ofBoolListLE bits⟩

/-- The unsigned value. -/
def toNat (a : Word) : Nat := a.bits.toNat

/-- The two's complement value. -/
def toInt (a : Word) : Int := a.bits.toInt

/-- The bit of weight `2 ^ i`, false beyond the width. -/
def bit (a : Word) (i : Nat) : Bool := a.bits.getLsbD i

/-- Whether all bits are clear. -/
def isZero (a : Word) : Bool := a.bits == 0

/-- The bits of the signed value of a word at another width. -/
def operand (w : Nat) (a : Word) : BitVec w := a.bits.signExtend w

/-- The word that a cell holding `a` holds once `b` is stored in it. -/
def store (a b : Word) : Word := ⟨a.width, b.operand a.width⟩

/-- The sum. -/
def add (a b : Word) : Word := ⟨a.width, a.bits + b.operand a.width⟩

/-- The difference. -/
def subtract (a b : Word) : Word := ⟨a.width, a.bits - b.operand a.width⟩

/-- The bitwise conjunction. -/
def and (a b : Word) : Word := ⟨a.width, a.bits &&& b.operand a.width⟩

/-- The bitwise disjunction. -/
def or (a b : Word) : Word := ⟨a.width, a.bits ||| b.operand a.width⟩

/-- The bitwise exclusive disjunction. -/
def xor (a b : Word) : Word := ⟨a.width, a.bits ^^^ b.operand a.width⟩

/-- The bitwise complement. -/
def invert (a : Word) : Word := ⟨a.width, ~~~a.bits⟩

/-- The word after `a`, around the end. -/
def inc (a : Word) : Word := ⟨a.width, a.bits + 1⟩

/-- The word before `a`, around the end. -/
def dec (a : Word) : Word := ⟨a.width, a.bits - 1⟩

/-- Shifts zeros in: from the right by a positive amount, from the left by a negative one. -/
def shift (a : Word) (n : Int) : Word :=
  if a.width ≤ n.natAbs then zero a.width
  else if 0 ≤ n then ⟨a.width, a.bits <<< n.natAbs⟩
  else ⟨a.width, a.bits >>> n.natAbs⟩

/-- The shift that keeps the sign when it goes to the right. -/
def arithmeticShift (a : Word) (n : Int) : Word :=
  if 0 ≤ n then a.shift n
  else ⟨a.width, a.bits.sshiftRight (min n.natAbs a.width)⟩

end Word

end TinyIsa
