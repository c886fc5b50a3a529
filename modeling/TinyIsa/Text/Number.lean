/-!
# Numbers as text

* `decimal`: the decimal text of an integer.
* `natural?`: the number that a row of digits spells in a base.
* `integer?`: the same in base ten, with a sign in front.
-/

namespace TinyIsa.Text

/-- The decimal text of an integer: digits without leading zeros, after a minus sign
when it is negative. -/
def decimal (n : Int) : String :=
  String.ofList <| match n with
    | .ofNat k => Nat.toDigits 10 k
    | .negSucc k => '-' :: Nat.toDigits 10 (k + 1)

/-- The value of a digit in a base up to 36; letters count in either case. -/
def digit? (base : Nat) (c : Char) : Option Nat :=
  if '0' ≤ c ∧ c ≤ '9' then below (c.toNat - '0'.toNat)
  else if 'a' ≤ c ∧ c ≤ 'z' then below (c.toNat - 'a'.toNat + 10)
  else if 'A' ≤ c ∧ c ≤ 'Z' then below (c.toNat - 'A'.toNat + 10)
  else none
where
  /-- Keeps a value that is a digit of the base. -/
  below (v : Nat) : Option Nat := if v < base then some v else none

/-- The number that one or more digits of a base spell. -/
def natural? (base : Nat) (s : List Char) : Option Nat :=
  if s.isEmpty then none
  else s.foldlM (fun n c => (digit? base c).map (base * n + ·)) 0

/-- A leading sign and the rest of the text: whether it is a minus, and what follows. -/
def splitSign : List Char → Bool × List Char
  | '-' :: s => (true, s)
  | '+' :: s => (false, s)
  | s => (false, s)

/-- The integer that an optional sign and decimal digits spell. -/
def integer? (s : List Char) : Option Int :=
  (natural? 10 (splitSign s).2).map fun n => if (splitSign s).1 then -n else n

/-- A text in which every ASCII capital is its small letter. -/
def lowercase (s : String) : String :=
  String.ofList (s.toList.map Char.toLower)

end TinyIsa.Text
