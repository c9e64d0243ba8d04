import QuantumIR.Eval.Error

/-!
Integers of a fixed width in two's complement. A word is a natural number; an
operation first reduces its operands to the width and so its value depends on
their low bits only.
-/

namespace QuantumIR.Word

/-- The number of words of a width. Widths past 64 bits count as 64. -/
def modulus (width : UInt32) : Nat :=
  Nat.pow 2 (min width.toNat 64)

/-- The word of all ones. -/
def mask (width : UInt32) : Nat :=
  modulus width - 1

/-- Words can be computed with at 1 to 64 bits. -/
def checkWidth (width : UInt32) : Except EvalError Unit :=
  if 1 ≤ width ∧ width ≤ 64 then .ok () else .error (.mismatch (.width width))

/-- A word read as a signed number. -/
def signed (bits : Nat) (width : UInt32) : Int :=
  let low := bits % modulus width
  if 2 * low < modulus width then low else low - modulus width

/-- The word that stands for an integer at a width. -/
def ofInt (value : Int) (width : UInt32) : Nat :=
  (value % modulus width).toNat

/-- The word of a constant. -/
def truncate (value : Int64) (width : UInt32) : Nat :=
  ofInt value.toInt width

/-- A shift has to be by less than the width. -/
def checkShift (op : BinaryOp) (width : UInt32) (amount : Nat) : Except EvalError Unit :=
  if amount < width.toNat then .ok () else .error (.arithmetic (.shift op amount width))

def checkDivisor (op : BinaryOp) (divisor : Nat) : Except EvalError Unit :=
  if divisor = 0 then .error (.arithmetic (.divisionByZero op)) else .ok ()

/-- An operation on words. Division of the least signed number by minus one has no
word; the remainder of it is zero. -/
def binary (op : BinaryOp) (width : UInt32) (lhs rhs : Nat) : Except EvalError Nat := do
  checkWidth width
  let m := modulus width
  let a := lhs % m
  let b := rhs % m
  let sa := signed a width
  let sb := signed b width
  match op with
  | .add => return (a + b) % m
  | .sub => return (a + (m - b)) % m
  | .mul => return a * b % m
  | .and => return a &&& b
  | .or => return a ||| b
  | .xor => return a ^^^ b
  | .shl =>
    checkShift op width b
    return a * Nat.pow 2 b % m
  | .lshr =>
    checkShift op width b
    return a / Nat.pow 2 b
  | .ashr =>
    checkShift op width b
    return ofInt (sa.fdiv (Nat.pow 2 b)) width
  | .udiv =>
    checkDivisor op b
    return a / b
  | .urem =>
    checkDivisor op b
    return a % b
  | .sdiv =>
    checkDivisor op b
    if 2 * sa = -m ∧ sb = -1 then throw (.arithmetic (.overflow sa width))
    return ofInt (sa.tdiv sb) width
  | .srem =>
    checkDivisor op b
    return ofInt (sa.tmod sb) width

/-- A comparison of words. -/
def compare (predicate : Predicate) (width : UInt32) (lhs rhs : Nat) : Bool :=
  let a := lhs % modulus width
  let b := rhs % modulus width
  let sa := signed a width
  let sb := signed b width
  match predicate with
  | .eq => a = b
  | .ne => a ≠ b
  | .ugt => b < a
  | .uge => b ≤ a
  | .ult => a < b
  | .ule => a ≤ b
  | .sgt => sb < sa
  | .sge => sb ≤ sa
  | .slt => sa < sb
  | .sle => sa ≤ sb

/-- A conversion between widths. Extension with zeros leaves the word as it is, also
where the target is the narrower of the two. -/
def convert (conversion : Conversion) (source : UInt32) (value : Nat) (target : UInt32) :
    Except EvalError Nat := do
  checkWidth source
  checkWidth target
  let bits := value % modulus source
  match conversion with
  | .zext => return bits
  | .sext => return ofInt (signed bits source) target
  | .trunc => return bits % modulus target

end QuantumIR.Word
