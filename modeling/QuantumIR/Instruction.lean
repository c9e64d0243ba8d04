import QuantumIR.Value

/-!
Instructions. A branch, a conditional branch and a return end a block; all other
instructions stand inside one.
-/

namespace QuantumIR

/-- Integer operators. -/
inductive BinaryOp where
  | add | sub | mul | and | or | xor | shl | lshr | ashr | udiv | sdiv | urem | srem
  deriving DecidableEq, Repr, Inhabited

namespace BinaryOp

def all : List BinaryOp :=
  [add, sub, mul, and, or, xor, shl, lshr, ashr, udiv, sdiv, urem, srem]

def mnemonic : BinaryOp → String
  | add => "add"
  | sub => "sub"
  | mul => "mul"
  | and => "and"
  | or => "or"
  | xor => "xor"
  | shl => "shl"
  | lshr => "lshr"
  | ashr => "ashr"
  | udiv => "udiv"
  | sdiv => "sdiv"
  | urem => "urem"
  | srem => "srem"

def ofMnemonic? (word : String) : Option BinaryOp :=
  all.find? fun op => op.mnemonic = word

end BinaryOp

/-- Integer comparisons. -/
inductive Predicate where
  | eq | ne | ugt | uge | ult | ule | sgt | sge | slt | sle
  deriving DecidableEq, Repr, Inhabited

namespace Predicate

def all : List Predicate :=
  [eq, ne, ugt, uge, ult, ule, sgt, sge, slt, sle]

def mnemonic : Predicate → String
  | eq => "eq"
  | ne => "ne"
  | ugt => "ugt"
  | uge => "uge"
  | ult => "ult"
  | ule => "ule"
  | sgt => "sgt"
  | sge => "sge"
  | slt => "slt"
  | sle => "sle"

def ofMnemonic? (word : String) : Option Predicate :=
  all.find? fun predicate => predicate.mnemonic = word

end Predicate

/-- Conversions between integer widths. -/
inductive Conversion where
  | zext | sext | trunc
  deriving DecidableEq, Repr, Inhabited

namespace Conversion

def all : List Conversion :=
  [zext, sext, trunc]

def mnemonic : Conversion → String
  | zext => "zext"
  | sext => "sext"
  | trunc => "trunc"

def ofMnemonic? (word : String) : Option Conversion :=
  all.find? fun conversion => conversion.mnemonic = word

end Conversion

/-- One instruction. -/
inductive Instruction where
  | call (result : Option String) (ret : Ty) (callee : String) (args : List Operand)
  | binary (result : String) (op : BinaryOp) (width : UInt32) (lhs rhs : Value)
  | compare (result : String) (predicate : Predicate) (width : UInt32) (lhs rhs : Value)
  | convert (result : String) (conversion : Conversion) (source : UInt32) (value : Value)
      (target : UInt32)
  | select (result : String) (condition : Value) (ty : Ty) (onTrue onFalse : Value)
  | branch (target : String)
  | branchIf (condition : Value) (onTrue onFalse : String)
  /-- Returns nothing, or an operand. -/
  | ret (operand : Option Operand)
  deriving DecidableEq, Repr, Inhabited

namespace Instruction

/-- Whether an instruction ends its block. -/
def isTerminator : Instruction → Bool
  | branch _ | branchIf .. | ret _ => true
  | _ => false

/-- The register that an instruction binds. -/
def result? : Instruction → Option String
  | call result .. => result
  | binary result .. | compare result .. | convert result .. | select result .. => some result
  | branch _ | branchIf .. | ret _ => none

/-- The labels that a terminator may go on to. -/
def successors : Instruction → List String
  | branch target => [target]
  | branchIf _ onTrue onFalse => [onTrue, onFalse]
  | _ => []

/-- The name of the function that a call calls. -/
def callee? : Instruction → Option String
  | call _ _ callee _ => some callee
  | _ => none

/-- The values that an instruction reads, each with its type where the type is
written out with it. -/
def operands : Instruction → List (Option Ty × Value)
  | call _ _ _ args => args.map fun arg => (some arg.ty, arg.value)
  | binary _ _ _ lhs rhs | compare _ _ _ lhs rhs => [(none, lhs), (none, rhs)]
  | convert _ _ _ value _ => [(none, value)]
  | select _ condition ty onTrue onFalse =>
    [(none, condition), (some ty, onTrue), (some ty, onFalse)]
  | branch _ => []
  | branchIf condition .. => [(none, condition)]
  | ret operand => operand.toList.map fun arg => (some arg.ty, arg.value)

/-- Replaces every value that an instruction reads. -/
def mapValues (f : Value → Value) : Instruction → Instruction
  | call result ty callee args =>
    call result ty callee (args.map fun arg => { arg with value := f arg.value })
  | binary result op width lhs rhs => binary result op width (f lhs) (f rhs)
  | compare result predicate width lhs rhs => compare result predicate width (f lhs) (f rhs)
  | convert result conversion source value target =>
    convert result conversion source (f value) target
  | select result condition ty onTrue onFalse =>
    select result (f condition) ty (f onTrue) (f onFalse)
  | branch target => branch target
  | branchIf condition onTrue onFalse => branchIf (f condition) onTrue onFalse
  | ret operand => ret (operand.map fun arg => { arg with value := f arg.value })

/-- Replaces the register that an instruction binds. -/
def mapResult (f : String → String) : Instruction → Instruction
  | call result ty callee args => call (result.map f) ty callee args
  | binary result op width lhs rhs => binary (f result) op width lhs rhs
  | compare result predicate width lhs rhs => compare (f result) predicate width lhs rhs
  | convert result conversion source value target =>
    convert (f result) conversion source value target
  | select result condition ty onTrue onFalse => select (f result) condition ty onTrue onFalse
  | branch target => branch target
  | branchIf condition onTrue onFalse => branchIf condition onTrue onFalse
  | ret operand => ret operand

/-- The start of an instruction that binds a register. -/
def bindingText (result : String) : String :=
  "%" ++ Text.formatName result ++ " = "

def labelText (label : String) : String :=
  "label %" ++ Text.formatName label

/-- An instruction as it is written. -/
def text : Instruction → String
  | call result ty callee args =>
    (result.map bindingText).getD "" ++ "call " ++ ty.text ++ " @" ++ Text.formatName callee ++
      "(" ++ ", ".intercalate (args.map Operand.text) ++ ")"
  | binary result op width lhs rhs =>
    let ty := Ty.int width
    bindingText result ++ op.mnemonic ++ " " ++ ty.text ++ " " ++ lhs.text ty ++ ", " ++
      rhs.text ty
  | compare result predicate width lhs rhs =>
    let ty := Ty.int width
    bindingText result ++ "icmp " ++ predicate.mnemonic ++ " " ++ ty.text ++ " " ++
      lhs.text ty ++ ", " ++ rhs.text ty
  | convert result conversion source value target =>
    let ty := Ty.int source
    bindingText result ++ conversion.mnemonic ++ " " ++ ty.text ++ " " ++ value.text ty ++
      " to " ++ (Ty.int target).text
  | select result condition ty onTrue onFalse =>
    bindingText result ++ "select i1 " ++ condition.text .bool ++ ", " ++ ty.text ++ " " ++
      onTrue.text ty ++ ", " ++ ty.text ++ " " ++ onFalse.text ty
  | branch target => "br " ++ labelText target
  | branchIf condition onTrue onFalse =>
    "br i1 " ++ condition.text .bool ++ ", " ++ labelText onTrue ++ ", " ++ labelText onFalse
  | ret none => "ret void"
  | ret (some operand) => "ret " ++ operand.text

end Instruction

end QuantumIR
