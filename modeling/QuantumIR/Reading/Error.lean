import QuantumIR.Source
import QuantumIR.Ty

/-!
Why a text is not a module. A cause says what was expected and what was there, or
which construct lies outside the subset that is read; an error adds the place.
-/

namespace QuantumIR

/-- What a text should go on with. -/
inductive Expected where
  | token (token : Token)
  | ty
  | arrayLength
  | integer
  | stringLiteral
  | localName
  | globalName
  | pointerType
  | integerType
  | integerIndexType
  | valueOf (ty : Ty)
  | targetEntry
  | topLevel
  | constantOrGlobal
  | align
  | groupNumber
  | attributeEntry
  | functionKeyword
  | closingBrace
  | call
  | valueProducer
  | predicate
  | instruction
  | callee
  deriving DecidableEq, Repr, Inhabited

def Expected.text : Expected → String
  | token t => t.text
  | ty => "type"
  | arrayLength => "array length"
  | integer => "integer"
  | stringLiteral => "string literal"
  | localName => "local identifier"
  | globalName => "global identifier"
  | pointerType => "pointer type"
  | integerType => "integer type"
  | integerIndexType => "integer index type"
  | valueOf t => "value of type " ++ t.text
  | targetEntry => "`datalayout` or `triple`"
  | topLevel => "top-level entity"
  | constantOrGlobal => "`constant` or `global`"
  | align => "`align`"
  | groupNumber => "attribute group id"
  | attributeEntry => "attribute"
  | functionKeyword => "`define` or `declare`"
  | closingBrace => "`\x7d`"
  | call => "`call`"
  | valueProducer => "instruction producing a value"
  | predicate => "integer predicate"
  | instruction => "instruction"
  | callee => "callee"

/-- What a text goes on with instead. -/
inductive Found where
  | token (token : Token)
  /-- A register bound by an instruction that gives no value. -/
  | assignment (name : String)
  deriving DecidableEq, Repr, Inhabited

def Found.text : Found → String
  | token t => t.text
  | assignment name => "assignment to %" ++ name

/-- A construct of the language that lies outside the subset that is read. -/
inductive Construct where
  | typeWord (word : String)
  | addressSpace
  | constant (word : String)
  | elementOfNonArray
  | elementPastStart
  | variadic
  | selectOn (ty : Ty)
  | selectMismatch
  | convertFrom (word : String) (ty : Ty)
  | convertTo (word : String) (ty : Ty)
  | instruction (word : String)
  | functionType
  | indirectCall
  | branchOn (ty : Ty)
  | operationOn (word : String) (ty : Ty)
  | structType
  | globalOf (ty : Ty)
  | globalInitializer
  | stringLength (found : Nat) (declared : UInt64)
  deriving DecidableEq, Repr, Inhabited

def Construct.text : Construct → String
  | typeWord word => "type `" ++ word ++ "`"
  | addressSpace => "address spaces"
  | constant word => "`" ++ word ++ "` constant"
  | elementOfNonArray => "getelementptr on a non-array type"
  | elementPastStart => "getelementptr with non-zero index"
  | variadic => "variadic function"
  | selectOn ty => "select on " ++ ty.text
  | selectMismatch => "select with mismatched operand types"
  | convertFrom word ty => word ++ " from " ++ ty.text
  | convertTo word ty => word ++ " to " ++ ty.text
  | instruction word => "instruction `" ++ word ++ "`"
  | functionType => "call through an explicit function type"
  | indirectCall => "indirect call"
  | branchOn ty => "branch on " ++ ty.text
  | operationOn word ty => word ++ " on " ++ ty.text
  | structType => "non-opaque type definition"
  | globalOf ty => "global of type " ++ ty.text
  | globalInitializer => "global initializer"
  | stringLength found declared =>
    "string of " ++ toString found ++ " bytes in [" ++ toString declared.toNat ++ " x i8]"

/-- What a module may define only once. -/
inductive Defined where
  | global (name : String)
  | group (number : UInt32)
  deriving DecidableEq, Repr, Inhabited

def Defined.text : Defined → String
  | global name => "@" ++ name
  | group number => "#" ++ toString number.toNat

/-- Why a text is not a module. -/
inductive ParseCause where
  | invalidToken (text : String)
  | unexpected (expected : Expected) (found : Found)
  | unexpectedEnd (expected : Expected)
  | unsupported (construct : Construct)
  | undefinedGroup (number : UInt32)
  | redefinition (defined : Defined)
  deriving DecidableEq, Repr, Inhabited

def ParseCause.message : ParseCause → String
  | invalidToken text => "Invalid token: '" ++ text ++ "'"
  | unexpected expected found => "expected " ++ expected.text ++ ", found " ++ found.text
  | unexpectedEnd expected => "unexpected end of input, expected " ++ expected.text
  | unsupported construct => "unsupported " ++ construct.text
  | undefinedGroup number => "undefined attribute group #" ++ toString number.toNat
  | redefinition defined => "redefinition of `" ++ defined.text ++ "`"

/-- Why and where a text is not a module. -/
structure ParseError where
  position : Position
  cause : ParseCause
  deriving DecidableEq, Repr, Inhabited

def ParseError.message (error : ParseError) : String :=
  toString error.position.line ++ ":" ++ toString error.position.column ++ ": " ++
    error.cause.message

end QuantumIR
