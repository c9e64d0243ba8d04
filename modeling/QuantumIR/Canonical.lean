import QuantumIR.Module

/-!
The canonical text of a module: header, opaque types, global strings, declarations,
definitions, attribute groups. Functions with equal attributes share a group, and
groups are numbered in the order of their first use.
-/

namespace QuantumIR

/-- The lines of a block, label first. -/
def Block.lines (block : Block) : List String :=
  (Text.formatName block.label ++ ":") ::
    block.instructions.map fun instruction => "  " ++ instruction.text

/-- A type, and a name if the parameter has one. -/
def Param.text (param : Param) : String :=
  match param.name with
  | some name => param.ty.text ++ " %" ++ Text.formatName name
  | none => param.ty.text

def GlobalString.line (global : GlobalString) : String :=
  "@" ++ Text.formatName global.name ++ " = internal constant [" ++
    toString global.bytes.length ++ " x i8] c\"" ++ Text.escape global.bytes ++ "\""

namespace Function

/-- What declarations and definitions have in common. The group is left out if the
function has no attributes. -/
def header (keyword : String) (groups : List (List Attribute)) (function : Function) : String :=
  keyword ++ " " ++ function.ret.text ++ " @" ++ Text.formatName function.name ++ "(" ++
    ", ".intercalate (function.params.map Param.text) ++ ")" ++
    if function.attributes.isEmpty then ""
    else " #" ++ toString (groups.idxOf function.attributes)

/-- The lines of blocks, with an empty line between two of them. -/
def bodyLines : List Block → List String
  | [] => []
  | [block] => block.lines
  | block :: blocks => block.lines ++ "" :: bodyLines blocks

def declarationLines (groups : List (List Attribute)) (function : Function) : List String :=
  [function.header "declare" groups]

def definitionLines (groups : List (List Attribute)) (function : Function) : List String :=
  (function.header "define" groups ++ " \x7b") :: bodyLines function.blocks ++ ["\x7d"]

end Function

namespace Module

/-- The attribute groups in the order of their first use. -/
def attributeGroups (module : Module) : List (List Attribute) :=
  (((module.declarations ++ module.definitions).map Function.attributes).filter
    fun attributes => !attributes.isEmpty).eraseDups

def headerLines (module : Module) : List String :=
  ("; ModuleID = '" ++ Text.escapeText module.name ++ "'") ::
    module.source.toList.map fun source => "source_filename = \"" ++ Text.escapeText source ++ "\""

def opaqueTypeLine (name : String) : String :=
  "%" ++ Text.formatName name ++ " = type opaque"

def groupLine (entry : List Attribute × Nat) : String :=
  "attributes #" ++ toString entry.2 ++ " = \x7b " ++
    " ".intercalate (entry.1.map Attribute.text) ++ " \x7d"

/-- Lines after an empty one, or nothing if there are none. -/
def paragraph : List String → List String
  | [] => []
  | lines => "" :: lines

/-- The lines of the canonical text. -/
def lines (module : Module) : List String :=
  let groups := module.attributeGroups
  module.headerLines ++
    paragraph (module.opaqueTypes.map opaqueTypeLine) ++
    paragraph (module.globals.map GlobalString.line) ++
    module.declarations.flatMap (fun function => paragraph (function.declarationLines groups)) ++
    module.definitions.flatMap (fun function => paragraph (function.definitionLines groups)) ++
    paragraph (groups.zipIdx.map groupLine)

/-- The canonical text. -/
def text (module : Module) : String :=
  String.join (module.lines.map fun line => line ++ "\n")

end Module

end QuantumIR
