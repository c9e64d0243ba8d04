import QuantumIR.Proofs.Bounded.Lines
import QuantumIR.Proofs.Bounded.Outlines
import QuantumIR.Proofs.Token.Order

/-!
Parsing with a limited number of turns. One turn is used up for each piece of the text, then the row
of tokens is read, and at last a fault gets its line and column. Three turns for each piece and one
more are enough, and no token, no line and no part of the text is looked for where there is none.
-/

namespace QuantumIR.Bounded

open Text

/-- What comes of a bounded parse. -/
inductive Outcome where
  | ended (result : Except ParseError Module)
  | outOfTurns
  | outOfBounds

/-- What comes of collecting the tokens of a text. -/
inductive Collected where
  | tokens (placed : List PlacedToken) (turns : Nat)
  | invalid (piece : String) (offset : Nat)
  | outOfTurns

/-- Collects the tokens of a text up to the first piece that is none. -/
def collect : Nat → List Lexeme → Collected
  | turns, [] => .tokens [] turns
  | 0, _ :: _ => .outOfTurns
  | turns + 1, .token token span :: lexemes =>
    match collect turns lexemes with
    | .tokens placed turns => .tokens (⟨token, span⟩ :: placed) turns
    | other => other
  | _ + 1, .invalid piece span :: _ => .invalid piece span.start

/-- Whether the text from the start of one token to the end of another can be cut out. -/
def canSlice (text : List Char) (placed : List PlacedToken) (first last : Nat) : Bool :=
  match placed[first]?, placed[last]? with
  | some a, some b => canCut text ⟨a.span.start, b.span.stop⟩
  | _, _ => false

/-- An error at a byte, whose line is looked up in the table of lines. -/
def errorAt (text : List Char) (offset : Nat) (cause : ParseCause) : Outcome :=
  match lineColumn? (lineStarts text) offset with
  | some position => .ended (.error ⟨position, cause⟩)
  | none => .outOfBounds

/-- The module that a text spells, parsed in so many turns. -/
def parse (turns : Nat) (source : String) : Outcome :=
  let text := Source.blankMetadata source.toList
  match collect turns (Lexeme.scan text) with
  | .outOfTurns => .outOfTurns
  | .invalid piece offset => errorAt text offset (.invalidToken piece)
  | .tokens placed turns =>
    match readOutline ⟨placed.map PlacedToken.token, canSlice text placed⟩ ⟨0, turns⟩ with
    | .ok (outline, _) => .ended (.ok (outline.written text placed))
    | .error (.fault place cause) =>
      let start? := placed[place]?.map fun token => token.span.start
      errorAt text (start?.getD (byteCount text)) cause
    | .error .outOfTurns => .outOfTurns
    | .error .outOfBounds => .outOfBounds

/-- With a turn for each piece, collecting the tokens ends as it does without turns. -/
theorem collect_eq (spare : Nat) (lexemes : List Lexeme) :
    (∃ placed, Module.placeTokens lexemes = .ok placed ∧
      collect (lexemes.length + spare) lexemes = .tokens placed spare) ∨
    ∃ piece span, .invalid piece span ∈ lexemes ∧
      Module.placeTokens lexemes = .error ⟨some span.start, .invalidToken piece⟩ ∧
      collect (lexemes.length + spare) lexemes = .invalid piece span.start := by
  induction lexemes with
  | nil => exact .inl ⟨[], rfl, by rw [List.length_nil, Nat.zero_add, collect]⟩
  | cons lexeme lexemes ih =>
    rw [List.length_cons, Nat.add_right_comm]
    cases lexeme with
    | invalid piece span => exact .inr ⟨piece, span, List.mem_cons_self, rfl, rfl⟩
    | token token span =>
      rw [Module.placeTokens, collect]
      rcases ih with ⟨placed, hplaced, hcollect⟩ | ⟨piece, span', hmem, hplaced, hcollect⟩
      · exact .inl ⟨⟨token, span⟩ :: placed, by rw [hplaced]; rfl, by rw [hcollect]⟩
      · exact .inr ⟨piece, span', List.mem_cons_of_mem _ hmem, by rw [hplaced]; rfl,
          by rw [hcollect]⟩

theorem readText_eq (text : List Char) : Module.readText text = (do
    let placed ← Module.placeTokens (Lexeme.scan text)
    let (module, _) ← readTokens text ⟨placed, 0⟩
    return module) := by
  rw [Module.readText]
  refine congrArg (Module.placeTokens _ >>= ·) (funext fun placed => ?_)
  change Except.bind (Module.readEntities text ⟨placed, 0⟩) _ =
    Except.bind (Except.bind (Module.readEntities text ⟨placed, 0⟩) _) _
  cases Module.readEntities text ⟨placed, 0⟩ with
  | error fault => rfl
  | ok p =>
    change Except.bind (p.1.functions.mapM (Module.resolve p.1.groups)) _ =
      Except.bind (Except.bind (Except.bind
        (p.1.functions.mapM (Module.resolve p.1.groups)) _) _) _
    cases p.1.functions.mapM (Module.resolve p.1.groups) <;> rfl

end QuantumIR.Bounded
