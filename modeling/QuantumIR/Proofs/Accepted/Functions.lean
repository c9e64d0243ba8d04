import QuantumIR.Proofs.Accepted.Instructions
import QuantumIR.Proofs.Reading.RoundTrip

/-!
Blocks and functions that are read can be written. A block ends with its first terminator, and the
parameters of a definition have names.
-/

namespace QuantumIR

open Reading

variable {row : List PlacedToken}

/-- A quoted attribute can be written, whatever its key and its value are. -/
theorem Attribute.gives_readQuoted : Gives row readQuoted Writable := by
  apply gives_stringLiteral.skip
  intro key
  apply (gives_takeIf _).skip
  intro found
  apply Gives.ite
  · intro _
    exact gives_stringLiteral.skip fun _ => Gives.pure trivial
  · intro _
    exact Gives.pure trivial

theorem Param.Writable.mono {isDefinition isDefinition' : Bool} {param : Param}
    (h : param.Writable isDefinition) (hle : isDefinition' → isDefinition) :
    param.Writable isDefinition' :=
  ⟨h.1, fun hdefinition => h.2 (hle hdefinition)⟩

namespace Function

theorem gives_readParamName (isDefinition : Bool) :
    Gives row (readParamName isDefinition) fun name => isDefinition → name.isSome := by
  apply gives_peek?.skip
  intro token?
  split
  · apply gives_advance.skip
    intro _
    exact (gives_observe _).skip fun _ => Gives.pure fun _ => rfl
  · apply Gives.ite
    · intro _
      exact gives_freshNumber.skip fun _ => Gives.pure fun _ => rfl
    · intro hdefinition
      exact Gives.pure fun h => absurd h hdefinition

theorem gives_readParam (isDefinition : Bool) :
    Gives row (readParam isDefinition) (Param.Writable isDefinition) := by
  apply (gives_isNext _).skip
  intro found
  apply Gives.ite
  · intro _
    exact (gives_unsupported .variadic).stop
  · intro _
    apply Ty.gives_read.bind
    intro ty hty
    apply gives_skipParamAttributes.skip
    intro _
    apply (gives_readParamName isDefinition).bind
    intro name hname
    exact Gives.pure ⟨hty, hname⟩

/-- What stands between parameters and body can be written. -/
def Suffix.Writable (suffix : Suffix) : Prop :=
  ∀ attr ∈ suffix.attributes, attr.Writable

theorem gives_readSuffixEntry {suffix : Suffix} (h : suffix.Writable) :
    Gives row (readSuffixEntry suffix) (Keeps Suffix.Writable Suffix.Writable) := by
  apply gives_peek?.skip
  intro token?
  split
  · exact gives_here.skip fun _ => gives_advance.skip fun _ => Gives.pure h
  · apply Attribute.gives_readQuoted.bind
    intro attr hattr
    exact Gives.pure (List.forall_mem_append.mpr ⟨h, List.forall_mem_singleton.mpr hattr⟩)
  · apply gives_advance.skip
    intro _
    apply (gives_takeIf _).skip
    intro found
    apply Gives.ite
    · intro _
      exact gives_skipToParen.skip fun _ => Gives.pure h
    · intro _
      exact gives_skipInteger.skip fun _ => Gives.pure h
  · exact gives_advance.skip fun _ => Gives.pure h
  · exact Gives.pure h

theorem gives_readSuffix : Gives row readSuffix Suffix.Writable :=
  Gives.loop Suffix.Writable (fun _ h => gives_readSuffixEntry h) fun _ h =>
    absurd h List.not_mem_nil

theorem gives_readLabel : Gives row readLabel fun _ => True := by
  apply gives_peek?.skip
  intro token?
  split
  · apply gives_advance.skip
    intro _
    exact (gives_observe _).skip fun _ => Gives.pure trivial
  · exact gives_freshNumber

/-- Instructions before the one that ends their block. -/
def Continued (instructions : List Instruction) : Prop :=
  ∀ instruction ∈ instructions, instruction.Writable ∧ instruction.isTerminator = false

/-- Instructions that can be written as those of one block. -/
def Complete (instructions : List Instruction) : Prop :=
  (∀ instruction ∈ instructions, instruction.Writable) ∧
    ∀ instruction ∈ instructions.dropLast, instruction.isTerminator = false

theorem Continued.complete {instructions : List Instruction} (h : Continued instructions) :
    Complete instructions :=
  ⟨fun instruction hmem => (h instruction hmem).1,
    fun instruction hmem => (h instruction (List.mem_of_mem_dropLast hmem)).2⟩

theorem gives_readInstruction {instructions : List Instruction} (h : Continued instructions) :
    Gives row (readInstruction instructions) (Keeps Continued Complete) := by
  have hread : Gives row (do
      let instruction ← Instruction.read
      let instructions := instructions ++ [instruction]
      if instruction.isTerminator then return .inr instructions
      else return .inl instructions) (Keeps Continued Complete) := by
    apply Instruction.gives_read.bind
    intro instruction hinstruction
    apply Gives.ite
    · intro _
      apply Gives.pure
      constructor
      · exact List.forall_mem_append.mpr
          ⟨fun other hmem => (h other hmem).1, List.forall_mem_singleton.mpr hinstruction⟩
      · rw [List.dropLast_concat]
        exact fun other hmem => (h other hmem).2
    · intro hterminator
      apply Gives.pure
      have hlast : Continued [instruction] :=
        List.forall_mem_singleton.mpr ⟨hinstruction, Bool.eq_false_iff.mpr hterminator⟩
      exact List.forall_mem_append.mpr ⟨h, hlast⟩
  apply gives_peek?.skip
  intro token?
  split
  · exact Gives.pure h.complete
  · exact Gives.pure h.complete
  · exact Gives.pure h.complete
  · exact hread

theorem gives_readInstructions : Gives row readInstructions Complete :=
  Gives.loop Continued (fun _ h => gives_readInstruction h) fun _ h => absurd h List.not_mem_nil

theorem gives_readBlock {blocks : List Block} (h : ∀ block ∈ blocks, block.Writable) :
    Gives row (readBlock blocks)
      (Keeps (fun blocks => ∀ block ∈ blocks, block.Writable)
        fun blocks => ∀ block ∈ blocks, block.Writable) := by
  apply (gives_takeIf _).skip
  intro found
  apply Gives.ite
  · intro _
    exact Gives.pure h
  · intro _
    apply gives_peek?.skip
    intro token?
    apply Gives.ite
    · intro _
      exact (gives_unexpected .closingBrace).stop
    · intro _
      apply gives_readLabel.skip
      intro label
      apply gives_readInstructions.bind
      intro instructions hinstructions
      exact Gives.pure
        (List.forall_mem_append.mpr ⟨h, List.forall_mem_singleton.mpr hinstructions⟩)

/-- A declaration has no body. -/
theorem gives_readBody (isDefinition : Bool) : Gives row (readBody isDefinition) fun blocks =>
    (∀ block ∈ blocks, block.Writable) ∧ (blocks ≠ [] → isDefinition) := by
  apply Gives.ite
  · intro hdefinition
    apply (gives_expect _).skip
    intro _
    have hloop : Gives row (loop .instruction readBlock []) fun blocks =>
        ∀ block ∈ blocks, block.Writable :=
      Gives.loop (fun blocks => ∀ block ∈ blocks, block.Writable) (fun _ h => gives_readBlock h)
        fun _ h => absurd h List.not_mem_nil
    exact hloop.weaken fun _ hblocks => ⟨hblocks, fun _ => hdefinition⟩
  · intro _
    exact Gives.pure ⟨fun _ h => absurd h List.not_mem_nil, fun hne => absurd rfl hne⟩

theorem gives_readFunctionKeyword : Gives row readFunctionKeyword fun _ => True := by
  apply (gives_takeIf _).skip
  intro found
  apply Gives.ite
  · intro _
    exact Gives.pure trivial
  · intro _
    apply (gives_takeIf _).skip
    intro found
    apply Gives.ite
    · intro _
      exact Gives.pure trivial
    · intro _
      exact gives_unexpected .functionKeyword

/-- Functions that are read can be written, and so can their own attributes. -/
theorem gives_read : Gives row Function.read fun entry =>
    entry.1.Writable ∧ ∀ attr ∈ entry.1.attributes, attr.Writable := by
  apply gives_readFunctionKeyword.skip
  intro isDefinition
  apply gives_restartNumbers.skip
  intro _
  apply (gives_skipWords _).skip
  intro _
  apply Ty.gives_read.bind
  intro ret hret
  apply (gives_skipWords _).skip
  intro _
  apply gives_globalName.skip
  intro name
  apply (gives_parenthesized (gives_readParam isDefinition)).bind
  intro params hparams
  apply gives_readSuffix.bind
  intro suffix hsuffix
  apply (gives_readBody isDefinition).bind
  intro blocks hblocks
  refine Gives.pure ⟨⟨hret, ?_, hblocks.1⟩, hsuffix⟩
  intro param hparam
  apply (hparams param hparam).mono
  intro hdefinition
  apply hblocks.2
  rintro rfl
  exact absurd hdefinition Bool.false_ne_true

end Function

end QuantumIR
