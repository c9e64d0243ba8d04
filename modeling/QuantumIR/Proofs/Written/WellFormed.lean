import QuantumIR.Proofs.Accepted.Canonical
import QuantumIR.Proofs.Verified.Exact
import QuantumIR.Proofs.Written.Modules

/-!
Modules that are read are well formed. Blocks end where a terminator has been read, a definition
names all its parameters, and attribute groups are looked up once all of the text is read, so it
does not matter where they stand.
-/

namespace QuantumIR

namespace Function

variable {isDefinition : Bool} {tokens left : List PlacedToken} {params : List Param}
  {sites : List Site}

theorem ListStands.isSome (h : ListStands isDefinition tokens params sites left)
    (hdefinition : isDefinition = true) : ∀ param ∈ params, param.name.isSome := by
  subst hdefinition
  induction h with
  | last h => exact List.forall_mem_singleton.mpr h.isSome
  | more h _ ih => exact List.forall_mem_cons.mpr ⟨h.isSome, ih⟩

theorem ParamsStand.isSome (h : ParamsStand isDefinition tokens params sites left)
    (hdefinition : isDefinition = true) : ∀ param ∈ params, param.name.isSome := by
  cases h with
  | none => exact fun _ h => absurd h List.not_mem_nil
  | some h => exact h.isSome hdefinition

end Function

/-- A definition names all its parameters. -/
theorem WrittenFunction.Stands.isSome {tokens left : List PlacedToken} {written : WrittenFunction}
    (h : written.Stands tokens left) (hdefinition : written.isDefinition = true) :
    ∀ param ∈ written.function.params, param.name.isSome := by
  cases h with
  | mk _ hparams _ _ => exact hparams.isSome hdefinition

namespace Module

variable {module : Module}

theorem Stands.exists_of_mem {text : List Char} {tokens : List PlacedToken}
    {functions : List WrittenFunction} {groups : List (UInt32 × List Attribute)}
    (h : Stands text tokens functions groups) {written : WrittenFunction}
    (hwritten : written ∈ functions) : ∃ first left, written.Stands first left := by
  induction h with
  | done => exact absurd hwritten List.not_mem_nil
  | function h _ ih =>
    rcases List.mem_cons.mp hwritten with rfl | hwritten
    · exact ⟨_, _, h⟩
    · exact ih hwritten
  | group _ _ ih => exact ih hwritten
  | other _ _ _ ih => exact ih hwritten

/-- No terminator stands before the end of a block of a module that can be written. -/
theorem Writable.verify_ne (h : module.Writable) (name label : String) :
    module.verify ≠ .error (.misplacedTerminator name label) := by
  intro hverify
  obtain ⟨function, hfunction, -, block, hblock, -, body, last, hinstructions, instruction, hmem,
    hends⟩ := occurs_of_verify hverify
  have hlast := ((h.functions function (List.mem_of_mem_filter hfunction)).2.2 block hblock).2
  rw [hinstructions, List.dropLast_concat] at hlast
  rw [hlast instruction hmem] at hends
  cases hends

theorem load_ne_of_parse {source : String} (h : parse source = .ok module) (name label : String) :
    load source ≠ .error (.verification (.misplacedTerminator name label)) := by
  intro hload
  rw [load, h] at hload
  change Except.bind ((verify module).mapError LoadError.verification)
    (fun _ => .ok module) = _ at hload
  cases hverify : verify module with
  | ok done =>
    rw [hverify] at hload
    cases hload
  | error violation =>
    rw [hverify] at hload
    cases hload
    exact (writable_of_parse h).verify_ne name label hverify

/-- Modules that are read are well formed. A terminator is the last instruction of its block, which
loading never has to report. A call has a result just if it gives a value. Global strings have
different names. A definition names all its parameters, and a function has the contents of the
attribute groups that it refers to, in the order in which it refers to them, and then its own
attributes. The groups have different numbers and stand anywhere in the text. -/
theorem wellFormed_of_parse {source : String} (h : parse source = .ok module) :
    (∀ function ∈ module.functions, ∀ block ∈ function.blocks,
      (∀ instruction ∈ block.instructions.dropLast, instruction.isTerminator = false) ∧
      ∀ result ret callee args, .call result ret callee args ∈ block.instructions →
        (result.isSome ↔ ret ≠ .void)) ∧
    (∀ name label, load source ≠ .error (.verification (.misplacedTerminator name label))) ∧
    (module.globals.map GlobalString.name).Nodup ∧
    (∀ function ∈ module.definitions, ∀ param ∈ function.params, param.name.isSome) ∧
    ∃ functions groups, WrittenAs source module functions groups ∧
      List.Forall₂ (fun written function =>
        (written.isDefinition → ∀ param ∈ function.params, param.name.isSome) ∧
        ∃ contents, List.Forall₂ (fun number attributes => (number, attributes) ∈ groups)
            written.groups contents ∧
          function.attributes = contents.flatten ++ written.function.attributes) functions
        module.functions := by
  have hwritable := writable_of_parse h
  obtain ⟨functions, groups, hwritten, -⟩ := exists_writtenAs h
  refine ⟨?_, load_ne_of_parse h, hwritable.distinct, ?_, functions, groups, hwritten, ?_⟩
  · intro function hfunction block hblock
    obtain ⟨hinstructions, hlast⟩ := (hwritable.functions function hfunction).2.2 block hblock
    refine ⟨hlast, ?_⟩
    intro result ret callee args hcall
    obtain ⟨hresult, -⟩ := hinstructions _ hcall
    rw [hresult]
    cases ret <;> simp [Ty.isVoid]
  · intro function hfunction param hparam
    obtain ⟨hmem, hdefinition⟩ := List.mem_filter.mp hfunction
    exact ((hwritable.functions function hmem).2.1 param hparam).2 hdefinition
  · have hnamed : ∀ written ∈ functions, written.isDefinition →
        ∀ param ∈ written.function.params, param.name.isSome := by
      intro written hmem
      obtain ⟨tokens, _, hstands⟩ := hwritten.stands
      obtain ⟨first, left, hfunction⟩ := hstands.exists_of_mem hmem
      exact hfunction.isSome
    refine ((List.forall₂_and_left _ _).mpr ⟨hnamed, hwritten.resolves⟩).imp ?_
    rintro written _ ⟨hparams, contents, hcontents, rfl⟩
    exact ⟨hparams, contents, hcontents, rfl⟩

/-- A text with a group before and a group after the function that refers to both. -/
def grouping : String :=
  "attributes #1 = \x7b \"a\" \x7d\ndefine void @main(i64) #0 \"b\"=\"c\" #1 \x7b\n" ++
  "  call void @f(i64 %0)\n  ret void\n\x7d\ndeclare void @f(i64)\n" ++
  "attributes #0 = \x7b nounwind \"d\" \x7d\n@g = constant [1 x i8] c\"\\00\"\n"

def groupingModule : Module where
  name := ""
  source := none
  opaqueTypes := []
  globals := [⟨"g", [0]⟩]
  functions := [
    { name := "main", ret := .void, params := [⟨.int 64, "0"⟩]
      attributes := [.keyword "nounwind", .flag "d", .flag "a", .keyValue "b" "c"]
      blocks := [⟨"1", [.call none .void "f" [⟨.int 64, .reg "0"⟩], .ret none]⟩] },
    { name := "f", ret := .void, params := [⟨.int 64, none⟩], blocks := [], attributes := [] }]

set_option maxRecDepth 100000 in
/-- Both groups are found, and the attributes come in the order of the references. -/
theorem wellFormed_grouping : parse grouping = .ok groupingModule ∧
    ∃ functions groups, WrittenAs grouping groupingModule functions groups ∧
      ∃ written ∈ functions, ∃ contents,
        List.Forall₂ (fun number attributes => (number, attributes) ∈ groups)
          written.groups contents ∧
        [.keyword "nounwind", .flag "d", .flag "a", .keyValue "b" "c"] =
          contents.flatten ++ written.function.attributes := by
  have hparse : parse grouping = .ok groupingModule := eq_ok_of_toOption (by decide +kernel)
  obtain ⟨-, -, -, -, functions, groups, hwritten, hall⟩ := wellFormed_of_parse hparse
  refine ⟨hparse, functions, groups, hwritten, ?_⟩
  cases hall with
  | @cons written _ others _ hmain _ =>
    obtain ⟨-, contents, hcontents, hattributes⟩ := hmain
    exact ⟨written, List.mem_cons_self, contents, hcontents, hattributes⟩

end Module

end QuantumIR
