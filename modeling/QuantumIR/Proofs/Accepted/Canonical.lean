import QuantumIR.Proofs.Accepted.Modules

/-!
The canonical text of what a text spells. It can be read whatever the text was, and what is read
from it keeps the same rules and has the same canonical text.
-/

namespace QuantumIR

namespace Module

/-- The canonical text of a module that a text spells is read again. What is read is verified
exactly if the module is, and its canonical text is the same, unless a word for a truth value
stands for a floating-point number in the text. -/
theorem parse_text_of_parse {source : String} {module : Module} (h : parse source = .ok module)
    (hcount : module.attributeGroups.length ≤ UInt32.size) :
    ∃ again, parse module.text = .ok again ∧ (module.Plain → again.text = module.text) ∧
      (again.verify = .ok () ↔ module.verify = .ok ()) :=
  ⟨module.canonical, parse_text (writable_of_parse h) hcount, text_canonical,
    verify_canonical module⟩

theorem eq_ok_of_toOption {ε α : Type} {result : Except ε α} {a : α}
    (h : result.toOption = some a) : result = .ok a := by
  cases result with
  | error fault => cases h
  | ok found =>
    cases h
    rfl

/-- A text with attributes over two lines, a comment and a definition before a declaration. -/
def scattered : String :=
  "define void @main() #0 \x7b\n  call void @f(i1 true, double 0.25) ret void \x7d\n" ++
  "declare void @f(i1, double)\n" ++
  "attributes #0 = \x7b memory(argmem: read, ; and no more\n other: none) \"entry_point\" \x7d\n"

def scatteredModule : Module where
  name := ""
  source := none
  opaqueTypes := []
  globals := []
  functions := [
    { name := "main", ret := .void, params := []
      attributes := [.keyword "memory(argmem: read, ; and no more\n other: none)",
        .flag "entry_point"]
      blocks := [⟨"0", [
        .call none .void "f" [⟨.bool, .int 1⟩, .double ⟨0x3FD0000000000000⟩], .ret none]⟩] },
    Function.declaration "f" [.bool, .double] .void]

set_option maxRecDepth 100000 in
theorem parse_text_scattered : parse scattered = .ok scatteredModule ∧ scatteredModule.Plain ∧
    ∃ again, parse scatteredModule.text = .ok again ∧ again.text = scatteredModule.text ∧
      (again.verify = .ok () ↔ scatteredModule.verify = .ok ()) := by
  have hparse : parse scattered = .ok scatteredModule := eq_ok_of_toOption (by decide +kernel)
  have hplain : scatteredModule.Plain := by decide
  obtain ⟨again, hagain, htext, hverify⟩ := parse_text_of_parse hparse (by decide)
  exact ⟨hparse, hplain, again, hagain, htext hplain, hverify⟩

/-- A word for a truth value where a floating-point number is expected. -/
def trueNumber : String :=
  "define void @main() \x7b\nentry:\n  call void @f(double true)\n  ret void\n\x7d\n"

def trueNumberModule : Module where
  name := ""
  source := none
  opaqueTypes := []
  globals := []
  functions := [
    { name := "main", ret := .void, params := [], attributes := []
      blocks := [⟨"entry", [.call none .void "f" [⟨.double, .int 1⟩], .ret none]⟩] }]

set_option maxRecDepth 100000 in
/-- The word is written as an integer, which is read as a number and then written as one. -/
theorem text_trueNumber : ∃ again, parse trueNumber = .ok trueNumberModule ∧
    parse trueNumberModule.text = .ok again ∧ again.text ≠ trueNumberModule.text := by
  refine ⟨trueNumberModule.canonical, eq_ok_of_toOption ?_, eq_ok_of_toOption ?_, ?_⟩
  · decide +kernel
  · decide +kernel
  · decide +kernel

end Module

end QuantumIR
