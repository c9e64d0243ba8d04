import QuantumIR.Iteration
import QuantumIR.Proofs.Building.Finished

/-!
The label of a new block. The search for it tries one candidate after another until no block has
the one it tries, and nothing bounds the number of its turns. It ends all the same: the candidates
differ from each other, so of one more than there are labels one is free. A block gets the label
with which the search ends, and nothing else changes.
-/

namespace QuantumIR

namespace Builder

/-- The label that is wanted for a new block. -/
def wantedLabel (requested : String) : String :=
  if requested.isEmpty then "block" else requested

/-- A label that is tried, and how many have been tried with it. -/
structure LabelTry where
  label : String
  count : Nat

namespace LabelTry

/-- At first the wanted label itself is tried. -/
def first (wanted : String) : LabelTry := ⟨wanted, 1⟩

/-- While a block has the label, the search goes on with the wanted one and a number. -/
def turn (builder : Builder) (wanted : String) (tried : LabelTry) : LabelTry ⊕ LabelTry :=
  if tried.label ∈ builder.labels then .inl ⟨wanted ++ toString tried.count, tried.count + 1⟩
  else .inr tried

variable {builder : Builder} {wanted : String}

/-- From any candidate before the first free one, the search goes on to that one and stops. -/
theorem stopsWith_turn {attempt last : Nat} (hle : attempt ≤ last)
    (hused : ∀ earlier < last, candidate wanted earlier ∈ builder.labels)
    (hfree : candidate wanted last ∉ builder.labels) :
    StopsWith (turn builder wanted) ⟨candidate wanted attempt, attempt + 1⟩
      ⟨candidate wanted last, last + 1⟩ := by
  induction hle using Nat.decreasingInduction with
  | self => exact .stop (if_neg hfree)
  | of_succ attempt hlt ih =>
    have hnext : turn builder wanted ⟨candidate wanted attempt, attempt + 1⟩ =
        .inl ⟨candidate wanted (attempt + 1), attempt + 1 + 1⟩ :=
      if_pos (hused attempt hlt)
    exact .next hnext ih

/-- The search ends with the label that a builder finds, after one candidate more than there are
labels at the latest. -/
theorem exists_stopsWith (builder : Builder) (wanted : String) :
    ∃ count, count ≤ builder.labels.length + 1 ∧
      StopsWith (turn builder wanted) (first wanted) ⟨builder.freeLabel wanted, count⟩ := by
  obtain ⟨last, hle, hlabel, hfree, hused⟩ := Building.exists_freeLabel_eq builder wanted
  refine ⟨last + 1, Nat.succ_le_succ hle, ?_⟩
  rw [hlabel]
  exact stopsWith_turn (Nat.zero_le last) hused hfree

/-- A search that finds the wanted label free does not look any further. -/
theorem eq_first_of_stopsWith {last : LabelTry} (hfree : wanted ∉ builder.labels)
    (h : StopsWith (turn builder wanted) (first wanted) last) : last = first wanted := by
  have hturn : turn builder wanted (first wanted) = .inr (first wanted) := if_neg hfree
  cases h with
  | stop hstop => exact Sum.inr.inj (hstop.symm.trans hturn)
  | next hnext _ => cases hnext.symm.trans hturn

end LabelTry

/-- A new block gets a label that no block has, the wanted one if it is free. The search for it is
without a bound, and it ends after one candidate more than there are labels at the latest. Nothing
changes but that the block stands after the others, which keep their labels. -/
theorem label_of_appendBlock {name : String} {qubits results : Int} {first builder : Builder}
    (hcreate : create name qubits results = .ok first)
    (hsession : Session BuildStep.Any first builder) (requested : String) :
    ∃ unique count,
      iterate? (LabelTry.turn builder (wantedLabel requested))
        (LabelTry.first (wantedLabel requested)) = some ⟨unique, count⟩ ∧
      count ≤ builder.labels.length + 1 ∧
      builder.answer (Building.appendBlock requested) = .ok unique ∧
      unique ∉ builder.labels ∧
      (wantedLabel requested ∉ builder.labels → unique = wantedLabel requested) ∧
      builder.after (Building.appendBlock requested) =
        { builder with blocks := builder.blocks ++ [⟨unique, []⟩] } ∧
      (builder.after (Building.appendBlock requested)).labels = builder.labels ++ [unique] ∧
      (builder.labels ++ [unique]).Nodup ∧
      ∀ block ∈ builder.blocks,
        (builder.after (Building.appendBlock requested)).block? block.label = some block := by
  obtain ⟨count, hcount, hstops⟩ := LabelTry.exists_stopsWith builder (wantedLabel requested)
  have hfresh := Building.freeLabel_not_mem builder (wantedLabel requested)
  have hafter : builder.after (Building.appendBlock requested) =
      { builder with blocks := builder.blocks ++ [⟨builder.freeLabel (wantedLabel requested), []⟩] } :=
    rfl
  have hlabels : (builder.after (Building.appendBlock requested)).labels =
      builder.labels ++ [builder.freeLabel (wantedLabel requested)] := by
    rw [hafter, labels, List.map_append]
    rfl
  have hsound : builder.Sound .any :=
    sound_of_session hcreate hsession fun step _ => within_any step
  have hnodup : (builder.after (Building.appendBlock requested)).labels.Nodup :=
    (hsound.block hfresh).labels
  refine ⟨_, count, iterate?_eq_some_iff.mpr hstops, hcount, rfl, hfresh, ?_, hafter, hlabels,
    hlabels ▸ hnodup, ?_⟩
  · intro hfree
    exact congrArg LabelTry.label (LabelTry.eq_first_of_stopsWith hfree hstops)
  · intro block hblock
    exact block?_eq hnodup (List.mem_append_left _ hblock)

/-- A builder that has the labels `entry`, `then` and `then1`, and stands in the last. -/
def branching : Builder :=
  ((BuildStep.runAll [.appendBlock "then", .appendBlock "then", .position "then1"]).run small).2

/-- A third block of one label gets the number two. -/
theorem label_of_appendBlock_again :
    create "small" 1 1 = .ok small ∧ Session BuildStep.Any small branching ∧
    ∃ count, count ≤ 4 ∧
      iterate? (LabelTry.turn branching "then") (LabelTry.first "then") = some ⟨"then2", count⟩ ∧
      branching.answer (Building.appendBlock "then") = .ok "then2" ∧
      (branching.after (Building.appendBlock "then")).block? branching.current =
        some ⟨"then1", []⟩ := by
  have hcreate : create "small" 1 1 = .ok small := by rfl
  have hsession : Session BuildStep.Any small branching := BuildStep.session_runAll _ small
  obtain ⟨unique, count, hsearch, hcount, hanswer, -, -, -, -, -, hkept⟩ :=
    label_of_appendBlock hcreate hsession "then"
  have hthen : branching.answer (Building.appendBlock "then") = .ok "then2" := by
    decide +kernel
  obtain rfl := Except.ok.inj (hanswer.symm.trans hthen)
  exact ⟨hcreate, hsession, count, hcount, hsearch, hthen, hkept ⟨"then1", []⟩ (by decide +kernel)⟩

end Builder

end QuantumIR
