import QuantumIR.Proofs.Structured.Program

/-!
Parts of a direct interpretation that succeed, with what is known afterwards: loops that keep an
invariant from turn to turn, operations without measurements, measurements while the stream has
outcomes, and output.
-/

namespace QuantumIR

variable {α β : Type}

/-- A part of a direct interpretation succeeds with a value and leaves what is known afterwards. -/
def Interpreting.Gives (part : Interpreting α) (ledger : Ledger) (a : α) (after : Ledger) : Prop :=
  part.run.run ledger = (.ok a, after)

namespace Interpreting.Gives

variable {ledger middle after : Ledger} {stream : Option (List Bool)}

theorem bind {part : Interpreting α} {next : α → Interpreting β} {a : α} {b : β}
    (h : part.Gives ledger a middle) (h' : (next a).Gives middle b after) :
    (part >>= next).Gives ledger b after := by
  rw [Gives, ExceptT.run_bind, StateT.run_bind, h]
  exact h'

theorem get_bind {next : Ledger → Interpreting α} {a : α} (h : (next ledger).Gives ledger a after) :
    (get >>= next).Gives ledger a after :=
  h

/-- What each turn of a loop keeps for the next one holds at the end of the loop. -/
theorem forM_range {body : Nat → Interpreting Unit} {invariant : Nat → Ledger → Prop} {count : Nat}
    (hstart : invariant 0 ledger)
    (hturn : ∀ turn < count, ∀ middle, invariant turn middle →
      ∃ after, (body turn).Gives middle () after ∧ invariant (turn + 1) after) :
    ∃ after, ((List.range count).forM body).Gives ledger () after ∧ invariant count after := by
  induction count with
  | zero => exact ⟨ledger, rfl, hstart⟩
  | succ count ih =>
    obtain ⟨middle, hbefore, hmiddle⟩ := ih fun turn h => hturn turn (Nat.lt_succ_of_lt h)
    obtain ⟨after, hlast, hafter⟩ := hturn count (Nat.lt_succ_self _) middle hmiddle
    refine ⟨after, ?_, hafter⟩
    have hsplit : (List.range (count + 1)).forM body =
        ((List.range count).forM body >>= fun _ => body count) := by
      simp [List.range_succ]
    rw [hsplit]
    exact hbefore.bind hlast

/-- The operations of a list that measure into no result are performed whatever the stream is. -/
theorem performAll {operations : List Operation}
    (h : ∀ operation ∈ operations, operation.result? = none) (ledger : Ledger) :
    (operations.forM (Interpreting.perform stream)).Gives ledger ()
      { ledger with operations := ledger.operations ++ operations } := by
  induction operations generalizing ledger with
  | nil =>
    rw [List.append_nil]
    rfl
  | cons operation operations ih =>
    obtain ⟨hsingle, hrest⟩ := List.forall_mem_cons.mp h
    have hfirst : (Interpreting.perform stream operation).Gives ledger ()
        { ledger with operations := ledger.operations ++ [operation] } := by
      cases operation with
      | measureInto qubit result | measureReset qubit result => cases hsingle
      | _ => rfl
    have hothers := ih hrest { ledger with operations := ledger.operations ++ [operation] }
    rw [List.append_assoc] at hothers
    exact hfirst.bind hothers

/-- A measurement into a result takes the outcome at the current place. -/
theorem measureInto {outcomes : List Bool} {value : Bool}
    (h : outcomes[ledger.position]? = some value) (qubit result : Nat) :
    (Interpreting.perform (some outcomes) (.measureInto qubit result)).Gives ledger ()
      { ledger with
        position := ledger.position + 1
        results := ledger.results.set result value
        operations := ledger.operations ++ [.measureInto qubit result]
        measurements := ledger.measurements ++ [⟨qubit, some result, value⟩] } := by
  have houtcome : (Interpreting.outcome (some outcomes)).Gives ledger value
      { ledger with position := ledger.position + 1 } := by
    apply get_bind
    simp only [h]
    rfl
  have hmeasure : (Interpreting.measure (some outcomes) qubit result).Gives ledger value
      { ledger with
        position := ledger.position + 1
        measurements := ledger.measurements ++ [⟨qubit, some result, value⟩] } :=
    houtcome.bind rfl
  have hstore : (Interpreting.measureFor (some outcomes) (.measureInto qubit result)).Gives
      ledger () { ledger with
        position := ledger.position + 1
        results := ledger.results.set result value
        measurements := ledger.measurements ++ [⟨qubit, some result, value⟩] } :=
    hmeasure.bind rfl
  exact hstore.bind rfl

/-- Results are recorded in the order of a list, each with the outcome that it holds. -/
theorem recordAll (results : List Nat) (label : Nat → Option String) (ledger : Ledger) :
    (results.forM fun result => Interpreting.record result (label result)).Gives ledger ()
      { ledger with output := ledger.output ++ results.map fun result =>
          ⟨.result ((ledger.results.get? result).getD false), label result⟩ } := by
  induction results generalizing ledger with
  | nil =>
    rw [List.map_nil, List.append_nil]
    rfl
  | cons result results ih =>
    have hfirst : (Interpreting.record result (label result)).Gives ledger () { ledger with
        output := ledger.output ++
          [⟨.result ((ledger.results.get? result).getD false), label result⟩] } := rfl
    have hothers := ih { ledger with output := ledger.output ++
      [⟨.result ((ledger.results.get? result).getD false), label result⟩] }
    rw [List.append_assoc] at hothers
    exact hfirst.bind hothers

end Interpreting.Gives

end QuantumIR
