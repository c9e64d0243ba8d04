import QuantumIR.Proofs.Accepted.Literals
import QuantumIR.Proofs.Written.Results

/-!
The names of a function as they are written. Parameters, blocks and results have names, and a text
may leave each of them out. What is read at such a place is a site: a name, and whether it is
written. Sites stand in the order of the text, and numbers are given to those without a written name
in this order.
-/

namespace QuantumIR

open Reading

/-- Something in a function that has a name, and whether the name is written. -/
structure Site where
  isWritten : Bool
  name : String
  deriving DecidableEq, Repr

/-- The number for the next thing without a name once a name is written. -/
def Reading.past (number : Nat) (name : String) : Nat :=
  match Text.count? name.toList with
  | some n => max number (n + 1)
  | none => number

/-- The names of some sites are given in order, from one number for the next thing without a name up
to another one. -/
inductive Numbered : Nat → List Site → Nat → Prop where
  | done (number : Nat) : Numbered number [] number
  | written {number number' : Nat} {name : String} {sites : List Site}
      (h : Numbered (past number name) sites number') :
      Numbered number (⟨true, name⟩ :: sites) number'
  | invented {number number' : Nat} {sites : List Site} (h : Numbered (number + 1) sites number') :
      Numbered number (⟨false, toString number⟩ :: sites) number'

theorem Numbered.append {number middle number' : Nat} {sites others : List Site}
    (h : Numbered number sites middle) (h' : Numbered middle others number') :
    Numbered number (sites ++ others) number' := by
  induction h with
  | done => exact h'
  | written _ ih => exact .written (ih h')
  | invented _ ih => exact .invented (ih h')

namespace Reading

variable {α : Type}

/-- A step gives something and leaves some tokens. The number for the next thing without a name does
not matter. -/
def Leaves (step : Reading α) (tokens : List PlacedToken) (a : α) (left : List PlacedToken) :
    Prop :=
  ∃ number number', step ⟨tokens, number⟩ = .ok (a, ⟨left, number'⟩)

theorem bind_of_ok {β : Type} {step : Reading α} {next : α → Reading β} {state middle : ReadState}
    {a : α} (h : step state = .ok (a, middle)) : (step >>= next) state = next a middle := by
  change Except.bind (step state) (fun p => next p.1 p.2) = next a middle
  rw [h]
  rfl

theorem leaves_of_ok {step : Reading α} {state after : ReadState} {a : α}
    (h : step state = .ok (a, after)) : Leaves step state.rest a after.rest :=
  ⟨state.next, after.next, h⟩

/-- The token that comes next. -/
def next? (tokens : List PlacedToken) : Option Token :=
  tokens.head?.map PlacedToken.token

theorem next_of_observe {state after : ReadState} {name : String} {done : Unit}
    (h : observe name state = .ok (done, after)) :
    after.rest = state.rest ∧ after.next = past state.next name := by
  rw [observe] at h
  split at h
  · next hcount =>
    cases h
    rw [past, hcount]
    exact ⟨rfl, rfl⟩
  · next hcount =>
    cases h
    rw [past, hcount]
    exact ⟨rfl, rfl⟩

end Reading

variable {isDefinition : Bool} {state after : ReadState}

namespace Param

/-- The type of a parameter, and what is written about it before its name. -/
def readType : Reading Ty := do
  let ty ← Ty.read
  skipParamAttributes
  return ty

theorem quiet_readType : Quiet readType :=
  (quiet_of_follows Bounded.follows_readTy).bind fun _ =>
    (quiet_of_follows Bounded.follows_skipParamAttributes).bind fun _ => Quiet.pure _

/-- A parameter stands in front of some tokens. If no name is written, one of a definition has a
name all the same, and one of a declaration has none. -/
inductive Stands (isDefinition : Bool) :
    List PlacedToken → Param → List Site → List PlacedToken → Prop where
  | named {tokens left : List PlacedToken} {ty : Ty} {name : String} {span : Span}
      (hty : Leaves readType tokens ty (⟨.localName name, span⟩ :: left)) :
      Stands isDefinition tokens ⟨ty, some name⟩ [⟨true, name⟩] left
  | numbered {tokens left : List PlacedToken} {ty : Ty} {name : String}
      (hdefinition : isDefinition = true) (hty : Leaves readType tokens ty left)
      (hnext : ∀ other, next? left ≠ some (.localName other)) :
      Stands isDefinition tokens ⟨ty, some name⟩ [⟨false, name⟩] left
  | bare {tokens left : List PlacedToken} {ty : Ty} (hdefinition : isDefinition = false)
      (hty : Leaves readType tokens ty left)
      (hnext : ∀ other, next? left ≠ some (.localName other)) :
      Stands isDefinition tokens ⟨ty, none⟩ [] left

theorem Stands.names {tokens left : List PlacedToken} {param : Param} {sites : List Site}
    (h : Stands isDefinition tokens param sites left) :
    sites.map Site.name = param.name.toList := by
  cases h <;> rfl

/-- A parameter of a definition has a name. -/
theorem Stands.isSome {tokens left : List PlacedToken} {param : Param} {sites : List Site}
    (h : Stands true tokens param sites left) : param.name.isSome := by
  cases h with
  | named => rfl
  | numbered => rfl
  | bare hdefinition => cases hdefinition

theorem stands_of_readParamName {tokens : List PlacedToken} {ty : Ty} {name? : Option String}
    (hty : Leaves readType tokens ty state.rest)
    (h : Function.readParamName isDefinition state = .ok (name?, after)) :
    ∃ sites, Stands isDefinition tokens ⟨ty, name?⟩ sites after.rest ∧
      Numbered state.next sites after.next := by
  obtain ⟨token?, middle, hpeek, hname⟩ := ok_bind h
  obtain ⟨hfirst, rfl⟩ := eq_of_peek? hpeek
  split at hname
  · next name =>
    obtain ⟨_, advanced, hadvance, hname⟩ := ok_bind hname
    obtain ⟨_, observed, hobserve, hname⟩ := ok_bind hname
    cases hname
    cases hadvance
    obtain ⟨hrest, hnumber⟩ := next_of_observe hobserve
    obtain ⟨span, hspan⟩ := exists_eq_cons hfirst
    rw [hspan] at hty
    rw [hrest]
    exact ⟨_, .named hty, .written (hnumber ▸ .done _)⟩
  · next hother =>
    rw [← hfirst] at hother
    cases isDefinition with
    | true =>
      cases hname
      exact ⟨_, .numbered rfl hty hother, .invented (.done _)⟩
    | false =>
      cases hname
      exact ⟨_, .bare rfl hty hother, .done _⟩

theorem stands_of_readParam {param : Param}
    (h : Function.readParam isDefinition state = .ok (param, after)) :
    ∃ sites, Stands isDefinition state.rest param sites after.rest ∧
      Numbered state.next sites after.next := by
  obtain ⟨variadic, _, hnext, h⟩ := ok_bind h
  cases hnext
  split at h
  · exact absurd h (ne_ok_of_gives fun _ => (gives_unsupported _).stop)
  obtain ⟨ty, typed, hty, h⟩ := ok_bind h
  obtain ⟨_, middle, hskip, h⟩ := ok_bind h
  obtain ⟨name?, last, hname, h⟩ := ok_bind h
  cases h
  have htype : readType state = .ok (ty, middle) :=
    (bind_of_ok hty).trans (bind_of_ok hskip)
  rw [← quiet_readType state ty middle htype]
  exact stands_of_readParamName (leaves_of_ok htype) hname

end Param

namespace Instruction

/-- The register that is written in front of an equals sign. -/
def bound? : List PlacedToken → Option String
  | ⟨.localName name, _⟩ :: ⟨.mark .equals, _⟩ :: _ => some name
  | _ => none

/-- An instruction stands in front of some tokens. If it gives a value and no register is written,
the value has a name all the same. -/
inductive Stands : List PlacedToken → Instruction → List Site → List PlacedToken → Prop where
  | bound {tokens left : List PlacedToken} {instruction : Instruction} {name : String}
      (hread : Leaves Instruction.read tokens instruction left) (hbound : bound? tokens = some name)
      (hresult : instruction.result? = some name) : Stands tokens instruction [⟨true, name⟩] left
  | numbered {tokens left : List PlacedToken} {instruction : Instruction} {name : String}
      (hread : Leaves Instruction.read tokens instruction left) (hbound : bound? tokens = none)
      (hresult : instruction.result? = some name) : Stands tokens instruction [⟨false, name⟩] left
  | void {tokens left : List PlacedToken} {instruction : Instruction}
      (hread : Leaves Instruction.read tokens instruction left) (hbound : bound? tokens = none)
      (hresult : instruction.result? = none) : Stands tokens instruction [] left

theorem Stands.names {tokens left : List PlacedToken} {instruction : Instruction}
    {sites : List Site} (h : Stands tokens instruction sites left) :
    sites.map Site.name = instruction.result?.toList := by
  cases h with
  | bound _ _ hresult => rw [hresult]; rfl
  | numbered _ _ hresult => rw [hresult]; rfl
  | void _ _ hresult => rw [hresult]; rfl

theorem bound?_of_readBinding {result : Option String}
    (h : readBinding state = .ok (result, after)) :
    bound? state.rest = result ∧ after.next = (result.map (past state.next)).getD state.next := by
  obtain ⟨rest, number⟩ := state
  dsimp only
  rw [bound?.eq_def]
  split
  · next name _ _ others =>
    have hrest : (observe name >>= fun _ => pure (some name)) ⟨others, number⟩ =
        .ok (result, after) := h
    obtain ⟨_, observed, hobserve, hresult⟩ := ok_bind hrest
    cases hresult
    exact ⟨rfl, (next_of_observe hobserve).2⟩
  · next hother =>
    obtain ⟨first?, _, hpeek, hrest⟩ := ok_bind h
    obtain ⟨hfirst, rfl⟩ := eq_of_peek? hpeek
    obtain ⟨second?, _, hpeek', hbinding⟩ := ok_bind hrest
    split at hbinding
    · next name =>
      have hsecond : rest.tail.head?.map PlacedToken.token = some (.mark .equals) :=
        congrArg Prod.fst (Except.ok.inj hpeek')
      obtain ⟨span, hspan⟩ := @exists_eq_cons ⟨rest, number⟩ _ hfirst
      obtain ⟨span', hspan'⟩ := @exists_eq_cons ⟨rest.tail, number⟩ _ hsecond
      exact absurd (hspan.trans (congrArg _ hspan')) (hother name span span' rest.tail.tail)
    · cases hbinding
      cases hpeek'
      exact ⟨rfl, rfl⟩

theorem stands_of_read {instruction : Instruction}
    (h : Instruction.read state = .ok (instruction, after)) :
    ∃ sites, Stands state.rest instruction sites after.rest ∧
      Numbered state.next sites after.next := by
  have hread := leaves_of_ok h
  obtain ⟨result, bound, hbinding, h⟩ := ok_bind h
  obtain ⟨_, body, hbody, h⟩ := ok_bind h
  obtain ⟨_, _, hskip, h⟩ := ok_bind h
  cases h
  obtain ⟨hbound, hnumber⟩ := bound?_of_readBinding hbinding
  have hquiet := quiet_of_follows Bounded.follows_skipAttachments _ _ _ hskip
  have hnamed := names_readBody _ _ _ hbody
  rw [← hquiet, hnumber] at hnamed
  generalize hname : instruction.result? = name? at hnamed
  generalize after.next = number' at hnamed ⊢
  cases hnamed with
  | written name => exact ⟨_, .bound hread hbound hname, .written (.done _)⟩
  | numbered => exact ⟨_, .numbered hread hbound hname, .invented (.done _)⟩
  | void => exact ⟨_, .void hread hbound hname, .done _⟩

end Instruction

namespace Function

/-- Parameters between commas stand in front of a closing parenthesis and some tokens. -/
inductive ListStands (isDefinition : Bool) :
    List PlacedToken → List Param → List Site → List PlacedToken → Prop where
  | last {tokens left : List PlacedToken} {param : Param} {sites : List Site} {span : Span}
      (h : param.Stands isDefinition tokens sites (⟨.mark .rightParen, span⟩ :: left)) :
      ListStands isDefinition tokens [param] sites left
  | more {tokens middle left : List PlacedToken} {param : Param} {params : List Param}
      {sites others : List Site} {span : Span}
      (h : param.Stands isDefinition tokens sites (⟨.mark .comma, span⟩ :: middle))
      (hmore : ListStands isDefinition middle params others left) :
      ListStands isDefinition tokens (param :: params) (sites ++ others) left

/-- Parameters in parentheses stand in front of some tokens. -/
inductive ParamsStand (isDefinition : Bool) :
    List PlacedToken → List Param → List Site → List PlacedToken → Prop where
  | none {left : List PlacedToken} {opening closing : Span} :
      ParamsStand isDefinition
        (⟨.mark .leftParen, opening⟩ :: ⟨.mark .rightParen, closing⟩ :: left) [] [] left
  | some {tokens left : List PlacedToken} {params : List Param} {sites : List Site} {opening : Span}
      (h : ListStands isDefinition tokens params sites left) :
      ParamsStand isDefinition (⟨.mark .leftParen, opening⟩ :: tokens) params sites left

theorem ListStands.names {tokens left : List PlacedToken} {params : List Param} {sites : List Site}
    (h : ListStands isDefinition tokens params sites left) :
    sites.map Site.name = params.filterMap Param.name := by
  rw [List.filterMap_eq_flatMap_toList]
  induction h with
  | last h => rw [h.names, List.flatMap_singleton]
  | more h _ ih => rw [List.map_append, h.names, ih, List.flatMap_cons]

theorem ParamsStand.names {tokens left : List PlacedToken} {params : List Param} {sites : List Site}
    (h : ParamsStand isDefinition tokens params sites left) :
    sites.map Site.name = params.filterMap Param.name := by
  cases h with
  | none => rfl
  | some h => exact h.names

theorem stands_of_commaSeparated {params : List Param} {tokens : List PlacedToken} {span : Span}
    (h : commaSeparated .ty (readParam isDefinition) state = .ok (params, after))
    (hclosing : after.rest = ⟨.mark .rightParen, span⟩ :: tokens) :
    ∃ sites, ListStands isDefinition state.rest params sites tokens ∧
      Numbered state.next sites after.next := by
  suffices hall : ∀ before, loop .ty (readItem (readParam isDefinition)) before state =
      .ok (params, after) → ∃ items sites, params = before ++ items ∧
        ListStands isDefinition state.rest items sites tokens ∧
        Numbered state.next sites after.next by
    obtain ⟨items, sites, hparams, hstands, hnumbered⟩ := hall [] h
    rw [hparams]
    exact ⟨sites, hstands, hnumbered⟩
  intro before hloop
  revert hclosing
  refine induction_of_loop (motive := fun before state all after =>
    after.rest = ⟨.mark .rightParen, span⟩ :: tokens → ∃ items sites, all = before ++ items ∧
      ListStands isDefinition state.rest items sites tokens ∧
      Numbered state.next sites after.next) ?_ ?_ hloop
  · intro before state all after hstep hclosing
    obtain ⟨param, read, hparam, hstep⟩ := ok_bind hstep
    obtain ⟨found, _, hcomma, hstep⟩ := ok_bind hstep
    obtain ⟨sites, hstands, hnumbered⟩ := Param.stands_of_readParam hparam
    cases found with
    | true => cases hstep
    | false =>
      cases hstep
      obtain ⟨rfl, -⟩ := of_takeIf_eq_false hcomma
      rw [hclosing] at hstands
      exact ⟨[param], sites, rfl, .last hstands, hnumbered⟩
  · intro before state next middle all after hstep hmore hclosing
    obtain ⟨param, read, hparam, hstep⟩ := ok_bind hstep
    obtain ⟨found, _, hcomma, hstep⟩ := ok_bind hstep
    obtain ⟨sites, hstands, hnumbered⟩ := Param.stands_of_readParam hparam
    cases found with
    | false => cases hstep
    | true =>
      cases hstep
      obtain ⟨⟨_, comma⟩, hrest, rfl⟩ := exists_of_takeIf_eq_true hcomma
      rw [hrest] at hstands
      rw [← quiet_takeIf _ _ _ _ hcomma] at hnumbered
      obtain ⟨items, others, rfl, hothers, hnumbered'⟩ := hmore hclosing
      exact ⟨param :: items, sites ++ others, by simp, .more hstands hothers,
        hnumbered.append hnumbered'⟩

theorem stands_of_parenthesized {params : List Param}
    (h : parenthesized (readParam isDefinition) state = .ok (params, after)) :
    ∃ sites, ParamsStand isDefinition state.rest params sites after.rest ∧
      Numbered state.next sites after.next := by
  obtain ⟨_, opened, hopening, h⟩ := ok_bind h
  obtain ⟨span, hrest⟩ := eq_cons_of_expect hopening
  obtain ⟨empty, first, hempty, h⟩ := ok_bind h
  rw [hrest, ← quiet_expect _ _ _ _ hopening, ← quiet_takeIf _ _ _ _ hempty]
  cases empty with
  | true =>
    cases h
    obtain ⟨⟨_, closing⟩, hfirst, rfl⟩ := exists_of_takeIf_eq_true hempty
    rw [hfirst]
    exact ⟨[], .none, .done _⟩
  | false =>
    obtain ⟨hleft, -⟩ := of_takeIf_eq_false hempty
    obtain ⟨items, last, hitems, hlast⟩ := ok_bind h
    obtain ⟨_, _, hclosing, hgiven⟩ := ok_bind hlast
    cases hgiven
    subst hleft
    obtain ⟨closing, hclosed⟩ := eq_cons_of_expect hclosing
    obtain ⟨sites, hstands, hnumbered⟩ := stands_of_commaSeparated hitems hclosed
    rw [quiet_expect _ _ _ _ hclosing]
    exact ⟨sites, .some hstands, hnumbered⟩

end Function

end QuantumIR
