import QuantumIR.Proofs.Accepted.Keywords

/-!
Where integer literals are read. A literal is a value by itself or the address of a constant
pointer, and every address is a literal.
-/

namespace QuantumIR

open Reading

/-- Where an integer literal stands in a value. -/
inductive LiteralPlace where
  /-- The value is the literal. -/
  | alone
  /-- The literal is the address of a constant pointer. -/
  | address
  deriving DecidableEq, Repr

namespace Reading

/-- The integer literal of the value that a row of tokens starts with. -/
inductive Literal : List PlacedToken → LiteralPlace → Int64 → Span → Prop
  | alone {word : Int64} {span : Span} {rest : List PlacedToken} :
      Literal (⟨.integer word, span⟩ :: rest) .alone word span
  | address {width : UInt32} {word : Int64} {start opening source span : Span}
      {rest : List PlacedToken} :
      Literal (⟨.keyword .inttoptr, start⟩ :: ⟨.mark .leftParen, opening⟩ ::
        ⟨.intType width, source⟩ :: ⟨.integer word, span⟩ :: rest) .address word span

theorem Literal.mem {tokens : List PlacedToken} {place : LiteralPlace} {word : Int64} {span : Span}
    (h : Literal tokens place word span) : ⟨.integer word, span⟩ ∈ tokens := by
  cases h with
  | alone => exact List.mem_cons_self
  | address => simp

variable {state after : ReadState}

theorem eq_of_peek? {token? : Option Token} (h : peek? state = .ok (token?, after)) :
    state.rest.head?.map PlacedToken.token = token? ∧ after = state := by
  cases h
  exact ⟨rfl, rfl⟩

/-- The next token stands in front of what is left once it is taken. -/
theorem exists_eq_cons {token : Token} (h : state.rest.head?.map PlacedToken.token = some token) :
    ∃ span, state.rest = ⟨token, span⟩ :: state.rest.tail := by
  obtain ⟨placed, hplaced, rfl⟩ := Option.map_eq_some_iff.mp h
  exact ⟨placed.span, (List.cons_head?_tail hplaced).symm⟩

theorem eq_cons_of_expect {token : Token} {done : Unit}
    (h : expect token state = .ok (done, after)) :
    ∃ span, state.rest = ⟨token, span⟩ :: after.rest := by
  obtain ⟨found, middle, htake, h⟩ := ok_bind h
  cases found with
  | true =>
    cases h
    obtain ⟨first, hrest, rfl⟩ := exists_of_takeIf_eq_true htake
    exact ⟨first.span, hrest⟩
  | false => exact absurd h (ne_ok_of_gives fun _ => gives_unexpected _)

theorem eq_cons_of_integer {n : Int64} (h : integer state = .ok (n, after)) :
    ∃ span, state.rest = ⟨.integer n, span⟩ :: after.rest := by
  obtain ⟨token?, middle, hpeek, h⟩ := ok_bind h
  obtain ⟨hnext, rfl⟩ := eq_of_peek? hpeek
  have hfails : unexpected .integer middle ≠ .ok (n, after) :=
    ne_ok_of_gives fun _ => gives_unexpected _
  cases token? with
  | none => exact absurd h hfails
  | some token =>
    cases token with
    | integer m =>
      cases h
      exact exists_eq_cons hnext
    | _ => exact absurd h hfails

end Reading

namespace Ty

variable {row : List PlacedToken} {state after : ReadState} {ty : Ty} {width : UInt32}

/-- Stars after a type that is no integer type lead to no integer type. -/
theorem gives_readStars_none (h : ty.intWidth? = none) :
    Gives row (readStars ty) fun found => found.intWidth? = none := by
  refine Gives.loop (fun found : Ty => found.intWidth? = none) ?_ h
  intro target htarget
  apply (gives_takeIf _).skip
  intro found
  apply Gives.ite
  · intro _
    exact Gives.pure rfl
  · intro _
    exact Gives.pure htarget

theorem gives_readArrayClosings_none (lengths : List UInt64) (h : ty.intWidth? = none) :
    Gives row (readArrayClosings lengths ty) fun found => found.intWidth? = none := by
  induction lengths generalizing ty with
  | nil => exact Gives.pure h
  | cons length lengths ih =>
    apply (gives_expect _).skip
    intro _
    exact (gives_readStars_none rfl).bind fun _ => ih

/-- An integer type has no stars. -/
theorem eq_of_readStars (h : readStars ty state = .ok (.int width, after)) :
    ty = .int width ∧ after = state := by
  rcases cases_of_loop h with hlast | ⟨target, middle, hfirst, hmore⟩
  · obtain ⟨found, middle, htake, hlast⟩ := ok_bind hlast
    cases found with
    | true => cases hlast
    | false =>
      cases hlast
      exact ⟨rfl, (of_takeIf_eq_false htake).1⟩
  · obtain ⟨found, middle', -, hfirst⟩ := ok_bind hfirst
    cases found with
    | true =>
      cases hfirst
      have hnone := (gives_readStars_none rfl _ _ _ (List.suffix_refl _) hmore).1
      cases hnone
    | false => cases hfirst

/-- An integer type is no array. -/
theorem eq_of_readArrayClosings {lengths : List UInt64}
    (h : readArrayClosings lengths ty state = .ok (.int width, after)) :
    lengths = [] ∧ ty = .int width ∧ after = state := by
  cases lengths with
  | nil =>
    cases h
    exact ⟨rfl, rfl, rfl⟩
  | cons length lengths =>
    obtain ⟨_, middle, -, h⟩ := ok_bind h
    obtain ⟨array, middle', hstars, h⟩ := ok_bind h
    have harray := (gives_readStars_none rfl _ _ _ (List.suffix_refl _) hstars).1
    have hnone := (gives_readArrayClosings_none lengths harray _ _ _ (List.suffix_refl _) h).1
    cases hnone

theorem eq_cons_of_readBase (h : readBase state = .ok (.int width, after)) :
    ∃ span, state.rest = ⟨.intType width, span⟩ :: after.rest := by
  obtain ⟨token?, middle, hpeek, hbase⟩ := ok_bind h
  obtain ⟨hnext, rfl⟩ := eq_of_peek? hpeek
  obtain rfl := (gives_readBaseAt token? _ _ _ (List.suffix_refl _) hbase).1.2.2 width rfl
  cases hbase
  exact exists_eq_cons hnext

/-- An integer type is one token. -/
theorem eq_cons_of_read (h : Ty.read state = .ok (.int width, after)) :
    ∃ span, state.rest = ⟨.intType width, span⟩ :: after.rest := by
  obtain ⟨lengths, opened, hopenings, h⟩ := ok_bind h
  obtain ⟨base, based, hbase, h⟩ := ok_bind h
  obtain ⟨target, starred, hstars, h⟩ := ok_bind h
  obtain ⟨rfl, rfl, rfl⟩ := eq_of_readArrayClosings h
  obtain ⟨rfl, rfl⟩ := eq_of_readStars hstars
  obtain rfl := eq_of_readArrayOpenings hopenings
  exact eq_cons_of_readBase hbase

end Ty

namespace Value

/-- The value that the literal of a word makes where it stands. -/
def ofLiteral (place : LiteralPlace) (ty : Ty) (word : Int64) : Value :=
  match place with
  | .alone => if ty.isDouble then .double (.ofInt word.toInt) else .int word
  | .address => .address word

variable {state after : ReadState} {ty : Ty} {value : Value}

theorem exists_of_readAddress (h : readAddress state = .ok (value, after)) :
    ∃ width word opening source span rest, value = .address word ∧
      state.rest = ⟨.mark .leftParen, opening⟩ :: ⟨.intType width, source⟩ ::
        ⟨.integer word, span⟩ :: rest := by
  obtain ⟨_, opened, hopening, h⟩ := ok_bind h
  obtain ⟨source, typed, hsource, h⟩ := ok_bind h
  dsimp only at h
  split at h
  · exact absurd h (ne_ok_of_gives fun _ => (gives_unexpected .integerType).stop)
  · next hnone =>
    obtain ⟨width, hwidth⟩ := Option.ne_none_iff_exists'.mp (mt Option.isNone_iff_eq_none.mpr hnone)
    obtain rfl := Ty.eq_int_of_intWidth? hwidth
    obtain ⟨word, indexed, hword, h⟩ := ok_bind h
    obtain ⟨_, _, -, h⟩ := ok_bind h
    obtain ⟨_, _, -, h⟩ := ok_bind h
    obtain ⟨_, _, -, h⟩ := ok_bind h
    cases h
    obtain ⟨opening, hopening⟩ := eq_cons_of_expect hopening
    obtain ⟨start, hsource⟩ := Ty.eq_cons_of_read hsource
    obtain ⟨span, hword⟩ := eq_cons_of_integer hword
    exact ⟨width, word, opening, start, span, indexed.rest, rfl, by rw [hopening, hsource, hword]⟩

/-- The address of a constant pointer is read from a literal. -/
theorem literal_of_read {index : Int64} (h : Value.read ty state = .ok (.address index, after)) :
    ∃ span, Literal state.rest .address index span := by
  obtain ⟨token?, middle, hpeek, h⟩ := ok_bind h
  obtain ⟨hnext, rfl⟩ := eq_of_peek? hpeek
  have hfails : unexpected (.valueOf ty) middle ≠ .ok (Value.address index, after) :=
    ne_ok_of_gives fun _ => gives_unexpected _
  rcases token? with _ | token
  · exact absurd h hfails
  cases token with
  | integer n =>
    have hvalue : (if ty.isDouble then Value.double (.ofInt n.toInt) else .int n) = .address index :=
      congrArg Prod.fst (Except.ok.inj h)
    split at hvalue
    · cases hvalue
    · cases hvalue
  | float x =>
    dsimp only at h
    split at h
    · cases h
    · exact absurd h hfails
  | keyword word =>
    cases word
    case inttoptr =>
      obtain ⟨start, hrest⟩ := exists_eq_cons hnext
      obtain ⟨_, advanced, hadvance, h⟩ := ok_bind h
      cases hadvance
      obtain ⟨width, word, opening, source, span, rest, heq, htail⟩ := exists_of_readAddress h
      cases heq
      refine ⟨span, ?_⟩
      rw [hrest]
      dsimp only at htail
      rw [htail]
      exact .address
    case getelementptr =>
      obtain ⟨start, placed, hplace, h⟩ := ok_bind h
      obtain ⟨_, advanced, -, h⟩ := ok_bind h
      obtain ⟨name, length, hfirst, -⟩ := (gives_readFirstByte start _ _ _ (List.suffix_refl _) h).1
      cases hfirst
    case trueWord => cases h
    case falseWord => cases h
    case null => cases h
    all_goals exact absurd h hfails
  | localName name => cases h
  | globalName name => cases h
  | word word =>
    dsimp only at h
    split at h
    · exact absurd h (ne_ok_of_gives fun _ => gives_unsupported _)
    · exact absurd h hfails
  | _ => exact absurd h hfails

/-- What is read where a literal stands is what the literal makes. -/
theorem eq_of_literal {tokens : List PlacedToken} {next : Nat} {place : LiteralPlace} {word : Int64}
    {span : Span} (h : Value.read ty ⟨tokens, next⟩ = .ok (value, after))
    (hliteral : Literal tokens place word span) : value = ofLiteral place ty word := by
  cases hliteral with
  | alone =>
    cases h
    rfl
  | address =>
    obtain ⟨token?, middle, hpeek, h⟩ := ok_bind h
    cases hpeek
    obtain ⟨_, advanced, hadvance, h⟩ := ok_bind h
    cases hadvance
    obtain ⟨width, word, opening, source, span, rest, rfl, htail⟩ := exists_of_readAddress h
    cases htail
    rfl

end Value

end QuantumIR
