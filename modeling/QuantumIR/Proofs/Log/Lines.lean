import Mathlib
import QuantumIR.GateLog
import QuantumIR.Proofs.Double.Decimals
import QuantumIR.Proofs.Structured.Program

/-!
Lines of a gate log. An operation is determined by its line, as long as its angle is a number, so
the text of a log determines all operations of a run, and the counts above them.
-/

namespace QuantumIR

open Text

/-- A text is cut at the first place of a character in one way only. -/
theorem Text.cut_eq_iff {c : Char} {first first' rest rest' : List Char} (h : c ∉ first)
    (h' : c ∉ first') :
    first ++ c :: rest = first' ++ c :: rest' ↔ first = first' ∧ rest = rest' := by
  have hfirst : ∀ row post : List Char, c ∉ row →
      (row ++ c :: post).takeWhile (· ≠ c) = row := by
    intro row post hrow
    refine takeWhile_append_stop (fun d hd => ?_) fun d others heq => ?_
    · exact decide_eq_true fun heq => hrow (heq ▸ hd)
    · exact decide_eq_false fun hne => hne (List.cons.inj heq).1.symm
  constructor
  · intro heq
    have hsame : first = first' := by
      rw [← hfirst first rest h, heq, hfirst first' rest' h']
    subst hsame
    exact ⟨rfl, (List.cons.inj (List.append_cancel_left heq)).2⟩
  · rintro ⟨rfl, rfl⟩
    rfl

/-! ### Angles -/

namespace DoubleNotation

open Double

variable {x y : Double}

/-- What is neither finite nor undefined is written as its sign and a word. -/
theorem log_infinite (hfinite : x.isFinite = false) (hnan : x.isNaN = false) :
    (log.format x).toList = x.signText ++ ['i', 'n', 'f'] := by
  have hword : log.format x = nonFiniteWord x := if_neg (by rw [hfinite]; exact Bool.false_ne_true)
  rw [hword, nonFiniteWord, hnan, signText]
  cases x.negative <;> rfl

/-- There is one infinity for each sign. -/
theorem eq_of_infinite (hx : x.isFinite = false) (hx' : x.isNaN = false) (hy : y.isFinite = false)
    (hy' : y.isNaN = false) (h : x.negative = y.negative) : x = y := by
  have hmagnitude : ∀ z : Double, z.isFinite = false → z.isNaN = false →
      z.magnitude = infinityBits := by
    intro z hz hz'
    have hfield : z.exponentField = 2047 := by simpa [isFinite] using hz
    have hfraction : z.fraction = 0 := by simpa [isNaN, hfield] using hz'
    rw [magnitude, hfield, hfraction]
    rfl
  rw [← ofMagnitude_magnitude x, ← ofMagnitude_magnitude y, hmagnitude x hx hx',
    hmagnitude y hy hy', h]

/-- A sign and a digit are not the start of an infinity. -/
theorem log_finite_ne_infinite (hx : x.isFinite) (hy : y.isFinite = false)
    (hy' : y.isNaN = false) : log.format x ≠ log.format y := by
  intro h
  obtain ⟨text, digits, last, htext, hdecimal, -⟩ := format_eq isExact_log hx
  obtain ⟨d, rest, rfl, hd⟩ := hdecimal.exists_cons
  have hminus : d ≠ '-' := isDigit_ne hd (by decide)
  have hletter : d ≠ 'i' := isDigit_ne hd (by decide)
  rw [← String.toList_inj, htext, log_infinite hy hy'] at h
  rcases x.signText_cases with hsign | hsign <;> rcases y.signText_cases with hsign' | hsign' <;>
    rw [hsign, hsign'] at h <;> simp [hminus, hletter] at h

/-- Angles that are numbers are told apart by how they are written. -/
theorem log_format_injective (hx : x.isNaN = false) (hy : y.isNaN = false)
    (h : log.format x = log.format y) : x = y := by
  cases hx' : x.isFinite with
  | true =>
    cases hy' : y.isFinite with
    | true =>
      rw [← readDecimal_format isExact_log hx', h, readDecimal_format isExact_log hy']
    | false => exact absurd h (log_finite_ne_infinite hx' hy' hy)
  | false =>
    cases hy' : y.isFinite with
    | true => exact absurd h.symm (log_finite_ne_infinite hy' hx' hx)
    | false =>
      refine eq_of_infinite hx' hx hy' hy ?_
      rw [← String.toList_inj, log_infinite hx' hx, log_infinite hy' hy] at h
      have hsign := List.append_cancel_right h
      simp only [signText] at hsign
      revert hsign
      cases x.negative <;> cases y.negative <;> simp

/-- Neither a bracket nor the end of a line stands in an angle. -/
theorem not_mem_log_format (x : Double) {c : Char} (hc : c = ']' ∨ c = '\n') :
    c ∉ (log.format x).toList := by
  have hsign : c ∉ x.signText := by
    rcases x.signText_cases with h | h <;> rw [h] <;> rcases hc with rfl | rfl <;> decide
  cases hfinite : x.isFinite with
  | true =>
    obtain ⟨text, digits, last, htext, hdecimal, -⟩ := format_eq isExact_log hfinite
    rw [htext, List.mem_append, not_or]
    refine ⟨hsign, fun hmem => ?_⟩
    have hchar := hdecimal.mem hmem
    revert hchar
    rcases hc with rfl | rfl <;> decide
  | false =>
    cases hnan : x.isNaN with
    | true =>
      have hword : log.format x = "NaN" := by
        rw [format, hfinite]
        exact if_pos hnan
      rw [hword]
      rcases hc with rfl | rfl <;> decide
    | false =>
      rw [log_infinite hfinite hnan, List.mem_append, not_or]
      refine ⟨hsign, ?_⟩
      rcases hc with rfl | rfl <;> decide

end DoubleNotation

/-! ### Operations -/

namespace Operation

variable {op op' : Operation}

/-- The angle of an operation, if it has one. -/
def theta? : Operation → Option Double
  | rotate _ theta _ | rotatePair _ theta _ _ => some theta
  | _ => none

/-- The angle of an operation is a number. -/
def IsNumeric (op : Operation) : Prop :=
  ∀ theta ∈ op.theta?, theta.isNaN = false

/-- The words at the start of lines, with the functions whose operations have them. -/
def words : List (String × Intrinsic) :=
  [("barrier", Intrinsic.barrier), ("ccx", Intrinsic.toffoli), ("swap", Intrinsic.swap),
    ("reset", Intrinsic.reset), ("m", Intrinsic.measure), ("m", Intrinsic.measureInto),
    ("mresetz", Intrinsic.measureReset)] ++
  ControlledGate.all.map (fun gate => (gate.word, Intrinsic.controlled gate)) ++
  Gate.all.map (fun gate => (gate.word, Intrinsic.single gate)) ++
  Axis.all.map (fun axis => ("r" ++ axis.letter, Intrinsic.rotate axis)) ++
  Axis.all.map (fun axis => ("r" ++ axis.letter ++ axis.letter, Intrinsic.rotatePair axis))

theorem mem_words (op : Operation) : (op.name, op.callee) ∈ words := by
  cases op with
  | controlled gate => cases gate <;> simp [words, name, callee, ControlledGate.all]
  | single gate => cases gate <;> simp [words, name, callee, Gate.all]
  | rotate axis => cases axis <;> simp [words, name, callee, Axis.all]
  | rotatePair axis => cases axis <;> simp [words, name, callee, Axis.all]
  | _ => simp [words, name, callee]

/-- Only two functions share a word: the two that measure without a reset. -/
theorem callee_of_word : ∀ entry ∈ words, ∀ entry' ∈ words, entry.1 = entry'.1 →
    entry.2 = entry'.2 ∨ (entry.2, entry'.2) ∈
      [(Intrinsic.measure, Intrinsic.measureInto), (.measureInto, .measure)] := by
  decide +kernel

theorem not_mem_name (op : Operation) : ' ' ∉ op.name.toList ∧ '\n' ∉ op.name.toList := by
  have hwords : ∀ entry ∈ words, ' ' ∉ entry.1.toList ∧ '\n' ∉ entry.1.toList := by decide +kernel
  exact hwords _ op.mem_words

/-- What follows the word of a line and a blank. -/
def details (op : Operation) : Option String :=
  match op with
  | barrier => none
  | rotate _ theta _ | rotatePair _ theta _ _ =>
    some (thetaText theta ++ " " ++ qubitsText op.qubits)
  | reset qubit => some (toString qubit)
  | measure _ => some (qubitsText op.qubits ++ " => out[]")
  | measureInto _ result | measureReset _ result =>
    some (qubitsText op.qubits ++ " => out[" ++ toString result ++ "]")
  | _ => some (qubitsText op.qubits)

theorem line_eq (op : Operation) :
    op.line.toList = op.name.toList ++ (op.details.map fun text => ' ' :: text.toList).getD [] := by
  cases op <;> simp [line, details, String.append_assoc]

/-- The word of a line ends at the first blank. -/
theorem line_eq_iff : op.line = op'.line ↔ op.name = op'.name ∧ op.details = op'.details := by
  have hblank : ∀ (op op' : Operation) (text : String),
      op.name.toList ≠ op'.name.toList ++ ' ' :: text.toList := by
    intro op op' text h
    exact op.not_mem_name.1 (by rw [h]; simp)
  rw [← String.toList_inj, line_eq, line_eq, ← String.toList_inj]
  cases op.details with
  | none =>
    cases op'.details with
    | none => simp
    | some text => simp [hblank]
  | some text =>
    cases op'.details with
    | none => simp [(hblank op' op text).symm]
    | some text' =>
      simp only [Option.map_some, Option.getD_some, Option.some.injEq]
      rw [cut_eq_iff op.not_mem_name.1 op'.not_mem_name.1, String.toList_inj,
        String.toList_inj]

/-! ### Numbers in brackets -/

/-- What is written up to a bracket is determined, and so is what follows the bracket. -/
theorem bracket_eq_iff {first first' rest rest' : String} (h : ']' ∉ first.toList)
    (h' : ']' ∉ first'.toList) :
    first ++ ("]" ++ rest) = first' ++ ("]" ++ rest') ↔ first = first' ∧ rest = rest' := by
  have htext : ∀ first rest : String,
      (first ++ ("]" ++ rest)).toList = first.toList ++ ']' :: rest.toList := by
    intro first rest
    rw [String.toList_append, String.toList_append]
    rfl
  rw [← String.toList_inj, htext, htext, cut_eq_iff h h', String.toList_inj, String.toList_inj]

theorem not_mem_toString (n : Nat) {c : Char} (hc : isDigit c = false) :
    c ∉ (toString n).toList := by
  rw [toList_toString]
  intro hmem
  rw [Lexeme.isDigit_of_mem_toDigits hmem] at hc
  cases hc

theorem bracket_toString_eq_iff {n n' : Nat} {rest rest' : String} :
    toString n ++ ("]" ++ rest) = toString n' ++ ("]" ++ rest') ↔ n = n' ∧ rest = rest' := by
  have hbracket : ∀ n : Nat, ']' ∉ (toString n).toList := fun n => not_mem_toString n (by decide)
  rw [bracket_eq_iff (hbracket n) (hbracket n')]
  exact and_congr_left' Nat.repr_inj

theorem qubitText_append_eq_iff {qubit qubit' : Nat} {rest rest' : String} :
    qubitText qubit ++ rest = qubitText qubit' ++ rest' ↔ qubit = qubit' ∧ rest = rest' := by
  rw [qubitText, qubitText]
  simp only [String.append_assoc, String.append_right_inj]
  exact bracket_toString_eq_iff

theorem qubitsText_singleton (qubit : Nat) : qubitsText [qubit] = qubitText qubit :=
  String.intercalate_singleton

theorem qubitsText_cons_cons (qubit next : Nat) (others : List Nat) :
    qubitsText (qubit :: next :: others) =
      qubitText qubit ++ (", " ++ qubitsText (next :: others)) := by
  rw [qubitsText, qubitsText, List.map_cons, List.map_cons, String.intercalate_cons_cons,
    String.append_assoc]

/-- Rows of qubits of one length are told apart, whatever follows them. -/
theorem qubitsText_append_eq_iff {qubits qubits' : List Nat} (h : qubits.length = qubits'.length)
    {rest rest' : String} : qubitsText qubits ++ rest = qubitsText qubits' ++ rest' ↔
      qubits = qubits' ∧ rest = rest' := by
  induction qubits generalizing qubits' with
  | nil =>
    cases qubits' with
    | nil => simp [String.append_right_inj]
    | cons _ _ => cases h
  | cons qubit others ih =>
    cases qubits' with
    | nil => cases h
    | cons qubit' others' =>
      cases others with
      | nil =>
        cases others' with
        | nil => simp [qubitsText_singleton, qubitText_append_eq_iff]
        | cons _ _ => cases h
      | cons next others =>
        cases others' with
        | nil => cases h
        | cons next' others' =>
          simp only [qubitsText_cons_cons, String.append_assoc, qubitText_append_eq_iff,
            String.append_right_inj, ih (Nat.succ.inj h), List.cons.injEq, and_assoc]

theorem qubitsText_eq_iff {qubits qubits' : List Nat} (h : qubits.length = qubits'.length) :
    qubitsText qubits = qubitsText qubits' ↔ qubits = qubits' := by
  have happend : qubitsText qubits ++ "" = qubitsText qubits' ++ "" ↔ qubits = qubits' ∧ "" = "" :=
    qubitsText_append_eq_iff h
  simpa using happend

/-- Angles that are numbers are told apart, whatever follows them. -/
theorem thetaText_append_eq_iff {theta theta' : Double} (h : theta.isNaN = false)
    (h' : theta'.isNaN = false) {rest rest' : String} :
    thetaText theta ++ rest = thetaText theta' ++ rest' ↔ theta = theta' ∧ rest = rest' := by
  have hbracket : ∀ theta, ']' ∉ (DoubleNotation.log.format theta).toList :=
    fun theta => DoubleNotation.not_mem_log_format theta (Or.inl rfl)
  rw [thetaText, thetaText]
  simp only [String.append_assoc, String.append_right_inj]
  rw [bracket_eq_iff (hbracket theta) (hbracket theta')]
  exact and_congr_left' ⟨DoubleNotation.log_format_injective h h', congrArg _⟩

/-! ### Whole lines -/

/-- What stands after the word determines an operation of a known function. -/
theorem eq_of_details (hcallee : op.callee = op'.callee) (hop : op.IsNumeric)
    (hop' : op'.IsNumeric) (h : op.details = op'.details) : op = op' := by
  cases op with
  | barrier =>
    cases op' with
    | barrier => rfl
    | _ => cases hcallee
  | toffoli =>
    cases op' with
    | toffoli => simpa [details, qubitsText_eq_iff, qubits] using h
    | _ => cases hcallee
  | controlled =>
    cases op' with
    | controlled =>
      cases hcallee
      simpa [details, qubitsText_eq_iff, qubits] using h
    | _ => cases hcallee
  | single =>
    cases op' with
    | single =>
      cases hcallee
      simpa [details, qubitsText_eq_iff, qubits] using h
    | _ => cases hcallee
  | rotate _ theta =>
    cases op' with
    | rotate _ theta' =>
      cases hcallee
      have htheta := hop theta rfl
      have htheta' := hop' theta' rfl
      simpa [details, String.append_assoc, thetaText_append_eq_iff htheta htheta',
        String.append_right_inj, qubitsText_eq_iff, qubits] using h
    | _ => cases hcallee
  | rotatePair _ theta =>
    cases op' with
    | rotatePair _ theta' =>
      cases hcallee
      have htheta := hop theta rfl
      have htheta' := hop' theta' rfl
      simpa [details, String.append_assoc, thetaText_append_eq_iff htheta htheta',
        String.append_right_inj, qubitsText_eq_iff, qubits] using h
    | _ => cases hcallee
  | swap =>
    cases op' with
    | swap => simpa [details, qubitsText_eq_iff, qubits] using h
    | _ => cases hcallee
  | reset =>
    cases op' with
    | reset => simpa [details, Nat.repr_inj] using h
    | _ => cases hcallee
  | measure =>
    cases op' with
    | measure => simpa [details, qubitsText_eq_iff, qubits] using h
    | _ => cases hcallee
  | measureInto =>
    cases op' with
    | measureInto =>
      simpa [details, String.append_assoc, qubitsText_append_eq_iff, String.append_right_inj,
        bracket_toString_eq_iff, qubits] using h
    | _ => cases hcallee
  | measureReset =>
    cases op' with
    | measureReset =>
      simpa [details, String.append_assoc, qubitsText_append_eq_iff, String.append_right_inj,
        bracket_toString_eq_iff, qubits] using h
    | _ => cases hcallee

/-- The two operations that share a word: one is written with an empty bracket, the other with the
number of a result. -/
theorem details_ne (hcallee : op.callee = .measure) (hcallee' : op'.callee = .measureInto) :
    op.details ≠ op'.details := by
  cases op with
  | measure qubit =>
    cases op' with
    | measureInto qubit' result =>
      intro h
      have hsome := Option.some.inj h
      have hlength : (measure qubit).qubits.length = (measureInto qubit' result).qubits.length :=
        rfl
      rw [String.append_assoc, String.append_assoc, qubitsText_append_eq_iff hlength] at hsome
      have hout : " => out[" ++ ("" ++ ("]" ++ "")) =
          " => out[" ++ (toString result ++ ("]" ++ "")) := hsome.2
      rw [String.append_right_inj,
        bracket_eq_iff (by simp) (not_mem_toString result (by decide))] at hout
      have hdigits := congrArg String.toList hout.1
      rw [toList_toString] at hdigits
      exact toDigits_ne_nil result hdigits.symm
    | _ => cases hcallee'
  | _ => cases hcallee

/-- Operations with angles that are numbers are told apart by their lines. -/
theorem eq_of_line (hop : op.IsNumeric) (hop' : op'.IsNumeric) (h : op.line = op'.line) :
    op = op' := by
  obtain ⟨hname, hdetails⟩ := line_eq_iff.mp h
  rcases callee_of_word _ op.mem_words _ op'.mem_words hname with hcallee | hmeasures
  · exact eq_of_details hcallee hop hop' hdetails
  · simp only [List.mem_cons, Prod.mk.injEq, List.not_mem_nil, or_false] at hmeasures
    rcases hmeasures with ⟨hcallee, hcallee'⟩ | ⟨hcallee, hcallee'⟩
    · exact absurd hdetails (details_ne hcallee hcallee')
    · exact absurd hdetails.symm (details_ne hcallee' hcallee)

theorem newline_not_mem_toString (n : Nat) : '\n' ∉ (toString n).toList :=
  not_mem_toString n (by decide)

theorem newline_not_mem_qubitsText (qubits : List Nat) : '\n' ∉ (qubitsText qubits).toList := by
  have hqubit : ∀ qubit, '\n' ∉ (qubitText qubit).toList := by
    intro qubit
    have hnumber := newline_not_mem_toString qubit
    simp_all [qubitText]
  induction qubits with
  | nil => simp [qubitsText]
  | cons qubit others ih =>
    cases others with
    | nil =>
      rw [qubitsText_singleton]
      exact hqubit qubit
    | cons next others =>
      rw [qubitsText_cons_cons]
      simp [hqubit qubit, ih]

/-- No line goes on to a second one. -/
theorem newline_not_mem_line (op : Operation) : '\n' ∉ op.line.toList := by
  have hdetails : ∀ text ∈ op.details, '\n' ∉ text.toList := by
    have hqubits := newline_not_mem_qubitsText op.qubits
    have htheta : ∀ theta, '\n' ∉ (thetaText theta).toList := by
      intro theta
      have hangle := DoubleNotation.not_mem_log_format theta (Or.inr rfl)
      simp [thetaText, hangle]
    have hnumber := newline_not_mem_toString
    cases op <;> simp_all [details, thetaText]
  rw [line_eq, List.mem_append, not_or]
  refine ⟨op.not_mem_name.2, ?_⟩
  cases h : op.details with
  | none => exact List.not_mem_nil
  | some text => simpa using hdetails text h

end Operation

/-! ### Whole logs -/

namespace GateLog

/-- Lines with their ends are told apart. -/
theorem join_lines_eq_iff {lines lines' : List String} (h : ∀ line ∈ lines, '\n' ∉ line.toList)
    (h' : ∀ line ∈ lines', '\n' ∉ line.toList) :
    String.join (lines.map fun line => line ++ "\n") =
      String.join (lines'.map fun line => line ++ "\n") ↔ lines = lines' := by
  have hcons : ∀ (line : String) (rest : List String),
      (String.join ((line :: rest).map fun line => line ++ "\n")).toList =
        line.toList ++ '\n' :: (String.join (rest.map fun line => line ++ "\n")).toList := by
    intro line rest
    rw [List.map_cons, String.join_cons, String.toList_append, String.toList_append,
      List.append_assoc]
    rfl
  induction lines generalizing lines' with
  | nil =>
    cases lines' with
    | nil => simp
    | cons line' rest' =>
      rw [← String.toList_inj, hcons]
      simp
  | cons line rest ih =>
    cases lines' with
    | nil =>
      rw [← String.toList_inj, hcons]
      simp
    | cons line' rest' =>
      obtain ⟨hline, hrest⟩ := List.forall_mem_cons.mp h
      obtain ⟨hline', hrest'⟩ := List.forall_mem_cons.mp h'
      rw [← String.toList_inj, hcons, hcons, cut_eq_iff hline hline', String.toList_inj,
        String.toList_inj, List.cons.injEq]
      exact and_congr_right' (ih hrest hrest')

variable {log log' : GateLog}

/-- The lines of a log determine its operations. -/
theorem operations_eq_of_lines (hlog : ∀ op ∈ log.operations, op.IsNumeric)
    (hlog' : ∀ op ∈ log'.operations, op.IsNumeric) (h : log.lines = log'.lines) :
    log.operations = log'.operations := by
  rw [← Array.toList_inj]
  refine List.ext_getElem? fun place => ?_
  have hline : (log.operations.toList[place]?).map Operation.line =
      (log'.operations.toList[place]?).map Operation.line := by
    rw [← List.getElem?_map, ← List.getElem?_map]
    exact congrArg (·[place]?) h
  cases hop : log.operations.toList[place]? with
  | none =>
    rw [hop] at hline
    exact (Option.map_eq_none_iff.mp hline.symm).symm
  | some op =>
    rw [hop] at hline
    obtain ⟨op', hop', hsame⟩ := Option.map_eq_some_iff.mp hline.symm
    have hmem := Array.mem_def.mpr (List.mem_of_getElem? hop)
    have hmem' := Array.mem_def.mpr (List.mem_of_getElem? hop')
    rw [hop', Operation.eq_of_line (hlog op hmem) (hlog' op' hmem') hsame.symm]

/-- A line that counts. -/
theorem count_eq_iff {word : String} {n n' : Nat} :
    word ++ toString n ++ "]" = word ++ toString n' ++ "]" ↔ n = n' := by
  simp [String.append_assoc, String.append_right_inj]

/-- The text of a log determines its counts and its operations. -/
theorem eq_of_text (hlog : ∀ op ∈ log.operations, op.IsNumeric)
    (hlog' : ∀ op ∈ log'.operations, op.IsNumeric) (h : log.text = log'.text) : log = log' := by
  have hends : ∀ log : GateLog, ∀ line ∈ ("qubits[" ++ toString log.qubitCount ++ "]") ::
      ("out[" ++ toString log.outCount ++ "]") :: log.lines, '\n' ∉ line.toList := by
    intro log line hline
    have hnumber := Operation.newline_not_mem_toString
    rcases List.mem_cons.mp hline with rfl | hline
    · simp_all
    rcases List.mem_cons.mp hline with rfl | hline
    · simp_all
    · obtain ⟨op, -, rfl⟩ := List.mem_map.mp hline
      exact op.newline_not_mem_line
  have hlines := (join_lines_eq_iff (hends log) (hends log')).mp h
  rw [List.cons.injEq, List.cons.injEq, count_eq_iff, count_eq_iff] at hlines
  obtain ⟨hqubits, hout, hlines⟩ := hlines
  have hoperations := operations_eq_of_lines hlog hlog' hlines
  cases log
  cases log'
  simp_all

/-- A log is unambiguous as long as angles are numbers: a line determines its operation, the lines
of a log determine the operations of the run, and the text of a log determines the log. -/
theorem unambiguous :
    (∀ op op' : Operation, op.IsNumeric → op'.IsNumeric → op.line = op'.line → op = op') ∧
    ∀ log log' : GateLog, (∀ op ∈ log.operations, op.IsNumeric) →
      (∀ op ∈ log'.operations, op.IsNumeric) →
      (log.lines = log'.lines → log.operations = log'.operations) ∧
        (log.text = log'.text → log = log') :=
  ⟨fun _ _ hop hop' h => Operation.eq_of_line hop hop' h, fun _ _ hlog hlog' =>
    ⟨operations_eq_of_lines hlog hlog', eq_of_text hlog hlog'⟩⟩

/-- A rotation by one half in a log that was written step by step. -/
theorem unambiguous_rotation :
    (Operation.rotate .x ⟨0x3FE0000000000000⟩ 1).IsNumeric ∧
    (observer.apply (.rotate .x ⟨0x3FE0000000000000⟩ 1) empty).text =
      (GateLog.mk #[.rotate .x ⟨0x3FE0000000000000⟩ 1] 0 0).text ∧
    observer.apply (.rotate .x ⟨0x3FE0000000000000⟩ 1) empty =
      GateLog.mk #[.rotate .x ⟨0x3FE0000000000000⟩ 1] 0 0 := by
  have hnumeric : (Operation.rotate .x ⟨0x3FE0000000000000⟩ 1).IsNumeric := by
    intro theta htheta
    cases htheta
    decide
  have hall : ∀ op ∈ #[Operation.rotate .x ⟨0x3FE0000000000000⟩ 1], op.IsNumeric := by
    intro op hop
    rw [Array.mem_singleton.mp hop]
    exact hnumeric
  have hlog := unambiguous.2 (observer.apply (.rotate .x ⟨0x3FE0000000000000⟩ 1) empty)
    ⟨#[.rotate .x ⟨0x3FE0000000000000⟩ 1], 0, 0⟩ hall hall
  exact ⟨hnumeric, rfl, hlog.2 rfl⟩

end GateLog

end QuantumIR
