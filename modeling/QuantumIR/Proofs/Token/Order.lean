import QuantumIR.Proofs.Token.Pieces

/-!
The pieces of a text stand in it one after another, and between them is nothing but white space and
comments.
-/

namespace QuantumIR.Lexeme

open Text

/-- A text that starts at a byte, taken apart into white space, comments and pieces, with the bytes
of the pieces in the order in which they stand. -/
inductive Laid : Nat → List Char → List Span → Prop where
  | nil (start : Nat) : Laid start [] []
  | space {start : Nat} {c : Char} {rest : List Char} {spans : List Span}
      (hspace : Cut.isSpace c) (h : Laid (start + byteCount [c]) rest spans) :
      Laid start ([c] ++ rest) spans
  | comment {start : Nat} {body rest : List Char} {spans : List Span}
      (hbody : '\n' ∉ body) (hrest : ∀ c ∈ rest.head?, c = '\n')
      (h : Laid (start + byteCount (';' :: body)) rest spans) :
      Laid start (';' :: body ++ rest) spans
  | piece {start : Nat} {c : Char} {piece rest : List Char} {spans : List Span}
      (hspace : Cut.isSpace c = false) (h : Laid (start + byteCount (c :: piece)) rest spans) :
      Laid start (c :: piece ++ rest) (⟨start, start + byteCount (c :: piece)⟩ :: spans)

theorem laid_scanFrom (start : Nat) (text : List Char) :
    Laid start text ((scanFrom start text).map span) := by
  induction start, text using scanFrom.induct with
  | case1 start =>
    rw [scanFrom]
    exact .nil start
  | case2 start c rest hspace ih =>
    rw [scanFrom, if_pos hspace]
    have hcount : byteCount [c] = 1 := utf8Size_of_isSpace hspace
    rw [← hcount] at ih ⊢
    exact .space hspace ih
  | case3 start rest comment hspace ih =>
    rw [scanFrom, if_neg hspace, if_pos rfl]
    have hwhole : ';' :: rest = ';' :: comment ++ rest.drop comment.length :=
      congrArg _ (List.prefix_iff_eq_append.mp (List.takeWhile_prefix _)).symm
    have hcount : start + 1 + byteCount comment = start + byteCount (';' :: comment) :=
      Nat.add_assoc ..
    have hbody : '\n' ∉ comment := by
      intro hmem
      simpa using List.mem_takeWhile_imp hmem
    have hrest : ∀ c ∈ (rest.drop comment.length).head?, c = '\n' := by
      intro c hc
      obtain ⟨more, hmore⟩ := List.head?_eq_some_iff.mp hc
      exact newline_of_drop hmore
    rw [hcount] at ih
    rw [hwhole]
    change Laid start _ ((scanFrom (start + 1 + byteCount comment) _).map span)
    rw [hcount]
    exact .comment hbody hrest ih
  | case4 start c rest hspace hcomment cut piece stop ih =>
    rw [Bool.not_eq_true] at hspace
    rw [scanFrom_first hspace hcomment, List.map_cons]
    have hwhole : c :: rest = piece ++ rest.drop (cut.length - 1) :=
      congrArg _ (List.take_append_drop _ _).symm
    rw [span_ofCut, hwhole]
    exact .piece hspace ih

/-- A part of what follows some text is a part of the whole. -/
theorem exists_part_prepend {start : Nat} {text : List Char} {a b : Span} (more : List Char)
    (h : ∃ front part rest, text = front ++ part ++ rest ∧
      a.start = start + byteCount more + byteCount front ∧
      b.stop = start + byteCount more + byteCount front + byteCount part) :
    ∃ front part rest, more ++ text = front ++ part ++ rest ∧
      a.start = start + byteCount front ∧ b.stop = start + byteCount front + byteCount part := by
  obtain ⟨front, part, rest, rfl, hstart, hstop⟩ := h
  refine ⟨more ++ front, part, rest, ?_, ?_, ?_⟩
  · simp only [List.append_assoc]
  · rw [hstart, byteCount_append, Nat.add_assoc]
  · rw [hstop, byteCount_append, Nat.add_assoc start]

/-- From the start of a piece to the end of the same or a later one stands a part of the text. -/
theorem Laid.exists_part {start : Nat} {text : List Char} {spans : List Span} {i j : Nat}
    {a b : Span} (h : Laid start text spans) (ha : spans[i]? = some a) (hb : spans[j]? = some b)
    (hij : i ≤ j) : ∃ front part rest, text = front ++ part ++ rest ∧
      a.start = start + byteCount front ∧ b.stop = start + byteCount front + byteCount part := by
  induction h generalizing i j a with
  | nil => cases ha
  | space _ _ ih => exact exists_part_prepend _ (ih ha hb hij)
  | comment _ _ _ ih => exact exists_part_prepend _ (ih ha hb hij)
  | @piece start c piece rest spans _ _ ih =>
    match i, j, hij with
    | 0, 0, _ =>
      cases ha
      cases hb
      exact ⟨[], c :: piece, rest, rfl, rfl, rfl⟩
    | 0, j + 1, _ =>
      cases ha
      obtain ⟨front, part, rest', rfl, -, hstop⟩ := ih hb hb (Nat.le_refl j)
      refine ⟨[], c :: piece ++ (front ++ part), rest', ?_, rfl, ?_⟩
      · simp only [List.append_assoc, List.nil_append]
      · simp only [hstop, byteCount_append, byteCount]
        omega
    | i + 1, j + 1, hij => exact exists_part_prepend _ (ih ha hb (Nat.le_of_succ_le_succ hij))

/-- A byte, in a text that starts at a byte, at which a character starts or the text ends. -/
def Boundary (start : Nat) (text : List Char) (offset : Nat) : Prop :=
  ∃ front rest, text = front ++ rest ∧ offset = start + byteCount front

/-- A character of a text that starts at a byte. -/
def CharAt (start : Nat) (text : List Char) (offset : Nat) (c : Char) : Prop :=
  ∃ front rest, text = front ++ c :: rest ∧ offset = start + byteCount front

/-- A comment, in a text that starts at a byte: a semicolon and what is left of its line. -/
def CommentAt (start : Nat) (text : List Char) (comment : Span) : Prop :=
  ∃ front body rest, text = front ++ (';' :: body ++ rest) ∧ '\n' ∉ body ∧
    (∀ c ∈ rest.head?, c = '\n') ∧ comment.start = start + byteCount front ∧
    comment.stop = comment.start + byteCount (';' :: body)

/-- What a byte belongs to, in a text that starts at a byte and has its pieces at some bytes. No
piece touches a comment. -/
inductive Accounted (start : Nat) (text : List Char) (spans : List Span) (offset : Nat) : Prop where
  | piece (span : Span) (hmem : span ∈ spans) (hstart : span.start ≤ offset)
      (hstop : offset < span.stop)
  | space (c : Char) (hc : c ∈ [' ', '\t', '\r', '\n']) (h : CharAt start text offset c)
  | comment (comment : Span) (h : CommentAt start text comment) (hstart : comment.start ≤ offset)
      (hstop : offset < comment.stop)
      (hapart : ∀ span ∈ spans, span.stop ≤ comment.start ∨ comment.stop ≤ span.start)

theorem CharAt.prepend {start offset : Nat} {rest : List Char} {c : Char} (front : List Char)
    (h : CharAt (start + byteCount front) rest offset c) :
    CharAt start (front ++ rest) offset c := by
  obtain ⟨front', rest', rfl, hoffset⟩ := h
  refine ⟨front ++ front', rest', ?_, ?_⟩
  · rw [List.append_assoc]
  · rw [hoffset, byteCount_append, Nat.add_assoc]

/-- The bytes after the front of a text belong to the same as without it, where the pieces that the
front has end with it. -/
theorem Accounted.prepend {start offset : Nat} {rest : List Char} {spans : List Span}
    (front : List Char) (more : List Span)
    (hmore : ∀ span ∈ more, span.stop ≤ start + byteCount front)
    (h : Accounted (start + byteCount front) rest spans offset) :
    Accounted start (front ++ rest) (more ++ spans) offset := by
  cases h with
  | piece span hmem hstart hstop =>
    exact .piece span (List.mem_append_right more hmem) hstart hstop
  | space c hc h => exact .space c hc (h.prepend front)
  | comment comment h hstart hstop hapart =>
    obtain ⟨front', body, rest', rfl, hbody, hrest, hfirst, hlast⟩ := h
    refine .comment comment ⟨front ++ front', body, rest', ?_, hbody, hrest, ?_, hlast⟩ hstart
      hstop ?_
    · rw [List.append_assoc]
    · rw [hfirst, byteCount_append, Nat.add_assoc]
    · intro span hmem
      rcases List.mem_append.mp hmem with hmem | hmem
      · have := hmore span hmem
        left
        omega
      · exact hapart span hmem

namespace Laid

variable {start : Nat} {text : List Char} {spans : List Span}

/-- Every piece takes some of the bytes of its text. -/
theorem bounds (h : Laid start text spans) {span : Span} (hmem : span ∈ spans) :
    start ≤ span.start ∧ span.start < span.stop ∧ span.stop ≤ start + byteCount text := by
  induction h with
  | nil => cases hmem
  | space _ _ ih =>
    have := ih hmem
    rw [byteCount_append]
    omega
  | comment _ _ _ ih =>
    have := ih hmem
    rw [byteCount_append]
    omega
  | @piece start c piece rest spans _ _ ih =>
    have hpos : 0 < byteCount (c :: piece) := Nat.add_pos_left c.utf8Size_pos _
    rw [byteCount_append]
    rcases List.mem_cons.mp hmem with rfl | hmem
    · dsimp only
      omega
    · have := ih hmem
      omega

/-- Every piece starts with a character that is no white space. -/
theorem exists_start (h : Laid start text spans) {span : Span} (hmem : span ∈ spans) :
    ∃ c, CharAt start text span.start c ∧ Cut.isSpace c = false := by
  induction h with
  | nil => cases hmem
  | space _ _ ih =>
    obtain ⟨c, hchar, hc⟩ := ih hmem
    exact ⟨c, hchar.prepend _, hc⟩
  | comment _ _ _ ih =>
    obtain ⟨c, hchar, hc⟩ := ih hmem
    exact ⟨c, hchar.prepend _, hc⟩
  | @piece start c piece rest spans hspace _ ih =>
    rcases List.mem_cons.mp hmem with rfl | hmem
    · exact ⟨c, ⟨[], piece ++ rest, rfl, rfl⟩, hspace⟩
    · obtain ⟨d, hchar, hd⟩ := ih hmem
      exact ⟨d, hchar.prepend _, hd⟩

/-- Every piece starts and ends between characters. -/
theorem boundaries (h : Laid start text spans) {span : Span} (hmem : span ∈ spans) :
    Boundary start text span.start ∧ Boundary start text span.stop := by
  obtain ⟨i, hi⟩ := List.mem_iff_getElem?.mp hmem
  obtain ⟨front, part, rest, rfl, hstart, hstop⟩ := h.exists_part hi hi (Nat.le_refl i)
  refine ⟨⟨front, part ++ rest, List.append_assoc .., hstart⟩, ⟨front ++ part, rest, rfl, ?_⟩⟩
  rw [hstop, byteCount_append, Nat.add_assoc]

/-- A piece ends before the next ones start. -/
theorem ordered (h : Laid start text spans) : spans.Pairwise fun a b => a.stop ≤ b.start := by
  induction h with
  | nil => exact .nil
  | space _ _ ih => exact ih
  | comment _ _ _ ih => exact ih
  | piece _ h ih => exact .cons (fun span hmem => (h.bounds hmem).1) ih

theorem accounted (h : Laid start text spans) {offset : Nat} (hstart : start ≤ offset)
    (hstop : offset < start + byteCount text) : Accounted start text spans offset := by
  induction h with
  | nil => exact absurd hstop (Nat.not_lt.mpr hstart)
  | @space start c rest spans hspace h ih =>
    rw [byteCount_append] at hstop
    by_cases hlater : start + byteCount [c] ≤ offset
    · exact (ih hlater (by omega)).prepend [c] [] (fun _ hmem => nomatch hmem)
    · have hcount : byteCount [c] = 1 := utf8Size_of_isSpace hspace
      refine .space c ?_ ⟨[], rest, rfl, ?_⟩
      · simpa [Cut.isSpace, or_assoc] using hspace
      · rw [byteCount]
        omega
  | @comment start body rest spans hbody hrest h ih =>
    rw [byteCount_append] at hstop
    by_cases hlater : start + byteCount (';' :: body) ≤ offset
    · exact (ih hlater (by omega)).prepend _ [] (fun _ hmem => nomatch hmem)
    · exact .comment ⟨start, start + byteCount (';' :: body)⟩
        ⟨[], body, rest, rfl, hbody, hrest, rfl, rfl⟩ hstart (Nat.lt_of_not_le hlater)
        (fun span hmem => .inr (h.bounds hmem).1)
  | @piece start c piece rest spans _ h ih =>
    rw [byteCount_append] at hstop
    by_cases hlater : start + byteCount (c :: piece) ≤ offset
    · refine (ih hlater (by omega)).prepend _ [⟨start, start + byteCount (c :: piece)⟩] ?_
      intro span hmem
      rw [List.mem_singleton.mp hmem]
    · exact .piece _ List.mem_cons_self hstart (Nat.lt_of_not_le hlater)

end Laid

/-- Scanning drops nothing: the pieces of a text, those that spell no token among them, have at
least one byte each, start and end between characters, and stand one after another; every byte
outside of them is white space or in a comment that starts outside of them. -/
theorem scan_accounts (text : List Char) :
    (∀ place ∈ (scan text).map span, place.start < place.stop ∧ Boundary 0 text place.start ∧
      Boundary 0 text place.stop) ∧
    ((scan text).map span).Pairwise (fun a b => a.start < b.start ∧ a.stop ≤ b.start) ∧
    ∀ offset < byteCount text, Accounted 0 text ((scan text).map span) offset := by
  have hlaid : Laid 0 text ((scan text).map span) := laid_scanFrom 0 text
  refine ⟨?_, ?_, ?_⟩
  · intro place hmem
    exact ⟨(hlaid.bounds hmem).2.1, hlaid.boundaries hmem⟩
  · refine hlaid.ordered.imp_of_mem ?_
    intro a b ha _ hab
    exact ⟨(hlaid.bounds ha).2.1.trans_le hab, hab⟩
  · intro offset hoffset
    exact hlaid.accounted (Nat.zero_le offset) (by rwa [Nat.zero_add])

end QuantumIR.Lexeme
