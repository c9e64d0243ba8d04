import QuantumIR.Proofs.Source.Places
import QuantumIR.Proofs.Token.Order

/-!
The pieces of a blanked text and those of the text itself. A text falls apart at a line break that no
piece reaches over: the pieces before it do not depend on what follows, nor do those behind it on
what comes before. Where this is so at both ends of each line of metadata, blanking takes away the
pieces of these lines and leaves all others.
-/

namespace QuantumIR.Lexeme

open Text Source

/-- A piece starts at a character of a text. -/
def StartsAt (text : List Char) (n : Nat) : Prop :=
  ∃ lexeme ∈ scan text, lexeme.span.start = byteCount (text.take n)

/-- No piece of a text reaches over a line break next to a line of metadata. -/
def Whole (text : List Char) : Prop :=
  ∀ n < text.length, text[n]? = some '\n' →
    isMetadata (lastLine (text.take n)) ∨
      isMetadata ((text.drop (n + 1)).takeWhile (· ≠ '\n')) →
    ∀ lexeme ∈ scan text, ¬(lexeme.span.start ≤ byteCount (text.take n) ∧
      byteCount (text.take n) < lexeme.span.stop)

instance (text : List Char) (n : Nat) : Decidable (StartsAt text n) :=
  inferInstanceAs (Decidable (∃ lexeme ∈ scan text, _ = _))

instance (text : List Char) : Decidable (Whole text) :=
  inferInstanceAs (Decidable (∀ n < text.length, _ → _ → ∀ lexeme ∈ scan text, ¬(_ ∧ _)))

/-- A comment in front of a line break does not depend on what follows that. -/
theorem scanFrom_comment (start : Nat) (front rest : List Char) :
    scanFrom start (';' :: front ++ '\n' :: rest) =
      scanFrom (start + 1 + byteCount (front.takeWhile (· ≠ '\n')))
        (front.drop (front.takeWhile (· ≠ '\n')).length ++ '\n' :: rest) := by
  have hcomment : (front ++ '\n' :: rest).takeWhile (· ≠ '\n') =
      front.takeWhile (· ≠ '\n') := by
    rw [List.takeWhile_append]
    split
    · rename_i hall
      rw [(List.takeWhile_prefix _).eq_of_length hall]
      simp
    · rfl
  rw [List.cons_append, scanFrom, if_neg (by decide), if_pos rfl]
  dsimp only
  rw [hcomment, List.drop_append_of_le_length (List.takeWhile_prefix _).length_le]

/-- A part with no more bytes than the front of a text does not go beyond it. -/
theorem le_length_of_byteCount_take {front : List Char} (c : Char) (rest : List Char) {n : Nat}
    (h : byteCount ((front ++ c :: rest).take n) ≤ byteCount front) : n ≤ front.length := by
  by_contra hn
  obtain ⟨m, rfl⟩ := Nat.exists_eq_add_of_lt (Nat.lt_of_not_le hn)
  have hpos := c.utf8Size_pos
  rw [Nat.add_assoc, List.take_length_add_append, List.take_succ_cons, byteCount_append,
    byteCount] at h
  omega

section First

variable {c : Char} {front rest post : List Char}

/-- A first piece that ends before a line break is the same whatever closed text follows. -/
theorem first_of_closed
    (hlength : (Cut.first c (front ++ '\n' :: rest)).length ≤ front.length + 1)
    (hpost : Closed post) : Cut.first c (front ++ post) = Cut.first c front := by
  have hlocal : ∀ post, Closed post →
      Cut.first c (front ++ post) = Cut.first c (front ++ '\n' :: rest) :=
    fun post hpost => first_local hlength (closed_cons.mpr rfl) (List.cons_ne_nil _ _) hpost
  rw [hlocal post hpost, ← hlocal [] closed_nil, List.append_nil]

/-- So the other pieces are those of what is left of the text. -/
theorem scanFrom_of_closed (hspace : Cut.isSpace c = false) (hcomment : c ≠ ';')
    (hlength : (Cut.first c (front ++ '\n' :: rest)).length ≤ front.length + 1) (start : Nat)
    (hpost : Closed post) : scanFrom start (c :: front ++ post) =
      ofCut (Cut.first c front).token? (c :: front.take ((Cut.first c front).length - 1)) start ::
        scanFrom (start + byteCount (c :: front.take ((Cut.first c front).length - 1)))
          (front.drop ((Cut.first c front).length - 1) ++ post) := by
  have hcut : (Cut.first c front).length - 1 ≤ front.length := by
    rw [first_of_closed hlength (closed_cons.mpr rfl)] at hlength
    omega
  rw [List.cons_append, scanFrom_first hspace hcomment, first_of_closed hlength hpost,
    List.take_append_of_le_length hcut, List.drop_append_of_le_length hcut]

end First

/-- A text is cut up to a line break that no piece reaches over, whatever follows that. -/
theorem scanFrom_append_newline {start : Nat} {front rest : List Char}
    (h : ∀ lexeme ∈ scanFrom start (front ++ '\n' :: rest),
      ¬(lexeme.span.start ≤ start + byteCount front ∧ start + byteCount front < lexeme.span.stop))
    (rest' : List Char) : scanFrom start (front ++ '\n' :: rest') =
      scanFrom start front ++ scanFrom (start + byteCount front + 1) rest' := by
  induction start, front using scanFrom.induct with
  | case1 start =>
    have hbreak : scanFrom start ('\n' :: rest') = scanFrom (start + 1) rest' := by
      rw [scanFrom, if_pos (by decide)]
    rw [List.nil_append, hbreak, scanFrom]
    rfl
  | case2 start c front hspace ih =>
    rw [List.cons_append, scanFrom, if_pos hspace] at h
    rw [List.cons_append, scanFrom, if_pos hspace, scanFrom, if_pos hspace, byteCount,
      utf8Size_of_isSpace hspace, ← Nat.add_assoc]
    apply ih
    rwa [byteCount, utf8Size_of_isSpace hspace, ← Nat.add_assoc] at h
  | case3 start front comment hspace ih =>
    have hwhole : comment ++ front.drop comment.length = front :=
      List.prefix_iff_eq_append.mp (List.takeWhile_prefix _)
    have hcount : start + byteCount (';' :: front) =
        start + 1 + byteCount comment + byteCount (front.drop comment.length) := by
      conv_lhs => rw [← hwhole, byteCount, byteCount_append]
      rw [Nat.add_assoc, Nat.add_assoc]
      rfl
    rw [scanFrom_comment, hcount] at h
    rw [scanFrom_comment, hcount, scanFrom, if_neg hspace, if_pos rfl]
    exact ih h
  | case4 start c front hspace hcomment cut piece stop ih =>
    rw [Bool.not_eq_true] at hspace
    have hlength : (Cut.first c (front ++ '\n' :: rest)).length ≤ front.length + 1 := by
      have hpiece := h _ (by
        rw [List.cons_append, scanFrom_first hspace hcomment]
        exact List.mem_cons_self)
      rw [span_ofCut, byteCount, byteCount] at hpiece
      dsimp only at hpiece
      have hle : (Cut.first c (front ++ '\n' :: rest)).length - 1 ≤ front.length :=
        le_length_of_byteCount_take '\n' rest (by omega)
      omega
    -- the first piece ends before the line break, so it is the same whatever follows
    have hpieces : ∀ post, Closed post → scanFrom start (c :: front ++ post) =
        ofCut cut.token? piece start :: scanFrom stop (front.drop (cut.length - 1) ++ post) :=
      fun post hpost => scanFrom_of_closed hspace hcomment hlength start hpost
    have hcount : start + byteCount (c :: front) =
        stop + byteCount (front.drop (cut.length - 1)) := by
      conv_lhs => rw [← List.take_append_drop (cut.length - 1) front]
      rw [← List.cons_append, byteCount_append, ← Nat.add_assoc]
    have halone := hpieces [] closed_nil
    rw [List.append_nil, List.append_nil] at halone
    rw [hpieces _ (closed_cons.mpr rfl), halone, hcount, List.cons_append, ih]
    rw [hpieces _ (closed_cons.mpr rfl), hcount] at h
    exact fun lexeme hmem => h lexeme (List.mem_cons_of_mem _ hmem)

/-- A text falls apart at a line break. -/
def Splits (front rest : List Char) : Prop :=
  scan (front ++ '\n' :: rest) = scan front ++ (scan rest).map (shift (byteCount front + 1))

theorem splits_of_apart {front rest : List Char}
    (h : ∀ lexeme ∈ scan (front ++ '\n' :: rest),
      ¬(lexeme.span.start ≤ byteCount front ∧ byteCount front < lexeme.span.stop))
    (rest' : List Char) : Splits front rest' := by
  have hscan := @scanFrom_append_newline 0 front rest (by simpa [scan] using h) rest'
  rwa [Nat.zero_add, ← Nat.zero_add (byteCount front + 1), scanFrom_add] at hscan

/-- A row of white space has no pieces. -/
theorem scanFrom_space {front : List Char} (h : ∀ c ∈ front, Cut.isSpace c) (start : Nat)
    (rest : List Char) : scanFrom start (front ++ rest) = scanFrom (start + byteCount front) rest := by
  induction front generalizing start with
  | nil => rfl
  | cons c front ih =>
    rw [List.forall_mem_cons] at h
    rw [List.cons_append, scanFrom, if_pos h.1, ih h.2, byteCount, utf8Size_of_isSpace h.1,
      Nat.add_assoc]

theorem scan_space {front : List Char} (h : ∀ c ∈ front, Cut.isSpace c) : scan front = [] := by
  have hscan := scanFrom_space h 0 []
  rwa [List.append_nil, scanFrom] at hscan

theorem splits_space {front : List Char} (h : ∀ c ∈ front, Cut.isSpace c) (rest : List Char) :
    Splits front rest := by
  have hbreak : ∀ start, scanFrom start ('\n' :: rest) = scanFrom (start + 1) rest := by
    intro start
    rw [scanFrom, if_pos (by decide)]
  rw [Splits, scan_space h, scan, scanFrom_space h, hbreak, List.nil_append, Nat.add_assoc,
    scanFrom_add]
  rfl

theorem byteCount_take_le (text : List Char) (n : Nat) :
    byteCount (text.take n) ≤ byteCount text := by
  conv_rhs => rw [← List.take_append_drop n text, byteCount_append]
  exact Nat.le_add_right _ _

theorem StartsAt.lt_length {text : List Char} {n : Nat} (h : StartsAt text n) :
    n < text.length := by
  obtain ⟨lexeme, hmem, hstart⟩ := h
  by_contra hn
  rw [List.take_of_length_le (Nat.le_of_not_lt hn)] at hstart
  have hbounds := (laid_scanFrom 0 text).bounds (List.mem_map_of_mem hmem)
  omega

/-- Where a text falls apart, its pieces start where those of the two parts do. -/
theorem Splits.startsAt_iff {front rest : List Char} (h : Splits front rest) (n : Nat) :
    StartsAt (front ++ '\n' :: rest) n ↔
      StartsAt front n ∨ ∃ m, n = front.length + 1 + m ∧ StartsAt rest m := by
  have hbehind : ∀ m, byteCount ((front ++ '\n' :: rest).take (front.length + 1 + m)) =
      byteCount (rest.take m) + (byteCount front + 1) := by
    intro m
    rw [Nat.add_assoc, List.take_length_add_append, Nat.add_comm 1, List.take_succ_cons,
      byteCount_append, byteCount]
    have hsize : ('\n' : Char).utf8Size = 1 := rfl
    omega
  unfold StartsAt
  rw [h]
  constructor
  · rintro ⟨lexeme, hmem, hstart⟩
    rcases List.mem_append.mp hmem with hmem | hmem
    · have hbounds := (laid_scanFrom 0 front).bounds (List.mem_map_of_mem hmem)
      have hn : n ≤ front.length := le_length_of_byteCount_take '\n' rest (by omega)
      rw [List.take_append_of_le_length hn] at hstart
      exact .inl ⟨lexeme, hmem, hstart⟩
    · obtain ⟨lexeme, hlexeme, rfl⟩ := List.mem_map.mp hmem
      rw [span_shift] at hstart
      dsimp only at hstart
      obtain ⟨m, rfl⟩ : ∃ m, n = front.length + 1 + m := by
        refine Nat.exists_eq_add_of_le (Nat.lt_of_not_le fun hn => ?_)
        rw [List.take_append_of_le_length hn] at hstart
        have hle := byteCount_take_le front n
        omega
      rw [hbehind] at hstart
      exact .inr ⟨m, rfl, lexeme, hlexeme, Nat.add_right_cancel hstart⟩
  · rintro (⟨lexeme, hmem, hstart⟩ | ⟨m, rfl, lexeme, hmem, hstart⟩)
    · have hn := StartsAt.lt_length ⟨lexeme, hmem, hstart⟩
      refine ⟨lexeme, List.mem_append_left _ hmem, ?_⟩
      rw [hstart, List.take_append_of_le_length (Nat.le_of_lt hn)]
    · refine ⟨lexeme.shift _, List.mem_append_right _ (List.mem_map_of_mem hmem), ?_⟩
      rw [span_shift, hbehind, hstart]

theorem whole_iff (text : List Char) : Whole text ↔
    ∀ front rest, text = front ++ '\n' :: rest →
      isMetadata (lastLine front) ∨ isMetadata (rest.takeWhile (· ≠ '\n')) →
      ∀ lexeme ∈ scan text, ¬(lexeme.span.start ≤ byteCount front ∧
        byteCount front < lexeme.span.stop) := by
  constructor
  · rintro h front rest rfl
    have hbreak : (front ++ '\n' :: rest)[front.length]? = some '\n' := by
      rw [List.getElem?_append_right (Nat.le_refl _), Nat.sub_self]
      rfl
    have happart := h front.length (by simp) hbreak
    rwa [List.take_left, List.drop_append, List.drop_of_length_le (Nat.le_succ _),
      Nat.add_sub_cancel_left, List.nil_append, List.drop_one, List.tail_cons] at happart
  · intro h n hn hbreak
    refine h (text.take n) (text.drop (n + 1)) ?_
    rw [(List.getElem?_eq_some_iff.mp hbreak).2.symm, List.getElem_cons_drop, List.take_append_drop]

theorem Whole.behind {front rest : List Char} (h : Whole (front ++ '\n' :: rest))
    (hsplits : Splits front rest) : Whole rest := by
  rw [whole_iff] at h ⊢
  rintro front' rest' rfl hmeta lexeme hmem ⟨hstart, hstop⟩
  have hshift : lexeme.shift (byteCount front + 1) ∈
      scan (front ++ '\n' :: (front' ++ '\n' :: rest')) := by
    rw [hsplits]
    exact List.mem_append_right _ (List.mem_map_of_mem hmem)
  have hcount : byteCount (front ++ '\n' :: front') =
      byteCount front' + (byteCount front + 1) := by
    have hsize : ('\n' : Char).utf8Size = 1 := rfl
    rw [byteCount_append, byteCount]
    omega
  refine h (front ++ '\n' :: front') rest' (by simp) ?_ _ hshift ?_
  · rwa [lastLine_append]
  · rw [span_shift, hcount]
    dsimp only
    omega

theorem isSpace_of_mem_blankLine {body : List Char} (hmeta : isMetadata body) :
    ∀ c ∈ blankLine body, Cut.isSpace c := by
  rw [blankLine, if_pos hmeta]
  intro c hc
  obtain ⟨d, -, rfl⟩ := List.mem_map.mp hc
  exact (blankChar_space d).2

theorem not_startsAt_blankLine {body : List Char} (hmeta : isMetadata body) (n : Nat) :
    ¬ StartsAt (blankLine body) n := by
  rintro ⟨lexeme, hmem, -⟩
  rw [scan_space (isSpace_of_mem_blankLine hmeta)] at hmem
  cases hmem

/-- If no piece of a text reaches over the ends of its lines of metadata, each piece of the blanked
text is one of the text itself. The text is taken apart at these ends, from the front. -/
theorem startsAt_of_blanked {text : List Char} {n : Nat} (hwhole : Whole text)
    (h : StartsAt (blankMetadata text) n) : StartsAt text n := by
  induction hlength : text.length using Nat.strong_induction_on generalizing text n with
  | _ length ih =>
    rcases calm_or_metadata text with
      hcalm | ⟨body, rest, rfl, hbody, hmeta, rfl | ⟨rest, rfl⟩⟩ | ⟨front, rest, rfl, hcalm, hmeta⟩
    · rwa [blankMetadata_of_calm hcalm] at h
    · rw [List.append_nil, blankMetadata_of_not_mem hbody] at h
      exact absurd h (not_startsAt_blankLine hmeta n)
    · have hsplits : Splits body rest := by
        refine splits_of_apart ((whole_iff _).mp hwhole body rest rfl (.inl ?_)) rest
        rwa [lastLine_of_not_mem hbody]
      have hblank := splits_space (isSpace_of_mem_blankLine hmeta) (blankMetadata rest)
      rw [blankMetadata_cons_line hbody, hblank.startsAt_iff] at h
      rcases h with h | ⟨m, rfl, h⟩
      · exact absurd h (not_startsAt_blankLine hmeta n)
      · rw [length_blankLine]
        refine (hsplits.startsAt_iff _).mpr (.inr ⟨m, rfl, ?_⟩)
        refine ih rest.length ?_ (hwhole.behind hsplits) h rfl
        rw [← hlength, List.length_append, List.length_cons]
        omega
    · have hsplits : ∀ rest', Splits front rest' :=
        splits_of_apart ((whole_iff _).mp hwhole front rest rfl (.inr hmeta))
      rw [blankMetadata_append, blankMetadata_of_calm hcalm, (hsplits _).startsAt_iff] at h
      rw [(hsplits rest).startsAt_iff]
      rcases h with h | ⟨m, rfl, h⟩
      · exact .inl h
      · refine .inr ⟨m, rfl, ?_⟩
        refine ih rest.length ?_ (hwhole.behind (hsplits rest)) h rfl
        rw [← hlength, List.length_append, List.length_cons]
        omega

end QuantumIR.Lexeme
