import QuantumIR.Proofs.Bounded.Total
import QuantumIR.Proofs.Token.Blanked

/-!
Where errors are found. A text that spells no module fails at one of its pieces or at its end, and
at its end if something is missing. The line and the column are those of the text as it was before
its lines of metadata were blanked, but for an end behind a line of metadata that is not ASCII.
-/

namespace QuantumIR

namespace Bounded

/-- A text fails at one of its pieces or at its end, and nothing is missing at a piece. -/
theorem place_of_readText {text : List Char} {fault : Fault}
    (h : Module.readText text = .error fault) :
    (∃ lexeme ∈ Lexeme.scan text, fault.place = some lexeme.span.start ∧
      ∀ expected, fault.cause ≠ .unexpectedEnd expected) ∨ fault.place = none := by
  rw [readText_eq] at h
  rcases collect_eq 0 (Lexeme.scan text) with ⟨placed, hplaced, -⟩ | ⟨piece, span, hmem, hplaced, -⟩
  · rw [hplaced] at h
    have hagree := follows_wholeRow (freePage placed) text 0
    unfold Follows at hagree
    change Except.bind (readTokens text ⟨placed, 0⟩) (fun p => .ok p.1) = _ at h
    change Agree (freePage placed) _ _ (readTokens text ⟨placed, 0⟩) _ at hagree
    generalize readTokens text ⟨placed, 0⟩ = outcome, readOutline _ _ = outcome' at h hagree
    cases hagree with
    | gives _ _ _ => cases h
    | fault place cause hend =>
      cases h
      rw [Page.placeOf]
      cases htoken : (freePage placed).placed[place]? with
      | none => exact .inr rfl
      | some token =>
        have hmem : Lexeme.ofPlaced token ∈ Lexeme.scan text := by
          rw [Lexeme.eq_map_of_placeTokens hplaced]
          exact List.mem_map_of_mem (List.mem_of_getElem? htoken)
        refine .inl ⟨_, hmem, rfl, ?_⟩
        intro expected hcause
        have hlt := (List.getElem?_eq_some_iff.mp htoken).1
        exact absurd (hend expected hcause) (Nat.not_le.mpr hlt)
  · rw [hplaced] at h
    cases h
    exact .inl ⟨_, hmem, rfl, fun _ hcause => by cases hcause⟩

end Bounded

namespace Module

open Text Source

/-- An error has the line and the column of a character that a piece of the blanked text starts at,
and that a piece of the text itself starts at if no piece reaches over the ends of its lines of
metadata; or it has those of the end of the blanked text, which are those of the end of the text
unless its last line is one of metadata with a character of several bytes. It is at the end that
something is missing. -/
theorem position_of_parse {source : String} {error : ParseError}
    (h : parse source = .error error) :
    (∃ n < source.toList.length, error.position = Position.after (source.toList.take n) ∧
      Lexeme.StartsAt (blankMetadata source.toList) n ∧
      (Lexeme.Whole source.toList → Lexeme.StartsAt source.toList n) ∧
      ∀ expected, error.cause ≠ .unexpectedEnd expected) ∨
    error.position = Position.after (blankMetadata source.toList) ∧
      (error.position = Position.after source.toList ↔
        (isMetadata (lastLine source.toList) → ∀ c ∈ lastLine source.toList, c.utf8Size = 1)) := by
  obtain ⟨fault, hfault, rfl⟩ : ∃ fault,
      readText (blankMetadata source.toList) = .error fault ∧
        error = locate (blankMetadata source.toList) fault := by
    rw [parse] at h
    cases hread : readText (blankMetadata source.toList) with
    | ok module =>
      rw [hread] at h
      cases h
    | error fault =>
      rw [hread] at h
      exact ⟨fault, rfl, (Except.error.inj h).symm⟩
  rcases Bounded.place_of_readText hfault with ⟨lexeme, hmem, hplace, hcause⟩ | hplace
  · left
    obtain ⟨c, ⟨front, rest, htext, hstart⟩, hspace⟩ :=
      (Lexeme.laid_scanFrom 0 _).exists_start (List.mem_map_of_mem hmem)
    rw [Nat.zero_add] at hstart
    have hc : (blankMetadata source.toList)[front.length]? = some c := by
      rw [htext, List.getElem?_append_right (Nat.le_refl _), Nat.sub_self]
      rfl
    have htake : (blankMetadata source.toList).take front.length = front := by
      rw [htext, List.take_left]
    have hstarts : Lexeme.StartsAt (blankMetadata source.toList) front.length :=
      ⟨lexeme, hmem, by rw [hstart, htake]⟩
    have hafter := after_take_blankMetadata hc hspace
    rw [htake] at hafter
    refine ⟨front.length, ?_, ?_, hstarts, fun hwhole => Lexeme.startsAt_of_blanked hwhole hstarts,
      hcause⟩
    · have hlength := hstarts.lt_length
      rwa [length_blankMetadata] at hlength
    · rw [← hafter]
      change Position.ofOffset _ (fault.place.getD _) = _
      rw [hplace, Option.getD_some, hstart, htext, Position.ofOffset, takeBytes_append]
  · have hend : (locate (blankMetadata source.toList) fault).position =
        Position.after (blankMetadata source.toList) := by
      change Position.ofOffset _ (fault.place.getD _) = _
      rw [hplace, Option.getD_none, Position.ofOffset]
      have htake := takeBytes_append (blankMetadata source.toList) []
      rw [List.append_nil] at htake
      rw [htake]
    exact .inr ⟨hend, by rw [hend]; exact after_blankMetadata_eq_iff _⟩

/-- A word at the top level, behind a line of metadata with a character of two bytes. -/
def stray : String := "!é\n  ret"

/-- The word is found where it stands in the text. -/
theorem position_stray : ∃ n < stray.toList.length,
    (⟨2, 3⟩ : Position) = Position.after (stray.toList.take n) ∧
      Lexeme.StartsAt stray.toList n := by
  have hparse : parse stray =
      .error ⟨⟨2, 3⟩, .unexpected .topLevel (.token (.keyword .ret))⟩ := by
    decide +kernel
  rcases position_of_parse hparse with ⟨n, hn, hposition, -, hstarts, -⟩ | ⟨hend, -⟩
  · exact ⟨n, hn, hposition, hstarts (by decide +kernel)⟩
  · exact absurd hend (by decide +kernel)

/-- Behind a line of metadata with a character of two bytes, what is missing at the end of the text
is missed one column before its end. -/
theorem position_cut_short :
    parse "define\n!é" = .error ⟨⟨2, 3⟩, .unexpectedEnd .ty⟩ ∧
      Position.after "define\n!é".toList = ⟨2, 4⟩ := by
  decide +kernel

end Module

end QuantumIR
