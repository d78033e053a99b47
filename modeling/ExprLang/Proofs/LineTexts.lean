/-
# The text of a line

Within a text the lookup takes all line feeds and carriage returns off the end of a line,
behind the text only one line break.  Both ways give one text for a line and leave
nothing that a line may end in, except where the text ends in a carriage return that is
part of no line break (`EndsLoose`).  Main statement: `locate_text_eq_iff`.
-/
import ExprLang.Proofs.Lines
import Mathlib.Data.List.Basic

namespace ExprLang

open Text

/-! ## Loose carriage returns -/

namespace Text

variable {cs front line text : List Char}

/-- Whether a text ends in a carriage return that belongs to no line break: the text does
not break behind it, or another carriage return is part of the break. -/
def EndsLoose (cs : List Char) : Prop :=
  ['\r'] <:+ cs ∨ ['\r', '\r', '\n'] <:+ cs

instance (cs : List Char) : Decidable (EndsLoose cs) :=
  inferInstanceAs (Decidable (_ ∨ _))

/-- Whether a text does not end in what a line may end in. -/
def IsTrimmed (cs : List Char) : Prop :=
  ∀ c ∈ cs.getLast?, ¬ IsLineEnd c

theorem getLast?_eq_of_suffix (start : List Char) {c : Char} (h : start ++ [c] <:+ cs) :
    cs.getLast? = some c := by
  obtain ⟨front, rfl⟩ := h
  rw [← List.append_assoc, List.getLast?_concat]

theorem singleton_suffix_iff {c : Char} : [c] <:+ cs ↔ cs.getLast? = some c := by
  refine ⟨getLast?_eq_of_suffix [], fun h => ?_⟩
  obtain ⟨front, rfl⟩ := List.getLast?_eq_some_iff.mp h
  exact List.suffix_append front [c]

/-- A loose carriage return is what a text ends in without its line break. -/
theorem ChompsTo.getLast?_eq_ret_iff (h : ChompsTo '\n' '\r' line text) :
    text.getLast? = some '\r' ↔ EndsLoose line := by
  cases h with
  | both =>
      have hlast : ¬ ['\r'] <:+ text ++ ['\r', '\n'] := fun h => by
        simpa using singleton_suffix_iff.mp h
      have hthree : ['\r', '\r', '\n'] <:+ text ++ ['\r', '\n'] ↔ ['\r'] <:+ text :=
        (@List.suffix_append_inj_of_length_eq _ ['\r'] _ _ _ rfl).trans (and_iff_left rfl)
      rw [EndsLoose, or_iff_right hlast, hthree, singleton_suffix_iff]
  | feed h =>
      have hnot : ¬ EndsLoose (text ++ ['\n']) := by
        rintro (hsuffix | hsuffix)
        · simpa using singleton_suffix_iff.mp hsuffix
        · have htwo :=
            (@List.suffix_append_inj_of_length_eq _ ['\r', '\r'] _ _ _ rfl).mp hsuffix
          exact h (getLast?_eq_of_suffix ['\r'] htwo.1)
      exact iff_of_false h hnot
  | none h =>
      have hnot : ¬ ['\r', '\r', '\n'] <:+ line := fun hsuffix =>
        h (getLast?_eq_of_suffix ['\r', '\r'] hsuffix)
      rw [EndsLoose, or_iff_left hnot, singleton_suffix_iff]

/-- Whether a text ends in one is seen on its last line. -/
theorem endsLoose_append_iff (hfront : ∀ c ∈ front.getLast?, c = '\n') (hne : line ≠ []) :
    EndsLoose (front ++ line) ↔ EndsLoose line := by
  constructor
  · rintro (h | ⟨before, h⟩)
    · rw [singleton_suffix_iff, List.getLast?_append_of_ne_nil _ hne] at h
      exact .inl (singleton_suffix_iff.mpr h)
    · rcases List.append_eq_append_iff.mp h with ⟨between, hinside, hparts⟩ | ⟨rest, -, hline⟩
      · -- the three characters begin with the last line, as no line feed is in front of them
        have hbetween : between = [] := by
          by_contra hbetween
          have hdrop : ['\r', '\r'] = between ++ line.dropLast := by
            rw [← List.dropLast_append_of_ne_nil hne, ← hparts]
            rfl
          have hret : between.getLast hbetween ∈ ['\r', '\r'] := by
            rw [hdrop]
            exact List.mem_append_left _ (List.getLast_mem hbetween)
          have hfeed := hfront (between.getLast hbetween) (by
            rw [hinside, List.getLast?_append_of_ne_nil _ hbetween]
            exact List.getLast?_eq_some_getLast hbetween)
          simp [hfeed] at hret
        rw [hbetween, List.nil_append] at hparts
        exact .inr (hparts ▸ List.suffix_refl _)
      · exact .inr ⟨rest, hline.symm⟩
  · exact Or.imp List.suffix_append_of_suffix List.suffix_append_of_suffix

/-- A line has no line feed but at its end. -/
theorem IsWhole.feed_not_mem_dropLast {back : List Char} (h : IsWhole line back) :
    '\n' ∉ line.dropLast := by
  obtain ⟨content, hfree, hline | ⟨hline, -⟩⟩ := h
  · rwa [hline, List.dropLast_concat]
  · exact fun hmem => hfree (hline ▸ List.dropLast_subset _ hmem)

/-- The text of a line does not end in a line feed. -/
theorem ChompsTo.getLast?_ne_feed (h : ChompsTo '\n' '\r' line text)
    (hfree : '\n' ∉ line.dropLast) : text.getLast? ≠ some '\n' := by
  cases h with
  | both =>
      intro hlast
      apply hfree
      rw [List.dropLast_append_of_ne_nil (List.cons_ne_nil _ _)]
      exact List.mem_append_left _ (List.mem_of_getLast? hlast)
  | feed h =>
      intro hlast
      apply hfree
      rw [List.dropLast_concat]
      exact List.mem_of_getLast? hlast
  | none h => exact h

/-- The text of a line is trimmed, if the line does not end in a loose carriage return. -/
theorem IsWhole.trimLineEnds_eq {back : List Char} (h : IsWhole line back)
    (hnot : ¬ EndsLoose line) : trimLineEnds line = withoutEnd '\n' '\r' line := by
  have hchomps : ChompsTo '\n' '\r' line (withoutEnd '\n' '\r' line) := chompsTo_iff.mpr rfl
  obtain ⟨tail, hline, htail⟩ := exists_eq_withoutEnd_append line
  refine (trimsTo_iff.mp ⟨⟨tail, hline, htail⟩, fun c hc => ⟨?_, ?_⟩⟩).symm
  · rintro rfl
    exact hchomps.getLast?_ne_feed h.feed_not_mem_dropLast hc
  · rintro rfl
    exact hnot (hchomps.getLast?_eq_ret_iff.mp hc)

end Text

/-! ## The lines of a source -/

/-- Within the lines a position is on one of them, which is trimmed. -/
theorem Location.exists_getElem?_of_within {number position : Nat} {lines : List (List Char)}
    {place : Location} (h : within number position lines = some place) :
    ∃ i line, lines[i]? = some line ∧ place.line = number + i ∧
      place.text = String.ofList (trimLineEnds line) := by
  induction lines generalizing number position with
  | nil => cases h
  | cons line rest ih =>
      rw [within] at h
      split at h
      · rw [← Option.some.inj h]
        exact ⟨0, line, rfl, rfl, rfl⟩
      · obtain ⟨i, other, hget, hnumber, htext⟩ := ih h
        exact ⟨i + 1, other, hget, by omega, htext⟩

variable {source : String} {position : Nat}

/-- Within the source a position is on one of its lines, which is trimmed. -/
theorem exists_line_of_lt (h : position < byteLength source.toList) :
    ∃ i line, (Location.lines source)[i]? = some line ∧ (locate source position).line = i + 1 ∧
      (locate source position).text = String.ofList (trimLineEnds line) := by
  have hsome : (Location.within 1 position (Location.lines source)).isSome := by
    rwa [Location.within_isSome_iff, Location.lines, flatten_cutAfter]
  obtain ⟨place, hplace⟩ := Option.isSome_iff_exists.mp hsome
  obtain ⟨i, line, hget, hnumber, htext⟩ := Location.exists_getElem?_of_within hplace
  have hlocate : locate source position = place := by
    rw [locate, hplace]
    rfl
  rw [hlocate]
  exact ⟨i, line, hget, by omega, htext⟩

/-- Behind the source a position is on its last line, which has its line break taken off. -/
theorem exists_line_of_le (hne : source.toList ≠ []) (h : byteLength source.toList ≤ position) :
    ∃ i line, (Location.lines source)[i]? = some line ∧ (locate source position).line = i + 1 ∧
      (locate source position).text = String.ofList (withoutEnd '\n' '\r' line) ∧
      IsWhole line [] ∧ (EndsLoose source.toList ↔ EndsLoose line) := by
  have hcut := cut_cutAfter (fun c => decide (c = '\n')) source.toList
  obtain ⟨l, hlast, -, -⟩ := hcut.exists_getLast?_eq hne h
  have hback := (l.place_of_le h).1
  have htext : source.toList = l.front ++ l.line := by
    simpa [hback] using l.text
  have hline : l.line ≠ [] := fun hnil =>
    nil_not_mem_cutAfter _ source.toList (hnil ▸ List.mem_of_getLast? hlast)
  have hpos : 0 < (Location.lines source).length :=
    List.length_pos_of_mem (List.mem_of_getLast? hlast)
  have hget : (Location.lines source)[(Location.lines source).length - 1]? = some l.line := by
    rw [← List.getLast?_eq_getElem?]
    exact hlast
  refine ⟨(Location.lines source).length - 1, l.line, hget, ?_, ?_, hback ▸ l.ends, ?_⟩
  · rw [locate_of_byteLength_le h]
    show max (Location.lines source).length 1 = _
    omega
  · rw [locate_of_byteLength_le h, Location.atEnd, Location.lines, hlast]
    rfl
  · rw [← endsLoose_append_iff l.begins hline, ← htext]

/-! ## Both ways compared -/

/-- The text of a line is trimmed, unless it is looked up behind a loose carriage return. -/
theorem exists_line_of_not_endsLoose (hne : source.toList ≠ [])
    (h : byteLength source.toList ≤ position → ¬ EndsLoose source.toList) :
    ∃ i line, (Location.lines source)[i]? = some line ∧ (locate source position).line = i + 1 ∧
      (locate source position).text = String.ofList (trimLineEnds line) := by
  rcases Nat.lt_or_ge position (byteLength source.toList) with hlt | hle
  · exact exists_line_of_lt hlt
  · obtain ⟨i, line, hget, hnumber, htext, hwhole, hloose⟩ := exists_line_of_le hne hle
    have hsame := hwhole.trimLineEnds_eq (mt hloose.mpr (h hle))
    exact ⟨i, line, hget, hnumber, by rw [htext, hsame]⟩

/-- There it ends in the carriage return. -/
theorem getLast?_text_of_endsLoose (h : byteLength source.toList ≤ position)
    (hloose : EndsLoose source.toList) :
    (locate source position).text.toList.getLast? = some '\r' := by
  have hne : source.toList ≠ [] := by
    intro hnil
    rw [hnil] at hloose
    revert hloose
    decide
  obtain ⟨i, line, -, -, htext, -, hiff⟩ := exists_line_of_le hne h
  rw [htext, String.toList_ofList]
  exact (chompsTo_iff.mpr rfl).getLast?_eq_ret_iff.mpr (hiff.mp hloose)

/-- The empty source has no text. -/
theorem locate_text_of_nil (hnil : source.toList = []) (position : Nat) :
    (locate source position).text = "" := by
  have hle : byteLength source.toList ≤ position := by
    rw [hnil]
    exact Nat.zero_le _
  rw [locate_of_byteLength_le hle, Location.atEnd, Location.lines, hnil]
  simp [withoutEnd]

/-- **Two positions on one line have one text**, which does not end in what a line may end
in, exactly if none of them is behind a source that ends in a loose carriage return. -/
theorem locate_text_eq_iff {source : String} {p q : Nat}
    (h : (locate source p).line = (locate source q).line) :
    ((locate source p).text = (locate source q).text ∧
        IsTrimmed (locate source p).text.toList) ↔
      (byteLength source.toList ≤ p ∨ byteLength source.toList ≤ q →
        ¬ EndsLoose source.toList) := by
  constructor
  · rintro ⟨hsame, htrimmed⟩ hbehind hloose
    have hlast : (locate source p).text.toList.getLast? = some '\r' := by
      rcases hbehind with hle | hle
      · exact getLast?_text_of_endsLoose hle hloose
      · rw [hsame]
        exact getLast?_text_of_endsLoose hle hloose
    exact htrimmed _ hlast (.inr rfl)
  · intro hnot
    by_cases hnil : source.toList = []
    · rw [locate_text_of_nil hnil, locate_text_of_nil hnil]
      exact ⟨rfl, by simp [IsTrimmed]⟩
    · obtain ⟨i, line, hget, hnumber, htext⟩ :=
        exists_line_of_not_endsLoose hnil fun hle => hnot (.inl hle)
      obtain ⟨j, other, hget', hnumber', htext'⟩ :=
        exists_line_of_not_endsLoose hnil fun hle => hnot (.inr hle)
      obtain rfl : i = j := by omega
      obtain rfl : line = other := Option.some.inj (hget.symm.trans hget')
      refine ⟨by rw [htext, htext'], fun c hc => ?_⟩
      rw [htext, String.toList_ofList] at hc
      exact not_or.mpr ((trimsTo_iff.mpr rfl).last c hc)

/-- Both ways to look up the second line of a source that ends in a line break. -/
theorem locate_text_eq_crlf :
    (locate "x\ny\r\n" 2).line = (locate "x\ny\r\n" 9).line ∧
      (((locate "x\ny\r\n" 2).text = (locate "x\ny\r\n" 9).text ∧
          IsTrimmed (locate "x\ny\r\n" 2).text.toList) ↔
        (byteLength "x\ny\r\n".toList ≤ 2 ∨ byteLength "x\ny\r\n".toList ≤ 9 →
          ¬ EndsLoose "x\ny\r\n".toList)) :=
  ⟨by decide +kernel, locate_text_eq_iff (by decide +kernel)⟩

/-- Behind a loose carriage return the text of the line is another one. -/
theorem locate_text_ne_loose :
    locate "a\r\r\n" 0 = ⟨1, "a", 0⟩ ∧ locate "a\r\r\n" 4 = ⟨1, "a\r", 2⟩ := by
  decide +kernel

end ExprLang
