/-
# The line of a position

Where a byte position of a text is, said without the lookup: a line of the text, with
what is in front of it and behind it, and a column of the line (`LineAt`).  A text is
cut behind its line feeds, and the lookup runs through the pieces; both are followed by
induction on the cut (`Cut`).  What a line ends in is said as a relation of the line to
its text (`ChompsTo`, `TrimsTo`).  Main statement: `exists_locate_eq` (the lookup finds
such a line and its column).
-/
import ExprLang.Diagnostic.Location
import Mathlib.Data.List.TakeWhile

namespace ExprLang

namespace Text

/-! ## Cuts -/

section Cut

variable {α : Type} {ends : α → Bool}

/-- A list and its pieces.  Each piece has one element with the property, at its end;
only the last piece may be without. -/
inductive Cut (ends : α → Bool) : List α → List (List α) → Prop where
  | nil : Cut ends [] []
  | last {xs : List α} (hne : xs ≠ []) (hfree : ∀ x ∈ xs, ends x = false) : Cut ends xs [xs]
  | cons {body rest : List α} {x : α} {pieces : List (List α)} (hfree : ∀ y ∈ body, ends y = false)
      (hends : ends x = true) (hrest : Cut ends rest pieces) :
      Cut ends (body ++ x :: rest) ((body ++ [x]) :: pieces)

/-- The cut behind every element with a property is one. -/
theorem cut_cutAfter (ends : α → Bool) (xs : List α) : Cut ends xs (cutAfter ends xs) := by
  induction xs with
  | nil =>
      rw [cutAfter_nil]
      exact .nil
  | cons x xs ih =>
      rw [cutAfter_cons]
      cases hx : ends x with
      | true => exact .cons (List.forall_mem_nil _) hx ih
      | false =>
          rw [if_neg (by simp)]
          -- the element opens the first piece of the rest, whatever that is
          generalize cutAfter ends xs = pieces at ih
          cases ih with
          | nil => exact .last (List.cons_ne_nil x []) (by simpa using hx)
          | last hne hfree =>
              exact .last (List.cons_ne_nil x xs) (List.forall_mem_cons.mpr ⟨hx, hfree⟩)
          | cons hfree hends hrest =>
              exact .cons (List.forall_mem_cons.mpr ⟨hx, hfree⟩) hends hrest

/-- Nothing has no pieces. -/
theorem Cut.pieces_eq_nil {xs : List α} {pieces : List (List α)} (h : Cut ends xs pieces)
    (hxs : xs = []) : pieces = [] := by
  cases h with
  | nil => rfl
  | last hne hfree => exact absurd hxs hne
  | cons hfree hends hrest => simp at hxs

/-- Behind an element with the property the list can be cut apart. -/
theorem Cut.append {xs ys : List α} {pieces further : List (List α)} (hxs : Cut ends xs pieces)
    (hlast : ∀ x ∈ xs.getLast?, ends x = true) (hys : Cut ends ys further) :
    Cut ends (xs ++ ys) (pieces ++ further) := by
  induction hxs with
  | nil => exact hys
  | @last xs hne hfree =>
      have hmem := List.getLast_mem hne
      have hends := hlast _ (List.getLast?_eq_some_getLast hne)
      rw [hfree _ hmem] at hends
      exact absurd hends Bool.false_ne_true
  | @cons body rest x pieces hfree hends hrest ih =>
      rw [List.append_assoc, List.cons_append, List.cons_append]
      refine .cons hfree hends (ih fun y hy => hlast y ?_)
      rw [List.getLast?_append, List.getLast?_cons, Option.mem_def.mp hy]
      rfl

end Cut

/-! ## Line ends -/

section LineEnds

variable {α : Type} {feed ret : α} {line text : List α}

/-- A line and its text without a line break.  The line breaks in a line feed, with or
without a carriage return before it, or it does not break. -/
inductive ChompsTo (feed ret : α) : List α → List α → Prop where
  | both {text : List α} : ChompsTo feed ret (text ++ [ret, feed]) text
  | feed {text : List α} (h : text.getLast? ≠ some ret) : ChompsTo feed ret (text ++ [feed]) text
  | none {text : List α} (h : text.getLast? ≠ some feed) : ChompsTo feed ret text text

/-- A line has one text, the one that is left without its end. -/
theorem chompsTo_iff [DecidableEq α] :
    ChompsTo feed ret line text ↔ text = withoutEnd feed ret line := by
  constructor
  · intro h
    cases h with
    | both => simp [withoutEnd]
    | feed h => simp [withoutEnd, h]
    | none h => rw [withoutEnd_of_getLast?_ne h]
  · rintro rfl
    rw [withoutEnd]
    split
    · next hfeed =>
        obtain ⟨body, rfl⟩ := List.getLast?_eq_some_iff.mp hfeed
        rw [List.dropLast_concat]
        split
        · next hret =>
            obtain ⟨body, rfl⟩ := List.getLast?_eq_some_iff.mp hret
            rw [List.dropLast_concat, List.append_assoc]
            exact .both
        · next hret => exact .feed hret
    · next hfeed => exact .none hfeed

/-- A line and its text without any line feeds and carriage returns at its end. -/
structure TrimsTo (feed ret : α) (line text : List α) : Prop where
  exists_tail : ∃ tail, line = text ++ tail ∧ ∀ x ∈ tail, x = feed ∨ x = ret
  last : ∀ x ∈ text.getLast?, x ≠ feed ∧ x ≠ ret

end LineEnds

/-- Whether a character is one of those that a line may end in. -/
def IsLineEnd (c : Char) : Prop :=
  c = '\n' ∨ c = '\r'

/-- A line is trimmed in one way. -/
theorem trimsTo_iff {line text : List Char} :
    TrimsTo '\n' '\r' line text ↔ text = trimLineEnds line := by
  constructor
  · rintro ⟨⟨tail, rfl, htail⟩, hlast⟩
    have htail : ∀ c ∈ tail.reverse, (c = '\n' || c = '\r') = true := fun c hc => by
      simpa using htail c (List.mem_reverse.mp hc)
    have hhead : ∀ c ∈ text.reverse.head?, (c = '\n' || c = '\r') = false := fun c hc => by
      simpa using hlast c (List.head?_reverse ▸ hc)
    rw [trimLineEnds, List.reverse_append, List.dropWhile_append_of_pos htail]
    cases htext : text.reverse with
    | nil => simpa using htext
    | cons c rest =>
        have hc := hhead c (by simp [htext])
        rw [List.dropWhile_cons_of_neg (by simpa using hc), ← htext, List.reverse_reverse]
  · rintro rfl
    refine ⟨⟨(line.reverse.takeWhile fun c => c = '\n' || c = '\r').reverse, ?_, fun c hc => ?_⟩,
      fun c hc => ?_⟩
    · rw [trimLineEnds, ← List.reverse_append, List.takeWhile_append_dropWhile,
        List.reverse_reverse]
    · have hend := List.mem_takeWhile_imp (List.mem_reverse.mp hc)
      simpa using hend
    · rw [trimLineEnds, List.getLast?_reverse] at hc
      have hhead := List.head?_dropWhile_not (fun c => c = '\n' || c = '\r') line.reverse
      rw [Option.mem_def.mp hc] at hhead
      simpa using hhead

/-- Only line feeds and carriage returns are trimmed off the end of a line. -/
theorem exists_eq_trimLineEnds_append (line : List Char) :
    ∃ tail, line = trimLineEnds line ++ tail ∧ ∀ c ∈ tail, IsLineEnd c :=
  (trimsTo_iff.mpr rfl).exists_tail

/-- Only a line feed, and a carriage return before it, are taken off as the end of a line. -/
theorem exists_eq_withoutEnd_append (line : List Char) :
    ∃ tail, line = withoutEnd '\n' '\r' line ++ tail ∧ ∀ c ∈ tail, IsLineEnd c := by
  generalize htext : withoutEnd '\n' '\r' line = text
  cases chompsTo_iff.mpr htext.symm with
  | both => exact ⟨['\r', '\n'], rfl, by simp [IsLineEnd]⟩
  | feed h => exact ⟨['\n'], rfl, by simp [IsLineEnd]⟩
  | none h => exact ⟨[], (List.append_nil _).symm, List.forall_mem_nil _⟩

/-- Texts in front of their first line feeds are determined by the whole. -/
theorem eq_of_append_feed_eq {xs ys us vs : List Char} (hxs : '\n' ∉ xs) (hys : '\n' ∉ ys)
    (h : xs ++ '\n' :: us = ys ++ '\n' :: vs) : xs = ys := by
  have htake : ∀ {zs ws : List Char}, '\n' ∉ zs →
      (zs ++ '\n' :: ws).takeWhile (· ≠ '\n') = zs := by
    intro zs ws hzs
    rw [List.takeWhile_append_of_pos fun c hc => by
      simpa using fun heq : c = '\n' => hzs (heq ▸ hc)]
    simp
  rw [← htake hxs, h, htake hys]

/-! ## Places in a text -/

/-- Whether a line ends where it may: in its only line feed, or without one where
nothing is behind it. -/
def IsWhole (line back : List Char) : Prop :=
  ∃ content, '\n' ∉ content ∧
    (line = content ++ ['\n'] ∨ line = content ∧ content ≠ [] ∧ back = [])

/-- A byte position of a text as a column of one of its lines.  A position from the end
of the text on is at the end of the last line, in front of what ends it. -/
structure LineAt (cs : List Char) (position : Nat) : Type where
  /-- The lines in front. -/
  front : List Char
  /-- The line, with what ends it. -/
  line : List Char
  /-- The lines behind. -/
  back : List Char
  /-- The column, in bytes. -/
  column : Nat
  text : cs = front ++ (line ++ back)
  begins : ∀ c ∈ front.getLast?, c = '\n'
  ends : IsWhole line back
  place : (position = byteLength front + column ∧ column < byteLength line) ∨
    (byteLength cs ≤ position ∧ back = [] ∧ column = byteLength (withoutEnd '\n' '\r' line))

namespace LineAt

variable {cs line back : List Char} {position : Nat}

/-- The number of the line, counted from one. -/
def number (l : LineAt cs position) : Nat :=
  l.front.count '\n' + 1

/-- The line as the lookup gives it.  Within the text all line feeds and carriage
returns are taken off its end, behind the text only one of each. -/
def content (l : LineAt cs position) : List Char :=
  if position < byteLength cs then trimLineEnds l.line else withoutEnd '\n' '\r' l.line

/-- A position within the text is in its line. -/
theorem place_of_lt (l : LineAt cs position) (h : position < byteLength cs) :
    position = byteLength l.front + l.column ∧ l.column < byteLength l.line := by
  rcases l.place with hplace | ⟨hle, -⟩
  · exact hplace
  · omega

/-- A position behind the text is at the end of the last line. -/
theorem place_of_le (l : LineAt cs position) (h : byteLength cs ≤ position) :
    l.back = [] ∧ l.column = byteLength (withoutEnd '\n' '\r' l.line) := by
  rcases l.place with ⟨hposition, hlt⟩ | ⟨-, hplace⟩
  · have hsize := congrArg byteLength l.text
    rw [byteLength_append, byteLength_append] at hsize
    omega
  · exact hplace

/-- Only line feeds and carriage returns are missing from the line. -/
theorem exists_line_eq (l : LineAt cs position) :
    ∃ tail, l.line = l.content ++ tail ∧ ∀ c ∈ tail, IsLineEnd c := by
  rw [content]
  split
  · exact exists_eq_trimLineEnds_append l.line
  · exact exists_eq_withoutEnd_append l.line

/-- A position in the first line. -/
def first (text : cs = line ++ back) (ends : IsWhole line back)
    (hlt : position < byteLength line) : LineAt cs position where
  front := []
  line := line
  back := back
  column := position
  text := text
  begins := by simp
  ends := ends
  place := .inl ⟨(Nat.zero_add position).symm, hlt⟩

/-- A position in the first of several lines is in no other one. -/
theorem line_eq_of_le {body more : List Char} (l : LineAt cs position)
    (hcs : cs = body ++ '\n' :: more) (hbody : '\n' ∉ body) (hle : position ≤ byteLength body) :
    l.line = body ++ ['\n'] ∧ l.column = position := by
  have hfeed : ('\n' : Char).utf8Size = 1 := rfl
  have hlt : position < byteLength cs := by
    rw [hcs, byteLength_append, byteLength_cons, hfeed]
    omega
  obtain ⟨hplace, -⟩ := l.place_of_lt hlt
  have htext := hcs.symm.trans l.text
  -- a line in front would have this one in front of its line feed
  have hfront : l.front = [] := by
    by_contra hne
    have hmem := List.getLast_mem hne
    rw [l.begins _ (List.getLast?_eq_some_getLast hne)] at hmem
    obtain ⟨xs, us, hxs, hnot⟩ := List.eq_append_cons_of_mem hmem
    rw [hxs, List.append_assoc, List.cons_append] at htext
    rw [hxs, ← eq_of_append_feed_eq hbody hnot htext, byteLength_append, byteLength_cons,
      hfeed] at hplace
    omega
  rw [hfront, List.nil_append] at htext
  rw [hfront, byteLength_nil, Nat.zero_add] at hplace
  refine ⟨?_, hplace.symm⟩
  obtain ⟨content, hcontent, hline | ⟨hline, -, hback⟩⟩ := l.ends
  · rw [hline, List.append_assoc, List.singleton_append] at htext
    rw [hline, eq_of_append_feed_eq hbody hcontent htext]
  · rw [hline, hback, List.append_nil] at htext
    exact absurd (htext ▸ by simp) hcontent

/-- A position at the end of a text of one line. -/
def only (ends : IsWhole cs []) (hle : byteLength cs ≤ position) : LineAt cs position where
  front := []
  line := cs
  back := []
  column := byteLength (withoutEnd '\n' '\r' cs)
  text := (List.append_nil cs).symm
  begins := by simp
  ends := ends
  place := .inr ⟨hle, rfl, rfl⟩

/-- A position behind a further line. -/
def behind (l : LineAt cs position) (body : List Char) :
    LineAt (body ++ '\n' :: cs) (byteLength (body ++ ['\n']) + position) where
  front := body ++ '\n' :: l.front
  line := l.line
  back := l.back
  column := l.column
  text := by rw [List.append_assoc, List.cons_append, ← l.text]
  begins := by
    intro c hc
    rw [List.getLast?_append, List.getLast?_cons] at hc
    cases hfront : l.front.getLast? with
    | none => simpa [hfront, eq_comm] using hc
    | some d => simpa [hfront, l.begins d hfront, eq_comm] using hc
  ends := l.ends
  place := by
    have hplace := l.place
    simp only [byteLength_append, byteLength_cons, byteLength_nil] at hplace ⊢
    rcases hplace with ⟨hposition, hlt⟩ | ⟨hle, hback, hcolumn⟩
    · exact .inl ⟨by omega, hlt⟩
    · exact .inr ⟨by omega, hback, hcolumn⟩

theorem number_behind (l : LineAt cs position) {body : List Char} (hbody : '\n' ∉ body) :
    (l.behind body).number = l.number + 1 := by
  show (body ++ '\n' :: l.front).count '\n' + 1 = l.front.count '\n' + 1 + 1
  rw [List.count_append, List.count_eq_zero_of_not_mem hbody, List.count_cons_self, Nat.zero_add]

end LineAt

/-! ## Cuts at line feeds -/

variable {cs : List Char} {lines : List (List Char)} {position : Nat}

/-- An element that is no line feed, as the cut says it. -/
theorem feed_not_mem {body : List Char} (h : ∀ c ∈ body, decide (c = '\n') = false) :
    '\n' ∉ body :=
  fun hmem => by simpa using h '\n' hmem

/-- The lookup finds a position within the text in its line. -/
theorem Cut.exists_within_eq (hcut : Cut (· = '\n') cs lines) (h : position < byteLength cs)
    (number : Nat) :
    ∃ l : LineAt cs position, Location.within (number + 1) position lines =
      some ⟨number + l.number, String.ofList (trimLineEnds l.line), l.column⟩ := by
  induction hcut generalizing number position with
  | nil => exact absurd h (Nat.not_lt_zero _)
  | @last xs hne hfree =>
      have hwhole : IsWhole xs [] := ⟨xs, feed_not_mem hfree, .inr ⟨rfl, hne, rfl⟩⟩
      refine ⟨.first (List.append_nil xs).symm hwhole h, ?_⟩
      rw [Location.within, if_pos h]
      rfl
  | @cons body rest x pieces hfree hends hrest ih =>
      obtain rfl : x = '\n' := by simpa using hends
      have hbody := feed_not_mem hfree
      rcases Nat.lt_or_ge position (byteLength (body ++ ['\n'])) with hlt | hge
      · refine ⟨.first (List.append_cons body '\n' rest) ⟨body, hbody, .inl rfl⟩ hlt, ?_⟩
        rw [Location.within, if_pos hlt]
        rfl
      · obtain ⟨further, rfl⟩ := Nat.exists_eq_add_of_le hge
        have hfurther : further < byteLength rest := by
          simp only [byteLength_append, byteLength_cons, byteLength_nil] at h
          omega
        obtain ⟨l, hl⟩ := ih hfurther (number + 1)
        refine ⟨l.behind body, ?_⟩
        rw [Location.within, if_neg (by omega), Nat.add_sub_cancel_left, hl,
          l.number_behind hbody, Nat.add_right_comm, Nat.add_assoc]
        rfl

/-- The last piece is the line of every position behind the text, and the pieces are
as many as its number. -/
theorem Cut.exists_getLast?_eq (hcut : Cut (· = '\n') cs lines) (hne : cs ≠ [])
    (h : byteLength cs ≤ position) :
    ∃ l : LineAt cs position, lines.getLast? = some l.line ∧ lines.length = l.number ∧
      l.column = byteLength (withoutEnd '\n' '\r' l.line) := by
  induction hcut generalizing position with
  | nil => exact absurd rfl hne
  | @last xs hne hfree =>
      have hwhole : IsWhole xs [] := ⟨xs, feed_not_mem hfree, .inr ⟨rfl, hne, rfl⟩⟩
      exact ⟨.only hwhole h, rfl, rfl, rfl⟩
  | @cons body rest x pieces hfree hends hrest ih =>
      obtain rfl : x = '\n' := by simpa using hends
      have hbody := feed_not_mem hfree
      by_cases hempty : rest = []
      · rw [hrest.pieces_eq_nil hempty]
        subst hempty
        exact ⟨.only ⟨body, hbody, .inl rfl⟩ h, rfl, rfl, rfl⟩
      · have hsize : byteLength (body ++ '\n' :: rest) =
            byteLength (body ++ ['\n']) + byteLength rest := by
          simp [Nat.add_assoc]
        have hle : byteLength (body ++ ['\n']) ≤ position := by omega
        obtain ⟨further, rfl⟩ := Nat.exists_eq_add_of_le hle
        obtain ⟨l, hlast, hnumber, hcolumn⟩ := ih hempty (by omega : byteLength rest ≤ further)
        refine ⟨l.behind body, ?_, ?_, hcolumn⟩
        · rw [List.getLast?_cons, hlast]
          rfl
        · rw [List.length_cons, hnumber, l.number_behind hbody]

end Text

open Text

/-! ## The lookup -/

/-- **The lookup finds the line of a position** in every source that is not empty: its
number, its content and the column. -/
theorem exists_locate_eq {source : String} (h : source.toList ≠ []) (position : Nat) :
    ∃ l : LineAt source.toList position,
      locate source position = ⟨l.number, String.ofList l.content, l.column⟩ := by
  have hcut := cut_cutAfter (fun c => decide (c = '\n')) source.toList
  rcases Nat.lt_or_ge position (byteLength source.toList) with hlt | hge
  · obtain ⟨l, hl⟩ := hcut.exists_within_eq hlt 0
    refine ⟨l, ?_⟩
    rw [locate, Location.lines, hl, LineAt.content, if_pos hlt, Nat.zero_add]
    rfl
  · obtain ⟨l, hlast, hnumber, hcolumn⟩ := hcut.exists_getLast?_eq h hge
    refine ⟨l, ?_⟩
    have hpos : 1 ≤ l.number := Nat.le_add_left 1 _
    rw [locate_of_byteLength_le hge, Location.lines, Location.atEnd, hlast, hnumber, hcolumn,
      LineAt.content, if_neg (by omega), Nat.max_eq_left hpos, Option.getD_some]

end ExprLang
