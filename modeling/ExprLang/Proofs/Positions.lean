/-
# Positions among the bytes

The place of a position, told by the bytes of the source alone.  The line feeds in front
of the position number its line; the last of them is where the line begins
(`IsLineStart`), and the next one is where it stops (`IsLineStop`).  Further positions
have further places (`Location.IsAt.lex_lt`).  Main statement: `locate_by_bytes`.
-/
import ExprLang.Proofs.ByteView
import ExprLang.Proofs.Lines

namespace ExprLang

open Text

/-! ## Where a line is -/

/-- The line of a position begins behind the last line feed in front of the position, or
with the first byte. -/
structure IsLineStart (bs : List UInt8) (position start : Nat) : Prop where
  le : start ≤ position
  begins : ∀ b ∈ (bs.take start).getLast?, b = 10
  free : 10 ∉ bs.extract start position

/-- The line of a position stops in front of the first line feed from the position on, or
behind the last byte. -/
structure IsLineStop (bs : List UInt8) (position stop : Nat) : Prop where
  le : position ≤ stop
  le_length : stop ≤ bs.length
  ends : ∀ b ∈ (bs.drop stop).head?, b = 10
  free : 10 ∉ bs.extract position stop

namespace Location

/-- The place of a position within the bytes of a text: the number of the line counts the
line feeds in front of the position, the column counts from the start of the line, and the
text is that of the line. -/
structure IsAt (place : Location) (bs : List UInt8) (position : Nat) : Prop where
  line_eq : place.line = (bs.take position).count 10 + 1
  exists_bounds : ∃ start stop, IsLineStart bs position start ∧ IsLineStop bs position stop ∧
    place.column = position - start ∧
    TrimsTo 10 13 (bs.extract start stop) (bytes place.text.toList)

/-- The place at the end of the bytes of a text: behind the text of the line that the last
byte is in. -/
structure IsAtEnd (place : Location) (bs : List UInt8) : Prop where
  line_eq : place.line = bs.dropLast.count 10 + 1
  exists_start : ∃ start, IsLineStart bs (bs.length - 1) start ∧
    ChompsTo 10 13 (bs.drop start) (bytes place.text.toList)
  column_eq : place.column = (bytes place.text.toList).length

end Location

/-! ## The order of places -/

section Order

variable {bs : List UInt8} {p q start stop : Nat}

/-- A list up to a place is the list up to an earlier place and what is between them. -/
theorem take_append_extract (bs : List UInt8) (h : p ≤ q) :
    bs.take p ++ bs.extract p q = bs.take q := by
  obtain ⟨k, rfl⟩ := Nat.exists_eq_add_of_le h
  rw [List.extract, Nat.add_sub_cancel_left, ← List.take_add]

/-- If a line begins between two places, there is a line feed between them. -/
theorem feed_mem_extract (hbegins : ∀ b ∈ (bs.take q).getLast?, b = 10) (hlt : p < q)
    (hle : q ≤ bs.length) : 10 ∈ bs.extract p q := by
  have hne : bs.extract p q ≠ [] := by
    apply List.ne_nil_of_length_pos
    rw [List.extract, List.length_take, List.length_drop]
    omega
  have hlast := List.getLast?_eq_some_getLast hne
  have htake : (bs.take q).getLast? = (bs.extract p q).getLast? := by
    rw [← take_append_extract bs (Nat.le_of_lt hlt), List.getLast?_append_of_ne_nil _ hne]
  have hfeed := hbegins _ (htake.trans hlast)
  rw [← hfeed]
  exact List.getLast_mem hne

/-- What is between two places is between places further apart. -/
theorem extract_subset (bs : List UInt8) {a b : Nat} (ha : a ≤ p) (hq : q ≤ b) :
    bs.extract p q ⊆ bs.extract a b := by
  intro x hx
  rw [List.mem_iff_getElem?] at hx ⊢
  obtain ⟨i, hi⟩ := hx
  rw [List.extract, List.getElem?_take] at hi
  split at hi
  · next hlt =>
      rw [List.getElem?_drop] at hi
      refine ⟨p - a + i, ?_⟩
      rw [List.extract, List.getElem?_take, if_pos (by omega), List.getElem?_drop, ← hi]
      congr 1
      omega
  · cases hi

/-- The line of a position begins at one place only. -/
theorem IsLineStart.unique (h : IsLineStart bs p start) (h' : IsLineStart bs p stop)
    (hp : p ≤ bs.length) : start = stop := by
  have hle := h.le
  have hle' := h'.le
  rcases Nat.lt_trichotomy start stop with hlt | heq | hlt
  · have hmem := feed_mem_extract h'.begins hlt (by omega)
    exact absurd (extract_subset bs (Nat.le_refl _) hle' hmem) h.free
  · exact heq
  · have hmem := feed_mem_extract h.begins hlt (by omega)
    exact absurd (extract_subset bs (Nat.le_refl _) hle hmem) h'.free

/-- **Further positions have further places**, by their lines and on one line by their
columns. -/
theorem Location.IsAt.lex_lt {place further : Location} (hp : place.IsAt bs p)
    (hq : further.IsAt bs q) (hlt : p < q) (hle : q ≤ bs.length) :
    Prod.Lex (· < ·) (· < ·) (place.line, place.column) (further.line, further.column) := by
  obtain ⟨start, -, hstart, -, hcolumn, -⟩ := hp.exists_bounds
  obtain ⟨start', -, hstart', -, hcolumn', -⟩ := hq.exists_bounds
  have hcount : (bs.take q).count 10 = (bs.take p).count 10 + (bs.extract p q).count 10 := by
    rw [← take_append_extract bs (Nat.le_of_lt hlt), List.count_append]
  have hline := hp.line_eq
  have hline' := hq.line_eq
  have hle_start := hstart.le
  have hle_start' := hstart'.le
  rcases Nat.lt_or_ge p start' with hbetween | hsame
  · -- the line of the second position begins behind the first one
    have hmem := extract_subset bs (Nat.le_refl p) hle_start'
      (feed_mem_extract hstart'.begins hbetween (by omega))
    have hpos := List.count_pos_iff.mpr hmem
    exact .left _ _ (by omega)
  · -- both positions are on the line that begins there
    have hfree : 10 ∉ bs.extract p q := fun hmem =>
      hstart'.free (extract_subset bs hsame (Nat.le_refl q) hmem)
    have hagain : IsLineStart bs p start' :=
      ⟨hsame, hstart'.begins, fun hmem =>
        hstart'.free (extract_subset bs (Nat.le_refl _) (Nat.le_of_lt hlt) hmem)⟩
    have heq := hstart.unique hagain (by omega)
    have hzero := List.count_eq_zero.mpr hfree
    have hlines : place.line = further.line := by omega
    rw [hlines]
    exact .right _ (by omega)

end Order

/-! ## Lines cut out of the bytes -/

section Parts

variable {front content after : List UInt8} {column : Nat}

theorem take_length_add (h : column ≤ content.length) :
    (front ++ (content ++ after)).take (front.length + column) = front ++ content.take column := by
  rw [List.take_length_add_append, List.take_append_of_le_length h]

theorem extract_length_add (h : column ≤ content.length) :
    (front ++ (content ++ after)).extract front.length (front.length + column) =
      content.take column := by
  rw [List.extract, List.drop_left, Nat.add_sub_cancel_left, List.take_append_of_le_length h]

/-- A part without line feeds is where a line begins, if it is behind one. -/
theorem IsLineStart.of_append (hfront : ∀ b ∈ front.getLast?, b = 10) (hfree : 10 ∉ content)
    (h : column ≤ content.length) :
    IsLineStart (front ++ (content ++ after)) (front.length + column) front.length := by
  refine ⟨Nat.le_add_right _ _, ?_, ?_⟩
  · rwa [List.take_left]
  · rw [extract_length_add h]
    exact fun hmem => hfree (List.mem_of_mem_take hmem)

/-- It is where the line stops, if it is in front of a further one. -/
theorem IsLineStop.of_append (hafter : ∀ b ∈ after.head?, b = 10) (hfree : 10 ∉ content)
    (h : column ≤ content.length) :
    IsLineStop (front ++ (content ++ after)) (front.length + column)
      (front.length + content.length) := by
  refine ⟨by omega, ?_, ?_, fun hmem => hfree ?_⟩
  · rw [List.length_append, List.length_append]
    omega
  · rwa [← List.length_append, ← List.append_assoc, List.drop_left]
  · have hwhole := extract_subset _ (Nat.le_add_right front.length column) (Nat.le_refl _) hmem
    rwa [extract_length_add (Nat.le_refl _), List.take_length] at hwhole

/-- No line feeds are counted in it. -/
theorem count_take_length_add (hfree : 10 ∉ content) (h : column ≤ content.length) :
    ((front ++ (content ++ after)).take (front.length + column)).count 10 = front.count 10 := by
  have hzero : (content.take column).count 10 = 0 :=
    List.count_eq_zero.mpr fun hmem => hfree (List.mem_of_mem_take hmem)
  rw [take_length_add h, List.count_append, hzero, Nat.add_zero]

namespace Location

variable {place : Location}

/-- A column of the part is a position in its line. -/
theorem IsAt.of_append (hfront : ∀ b ∈ front.getLast?, b = 10) (hafter : ∀ b ∈ after.head?, b = 10)
    (hfree : 10 ∉ content) (h : column ≤ content.length)
    (hline : place.line = front.count 10 + 1) (hcolumn : place.column = column)
    (htext : TrimsTo 10 13 content (bytes place.text.toList)) :
    place.IsAt (front ++ (content ++ after)) (front.length + column) := by
  refine ⟨?_, front.length, front.length + content.length, .of_append hfront hfree h,
    .of_append hafter hfree h, ?_, ?_⟩
  · rw [count_take_length_add hfree h, hline]
  · rw [Nat.add_sub_cancel_left, hcolumn]
  · rwa [extract_length_add (Nat.le_refl _), List.take_length]

/-- A last part with no line feed, or with one at its end, is the last line. -/
theorem IsAtEnd.of_append (hfront : ∀ b ∈ front.getLast?, b = 10) (hne : content ≠ [])
    (hfree : 10 ∉ content.dropLast) (hline : place.line = front.count 10 + 1)
    (htext : ChompsTo 10 13 content (bytes place.text.toList))
    (hcolumn : place.column = (bytes place.text.toList).length) :
    place.IsAtEnd (front ++ content) := by
  refine ⟨?_, ⟨front.length, ?_, ?_⟩, hcolumn⟩
  · rw [List.dropLast_append_of_ne_nil hne, List.count_append, List.count_eq_zero.mpr hfree, hline,
      Nat.add_zero]
  · have hlength : (front ++ content).length - 1 = front.length + content.dropLast.length := by
      have hpos := List.length_pos_iff.mpr hne
      rw [List.length_append, List.length_dropLast]
      omega
    have hparts := List.dropLast_concat_getLast hne
    rw [hlength]
    nth_rewrite 1 [← hparts]
    exact .of_append hfront hfree (Nat.le_refl _)
  · rwa [List.drop_left]

end Location

end Parts

/-! ## Lines of characters and of bytes -/

namespace Text

variable {cs line text : List Char} {position : Nat}

theorem utf8EncodeChar_feed : String.utf8EncodeChar '\n' = [10] := by
  decide

theorem utf8EncodeChar_ret : String.utf8EncodeChar '\r' = [13] := by
  decide

/-- A line break taken off the characters is taken off the bytes. -/
theorem ChompsTo.bytes (h : ChompsTo '\n' '\r' line text) :
    ChompsTo 10 13 (bytes line) (bytes text) := by
  cases h with
  | both =>
      rw [bytes_append]
      exact .both
  | feed h =>
      rw [bytes_append]
      exact .feed (mt (getLast?_bytes_iff utf8EncodeChar_ret).mp h)
  | none h => exact .none (mt (getLast?_bytes_iff utf8EncodeChar_feed).mp h)

/-- Line feeds and carriage returns trimmed off the characters are trimmed off the bytes. -/
theorem TrimsTo.bytes (h : TrimsTo '\n' '\r' line text) :
    TrimsTo 10 13 (bytes line) (bytes text) := by
  obtain ⟨⟨tail, rfl, htail⟩, hlast⟩ := h
  refine ⟨⟨Text.bytes tail, bytes_append _ _, fun b hb => ?_⟩, fun b hb => ⟨?_, ?_⟩⟩
  · obtain ⟨c, hc, hb⟩ := List.mem_flatMap.mp hb
    rcases htail c hc with rfl | rfl
    · exact .inl (List.mem_singleton.mp (utf8EncodeChar_feed ▸ hb))
    · exact .inr (List.mem_singleton.mp (utf8EncodeChar_ret ▸ hb))
  · rintro rfl
    exact (hlast _ ((getLast?_bytes_iff utf8EncodeChar_feed).mp hb)).1 rfl
  · rintro rfl
    exact (hlast _ ((getLast?_bytes_iff utf8EncodeChar_ret).mp hb)).2 rfl

namespace LineAt

/-- What is in front of a line ends in a line feed, as characters and as bytes. -/
theorem begins_bytes (l : LineAt cs position) : ∀ b ∈ (Text.bytes l.front).getLast?, b = 10 := by
  rcases List.eq_nil_or_concat l.front with hnil | ⟨front, c, hfront⟩
  · simp [hnil, Text.bytes]
  · obtain rfl : c = '\n' := l.begins c (by rw [hfront]; simp)
    have hlast : (Text.bytes l.front).getLast? = some 10 :=
      (getLast?_bytes_iff utf8EncodeChar_feed).mpr (by simp [hfront])
    simp [hlast, eq_comm]

/-- A line is its content and at most one line feed, which is missing at the end only. -/
theorem exists_line_eq_content_append (l : LineAt cs position) :
    ∃ content feed, l.line = content ++ feed ∧ '\n' ∉ content ∧
      (feed = ['\n'] ∨ feed = [] ∧ content ≠ [] ∧ l.back = []) := by
  obtain ⟨content, hfree, hline | ⟨hline, hne, hback⟩⟩ := l.ends
  · exact ⟨content, ['\n'], hline, hfree, .inl rfl⟩
  · exact ⟨content, [], by rw [hline, List.append_nil], hfree, .inr ⟨rfl, hne, hback⟩⟩

/-- A position within the text has the place of its line and its column. -/
theorem isAt (l : LineAt cs position) (hlt : position < byteLength cs) :
    Location.IsAt ⟨l.number, String.ofList (trimLineEnds l.line), l.column⟩ (Text.bytes cs)
      position := by
  obtain ⟨hposition, hcolumn⟩ := l.place_of_lt hlt
  obtain ⟨content, feed, hline, hfree, hfeed⟩ := l.exists_line_eq_content_append
  have htext : Text.bytes cs =
      Text.bytes l.front ++ (Text.bytes content ++ (Text.bytes feed ++ Text.bytes l.back)) := by
    simpa [hline] using congrArg Text.bytes l.text
  have hafter : ∀ b ∈ (Text.bytes feed ++ Text.bytes l.back).head?, b = 10 := by
    rcases hfeed with rfl | ⟨rfl, -, hback⟩
    · simp [bytes_singleton, utf8EncodeChar_feed, eq_comm]
    · simp [hback, Text.bytes]
  have hle : l.column ≤ (Text.bytes content).length := by
    rw [hline, byteLength_append, ← length_bytes content] at hcolumn
    rcases hfeed with rfl | ⟨rfl, -, -⟩
    · exact Nat.le_of_lt_succ hcolumn
    · exact Nat.le_of_lt hcolumn
  -- the line feed is trimmed off with what ends the content
  have hsame : trimLineEnds l.line = trimLineEnds content := by
    rcases hfeed with rfl | ⟨rfl, -, -⟩
    · simp [hline, trimLineEnds]
    · rw [hline, List.append_nil]
  have hplace := @Location.IsAt.of_append _ _ _ l.column
    ⟨l.number, String.ofList (trimLineEnds l.line), l.column⟩ l.begins_bytes hafter
    (mt (mem_bytes_iff utf8EncodeChar_feed).mp hfree) hle
    (by rw [count_bytes utf8EncodeChar_feed, number]) rfl
    (by rw [String.toList_ofList, hsame]; exact (trimsTo_iff.mpr rfl).bytes)
  rwa [← htext, length_bytes, ← hposition] at hplace

/-- A position behind the text has the place at the end of the last line. -/
theorem isAtEnd (l : LineAt cs position) (hle : byteLength cs ≤ position) :
    Location.IsAtEnd ⟨l.number, String.ofList (withoutEnd '\n' '\r' l.line), l.column⟩
      (Text.bytes cs) := by
  obtain ⟨hback, hcolumn⟩ := l.place_of_le hle
  have htext : Text.bytes cs = Text.bytes l.front ++ Text.bytes l.line := by
    simpa [hback] using congrArg Text.bytes l.text
  obtain ⟨content, feed, hline, hfree, hfeed⟩ := l.exists_line_eq_content_append
  have hcontent : 10 ∉ Text.bytes content := mt (mem_bytes_iff utf8EncodeChar_feed).mp hfree
  have hlast : Text.bytes l.line ≠ [] ∧ 10 ∉ (Text.bytes l.line).dropLast := by
    rcases hfeed with rfl | ⟨rfl, hne, -⟩
    · rw [hline, bytes_append, bytes_singleton, utf8EncodeChar_feed, List.dropLast_concat]
      exact ⟨by simp, hcontent⟩
    · rw [hline, List.append_nil]
      refine ⟨?_, fun hmem => hcontent (List.dropLast_subset _ hmem)⟩
      rw [← List.length_pos_iff, length_bytes]
      exact byteLength_pos hne
  rw [htext]
  refine .of_append l.begins_bytes hlast.1 hlast.2 ?_ ?_ ?_
  · rw [count_bytes utf8EncodeChar_feed, number]
  · rw [String.toList_ofList]
    exact (chompsTo_iff.mpr rfl).bytes
  · rw [String.toList_ofList, length_bytes]
    exact hcolumn

end LineAt

end Text

/-! ## The lookup -/

/-- The empty source has one line, which is empty. -/
theorem isAtEnd_nil : Location.IsAtEnd ⟨1, "", 0⟩ [] := by
  refine ⟨rfl, ⟨0, ⟨Nat.le_refl _, ?_, ?_⟩, ?_⟩, rfl⟩
  · simp
  · simp
  · exact .none (by simp)

/-- **The lookup by bytes**: a position within the source gets the number of its line and
its column from the line feeds in front of it, and the text that stands between two line
feeds; places come in the order of their positions; and every position behind the source
gets the end of the last line. -/
theorem locate_by_bytes (source : String) :
    (∀ position < (bytes source.toList).length,
        (locate source position).IsAt (bytes source.toList) position) ∧
      (∀ p q, p < q → q < (bytes source.toList).length →
        Prod.Lex (· < ·) (· < ·) ((locate source p).line, (locate source p).column)
          ((locate source q).line, (locate source q).column)) ∧
      ∀ position, (bytes source.toList).length ≤ position →
        (locate source position).IsAtEnd (bytes source.toList) := by
  have hwithin : ∀ position < (bytes source.toList).length,
      (locate source position).IsAt (bytes source.toList) position := by
    intro position hlt
    rw [length_bytes] at hlt
    have hne : source.toList ≠ [] := by
      intro hnil
      simp [hnil] at hlt
    obtain ⟨l, hl⟩ := exists_locate_eq hne position
    rw [hl, LineAt.content, if_pos hlt]
    exact l.isAt hlt
  refine ⟨hwithin, ?_, ?_⟩
  · intro p q hlt hq
    exact (hwithin p (by omega)).lex_lt (hwithin q hq) hlt (Nat.le_of_lt hq)
  · intro position hle
    rw [length_bytes] at hle
    by_cases hne : source.toList = []
    · have hempty : locate source position = ⟨1, "", 0⟩ := by
        rw [locate_of_byteLength_le hle, Location.lines, hne]
        simp [Location.atEnd, withoutEnd]
      rw [hempty, hne]
      exact isAtEnd_nil
    · obtain ⟨l, hl⟩ := exists_locate_eq hne position
      rw [hl, LineAt.content, if_neg (by omega)]
      exact l.isAtEnd hle

example : locate "x\né;\r\n" 3 = ⟨2, "é;", 1⟩ := by
  decide +kernel

end ExprLang
