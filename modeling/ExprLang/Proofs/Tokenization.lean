/-
# What the tokens of a source are

A list of tokens fits a source when the tokens are slices of it, in order, with
only blanks between them, when each is spelled as its kind demands and when none
could be longer.  Main statement: `isTokenization_iff` (one list fits a source that is
shorter than 4 GiB, and it is the one that the lexer makes).
-/
import ExprLang.Proofs.ByteView
import ExprLang.Proofs.Scan

namespace ExprLang

open Text

/-! ## Lists of tokens that fit a source -/

/-- Tokens that fit a source from a byte position on. -/
structure TokensFit (source : String) (position : Nat) (body : List Token) : Prop where
  /-- No token is empty. -/
  nonempty : ∀ t ∈ body, t.start.toNat < t.stop.toNat
  /-- A token begins and ends between two characters. -/
  boundaries : ∀ t ∈ body,
    String.Pos.Raw.IsValid source ⟨t.start.toNat⟩ ∧ String.Pos.Raw.IsValid source ⟨t.stop.toNat⟩
  /-- Its text is what stands there. -/
  text : ∀ t ∈ body, t.text.toByteArray = source.toByteArray.extract t.start.toNat t.stop.toNat
  /-- The tokens stand in order and do not overlap. -/
  ordered : body.Pairwise fun t u => t.stop.toNat ≤ u.start.toNat
  /-- None begins in front of the position. -/
  after : ∀ t ∈ body, position ≤ t.start.toNat
  /-- A byte outside all tokens is a space, a tab, a line feed or a carriage return. -/
  between : ∀ i, position ≤ i → i < source.utf8ByteSize →
    (∀ t ∈ body, ¬ (t.start.toNat ≤ i ∧ i < t.stop.toNat)) →
    (byteAt? source i).any Char.isWhitespace
  /-- The kind of a token is the one that its text spells. -/
  spelled : ∀ t ∈ body, t.kind.Spells t.text.toList
  /-- No token is continued by the byte behind it. -/
  maximal : ∀ t ∈ body, ∀ c ∈ byteAt? source t.stop.toNat, t.kind.continuedBy c = false

/-- A list of tokens that fits a source, with one end marker behind them. -/
def IsTokenization (source : String) (tokens : List Token) : Prop :=
  ∃ body, tokens = body ++ [Token.endOfInput source.utf8ByteSize] ∧ TokensFit source 0 body

/-! ## Between scans and fitting lists -/

/-- Blanks are in ASCII. -/
theorem toNat_lt_of_isWhitespace {c : Char} (h : c.isWhitespace) : c.toNat < 128 := by
  rw [isWhitespace_iff] at h
  omega

/-- What can make a token longer is in ASCII. -/
theorem toNat_lt_of_continuedBy {k : Token.Kind} {c : Char} (h : k.continuedBy c) :
    c.toNat < 128 := by
  rw [Token.Kind.continuedBy_iff, isLetter_iff, isDigit_iff] at h
  rcases h with ⟨-, h⟩ | ⟨-, h⟩ | ⟨-, rfl⟩
  · omega
  · omega
  · decide

/-- The byte behind a beginning of a text continues a token exactly when the
character there does. -/
theorem not_continuedBy_iff {source : String} {before after : List Char} (k : Token.Kind)
    (h : source.toList = before ++ after) :
    (∀ c ∈ byteAt? source (byteLength before), k.continuedBy c = false) ↔
      ∀ c ∈ after.head?, k.continuedBy c = false := by
  have hany := any_byteAt? (fun _ => @toNat_lt_of_continuedBy k _) h
  have hall : ∀ o : Option Char,
      (∀ c ∈ o, k.continuedBy c = false) ↔ o.any k.continuedBy = false := by
    intro o
    cases o <;> simp
  rw [hall, hall, hany]

/-- Tokens that fit a source behind a token that fits in front of them. -/
theorem TokensFit.cons {source : String} {before blanks : List Char} {t : Token}
    {after : List Char} {body : List Token}
    (hsource : source.toList = before ++ blanks ++ t.text.toList ++ after)
    (hblank : ∀ c ∈ blanks, c.isWhitespace) (hspelled : t.kind.Spells t.text.toList)
    (hend : ∀ c ∈ after.head?, t.kind.continuedBy c = false)
    (hstart : t.start.toNat = byteLength before + byteLength blanks)
    (hstop : t.stop.toNat = t.start.toNat + byteLength t.text.toList)
    (hfit : TokensFit source t.stop.toNat body) :
    TokensFit source (byteLength before) (t :: body) := by
  have hpos : 0 < byteLength t.text.toList := by
    obtain ⟨c, rest, hcs, -⟩ := hspelled.exists_cons
    exact byteLength_pos (by rw [hcs]; exact List.cons_ne_nil c rest)
  have hslice := (slice_iff (by omega : t.start.toNat ≤ t.stop.toNat)).mpr
    ⟨before ++ blanks, after, hsource, by rw [byteLength_append, hstart], hstop.symm⟩
  have hgap := (all_iff_forall_byteAt? (fun _ => toNat_lt_of_isWhitespace)
    (hsource.trans (List.append_assoc _ _ _))).mp hblank
  have hbehind := (not_continuedBy_iff t.kind hsource).mpr hend
  rw [byteLength_append, byteLength_append, ← hstart, ← hstop] at hbehind
  constructor
  case nonempty =>
    exact List.forall_mem_cons.mpr ⟨by omega, hfit.nonempty⟩
  case boundaries =>
    exact List.forall_mem_cons.mpr ⟨⟨hslice.1, hslice.2.1⟩, hfit.boundaries⟩
  case text =>
    exact List.forall_mem_cons.mpr ⟨hslice.2.2, hfit.text⟩
  case ordered =>
    exact List.pairwise_cons.mpr ⟨hfit.after, hfit.ordered⟩
  case after =>
    refine List.forall_mem_cons.mpr ⟨by omega, fun u hu => ?_⟩
    have := hfit.after u hu
    omega
  case between =>
    -- a byte is among the blanks, in the token, or behind it
    intro i hle hlt hout
    obtain ⟨hnot, hout⟩ := List.forall_mem_cons.mp hout
    rcases Nat.lt_or_ge i t.start.toNat with hi | hi
    · exact hgap i hle (by omega)
    · exact hfit.between i (by omega) hlt hout
  case spelled =>
    exact List.forall_mem_cons.mpr ⟨hspelled, hfit.spelled⟩
  case maximal =>
    exact List.forall_mem_cons.mpr ⟨hbehind, hfit.maximal⟩

/-- A scan of what is left of a source that is shorter than 4 GiB is a list of tokens
that fits it. -/
theorem TokensFit.of_scans {source : String} {position : Nat} {before cs : List Char}
    {ts : List Token} (hsize : source.utf8ByteSize < UInt32.size) (h : Scans position cs ts)
    (hsource : source.toList = before ++ cs) (hposition : byteLength before = position) :
    ∃ body, ts = body ++ [Token.endOfInput source.utf8ByteSize] ∧
      TokensFit source position body := by
  induction h generalizing before with
  | @nil position blanks hblank =>
      refine ⟨[], ?_, ?_⟩
      · rw [utf8ByteSize_eq, hsource, byteLength_append, hposition, List.nil_append]
      · refine ⟨by simp, by simp, by simp, .nil, by simp, ?_, by simp, by simp⟩
        intro i hle hlt _
        have hgap := (all_iff_forall_byteAt? (fun _ => toNat_lt_of_isWhitespace)
          (hsource.trans (List.append_nil _).symm)).mp hblank
        rw [utf8ByteSize_eq, hsource, byteLength_append] at hlt
        exact hgap i (by omega) hlt
  | @cons position blanks chars rest kind tokens hblank hspells hend htail ih =>
      subst hposition
      -- the ends of the token lie within the source, so that 32 bits hold them
      have hlt : byteLength before + byteLength blanks + byteLength chars < UInt32.size := by
        rw [utf8ByteSize_eq, hsource, byteLength_append, byteLength_append,
          byteLength_append] at hsize
        omega
      have hstart : (byteLength before + byteLength blanks).toUInt32.toNat =
          byteLength before + byteLength blanks :=
        UInt32.toNat_ofNat_of_lt' (Nat.lt_of_le_of_lt (Nat.le_add_right _ _) hlt)
      have hstop : (byteLength before + byteLength blanks + byteLength chars).toUInt32.toNat =
          byteLength before + byteLength blanks + byteLength chars :=
        UInt32.toNat_ofNat_of_lt' hlt
      obtain ⟨body, htokens, hfit⟩ := @ih (before ++ blanks ++ chars) (by simpa using hsource)
        (by simp [Nat.add_assoc])
      rw [← hstop] at hfit
      refine ⟨_ :: body, congrArg _ htokens,
        @TokensFit.cons source before blanks _ rest body ?_ hblank ?_ hend hstart ?_ hfit⟩
      · simpa using hsource
      · simpa using hspells
      · rw [hstart, hstop, String.toList_ofList]

/-- Behind the first token of a fitting list the others fit. -/
theorem TokensFit.tail {source : String} {position : Nat} {t : Token} {body : List Token}
    (h : TokensFit source position (t :: body)) : TokensFit source t.stop.toNat body := by
  obtain ⟨hbehind, hordered⟩ := List.pairwise_cons.mp h.ordered
  have hlt := h.nonempty t List.mem_cons_self
  have hle := h.after t List.mem_cons_self
  refine ⟨fun u hu => h.nonempty u (List.mem_cons_of_mem t hu),
    fun u hu => h.boundaries u (List.mem_cons_of_mem t hu),
    fun u hu => h.text u (List.mem_cons_of_mem t hu), hordered, hbehind, ?_,
    fun u hu => h.spelled u (List.mem_cons_of_mem t hu),
    fun u hu => h.maximal u (List.mem_cons_of_mem t hu)⟩
  intro i hle hlt hout
  refine h.between i (by omega) hlt (List.forall_mem_cons.mpr ⟨?_, hout⟩)
  omega

/-- Of two beginnings of a text the shorter one begins the longer one. -/
theorem exists_eq_append_of_byteLength_le {a b c d : List Char} (h : a ++ b = c ++ d)
    (hle : byteLength a ≤ byteLength c) : ∃ e, c = a ++ e ∧ b = e ++ d := by
  rcases List.append_eq_append_iff.mp h with ⟨e, hc, hb⟩ | ⟨e, ha, hd⟩
  · exact ⟨e, hc, hb⟩
  · have he : e = [] := by
      rw [← byteLength_eq_zero_iff]
      rw [ha, byteLength_append] at hle
      omega
    subst he
    exact ⟨[], by simpa using ha.symm, by simpa using hd.symm⟩

/-- A list of tokens that fits what is left of a source is a scan of it. -/
theorem TokensFit.scans {source : String} {position : Nat} {before cs : List Char}
    {body : List Token} (h : TokensFit source position body)
    (hsource : source.toList = before ++ cs) (hposition : byteLength before = position) :
    Scans position cs (body ++ [Token.endOfInput source.utf8ByteSize]) := by
  induction body generalizing position before cs with
  | nil =>
      have hsize : source.utf8ByteSize = position + byteLength cs := by
        rw [utf8ByteSize_eq, hsource, byteLength_append, hposition]
      rw [List.nil_append, hsize]
      refine .nil ?_
      rw [all_iff_forall_byteAt? (fun _ => toNat_lt_of_isWhitespace)
        (hsource.trans (List.append_nil _).symm)]
      intro i hle hlt
      exact h.between i (by omega) (by omega) (by simp)
  | cons t body ih =>
      have hlt : t.start.toNat < t.stop.toNat := h.nonempty t List.mem_cons_self
      have hle : position ≤ t.start.toNat := h.after t List.mem_cons_self
      obtain ⟨hvalid, hvalid'⟩ := h.boundaries t List.mem_cons_self
      obtain ⟨front, after, hslice, hstart, hstop⟩ :=
        (slice_iff (Nat.le_of_lt hlt)).mp ⟨hvalid, hvalid', h.text t List.mem_cons_self⟩
      have hsame : before ++ cs = front ++ (t.text.toList ++ after) := by
        rw [← hsource, hslice, List.append_assoc]
      obtain ⟨blanks, rfl, rfl⟩ := exists_eq_append_of_byteLength_le hsame (by omega)
      rw [byteLength_append, hposition] at hstart
      -- in front of the token there are only blanks, as it is the first one
      have hblank : ∀ c ∈ blanks, c.isWhitespace := by
        rw [all_iff_forall_byteAt? (fun _ => toNat_lt_of_isWhitespace)
          (hslice.trans (List.append_assoc _ _ _))]
        intro i hle hlt
        refine h.between i (by omega) ?_ (List.forall_mem_cons.mpr ⟨by omega, fun u hu => ?_⟩)
        · rw [utf8ByteSize_eq, hslice, byteLength_append, byteLength_append, byteLength_append]
          omega
        · have := (List.pairwise_cons.mp h.ordered).1 u hu
          omega
      have hend : ∀ c ∈ after.head?, t.kind.continuedBy c = false := by
        rw [← not_continuedBy_iff t.kind hslice, byteLength_append, byteLength_append, hposition,
          hstart, hstop]
        exact h.maximal t List.mem_cons_self
      have htail := ih h.tail hslice (by simp; omega)
      have hscan := Scans.cons hblank (h.spelled t List.mem_cons_self) hend
        (by rwa [hstart, hstop])
      simp only [String.ofList_toList, hstart, hstop, Nat.toUInt32_eq, UInt32.ofNat_toNat] at hscan
      exact hscan

/-- **The tokens of a source** that is shorter than 4 GiB: exactly one list of tokens
fits it, the one that the lexer makes. -/
theorem isTokenization_iff {source : String} (hsize : source.utf8ByteSize < UInt32.size)
    (tokens : List Token) :
    IsTokenization source tokens ↔ tokens = Lexer.tokenize source := by
  rw [← Lexer.scans_iff_eq_tokenize]
  constructor
  · rintro ⟨body, rfl, hfit⟩
    exact hfit.scans (List.nil_append _).symm rfl
  · intro h
    exact TokensFit.of_scans hsize h (List.nil_append _).symm rfl

/-- The tokens of a source with a character of two bytes in it. -/
theorem isTokenization_sample :
    IsTokenization "@é =12" [⟨.atSign, "@", 0, 1⟩, ⟨.illegal, "é", 1, 3⟩, ⟨.assign, "=", 4, 5⟩,
      ⟨.integer, "12", 5, 7⟩, ⟨.eof, "", 7, 7⟩] :=
  (isTokenization_iff (by decide) _).mpr (by decide +kernel)

end ExprLang
