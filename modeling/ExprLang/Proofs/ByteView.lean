/-
# A text by its bytes

The bytes of a source against its characters.  A byte below 128 is a character by
itself, and the first byte of any other character is above that; so a class of
ASCII characters can be looked for among the bytes.  Main statements:
`Text.count_bytes` (a character of a single byte, counted among the bytes),
`Text.any_byteAt?` (the byte behind a beginning of the text), `Text.all_iff_forall_byteAt?`
(a stretch of a class, by bytes and by characters) and `Text.slice_iff` (a slice of
the bytes between two character boundaries).
-/
import ExprLang.Text.Bytes
import Mathlib.Data.List.Basic
import Mathlib.Data.List.TakeWhile
import Mathlib.Tactic.ByContra

namespace ExprLang.Text

/-! ## The bytes of a text -/

/-- The bytes of a run of characters in UTF-8. -/
def bytes (cs : List Char) : List UInt8 :=
  cs.flatMap String.utf8EncodeChar

@[simp]
theorem bytes_append (cs ds : List Char) : bytes (cs ++ ds) = bytes cs ++ bytes ds :=
  List.flatMap_append

theorem bytes_cons (c : Char) (cs : List Char) :
    bytes (c :: cs) = String.utf8EncodeChar c ++ bytes cs := rfl

theorem bytes_singleton (c : Char) : bytes [c] = String.utf8EncodeChar c :=
  List.append_nil _

@[simp]
theorem length_bytes (cs : List Char) : (bytes cs).length = byteLength cs := by
  induction cs with
  | nil => rfl
  | cons c cs ih => rw [bytes_cons, List.length_append, ih, String.length_utf8EncodeChar,
      byteLength_cons]

/-- The bytes of a source are those of its characters. -/
theorem toByteArray_eq (source : String) : source.toByteArray = (bytes source.toList).toByteArray :=
  String.utf8Encode_toList.symm

/-- The size of a source is that of its characters. -/
theorem utf8ByteSize_eq (source : String) : source.utf8ByteSize = byteLength source.toList := by
  rw [← String.size_toByteArray, toByteArray_eq, List.size_toByteArray, length_bytes]

/-- The byte of a source at a position, taken for the character of that number. -/
def byteAt? (source : String) (i : Nat) : Option Char :=
  source.toByteArray.data[i]?.map Char.ofUInt8

theorem byteAt?_eq (source : String) (i : Nat) :
    byteAt? source i = (bytes source.toList)[i]?.map Char.ofUInt8 := by
  rw [byteAt?, toByteArray_eq, List.data_toByteArray, List.getElem?_toArray]

/-! ## Classes of ASCII characters -/

/-- A character in ASCII is its own byte. -/
theorem utf8EncodeChar_of_lt {c : Char} (hc : c.toNat < 128) :
    ∃ b, String.utf8EncodeChar c = [b] ∧ Char.ofUInt8 b = c := by
  refine ⟨c.toUInt8, ?_, ?_⟩
  · apply String.utf8EncodeChar_eq_singleton
    rw [Char.utf8Size_eq_one_iff, UInt32.le_iff_toNat_le]
    exact Nat.le_of_lt_succ hc
  · rw [← Char.toNat_inj]
    show (c.val.toUInt8.toUInt32).toNat = c.val.toNat
    have hval : c.val.toNat < 128 := hc
    rw [UInt8.toNat_toUInt32, UInt32.toNat_toUInt8]
    omega

/-- All bytes of any other character are above the characters in ASCII. -/
theorem le_of_mem_utf8EncodeChar {c : Char} (hc : 128 ≤ c.toNat) {b : UInt8}
    (hb : b ∈ String.utf8EncodeChar c) : 128 ≤ (Char.ofUInt8 b).toNat := by
  have hval : ¬ c.val.toNat ≤ 127 := Nat.not_le.mpr hc
  have hbyte : ∀ n, 128 ≤ n → n < 256 → 128 ≤ (Char.ofUInt8 (UInt8.ofNat n)).toNat := by
    intro n hle hlt
    show 128 ≤ ((UInt8.ofNat n).toUInt32).toNat
    simp
    omega
  rw [String.utf8EncodeChar, if_neg hval] at hb
  split at hb
  · simp only [List.mem_cons, List.not_mem_nil, or_false] at hb
    rcases hb with rfl | rfl <;> exact hbyte _ (by omega) (by omega)
  · split at hb
    · simp only [List.mem_cons, List.not_mem_nil, or_false] at hb
      rcases hb with rfl | rfl | rfl <;> exact hbyte _ (by omega) (by omega)
    · simp only [List.mem_cons, List.not_mem_nil, or_false] at hb
      rcases hb with rfl | rfl | rfl | rfl <;> exact hbyte _ (by omega) (by omega)

/-- In particular the first one. -/
theorem utf8EncodeChar_of_le {c : Char} (hc : 128 ≤ c.toNat) :
    ∃ b tail, String.utf8EncodeChar c = b :: tail ∧ 128 ≤ (Char.ofUInt8 b).toNat := by
  have hne : String.utf8EncodeChar c ≠ [] := by
    rw [← List.length_pos_iff, String.length_utf8EncodeChar]
    exact c.utf8Size_pos
  obtain ⟨b, tail, hb⟩ := List.exists_cons_of_ne_nil hne
  exact ⟨b, tail, hb, le_of_mem_utf8EncodeChar hc (hb ▸ List.mem_cons_self)⟩

section Single

variable {a : Char} {byte : UInt8}

/-- A character of a single byte is the only one with this byte. -/
theorem eq_of_mem_utf8EncodeChar (ha : String.utf8EncodeChar a = [byte]) {c : Char}
    (hc : byte ∈ String.utf8EncodeChar c) : c = a := by
  have hsize : a.utf8Size = 1 := by
    rw [← String.length_utf8EncodeChar, ha, List.length_singleton]
  have hlt : a.toNat < 128 := by
    rw [Char.utf8Size_eq_one_iff, UInt32.le_iff_toNat_le] at hsize
    exact Nat.lt_succ_of_le hsize
  obtain ⟨b, hb, hba⟩ := utf8EncodeChar_of_lt hlt
  obtain rfl : byte = b := by simpa [ha] using hb
  rcases Nat.lt_or_ge c.toNat 128 with hsmall | hlarge
  · obtain ⟨d, hd, hdc⟩ := utf8EncodeChar_of_lt hsmall
    rw [hd, List.mem_singleton] at hc
    rw [← hdc, ← hba, hc]
  · have := le_of_mem_utf8EncodeChar hlarge hc
    rw [hba] at this
    omega

/-- It is as often in a text as its byte is. -/
theorem count_bytes (ha : String.utf8EncodeChar a = [byte]) (cs : List Char) :
    (bytes cs).count byte = cs.count a := by
  induction cs with
  | nil => rfl
  | cons c cs ih =>
      have hc : (String.utf8EncodeChar c).count byte = if c = a then 1 else 0 := by
        split
        · next h => rw [h, ha, List.count_singleton_self]
        · next h => exact List.count_eq_zero.mpr fun hmem => h (eq_of_mem_utf8EncodeChar ha hmem)
      rw [bytes_cons, List.count_append, ih, hc, List.count_cons, Nat.add_comm]
      simp

/-- It is in a text when its byte is. -/
theorem mem_bytes_iff (ha : String.utf8EncodeChar a = [byte]) {cs : List Char} :
    byte ∈ bytes cs ↔ a ∈ cs := by
  rw [← List.count_pos_iff, count_bytes ha, List.count_pos_iff]

/-- It is the last one of a text when its byte is. -/
theorem getLast?_bytes_iff (ha : String.utf8EncodeChar a = [byte]) {cs : List Char} :
    (bytes cs).getLast? = some byte ↔ cs.getLast? = some a := by
  rcases List.eq_nil_or_concat cs with rfl | ⟨front, c, rfl⟩
  · simp [bytes]
  · have hne : String.utf8EncodeChar c ≠ [] := by
      rw [← List.length_pos_iff, String.length_utf8EncodeChar]
      exact c.utf8Size_pos
    have hlast : (bytes (front ++ [c])).getLast? = (String.utf8EncodeChar c).getLast? := by
      rw [bytes_append, bytes_singleton, List.getLast?_append_of_ne_nil _ hne]
    rw [List.concat_eq_append, List.getLast?_concat, hlast]
    constructor
    · intro h
      rw [eq_of_mem_utf8EncodeChar ha (List.mem_of_getLast? h)]
    · intro h
      rw [Option.some.inj h, ha, List.getLast?_singleton]

end Single

variable {P : Char → Bool}

/-- **A class of ASCII characters among the bytes**: the byte behind a beginning
of the text is in it when the character there is. -/
theorem any_byteAt? (hP : ∀ c, P c → c.toNat < 128) {source : String} {before rest : List Char}
    (h : source.toList = before ++ rest) :
    (byteAt? source (byteLength before)).any P = rest.head?.any P := by
  have hbyte : (bytes source.toList)[byteLength before]? = (bytes rest)[0]? := by
    rw [h, bytes_append, List.getElem?_append_right (by simp), length_bytes, Nat.sub_self]
  rw [byteAt?_eq, hbyte]
  cases rest with
  | nil => rfl
  | cons c rest =>
      rw [bytes_cons]
      rcases Nat.lt_or_ge c.toNat 128 with hc | hc
      · obtain ⟨b, hb, hbc⟩ := utf8EncodeChar_of_lt hc
        simp [hb, hbc]
      · obtain ⟨b, tail, hb, hlarge⟩ := utf8EncodeChar_of_le hc
        have hnot : ∀ d : Char, 128 ≤ d.toNat → P d = false := by
          intro d hd
          by_contra hPd
          have := hP d (by simpa using hPd)
          omega
        simp [hb, hnot _ hlarge, hnot _ hc]

/-- **A stretch of the text in a class of ASCII characters** is one that has all
its bytes in the class. -/
theorem all_iff_forall_byteAt? (hP : ∀ c, P c → c.toNat < 128) {source : String}
    {before stretch after : List Char} (h : source.toList = before ++ stretch ++ after) :
    (∀ c ∈ stretch, P c) ↔
      ∀ i, byteLength before ≤ i → i < byteLength before + byteLength stretch →
        (byteAt? source i).any P := by
  induction stretch generalizing before with
  | nil =>
      simp only [byteLength_nil]
      constructor
      · intro _ i hle hlt
        omega
      · simp
  | cons c stretch ih =>
      have hfirst : (byteAt? source (byteLength before)).any P = P c :=
        any_byteAt? hP (h.trans (List.append_assoc _ _ _))
      have htail := @ih (before ++ [c]) (by simpa using h)
      have hpos := c.utf8Size_pos
      simp only [byteLength_append, byteLength_cons, byteLength_nil, Nat.add_zero] at htail ⊢
      constructor
      · intro hall i hle hlt
        have hc : c.toNat < 128 := hP c (hall c List.mem_cons_self)
        have hsize : c.utf8Size = 1 := by
          rw [Char.utf8Size_eq_one_iff, UInt32.le_iff_toNat_le]
          exact Nat.le_of_lt_succ hc
        rcases Nat.eq_or_lt_of_le hle with rfl | hgt
        · rw [hfirst]
          exact hall c List.mem_cons_self
        · exact htail.mp (fun d hd => hall d (List.mem_cons_of_mem c hd)) i (by omega) (by omega)
      · intro hbytes d hd
        rcases List.mem_cons.mp hd with rfl | hd
        · rw [← hfirst]
          exact hbytes _ (Nat.le_refl _) (by omega)
        · exact htail.mpr (fun i hle hlt => hbytes i (by omega) (by omega)) d hd

/-! ## Slices -/

/-- The position behind a beginning of a text is a character boundary. -/
theorem isValid_of_eq_append {source s s' : String} (h : source = s ++ s') :
    String.Pos.Raw.IsValid source ⟨byteLength s.toList⟩ := by
  refine String.Pos.Raw.isValid_iff_exists_append.mpr ⟨s, s', h, ?_⟩
  rw [← utf8ByteSize_eq]
  rfl

/-- A character boundary has a beginning of the text in front of it, which is the
bytes up to there. -/
theorem exists_eq_append_of_isValid {source : String} {position : Nat}
    (h : String.Pos.Raw.IsValid source ⟨position⟩) :
    ∃ s s', source = s ++ s' ∧ position = byteLength s.toList ∧
      s.toByteArray = source.toByteArray.extract 0 position := by
  obtain ⟨s, s', hs, hposition⟩ := String.Pos.Raw.isValid_iff_exists_append.mp h
  have hsize : position = s.toByteArray.size := congrArg String.Pos.Raw.byteIdx hposition
  refine ⟨s, s', hs, ?_, ?_⟩
  · rw [hsize, ← utf8ByteSize_eq, String.size_toByteArray]
  · rw [hs, String.toByteArray_append, ByteArray.extract_append_eq_left hsize]

/-- The bytes of a stretch of a text. -/
theorem extract_eq_of_eq_append {source s text s' : String} (h : source = s ++ text ++ s') :
    source.toByteArray.extract (byteLength s.toList)
        (byteLength s.toList + byteLength text.toList) = text.toByteArray := by
  have hshift := @ByteArray.extract_append_size_add s.toByteArray (text ++ s').toByteArray 0
    text.toByteArray.size
  rw [Nat.add_zero, ← String.toByteArray_append, ← String.append_assoc, ← h,
    String.size_toByteArray, String.size_toByteArray, utf8ByteSize_eq, utf8ByteSize_eq] at hshift
  rw [hshift, String.toByteArray_append,
    ByteArray.extract_append_eq_left (by rw [String.size_toByteArray, utf8ByteSize_eq])]

/-- **A slice of the bytes** between two character boundaries is a stretch of the
characters. -/
theorem slice_iff {source text : String} {start stop : Nat} (hle : start ≤ stop) :
    (String.Pos.Raw.IsValid source ⟨start⟩ ∧ String.Pos.Raw.IsValid source ⟨stop⟩ ∧
        text.toByteArray = source.toByteArray.extract start stop) ↔
      ∃ before after, source.toList = before ++ text.toList ++ after ∧
        byteLength before = start ∧ start + byteLength text.toList = stop := by
  constructor
  · rintro ⟨hstart, hstop, htext⟩
    obtain ⟨s, s', -, hsize, hs⟩ := exists_eq_append_of_isValid hstart
    obtain ⟨r, r', hr, hsize', hr0⟩ := exists_eq_append_of_isValid hstop
    -- the beginning of the source up to `stop`, once in two parts and once whole
    have hjoin : s ++ text = r := by
      apply String.toByteArray_inj.mp
      rw [String.toByteArray_append, hs, htext, hr0,
        ← ByteArray.extract_eq_extract_append_extract start (Nat.zero_le _) hle]
    subst hjoin
    refine ⟨s.toList, r'.toList, ?_, hsize.symm, ?_⟩
    · rw [hr, String.toList_append, String.toList_append]
    · rw [hsize', hsize, String.toList_append, byteLength_append]
  · rintro ⟨before, after, hsource, rfl, rfl⟩
    have hparts : source = String.ofList before ++ text ++ String.ofList after := by
      apply String.toList_inj.mp
      rw [String.toList_append, String.toList_append, String.toList_ofList, String.toList_ofList,
        hsource]
    have hbefore : (String.ofList before).toList = before := String.toList_ofList
    have hstart := isValid_of_eq_append (hparts.trans String.append_assoc)
    have hstop := isValid_of_eq_append hparts
    have hbytes := extract_eq_of_eq_append hparts
    rw [String.toList_append, byteLength_append, hbefore] at hstop
    rw [hbefore] at hstart hbytes
    exact ⟨hstart, hstop, hbytes.symm⟩

end ExprLang.Text
