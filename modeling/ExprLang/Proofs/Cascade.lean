/-
# No cascades of errors

Each brace level falls into pieces, which its semicolons end; what stands between
braces counts as a single token of the level around it.  A statement that fails
leaves nothing of its piece to be read again, so that no two failures begin in one
piece, and there are no more errors than pieces.  A piece is known by the token in
front of it, and `openPieces` finds the pieces that a token stands in.  Main
statements: `one_failure_for_each_piece` and, from 4 GiB on,
`one_failure_for_each_piece_apart`.
-/
import ExprLang.Proofs.Failures
import ExprLang.Proofs.Wrapping
import Mathlib.Data.List.Induction
import Mathlib.Data.List.Infix
import Mathlib.Data.List.Perm.Subperm

namespace ExprLang

/-! ## Pieces -/

/-- Whether a token begins a piece, which then starts behind it. -/
def Token.beginsPiece (t : Token) : Bool :=
  t.kind = .semicolon || t.kind = .openCurly

/-- The open pieces behind a token, given those in front of it, the innermost first.
A semicolon ends the piece that it is in and begins the next one of its level; an
opening brace begins the first piece of a level, and a closing brace ends the last. -/
def turnPiece (pieces : List (Option Token)) (t : Token) : List (Option Token) :=
  match t.kind with
  | .openCurly => some t :: pieces
  | .closeCurly => pieces.tail
  | .semicolon => some t :: pieces.tail
  | _ => pieces

/-- The pieces that are open behind the tokens in front of a place, the innermost
first.  Each is known by the token that begins it, the very first by `none`. -/
def openPieces (front : List Token) : List (Option Token) :=
  front.foldl turnPiece [none]

/-- The pieces that have begun among some tokens. -/
def begunPieces (front : List Token) : List (Option Token) :=
  none :: (front.filter Token.beginsPiece).map some

/-- The tokens in front of those that are left. -/
def inFront (tokens left : List Token) : List Token :=
  tokens.take (tokens.length - left.length)

/-- The pieces that are open in front of the tokens that are left, the innermost first. -/
def openAt (tokens left : List Token) : List (Option Token) :=
  openPieces (inFront tokens left)

/-- The piece in which a visit began. -/
def Visit.piece (tokens : List Token) (v : Visit) : Option Token :=
  (openAt tokens v.before).headD none

/-- Every closing brace has an opening one in front of it that it matches. -/
def NoStrayBrace (ts : List Token) : Prop :=
  ∀ us, us <+: ts → closings us ≤ openings us

instance (ts : List Token) : Decidable (NoStrayBrace ts) :=
  decidable_of_iff (∀ us ∈ ts.inits, closings us ≤ openings us)
    (by simp only [NoStrayBrace, List.mem_inits])

theorem turnPiece_of_ne {pieces : List (Option Token)} {t : Token} (hopen : t.kind ≠ .openCurly)
    (hclose : t.kind ≠ .closeCurly) (hsemi : t.kind ≠ .semicolon) :
    turnPiece pieces t = pieces := by
  unfold turnPiece
  split <;> first | rfl | contradiction

theorem turnPiece_of_openCurly {pieces : List (Option Token)} {t : Token}
    (h : t.kind = .openCurly) : turnPiece pieces t = some t :: pieces := by
  rw [turnPiece, h]

theorem turnPiece_of_closeCurly {pieces : List (Option Token)} {t : Token}
    (h : t.kind = .closeCurly) : turnPiece pieces t = pieces.tail := by
  rw [turnPiece, h]

theorem turnPiece_of_semicolon {pieces : List (Option Token)} {t : Token}
    (h : t.kind = .semicolon) : turnPiece pieces t = some t :: pieces.tail := by
  rw [turnPiece, h]

theorem openPieces_concat (front : List Token) (t : Token) :
    openPieces (front ++ [t]) = turnPiece (openPieces front) t := by
  rw [openPieces, List.foldl_append]
  rfl

/-- What braces enclose leaves the pieces alone that were open outside of it. -/
theorem tail_foldl_turnPiece {depth : Nat} {ts : List Token} (h : Closes depth ts)
    (pieces : List (Option Token)) :
    (ts.foldl turnPiece pieces).tail = pieces.drop (depth + 1) := by
  induction ts generalizing depth pieces with
  | nil =>
      rw [closes_nil_iff.mp h, Nat.zero_add, List.drop_one]
      rfl
  | cons t ts ih =>
      obtain ⟨hne, h⟩ := closes_cons_iff.mp h
      rw [List.foldl_cons, ih h]
      by_cases hopen : t.kind = .openCurly
      · rw [turnPiece_of_openCurly hopen, depthAfter_of_openCurly hopen, List.drop_succ_cons]
      · by_cases hclose : t.kind = .closeCurly
        · rw [turnPiece_of_closeCurly hclose, depthAfter_of_closeCurly hclose,
            Nat.sub_add_cancel (Nat.pos_of_ne_zero (hne hclose)), ← List.drop_one, List.drop_drop,
            Nat.add_comm]
        · rw [depthAfter_of_ne hopen hclose]
          by_cases hsemi : t.kind = .semicolon
          · rw [turnPiece_of_semicolon hsemi, List.drop_succ_cons, ← List.drop_one, List.drop_drop,
              Nat.add_comm]
          · rw [turnPiece_of_ne hopen hclose hsemi]

/-- **A pair of braces counts as a single token** of the piece that it is in. -/
theorem openPieces_append_braces {front inside : List Token} {opening closing : Token}
    (hopening : opening.kind = .openCurly) (hinside : BraceBalanced inside)
    (hclosing : closing.kind = .closeCurly) :
    openPieces (front ++ opening :: (inside ++ [closing])) = openPieces front := by
  rw [openPieces, List.foldl_append, List.foldl_cons, List.foldl_append, List.foldl_cons,
    List.foldl_nil, turnPiece_of_closeCurly hclosing, tail_foldl_turnPiece hinside,
    turnPiece_of_openCurly hopening]
  rfl

theorem begunPieces_concat (front : List Token) (t : Token) :
    begunPieces (front ++ [t]) =
      begunPieces front ++ if t.beginsPiece then [some t] else [] := by
  rw [begunPieces, List.filter_append, List.map_append, List.filter_cons]
  split <;> rfl

/-- No other piece is open behind a token than in front of it but the one it begins. -/
theorem turnPiece_subset (pieces : List (Option Token)) (t : Token) :
    turnPiece pieces t ⊆ pieces ++ if t.beginsPiece then [some t] else [] := by
  unfold turnPiece
  split
  · next h => simp [Token.beginsPiece, h]
  · next h => simpa [Token.beginsPiece, h] using (List.tail_sublist pieces).subset
  · next h =>
      simp only [Token.beginsPiece, h, decide_true, Bool.true_or, if_true, List.cons_subset,
        List.mem_append, List.mem_singleton, or_true, true_and]
      exact fun f hf => List.mem_append_left _ (List.mem_of_mem_tail hf)
  · exact List.subset_append_left _ _

/-- A piece that is open has begun. -/
theorem openPieces_subset (front : List Token) : openPieces front ⊆ begunPieces front := by
  induction front using List.reverseRecOn with
  | nil => exact List.Subset.refl _
  | append_singleton front t ih =>
      rw [openPieces_concat, begunPieces_concat]
      refine List.Subset.trans (turnPiece_subset _ t) fun f hf => ?_
      rw [List.mem_append] at hf ⊢
      exact hf.imp_left (@ih f)

theorem NoStrayBrace.ofPrefix {ts us : List Token} (h : NoStrayBrace ts) (hus : us <+: ts) :
    NoStrayBrace us := fun vs hvs => h vs (hvs.trans hus)

theorem openings_concat (front : List Token) (t : Token) :
    openings (front ++ [t]) = openings front + if t.kind = .openCurly then 1 else 0 := by
  simp [openings, List.countP_append, List.countP_singleton]

theorem closings_concat (front : List Token) (t : Token) :
    closings (front ++ [t]) = closings front + if t.kind = .closeCurly then 1 else 0 := by
  simp [closings, List.countP_append, List.countP_singleton]

/-- **As many pieces are open as braces, and one more**, if none is closed that was
not opened. -/
theorem length_openPieces {front : List Token} (h : NoStrayBrace front) :
    (openPieces front).length + closings front = openings front + 1 := by
  induction front using List.reverseRecOn with
  | nil => rfl
  | append_singleton front t ih =>
      have hfront := ih (h.ofPrefix (List.prefix_append _ _))
      have hle := h (front ++ [t]) (List.prefix_refl _)
      rw [openings_concat, closings_concat] at hle
      rw [openings_concat, closings_concat, openPieces_concat]
      by_cases hopen : t.kind = .openCurly
      · rw [turnPiece_of_openCurly hopen, List.length_cons, if_pos hopen,
          if_neg (by rw [hopen]; simp)]
        omega
      · by_cases hclose : t.kind = .closeCurly
        · rw [if_neg hopen, if_pos hclose] at hle
          rw [turnPiece_of_closeCurly hclose, List.length_tail, if_neg hopen, if_pos hclose]
          omega
        · rw [if_neg hopen, if_neg hclose] at hle ⊢
          by_cases hsemi : t.kind = .semicolon
          · rw [turnPiece_of_semicolon hsemi, List.length_cons, List.length_tail]
            omega
          · rw [turnPiece_of_ne hopen hclose hsemi]
            omega

/-! ## The pieces open at a place -/

/-- The pieces that have begun in front of the tokens that are left. -/
def begunAt (tokens left : List Token) : List (Option Token) :=
  begunPieces (inFront tokens left)

section Place

variable {tokens s r ts : List Token} {t : Token} {k : Option Token}
  {outer : List (Option Token)}

theorem inFront_append (front s : List Token) : inFront (front ++ s) s = front := by
  rw [inFront, List.length_append, Nat.add_sub_cancel, List.take_left]

theorem inFront_concat (h : t :: ts <:+ tokens) :
    inFront tokens ts = inFront tokens (t :: ts) ++ [t] := by
  obtain ⟨front, rfl⟩ := h
  rw [inFront_append, List.append_cons, inFront_append]

theorem inFront_prefix_tokens (tokens s : List Token) : inFront tokens s <+: tokens :=
  List.take_prefix _ _

theorem openAt_tail (h : t :: ts <:+ tokens) :
    openAt tokens ts = turnPiece (openAt tokens (t :: ts)) t := by
  rw [openAt, inFront_concat h, openPieces_concat]
  rfl

theorem openAt_subset : openAt tokens s ⊆ begunAt tokens s :=
  openPieces_subset _

theorem mem_begunAt_of_openAt_eq (h : openAt tokens s = k :: outer) : k ∈ begunAt tokens s :=
  openAt_subset (by rw [h]; exact List.mem_cons_self)

/-- Pieces that have begun stay so. -/
theorem begunAt_mono (h : r <:+ s) : begunAt tokens s ⊆ begunAt tokens r := by
  have hfront : inFront tokens s <+: inFront tokens r :=
    List.take_prefix_take_left (Nat.sub_le_sub_left h.length_le _)
  exact List.cons_subset_cons _ (((hfront.filter _).sublist.map some).subset)

/-- The piece behind a token has not begun in front of it. -/
theorem not_mem_begunAt (hnodup : tokens.Nodup) (hr : r <:+ tokens) (h : t :: ts <:+ r) :
    some t ∉ begunAt tokens r := by
  intro hmem
  replace hmem := begunAt_mono h hmem
  obtain ⟨front, rfl⟩ := h.trans hr
  rw [begunAt, inFront_append, begunPieces, List.mem_cons, List.mem_map] at hmem
  rcases hmem with hnone | ⟨u, hu, heq⟩
  · cases hnone
  · cases heq
    exact (List.nodup_append.mp hnodup).2.2 t (List.mem_filter.mp hu).1 t List.mem_cons_self rfl

/-- At a closing brace a piece is open around the one that it closes. -/
theorem two_le_length_openAt (hstray : NoStrayBrace tokens) (h : t :: ts <:+ tokens)
    (ht : t.kind = .closeCurly) : 2 ≤ (openAt tokens (t :: ts)).length := by
  have hlength := length_openPieces (hstray.ofPrefix (inFront_prefix_tokens tokens (t :: ts)))
  have hle := hstray _ (inFront_prefix_tokens tokens ts)
  rw [inFront_concat h, openings_concat, closings_concat, if_pos ht, if_neg (by rw [ht]; simp)]
    at hle
  rw [openAt]
  omega

/-- The pieces inside of one that is open, behind a token that does not end it. -/
theorem exists_openAt_tail {inner : List (Option Token)} (h : t :: ts <:+ tokens)
    (hopen : openAt tokens (t :: ts) = inner ++ k :: outer)
    (hclose : t.kind = .closeCurly → inner.length ≠ 0)
    (hsemi : t.kind = .semicolon → inner.length ≠ 0) :
    ∃ inner' : List (Option Token), inner'.length = depthAfter inner.length t ∧
      openAt tokens ts = inner' ++ k :: outer := by
  rw [openAt_tail h, hopen]
  by_cases hkind : t.kind = .openCurly
  · refine ⟨some t :: inner, ?_, ?_⟩
    · rw [depthAfter_of_openCurly hkind, List.length_cons]
    · rw [turnPiece_of_openCurly hkind, List.cons_append]
  · cases inner with
    | nil =>
        have hne : t.kind ≠ .closeCurly := fun h => hclose h rfl
        exact ⟨[], (depthAfter_zero hkind).symm,
          turnPiece_of_ne hkind hne fun h => hsemi h rfl⟩
    | cons f inner =>
        by_cases hclosing : t.kind = .closeCurly
        · refine ⟨inner, ?_, ?_⟩
          · rw [depthAfter_of_closeCurly hclosing, List.length_cons, Nat.add_sub_cancel]
          · rw [turnPiece_of_closeCurly hclosing, List.cons_append, List.tail_cons]
        · rw [depthAfter_of_ne hkind hclosing]
          by_cases hends : t.kind = .semicolon
          · exact ⟨some t :: inner, rfl, turnPiece_of_semicolon hends⟩
          · exact ⟨f :: inner, rfl, turnPiece_of_ne hkind hclosing hends⟩

/-- **The end of a piece**: the piece goes on up to a brace that closes its level, or
to a semicolon, which begins the next one. -/
theorem openAt_pieceEnd {inner : List (Option Token)} (hs : s <:+ tokens)
    (hopen : openAt tokens s = inner ++ k :: outer) (hne : pieceEnd inner.length s ≠ []) :
    (openAt tokens (pieceEnd inner.length s) = k :: outer ∧
        ∃ c ts, pieceEnd inner.length s = c :: ts ∧ c.kind = .closeCurly) ∨
      ∃ t, t.kind = .semicolon ∧ t :: pieceEnd inner.length s <:+ s ∧
        openAt tokens (pieceEnd inner.length s) = some t :: outer := by
  induction s generalizing inner with
  | nil => exact absurd rfl hne
  | cons t ts ih =>
      have hts : ts <:+ tokens := (List.suffix_cons t ts).trans hs
      by_cases hclose : inner.length = 0 ∧ t.kind = .closeCurly
      · rw [List.eq_nil_of_length_eq_zero hclose.1] at hopen
        rw [hclose.1, pieceEnd_of_closeCurly hclose.2]
        exact .inl ⟨hopen, t, ts, rfl, hclose.2⟩
      · by_cases hsemi : inner.length = 0 ∧ t.kind = .semicolon
        · rw [List.eq_nil_of_length_eq_zero hsemi.1] at hopen
          rw [hsemi.1, pieceEnd_of_semicolon hsemi.2]
          refine .inr ⟨t, hsemi.2, List.suffix_refl _, ?_⟩
          rw [openAt_tail hs, hopen, turnPiece_of_semicolon hsemi.2]
          rfl
        · have hclose' : t.kind = .closeCurly → inner.length ≠ 0 := fun h h' => hclose ⟨h', h⟩
          have hsemi' : t.kind = .semicolon → inner.length ≠ 0 := fun h h' => hsemi ⟨h', h⟩
          obtain ⟨inner', hlength, hopen'⟩ := exists_openAt_tail hs hopen hclose' hsemi'
          rw [pieceEnd_cons hclose' hsemi', ← hlength] at hne ⊢
          rcases ih hts hopen' hne with h | ⟨u, hu, hsuffix, h⟩
          · exact .inl h
          · exact .inr ⟨u, hu, hsuffix.trans (List.suffix_cons t ts), h⟩

end Place

/-! ## Failures and their pieces -/

/-- The pieces in which the failures of a log began. -/
def Visit.pieces (tokens : List Token) (log : List Visit) : List (Option Token) :=
  (Visit.failures log).map (Visit.piece tokens)

theorem Visit.pieces_cons (tokens : List Token) (v : Visit) (log : List Visit) :
    pieces tokens (v :: log) =
      pieces tokens log ++
        ((if v.failed then [v.piece tokens] else []) ++ pieces tokens v.inner) := by
  rw [pieces, failures_cons, List.map_append, List.map_append]
  split <;> rfl

/-- What is promised of a course: its failures began in different pieces, which have
begun on the way, or one is the piece `k` in which the course began.  The course stays
on its level, with the pieces `outer` around it, and if it stands in a piece in which
a statement failed, then on the brace that ends its level. -/
structure Confined (tokens : List Token) (scope : Scope) (s : List Token) (log : List Visit)
    (r : List Token) (k : Option Token) (outer : List (Option Token)) : Prop where
  begun : ∀ f ∈ Visit.pieces tokens log, f ∈ begunAt tokens r
  nodup : (Visit.pieces tokens log).Nodup
  fresh : ∀ f ∈ Visit.pieces tokens log, f ∈ begunAt tokens s → scope ≠ .statement ∧ f = k
  level : r ≠ [] → ∃ j, openAt tokens r = j :: outer ∧ (scope = .statement → j = k) ∧
    (j ∈ begunAt tokens s → j = k) ∧ (j ∈ Visit.pieces tokens log →
      scope = .block ∧ ∃ c ts, r = c :: ts ∧ c.kind = .closeCurly)

namespace Confined

variable {tokens : List Token} {scope : Scope} {s r b ts tail : List Token} {t o : Token}
  {log inner : List Visit} {k j : Option Token} {outer : List (Option Token)}

/-- Failures in pieces that begin further on come in addition. -/
theorem append (h : Confined tokens scope s log b k outer) (hb : b <:+ s)
    (hinner : (Visit.pieces tokens inner).Nodup)
    (hnew : ∀ f ∈ Visit.pieces tokens inner, f ∉ begunAt tokens b) :
    (Visit.pieces tokens log ++ Visit.pieces tokens inner).Nodup ∧
      ∀ f ∈ Visit.pieces tokens log ++ Visit.pieces tokens inner, f ∈ begunAt tokens s →
        scope ≠ .statement ∧ f = k := by
  constructor
  · refine List.nodup_append.mpr ⟨h.nodup, hinner, fun f hf g hg heq => ?_⟩
    exact hnew g hg (heq ▸ h.begun f hf)
  · intro f hf hbegun
    rcases List.mem_append.mp hf with hf | hf
    · exact h.fresh f hf hbegun
    · exact absurd (begunAt_mono hb hbegun) (hnew f hf)

/-- Pieces with failures have begun, also further on. -/
theorem begun_of_suffix (h : Confined tokens scope s log b k outer) (hr : r <:+ b) :
    ∀ f ∈ Visit.pieces tokens log, f ∈ begunAt tokens r :=
  fun f hf => begunAt_mono hr (h.begun f hf)

/-- Inside a statement only pieces that begin there have failures. -/
theorem new (h : Confined tokens .statement s log r k outer) :
    ∀ f ∈ Visit.pieces tokens log, f ∉ begunAt tokens s :=
  fun f hf hbegun => (h.fresh f hf hbegun).1 rfl

theorem start (hopen : openAt tokens s = k :: outer) : Confined tokens scope s [] s k outer where
  begun := by simp [Visit.pieces]
  nodup := .nil
  fresh := by simp [Visit.pieces]
  level _ := ⟨k, hopen, fun _ => rfl, fun _ => rfl, by simp [Visit.pieces]⟩

theorem plain (h : Confined tokens .statement s log (t :: ts) k outer)
    (htokens : t :: ts <:+ tokens) (ht : t.kind.Plain) :
    Confined tokens .statement s log ts k outer where
  begun := h.begun_of_suffix (List.suffix_cons t ts)
  nodup := h.nodup
  fresh := h.fresh
  level _ := by
    obtain ⟨j, hj, hstatement, hbegun, hfailed⟩ := h.level (by simp)
    refine ⟨j, ?_, hstatement, hbegun, fun hmem => ?_⟩
    · rw [openAt_tail htokens, hj, turnPiece_of_ne ht.1 ht.2.1 ht.2.2.1]
    · cases (hfailed hmem).1

theorem block (hnodup : tokens.Nodup) (htokens : o :: tail <:+ tokens) (hsuffix : o :: tail <:+ s)
    (hopen : openAt tokens s = k :: outer)
    (h : Confined tokens .statement s log (o :: tail) k outer)
    (hr : closing 0 tail <:+ tail)
    (hinner : Confined tokens .block tail inner (closing 0 tail) (some o) (k :: outer)) :
    Confined tokens .statement s (.block (o :: tail) (closing 0 tail) inner :: log)
      (closing 0 tail).tail k outer := by
  have hpieces : Visit.pieces tokens (.block (o :: tail) (closing 0 tail) inner :: log) =
      Visit.pieces tokens log ++ Visit.pieces tokens inner := Visit.pieces_cons _ _ _
  have hnew : ∀ f ∈ Visit.pieces tokens inner, f ∉ begunAt tokens (o :: tail) := by
    intro f hf hbegun
    rw [(hinner.fresh f hf (begunAt_mono (List.suffix_cons o tail) hbegun)).2] at hbegun
    exact not_mem_begunAt hnodup htokens (List.suffix_refl _) hbegun
  obtain ⟨hunique, hfresh⟩ := h.append hsuffix hinner.nodup hnew
  rw [← hpieces] at hunique hfresh
  refine ⟨fun f hf => ?_, hunique, hfresh, fun hne => ?_⟩
  · rw [hpieces, List.mem_append] at hf
    rcases hf with hf | hf
    · exact h.begun_of_suffix
        ((List.tail_suffix _).trans (hr.trans (List.suffix_cons o tail))) f hf
    · exact hinner.begun_of_suffix (List.tail_suffix _) f hf
  · -- behind the closing brace the pieces are those in front of the opening one
    obtain ⟨c, rest, hclosing⟩ :=
      List.exists_cons_of_ne_nil (fun h => hne (by rw [h]; rfl) : closing 0 tail ≠ [])
    obtain ⟨i, hi, -⟩ := hinner.level (by rw [hclosing]; simp)
    have hrest : c :: rest <:+ tokens := by
      rw [← hclosing]
      exact hr.trans ((List.suffix_cons o tail).trans htokens)
    rw [hclosing] at hi
    refine ⟨k, ?_, fun _ => rfl, fun _ => rfl, fun hmem => ?_⟩
    · rw [hclosing, List.tail_cons, openAt_tail hrest, hi,
        turnPiece_of_closeCurly (kind_of_closing_eq_cons hclosing), List.tail_cons]
    · exact absurd rfl (hfresh k hmem (mem_begunAt_of_openAt_eq hopen)).1

/-- Behind a semicolon of the level stands a piece without failures. -/
theorem level_of_semicolon {fs : List (Option Token)} {u : List Token} {semicolon : Token}
    (hnodup : tokens.Nodup) (hb : b <:+ tokens) (hbs : b <:+ s) (hscope : scope ≠ .statement)
    (hu : semicolon :: u <:+ b) (hopen : openAt tokens u = some semicolon :: outer)
    (hbegun : ∀ f ∈ fs, f ∈ begunAt tokens b) :
    ∃ j, openAt tokens u = j :: outer ∧ (scope = .statement → j = k) ∧
      (j ∈ begunAt tokens s → j = k) ∧
        (j ∈ fs → scope = .block ∧ ∃ c ts, u = c :: ts ∧ c.kind = .closeCurly) := by
  have hnew := not_mem_begunAt hnodup hb hu
  exact ⟨some semicolon, hopen, fun h => absurd h hscope,
    fun h => absurd (begunAt_mono hbs h) hnew, fun h => absurd (hbegun _ h) hnew⟩

theorem read {u after : List Token} {result : Stmt} {errors : List SyntaxError}
    (hnodup : tokens.Nodup) (htokens : b <:+ tokens) (hbs : b <:+ s) (hscope : scope ≠ .statement)
    (h : Confined tokens scope s log b k outer) (hj : openAt tokens b = j :: outer)
    (hbegun : j ∈ begunAt tokens s → j = k) (hfailed : j ∉ Visit.pieces tokens log)
    (hr : r <:+ b) (hinner : Confined tokens .statement b inner r j outer)
    (hend : r = u ∨ ∃ semicolon : Token, semicolon.kind = .semicolon ∧ r = semicolon :: u) :
    Confined tokens scope s (.statement b after (some result) errors inner :: log) u k outer := by
  have hpieces : Visit.pieces tokens (.statement b after (some result) errors inner :: log) =
      Visit.pieces tokens log ++ Visit.pieces tokens inner := Visit.pieces_cons _ _ _
  obtain ⟨hunique, hfresh⟩ := h.append hbs hinner.nodup hinner.new
  rw [← hpieces] at hunique hfresh
  have hbegunAt : ∀ f ∈ Visit.pieces tokens
      (.statement b after (some result) errors inner :: log), f ∈ begunAt tokens r := by
    intro f hf
    rw [hpieces, List.mem_append] at hf
    rcases hf with hf | hf
    · exact h.begun_of_suffix hr f hf
    · exact hinner.begun f hf
  rcases hend with rfl | ⟨semicolon, hkind, rfl⟩
  · refine ⟨hbegunAt, hunique, hfresh, fun hne => ?_⟩
    obtain ⟨i, hi, hij, -⟩ := hinner.level hne
    refine ⟨j, hij rfl ▸ hi, fun h => absurd h hscope, hbegun, fun hmem => ?_⟩
    rw [hpieces, List.mem_append] at hmem
    rcases hmem with hmem | hmem
    · exact absurd hmem hfailed
    · exact absurd (mem_begunAt_of_openAt_eq hj) (hinner.new j hmem)
  · have hu := List.suffix_cons semicolon u
    refine ⟨fun f hf => begunAt_mono hu (hbegunAt f hf), hunique, hfresh, fun _ => ?_⟩
    obtain ⟨i, hi, -⟩ := hinner.level (by simp)
    refine level_of_semicolon hnodup (hr.trans htokens) (hr.trans hbs) hscope
      (List.suffix_refl _) ?_ hbegunAt
    rw [openAt_tail (hr.trans htokens), hi, turnPiece_of_semicolon hkind, List.tail_cons]

theorem skipped {after : List Token} {errors : List SyntaxError} (hnodup : tokens.Nodup)
    (hstray : NoStrayBrace tokens) (htokens : b <:+ tokens) (hbs : b <:+ s)
    (hscope : scope ≠ .statement) (hprogram : scope = .program → outer = [])
    (h : Confined tokens scope s log b k outer) (hj : openAt tokens b = j :: outer)
    (hbegun : j ∈ begunAt tokens s → j = k) (hfailed : j ∉ Visit.pieces tokens log)
    (hr : r <:+ b) (hinner : Confined tokens .statement b inner r j outer) :
    Confined tokens scope s (.statement b after none errors inner :: log) (pieceEnd 0 r) k
      outer := by
  have hpiece : Visit.piece tokens (.statement b after none errors inner) = j := by
    rw [Visit.piece, Visit.before, hj, List.headD_cons]
  have hpieces : Visit.pieces tokens (.statement b after none errors inner :: log) =
      Visit.pieces tokens log ++ j :: Visit.pieces tokens inner := by
    rw [Visit.pieces_cons, hpiece]
    rfl
  obtain ⟨hunique, hfresh⟩ := h.append hbs hinner.nodup hinner.new
  have hjnew : j ∉ Visit.pieces tokens inner := fun hmem =>
    hinner.new j hmem (mem_begunAt_of_openAt_eq hj)
  have hbegunAt : ∀ f ∈ Visit.pieces tokens (.statement b after none errors inner :: log),
      f ∈ begunAt tokens r := by
    intro f hf
    rw [hpieces, List.mem_append, List.mem_cons] at hf
    rcases hf with hf | rfl | hf
    · exact h.begun_of_suffix hr f hf
    · exact begunAt_mono hr (mem_begunAt_of_openAt_eq hj)
    · exact hinner.begun f hf
  refine ⟨fun f hf => begunAt_mono (pieceEnd_suffix 0 r) (hbegunAt f hf), ?_, fun f hf hfs => ?_,
    fun hne => ?_⟩
  · rw [hpieces, List.perm_middle.nodup_iff, List.nodup_cons, List.mem_append, not_or]
    exact ⟨⟨hfailed, hjnew⟩, hunique⟩
  · rw [hpieces, List.mem_append, List.mem_cons] at hf
    rcases hf with hf | rfl | hf
    · exact hfresh f (List.mem_append_left _ hf) hfs
    · exact ⟨hscope, hbegun hfs⟩
    · exact hfresh f (List.mem_append_right _ hf) hfs
  · obtain ⟨i, hi, hij, -⟩ := hinner.level fun hr => hne (by rw [hr]; rfl)
    obtain rfl := hij rfl
    have hi' : openAt tokens r = [] ++ i :: outer := hi
    rcases openAt_pieceEnd (hr.trans htokens) hi' hne with ⟨hsame, c, cs, hcs, hc⟩ |
      ⟨semicolon, -, hsuffix, hnext⟩
    · refine ⟨i, hsame, fun h => absurd h hscope, hbegun, fun _ => ⟨?_, c, cs, hcs, hc⟩⟩
      -- outside of blocks a closing brace would be a stray one
      cases scope with
      | statement => exact absurd rfl hscope
      | block => rfl
      | program =>
          have hcs' : c :: cs <:+ tokens :=
            hcs ▸ (pieceEnd_suffix 0 r).trans (hr.trans htokens)
          have htwo := two_le_length_openAt hstray hcs' hc
          rw [← hcs, hsame, hprogram rfl, List.length_singleton] at htwo
          exact absurd htwo (by omega)
    · exact level_of_semicolon hnodup (hr.trans htokens) (hr.trans hbs) hscope hsuffix hnext
        hbegunAt

end Confined

/-- **Failures are confined to their pieces** on every course. -/
theorem Course.confined {exact : Prop} (he : exact) {tokens : List Token}
    (hnodup : tokens.Nodup) (hstray : NoStrayBrace tokens) {scope : Scope} {s r : List Token}
    {log : List Visit} (h : Course exact scope s log r) (hs : s <:+ tokens) {k : Option Token}
    {outer : List (Option Token)} (hopen : openAt tokens s = k :: outer)
    (hscope : scope = .program → outer = []) : Confined tokens scope s log r k outer := by
  induction h generalizing k outer with
  | start => exact .start hopen
  | plain h ht ih => exact (ih hs hopen hscope).plain (h.suffix.trans hs) ht
  | @block s tail rest after log inner o h ho hinner hafter hexact ih ihinner =>
      obtain ⟨rfl, rfl⟩ := hexact he
      have hlog := ih hs hopen hscope
      have htokens : o :: tail <:+ tokens := h.suffix.trans hs
      obtain ⟨j, hj, hstatement, -⟩ := hlog.level (by simp)
      obtain rfl := hstatement rfl
      have htail : openAt tokens tail = some o :: j :: outer := by
        rw [openAt_tail htokens, hj, turnPiece_of_openCurly ho]
      exact hlog.block hnodup htokens h.suffix hopen hinner.suffix
        (ihinner ((List.suffix_cons o tail).trans htokens) htail (by simp))
  | @read scope s ts rest after u log inner t result hne h hclose hinner hend ih ihinner =>
      have hlog := ih hs hopen hscope
      have htokens : t :: ts <:+ tokens := h.suffix.trans hs
      obtain ⟨j, hj, -, hbegun, hfailed⟩ := hlog.level (by simp)
      refine hlog.read hnodup htokens h.suffix hne hj hbegun (fun hmem => ?_) hinner.suffix
        (ihinner htokens hj (by simp)) hend
      obtain ⟨hblock, c, cs, heq, hc⟩ := hfailed hmem
      cases heq
      exact hclose hblock hc
  | @skipped scope s ts rest after u log inner t e hne h hclose hinner herror hleft hmoves hexact ih
      ihinner =>
      obtain rfl := hexact he
      have hlog := ih hs hopen hscope
      have htokens : t :: ts <:+ tokens := h.suffix.trans hs
      obtain ⟨j, hj, -, hbegun, hfailed⟩ := hlog.level (by simp)
      refine hlog.skipped hnodup hstray htokens h.suffix hne hscope hj hbegun (fun hmem => ?_)
        hinner.suffix (ihinner htokens hj (by simp))
      obtain ⟨-, c, cs, heq, hc⟩ := hfailed hmem
      cases heq
      exact hclose he hc
  | @stray s ts rest after log inner t c e h hinner hc herror ih ihinner =>
      have hlog := ih hs hopen hscope
      have htokens : t :: ts <:+ tokens := h.suffix.trans hs
      obtain ⟨j, hj, -⟩ := hlog.level (by simp)
      obtain ⟨i, hi, -⟩ := (ihinner htokens hj (by simp)).level (by simp)
      have htwo := two_le_length_openAt hstray (hinner.suffix.trans htokens) hc
      rw [hi, hscope rfl, List.length_singleton] at htwo
      exact absurd htwo (by omega)

/-! ## The failures of a source -/

/-- No token of a source that is shorter than 4 GiB comes twice. -/
theorem nodup_tokens {source : String} (hsize : source.utf8ByteSize < UInt32.size) :
    (Lexer.tokenize source).dropLast.Nodup := by
  have hascending := (Parser.ordered_ofSource hsize).ascending trivial
  rw [Parser.remaining, Parser.ahead_ofSource_eq_dropLast] at hascending
  refine (hascending.sublist (List.sublist_append_left _ _)).imp fun {t u} hlt heq => ?_
  rw [heq] at hlt
  exact UInt32.lt_irrefl _ hlt

/-- At the start only the first piece is open. -/
theorem openAt_self (tokens : List Token) : openAt tokens tokens = [none] := by
  rw [openAt, inFront, Nat.sub_self]
  rfl

theorem length_begunAt_nil (tokens : List Token) :
    (begunAt tokens []).length = tokens.countP Token.beginsPiece + 1 := by
  rw [begunAt, inFront, List.length_nil, Nat.sub_zero, List.take_length, begunPieces,
    List.length_cons, List.length_map, List.countP_eq_length_filter]

/-- Pieces begin behind semicolons and opening braces. -/
theorem countP_beginsPiece (ts : List Token) :
    ts.countP Token.beginsPiece =
      ts.countP (·.kind = .semicolon) + ts.countP (·.kind = .openCurly) := by
  induction ts with
  | nil => rfl
  | cons t ts ih =>
      rw [List.countP_cons, List.countP_cons, List.countP_cons, ih, Token.beginsPiece]
      cases t.kind <;> simp <;> omega

/-- **One failure for each piece**: where no closing brace is a stray one, at most one
of the statements that begin in a piece fails.  So there are no more errors than
semicolons and opening braces, and one more.  The source is shorter than 4 GiB. -/
theorem one_failure_for_each_piece {source : String} (hsize : source.utf8ByteSize < UInt32.size)
    (h : NoStrayBrace (Lexer.tokenize source).dropLast) :
    (Visit.pieces (Lexer.tokenize source).dropLast (parse source).visits).Nodup ∧
      (parse source).errors.length = (Visit.failures (parse source).visits).length ∧
      (parse source).errors.length ≤
        (Lexer.tokenize source).countP (·.kind = .semicolon) +
          (Lexer.tokenize source).countP (·.kind = .openCurly) + 1 := by
  obtain ⟨hcourse, herrors⟩ := course_parse source
  have hconfined := hcourse.confined hsize (nodup_tokens hsize) h (List.suffix_refl _)
    (openAt_self _) fun _ => rfl
  have hlength : (parse source).errors.length =
      (Visit.failures (parse source).visits).length := by
    rw [herrors, hcourse.length_recordedAll]
  refine ⟨hconfined.nodup, hlength, ?_⟩
  -- different pieces, all of which have begun, are no more than have begun
  have hle := (List.subperm_of_subset hconfined.nodup hconfined.begun).length_le
  rw [Visit.pieces, List.length_map, ← hlength, length_begunAt_nil] at hle
  have hsublist :=
    (List.dropLast_sublist (Lexer.tokenize source)).countP_le (p := Token.beginsPiece)
  rw [countP_beginsPiece (Lexer.tokenize source)] at hsublist
  omega

/-- One statement fails inside of the braces and one behind them. -/
theorem one_failure_for_each_piece_sample :
    "if (x) \x7b @ 1; 2 \x7d @ 3".utf8ByteSize < UInt32.size ∧
      NoStrayBrace (Lexer.tokenize "if (x) \x7b @ 1; 2 \x7d @ 3").dropLast ∧
      (Visit.pieces (Lexer.tokenize "if (x) \x7b @ 1; 2 \x7d @ 3").dropLast
        (parse "if (x) \x7b @ 1; 2 \x7d @ 3").visits).Nodup ∧
      (parse "if (x) \x7b @ 1; 2 \x7d @ 3").errors.length = 2 := by
  have hsize : "if (x) \x7b @ 1; 2 \x7d @ 3".utf8ByteSize < UInt32.size := by decide +kernel
  have h : NoStrayBrace (Lexer.tokenize "if (x) \x7b @ 1; 2 \x7d @ 3").dropLast := by
    decide +kernel
  refine ⟨hsize, h, (one_failure_for_each_piece hsize h).1, ?_⟩
  decide +kernel

/-- In a longer source a statement may be taken to have run into a brace of its own, and
what is left of its piece fails again. -/
theorem one_failure_for_each_piece_apart :
    NoStrayBrace (Lexer.tokenize (apart "f(fn() \x7b\x7d" ' ' (UInt32.size - 1) "@ 5);")).dropLast ∧
      ¬ (Visit.pieces
        (Lexer.tokenize (apart "f(fn() \x7b\x7d" ' ' (UInt32.size - 1) "@ 5);")).dropLast
        (parse (apart "f(fn() \x7b\x7d" ' ' (UInt32.size - 1) "@ 5);")).visits).Nodup := by
  have hturn : "f(fn() \x7b\x7d".utf8ByteSize + (UInt32.size - 1) = UInt32.size + 8 := by
    decide +kernel
  rw [parse_apart (by decide) (by decide) hturn,
    Lexer.tokenize_apart_of_turn (by decide) (by decide) hturn]
  decide +kernel

end ExprLang
