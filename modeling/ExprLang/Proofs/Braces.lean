/-
# Matching braces

Which closing brace belongs to an opening one, said by counting: between the two
the braces are balanced.  `closing` finds the brace that closes what is open, and
the skipping of a broken statement keeps it in place.  Main statements:
`matches_closing` (it is the matching brace, and there is none if it finds none),
`closing_tail_skipStatement`, and `BlockEnd.behind` (behind a block the braces around
are closed where they were closed in front of it).
-/
import ExprLang.Parser.Recovery
import Mathlib.Tactic.ByContra

namespace ExprLang

/-! ## Balanced tokens -/

/-- The number of opening braces among some tokens. -/
def openings (ts : List Token) : Nat :=
  ts.countP (·.kind = .openCurly)

/-- The number of closing braces among some tokens. -/
def closings (ts : List Token) : Nat :=
  ts.countP (·.kind = .closeCurly)

/-- Tokens that close `depth` open braces and those that they open themselves,
and on the way never more than are open. -/
structure Closes (depth : Nat) (ts : List Token) : Prop where
  never_more : ∀ us, us <+: ts → closings us ≤ depth + openings us
  all : closings ts = depth + openings ts

/-- Tokens the braces of which belong together: none of their beginnings closes
more than it opens, and all of them close as much as they open. -/
def BraceBalanced (ts : List Token) : Prop :=
  Closes 0 ts

/-- Behind an opening brace stand `tail`; `after` is what they are from the
matching closing brace on, and is empty when there is none. -/
def MatchesBrace (tail after : List Token) : Prop :=
  (∃ inside closing rest, tail = inside ++ closing :: rest ∧ BraceBalanced inside ∧
      closing.kind = .closeCurly ∧ after = closing :: rest) ∨
    (after = [] ∧ ∀ inside closing rest, tail = inside ++ closing :: rest →
      closing.kind = .closeCurly → ¬ BraceBalanced inside)

section Counts

variable {t : Token} {ts : List Token} {depth : Nat}

theorem openings_cons (t : Token) (ts : List Token) :
    openings (t :: ts) = openings ts + if t.kind = .openCurly then 1 else 0 := by
  simp [openings, List.countP_cons]

theorem closings_cons (t : Token) (ts : List Token) :
    closings (t :: ts) = closings ts + if t.kind = .closeCurly then 1 else 0 := by
  simp [closings, List.countP_cons]

theorem depthAfter_of_openCurly (h : t.kind = .openCurly) : depthAfter depth t = depth + 1 := by
  rw [depthAfter, h]

theorem depthAfter_of_closeCurly (h : t.kind = .closeCurly) : depthAfter depth t = depth - 1 := by
  rw [depthAfter, h]

theorem depthAfter_of_ne (h : t.kind ≠ .openCurly) (h' : t.kind ≠ .closeCurly) :
    depthAfter depth t = depth := by
  unfold depthAfter
  split
  · next hopen => exact absurd hopen h
  · next hclose => exact absurd hclose h'
  · rfl

theorem depthAfter_of_semicolon (h : t.kind = .semicolon) : depthAfter depth t = depth := by
  rw [depthAfter, h]

/-- The end marker opens and closes nothing. -/
theorem depthAfter_of_eof (h : t.kind = .eof) : depthAfter depth t = depth := by
  rw [depthAfter, h]

/-- Braces that are open around do not matter, as long as none of them is closed. -/
theorem depthAfter_add (d : Nat) (h : t.kind = .closeCurly → depth ≠ 0) :
    depthAfter (d + depth) t = d + depthAfter depth t := by
  by_cases hopen : t.kind = .openCurly
  · rw [depthAfter_of_openCurly hopen, depthAfter_of_openCurly hopen, Nat.add_assoc]
  · by_cases hclose : t.kind = .closeCurly
    · have := h hclose
      rw [depthAfter_of_closeCurly hclose, depthAfter_of_closeCurly hclose]
      omega
    · rw [depthAfter_of_ne hopen hclose, depthAfter_of_ne hopen hclose]

/-- No tokens close nothing. -/
theorem closes_nil_iff : Closes depth [] ↔ depth = 0 := by
  constructor
  · intro h
    have := h.all
    simpa [openings, closings] using this.symm
  · rintro rfl
    refine ⟨fun us hus => ?_, rfl⟩
    rw [List.prefix_nil.mp hus]
    exact Nat.le_refl _

/-- What tokens close, one token at a time. -/
theorem closes_cons_iff :
    Closes depth (t :: ts) ↔
      (t.kind = .closeCurly → depth ≠ 0) ∧ Closes (depthAfter depth t) ts := by
  -- both counts change with the first token by as much as the depth does
  have hafter : ∀ us, (t.kind = .closeCurly → depth ≠ 0) →
      (closings (t :: us) ≤ depth + openings (t :: us) ↔
        closings us ≤ depthAfter depth t + openings us) ∧
      (closings (t :: us) = depth + openings (t :: us) ↔
        closings us = depthAfter depth t + openings us) := by
    intro us hne
    rw [openings_cons, closings_cons]
    by_cases hopen : t.kind = .openCurly
    · rw [depthAfter_of_openCurly hopen, if_pos hopen, if_neg (by rw [hopen]; simp)]
      omega
    · by_cases hclose : t.kind = .closeCurly
      · have := hne hclose
        rw [depthAfter_of_closeCurly hclose, if_pos hclose, if_neg hopen]
        omega
      · rw [depthAfter_of_ne hopen hclose, if_neg hopen, if_neg hclose]
        omega
  constructor
  · intro h
    have hne : t.kind = .closeCurly → depth ≠ 0 := by
      rintro hkind rfl
      have hfirst := h.never_more [t] ⟨ts, rfl⟩
      simp [openings, closings, hkind] at hfirst
    refine ⟨hne, fun us hus => ?_, (hafter ts hne).2.mp h.all⟩
    exact (hafter us hne).1.mp (h.never_more (t :: us) (List.cons_prefix_cons.mpr ⟨rfl, hus⟩))
  · rintro ⟨hne, h⟩
    refine ⟨fun us hus => ?_, (hafter ts hne).2.mpr h.all⟩
    rcases List.prefix_cons_iff.mp hus with rfl | ⟨vs, rfl, hvs⟩
    · simp [closings]
    · exact (hafter vs hne).1.mpr (h.never_more vs hvs)

instance Closes.decidable : (depth : Nat) → (ts : List Token) → Decidable (Closes depth ts)
  | _, [] => decidable_of_iff _ closes_nil_iff.symm
  | depth, t :: ts =>
      have := Closes.decidable (depthAfter depth t) ts
      decidable_of_iff _ closes_cons_iff.symm

instance (ts : List Token) : Decidable (BraceBalanced ts) :=
  inferInstanceAs (Decidable (Closes 0 ts))

end Counts

/-! ## The closing brace -/

/-- What tokens are from the brace on that closes what was open before the
`depth` braces opened last. -/
def closing (depth : Nat) : List Token → List Token
  | [] => []
  | t :: ts =>
      if depth = 0 ∧ t.kind = .closeCurly then t :: ts else closing (depthAfter depth t) ts

@[simp]
theorem closing_nil (depth : Nat) : closing depth [] = [] := rfl

theorem closing_cons_of_closeCurly {t : Token} {ts : List Token} (h : t.kind = .closeCurly) :
    closing 0 (t :: ts) = t :: ts := by
  rw [closing, if_pos ⟨rfl, h⟩]

theorem closing_cons {depth : Nat} {t : Token} {ts : List Token}
    (h : t.kind = .closeCurly → depth ≠ 0) :
    closing depth (t :: ts) = closing (depthAfter depth t) ts := by
  rw [closing, if_neg fun hboth => h hboth.2 hboth.1]

/-- The closing brace is further on. -/
theorem closing_suffix (depth : Nat) (ts : List Token) : closing depth ts <:+ ts := by
  induction ts generalizing depth with
  | nil => exact List.suffix_refl _
  | cons t ts ih =>
      rw [closing]
      split
      · exact List.suffix_refl _
      · exact (ih _).trans (List.suffix_cons t ts)

/-- **The closing brace** is the one behind tokens that close the open braces. -/
theorem closing_eq_cons_iff {depth : Nat} {ts : List Token} {t : Token} {rest : List Token} :
    closing depth ts = t :: rest ↔
      ∃ inside, ts = inside ++ t :: rest ∧ t.kind = .closeCurly ∧ Closes depth inside := by
  induction ts generalizing depth with
  | nil => simp
  | cons u us ih =>
      constructor
      · intro h
        by_cases hstop : depth = 0 ∧ u.kind = .closeCurly
        · rw [closing, if_pos hstop] at h
          cases h
          exact ⟨[], rfl, hstop.2, closes_nil_iff.mpr hstop.1⟩
        · rw [closing, if_neg hstop] at h
          obtain ⟨inside, rfl, ht, hinside⟩ := ih.mp h
          exact ⟨u :: inside, rfl, ht, closes_cons_iff.mpr ⟨fun hu hd => hstop ⟨hd, hu⟩, hinside⟩⟩
      · rintro ⟨inside, hus, ht, hinside⟩
        cases inside with
        | nil =>
            rw [closes_nil_iff] at hinside
            cases hus
            rw [hinside, closing_cons_of_closeCurly ht]
        | cons v inside =>
            cases hus
            obtain ⟨hne, hinside⟩ := closes_cons_iff.mp hinside
            rw [closing_cons hne]
            exact ih.mpr ⟨inside, rfl, ht, hinside⟩

/-- **It is the matching brace**, and if none is found then there is none. -/
theorem matches_closing (tail : List Token) : MatchesBrace tail (closing 0 tail) := by
  cases h : closing 0 tail with
  | nil =>
      refine .inr ⟨rfl, fun inside t rest htail ht hinside => ?_⟩
      have hfound := closing_eq_cons_iff.mpr ⟨inside, htail, ht, hinside⟩
      rw [h] at hfound
      cases hfound
  | cons t rest =>
      obtain ⟨inside, htail, ht, hinside⟩ := closing_eq_cons_iff.mp h
      exact .inl ⟨inside, t, rest, htail, hinside, ht, rfl⟩

/-- No other brace is. -/
theorem MatchesBrace.eq_closing {tail after : List Token} (h : MatchesBrace tail after) :
    after = closing 0 tail := by
  rcases h with ⟨inside, t, rest, htail, hinside, ht, rfl⟩ | ⟨rfl, hnone⟩
  · exact (closing_eq_cons_iff.mpr ⟨inside, htail, ht, hinside⟩).symm
  · refine Eq.symm (List.eq_nil_iff_forall_not_mem.mpr fun t ht => ?_)
    obtain ⟨c, rest, hclosing⟩ := List.exists_cons_of_ne_nil (List.ne_nil_of_mem ht)
    obtain ⟨inside, htail, hc, hinside⟩ := closing_eq_cons_iff.mp hclosing
    exact hnone inside c rest htail hc hinside

/-- Only a closing brace closes. -/
theorem kind_of_closing_eq_cons {depth : Nat} {ts : List Token} {t : Token} {rest : List Token}
    (h : closing depth ts = t :: rest) : t.kind = .closeCurly := by
  obtain ⟨_, -, ht, -⟩ := closing_eq_cons_iff.mp h
  exact ht

/-- What closes outer braces stands behind what closes the inner ones. -/
theorem closing_add (k d : Nat) (ts : List Token) :
    closing (k + 1 + d) ts = closing d (closing k ts).tail := by
  induction ts generalizing k with
  | nil => rfl
  | cons t ts ih =>
      have hne : t.kind = .closeCurly → k + 1 + d ≠ 0 := fun _ => by omega
      rw [closing_cons hne]
      -- either the inner braces are closed here, or the first token changes both depths alike
      by_cases hstop : k = 0 ∧ t.kind = .closeCurly
      · obtain ⟨rfl, ht⟩ := hstop
        rw [closing_cons_of_closeCurly ht, List.tail_cons, depthAfter_of_closeCurly ht]
        congr 1
        omega
      · have hk : t.kind = .closeCurly → k ≠ 0 := fun ht hk => hstop ⟨hk, ht⟩
        have hadd := depthAfter_add (1 + d) hk
        rw [closing_cons hk, ← ih]
        congr 1
        rw [show k + 1 + d = 1 + d + k by omega, hadd]
        omega

/-- Skipping stops on the token where it is, or goes on to the next one, which
then is no brace that closes what is around. -/
theorem skipStatement_cons (depth : Nat) (t : Token) (ts : List Token) :
    skipStatement depth (t :: ts) = t :: ts ∨
      (skipStatement depth (t :: ts) <:+ ts ∧
        (depthAfter depth t = 0 → ∀ u ∈ ts.head?, u.kind ≠ .closeCurly)) := by
  cases ts with
  | nil => exact .inl (skipStatement_singleton depth t)
  | cons u us =>
      rw [skipStatement_cons_cons]
      split
      · exact .inl rfl
      · next h =>
          refine .inr ⟨skipStatement_suffix _ _, fun hdepth v hv => ?_⟩
          cases hv
          exact fun hu => h ⟨hdepth, .inr hu⟩

theorem depthAfter_zero {t : Token} (h : t.kind ≠ .openCurly) : depthAfter 0 t = 0 := by
  by_cases hclose : t.kind = .closeCurly
  · rw [depthAfter_of_closeCurly hclose]
  · exact depthAfter_of_ne h hclose

/-- A closing brace on which skipping stops is where it began or further on, and
not right behind where it began unless a block was opened there. -/
theorem mem_of_skipStatement_eq_cons {t u : Token} {ts us : List Token}
    (h : skipStatement 0 (t :: ts) = u :: us) (hu : u.kind = .closeCurly) :
    u = t ∨ u ∈ ts ∧ (t.kind ≠ .openCurly → u ∈ ts.tail) := by
  rcases skipStatement_cons 0 t ts with hstay | ⟨hsuffix, hnext⟩
  · rw [hstay, List.cons.injEq] at h
    exact .inl h.1.symm
  · rw [h] at hsuffix
    refine .inr ⟨hsuffix.mem List.mem_cons_self, fun hopen => ?_⟩
    cases ts with
    | nil => exact absurd hsuffix (by simp)
    | cons v vs =>
        rcases List.suffix_cons_iff.mp hsuffix with heq | hsuffix
        · cases heq
          exact absurd hu (hnext (depthAfter_zero hopen) u rfl)
        · exact hsuffix.mem List.mem_cons_self

/-- Past the rest of a broken statement the closing braces are the same, if the
token on which it broke is taken as part of it. -/
theorem closing_tail_skipStatement (d depth : Nat) (t : Token) (ts : List Token) :
    closing d (skipStatement depth (t :: ts)).tail = closing (d + depthAfter depth t) ts := by
  induction ts generalizing depth t with
  | nil =>
      rw [skipStatement_singleton]
      rfl
  | cons u us ih =>
      rw [skipStatement_cons_cons]
      split
      · next h => rw [h.1, List.tail_cons, Nat.add_zero]
      · next h =>
          have hne : u.kind = .closeCurly → depthAfter depth t ≠ 0 := fun hu hd => h ⟨hd, .inr hu⟩
          rw [ih, closing_cons fun hu => Nat.ne_of_gt (Nat.lt_of_lt_of_le
            (Nat.pos_of_ne_zero (hne hu)) (Nat.le_add_left _ d)), depthAfter_add d hne]

/-! ## The braces around -/

/-- Braces that were opened further out are closed further on. -/
theorem closing_succ_suffix (depth : Nat) (ts : List Token) :
    closing (depth + 1) ts <:+ closing depth ts := by
  rw [show depth + 1 = depth + 1 + 0 from rfl, closing_add depth 0]
  exact (closing_suffix _ _).trans (List.tail_suffix _)

/-- The braces that are open around some tokens `s` are closed among the tokens `r`,
which are left of them: if `exact` at the same places, and in any case no later. -/
structure ClosedAlike (exact : Prop) (s r : List Token) : Prop where
  no_later : ∀ depth, closing depth s <:+ closing depth r
  same : exact → ∀ depth, closing depth r = closing depth s

/-- A block is over, behind whose opening brace there were the tokens `tail`: what is
left begins with a closing brace, or is nothing. -/
structure BlockEnd (exact : Prop) (tail r : List Token) : Prop where
  brace : ∀ t ∈ r.head?, t.kind = .closeCurly
  closed : ClosedAlike exact tail r

section Around

variable {exact : Prop} {s r ts : List Token} {t : Token}

@[refl]
theorem ClosedAlike.refl (s : List Token) : ClosedAlike exact s s :=
  ⟨fun _ => List.suffix_refl _, fun _ _ => rfl⟩

/-- Only the places count at which braces are closed. -/
theorem ClosedAlike.congr (h : ClosedAlike exact s r)
    (heq : ∀ depth, closing depth ts = closing depth r) : ClosedAlike exact s ts :=
  ⟨fun depth => (heq depth).symm ▸ h.no_later depth,
    fun he depth => (heq depth).trans (h.same he depth)⟩

/-- A token that is no brace is taken without further ado. -/
theorem ClosedAlike.take (h : ClosedAlike exact s (t :: ts)) (hopen : t.kind ≠ .openCurly)
    (hclose : t.kind ≠ .closeCurly) : ClosedAlike exact s ts := by
  refine h.congr fun depth => ?_
  rw [closing_cons fun h => absurd h hclose, depthAfter_of_ne hopen hclose]

/-- A closing brace that is not taken after all closes early what is around. -/
theorem ClosedAlike.of_tail (h : ClosedAlike exact s ts) (hexact : ¬ exact)
    (ht : t.kind = .closeCurly) : ClosedAlike exact s (t :: ts) := by
  refine ⟨fun depth => (h.no_later depth).trans ?_, fun he => absurd he hexact⟩
  cases depth with
  | zero =>
      rw [closing_cons_of_closeCurly ht]
      exact (closing_suffix 0 ts).trans (List.suffix_cons t ts)
  | succ depth =>
      rw [closing_cons fun _ => Nat.succ_ne_zero depth, depthAfter_of_closeCurly ht]
      exact closing_succ_suffix depth ts

/-- Past the rest of a broken statement they are closed where they were, -/
theorem ClosedAlike.skip (h : ClosedAlike exact s r) (hr : ∀ t ∈ r.head?, t.kind ≠ .closeCurly) :
    ClosedAlike exact s (skipStatement 0 r).tail := by
  cases r with
  | nil => exact h
  | cons t ts =>
      have hclose : t.kind ≠ .closeCurly := hr t rfl
      refine h.congr fun depth => ?_
      rw [closing_tail_skipStatement, ← depthAfter_add depth fun h => absurd h hclose, Nat.add_zero,
        closing_cons fun h => absurd h hclose]

/-- also when the token on which it broke was taken before. -/
theorem ClosedAlike.skip_taken (h : ClosedAlike exact s r.tail)
    (hr : ∀ t ∈ r.head?, t.kind ≠ .openCurly) :
    ClosedAlike exact s (skipStatement 0 r).tail := by
  cases r with
  | nil => exact h
  | cons t ts =>
      refine h.congr fun depth => ?_
      rw [closing_tail_skipStatement, depthAfter_zero (hr t rfl), Nat.add_zero, List.tail_cons]

/-- Where a block ends nothing stands in front of its closing brace. -/
theorem BlockEnd.closing_eq (h : ∀ t ∈ r.head?, t.kind = .closeCurly) : closing 0 r = r := by
  cases r with
  | nil => rfl
  | cons t ts => exact closing_cons_of_closeCurly (h t rfl)

/-- Where positions tell tokens apart a block ends on its own brace. -/
theorem BlockEnd.eq_closing (h : BlockEnd exact ts r) (he : exact) : r = closing 0 ts := by
  rw [← h.closed.same he, closing_eq h.brace]

/-- In any case it ends no later. -/
theorem BlockEnd.closing_suffix (h : BlockEnd exact ts r) : closing 0 ts <:+ r := by
  have hle := h.closed.no_later 0
  rwa [closing_eq h.brace] at hle

/-- **Behind a block** the braces around it are closed where they were. -/
theorem BlockEnd.behind (h : BlockEnd exact ts r) (hs : ClosedAlike exact s (t :: ts))
    (ht : t.kind = .openCurly) : ClosedAlike exact s r.tail := by
  -- the block took one level of braces, which its opening brace had added
  have hbefore : ∀ depth, closing depth (t :: ts) = closing (depth + 1) ts := fun depth => by
    rw [closing_cons fun hclose => absurd (ht.symm.trans hclose) (by simp),
      depthAfter_of_openCurly ht]
  have hbehind : ∀ depth, closing depth r.tail = closing (depth + 1) r := fun depth => by
    cases r with
    | nil => rfl
    | cons c cs =>
        rw [closing_cons fun _ => Nat.succ_ne_zero depth, depthAfter_of_closeCurly (h.brace c rfl)]
        rfl
  refine ⟨fun depth => ?_, fun he depth => ?_⟩
  · rw [hbehind]
    exact (hbefore depth ▸ hs.no_later depth).trans (h.closed.no_later (depth + 1))
  · rw [hbehind, h.closed.same he, ← hbefore, hs.same he]

end Around

end ExprLang
