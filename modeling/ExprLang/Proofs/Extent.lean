/-
# How far a statement goes

A statement takes no semicolon outside of its own braces, except as its last token,
and no brace that closes what is around it.  What it takes of the tokens it began
with is a stretch (`Stretch`): plain tokens and whole blocks, as long as it can be
read, and then up to where skipping stops.  Main statements: `statements_stay_inside`
and, from 4 GiB on, `statements_stay_inside_apart`.
-/
import ExprLang.Proofs.CutOff

namespace ExprLang

/-! ## Braces without a match -/

/-- A closing brace behind some tokens would match none of their opening braces. -/
def ClosesNone (us : List Token) : Prop :=
  ∀ front opening inside, us = front ++ opening :: inside → opening.kind = .openCurly →
    ¬ BraceBalanced inside

/-- Tokens that leave no brace open, and close none of those around, are balanced. -/
theorem closes_of_depthBehind_eq_zero {depth : Nat} {ts : List Token}
    (hclosing : closing depth ts = []) (h : depthBehind depth ts = 0) : Closes depth ts := by
  induction ts generalizing depth with
  | nil => exact closes_nil_iff.mpr h
  | cons t ts ih =>
      have hne : t.kind = .closeCurly → depth ≠ 0 := by
        rintro ht rfl
        rw [closing_cons_of_closeCurly ht] at hclosing
        cases hclosing
      rw [closing_cons hne] at hclosing
      exact closes_cons_iff.mpr ⟨hne, ih hclosing h⟩

/-- **A closing brace matches an earlier brace** exactly when one is left open in
front of it. -/
theorem closesNone_iff {us : List Token} : ClosesNone us ↔ unclosed us = [] := by
  constructor
  · intro h
    induction us with
    | nil => rfl
    | cons t ts ih =>
        have hts : unclosed ts = [] :=
          ih fun front opening inside hsplit => h (t :: front) opening inside (by rw [hsplit]; rfl)
        have hdepth : depthBehind 0 ts = 0 := by rw [← length_unclosed, hts]; rfl
        rw [unclosed, if_neg, hts]
        rintro ⟨ht, hclosing⟩
        exact h [] t ts rfl ht (closes_of_depthBehind_eq_zero hclosing hdepth)
  · rintro h front opening inside rfl hopening hinside
    have hlength := length_unclosed (front ++ opening :: inside)
    -- the last brace stays open, whatever is open in front of it
    rw [h, depthBehind_append, depthBehind_cons, depthAfter_of_openCurly hopening,
      ← Nat.add_zero (_ + 1), depthBehind_of_closes hinside] at hlength
    cases hlength

theorem unclosed_eq_nil_iff {us : List Token} : unclosed us = [] ↔ depthBehind 0 us = 0 := by
  rw [← length_unclosed, List.length_eq_zero_iff]

theorem closesNone_iff_depthBehind {us : List Token} :
    ClosesNone us ↔ depthBehind 0 us = 0 := by
  rw [closesNone_iff, unclosed_eq_nil_iff]

/-! ## Stretches -/

/-- Tokens at none of which a statement has to end, with `depth` braces open in it. -/
def Unended (depth : Nat) : List Token → Prop
  | [] => True
  | t :: ts =>
      (depth = 0 → t.kind ≠ .semicolon ∧ t.kind ≠ .closeCurly) ∧ Unended (depthAfter depth t) ts

theorem unended_append {depth : Nat} {us vs : List Token} :
    Unended depth (us ++ vs) ↔ Unended depth us ∧ Unended (depthBehind depth us) vs := by
  induction us generalizing depth with
  | nil => simp [Unended, depthBehind]
  | cons u us ih => rw [List.cons_append, Unended, Unended, ih, depthBehind_cons, and_assoc]

/-- Such tokens have no semicolon and no closing brace outside of their own braces. -/
theorem Unended.ne_zero {us ws : List Token} {t : Token} (h : Unended 0 (us ++ t :: ws))
    (ht : t.kind = .semicolon ∨ t.kind = .closeCurly) : depthBehind 0 us ≠ 0 := by
  intro hdepth
  have hstops := (unended_append.mp h).2.1 hdepth
  rcases ht with ht | ht
  · exact hstops.1 ht
  · exact hstops.2 ht

/-- Up to the brace that closes it, a block ends no statement around it. -/
theorem exists_eq_append_closing (depth : Nat) (ts : List Token) :
    ∃ inside, ts = inside ++ closing depth ts ∧ Unended (depth + 1) inside ∧
      (closing depth ts ≠ [] → depthBehind (depth + 1) inside = 1) := by
  induction ts generalizing depth with
  | nil => exact ⟨[], rfl, trivial, fun h => absurd rfl h⟩
  | cons t ts ih =>
      by_cases hstop : depth = 0 ∧ t.kind = .closeCurly
      · obtain ⟨rfl, ht⟩ := hstop
        rw [closing_cons_of_closeCurly ht]
        exact ⟨[], rfl, trivial, fun _ => rfl⟩
      · have hne : t.kind = .closeCurly → depth ≠ 0 := fun ht hd => hstop ⟨hd, ht⟩
        have hdepth : depthAfter (depth + 1) t = depthAfter depth t + 1 := by
          rw [Nat.add_comm, depthAfter_add 1 hne, Nat.add_comm]
        obtain ⟨inside, hts, hinside, hbehind⟩ := ih (depthAfter depth t)
        rw [closing_cons hne]
        refine ⟨t :: inside, congrArg (t :: ·) hts, ⟨fun h => by omega, ?_⟩, ?_⟩
        · rwa [hdepth]
        · rwa [depthBehind_cons, hdepth]

/-- From the tokens `s` to the tokens `r`: nothing was taken at which a statement has to
end, and unless the input is over all braces opened on the way are closed. -/
def Stretch (s r : List Token) : Prop :=
  ∃ took, s = took ++ r ∧ Unended 0 took ∧ (r ≠ [] → depthBehind 0 took = 0)

namespace Stretch

variable {s r : List Token}

theorem refl (s : List Token) : Stretch s s :=
  ⟨[], rfl, trivial, fun _ => rfl⟩

theorem suffix (h : Stretch s r) : r <:+ s := by
  obtain ⟨took, hs, -⟩ := h
  exact ⟨took, hs.symm⟩

/-- A plain token goes on with the stretch. -/
theorem plain {t : Token} (h : Stretch s (t :: r)) (ht : t.kind.Plain) : Stretch s r := by
  obtain ⟨took, rfl, htook, hdepth⟩ := h
  have hzero := hdepth (by simp)
  refine ⟨took ++ [t], by simp, ?_, fun _ => ?_⟩
  · exact unended_append.mpr ⟨htook, fun _ => ⟨ht.2.2.1, ht.2.1⟩, trivial⟩
  · rw [depthBehind_append, hzero]
    exact depthAfter_zero ht.1

/-- So does a block, with the brace that closes it. -/
theorem block {o : Token} {tail : List Token} (h : Stretch s (o :: tail))
    (ho : o.kind = .openCurly) : Stretch s (closing 0 tail).tail := by
  obtain ⟨took, rfl, htook, hdepth⟩ := h
  have hzero := hdepth (by simp)
  obtain ⟨inside, htail, hinside, hbehind⟩ := exists_eq_append_closing 0 tail
  have hopened : Unended 0 (took ++ o :: inside) := by
    refine unended_append.mpr ⟨htook, fun _ => by simp [ho], ?_⟩
    rwa [hzero, depthAfter_of_openCurly ho]
  cases hclosing : closing 0 tail with
  | nil =>
      rw [hclosing, List.append_nil] at htail
      exact ⟨took ++ o :: inside, by simp [htail], hopened, fun h => absurd rfl h⟩
  | cons c rest =>
      rw [hclosing] at htail hbehind
      have hc := kind_of_closing_eq_cons hclosing
      have hone : depthBehind 0 (took ++ o :: inside) = 1 := by
        rw [depthBehind_append, hzero, depthBehind_cons, depthAfter_of_openCurly ho]
        exact hbehind (by simp)
      refine ⟨took ++ o :: inside ++ [c], by simp [htail], ?_, fun _ => ?_⟩
      · exact unended_append.mpr ⟨hopened, by simp [hone], trivial⟩
      · rw [depthBehind_append, hone]
        exact depthAfter_of_closeCurly hc

end Stretch

/-! ## Where skipping stops -/

/-- A statement that took the tokens `took` has to end on the token behind them: a
semicolon, or one with a closing brace or nothing at all behind it, each with
`depth` braces open in front of the statement. -/
def HasToEnd (depth : Nat) (took : List Token) (t : Token) (rest : List Token) : Prop :=
  (t.kind = .semicolon ∧ depthBehind depth took = 0) ∨ rest = [] ∨
    ∃ u us, rest = u :: us ∧ u.kind = .closeCurly ∧ depthBehind depth (took ++ [t]) = 0

/-- **Skipping stops** at the first token on which the statement has to end.  The
token where it starts must not itself close what is around. -/
theorem exists_eq_append_skipStatement (depth : Nat) (t : Token) (ts : List Token)
    (ht : depth = 0 → t.kind ≠ .closeCurly) :
    ∃ skipped u rest, t :: ts = skipped ++ u :: rest ∧
      skipStatement depth (t :: ts) = u :: rest ∧ Unended depth skipped ∧
      (depthBehind depth skipped = 0 → u.kind ≠ .closeCurly) ∧ HasToEnd depth skipped u rest := by
  induction ts generalizing depth t with
  | nil =>
      exact ⟨[], t, [], rfl, skipStatement_singleton depth t, trivial, ht, .inr (.inl rfl)⟩
  | cons v vs ih =>
      by_cases hstop : depthAfter depth t = 0 ∧ (t.kind = .semicolon ∨ v.kind = .closeCurly)
      · have hstay : skipStatement depth (t :: v :: vs) = t :: v :: vs := by
          rw [skipStatement_cons_cons, if_pos hstop]
        refine ⟨[], t, v :: vs, rfl, hstay, trivial, ht, ?_⟩
        obtain ⟨hzero, hkind | hkind⟩ := hstop
        · rw [depthAfter_of_semicolon hkind] at hzero
          exact .inl ⟨hkind, hzero⟩
        · exact .inr (.inr ⟨v, vs, rfl, hkind, hzero⟩)
      · obtain ⟨skipped, u, rest, hsplit, hskip, hskipped, hu, hend⟩ :=
          ih (depthAfter depth t) v fun hzero hkind => hstop ⟨hzero, .inr hkind⟩
        refine ⟨t :: skipped, u, rest, congrArg (t :: ·) hsplit, ?_, ⟨fun hzero => ?_, hskipped⟩,
          hu, hend⟩
        · rw [← hskip, skipStatement_cons_cons, if_neg hstop]
        · refine ⟨fun hkind => hstop ⟨?_, .inl hkind⟩, ht hzero⟩
          rwa [depthAfter_of_semicolon hkind]

/-- Skipping goes on with a stretch. -/
theorem Stretch.skip {s ts : List Token} {t : Token} (h : Stretch s (t :: ts))
    (ht : t.kind ≠ .closeCurly) :
    ∃ took u rest, s = took ++ u :: rest ∧ skipStatement 0 (t :: ts) = u :: rest ∧
      Unended 0 took ∧ (u.kind = .closeCurly → depthBehind 0 took ≠ 0) ∧
      HasToEnd 0 took u rest := by
  obtain ⟨took, rfl, htook, hdepth⟩ := h
  have hzero := hdepth (by simp)
  have hbehind : ∀ us, depthBehind 0 (took ++ us) = depthBehind 0 us := by
    intro us
    rw [depthBehind_append, hzero]
  obtain ⟨skipped, u, rest, hsplit, hskip, hskipped, hu, hend⟩ :=
    exists_eq_append_skipStatement 0 t ts fun _ => ht
  refine ⟨took ++ skipped, u, rest, ?_, hskip, ?_, fun hkind hopen => ?_, ?_⟩
  · rw [hsplit, List.append_assoc]
  · rw [unended_append, hzero]
    exact ⟨htook, hskipped⟩
  · rw [hbehind] at hopen
    exact hu hopen hkind
  · rw [HasToEnd, List.append_assoc, hbehind, hbehind]
    exact hend

/-! ## Statements as they run -/

namespace Parser

variable {s : List Token} {p q : Parser}

/-- With a token taken, the stretch goes up to it and ends behind it. -/
theorem exists_took (hq : q.Regular) (h : Stretch s q.ahead.tail) (hsuffix : q.ahead <:+ s) :
    ∃ took, s = took ++ q.ahead ∧ Unended 0 took ∧
      (q.current.kind = .closeCurly → depthBehind 0 took ≠ 0) ∧
      (q.ahead.tail ≠ [] → depthBehind 0 (took ++ [q.current]) = 0) := by
  cases hahead : q.ahead with
  | nil =>
      rw [hahead] at h
      obtain ⟨took, rfl, htook, -⟩ := h
      refine ⟨took, rfl, htook, fun hkind => ?_, fun h => absurd rfl h⟩
      rw [hq.ahead_eq_nil_iff.mp hahead] at hkind
      cases hkind
  | cons t ts =>
      rw [hahead] at h hsuffix
      obtain ⟨took, rfl⟩ := hsuffix
      obtain ⟨took', hs, htook, hdepth⟩ := h
      obtain rfl : took ++ [t] = took' :=
        List.append_cancel_right ((List.append_assoc took [t] ts).trans hs)
      rw [current_of_ahead_eq hahead]
      exact ⟨took, rfl, (unended_append.mp htook).1, fun hkind => htook.ne_zero (.inr hkind),
        hdepth⟩

/-- A state is behind a statement that began in another one: what it took ends the
statement nowhere, and the token it is left on closes nothing around the statement,
unless the statement ran into it; if it could not be read it has to end there. -/
def Left (s : List Token) (result : Option Stmt) (q : Parser) : Prop :=
  ∃ took, s = took ++ q.ahead ∧ Unended 0 took ∧
    ((result = none ∧ q.ranIntoClosingBrace = true ∧ depthBehind 0 took = 0) ∨
      ((q.current.kind = .closeCurly → depthBehind 0 took ≠ 0) ∧
        (result = none → ∀ t rest, q.ahead = t :: rest → HasToEnd 0 took t rest)))

/-- A statement that broke may be left where it has to end. -/
theorem left_of_hasToEnd {took ts : List Token} {t : Token} (hs : s = took ++ t :: ts)
    (htook : Unended 0 took) (hclose : t.kind = .closeCurly → depthBehind 0 took ≠ 0)
    (hend : HasToEnd 0 took t ts) (hq : q.ahead = t :: ts) : Left s none q := by
  refine ⟨took, hq.symm ▸ hs, htook, .inr ⟨?_, fun _ u us hu => ?_⟩⟩
  · rwa [current_of_ahead_eq hq]
  · obtain ⟨rfl, rfl⟩ := List.cons.inj (hq.symm.trans hu)
    exact hend

/-- A statement is left where skipping from a token that is still to be taken leads. -/
theorem left_of_skip {t : Token} {ts : List Token} (h : Stretch s (t :: ts))
    (ht : t.kind ≠ .closeCurly) (hq : q.ahead = skipStatement 0 (t :: ts)) : Left s none q := by
  obtain ⟨took, u, rest, hs, hskip, htook, hu, hend⟩ := h.skip ht
  exact left_of_hasToEnd hs htook hu hend (hq.trans hskip)

/-- At the end of the input nothing is skipped. -/
theorem left_of_nil (hq : q.Regular) (h : Stretch s []) (hnil : q.ahead = []) : Left s none q := by
  obtain ⟨took, hs, htook, -⟩ := h
  refine ⟨took, hnil.symm ▸ hs, htook, .inr ⟨fun hkind => ?_, fun _ t rest hahead => ?_⟩⟩
  · rw [hq.ahead_eq_nil_iff.mp hnil] at hkind
    cases hkind
  · rw [hnil] at hahead
    cases hahead

/-- A statement is left where skipping from a taken token leads: on that token if it
has to end there, and else where skipping from the next one leads. -/
theorem left_of_taken (hp : p.Taken True) (h : Stretch s p.ahead.tail) (hsuffix : p.ahead <:+ s)
    (hq : q.Regular) (hskip : q.ahead = skipStatement 0 p.ahead) : Left s none q := by
  obtain ⟨took, hs, htook, hcurrent, hbehind⟩ := exists_took hp.ordered.toRegular h hsuffix
  cases hahead : p.ahead with
  | nil =>
      rw [hahead] at h hskip
      exact left_of_nil hq h hskip
  | cons t ts =>
      have ht := current_of_ahead_eq hahead
      have hopening := hp.opening
      have hsemicolon := hp.semicolon
      rw [hahead] at hs h hskip hbehind
      rw [ht] at hcurrent hbehind hopening hsemicolon
      have hzero : depthAfter 0 t = 0 := depthAfter_zero hopening
      have hstay : HasToEnd 0 took t ts → skipStatement 0 (t :: ts) = t :: ts → Left s none q :=
        fun hend hstays => left_of_hasToEnd hs htook hcurrent hend (hskip.trans hstays)
      rw [List.tail_cons] at h hbehind
      cases ts with
      | nil =>
          exact hstay (.inr (.inl rfl)) (skipStatement_singleton 0 t)
      | cons u us =>
          by_cases hu : u.kind = .closeCurly
          · refine hstay (.inr (.inr ⟨u, us, rfl, hu, hbehind (by simp)⟩)) ?_
            rw [skipStatement_cons_cons, if_pos ⟨hzero, .inr hu⟩]
          · refine left_of_skip h hu (hskip.trans ?_)
            rw [skipStatement_cons_cons, if_neg fun hboth => hboth.2.elim hsemicolon hu, hzero]

/-- **A broken statement** is left where it has to end, or on the closing brace that it
ran into. -/
theorem BrokeBefore.left {r : List Token} (h : p.BrokeBefore True r) (hr : Stretch s r)
    (hsuffix : p.ahead <:+ s) : Left s none p.recover := by
  have hreg := h.ordered.toRegular
  by_cases hran : p.ranIntoClosingBrace = true
  · have hahead := (h.recover.1 (by rwa [recover_of_ranInto hran])).resolve_right
      fun h => h.1 trivial
    rw [recover_of_ranInto hran] at hahead ⊢
    obtain ⟨took, hs, htook, hdepth⟩ := hr
    refine ⟨took, hahead.symm ▸ hs, htook, .inl ⟨rfl, hran, hdepth ?_⟩⟩
    rw [← hahead, hreg.ahead_eq_cons (by rw [(ranIntoClosingBrace_iff.mp hran).1]; simp)]
    simp
  · have hskip : p.recover.ahead = skipStatement 0 p.ahead := by
      rw [recover_of_not_ranInto hran]
    rcases h with ⟨-, rfl, hon⟩ | ⟨htaken, rfl, -⟩
    · cases hahead : p.ahead with
      | nil =>
          rw [hahead] at hr hskip
          exact left_of_nil hreg.recover hr hskip
      | cons t ts =>
          rw [hahead] at hr hskip
          refine left_of_skip hr (fun hkind => ?_) hskip
          rw [← current_of_ahead_eq hahead] at hkind
          exact hran (ranIntoClosingBrace_iff.mpr ⟨hkind, hon⟩)
    · exact left_of_taken htaken hr hsuffix hreg.recover hskip

end Parser

/-- The states of one statement that began at the tokens `s`, each beside itself. -/
def Parallel.within (s : List Token) : Parallel where
  alike := Eq
  free _ := True
  before p p' := p = p' ∧ p.Ordered ∧ Stretch s p.ahead
  behind p p' := p = p' ∧ p.Taken True ∧ Stretch s p.ahead.tail ∧ p.ahead <:+ s
  ended p p' := p = p' ∧ p.Ordered ∧
    ((Stretch s p.ahead.tail ∧ p.ahead <:+ s) ∨ (p.current.kind = .semicolon ∧ Stretch s p.ahead))
  broken p p' := p = p' ∧ ∃ r, p.BrokeBefore True r ∧ Stretch s r ∧ p.ahead <:+ s
  kind := @Token.alike_of_eq
  text := @Token.text_of_eq
  regular := by
    rintro p _ ⟨rfl, h, -⟩
    exact ⟨h.toRegular, h.toRegular⟩
  regular_behind := by
    rintro p _ ⟨rfl, h, -⟩
    exact ⟨h.ordered.toRegular, h.ordered.toRegular⟩
  current := by
    rintro p _ ⟨rfl, -⟩
    rfl
  take := by
    rintro p _ ⟨rfl, hreg, hstretch⟩ hplain
    have hahead := hreg.ahead_eq_cons hplain.2.2.2
    refine ⟨rfl, ⟨hreg, hplain.1, hplain.2.2.1⟩, ?_, hstretch.suffix⟩
    exact Stretch.plain (hahead ▸ hstretch) hplain
  advance := by
    rintro p _ ⟨rfl, htaken, hstretch, -⟩
    exact ⟨rfl, htaken.ordered.advance, hstretch⟩
  refuse := by
    rintro p _ cause ⟨rfl, hreg, hstretch⟩
    exact ⟨rfl, p.ahead, .inl ⟨hreg.report _, rfl, p.brokeOn_report _ _⟩, hstretch,
      hstretch.suffix⟩
  refuse_next := by
    rintro p _ cause ⟨rfl, htaken, hstretch, hsuffix⟩
    exact ⟨rfl, p.ahead.tail, .inr ⟨htaken.report _, rfl, p.brokeOn_report _ _⟩, hstretch, hsuffix⟩
  ended_of_behind := by
    rintro p _ ⟨rfl, htaken, hstretch, hsuffix⟩
    exact ⟨rfl, htaken.ordered, .inl ⟨hstretch, hsuffix⟩⟩
  ended_of_semicolon := by
    rintro p _ ⟨rfl, htaken, hstretch, -⟩ hsemicolon
    exact ⟨rfl, htaken.ordered.advance, .inr ⟨hsemicolon, hstretch⟩⟩

/-- **Statements stay on their stretch** at every depth of nesting. -/
theorem Nested.within_level (n : Nat) (s : List Token) :
    (level n).Together (.within s) (level n) := by
  induction n with
  | zero => exact ⟨fun _ _ _ _ => .cut _, fun _ _ => .cut _⟩
  | succ n ih =>
      refine ⟨ih.expression, ?_⟩
      rintro p _ ⟨rfl, hp, hstretch⟩ hopening
      have hahead := hp.ahead_eq_cons (by rw [hopening]; simp)
      have hblock := Rule.block_course (along_level True n) (keepsBraces_level True n) hp
      rw [block_level_succ]
      cases hrun : Rule.block (level n) p with
      | done b q =>
          rw [hrun] at hblock
          obtain ⟨⟨hq, hend⟩, ⟨ss, rfl⟩, -⟩ := hblock
          have hclosing := hend.eq_closing trivial
          refine .done ⟨.exempt ss ss rfl trivial, rfl, Parser.taken_of_brace hq hend.brace, ?_, ?_⟩
          · rw [hclosing]
            exact Stretch.block (hahead ▸ hstretch) hopening
          · rw [hclosing]
            exact (closing_suffix 0 _).trans ((List.tail_suffix _).trans hstretch.suffix)
      | failed q =>
          rw [hrun] at hblock
          exact hblock.elim
      | exhausted => exact .cut _

open Parse

namespace Rule

variable {α β : Type} {nested : Nested} {p : Parser}

/-- A sequence ends as its second part does, whatever the first one gives. -/
theorem meets_bind_of_forall {m : Parse α} {f : α → Parse β} {E : β → Parser → Prop}
    (h : ∀ a q, (f a q).Meets E (fun _ => True) True) :
    ((m >>= f) p).Meets E (fun _ => True) True :=
  meets_bind.mpr (Outcome.meets_of_forall h (fun _ => trivial) trivial _)

/-- **A statement that is read** takes the semicolon behind it. -/
theorem statementForm_semicolon (form : StatementForm) (nested : Nested) (p : Parser) :
    (statementForm form nested p).Meets
      (fun _ q => q.current.kind = .semicolon ∨ q.peek.kind ≠ .semicolon) (fun _ => True) True := by
  have hend : ∀ (s : Stmt) (q : Parser), ((Parse.optional .semicolon >>= fun _ => pure s) q).Meets
      (fun _ r => r.current.kind = .semicolon ∨ r.peek.kind ≠ .semicolon) (fun _ => True)
      True := by
    intro s q
    rw [meets_bind, meets_optional]
    exact ⟨fun h => .inl h, fun h => .inr h⟩
  cases form with
  | binding =>
      exact meets_bind_of_forall fun _ _ => meets_bind_of_forall fun _ _ =>
        meets_bind_of_forall fun _ _ => meets_bind_of_forall fun _ _ =>
          meets_bind_of_forall fun _ _ => hend _ _
  | ret => exact meets_bind_of_forall fun _ _ => meets_bind_of_forall fun _ _ => hend _ _
  | expression => exact meets_bind_of_forall fun _ _ => meets_bind_of_forall fun _ _ => hend _ _

/-- **Where a statement is left**, read or skipped. -/
theorem statement_left (n : Nat) (hp : p.Ordered) :
    (statement (.level n) p).Meets
      (fun result q => Parser.Left p.ahead result q ∧ (result ≠ none →
        q.current.kind = .semicolon ∨ q.peek.kind ≠ .semicolon)) (fun _ => False) True := by
  rw [statement, meets_logged, meets_bind, meets_get, meets_bind, meets_attempt]
  have hbegin : (Parallel.within p.ahead).before { p with visits := [] } { p with visits := [] } :=
    ⟨rfl, hp.withVisits [], .refl _⟩
  have hform := (Nested.within_level n p.ahead).statementForm hbegin
  have hself := (hform.imp (fun _ _ _ _ h => ⟨h.1, h.2⟩) fun _ _ h => h).meets_of_self
  refine (hself.and (statementForm_semicolon _ _ _)).imp (fun s q hq => ?_) (fun q hq => ?_)
    fun _ => trivial
  · obtain ⟨⟨hreg, hended⟩, hsemicolon⟩ := hq
    refine ⟨?_, fun _ => hsemicolon⟩
    rcases hended with ⟨hstretch, hsuffix⟩ | ⟨hkind, took, hs, htook, -⟩
    · obtain ⟨took, hs, htook, hcurrent, -⟩ :=
        Parser.exists_took hreg.toRegular hstretch hsuffix
      exact ⟨took, hs, htook, .inr ⟨hcurrent, fun h => absurd h (Option.some_ne_none s)⟩⟩
    · refine ⟨took, hs, htook, .inr ⟨fun hclose => ?_, fun h => absurd h (Option.some_ne_none s)⟩⟩
      exact absurd (hkind.symm.trans hclose) (by simp)
  · obtain ⟨⟨r, hbroke, hstretch, hsuffix⟩, -⟩ := hq
    rw [meets_bind, meets_modify, meets_pure]
    exact ⟨hbroke.left hstretch hsuffix, fun h => absurd rfl h⟩

end Rule

/-! ## All statements of a run -/

namespace Visit

/-- A statement took the tokens `took` and was left on the first of `after`, with its
result and the errors that were recorded meanwhile. -/
structure Extent (took after : List Token) (result : Option Stmt) (errors : List SyntaxError) :
    Prop where
  /-- It took no semicolon outside of braces that it opened, and no closing brace that
  matches none of these. -/
  inside : ∀ us t ws, took = us ++ t :: ws →
    (t.kind = .semicolon → unclosed us ≠ []) ∧ (t.kind = .closeCurly → ¬ ClosesNone us)
  /-- It is left on such a brace only if it could not be read and has its error there. -/
  on_brace : ∀ t rest, after = t :: rest → t.kind = .closeCurly → ClosesNone took →
    result = none ∧ ∃ e, errors.getLast? = some e ∧ e.position = t.start
  /-- If it was read, it took the semicolon behind it. -/
  read : result ≠ none → (∃ t rest, after = t :: rest ∧ t.kind = .semicolon) ∨
    ∀ t ∈ after.tail.head?, t.kind ≠ .semicolon
  /-- If it was skipped, the input is over, or it is left on a semicolon outside of its
  braces, on a closing brace that matches none of them, or in front of such a brace or
  of the end of the input. -/
  skipped : result = none → after = [] ∨ ∃ t rest, after = t :: rest ∧
    ((t.kind = .semicolon ∧ unclosed took = []) ∨ (t.kind = .closeCurly ∧ ClosesNone took) ∨
      rest = [] ∨ ∃ u us, rest = u :: us ∧ u.kind = .closeCurly ∧ ClosesNone (took ++ [t]))

/-- What is promised of a visit to a statement of a source: it began at one of the
tokens of the source, moved forward, and went no further than it may. -/
def StaysInside (source : String) : Visit → Prop
  | .statement before after result errors _ => before <:+ (Lexer.tokenize source).dropLast ∧
      ∃ took, before = took ++ after ∧ Extent took after result errors
  | .block _ _ _ => True

end Visit

/-- Tokens that end no statement have no semicolon and no closing brace outside of
their own braces. -/
theorem Unended.inside {took us ws : List Token} {t : Token} (h : Unended 0 took)
    (htook : took = us ++ t :: ws) :
    (t.kind = .semicolon → unclosed us ≠ []) ∧ (t.kind = .closeCurly → ¬ ClosesNone us) := by
  rw [htook] at h
  rw [Ne, unclosed_eq_nil_iff, closesNone_iff_depthBehind]
  exact ⟨fun ht => h.ne_zero (.inl ht), fun ht => h.ne_zero (.inr ht)⟩

/-- **The extent of a statement** can be told from where it is left, if the errors
recorded meanwhile end with one on the closing brace that it ran into. -/
theorem Parser.Left.extent {s : List Token} {result : Option Stmt} {q : Parser}
    {errors : List SyntaxError} (h : Left s result q) (hq : q.Regular)
    (hread : result ≠ none → q.current.kind = .semicolon ∨ q.peek.kind ≠ .semicolon)
    (herror : result = none → q.ranIntoClosingBrace = true →
      ∃ e, errors.getLast? = some e ∧ e.position = q.current.start) :
    ∃ took, s = took ++ q.ahead ∧ Visit.Extent took q.ahead result errors := by
  obtain ⟨took, hs, htook, hleft⟩ := h
  refine ⟨took, hs, fun _ _ _ => htook.inside, fun t rest hahead ht hnone => ?_,
    fun hsome => ?_, fun hnone => ?_⟩
  · rw [closesNone_iff_depthBehind] at hnone
    have hcurrent := current_of_ahead_eq hahead
    rcases hleft with ⟨hresult, hran, -⟩ | ⟨hclose, -⟩
    · rw [← hcurrent]
      exact ⟨hresult, herror hresult hran⟩
    · rw [hcurrent] at hclose
      exact absurd hnone (hclose ht)
  · rcases hread hsome with hsemicolon | hsemicolon
    · exact .inl ⟨q.current, q.ahead.tail, hq.ahead_eq_cons (by simp [hsemicolon]), hsemicolon⟩
    · refine .inr fun t ht => ?_
      rwa [← peek_eq_of_mem_head? ht]
  · cases hahead : q.ahead with
    | nil => exact .inl rfl
    | cons t rest =>
        refine .inr ⟨t, rest, rfl, ?_⟩
        rw [unclosed_eq_nil_iff, closesNone_iff_depthBehind]
        simp only [closesNone_iff_depthBehind]
        rcases hleft with ⟨-, hran, hzero⟩ | ⟨-, hend⟩
        · have hkind := (ranIntoClosingBrace_iff.mp hran).1
          rw [current_of_ahead_eq hahead] at hkind
          exact .inr (.inl ⟨hkind, hzero⟩)
        · rcases hend hnone t rest hahead with hsemicolon | hover | hnext
          · exact .inl hsemicolon
          · exact .inr (.inr (.inl hover))
          · exact .inr (.inr (.inr hnext))

/-- **The entry of a statement** in the log tells its extent. -/
theorem Rule.statement_extent (n : Nat) {p : Parser} (hp : p.Ordered) :
    (Rule.statement (.level n) p).Meets
      (fun _ => Parser.LastEntry fun v => ∃ after result errors inner,
        v = .statement p.ahead after result errors inner ∧
          ∃ took, p.ahead = took ++ after ∧ Visit.Extent took after result errors)
      (fun _ => False) True := by
  have haccounts : Parser.Accounts True p.errors { p with visits := [] } :=
    ⟨hp.withVisits [], by rw [Visit.recordedAll_nil, List.append_nil]⟩
  have hgone := statement_gone (Nested.along_level True n) haccounts
  have hleft := statement_left n hp
  rw [statement, meets_logged] at hgone hleft ⊢
  refine (hleft.and hgone).imp (fun result q hq v hv => ?_) (fun _ h => h.1) fun _ => trivial
  obtain ⟨⟨hleft, hread⟩, hgone, hordered, -⟩ := hq
  obtain rfl : statementVisit p q result = v := Option.some.inj hv
  refine ⟨_, _, _, _, rfl,
    hleft.extent (hordered.withVisits _).toRegular hread fun hnone hran => ?_⟩
  subst hnone
  obtain ⟨inner, r, e, -, hposition, -, hinto, -, hvisit⟩ := hgone
  have hahead : q.ahead = r := (hinto hran).resolve_right fun h => h.1 trivial
  have hkind : q.current.kind = .closeCurly := (Parser.ranIntoClosingBrace_iff.mp hran).1
  obtain ⟨hvisit, -⟩ := List.cons.inj hvisit
  obtain ⟨-, -, -, herrors, -⟩ := Visit.statement.inj hvisit
  refine ⟨e, ?_, hposition _ ?_⟩
  · rw [show q.errors.drop p.errors.length = _ from herrors, List.getLast?_concat]
  · have hcons : q.ahead = q.current :: q.ahead.tail :=
      hordered.ahead_eq_cons (show q.current.kind ≠ .eof by rw [hkind]; simp)
    rw [← hahead, hcons]
    rfl

/-- **A statement never runs past its own end**: the run of a source comes to its end,
and every statement on the way, at whatever depth and whatever came of it, stays
inside what is around it.  The source is shorter than 4 GiB. -/
theorem statements_stay_inside {source : String} (hsize : source.utf8ByteSize < UInt32.size) :
    (∃ program q, Rule.program.run (.ofSource source) = .done program q) ∧
      ∀ v : Visit, v.Made (parse source).visits → v.StaysInside source := by
  refine ⟨?_, fun v hv => ?_⟩
  · obtain ⟨program, q, hrun, -⟩ := exists_parse_eq source
    exact ⟨program, q, hrun⟩
  · refine forall_visited_parse (I := (Parser.ofSource source).Reaches)
      (Parser.invariant_reaches _) Parser.Reaches.withVisits (fun n p hp => ?_)
      (fun n p hp hopening => ?_) (.refl _) hv
    · have hordered := (Parser.ordered_ofSource hsize).of_reaches hp
      refine (Rule.statement_extent n hordered).imp (fun _ q hq w hw => ?_) (fun _ _ => trivial) id
      obtain ⟨after, result, errors, inner, rfl, hextent⟩ := hq w hw
      refine ⟨?_, hextent⟩
      rw [← Parser.ahead_ofSource_eq_dropLast]
      exact hp.ahead
    · -- blocks promise nothing
      rw [Rule.block, meets_logged]
      refine Outcome.meets_of_forall (fun _ q w hw => ?_) (fun _ => trivial) trivial _
      cases hw
      trivial

/-- A statement breaks on the brace of the block around it, inside another one. -/
theorem statements_stay_inside_sample :
    "fn() \x7b 1 + \x7d; 9".utf8ByteSize < UInt32.size ∧
      (parse "fn() \x7b 1 + \x7d; 9").errors.length = 1 ∧
      ∀ v : Visit, v.Made (parse "fn() \x7b 1 + \x7d; 9").visits →
        v.StaysInside "fn() \x7b 1 + \x7d; 9" := by
  have hsize : "fn() \x7b 1 + \x7d; 9".utf8ByteSize < UInt32.size := by decide +kernel
  refine ⟨hsize, ?_, (statements_stay_inside hsize).2⟩
  decide +kernel

/-- Whether a statement that could not be read was left on a closing brace of its own, with
a token behind it that is no closing brace. -/
def Visit.leftOnOwnBrace : Visit → Bool
  | .statement before (t :: u :: rest) none _ _ =>
      t.kind = .closeCurly && u.kind ≠ .closeCurly &&
        unclosed (before.take (before.length - (rest.length + 2))) ≠ []
  | _ => false

theorem Visit.not_staysInside {source : String} {v : Visit} (h : v.leftOnOwnBrace = true) :
    ¬ v.StaysInside source := by
  unfold leftOnOwnBrace at h
  split at h
  · next before t u rest errors inner =>
      rintro ⟨-, took, rfl, hextent⟩
      have htook : (took ++ t :: u :: rest).take
          ((took ++ t :: u :: rest).length - (rest.length + 2)) = took := by simp
      rw [htook, Bool.and_eq_true, Bool.and_eq_true, decide_eq_true_eq, decide_eq_true_eq,
        decide_eq_true_eq] at h
      obtain ⟨⟨ht, hu⟩, hopen⟩ := h
      rcases hextent.skipped rfl with hnil | ⟨t', rest', hafter, hend⟩
      · cases hnil
      · cases hafter
        rcases hend with ⟨hsemicolon, -⟩ | ⟨-, hnone⟩ | hnil | ⟨u', us, hus, hclose, -⟩
        · rw [ht] at hsemicolon
          cases hsemicolon
        · exact hopen (closesNone_iff.mp hnone)
        · cases hnil
        · cases hus
          exact hu hclose
  · cases h

/-- In a longer source a statement may be left on the brace of a block inside it, if its
error has the position of that brace. -/
theorem statements_stay_inside_apart :
    ∃ v : Visit, v.Made (parse (apart "f(fn() \x7b\x7d" ' ' (UInt32.size - 1) "3); z")).visits ∧
      ¬ v.StaysInside (apart "f(fn() \x7b\x7d" ' ' (UInt32.size - 1) "3); z") := by
  have hturn : "f(fn() \x7b\x7d".utf8ByteSize + (UInt32.size - 1) = UInt32.size + 8 := by
    decide +kernel
  have hleft : (Visit.allOf (parse (apart "f(fn() \x7b\x7d" ' ' (UInt32.size - 1)
      "3); z")).visits).any Visit.leftOnOwnBrace = true := by
    rw [parse_apart (by decide) (by decide) hturn]
    decide +kernel
  obtain ⟨v, hv, hleft⟩ := List.any_eq_true.mp hleft
  exact ⟨v, (Visit.mem_allOf_iff _).mp hv, Visit.not_staysInside hleft⟩

end ExprLang
