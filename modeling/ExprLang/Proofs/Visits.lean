/-
# The visits of a run

What holds of the entry that each statement and each block makes in the log when
it is over holds of all entries of a run, at whatever depth they were made.
Main statement: `forall_visited_parse`.
-/
import ExprLang.Proofs.Window

namespace ExprLang

/-! ## Visits inside visits -/

/-- A visit is another one or was made inside it. -/
inductive Visit.Within : Visit → Visit → Prop where
  | refl (v : Visit) : Within v v
  | inner {u v w : Visit} (hu : Within u v) (hv : v ∈ w.inner) : Within u w

/-- A visit that was made in a run with a given log. -/
def Visit.Made (log : List Visit) (v : Visit) : Prop :=
  ∃ w ∈ log, v.Within w

namespace Visit

variable {log log' : List Visit} {v w : Visit}

theorem not_made_nil : ¬ v.Made [] := by
  rintro ⟨w, hw, -⟩
  cases hw

theorem made_append : v.Made (log ++ log') ↔ v.Made log ∨ v.Made log' := by
  constructor
  · rintro ⟨w, hw, hv⟩
    rcases List.mem_append.mp hw with hw | hw
    · exact .inl ⟨w, hw, hv⟩
    · exact .inr ⟨w, hw, hv⟩
  · rintro (⟨w, hw, hv⟩ | ⟨w, hw, hv⟩)
    · exact ⟨w, List.mem_append_left _ hw, hv⟩
    · exact ⟨w, List.mem_append_right _ hw, hv⟩

/-- With an entry come the entry itself and the visits inside it. -/
theorem made_cons : v.Made (w :: log) ↔ v = w ∨ v.Made w.inner ∨ v.Made log := by
  constructor
  · rintro ⟨u, hu, hv⟩
    rcases List.mem_cons.mp hu with rfl | hu
    · cases hv with
      | refl => exact .inl rfl
      | inner hv hin => exact .inr (.inl ⟨_, hin, hv⟩)
    · exact .inr (.inr ⟨u, hu, hv⟩)
  · rintro (rfl | ⟨u, hu, hv⟩ | ⟨u, hu, hv⟩)
    · exact ⟨v, List.mem_cons_self, .refl v⟩
    · exact ⟨w, List.mem_cons_self, .inner hv hu⟩
    · exact ⟨u, List.mem_cons_of_mem _ hu, hv⟩

mutual

/-- A visit and the visits made inside it, in source order. -/
def all : Visit → List Visit
  | statement before after result errors inner =>
      statement before after result errors inner :: allOf inner
  | block before after inner => block before after inner :: allOf inner

/-- All visits of a log, in source order. -/
def allOf : List Visit → List Visit
  | [] => []
  | visit :: earlier => allOf earlier ++ all visit

end

theorem all_eq (v : Visit) : v.all = v :: allOf v.inner := by
  cases v <;> rfl

mutual

theorem mem_all_iff {v : Visit} : (w : Visit) → (v ∈ w.all ↔ v = w ∨ v.Made w.inner)
  | statement _ _ _ _ inner => by rw [all, List.mem_cons, mem_allOf_iff inner]; rfl
  | block _ _ inner => by rw [all, List.mem_cons, mem_allOf_iff inner]; rfl

/-- The visits of a log are those that were made. -/
theorem mem_allOf_iff {v : Visit} : (log : List Visit) → (v ∈ allOf log ↔ v.Made log)
  | [] => by simp [allOf, not_made_nil]
  | w :: log => by
      rw [allOf, List.mem_append, mem_allOf_iff log, mem_all_iff w, made_cons, or_comm, or_assoc]

end

end Visit

/-! ## Entries of a run -/

open Parse

/-- The latest entry in the log of a state is as promised. -/
def Parser.LastEntry (P : Visit → Prop) (q : Parser) : Prop :=
  ∀ v ∈ q.visits.head?, P v

/-- All visits made on the way to a state are as promised. -/
def Parser.AllMade (P : Visit → Prop) (q : Parser) : Prop :=
  ∀ v, v.Made q.visits → P v

variable {I : Parser → Prop} {P : Visit → Prop}

/-- What is logged adds an entry to the visits made inside it. -/
theorem Parse.meets_logged_of_lastEntry {α : Type} {entry : Parser → Parser → α → Visit}
    (hinner : ∀ p q a, (entry p q a).inner = q.visits) {m : Parse α}
    (hblind : ∀ {p : Parser} (visits : List Visit), I p → I { p with visits := visits })
    (hm : Keeps (fun q => I q ∧ q.AllMade P) (fun q => I q ∧ q.AllMade P) m) {p : Parser}
    (hp : I p ∧ p.AllMade P)
    (hentry : (logged entry m p).Meets (fun _ => Parser.LastEntry P) (fun _ => True) True) :
    (logged entry m p).Meets (fun _ q => I q ∧ q.AllMade P) (fun q => I q ∧ q.AllMade P) True := by
  obtain ⟨hI, hmade⟩ := hp
  have hinside := hm { p with visits := [] }
    ⟨hblind [] hI, fun v hv => absurd hv Visit.not_made_nil⟩
  rw [meets_logged] at hentry ⊢
  refine (hinside.and hentry).imp (fun a q hq => ⟨hblind _ hq.1.1, fun v hv => ?_⟩)
    (fun q hq => ⟨hblind _ hq.1.1, fun v hv => ?_⟩) (fun _ => trivial)
  · -- the new entry itself, a visit inside it, one from before
    rcases Visit.made_cons.mp hv with rfl | hv | hv
    · exact hq.2 _ rfl
    · rw [hinner] at hv
      exact hq.1.2 v hv
    · exact hmade v hv
  · rcases Visit.made_append.mp hv with hv | hv
    · exact hq.1.2 v hv
    · exact hmade v hv

theorem Parser.visits_recover (p : Parser) : p.recover.visits = p.visits := by
  unfold recover
  split <;> rfl

/-- The steps of the parser make no visits. -/
theorem Parser.Invariant.allMade (hI : Parser.Invariant I) :
    Parser.Invariant (fun q => I q ∧ q.AllMade P) where
  advance hp := ⟨hI.advance hp.1, hp.2⟩
  report error hp := ⟨hI.report error hp.1, hp.2⟩
  recover {p} hp := by
    refine ⟨hI.recover hp.1, ?_⟩
    unfold AllMade
    rw [p.visits_recover]
    exact hp.2

/-- **Every visit made in the run of a source is as promised** if the entries are
that statements and blocks make when they are over, from states with a property
that the steps keep. -/
theorem forall_visited_parse (hI : Parser.Invariant I)
    (hblind : ∀ {p : Parser} (visits : List Visit), I p → I { p with visits := visits })
    (hstatement : ∀ n p, I p →
      (Rule.statement (.level n) p).Meets (fun _ => Parser.LastEntry P) (fun _ => True) True)
    (hblock : ∀ n p, I p → p.current.kind = .openCurly →
      (Rule.block (.level n) p).Meets (fun _ => Parser.LastEntry P) (fun _ => True) True)
    {source : String} (hsource : I (.ofSource source)) {v : Visit}
    (hv : v.Made (parse source).visits) : P v := by
  -- an entry that is made keeps the promise for all visits, at every depth
  have hlogs : ∀ n, (Nested.level n).Logs (fun q => I q ∧ q.AllMade P) := by
    intro n
    constructor
    case statement =>
      intro m h hm p hp
      have hentry := hstatement n p hp.1
      rw [h] at hentry ⊢
      exact meets_logged_of_lastEntry (fun _ _ _ => rfl) hblind hm hp hentry
    case block =>
      intro m h hm p hp hopening
      have hentry := hblock n p hp.1 hopening
      rw [h] at hentry ⊢
      exact meets_logged_of_lastEntry (fun _ _ _ => rfl) hblind hm hp hentry
  have hkeeps : Keeps (fun q => I q ∧ q.AllMade P) (fun q => I q ∧ q.AllMade P)
      (Rule.program (.level ((Parser.ofSource source).ahead.length + 2))) :=
    Rule.keeps_program hI.allMade (Nested.keeps_level hI.allMade hlogs _) (hlogs _)
  have hrun := hkeeps (.ofSource source)
    ⟨hsource, fun v hv => absurd hv Visit.not_made_nil⟩
  obtain ⟨program, q, hdone, hparse⟩ := exists_parse_eq source
  rw [Rule.run] at hdone
  rw [hdone] at hrun
  rw [hparse] at hv
  exact hrun.2 v hv

end ExprLang
