/-
# Cursors into the tokens of a source

A lexer can be asked for its next token, for the next item of the sequence that
ends before the end marker, and for all that is left of that sequence, in any
order; and it can be copied at any point.  What it owes at each point is read off
the list of all tokens: `Lexer.Faces` says which of them are still ahead, and
`Lexer.Faces.answer` what becomes of them when it is asked for something.
Main statement: `Lexer.after_isCursor` (whatever is asked of whichever copy, each
copy is a cursor into the tokens of the source, and only what is asked of it
moves it).
-/
import Mathlib.Logic.Function.Basic
import ExprLang.Proofs.ByteView
import ExprLang.Proofs.Scan

namespace ExprLang

open Text

namespace Lexer

/-! ## Requests and replies -/

/-- What a lexer can be asked for: its next token, the next item of the sequence
that ends before the end marker, or all items that are left of that sequence. -/
inductive Request : Type where
  | token
  | item
  | items
  deriving DecidableEq, Repr

/-- What it replies. -/
inductive Reply : Type where
  | token (t : Token)
  | item (t? : Option Token)
  | items (ts : List Token)
  deriving DecidableEq, Repr

/-- The reply to a request, and the lexer behind it. -/
def answer (l : Lexer) : Request → Reply × Lexer
  | .token => (.token l.next.1, l.next.2)
  | .item => (.item l.next?.1, l.next?.2)
  | .items => (.items l.drain.1, l.drain.2)

namespace Reply

/-- The tokens that a reply hands out; the end marker is not one of them. -/
def handed : Reply → List Token
  | .token t => if t.kind = .eof then [] else [t]
  | .item t? => t?.toList
  | .items ts => ts

/-- The one token that a reply consists of, the end marker included. -/
def single? : Reply → Option Token
  | .token t => some t
  | .item t? => t?
  | .items _ => none

/-- Whether a reply says that the sequence is over. -/
def ends : Reply → Bool
  | .token _ => false
  | .item t? => t?.isNone
  | .items _ => true

end Reply

/-! ## Copies -/

/-- A copy of a lexer with all that it has replied so far, oldest first.  What the
lexer replied that it was copied from is part of that. -/
structure Copy : Type where
  lexer : Lexer
  replies : List Reply := []

namespace Copy

/-- A lexer that has not been asked for anything. -/
def ofSource (source : String) : Copy :=
  { lexer := Lexer.ofSource source }

/-- Asks a copy for something. -/
def ask (c : Copy) (request : Request) : Copy :=
  { lexer := (c.lexer.answer request).2
    replies := c.replies ++ [(c.lexer.answer request).1] }

/-- Asks it for one thing after the other. -/
def askAll (c : Copy) (requests : List Request) : Copy :=
  requests.foldl ask c

/-- All tokens that it has handed out, whatever it was asked for. -/
def handed (c : Copy) : List Token :=
  c.replies.flatMap Reply.handed

/-- Whether it has said that the sequence is over. -/
def ended (c : Copy) : Bool :=
  c.replies.any Reply.ends

/-- What a copy hands out is added to what it has handed out. -/
theorem handed_ask (c : Copy) (request : Request) :
    (c.ask request).handed = c.handed ++ (c.lexer.answer request).1.handed := by
  simp [handed, ask]

/-- A sequence that was over stays over, and each reply can end it. -/
theorem ended_ask (c : Copy) (request : Request) :
    (c.ask request).ended = (c.ended || (c.lexer.answer request).1.ends) := by
  simp [ended, ask]

/-- The latest reply is the one token `t`: the lexer stands where the token ends, at
the byte `stop` of the source, which the token keeps modulo 2 ^ 32; and there is
nothing more to read, not even a blank, exactly when that is where the source ends. -/
def StandsBehind (source : String) (l : Lexer) (t : Token) : Prop :=
  ∃ start stop : Nat, t.start = start.toUInt32 ∧ t.stop = stop.toUInt32 ∧
    (∃ front, source.toList = front ++ t.text.toList ++ l.rest ∧ byteLength front = start ∧
      byteLength (front ++ t.text.toList) = stop) ∧
    (l.atEnd = true ↔ stop = source.utf8ByteSize)

/-- A copy is a cursor into the tokens of a source. -/
structure IsCursor (source : String) (c : Copy) : Prop where
  /-- It has handed out the first so many tokens, none of them lost, repeated or
  out of order. -/
  handed_prefix : c.handed <+: (tokenize source).dropLast
  /-- Asked for a token it replies with the one behind those, be it the end marker. -/
  token : (tokenize source)[c.handed.length]? = some c.lexer.next.1
  /-- Asked for an item it replies with the same token unless that is the end marker. -/
  item : c.lexer.next?.1 = (tokenize source).dropLast[c.handed.length]?
  /-- Asked for all items it replies with all of those tokens. -/
  items : c.lexer.drain.1 = (tokenize source).dropLast.drop c.handed.length
  /-- The end marker is repeated for ever, whatever else it is asked for. -/
  eof_forever : c.lexer.next.1.kind = .eof → ∀ requests,
    (c.askAll requests).lexer.next.1 = c.lexer.next.1
  /-- There is no item any more when it was at the end marker already. -/
  none_at_eof : c.lexer.next.1.kind = .eof → c.lexer.next?.1 = none
  /-- Once it has said that the sequence is over there is never an item again. -/
  none_forever : c.ended = true → ∀ requests, (c.askAll requests).lexer.next?.1 = none
  /-- Behind a reply that is one token it stands where the token ends, with nothing
  more to read, not even a blank, exactly when the token ends where the source does. -/
  atEnd : ∀ reply t, c.replies.getLast? = some reply → reply.single? = some t →
    StandsBehind source c.lexer t

end Copy

/-- What can be done with the copies of a lexer, each of which has a number. -/
inductive Step : Type where
  | ask (number : Nat) (request : Request)
  | copy (number target : Nat)
  deriving DecidableEq, Repr

namespace Step

/-- The number of the copy that a step changes. -/
def target : Step → Nat
  | .ask number _ => number
  | .copy _ target => target

/-- Makes a step.  A copy is saved under another number and restored from there
in the same way. -/
def apply (copies : Nat → Copy) : Step → Nat → Copy
  | .ask number request => Function.update copies number ((copies number).ask request)
  | .copy number target => Function.update copies target (copies number)

/-- A step changes no other copy. -/
theorem apply_of_target_ne {copies : Nat → Copy} {step : Step} {number : Nat}
    (h : step.target ≠ number) : step.apply copies number = copies number := by
  rcases step with ⟨asked, request⟩ | ⟨copied, target⟩ <;>
    exact Function.update_of_ne (Ne.symm h) _ _

/-- What holds of all copies, and still holds of a copy that is asked for
something, holds after each step. -/
theorem forall_apply {p : Copy → Prop} (hask : ∀ c request, p c → p (c.ask request))
    {copies : Nat → Copy} (hcopies : ∀ number, p (copies number)) (step : Step)
    (number : Nat) : p (step.apply copies number) := by
  rcases step with ⟨asked, request⟩ | ⟨copied, target⟩
  · show p (Function.update copies asked ((copies asked).ask request) number)
    rcases eq_or_ne number asked with rfl | hne
    · rw [Function.update_self]
      exact hask _ _ (hcopies number)
    · rw [Function.update_of_ne hne]
      exact hcopies number
  · show p (Function.update copies target (copies copied) number)
    rcases eq_or_ne number target with rfl | hne
    · rw [Function.update_self]
      exact hcopies copied
    · rw [Function.update_of_ne hne]
      exact hcopies number

/-- And so it holds after any number of steps. -/
theorem forall_foldl_apply {p : Copy → Prop} (hask : ∀ c request, p c → p (c.ask request))
    {copies : Nat → Copy} (hcopies : ∀ number, p (copies number)) (steps : List Step) :
    ∀ number, p (steps.foldl apply copies number) := by
  induction steps generalizing copies with
  | nil => exact hcopies
  | cons step steps ih => exact ih (forall_apply hask hcopies step)

end Step

/-- The copies of a lexer after some steps, each of which starts out fresh. -/
def after (source : String) (steps : List Step) : Nat → Copy :=
  steps.foldl Step.apply fun _ => .ofSource source

/-- Steps that change other copies leave a copy as it was. -/
theorem after_append_of_target_ne {source : String} {steps further : List Step} {number : Nat}
    (h : ∀ step ∈ further, step.target ≠ number) :
    after source (steps ++ further) number = after source steps number := by
  unfold after
  rw [List.foldl_append]
  generalize steps.foldl Step.apply (fun _ => Copy.ofSource source) = copies
  induction further generalizing copies with
  | nil => rfl
  | cons step further ih =>
      obtain ⟨hstep, hfurther⟩ := List.forall_mem_cons.mp h
      rw [List.foldl_cons, ih hfurther, Step.apply_of_target_ne hstep]

/-! ## The tokens ahead -/

variable {source : String} {l : Lexer} {ahead : List Token}

/-- A lexer faces the tokens that are still ahead of it, the end marker of the
source last.  When it has used up its sequence nothing is left but that. -/
structure Faces (source : String) (l : Lexer) (ahead : List Token) : Prop where
  scans : Scans l.position l.rest ahead
  place : ∃ front, source.toList = front ++ l.rest ∧ byteLength front = l.position
  drained : l.drained = true → l.rest = []

namespace Faces

/-- A fresh lexer faces all tokens of its source. -/
theorem ofSource (source : String) : (ofSource source).Faces source (tokenize source) :=
  ⟨scans_iff_eq_tokenize.mpr rfl, ⟨[], rfl, rfl⟩, by simp [Lexer.ofSource]⟩

/-- What was read and what is left to read make up the source. -/
theorem size (h : l.Faces source ahead) :
    l.position + byteLength l.rest = source.utf8ByteSize := by
  obtain ⟨front, hsource, hfront⟩ := h.place
  rw [utf8ByteSize_eq, hsource, byteLength_append, hfront]

/-- There is always a token ahead. -/
theorem ne_nil (h : l.Faces source ahead) : ahead ≠ [] := by
  obtain ⟨body, rfl, -⟩ := h.scans.exists_eq_append
  simp

/-- Where nothing is left to read only the end marker is ahead. -/
theorem eq_of_rest_eq_nil (h : l.Faces source ahead) (hrest : l.rest = []) :
    ahead = [Token.endOfInput source.utf8ByteSize] := by
  have hscans : Scans l.position l.rest [Token.endOfInput (l.position + byteLength l.rest)] :=
    .nil (by simp [hrest])
  have hl := eq_tokens_of_scans h.scans { l with drained := false } rfl rfl rfl
  rw [hl, ← eq_tokens_of_scans hscans { l with drained := false } rfl rfl rfl, h.size]

/-- Nothing is left to read exactly when the cursor stands at the end of the source. -/
theorem atEnd_iff (h : l.Faces source ahead) :
    l.atEnd = true ↔ l.position = source.utf8ByteSize := by
  have hsize := h.size
  rw [atEnd, List.isEmpty_iff, ← byteLength_eq_zero_iff]
  omega

/-- Where the text of a token is what was read last, the lexer stands behind it. -/
theorem standsBehind (h : l.Faces source ahead) {t : Token} (front : List Char)
    (hsource : source.toList = front ++ t.text.toList ++ l.rest)
    (hposition : byteLength (front ++ t.text.toList) = l.position)
    (hstart : t.start = (byteLength front).toUInt32) (hstop : t.stop = l.position.toUInt32) :
    Copy.StandsBehind source l t :=
  ⟨_, _, hstart, hstop, ⟨front, hsource, rfl, hposition⟩, h.atEnd_iff⟩

/-- **The next token is the first one ahead.**  The end marker stays ahead; any
other token is left behind, and the cursor stands where it ends. -/
theorem next (h : l.Faces source ahead) :
    ((ahead = [l.next.1] ∧ l.next.1 = Token.endOfInput source.utf8ByteSize ∧
        l.next.2.rest = [] ∧ l.next.2.Faces source ahead) ∨
      (l.next.1.kind ≠ .eof ∧ l.drained = false ∧
        ∃ ts, ahead = l.next.1 :: ts ∧ l.next.2.Faces source ts)) ∧
    Copy.StandsBehind source l.next.2 l.next.1 := by
  have hsize := h.size
  obtain ⟨hscans, ⟨front, hsource, hfront⟩, hdrained⟩ := h
  generalize hrest : l.rest = cs at hscans
  generalize hpos : l.position = position at hscans
  cases hscans with
  | nil hblank =>
      subst hrest hpos
      have hread : byteLength source.toList = l.position + byteLength l.rest := by
        rw [hsource, byteLength_append, hfront]
      rw [next_of_blank hblank]
      have hend : Scans (l.position + byteLength l.rest) []
          [Token.endOfInput (l.position + byteLength l.rest)] := .nil (by simp)
      have hfaces : Faces source
          { l with position := l.position + byteLength l.rest, rest := [] }
          [Token.endOfInput (l.position + byteLength l.rest)] :=
        ⟨hend, ⟨source.toList, (List.append_nil _).symm, hread⟩, fun _ => rfl⟩
      refine ⟨.inl ⟨rfl, by rw [hsize], rfl, hfaces⟩,
        hfaces.standsBehind source.toList ?_ ?_ ?_ rfl⟩
      · simp [Token.endOfInput]
      · simpa [Token.endOfInput] using hread
      · rw [hread]
        rfl
  | @cons _ blanks chars rest kind tokens hblank hspells hend htail =>
      subst hpos
      have hfresh : l.drained = false := by
        obtain ⟨c, cs, rfl, -⟩ := hspells.exists_cons
        by_contra hd
        simp [hdrained (by simpa using hd)] at hrest
      rw [next_of_spells hrest hblank hspells hend]
      have hread : source.toList = front ++ blanks ++ chars ++ rest := by
        rw [hsource, hrest]
        simp
      have hplace : byteLength (front ++ blanks ++ chars) =
          l.position + byteLength blanks + byteLength chars := by
        rw [byteLength_append, byteLength_append, hfront]
      have hfaces : Faces source { l with
          position := l.position + byteLength blanks + byteLength chars, rest := rest } tokens :=
        ⟨htail, ⟨_, hread, hplace⟩, fun hd => absurd hd (by simp [hfresh])⟩
      refine ⟨.inr ⟨hspells.ne_eof, hfresh, tokens, rfl, hfaces⟩,
        hfaces.standsBehind (front ++ blanks) ?_ ?_ ?_ rfl⟩
      · rw [String.toList_ofList]
        exact hread
      · rw [String.toList_ofList]
        exact hplace
      · rw [byteLength_append, hfront]

/-- **The next item is the first token ahead** unless that is the end marker. -/
theorem next? (h : l.Faces source ahead) :
    (ahead = [Token.endOfInput source.utf8ByteSize] ∧ l.next?.1 = none ∧
        l.next?.2.Faces source ahead) ∨
      ∃ t ts, l.next?.1 = some t ∧ ahead = t :: ts ∧
        Copy.StandsBehind source l.next?.2 t ∧ l.next?.2.Faces source ts := by
  by_cases hd : l.drained = true
  · left
    have hnext : l.next? = (none, l) := by
      rw [Lexer.next?, if_pos hd]
    rw [hnext]
    exact ⟨h.eq_of_rest_eq_nil (h.drained hd), rfl, h⟩
  · obtain ⟨⟨hahead, heof, hrest, hfaces⟩ | ⟨heof, -, ts, hahead, hfaces⟩, hbehind⟩ := h.next
    · left
      have hnext : l.next? = (none, { l.next.2 with drained := true }) := by
        rw [Lexer.next?, if_neg hd, if_pos (by rw [heof]; rfl)]
      rw [hnext]
      exact ⟨by rw [hahead, heof], rfl, hfaces.scans, hfaces.place, fun _ => hrest⟩
    · right
      have hnext : l.next? = (some l.next.1, l.next.2) := by
        rw [Lexer.next?, if_neg hd, if_neg heof]
      rw [hnext]
      exact ⟨l.next.1, ts, rfl, hahead, hbehind, hfaces⟩

/-- So the next token is the first of the list, -/
theorem head?_eq (h : l.Faces source ahead) : ahead.head? = some l.next.1 := by
  rcases h.next.1 with ⟨hahead, -⟩ | ⟨-, -, ts, hahead, -⟩ <;> rw [hahead] <;> rfl

/-- and the next item is the first of those before the end marker. -/
theorem next?_eq_head? (h : l.Faces source ahead) : l.next?.1 = ahead.dropLast.head? := by
  rcases h.next? with ⟨hahead, hnext, -⟩ | ⟨t, ts, hnext, hahead, -, hfaces⟩
  · rw [hnext, hahead]
    rfl
  · rw [hnext, hahead, List.dropLast_cons_of_ne_nil hfaces.ne_nil]
    rfl

/-- At the end marker nothing else is ahead. -/
theorem eq_of_kind_next_eq_eof (h : l.Faces source ahead) (heof : l.next.1.kind = .eof) :
    ahead = [Token.endOfInput source.utf8ByteSize] := by
  rcases h.next.1 with ⟨hahead, hnext, -⟩ | ⟨hne, -⟩
  · rw [hahead, hnext]
  · exact absurd heof hne

/-- **All items are all tokens ahead** but the end marker. -/
theorem drain (h : l.Faces source ahead) :
    ahead = l.drain.1 ++ [Token.endOfInput source.utf8ByteSize] ∧
      l.drain.2.Faces source [Token.endOfInput source.utf8ByteSize] := by
  induction ahead generalizing l with
  | nil => exact absurd rfl h.ne_nil
  | cons u us ih =>
      rcases h.next? with ⟨hahead, hnone, hfaces⟩ | ⟨t, ts, hsome, hahead, -, hfaces⟩
      · rw [drain_of_next?_eq_none (Prod.ext hnone rfl)]
        exact ⟨hahead, hahead ▸ hfaces⟩
      · obtain ⟨rfl, rfl⟩ := List.cons.inj hahead
        obtain ⟨hus, hlast⟩ := ih hfaces
        rw [drain_of_next?_eq_some (Prod.ext hsome rfl)]
        exact ⟨congrArg (u :: ·) hus, hlast⟩

/-- **What a request does to the tokens ahead**: those that are handed out are
taken off their front, none of which is the end marker. -/
theorem answer (h : l.Faces source ahead) (request : Request) :
    ∃ ts, ahead = (l.answer request).1.handed ++ ts ∧ (l.answer request).2.Faces source ts ∧
      ((l.answer request).1.ends = true → ts = [Token.endOfInput source.utf8ByteSize]) ∧
      ∀ t, (l.answer request).1.single? = some t →
        Copy.StandsBehind source (l.answer request).2 t := by
  rcases request with - | - | -
  · obtain ⟨⟨hahead, heof, -, hfaces⟩ | ⟨heof, -, ts, hahead, hfaces⟩, hbehind⟩ := h.next
    · refine ⟨ahead, ?_, hfaces, by simp [Lexer.answer, Reply.ends], ?_⟩
      · simp [Lexer.answer, Reply.handed, heof]
      · rintro t ⟨⟩
        exact hbehind
    · refine ⟨ts, ?_, hfaces, by simp [Lexer.answer, Reply.ends], ?_⟩
      · rw [hahead]
        simp [Lexer.answer, Reply.handed, heof]
      · rintro t ⟨⟩
        exact hbehind
  · rcases h.next? with ⟨hahead, hnone, hfaces⟩ | ⟨t, ts, hsome, hahead, hbehind, hfaces⟩
    · refine ⟨ahead, ?_, hfaces, fun _ => hahead, ?_⟩
      · simp [Lexer.answer, Reply.handed, hnone]
      · simp [Lexer.answer, Reply.single?, hnone]
    · refine ⟨ts, ?_, hfaces, ?_, ?_⟩
      · simp [Lexer.answer, Reply.handed, hsome, hahead]
      · simp [Lexer.answer, Reply.ends, hsome]
      · rintro u hu
        obtain rfl : t = u := Option.some.inj (hsome.symm.trans hu)
        exact hbehind
  · obtain ⟨hahead, hfaces⟩ := h.drain
    exact ⟨_, hahead, hfaces, fun _ => rfl, by simp [Lexer.answer, Reply.single?]⟩

end Faces

/-! ## Copies are cursors -/

/-- A copy follows the tokens of a source: what it has handed out and what it
still faces make them up. -/
structure Copy.Follows (source : String) (c : Copy) (ahead : List Token) : Prop where
  tokenize : Lexer.tokenize source = c.handed ++ ahead
  faces : c.lexer.Faces source ahead
  ended : c.ended = true → ahead = [Token.endOfInput source.utf8ByteSize]
  atEnd : ∀ reply t, c.replies.getLast? = some reply → reply.single? = some t →
    StandsBehind source c.lexer t

namespace Copy.Follows

variable {c : Copy}

/-- A fresh copy follows them. -/
theorem ofSource (source : String) :
    (Copy.ofSource source).Follows source (Lexer.tokenize source) :=
  ⟨rfl, .ofSource source, by simp [Copy.ofSource, Copy.ended], by simp [Copy.ofSource]⟩

/-- **A request keeps a copy on them.**  Where only the end marker is ahead it
stays ahead. -/
theorem ask (h : c.Follows source ahead) (request : Request) :
    ∃ ts, (c.ask request).Follows source ts ∧
      (ahead = [Token.endOfInput source.utf8ByteSize] → ts = ahead) := by
  obtain ⟨ts, hahead, hfaces, hends, hsingle⟩ := h.faces.answer request
  have hstays : ahead = [Token.endOfInput source.utf8ByteSize] → ts = ahead := by
    intro heof
    obtain ⟨u, us, rfl⟩ := List.exists_cons_of_ne_nil hfaces.ne_nil
    generalize (c.lexer.answer request).1.handed = front at hahead
    rcases front with - | ⟨t, front⟩
    · exact hahead.symm
    · rw [heof] at hahead
      simp at hahead
  refine ⟨ts, ⟨?_, hfaces, ?_, ?_⟩, hstays⟩
  · rw [handed_ask, List.append_assoc, ← hahead]
    exact h.tokenize
  · intro hended
    rw [ended_ask, Bool.or_eq_true] at hended
    rcases hended with hended | hended
    · rw [hstays (h.ended hended)]
      exact h.ended hended
    · exact hends hended
  · intro reply t hreply ht
    rw [Copy.ask, List.getLast?_concat, Option.some.injEq] at hreply
    subst hreply
    exact hsingle t ht

/-- At the end marker a copy stays there, whatever it is asked for. -/
theorem askAll (h : c.Follows source [Token.endOfInput source.utf8ByteSize])
    (requests : List Request) :
    (c.askAll requests).Follows source [Token.endOfInput source.utf8ByteSize] := by
  induction requests generalizing c with
  | nil => exact h
  | cons request requests ih =>
      obtain ⟨ts, hask, hstays⟩ := h.ask request
      rw [hstays rfl] at hask
      exact ih hask

/-- The tokens before the end marker are those handed out and those still ahead. -/
theorem dropLast_tokenize (h : c.Follows source ahead) :
    (Lexer.tokenize source).dropLast = c.handed ++ ahead.dropLast := by
  rw [h.tokenize, List.dropLast_append_of_ne_nil h.faces.ne_nil]

/-- **A copy that follows the tokens of a source is a cursor into them.** -/
theorem isCursor (h : c.Follows source ahead) : c.IsCursor source where
  handed_prefix := by
    rw [h.dropLast_tokenize]
    exact List.prefix_append _ _
  token := by
    rw [h.tokenize, List.getElem?_append_right (le_refl _), Nat.sub_self,
      ← List.head?_eq_getElem?]
    exact h.faces.head?_eq
  item := by
    rw [h.dropLast_tokenize, List.getElem?_append_right (le_refl _), Nat.sub_self,
      ← List.head?_eq_getElem?]
    exact h.faces.next?_eq_head?
  items := by
    obtain ⟨hahead, -⟩ := h.faces.drain
    rw [h.dropLast_tokenize, List.drop_left, hahead, List.dropLast_concat]
  eof_forever := by
    intro heof requests
    have hc := h.faces.eq_of_kind_next_eq_eof heof ▸ h
    have hagain := (hc.askAll requests).faces.head?_eq
    exact Option.some.inj (hagain.symm.trans hc.faces.head?_eq)
  none_at_eof := by
    intro heof
    exact (h.faces.eq_of_kind_next_eq_eof heof ▸ h.faces).next?_eq_head?
  none_forever := by
    intro hended requests
    exact ((h.ended hended ▸ h).askAll requests).faces.next?_eq_head?
  atEnd := h.atEnd

end Copy.Follows

/-- Each copy follows the tokens of the source, whatever has been done. -/
theorem follows_after (source : String) (steps : List Step) :
    ∀ number, ∃ ahead, (after source steps number).Follows source ahead := by
  have hask : ∀ (c : Copy) request, (∃ ahead, c.Follows source ahead) →
      ∃ ahead, (c.ask request).Follows source ahead := by
    rintro c request ⟨ahead, hc⟩
    obtain ⟨ts, hts, -⟩ := hc.ask request
    exact ⟨ts, hts⟩
  exact Step.forall_foldl_apply hask (fun _ => ⟨_, .ofSource source⟩) steps

/-- **Copies are cursors into the tokens of a source**, whatever is asked of
whichever of them and however they are copied; and what is done to others does
not affect a copy. -/
theorem after_isCursor (source : String) (steps : List Step) (number : Nat) :
    (after source steps number).IsCursor source ∧
      ∀ further : List Step, (∀ step ∈ further, step.target ≠ number) →
        after source (steps ++ further) number = after source steps number := by
  obtain ⟨ahead, h⟩ := follows_after source steps number
  exact ⟨h.isCursor, fun _ => after_append_of_target_ne⟩

end Lexer

end ExprLang
