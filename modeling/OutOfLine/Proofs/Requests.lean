import OutOfLine.Declaration.Parser
import OutOfLine.Scope

namespace OutOfLine

/-- What can be asked of a parser. -/
inductive Request where
  | qualifiedName
  | className
  | classHead
  | enclosingClass
  | segment
  | declaration
  | declarations
deriving DecidableEq, Repr

namespace Request

def Result : Request → Type
  | .qualifiedName => Text
  | .className => ClassName
  | .classHead => ClassHead
  | .enclosingClass => ClassHead
  | .segment => Segment
  | .declaration => Declaration
  | .declarations => List Declaration

def production : (request : Request) → Production request.Result
  | .qualifiedName => Production.qualifiedName
  | .className => Production.className
  | .classHead => Production.classHead
  | .enclosingClass => Production.enclosingClass
  | .segment => Production.segment
  | .declaration => Production.declaration
  | .declarations => Production.declarations

/-- The state after requests that were made one after the other, each with its result or without. -/
def serve (parser : Parser) (requests : List Request) : Parser :=
  requests.foldl (fun parser request => (request.production parser).2) parser

theorem production_keeps (request : Request) : Production.Keeps request.production := by
  cases request with
  | qualifiedName => exact Production.qualifiedName_keeps
  | className => exact Production.className_keeps
  | classHead => exact Production.classHead_keeps
  | enclosingClass => exact Production.enclosingClass_keeps
  | segment => exact Production.segment_keeps
  | declaration => exact Production.declaration_keeps
  | declarations => exact Production.declarations_keeps

theorem serve_follows (parser : Parser) (requests : List Request) :
    Parser.Follows parser (serve parser requests) := by
  induction requests generalizing parser with
  | nil => exact .refl parser
  | cons request requests ih => exact (request.production_keeps parser).trans (ih _)

/-- After any requests, and after one more, the checkpoints are those of the start, and the log has
no missing checkpoint that it did not have. A checkpoint that is missing does go on the log. -/
theorem checkpoints_balanced (parser : Parser) (requests : List Request) (request : Request) :
    let before := serve parser requests
    let after := (request.production before).2
    after.tokenizer.checkpoints = before.tokenizer.checkpoints ∧
    after.tokenizer.checkpoints = parser.tokenizer.checkpoints ∧
    Log.Grows before.log after.log ∧
    Log.Grows parser.log after.log ∧
    ∀ cursor log, ¬ Log.Grows log (Parser.restore ⟨⟨cursor, []⟩, log⟩).log ∧
      ¬ Log.Grows log (Parser.discard ⟨⟨cursor, []⟩, log⟩).log := by
  have step := request.production_keeps (serve parser requests)
  have run := (serve_follows parser requests).trans step
  refine ⟨step.checkpoints, run.checkpoints, step.log, run.log, fun cursor log => ⟨?_, ?_⟩⟩
  · exact Log.not_grows_fault rfl log
  · exact Log.not_grows_fault rfl log

end Request

end OutOfLine
