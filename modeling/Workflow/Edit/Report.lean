import Workflow.Document.Printer
import Workflow.Edit.Apply

namespace Workflow

open Document (boolField listField objectField textField)

def EditResult.toJson (r : EditResult) : Json :=
  .object ((if r.index = 0 then [] else [("index", .nat r.index)]) ++ textField "op" r.name
    ++ boolField "success" r.succeeded
    ++ textField "error" ((r.error.map EditError.message).getD ""))

def BatchResult.toJson (r : BatchResult) : Json :=
  .object (boolField "success" r.succeeded
    ++ listField "results" (r.results.map EditResult.toJson)
    ++ objectField "finalFlow" (fun f => f.toDocument.toJson) r.flow)

/-- The written report, with the edited flow if there is one. -/
def BatchResult.write (r : BatchResult) : Except Document.Refusal Json :=
  if r.flow.all fun f => f.toDocument.isPrintable then .ok r.toJson
  else .error (.unprintable "apply result")

end Workflow
