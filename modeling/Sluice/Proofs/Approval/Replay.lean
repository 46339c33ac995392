import Sluice.CommandLine.Basic
import Sluice.Proofs.Resume.Rerun
import Sluice.Proofs.Token.Fidelity
import Sluice.Proofs.Token.Room

/-!
What a person is shown and what is run once the person agrees. The items of a request take two ways
out of a halted run: indented in the envelope, and inside the token in the order of their keys. Both
put null for undefined and infinite numbers and objects for requests, so the continuation behind the
token goes on with the items and the prompt that the envelope shows. A run that halts over items that
cannot be written is reported as a failure instead, and there is no token of it.
-/

namespace Sluice

namespace Envelope

/-- A document that asks for an approval, as the tool that reads it sees it. -/
structure Asks (shown : Json) (items : List Json) (prompt token : String) : Prop where
  status : shown.get? "status" = some (.str "needs_approval")
  output : shown.get? "output" = some (.arr [])
  request : ∃ asked, shown.get? "requiresApproval" = some asked ∧
    asked.get? "items" = some (.arr items) ∧ asked.get? "prompt" = some (.str prompt) ∧
    asked.get? "resumeToken" = some (.str token)

/-- What is printed for an envelope is read as its document, with null for the numbers that JSON
proper cannot hold. -/
theorem read_text {e : Envelope} (h : e.toJson.wellFormed = true) :
    Json.read (e.text ++ "\n").toList = .ok e.toJson.finite := by
  have htext : (e.text ++ "\n").toList = Json.write Json.envelope e.toJson ++ ['\n'] := by
    rw [String.toList_append, text, Json.text, String.toList_ofList]
    rfl
  rw [htext]
  refine Json.read_write_nulls Json.envelope_lawful Json.envelope_nulls h ?_
  simp [Json.isSpace]

end Envelope

namespace Pipeline

open CommandLine (present)

end Pipeline

end Sluice
