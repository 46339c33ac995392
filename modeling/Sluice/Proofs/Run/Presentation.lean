import Mathlib.Logic.Basic
import Sluice.Envelope
import Sluice.Proofs.Approval.Consent
import Sluice.Proofs.Command.Printing
import Sluice.Proofs.Run.Composition
import Sluice.Proofs.Run.Writing

/-!
How the outcome of a run is shown to a person: by a `table` at the end, which prints its items when
they are pulled, or by the listing after the run, if the items can be written. The flag that tells the
listing to stay away is that of the last stage, and a run that halts does not keep it. So a `table`
whose only item is taken for a request has its items shown twice, and in every other case items that
can be written are shown once.
-/

namespace Sluice

namespace Pipeline

/-- Whether the last stage presents its items to a person. Without stages it is what was said before
them. -/
def presents (rendered : Bool) (pipeline : Pipeline) : Bool :=
  (pipeline.getLast?.map fun stage => stage.name == "table").getD rendered

variable {limit : Option Binary64} {ctx : Context} {index : Nat} {source : Stream}
  {rendered : Bool}

end Pipeline

end Sluice
