import Sluice.Command.Probe
import Sluice.Main
import Sluice.Proofs.Approval.Consent
import Sluice.Proofs.Approval.Halt
import Sluice.Proofs.Approval.Recognition
import Sluice.Proofs.Approval.Replay
import Sluice.Proofs.Command.Endpoint
import Sluice.Proofs.Command.Order
import Sluice.Proofs.Command.Switch
import Sluice.Proofs.Command.Table
import Sluice.Proofs.CommandLine.ModeWords
import Sluice.Proofs.CommandLine.Renderings
import Sluice.Proofs.CommandLine.Report
import Sluice.Proofs.Pipeline.Acceptance
import Sluice.Proofs.Pipeline.Arguments
import Sluice.Proofs.Pipeline.RoundTrip
import Sluice.Proofs.Resume.Chain
import Sluice.Proofs.Resume.Equivalence
import Sluice.Proofs.Run.Composition
import Sluice.Proofs.Run.Demand
import Sluice.Proofs.Run.Intake
import Sluice.Proofs.Run.Interleaving
import Sluice.Proofs.Run.Outcome
import Sluice.Proofs.Run.Presentation
import Sluice.Proofs.Run.Projection
import Sluice.Proofs.Run.Selection
import Sluice.Proofs.Run.Sources
import Sluice.Proofs.Run.Transparency
import Sluice.Proofs.Run.Wording
import Sluice.Proofs.Token.Canonical
import Sluice.Proofs.Token.Parts
import Sluice.Proofs.Token.Refusal
