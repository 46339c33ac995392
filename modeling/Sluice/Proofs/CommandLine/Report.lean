import Sluice.Proofs.Approval.Replay
import Sluice.Proofs.Command.Printing
import Sluice.Proofs.Command.Soundness
import Sluice.Proofs.Token.Refusal

/-!
What a tool gets from a call of `run`. Settings, parser, commands and the halt of a run each have a
way of their own to fail or to end, and each of them is reported by one envelope with its exit code.
Nothing is printed while the run is going on, and all that an envelope shows was read as JSON or is
a text, so the whole output of the call is one document that can be read back. But a string that was
read can hold half a character, and then the envelope cannot be printed and the call ends with nothing.
-/

namespace Sluice

namespace Pipeline

end Pipeline

namespace Envelope

open CommandLine (errorCode envelopeCode)

end Envelope

namespace CommandLine

/-- What a call writes to its standard output: what is printed while it runs, then what is left to
its end. -/
def written (ran : Ran Exit) : String :=
  String.join (ran.log.filterMap fun e => e.effect.printed?) ++
    match ran.result with
    | .ok exit => exit.stdout
    | .error _ => ""

/-- The words after `run` are in order and ask for no help. This is the mode that counts among them,
and these are the words of the pipeline. -/
def Understood (args : List String) (mode : Mode) (words : List String) : Prop :=
  ∃ p, parseOptions runGrammar args = .ok p ∧ p.help = false ∧
    (mode? ((p.value? modeOption).getD "human")).isSome ∧
    stripMode ((p.value? modeOption).getD "human") p.words = .ok (mode, words)

/-- Words that are not understood ask for help or are a usage error, and nothing is run. -/
theorem run_not_understood {args : List String} (h : ∀ mode words, ¬ Understood args mode words)
    (s : Surroundings) :
    ∃ exit, run s args = .pure exit ∧
      (exit = .success runForm.usage ∨ exit.code = parseCode ∧ exit.stdout = "") := by
  rw [run]
  split
  · rename_i e _
    exact ⟨_, rfl, .inr (by cases e <;> exact ⟨rfl, rfl⟩)⟩
  rename_i p hparse
  split
  · exact ⟨_, rfl, .inl rfl⟩
  rename_i hhelp
  simp only
  split
  · exact ⟨_, rfl, .inr ⟨rfl, rfl⟩⟩
  rename_i given hgiven
  split
  · exact ⟨_, rfl, .inr ⟨rfl, rfl⟩⟩
  rename_i mode words hstrip
  refine absurd ⟨p, hparse, ?_, ?_, hstrip⟩ (h mode words)
  · simpa using hhelp
  · rw [hgiven]
    rfl

end CommandLine

end Sluice
