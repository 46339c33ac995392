import Sluice.Pipeline.Basic

/-!
What a run does outside itself, and what the outside world answers. A script holds the answers in
the order they will be given.
-/

namespace Sluice

abbrev Environment := List (String × String)

/-- A request to a tool endpoint. Its method is always POST. -/
structure Post where
  url : String
  authorization : Option String
  body : String
  deriving DecidableEq

/-- How a subprocess ends. -/
inductive ProcessResult where
  | finished (stdout stderr : List UInt8) (exit : Int)
  | timedOut

/-- How a request is answered. -/
inductive Reply where
  | response (status : Nat) (body : List UInt8)
  | unreachable (detail : String)

/-- One thing a run does: it starts a stage, leaves a note, starts a subprocess, sends a request,
asks a question or prints a text. -/
inductive Effect where
  | start (stage : Invocation)
  | note (line : String)
  | spawn (command : String) (env : Option Environment)
  | post (request : Post)
  | confirm (question : String)
  | print (text : String)
  deriving DecidableEq

def Effect.Answer : Effect → Type
  | .start _ | .note _ | .print _ => Unit
  | .spawn _ _ => ProcessResult
  | .post _ => Reply
  | .confirm _ => Bool

/-- The answers that the outside world has in store. -/
structure Script where
  processes : List ProcessResult
  replies : List Reply
  confirmations : List Bool

namespace Script

def empty : Script := ⟨[], [], []⟩

/-- The next answer to an effect, and the script after it. Where nothing is in store a subprocess
ends well without output, a request is answered by an empty success, and a question is denied. -/
def answer (s : Script) : (e : Effect) → e.Answer × Script
  | .start _ | .note _ | .print _ => ((), s)
  | .spawn _ _ =>
    match s.processes with
    | [] => (.finished [] [] 0, s)
    | r :: rest => (r, { s with processes := rest })
  | .post _ =>
    match s.replies with
    | [] => (.response 204 [], s)
    | r :: rest => (r, { s with replies := rest })
  | .confirm _ =>
    match s.confirmations with
    | [] => (false, s)
    | b :: rest => (b, { s with confirmations := rest })

end Script

end Sluice
