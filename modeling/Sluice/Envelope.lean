import Sluice.Token

/-!
What a run shows at its end: for a tool one JSON document, whatever happened; for a person the list
of items, unless the last stage has presented them already. Neither can be written of whatever items.
Where the document for a tool cannot be made that is reported like a failure of the run; but a document
that is made and holds half a character in a string is not printed, and nothing is in its place.
-/

namespace Sluice

/-- Where a failure comes from. -/
inductive ErrorType where
  | parse
  | runtime
  deriving DecidableEq

def ErrorType.name : ErrorType → String
  | .parse => "parse_error"
  | .runtime => "runtime_error"

/-- The document that a tool gets. -/
inductive Envelope where
  | completed (items : List Item)
  | needsApproval (request : Approval) (token : String)
  | cancelled
  | failed (type : ErrorType) (message : String)

namespace Envelope

/-- The document of a run that did not fail. -/
def success (status : String) (output : List Json) (request : Json) : Json :=
  .obj [("ok", .bool true), ("status", .str status), ("output", .arr output),
    ("requiresApproval", request)]

def toJson : Envelope → Json
  | .completed items => success "ok" (Item.toJsonList items) .null
  | .needsApproval a token =>
    success "needs_approval" []
      (.obj [("type", .str Item.requestType), ("items", .arr (Item.toJsonList a.items)),
        ("prompt", .str a.prompt), ("resumeToken", .str token)])
  | .cancelled => success "cancelled" [] .null
  | .failed type message =>
    .obj [("ok", .bool false),
      ("error", .obj [("type", .str type.name), ("message", .str message)])]

def text (e : Envelope) : String :=
  Json.text Json.envelope e.toJson

/-- What is printed for an envelope: its text on lines of its own, if all of its strings are text. -/
def print (e : Envelope) : Except Failure String :=
  match e.toJson.half? with
  | some half => .error (.envelopeNotText half)
  | none => .ok (e.text ++ "\n")

def ofFailure (type : ErrorType) (f : Failure) : Envelope :=
  .failed type f.report

/-- The envelope of an outcome of a pipeline. A halted run gets a token that is signed with a key, and
the items are taken apart once more to be shown. -/
def ofOutcome (key : Option (List UInt8)) (pipeline : Pipeline) (o : Outcome) :
    Except Failure Envelope :=
  match o.approval? with
  | some a => do
    let c ← (Continuation.ofOutcome pipeline o).mapError Failure.continuation
    let token ← Token.issue key c
    let _ ← Item.jsonable a.items
    pure (.needsApproval a token)
  | none => do
    let _ ← Item.jsonable o.items
    pure (.completed o.items)

/-- The envelope of a run. A run that has failed is reported, and so is one whose envelope cannot be
made: there is no key to sign with, or its items cannot be kept. -/
def ofRun (key : Except Failure (Option (List UInt8))) (pipeline : Pipeline)
    (r : Except Failure Outcome) : Envelope :=
  let made : Except Failure Envelope := do
    let o ← r
    let key ← key
    ofOutcome key pipeline o
  match made with
  | .ok e => e
  | .error f => .ofFailure .runtime f

end Envelope

/-- What a person gets to see of an outcome: nothing where the last stage has shown it, else the list of
items, if it can be written. -/
def Outcome.listing (o : Outcome) : Except Failure String :=
  if o.rendered then .ok ""
  else do
    let values ← Item.jsonable o.items
    Json.checkNumbers (.arr values)
    Json.encodable (.arr values) (Json.text Json.listing (.arr values) ++ "\n")

end Sluice
