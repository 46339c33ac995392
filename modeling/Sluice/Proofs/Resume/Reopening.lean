import Sluice.Proofs.Run.Writing
import Sluice.Proofs.Token.RoundTrip

/-!
From the outcome of a halted run through its token to the continuation that resumes it. The pipeline
in the token is the one that the outcome belongs to, so what remains of it is a suffix of that
pipeline, whichever pipeline it was a part of before. There is no token of a continuation that does
not fit into one.
-/

namespace Sluice

theorem Invocation.Same.refl (stage : Invocation) : stage.Same stage :=
  ⟨rfl, .refl _⟩

theorem Invocation.Same.trans {a b c : Invocation} (hab : a.Same b) (hbc : b.Same c) : a.Same c :=
  ⟨hab.1.trans hbc.1, hab.2.trans hbc.2⟩

namespace Pipeline

variable {p q r : Pipeline}

theorem Same.refl (p : Pipeline) : p.Same p := by
  induction p with
  | nil => exact .nil
  | cons stage p ih => exact .cons (Invocation.Same.refl stage) ih

theorem Same.trans (hpq : p.Same q) (hqr : q.Same r) : p.Same r := by
  induction hpq generalizing r with
  | nil => exact hqr
  | cons hstage _ ih =>
    cases hqr with
    | cons hstage' hrest => exact .cons (hstage.trans hstage') (ih hrest)

theorem Same.length_eq (h : p.Same q) : p.length = q.length :=
  List.Forall₂.length_eq h

theorem Same.take (h : p.Same q) (n : Nat) : Same (p.take n) (q.take n) :=
  List.forall₂_take n h

theorem Same.drop (h : p.Same q) (n : Nat) : Same (p.drop n) (q.drop n) :=
  List.forall₂_drop n h

theorem Same.append {p' q' : Pipeline} (h : p.Same q) (h' : p'.Same q') :
    Same (p ++ p') (q ++ q') :=
  List.rel_append h h'

theorem Lawful.drop (h : p.Lawful) (n : Nat) : Lawful (p.drop n) := by
  refine ⟨fun stage hstage => h.args stage (List.mem_of_mem_drop hstage), ?_⟩
  rw [List.length_drop]
  exact Nat.lt_of_le_of_lt (Nat.sub_le _ _) h.length

/-- A pipeline that is the same as one that can be kept can be kept. -/
theorem Same.lawful (h : p.Same q) (hq : q.Lawful) : p.Lawful := by
  refine ⟨?_, h.length_eq ▸ hq.length⟩
  have hargs := hq.args
  clear hq
  induction h with
  | nil => exact List.forall_mem_nil _
  | cons hstage hrest ih =>
    rw [List.forall_mem_cons] at hargs ⊢
    refine ⟨?_, ih hargs.2⟩
    exact (hstage.2.map Prod.fst).nodup_iff.mpr hargs.1

end Pipeline

/-- What is left of an outcome goes on after the stage that it halted at. -/
theorem Continuation.ofOutcome_haltedOn {pipeline : Pipeline} {stage : Nat} (a : Approval)
    (h : stage + 1 ≤ pipeline.length) :
    ofOutcome pipeline (.haltedOn stage a) = .ok ⟨pipeline, stage + 1, a.items, a.prompt, h⟩ := by
  have hindex : Checked.index (.int ((stage : Int) + 1)) = .ok (stage + 1) := by
    have hpos : ¬ (stage : Int) + 1 < 0 := by omega
    rw [Checked.index, Checked.whole?]
    simp only [if_neg hpos]
    congr 1
  simp only [ofOutcome, Outcome.haltedOn, Outcome.approval?, ↓reduceIte, Item.soleApproval?,
    Approval.toItem, Item.approval?, hindex, ofChecked, Checked.both]
  exact dif_pos h

/-- The token of a run that halted within its pipeline is accepted. What remains are the stages after
the halt, and the items and the prompt are the ones asked about as the token keeps them. -/
theorem Token.decode_halted (key : Option (List UInt8)) {pipeline : Pipeline}
    (hpipeline : pipeline.Lawful) {stage : Nat} (hstage : stage + 1 ≤ pipeline.length) {a : Approval}
    (hitems : ∀ x ∈ a.items, x.WellFormed) :
    ∃ restored,
      decode key (some (encode key ⟨pipeline, stage + 1, a.items, a.prompt, hstage⟩)) =
        .ok restored ∧
      restored.remaining.Same (pipeline.drop (stage + 1)) ∧
      restored.items = a.items.map Item.stored ∧ restored.prompt = a.prompt := by
  have hwell : Continuation.WellFormed ⟨pipeline, stage + 1, a.items, a.prompt, hstage⟩ :=
    ⟨hpipeline.args, Nat.lt_of_le_of_lt hstage hpipeline.length, hitems⟩
  obtain ⟨restored, hdecode, hrestores⟩ := decode_encode key hwell
  refine ⟨restored, hdecode, ?_, hrestores.items, hrestores.prompt⟩
  rw [Continuation.remaining, hrestores.resumeAt]
  exact hrestores.pipeline.drop (stage + 1)

def Token.ofOutcome (key : Option (List UInt8)) (pipeline : Pipeline) (o : Outcome) :
    Except Failure String := do
  let c ← (Continuation.ofOutcome pipeline o).mapError Failure.continuation
  issue key c

def Token.reopen (key : Option (List UInt8)) (pipeline : Pipeline) (o : Outcome) :
    Except Failure Continuation := do
  let token ← ofOutcome key pipeline o
  decode key (some token)

theorem Token.ofOutcome_haltedOn (key : Option (List UInt8)) {pipeline : Pipeline} {stage : Nat}
    (hstage : stage + 1 ≤ pipeline.length) (a : Approval) :
    ofOutcome key pipeline (.haltedOn stage a) =
      issue key ⟨pipeline, stage + 1, a.items, a.prompt, hstage⟩ := by
  rw [ofOutcome, Continuation.ofOutcome_haltedOn a hstage]
  rfl

/-- The token of such a run, where there is one, leads to the continuation that resumes it. -/
theorem Token.decode_ofOutcome (key : Option (List UInt8)) {pipeline : Pipeline}
    (hpipeline : pipeline.Lawful) {stage : Nat} (hstage : stage + 1 ≤ pipeline.length) {a : Approval}
    (hitems : ∀ x ∈ a.items, x.WellFormed) {token : String}
    (htoken : ofOutcome key pipeline (.haltedOn stage a) = .ok token) :
    ∃ restored, decode key (some token) = .ok restored ∧
      restored.remaining.Same (pipeline.drop (stage + 1)) ∧
      restored.items = a.items.map Item.stored := by
  rw [ofOutcome_haltedOn key hstage] at htoken
  obtain ⟨-, rfl⟩ := carried_of_issue htoken
  obtain ⟨restored, hdecode, hremaining, hrestored, -⟩ := decode_halted key hpipeline hstage hitems
  exact ⟨restored, hdecode, hremaining, hrestored⟩

/-- The outcome of such a run leads to the continuation that resumes it if what is left fits into a
token. -/
theorem Token.reopen_haltedOn (key : Option (List UInt8)) {pipeline : Pipeline}
    (hpipeline : pipeline.Lawful) {stage : Nat} (hstage : stage + 1 ≤ pipeline.length) {a : Approval}
    (hitems : ∀ x ∈ a.items, x.WellFormed)
    (hcarried : Continuation.Carried ⟨pipeline, stage + 1, a.items, a.prompt, hstage⟩) :
    ∃ restored, reopen key pipeline (.haltedOn stage a) = .ok restored ∧
      restored.remaining.Same (pipeline.drop (stage + 1)) ∧
      restored.items = a.items.map Item.stored := by
  have htoken := (ofOutcome_haltedOn key hstage a).trans (issue_eq_ok key hcarried)
  obtain ⟨restored, hdecode, hrest⟩ := decode_ofOutcome key hpipeline hstage hitems htoken
  refine ⟨restored, ?_, hrest⟩
  simp only [reopen, htoken, bind, Except.bind, hdecode]

end Sluice
