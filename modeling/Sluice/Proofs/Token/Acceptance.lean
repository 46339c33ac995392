import Sluice.Proofs.Json.Admission
import Sluice.Proofs.Token.Contents

/-!
What a payload is accepted as. A continuation that is read from JSON can be kept again: its stages
have one value for each argument, its items are values, and its index, wherever it was read from, has
no more digits than are read.
-/

namespace Sluice

namespace Text

theorem digitValue?_lt {c : Char} {d : Nat} (h : digitValue? c = some d) : d < 10 := by
  obtain ⟨start, hstart, rfl⟩ := Option.map_eq_some_iff.mp h
  have hrange := List.find?_some hstart
  simp only [Bool.and_eq_true, decide_eq_true_eq] at hrange
  omega

theorem groupedDigits?_lt {cs : List Char} {ds : List Nat} (h : groupedDigits? cs = some ds) :
    ∀ d ∈ ds, d < 10 := by
  fun_induction groupedDigits? cs generalizing ds with
  | case1 => cases h
  | case2 c =>
    obtain ⟨d, hd, rfl⟩ := Option.map_eq_some_iff.mp h
    rw [List.forall_mem_singleton]
    exact digitValue?_lt hd
  | case3 c rest ih =>
    simp only [Option.bind_eq_bind, Option.bind_eq_some_iff, Option.pure_def, Option.some.injEq] at h
    obtain ⟨d, hd, more, hmore, rfl⟩ := h
    rw [List.forall_mem_cons]
    exact ⟨digitValue?_lt hd, ih hmore⟩
  | case4 c rest _ _ ih =>
    simp only [Option.bind_eq_bind, Option.bind_eq_some_iff, Option.pure_def, Option.some.injEq] at h
    obtain ⟨d, hd, more, hmore, rfl⟩ := h
    rw [List.forall_mem_cons]
    exact ⟨digitValue?_lt hd, ih hmore⟩

theorem natural?_lt {cs : List Char} {n : Nat} (h : natural? cs = some n) : n < 10 ^ maxDigits := by
  unfold natural? at h
  split at h
  · rename_i ds hds
    split at h
    · rename_i hlength
      cases h
      calc ofDigits ds
          < 10 ^ ds.length := ofDigits_lt (groupedDigits?_lt hds)
        _ ≤ 10 ^ maxDigits := Nat.pow_le_pow_right (by omega) hlength
    · cases h
  · cases h

theorem signed?_lt {cs : List Char} {n : Int} (h : signed? cs = some n) :
    n.natAbs < 10 ^ maxDigits := by
  unfold signed? at h
  split at h <;>
    simp only [Option.map_eq_some_iff, Option.bind_eq_bind, Option.bind_eq_some_iff, Option.pure_def,
      Option.some.injEq] at h <;>
    obtain ⟨_, ⟨m, hm, rfl⟩, rfl⟩ := h
  · rw [Int.natAbs_neg]
    exact natural?_lt hm
  · exact natural?_lt hm
  · exact natural?_lt hm

end Text

namespace Checked

variable {α β : Type}

theorem both_eq_ok {a : Checked α} {b : Checked β} {x : α} {y : β} (h : both a b = .ok (x, y)) :
    a = .ok x ∧ b = .ok y := by
  unfold both at h
  split at h
  · cases h
    exact ⟨rfl, rfl⟩
  · cases h
  · cases h
  · cases h

theorem map_eq_ok {a : Checked α} {f : α → β} {y : β} (h : a.map f = .ok y) :
    ∃ x, a = .ok x ∧ f x = y := by
  cases a with
  | error n => cases h
  | ok x => exact ⟨x, rfl, Except.ok.inj h⟩

/-- Where a list is accepted each of its elements is. -/
theorem all_eq_ok {check : α → Checked β} {xs : List α} {ys : List β} (h : all check xs = .ok ys) :
    List.Forall₂ (fun x y => check x = .ok y) xs ys := by
  induction xs generalizing ys with
  | nil =>
    cases h
    exact .nil
  | cons x xs ih =>
    obtain ⟨⟨y, more⟩, hboth, rfl⟩ := map_eq_ok h
    obtain ⟨hy, hmore⟩ := both_eq_ok hboth
    exact .cons hy (ih hmore)

theorem required_eq_ok {j : Json} {key : String} {check : Json → Checked α} {a : α}
    (h : required j key check = .ok a) : ∃ v, j.get? key = some v ∧ check v = .ok a := by
  unfold required at h
  split at h
  · rename_i v hv
    exact ⟨v, hv, h⟩
  · cases h

theorem optional_eq_ok {j : Json} {key : String} {default : α} {check : Json → Checked α} {a : α}
    (h : optional j key default check = .ok a) :
    (∃ v, j.get? key = some v ∧ check v = .ok a) ∨ a = default := by
  unfold optional at h
  split at h
  · rename_i v hv
    exact .inl ⟨v, hv, h⟩
  · exact .inr (Except.ok.inj h).symm

theorem args_lawful {j : Json} (hj : j.wellFormed = true) {a : Args} (h : args j = .ok a) :
    a.Lawful := by
  unfold args at h
  split at h
  · rename_i ms
    have hkeys : a.map Prod.fst = ms.map Prod.fst := by
      have hall := all_eq_ok h
      clear h hj
      induction hall with
      | nil => rfl
      | cons hmember _ ih =>
        obtain ⟨v, -, rfl⟩ := map_eq_ok hmember
        exact congrArg _ ih
    rw [Args.Lawful, hkeys]
    exact (Json.wellFormed_obj.mp hj).1
  · cases h

theorem invocation_lawful {j : Json} (hj : j.wellFormed = true) {stage : Invocation}
    (h : invocation j = .ok stage) : stage.args.Lawful := by
  unfold invocation at h
  split at h
  · obtain ⟨⟨name, a⟩, hboth, rfl⟩ := map_eq_ok h
    rcases optional_eq_ok (both_eq_ok hboth).2 with ⟨v, hv, hargs⟩ | rfl
    · exact args_lawful (Json.wellFormed_of_get? hj hv) hargs
    · simp [Args.Lawful, Args.empty]
  · cases h

theorem pipeline_lawful {j : Json} (hj : j.wellFormed = true) {p : Pipeline}
    (h : pipeline j = .ok p) : ∀ stage ∈ p, stage.args.Lawful := by
  unfold pipeline at h
  split at h
  · rename_i xs
    have helements := Json.wellFormed_arr.mp hj
    have hall := all_eq_ok h
    clear h hj
    induction hall with
    | nil => exact List.forall_mem_nil _
    | cons hstage _ ih =>
      rw [List.forall_mem_cons] at helements ⊢
      exact ⟨invocation_lawful helements.1 hstage, ih helements.2⟩
  · cases h

theorem items_wellFormed {j : Json} (hj : j.wellFormed = true) {xs : List Item}
    (h : items j = .ok xs) : ∀ x ∈ xs, x.isValue = true ∧ x.WellFormed := by
  unfold items at h
  split at h
  · cases h
    rw [List.forall_mem_map]
    exact fun v hv => ⟨rfl, Json.wellFormed_arr.mp hj v hv⟩
  · cases h

theorem whole?_lt {j : Json} (hj : j.wellFormed = true) {n : Int} (h : whole? j = some n) :
    n.natAbs < 10 ^ Text.maxDigits := by
  cases j with
  | int m =>
    cases h
    exact Json.wellFormed_int.mp hj
  | bool b =>
    cases h
    cases b
    · exact Json.lt_pow_maxDigits (show 0 < 10 by omega)
    · exact Json.lt_pow_maxDigits (show 1 < 10 by omega)
  | float x =>
    have hsmall : 1 <<< 63 ≤ 10 ^ Text.maxDigits := by
      calc 1 <<< 63
          ≤ 10 ^ 63 := by decide
        _ ≤ 10 ^ Text.maxDigits := Nat.pow_le_pow_right (by omega) (by decide)
    cases x with
    | finite negative x =>
      rw [whole?, wholeFloat?] at h
      split at h
      · rename_i hwhole
        have hlt := Nat.lt_of_lt_of_le hwhole.2 hsmall
        cases h
        split
        · rwa [Int.natAbs_neg]
        · exact hlt
      · cases h
    | nan => cases h
    | infinite negative => cases h
  | str s =>
    rw [whole?] at h
    unfold wholeText? at h
    simp only at h
    split at h
    · split at h
      · exact Text.signed?_lt h
      · split at h
        · exact Text.signed?_lt h
        · cases h
    · cases h
  | null => cases h
  | arr xs => cases h
  | obj ms => cases h

theorem index_lt {j : Json} (hj : j.wellFormed = true) {n : Nat} (h : index j = .ok n) :
    n < 10 ^ Text.maxDigits := by
  unfold index at h
  split at h
  · rename_i m hm
    split at h
    · cases h
    · cases h
      have hlt := whole?_lt hj hm
      omega
  · cases h

end Checked

namespace Continuation

/-- A continuation that is read from JSON can be kept, and its items are values. -/
theorem wellFormed_of_ofJson {j : Json} (hj : j.wellFormed = true) {c : Continuation}
    (h : ofJson j = .ok c) : c.WellFormed ∧ ∀ x ∈ c.items, x.isValue = true := by
  unfold ofJson at h
  simp only at h
  unfold ofChecked at h
  split at h
  · rename_i pipeline resumeAt items prompt hchecked
    obtain ⟨hfront, hback⟩ := Checked.both_eq_ok hchecked
    obtain ⟨hpipeline, hindex⟩ := Checked.both_eq_ok hfront
    obtain ⟨hitems, -⟩ := Checked.both_eq_ok hback
    unfold ofParts at h
    split at h
    · cases h
      have hstages : ∀ stage ∈ pipeline, stage.args.Lawful := by
        obtain ⟨v, hv, hcheck⟩ := Checked.required_eq_ok hpipeline
        exact Checked.pipeline_lawful (Json.wellFormed_of_get? hj hv) hcheck
      have hlt : resumeAt < 10 ^ Text.maxDigits := by
        split at hindex
        · rename_i v hv
          exact Checked.index_lt (Json.wellFormed_of_get? hj hv) hindex
        · obtain ⟨v, hv, hcheck⟩ := Checked.required_eq_ok hindex
          exact Checked.index_lt (Json.wellFormed_of_get? hj hv) hcheck
      have hvalues : ∀ x ∈ items, x.isValue = true ∧ x.WellFormed := by
        rcases Checked.optional_eq_ok hitems with ⟨v, hv, hcheck⟩ | rfl
        · exact Checked.items_wellFormed (Json.wellFormed_of_get? hj hv) hcheck
        · exact List.forall_mem_nil _
      exact ⟨⟨hstages, hlt, fun x hx => (hvalues x hx).2⟩, fun x hx => (hvalues x hx).1⟩
    · cases h
  · cases h

end Continuation

end Sluice
