import Mathlib.Algebra.Group.Nat.Defs
import Sluice.Proofs.Json.Numbers
import Sluice.Proofs.Json.Shape

/-!
What the reader lets through. Whatever text it is given, a value that it reads is well formed: it
refuses long whole numbers itself, and it keeps one member for each key of an object. The whole
numbers that it refuses on their own account are indeed too long.
-/

namespace Sluice

theorem Text.ofDigits_lt {ds : List Nat} (h : ∀ d ∈ ds, d < 10) :
    ofDigits ds < 10 ^ ds.length := by
  have hfold (init : Nat) :
      ds.foldl (fun n d => 10 * n + d) init < (init + 1) * 10 ^ ds.length := by
    induction ds generalizing init with
    | nil => simp
    | cons d ds ih =>
      rw [List.forall_mem_cons] at h
      rw [List.foldl_cons, List.length_cons, Nat.pow_succ']
      calc ds.foldl (fun n d => 10 * n + d) (10 * init + d)
          < (10 * init + d + 1) * 10 ^ ds.length := ih h.2 (10 * init + d)
        _ ≤ ((init + 1) * 10) * 10 ^ ds.length := Nat.mul_le_mul_right _ (by omega)
        _ = (init + 1) * (10 * 10 ^ ds.length) := Nat.mul_assoc _ _ _
  rw [ofDigits, ← Nat.one_mul (10 ^ ds.length)]
  exact hfold 0

namespace Json

/-- A reading that ends with a value of a kind, at a fault, or at a whole number that is too long. -/
structure Admits {α : Type} (ok : α → Prop) (r : Read α) : Prop where
  value : ∀ a rest, r = .ok (a, rest) → ok a
  long : ∀ digits, r = .error (.longNumber digits) → Text.maxDigits < digits

theorem admits_ok {α : Type} {ok : α → Prop} {a : α} (h : ok a) (rest : List Char) :
    Admits ok (.ok (a, rest)) := by
  refine ⟨?_, nofun⟩
  intro b rest' heq
  cases heq
  exact h

theorem admits_fault {α : Type} {ok : α → Prop} (fault : Fault) (rest : List Char) :
    Admits ok (.error (.fault fault rest)) :=
  ⟨nofun, nofun⟩

theorem admits_longNumber {α : Type} {ok : α → Prop} {digits : Nat} (h : Text.maxDigits < digits) :
    Admits ok (.error (.longNumber digits)) := by
  refine ⟨nofun, ?_⟩
  intro digits' heq
  cases heq
  exact h

theorem Admits.bind {α β : Type} {ok : α → Prop} {ok' : β → Prop}
    {r : Except Stop (α × List Char)} {f : α × List Char → Except Stop (β × List Char)}
    (hr : Admits ok r) (hf : ∀ a rest, ok a → Admits ok' (f (a, rest))) :
    Admits ok' (r >>= f : Except Stop (β × List Char)) := by
  cases r with
  | error stop =>
    cases stop with
    | fault fault rest => exact admits_fault fault rest
    | longNumber digits => exact admits_longNumber (hr.long digits rfl)
  | ok ar => exact hf ar.1 ar.2 (hr.value ar.1 ar.2 rfl)

theorem Admits.map {α β : Type} {ok : α → Prop} {ok' : β → Prop} {r : Read α} {f : α → β}
    (hr : Admits ok r) (hf : ∀ a, ok a → ok' (f a)) :
    Admits ok' (r.map fun (a, rest) => (f a, rest)) := by
  cases r with
  | error stop =>
    cases stop with
    | fault fault rest => exact admits_fault fault rest
    | longNumber digits => exact admits_longNumber (hr.long digits rfl)
  | ok ar => exact admits_ok (hf ar.1 (hr.value ar.1 ar.2 rfl)) ar.2

theorem mem_put {members : List (String × Json)} {key : String} {value : Json}
    {kv : String × Json} (h : kv ∈ put members key value) : kv = (key, value) ∨ kv ∈ members := by
  induction members with
  | nil => simpa [put] using h
  | cons member members ih =>
    rw [put] at h
    split at h
    · rename_i hkey
      rcases List.mem_cons.mp h with rfl | h
      · exact .inl (by rw [hkey])
      · exact .inr (List.mem_cons_of_mem _ h)
    · rcases List.mem_cons.mp h with rfl | h
      · exact .inr List.mem_cons_self
      · exact (ih h).imp_right (List.mem_cons_of_mem _)

theorem nodup_put {members : List (String × Json)} (h : (members.map Prod.fst).Nodup)
    (key : String) (value : Json) : ((put members key value).map Prod.fst).Nodup := by
  induction members with
  | nil => simp [put]
  | cons member members ih =>
    rw [List.map_cons, List.nodup_cons] at h
    rw [put]
    split
    · rw [List.map_cons, List.nodup_cons]
      exact h
    · rename_i hkey
      rw [List.map_cons, List.nodup_cons]
      refine ⟨fun hmem => ?_, ih h.2⟩
      obtain ⟨kv, hkv, heq⟩ := List.mem_map.mp hmem
      rcases mem_put hkv with rfl | hkv
      · exact hkey heq.symm
      · exact h.1 (heq ▸ List.mem_map_of_mem hkv)

/-- An object has one member for each key that was written, with a value that was written. -/
theorem distinct_spec (written : List (String × Json)) :
    ((distinct written).map Prod.fst).Nodup ∧ ∀ kv ∈ distinct written, kv ∈ written := by
  have hfold (members : List (String × Json)) (hnodup : (members.map Prod.fst).Nodup) :
      let result := written.foldl (fun members kv => put members kv.1 kv.2) members
      (result.map Prod.fst).Nodup ∧ ∀ kv ∈ result, kv ∈ members ∨ kv ∈ written := by
    induction written generalizing members with
    | nil => exact ⟨hnodup, fun kv hkv => .inl hkv⟩
    | cons first written ih =>
      obtain ⟨hresult, hmem⟩ := ih (put members first.1 first.2) (nodup_put hnodup _ _)
      refine ⟨hresult, fun kv hkv => ?_⟩
      rcases hmem kv hkv with hput | hkv
      · rcases mem_put hput with rfl | hkv
        · exact .inr List.mem_cons_self
        · exact .inl hkv
      · exact .inr (List.mem_cons_of_mem _ hkv)
  obtain ⟨hnodup, hmem⟩ := hfold [] .nil
  exact ⟨hnodup, fun kv hkv => (hmem kv hkv).resolve_left List.not_mem_nil⟩

theorem wellFormed_distinct {written : List (String × Json)}
    (h : ∀ kv ∈ written, kv.2.wellFormed = true) : (obj (distinct written)).wellFormed = true := by
  obtain ⟨hnodup, hmem⟩ := distinct_spec written
  exact wellFormed_obj.mpr ⟨hnodup, fun kv hkv => h kv (hmem kv hkv)⟩

/-- A string is read, or there is a fault in it. -/
theorem readString_admits (start rest : List Char) :
    Admits (fun _ => True) (readString start rest) := by
  have hchars (place : Place) (rest : List Char) :
      Admits (fun _ => True) (readChars start place rest) := by
    -- The cases are faults, closing quotes, moves to another place, and characters that are kept.
    fun_induction readChars start place rest with
    | case1 | case2 | case3 | case4 | case7 | case8 | case13 | case17 => exact admits_fault _ _
    | case11 | case15 => exact admits_ok trivial _
    | case5 | case10 | case12 | case16 => assumption
    | case6 | case9 | case14 | case18 =>
      rename_i ih
      exact ih.map fun _ _ => trivial
  exact (hchars .plain rest).map fun _ _ => trivial

theorem digitsValue_lt {ds : List Char} (h : Digits ds) : digitsValue ds < 10 ^ ds.length := by
  have hvalues : ∀ n ∈ ds.map fun c => c.toNat - 48, n < 10 := by
    rw [List.forall_mem_map]
    intro d hd
    have hdigit := h d hd
    simp only [isDigit, Bool.and_eq_true, decide_eq_true_eq, Char.le_def] at hdigit
    have hnine : d.toNat ≤ 57 := hdigit.2
    omega
  have hlt := Text.ofDigits_lt hvalues
  rwa [List.length_map] at hlt

theorem readWhole_digits {cs whole rest : List Char} (h : readWhole cs = some (whole, rest)) :
    Digits whole := by
  unfold readWhole at h
  split at h
  · cases h
    intro c hc
    rw [List.mem_singleton.mp hc]
    decide
  · split at h
    · rename_i hd
      cases h
      intro c hc
      rcases List.mem_cons.mp hc with rfl | hc
      · exact hd
      · exact List.all_eq_true.mp List.all_takeWhile c hc
    · cases h
  · cases h

theorem readUnsigned_admits (negative : Bool) (cs : List Char) :
    Admits (·.wellFormed = true) (readUnsigned negative cs) := by
  unfold readUnsigned
  split
  · exact admits_fault _ _
  · rename_i whole rest hwhole
    simp only
    split
    · refine admits_ok ?_ _
      rfl
    · split
      · refine admits_ok ?_ _
        rfl
      · split
        · rename_i hlength
          exact admits_longNumber hlength
        · rename_i hlength
          refine admits_ok ?_ _
          apply wellFormed_int.mpr
          have hlt : digitsValue whole < 10 ^ Text.maxDigits :=
            Nat.lt_of_lt_of_le (digitsValue_lt (readWhole_digits hwhole))
              (Nat.pow_le_pow_right (by omega) (Nat.le_of_not_lt hlength))
          split
          · rwa [Int.natAbs_neg, Int.natAbs_natCast]
          · rwa [Int.natAbs_natCast]

theorem readNumber_admits (cs : List Char) : Admits (·.wellFormed = true) (readNumber cs) := by
  unfold readNumber
  split
  · exact readUnsigned_admits true _
  · exact readUnsigned_admits false cs

theorem wellFormed_word {cs rest : List Char} {j : Json} (h : readWord? cs = some (j, rest)) :
    j.wellFormed = true := by
  obtain ⟨word, hword, hvalue⟩ := List.exists_of_findSome?_eq_some h
  have hwords : ∀ word ∈ words, word.2.wellFormed = true := by
    simp [words, wellFormed]
  simp only at hvalue
  split at hvalue
  · cases hvalue
    exact hwords word hword
  · cases hvalue

/-- The three readers of values by the fuel they are given. -/
theorem reads_wellFormed (fuel : Nat) :
    (∀ cs, Admits (·.wellFormed = true) (readValue fuel cs)) ∧
      (∀ cs, Admits (fun xs => ∀ x ∈ xs, x.wellFormed = true) (readElements fuel cs)) ∧
      ∀ cs, Admits (fun ms => ∀ kv ∈ ms, kv.2.wellFormed = true) (readMembers fuel cs) := by
  induction fuel with
  | zero =>
    refine ⟨fun cs => ?_, fun cs => ?_, fun cs => ?_⟩
    · exact admits_fault _ _
    · exact admits_fault _ _
    · exact admits_fault _ _
  | succ fuel ih =>
    obtain ⟨hvalue, helements, hmembers⟩ := ih
    refine ⟨fun cs => ?_, fun cs => ?_, fun cs => ?_⟩
    · rw [readValue.eq_def]
      simp only
      split
      · exact (readString_admits _ _).map fun _ _ => rfl
      · split
        · refine admits_ok ?_ _
          rfl
        · refine (helements _).map fun xs hxs => ?_
          exact wellFormed_arr.mpr hxs
      · split
        · refine admits_ok ?_ _
          rfl
        · refine Admits.map (f := fun ms => obj (distinct ms)) (hmembers _) fun ms hms => ?_
          exact wellFormed_distinct hms
      · split
        · rename_i r hword
          refine admits_ok ?_ r.2
          exact wellFormed_word hword
        · exact readNumber_admits cs
    · rw [readElements]
      refine (hvalue cs).bind fun x rest hx => ?_
      simp only
      split
      · exact admits_ok (by simpa using hx) _
      · refine (helements _).bind fun xs rest hxs => ?_
        refine admits_ok ?_ rest
        exact List.forall_mem_cons.mpr ⟨hx, hxs⟩
      · exact admits_fault _ _
    · rw [readMembers.eq_def]
      simp only
      split
      · refine (readString_admits _ _).bind fun key rest _ => ?_
        simp only
        split
        · refine (hvalue _).bind fun x rest hx => ?_
          simp only
          split
          · exact admits_ok (by simpa using hx) _
          · refine (hmembers _).bind fun ms rest hms => ?_
            refine admits_ok ?_ rest
            exact List.forall_mem_cons.mpr ⟨hx, hms⟩
          · exact admits_fault _ _
        · exact admits_fault _ _
      · exact admits_fault _ _

/-- A whole text ends as its value does, or at a fault behind it. -/
theorem readDocument_spec (cs : List Char) :
    (∀ j, readDocument cs = .ok j → j.wellFormed = true) ∧
      ∀ digits, readDocument cs = .error (.longNumber digits) → Text.maxDigits < digits := by
  unfold readDocument
  split
  · exact ⟨nofun, nofun⟩
  · have hvalue := (reads_wellFormed (2 * cs.length + 2)).1 (skipSpace cs)
    generalize readValue (2 * cs.length + 2) (skipSpace cs) = r at hvalue
    cases r with
    | error stop =>
      refine ⟨nofun, fun digits h => ?_⟩
      cases h
      exact hvalue.long digits rfl
    | ok found =>
      simp only [bind, Except.bind]
      split
      · refine ⟨fun j h => ?_, nofun⟩
        cases h
        exact hvalue.value found.1 found.2 rfl
      · exact ⟨nofun, nofun⟩

/-- Every value that is read is well formed. -/
theorem read_wellFormed {cs : List Char} {j : Json} (h : read cs = .ok j) :
    j.wellFormed = true := by
  unfold read at h
  split at h
  · rename_i hdocument
    cases h
    exact (readDocument_spec cs).1 j hdocument
  · cases h
  · cases h

/-- A whole number that stops the reader is too long. -/
theorem lt_of_read_longNumber {cs : List Char} {digits : Nat}
    (h : read cs = .error (.longNumber digits)) : Text.maxDigits < digits := by
  unfold read at h
  split at h
  · cases h
  · cases h
  · rename_i hdocument
    cases h
    exact (readDocument_spec cs).2 digits hdocument

end Json

end Sluice
