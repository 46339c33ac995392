import Sluice.Proofs.Json.Numbers
import Sluice.Proofs.Text.Cut
import Sluice.Text.Integer

/-!
Whole numbers in words of a pipeline. A word of ASCII digits spells the same number as it does in
JSON, as long as it has no more digits than are read.
-/

namespace Sluice.Text

variable {c : Char} {cs : List Char}

theorem toNat_digit (h : Json.isDigit c = true) : 48 ≤ c.toNat ∧ c.toNat < 48 + 10 := by
  simp only [Json.isDigit, Bool.and_eq_true, decide_eq_true_eq, Char.le_def,
    UInt32.le_iff_toNat_le] at h
  exact ⟨h.1, Nat.lt_succ_of_le h.2⟩

theorem digitValue?_digit (h : Json.isDigit c = true) : digitValue? c = some (c.toNat - 48) := by
  rw [digitValue?, zeroCodes, List.find?_cons_of_pos (by simpa using toNat_digit h)]
  rfl

theorem isNumberBlank_digit (h : Json.isDigit c = true) : isNumberBlank c = false := by
  have hrange := toNat_digit h
  have hblank : isBlank c = false := by
    simp only [isBlank, Bool.or_eq_false_iff, Bool.and_eq_false_iff, decide_eq_false_iff_not,
      beq_eq_false_iff_ne]
    omega
  rw [isNumberBlank, hblank, Bool.false_and]

theorem groupedDigits?_digits (h : Json.Digits cs) (hne : cs ≠ []) :
    groupedDigits? cs = some (cs.map fun c => c.toNat - 48) := by
  fun_induction groupedDigits? cs with
  | case1 => exact absurd rfl hne
  | case2 c =>
    rw [digitValue?_digit (h c (.head _))]
    rfl
  | case3 c rest ih => exact absurd (h '_' (.tail _ (.head _))) (by decide)
  | case4 c rest hone _ ih =>
    rw [digitValue?_digit (h c (.head _)), ih (fun d hd => h d (.tail _ hd)) hone]
    rfl

theorem integer?_digits (h : Json.Digits cs) (hne : cs ≠ []) (hlength : cs.length ≤ maxDigits) :
    integer? cs = some (Json.digitsValue cs : Int) := by
  have hnatural : natural? cs = some (Json.digitsValue cs) := by
    rw [natural?, groupedDigits?_digits h hne]
    simp only [List.length_map, if_pos hlength]
    rfl
  rw [integer?, trimOf_eq_self fun c hc => isNumberBlank_digit (h c hc)]
  unfold signed?
  split
  · exact absurd (h '-' (.head _)) (by decide)
  · exact absurd (h '+' (.head _)) (by decide)
  · rw [hnatural]
    rfl

end Sluice.Text
