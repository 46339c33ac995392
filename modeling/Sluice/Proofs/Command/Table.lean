import Mathlib.Data.List.Forall2
import Mathlib.Data.List.Induction
import Sluice.Command.Table
import Sluice.Proofs.Text.Joined

/-!
The shape of a table. Each column is as wide as its widest cell, so all lines have their separators in
the same places and end in the same place. The cells hold no line feed, since those of the values are
replaced; but the names of the columns stand in the header as they are.
-/

namespace Sluice.Table

section Columns

variable {order : List String} {name : String}

def firstOccurrences (order : List String) : List String :=
  order.foldl (fun seen key => if seen.contains key then seen else seen ++ [key]) []

theorem firstOccurrences_concat (order : List String) (name : String) :
    firstOccurrences (order ++ [name]) =
      if (firstOccurrences order).contains name then firstOccurrences order
      else firstOccurrences order ++ [name] := by
  rw [firstOccurrences, List.foldl_concat]
  rfl

theorem mem_firstOccurrences : name ∈ firstOccurrences order ↔ name ∈ order := by
  induction order using List.reverseRecOn with
  | nil => rfl
  | append_singleton order last ih =>
    rw [firstOccurrences_concat, List.mem_append, List.mem_singleton, ← ih]
    split
    · rename_i hseen
      have hlast : last ∈ firstOccurrences order := List.contains_iff_mem.mp hseen
      constructor
      · exact Or.inl
      · rintro (h | rfl)
        · exact h
        · exact hlast
    · rw [List.mem_append, List.mem_singleton]

/-- A name comes before another one if it was seen before it. So no name comes twice. -/
theorem pairwise_firstOccurrences (order : List String) :
    (firstOccurrences order).Pairwise fun a b => order.idxOf a < order.idxOf b := by
  induction order using List.reverseRecOn with
  | nil => exact .nil
  | append_singleton order last ih =>
    have hkept {a : String} (ha : a ∈ firstOccurrences order) :
        (order ++ [last]).idxOf a = order.idxOf a :=
      List.idxOf_append_of_mem (mem_firstOccurrences.mp ha)
    have hold : (firstOccurrences order).Pairwise fun a b =>
        (order ++ [last]).idxOf a < (order ++ [last]).idxOf b :=
      ih.imp_of_mem fun ha hb hlt => by rwa [hkept ha, hkept hb]
    rw [firstOccurrences_concat]
    split
    · exact hold
    · rename_i hnew
      refine List.pairwise_append.mpr ⟨hold, List.pairwise_singleton _ _, fun a ha b hb => ?_⟩
      obtain rfl := List.mem_singleton.mp hb
      have hlast : b ∉ order := fun hmem =>
        hnew (List.contains_iff_mem.mpr (mem_firstOccurrences.mpr hmem))
      rw [hkept ha, List.idxOf_append_of_notMem hlast]
      have hlt := List.idxOf_lt_length_iff.mpr (mem_firstOccurrences.mp ha)
      omega

/-- What an item has under the name of a column: a member of an object, and any other item itself
under the name for these. -/
def under? (name : String) : Json → Option Json
  | .obj ms => ms.lookup name
  | j => if name = valueColumn then some j else none

theorem mem_keys_iff {v : Json} : name ∈ keys v ↔ ∃ x, under? name v = some x := by
  cases v with
  | obj ms =>
    rw [under?, ← Option.isSome_iff_exists, List.lookup_isSome_iff, keys, List.mem_map]
    simp only [beq_iff_eq, @eq_comm _ name]
  | null | bool _ | int _ | float _ | str _ | arr _ => simp [keys, under?]

theorem mem_columns_iff {values : List Json} :
    name ∈ columns values ↔ ∃ v ∈ values, ∃ x, under? name v = some x := by
  simp only [← mem_keys_iff, ← List.mem_flatMap]
  exact mem_firstOccurrences

end Columns

section Cells

variable {width : Int} {w : Nat} {v : Json} {name : String} {cs : List Char}

/-- The text that a value is shown by, before it is put on one line and cut. -/
def shown : Json → List Char
  | .str s => s.toList
  | j => Json.write Json.spaced j

/-- A text that is longer than cells can be. -/
def Cut (width : Int) (cs : List Char) : Prop :=
  1 < width ∧ width < cs.length

theorem isBlankText_fit :
    Text.isBlankText (fit width cs) = true ↔ Text.isBlankText cs = true ∧ ¬ Cut width cs := by
  unfold fit
  split
  · rename_i hcut
    refine iff_of_false ?_ fun h => h.2 hcut
    rw [Text.isBlankText, List.all_append]
    simp [Text.isBlank]
  · rename_i hcut
    exact (and_iff_left hcut).symm

theorem newline_not_mem_fit (h : '\n' ∉ cs) : '\n' ∉ fit width cs := by
  unfold fit
  split
  · rw [List.mem_append, List.mem_singleton]
    rintro (hmem | hmark)
    · exact h (List.mem_of_mem_take hmem)
    · cases hmark
  · exact h

def oneLine (cs : List Char) : List Char :=
  cs.map fun c => if c = '\n' then ' ' else c

theorem newline_not_mem_oneLine (cs : List Char) : '\n' ∉ oneLine cs := by
  intro hmem
  obtain ⟨c, -, hc⟩ := List.mem_map.mp hmem
  split at hc
  · cases hc
  · contradiction

theorem isBlankText_oneLine (cs : List Char) :
    Text.isBlankText (oneLine cs) = Text.isBlankText cs := by
  rw [Text.isBlankText, oneLine, List.all_map, Text.isBlankText]
  congr 1
  funext c
  simp only [Function.comp_apply]
  split
  · rename_i hc
    rw [hc]
    rfl
  · rfl

theorem cellText_eq (width : Int) (v : Json) : cellText width v = fit width (oneLine (shown v)) := by
  cases v <;> rfl

theorem cell_eq (width : Int) (v : Json) (name : String) :
    cell width v name = ((under? name v).map (cellText width)).getD [] := by
  cases v with
  | obj ms =>
    rw [cell, under?]
    cases ms.lookup name <;> rfl
  | null | bool _ | int _ | float _ | str _ | arr _ =>
    simp only [cell, under?]
    split <;> rfl

/-- A cell is blank if there is nothing to be shown in it, or a text of blanks that is not cut. -/
theorem isBlankText_cell : Text.isBlankText (cell width v name) = true ↔
    under? name v = none ∨ ∃ x, under? name v = some x ∧ Text.isBlankText (shown x) = true ∧
      ¬ Cut width (shown x) := by
  rw [cell_eq]
  cases under? name v with
  | none => simp [Text.isBlankText]
  | some x =>
    have hlength : (oneLine (shown x)).length = (shown x).length := List.length_map _
    simp [cellText_eq, isBlankText_fit, isBlankText_oneLine, Cut, hlength]

theorem newline_not_mem_cell (width : Int) (v : Json) (name : String) :
    '\n' ∉ cell width v name := by
  rw [cell_eq]
  cases under? name v with
  | none => exact List.not_mem_nil
  | some x =>
    rw [Option.map_some, Option.getD_some, cellText_eq]
    exact newline_not_mem_fit (newline_not_mem_oneLine _)

theorem length_pad (h : cs.length ≤ w) : (pad w cs).length = w := by
  rw [pad, List.length_append, List.length_replicate]
  omega

theorem isBlankText_pad (w : Nat) (cs : List Char) :
    Text.isBlankText (pad w cs) = Text.isBlankText cs := by
  rw [pad, Text.isBlankText, List.all_append, List.all_replicate]
  simp [Text.isBlankText, Text.isBlank]

theorem newline_mem_pad (w : Nat) (cs : List Char) : '\n' ∈ pad w cs ↔ '\n' ∈ cs := by
  simp [pad, List.mem_replicate]

end Cells

section Widths

variable {widths : List Nat} {header row cells : List (List Char)} {rows : List (List (List Char))}

def Fits (widths : List Nat) (cells : List (List Char)) : Prop :=
  List.Forall₂ (fun w c => c.length ≤ w) widths cells

def widen (widths : List Nat) (row : List (List Char)) : List Nat :=
  (widths.zip row).map fun (w, c) => max w c.length

theorem fits_widen (hlength : row.length = widths.length) : Fits (widen widths row) row := by
  induction widths generalizing row with
  | nil =>
    obtain rfl := List.length_eq_zero_iff.mp hlength
    exact .nil
  | cons w widths ih =>
    cases row with
    | nil => cases hlength
    | cons c row => exact .cons (Nat.le_max_right _ _) (ih (Nat.succ.inj hlength))

theorem Fits.widen (h : Fits widths cells) (hlength : row.length = widths.length) :
    Fits (widen widths row) cells := by
  induction h generalizing row with
  | nil => exact .nil
  | cons hc _ ih =>
    cases row with
    | nil => cases hlength
    | cons c row =>
      exact .cons (Nat.le_trans hc (Nat.le_max_left _ _)) (ih (Nat.succ.inj hlength))

theorem length_widen (hlength : row.length = widths.length) :
    (widen widths row).length = widths.length := by
  simp [Table.widen, hlength]

/-- Widening for some rows makes room for all of them, and keeps what was there. -/
theorem fits_foldl (hrows : ∀ row ∈ rows, row.length = widths.length) :
    (rows.foldl Table.widen widths).length = widths.length ∧
      (∀ cells, Fits widths cells → Fits (rows.foldl Table.widen widths) cells) ∧
      ∀ row ∈ rows, Fits (rows.foldl Table.widen widths) row := by
  induction rows generalizing widths with
  | nil => exact ⟨rfl, fun _ h => h, nofun⟩
  | cons first rows ih =>
    obtain ⟨hfirst, hrest⟩ := List.forall_mem_cons.mp hrows
    have hlength := length_widen hfirst
    obtain ⟨htotal, hkept, hfits⟩ := ih fun row hrow => (hrest row hrow).trans hlength.symm
    exact ⟨htotal.trans hlength, fun cells hcells => hkept cells (hcells.widen hfirst),
      List.forall_mem_cons.mpr ⟨hkept first (fits_widen hfirst), hfits⟩⟩

theorem fits_widths (hrows : ∀ row ∈ rows, row.length = header.length) :
    (Table.widths header rows).length = header.length ∧
      ∀ row ∈ header :: rows, Fits (Table.widths header rows) row := by
  have hstart : Fits (header.map List.length) header :=
    List.forall₂_map_left_iff.mpr (List.forall₂_same.mpr fun _ _ => Nat.le_refl _)
  have hsame : ∀ row ∈ rows, row.length = (header.map List.length).length :=
    fun row hrow => (hrows row hrow).trans (List.length_map _).symm
  obtain ⟨hlength, hkept, hfits⟩ := fits_foldl hsame
  exact ⟨hlength.trans (List.length_map _),
    List.forall_mem_cons.mpr ⟨hkept header hstart, hfits⟩⟩

def padded (widths : List Nat) (cells : List (List Char)) : List (List Char) :=
  (widths.zip cells).map fun (w, c) => pad w c

theorem Fits.length_padded (h : Fits widths cells) :
    (padded widths cells).map List.length = widths := by
  induction h with
  | nil => rfl
  | cons hc _ ih => exact congrArg₂ List.cons (length_pad hc) ih

theorem Fits.laid (h : Fits widths cells) :
    Text.Laid [' ', '|', ' '] widths (padded widths cells) (line widths cells) := by
  have hlaid := Text.laid_intercalate [' ', '|', ' '] (padded widths cells)
  rwa [h.length_padded] at hlaid

/-- Each of the filled cells is that of its column. -/
theorem forall₂_padded (f : String → List Char) {names : List String}
    (hlength : widths.length = names.length) :
    List.Forall₂ (fun name c => ∃ w, c = pad w (f name)) names (padded widths (names.map f)) := by
  induction names generalizing widths with
  | nil =>
    obtain rfl := List.length_eq_zero_iff.mp hlength
    exact .nil
  | cons name names ih =>
    cases widths with
    | nil => cases hlength
    | cons w widths => exact .cons ⟨w, rfl⟩ (ih (Nat.succ.inj hlength))

theorem laid_rule (widths : List Nat) : Text.Laid ['-', '+', '-'] widths
    (widths.map fun w => List.replicate w '-') (rule widths) := by
  have hlaid := Text.laid_intercalate ['-', '+', '-'] (widths.map fun w => List.replicate w '-')
  rwa [List.map_map, Function.comp_def, show (widths.map fun w => (List.replicate w '-').length) =
    widths by simp] at hlaid

theorem newline_mem_line_iff (h : Fits widths cells) :
    '\n' ∈ line widths cells ↔ ∃ c ∈ cells, '\n' ∈ c := by
  have hpadded : (∃ part ∈ padded widths cells, '\n' ∈ part) ↔ ∃ c ∈ cells, '\n' ∈ c := by
    induction h with
    | nil => rfl
    | @cons w c widths cells _ _ ih =>
      have hcons : padded (w :: widths) (c :: cells) = pad w c :: padded widths cells := rfl
      simp only [hcons, List.exists_mem_cons_iff, newline_mem_pad, ih]
  exact (Text.mem_intercalate_iff (by decide)).trans hpadded

theorem newline_not_mem_rule (widths : List Nat) : '\n' ∉ rule widths := by
  rw [rule, Text.mem_intercalate_iff (by decide)]
  rintro ⟨part, hpart, hmem⟩
  obtain ⟨w, -, rfl⟩ := List.mem_map.mp hpart
  cases List.eq_of_mem_replicate hmem

theorem length_le_count_newline (lines : List (List Char)) :
    lines.length ≤ (lines.flatMap (· ++ ['\n'])).count '\n' := by
  induction lines with
  | nil => exact Nat.le_refl 0
  | cons line lines ih =>
    rw [List.flatMap_cons, List.count_append, List.count_append, List.length_cons,
      List.count_singleton_self]
    omega

/-- The line feeds of some lines with one behind each: no more than these if there is none inside of
a line. -/
theorem count_newline_lines (lines : List (List Char)) :
    (lines.flatMap (· ++ ['\n'])).count '\n' = lines.length ↔ ∀ line ∈ lines, '\n' ∉ line := by
  induction lines with
  | nil => simp
  | cons line lines ih =>
    have hmore := length_le_count_newline lines
    have hline : line.count '\n' = 0 ↔ '\n' ∉ line := List.count_eq_zero
    rw [List.flatMap_cons, List.count_append, List.count_append, List.length_cons,
      List.count_singleton_self, List.forall_mem_cons, ← hline]
    constructor
    · intro hcount
      exact ⟨by omega, ih.mp (by omega)⟩
    · rintro ⟨hnone, hrest⟩
      have := ih.mpr hrest
      omega

end Widths

section Shape

variable (width : Int) (values : List Json)

def headerCells : List (List Char) :=
  (columns values).map String.toList

def rowCells (v : Json) : List (List Char) :=
  (columns values).map (cell width v)

def columnWidths : List Nat :=
  widths (headerCells values) (values.map (rowCells width values))

theorem fits_columnWidths :
    (columnWidths width values).length = (columns values).length ∧
      Fits (columnWidths width values) (headerCells values) ∧
      ∀ v ∈ values, Fits (columnWidths width values) (rowCells width values v) := by
  have hsame : ∀ row ∈ values.map (rowCells width values),
      row.length = (headerCells values).length :=
    List.forall_mem_map.mpr fun v _ => by simp only [rowCells, headerCells, List.length_map]
  obtain ⟨hlength, hfits⟩ := fits_widths hsame
  obtain ⟨hheader, hrows⟩ := List.forall_mem_cons.mp hfits
  exact ⟨hlength.trans (List.length_map _), hheader, List.forall_mem_map.mp hrows⟩

theorem lines_eq :
    lines width values = line (columnWidths width values) (headerCells values) ::
      rule (columnWidths width values) ::
      values.map fun v => line (columnWidths width values) (rowCells width values v) := by
  rw [lines, List.map_map]
  rfl

/-- A line feed in one of the lines is one in the name of a column. -/
theorem newline_not_mem_lines_iff : (∀ line ∈ lines width values, '\n' ∉ line) ↔
    ∀ name ∈ columns values, '\n' ∉ name.toList := by
  obtain ⟨-, hheader, hfits⟩ := fits_columnWidths width values
  have hrows : ∀ v ∈ values, '\n' ∉ line (columnWidths width values) (rowCells width values v) :=
    fun v hv => by
      rw [newline_mem_line_iff (hfits v hv)]
      simp [rowCells, newline_not_mem_cell]
  rw [lines_eq, List.forall_mem_cons, List.forall_mem_cons, newline_mem_line_iff hheader]
  simp only [newline_not_mem_rule, List.forall_mem_map, not_false_eq_true, true_and]
  simpa [headerCells] using fun _ => hrows

theorem valuesOf_map_value : valuesOf (values.map .value) = .ok values := by
  induction values with
  | nil => rfl
  | cons v values ih =>
    rw [List.map_cons, valuesOf, ih]
    rfl

variable {values}

/-- Values that are there are all shown. -/
theorem format_values (hne : values ≠ []) :
    format width (values.map .value) =
      .ok (String.ofList ((lines width values).flatMap (· ++ ['\n']))) := by
  rw [format, valuesOf_map_value, Except.map, ofValues,
    if_neg (by rw [List.isEmpty_eq_false_iff.mpr hne]; exact Bool.false_ne_true)]

end Shape

/-- The table of some values has a header, a rule and one line for each value, all of one width, and
the separators stand in the same places. The columns are what the values have members under, each
once, in the order of first sight. A cell is blank if its value has nothing under the column or a text
of blanks that is not cut. Each of the lines is ended by its only line feed if no name of a column has
one in it. -/
theorem rectangular_iff_names_unbroken (width : Int) {values : List Json} (hne : values ≠ []) :
    let names := columns values
    let order := values.flatMap keys
    ∃ (text : String) (header rule : List Char) (rows : List (List Char)) (widths : List Nat),
      format width (values.map .value) = .ok text ∧
      text.toList = (header :: rule :: rows).flatMap (· ++ ['\n']) ∧
      rows.length = values.length ∧
      (text.toList.count '\n' = values.length + 2 ↔ ∀ name ∈ names, '\n' ∉ name.toList) ∧
      (∀ line ∈ rule :: rows, line.length = header.length) ∧
      names.Nodup ∧ names.Pairwise (fun a b => order.idxOf a < order.idxOf b) ∧
      (∀ name, name ∈ names ↔ ∃ v ∈ values, ∃ x, under? name v = some x) ∧
      Text.Laid [' ', '|', ' '] widths (padded widths (names.map String.toList)) header ∧
      Text.Laid ['-', '+', '-'] widths (widths.map fun w => List.replicate w '-') rule ∧
      List.Forall₂ (fun v row => ∃ cells, Text.Laid [' ', '|', ' '] widths cells row ∧
        List.Forall₂ (fun name c => (∃ w, c = pad w (cell width v name)) ∧
          (Text.isBlankText c = true ↔ under? name v = none ∨ ∃ x, under? name v = some x ∧
            Text.isBlankText (shown x) = true ∧ ¬ Cut width (shown x))) names cells)
        values rows := by
  intro names order
  obtain ⟨hwidths, hheader, hfits⟩ := fits_columnWidths width values
  have hlaidHeader := hheader.laid
  have hlaidRule := laid_rule (columnWidths width values)
  refine ⟨_, _, _, _, columnWidths width values, format_values width hne,
    by rw [String.toList_ofList, lines_eq], List.length_map _, ?_, ?_,
    (pairwise_firstOccurrences order).imp fun hlt heq => ?_, pairwise_firstOccurrences order,
    fun name => mem_columns_iff, hlaidHeader, hlaidRule, ?_⟩
  · have hlength : (lines width values).length = values.length + 2 := by simp [lines_eq]
    rw [String.toList_ofList, ← hlength, count_newline_lines, newline_not_mem_lines_iff]
  · rw [List.forall_mem_cons, List.forall_mem_map]
    exact ⟨hlaidRule.length_eq.trans hlaidHeader.length_eq.symm, fun v hv =>
      (hfits v hv).laid.length_eq.trans hlaidHeader.length_eq.symm⟩
  · rw [heq] at hlt
    exact Nat.lt_irrefl _ hlt
  · rw [List.forall₂_map_right_iff, List.forall₂_same]
    refine fun v hv => ⟨_, (hfits v hv).laid, ?_⟩
    refine (forall₂_padded (cell width v) hwidths).imp fun name c hc => ?_
    obtain ⟨w, rfl⟩ := hc
    exact ⟨⟨w, rfl⟩, by rw [isBlankText_pad, isBlankText_cell]⟩

/-- An object and a text that is cut. The one has nothing under the column of the other. -/
theorem object_and_text_rectangular :
    let values : List Json := [.obj [("id", .int 1)], .str "long\ntext"]
    ∃ text header rule rows,
      format 6 (values.map .value) = .ok text ∧
      text.toList = (header :: rule :: rows).flatMap (· ++ ['\n']) ∧
      text.toList.count '\n' = 4 ∧ (∀ line ∈ rule :: rows, line.length = header.length) ∧
      columns values = ["id", "value"] ∧
      text = "id | value \n---+-------\n1  |       \n   | long …\n" := by
  intro values
  have hne : values ≠ [] := List.cons_ne_nil _ _
  have hshown : format 6 (values.map .value) =
      .ok "id | value \n---+-------\n1  |       \n   | long …\n" := by
    decide +kernel
  obtain ⟨text, header, rule, rows, widths, hformat, htext, -, hcount, hlength, -⟩ :=
    rectangular_iff_names_unbroken 6 hne
  rw [hshown] at hformat
  obtain rfl := Except.ok.inj hformat
  exact ⟨_, header, rule, rows, hshown, htext, hcount.mpr (by decide), hlength, by decide, rfl⟩

/-- A line feed in the name of a column stands in the header, which takes up two lines then. -/
theorem name_breaks_header :
    format 60 [.value (.obj [("a\nb", .int 1)])] = .ok "a\nb\n---\n1  \n" ∧
      "a\nb\n---\n1  \n".toList.count '\n' ≠ 1 + 2 := by
  decide +kernel

end Sluice.Table
