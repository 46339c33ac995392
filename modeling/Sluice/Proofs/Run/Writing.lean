import Sluice.CommandLine.Basic
import Sluice.Proofs.Json.Limits
import Sluice.Proofs.Text.Unmarked
import Sluice.Proofs.Token.Contents

/-!
What can be written of a run: the list of its items for a person, and the token of a continuation.
Both are written unless an item has too many levels, a whole number in it has too many digits or a text
holds half a character. The failures that come of it are told in words that can be printed.
-/

namespace Sluice

namespace Item

mutual

/-- The levels of an item. A request has one above those of its items. -/
def height : Item → Nat
  | .value j => j.height
  | .request items _ => heightList items + 1

def heightList : List Item → Nat
  | [] => 0
  | x :: xs => max x.height (heightList xs)

end

theorem heightList_le {xs : List Item} {n : Nat} : heightList xs ≤ n ↔ ∀ x ∈ xs, x.height ≤ n := by
  induction xs with
  | nil => simp [heightList]
  | cons x xs ih => rw [heightList, Nat.max_le, ih, List.forall_mem_cons]

theorem half?_toJson_request {items : List Item} {prompt : String} :
    (request items prompt).toJson.half? = none ↔
      (∀ x ∈ items, x.toJson.half? = none) ∧ Text.half? prompt.toList = none := by
  have hitems : (Json.arr (Json.finiteList (toJsonList items))).half? = none ↔
      ∀ x ∈ items, x.toJson.half? = none := by
    rw [finiteList_toJsonList, Json.half?_arr_eq_none, List.forall_mem_map]
    exact forall₂_congr fun x _ => Json.half?_finite_eq_none
  have hkeys : ∀ k ∈ ["type", "items", "prompt"], Text.half? k.toList = none := by decide
  have htype : (Json.str requestType).half? = none := by decide
  simp only [List.forall_mem_cons] at hkeys
  rw [toJson, Json.half?_obj_eq_none]
  simp only [List.forall_mem_cons, hitems, htype, hkeys, Json.half?_str]
  simp

mutual

/-- Where there is room for an item without halves of characters the serialiser goes through it. -/
theorem takeApart_eq_ok (x : Item) {room : Nat} (hheight : x.height ≤ room)
    (hhalf : x.toJson.half? = none) : x.takeApart room = .ok () := by
  match x, room with
  | .value j, room => exact Json.takeApart_eq_ok hheight hhalf
  | .request items prompt, 0 => exact absurd hheight (Nat.not_succ_le_zero _)
  | .request items prompt, room + 1 =>
    exact takeApartList_eq_ok items (Nat.le_of_succ_le_succ hheight) (half?_toJson_request.mp hhalf).1

theorem takeApartList_eq_ok (xs : List Item) {room : Nat} (hheight : heightList xs ≤ room)
    (hhalf : ∀ x ∈ xs, x.toJson.half? = none) : takeApartList room xs = .ok () := by
  match xs with
  | [] => rfl
  | x :: xs =>
    rw [heightList, Nat.max_le] at hheight
    rw [List.forall_mem_cons] at hhalf
    rw [takeApartList, takeApart_eq_ok x hheight.1 hhalf.1]
    exact takeApartList_eq_ok xs hheight.2 hhalf.2

end

mutual

theorem height_le_of_takeApart (x : Item) {room : Nat} (h : x.takeApart room = .ok ()) :
    x.height ≤ room := by
  match x, room with
  | .value j, room => exact Json.height_le_of_takeApart h
  | .request items prompt, 0 => cases h
  | .request items prompt, room + 1 => exact Nat.succ_le_succ (heightList_le_of_takeApartList items h)

theorem heightList_le_of_takeApartList (xs : List Item) {room : Nat}
    (h : takeApartList room xs = .ok ()) : heightList xs ≤ room := by
  match xs with
  | [] => exact Nat.zero_le room
  | x :: xs =>
    obtain ⟨⟨⟩, hx, hxs⟩ := Writing.exists_of_bind h
    rw [heightList, Nat.max_le]
    exact ⟨height_le_of_takeApart x hx, heightList_le_of_takeApartList xs hxs⟩

end

mutual

theorem writing_takeApart (x : Item) (room : Nat) : Writing (x.takeApart room) := by
  match x, room with
  | .value j, room => exact Json.writing_takeApart room j
  | .request items prompt, 0 => exact Writing.error .tooManyLevels
  | .request items prompt, room + 1 => exact writing_takeApartList items room

theorem writing_takeApartList (xs : List Item) (room : Nat) : Writing (takeApartList room xs) := by
  match xs with
  | [] => exact Writing.ok ()
  | x :: xs => exact (writing_takeApart x room).bind fun _ => writing_takeApartList xs room

end

end Item

/-- Items that can be written as JSON: each of them has fewer levels than the serialiser goes down,
whole numbers have no more digits than are turned into text, and no half of a character is in them. -/
structure Items.Written (items : List Item) : Prop where
  levels : ∀ x ∈ items, x.height < Json.maxLevels
  digits : ∀ x ∈ items, x.toJson.longNumber? = none
  text : ∀ x ∈ items, x.toJson.half? = none

def Item.UniqueKeys (x : Item) : Prop :=
  x.toJson.uniqueKeys = true

/-- Items that can be written can be read back, where no object has a key twice. -/
theorem Items.Written.wellFormed {items : List Item} (h : Items.Written items)
    (hkeys : ∀ x ∈ items, x.UniqueKeys) : ∀ x ∈ items, x.WellFormed :=
  fun x hx => Json.wellFormed_iff.mpr ⟨hkeys x hx, h.digits x hx⟩

namespace Item

variable {items : List Item}

theorem half?_toJsonList :
    (Json.arr (toJsonList items)).half? = none ↔ ∀ x ∈ items, x.toJson.half? = none := by
  rw [Json.half?_arr_eq_none, toJsonList_eq, List.forall_mem_map]

end Item

namespace Outcome

variable {o : Outcome}

end Outcome

namespace Envelope

theorem print_eq_ok {e : Envelope} (h : e.toJson.half? = none) : e.print = .ok (e.text ++ "\n") := by
  rw [print, h]

theorem half?_failed {type : ErrorType} {message : String} (h : Text.Unmarked message.toList) :
    (failed type message).toJson.half? = none := by
  have hkeys : ∀ k ∈ ["ok", "error", "type", "message"], Text.half? k.toList = none := by decide
  have htype : Text.half? type.name.toList = none := by
    cases type <;> decide
  simp only [List.forall_mem_cons] at hkeys
  simp only [toJson, Json.half?_obj_eq_none, List.forall_mem_cons, Json.half?_str, hkeys, htype,
    h.half?_eq_none]
  simp [Json.half?, Json.search?]

end Envelope

namespace CommandLine

variable {e : Envelope}

theorem Exit.report_eq_ok (h : e.toJson.half? = none) :
    Exit.report e = .ok ⟨envelopeCode e, e.text ++ "\n", ""⟩ := by
  rw [report, Envelope.print_eq_ok h]
  rfl

/-- The only failure of a call that comes to an envelope is that the envelope is no text. -/
theorem Exit.report_eq_error {half : Text.Half} (h : e.toJson.half? = some half) :
    Exit.report e = .error (.envelopeNotText half) := by
  rw [report, Envelope.print, h]
  rfl

end CommandLine

namespace Continuation

/-- A continuation that fits into a token: the serialiser has room for its items, its whole numbers
are short, and no half of a character is in its pipeline, its items or its prompt. -/
structure Carried (c : Continuation) : Prop where
  levels : ∀ x ∈ c.items, x.height ≤ Json.maxLevels
  digits : c.toJson.longNumber? = none
  text : c.toJson.half? = none

/-- The parts of a continuation in which a half of a character can be. -/
theorem half?_toJson {c : Continuation} : c.toJson.half? = none ↔
    (∀ stage ∈ c.pipeline, stage.toJson.half? = none) ∧ (∀ x ∈ c.items, x.toJson.half? = none) ∧
      Text.half? c.prompt.toList = none := by
  have hkeys : ∀ k ∈ ["version", "pipeline", indexKeys.1, "items", "prompt"],
      Text.half? k.toList = none := by decide
  have hint (n : Int) : (Json.int n).half? = none := rfl
  have hpipeline : (Json.arr (c.pipeline.map Invocation.toJson)).half? = none ↔
      ∀ stage ∈ c.pipeline, stage.toJson.half? = none := by
    rw [Json.half?_arr_eq_none, List.forall_mem_map]
  simp only [List.forall_mem_cons] at hkeys
  simp only [toJson, Json.half?_obj_eq_none, List.forall_mem_cons, Json.half?_str, hkeys, hint,
    Item.half?_toJsonList, hpipeline]
  simp

end Continuation

/-- The name of an argument is a key of the JSON of its stage. -/
theorem Invocation.half?_name_of_mem {stage : Invocation} (h : stage.toJson.half? = none)
    {kv : String × ArgValue} (hkv : kv ∈ stage.args) : Text.half? kv.1.toList = none := by
  have hargs : stage.args.toJson.half? = none :=
    (Json.half?_obj_eq_none.mp h ("args", stage.args.toJson) (by simp)).2
  rw [Args.toJson, Json.half?_obj_eq_none, List.forall_mem_map] at hargs
  exact (hargs kv hkv).1

theorem forM_eq_ok {α : Type} {xs : List α} {f : α → Except Failure Unit}
    (h : ∀ x ∈ xs, f x = .ok ()) : xs.forM f = .ok () := by
  induction xs with
  | nil => rfl
  | cons x xs ih =>
    rw [List.forall_mem_cons] at h
    change (f x >>= fun _ => xs.forM f) = .ok ()
    rw [h.1]
    exact ih h.2

namespace Token

variable {key : Option (List UInt8)} {c : Continuation}

/-- The first step for a token goes through if its keys and items hold no half of a character and its
items are not too high. -/
theorem takeApart_eq_ok (hlevels : ∀ x ∈ c.items, x.height ≤ Json.maxLevels)
    (htext : c.toJson.half? = none) : takeApart c = .ok () := by
  obtain ⟨hpipeline, hitems, -⟩ := Continuation.half?_toJson.mp htext
  have hnames : (c.pipeline.forM fun stage => stage.args.forM fun kv => Json.checkKey kv.1) =
      .ok () := by
    refine forM_eq_ok fun stage hstage => forM_eq_ok fun kv hkv => Json.checkKey_eq_ok ?_
    exact Invocation.half?_name_of_mem (hpipeline stage hstage) hkv
  rw [takeApart, hnames]
  exact Item.takeApartList_eq_ok c.items (Item.heightList_le.mpr hlevels) hitems

/-- A continuation that fits into a token is issued one. -/
theorem issue_eq_ok (key : Option (List UInt8)) (h : c.Carried) :
    issue key c = .ok (encode key c) := by
  rw [issue, takeApart_eq_ok h.levels h.text, Json.checkNumbers_eq_ok h.digits,
    Json.encodable_eq_ok h.text]
  rfl

/-- Only a continuation that fits into a token is issued one. -/
theorem carried_of_issue {token : String} (h : issue key c = .ok token) :
    c.Carried ∧ token = encode key c := by
  obtain ⟨⟨⟩, hparts, h⟩ := Writing.exists_of_bind h
  obtain ⟨⟨⟩, hdigits, h⟩ := Writing.exists_of_bind h
  obtain ⟨_, htext, h⟩ := Writing.exists_of_bind h
  obtain ⟨⟨⟩, -, hitems⟩ := Writing.exists_of_bind hparts
  refine ⟨⟨?_, Json.longNumber?_of_checkNumbers hdigits, Json.half?_of_encodable htext⟩,
    (Except.ok.inj h).symm⟩
  exact Item.heightList_le.mp (Item.heightList_le_of_takeApartList c.items hitems)

end Token

end Sluice
