import Sluice.Command.Transform
import Sluice.Proofs.Json.Paths

/-!
What is left of an object by `pick`, and what can be found in it afterwards. Fields are kept under
their full paths, but a path is looked up key by key. So what is found in the rest depends on the
first key of a path alone: if that is one of the fields, its member is there and everything inside it
is where it was, and otherwise nothing is found, though the path itself may be one of the fields.
-/

namespace Sluice

namespace Pick

variable {fields : List String} {j : Json}

/-- The rest of an object has the fields that were found, and nothing else. -/
theorem get?_members (fields : List String) (j : Json) (name : String) :
    (Json.obj (members fields j)).get? name = if name ∈ fields then j.atPath name else none := by
  rw [Json.get?, members, Json.lookup_distinct, ← List.filterMap_reverse]
  have hlookup (names : List String) :
      (names.filterMap fun name => (j.atPath name).map fun v => (name, v)).lookup name =
        if name ∈ names then j.atPath name else none := by
    induction names with
    | nil => rfl
    | cons first names ih =>
      by_cases hname : name = first
      · subst hname
        cases hvalue : j.atPath name <;> simp [hvalue, ih]
      · cases hvalue : j.atPath first <;> simp [hvalue, hname, ih, lookup_cons_eq]
  simpa using hlookup fields.reverse

/-- A path leads into the rest of an object if it begins with a field. -/
theorem atPath_members (fields : List String) (j : Json) (path : String) :
    (Json.obj (members fields j)).atPath path =
      if Json.firstKey path ∈ fields then j.atPath path else none := by
  rw [Json.atPath_eq, get?_members]
  split
  · rw [Json.atPath_firstKey, Json.atPath_eq]
  · rfl

/-- The paths that begin with a field. -/
def rooted (fields paths : List String) : List String :=
  paths.filter fun path => decide (Json.firstKey path ∈ fields)

/-- Picking from what was picked is picking those paths at once that begin with a field. -/
theorem members_members (fields paths : List String) (j : Json) :
    members paths (.obj (members fields j)) = members (rooted fields paths) j := by
  change Json.distinct (paths.filterMap _) = Json.distinct ((paths.filter _).filterMap _)
  rw [List.filterMap_filter]
  congr 2
  funext path
  rw [atPath_members]
  by_cases hfirst : Json.firstKey path ∈ fields <;> simp [hfirst]

theorem item_item (fields paths : List String) (x : Item) :
    item paths (item fields x) = item (rooted fields paths) x := by
  match x with
  | .value (.obj ms) =>
    change Item.value (.obj (members paths (.obj (members fields (.obj ms))))) = _
    rw [members_members]
    rfl
  | .value (.arr _) | .value (.str _) | .value .null | .value (.bool _) | .value (.int _)
  | .value (.float _) | .request _ _ => rfl

def emptied : Item → Item
  | .value (.obj _) => .value (.obj [])
  | x => x

theorem item_nil (x : Item) : item [] x = emptied x := by
  match x with
  | .value (.obj _) | .value (.arr _) | .value (.str _) | .value .null | .value (.bool _)
  | .value (.int _) | .value (.float _) | .request _ _ => rfl

theorem rooted_self_iff : rooted fields fields = fields ↔
    ∀ path ∈ fields, Json.firstKey path ∈ fields := by
  rw [rooted, List.filter_eq_self]
  simp only [decide_eq_true_eq]

/-- A field that does not begin with a field is found once and not again. -/
theorem item_rooted_ne {path : String} (hpath : path ∈ fields)
    (hfirst : Json.firstKey path ∉ fields) :
    item (rooted fields fields) (.value (.nest (Json.pathKeys path) .null)) ≠
      item fields (.value (.nest (Json.pathKeys path) .null)) := by
  have hnot : path ∉ rooted fields fields := by
    simp [rooted, hfirst]
  have hvalue := Json.descend_nest (Json.pathKeys path) .null
  rw [← Json.atPath] at hvalue
  rw [Json.pathKeys_eq path, Json.nest_cons] at hvalue ⊢
  intro heq
  have hget := congrArg (·.get? path) (Item.value.inj heq)
  simp only [get?_members, if_neg hnot, if_pos hpath, hvalue] at hget
  cases hget

end Pick

namespace Condition

variable {c : Condition} {conditions : List Condition} {fields : List String}

theorem holds_members (hpath : Json.firstKey c.path ∈ fields) (j : Json) :
    c.holds (.obj (Pick.members fields j)) = c.holds j := by
  rw [holds, holds, Pick.atPath_members, if_pos hpath]

/-- Conditions on paths that begin with a field keep the rest of an item if they keep the item. -/
theorem keeps_item (hpaths : ∀ c ∈ conditions, Json.firstKey c.path ∈ fields) (x : Item) :
    keeps conditions (Pick.item fields x) = keeps conditions x := by
  match x with
  | .value (.obj ms) =>
    rw [Pick.item, keeps, keeps, Bool.eq_iff_iff, List.all_eq_true, List.all_eq_true]
    exact forall₂_congr fun c hc => by rw [holds_members (hpaths c hc)]
  | .value (.arr _) | .value (.str _) | .value .null | .value (.bool _) | .value (.int _)
  | .value (.float _) | .request _ _ => rfl

end Condition

end Sluice
