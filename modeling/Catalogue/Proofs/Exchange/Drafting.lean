import Catalogue.Exchange.Decode

/-!
# What a walk leaves behind

Every leaf contributes on its own, so the draft after a walk is told by what the leaves contribute:
the values written, the markings, the associated records, and the last type entered. The first
leaf that is refused ends it.

* `Draft.follow_result` — the result of a walk, from the contributions.
* `get?_setAll` — of several values written under one key the last one counts.
-/

namespace Catalogue.Exchange

open Catalogue.Record (Attributes Product)
open Catalogue.Schema (Entity)

/-! ## Contributions -/

namespace Reading

def write? : Reading → Option (String × Record.Value)
  | write key v => some (key, v)
  | _ => none

def mark? : Reading → Option (Marking × String)
  | mark m s => some (m, s)
  | _ => none

def associate? : Reading → Option String
  | associate identifier => some identifier
  | _ => none

def refusal? : Reading → Option ExchangeError
  | refused e => some e
  | _ => none

end Reading

namespace Visit

/-- What a visited leaf contributes. -/
def reading? : Visit → Option Reading
  | entity _ _ => none
  | leaf n scope => n.value.map (contribution scope n.name)

/-- The type that an entered entity sets. -/
def product? : Visit → Option Product
  | entity name inside =>
    if inside.inAssociation then none else (Entity.ofName? name).bind Product.ofEntity?
  | leaf _ _ => none

end Visit

/-- What the leaves of a walk contribute, in order. -/
def readings (vs : List Visit) : List Reading := vs.filterMap Visit.reading?

/-- The types set on a walk, in order. -/
def products (vs : List Visit) : List Product := vs.filterMap Visit.product?

theorem readings_append (vs ws : List Visit) : readings (vs ++ ws) = readings vs ++ readings ws :=
  List.filterMap_append

theorem products_append (vs ws : List Visit) : products (vs ++ ws) = products vs ++ products ws :=
  List.filterMap_append

/-! ## Drafts -/

/-- Values written one after another. -/
def setAll (a : Attributes) (ws : List (String × Record.Value)) : Attributes :=
  ws.foldl (fun a w => a.set w.1 w.2) a

/-- The draft with what some leaves contribute and the last of some types. -/
def Draft.settle (mode : Narrowing) (d : Draft) (rs : List Reading) (ps : List Product) :
    Draft where
  record := { d.record with
    attributes := setAll d.record.attributes (rs.filterMap Reading.write?)
    product := ps.getLast?.or d.record.product
    contentType := (ps.getLast?.map Product.contentTypeName).or d.record.contentType }
  associated := d.associated ++ (rs.filterMap Reading.associate?).toArray
  markings := (rs.filterMap Reading.mark?).foldl (fun ms m => ms.fold mode m.1 m.2) d.markings

namespace Draft

variable (mode : Narrowing)

theorem settle_nil (d : Draft) : d.settle mode [] [] = d := by
  obtain ⟨⟨attributes, associations, product, contentType⟩, associated, markings⟩ := d
  simp [settle, setAll]

/-- Entering an entity sets its type, if it has one. -/
theorem enter_eq (d : Draft) (name : String) (inside : Scope) :
    d.enter name inside = d.settle mode [] (Visit.entity name inside).product?.toList := by
  obtain ⟨⟨attributes, associations, product, contentType⟩, associated, markings⟩ := d
  rw [enter, Visit.product?]
  split
  · simp [settle, setAll]
  · cases h : (Entity.ofName? name).bind Product.ofEntity? with
    | none => simp [settle, setAll]
    | some p => simp [settle, setAll]

theorem settle_settle (d : Draft) (rs rs' : List Reading) (ps ps' : List Product) :
    (d.settle mode rs ps).settle mode rs' ps' = d.settle mode (rs ++ rs') (ps ++ ps') := by
  cases h : ps'.getLast? <;>
    simp [settle, setAll, List.filterMap_append, List.foldl_append, List.getLast?_append, h]

/-- A contribution that is not refused is taken in. -/
theorem take_result (d : Draft) (r : Reading) :
    (d.take mode r).result =
      match r.refusal? with
      | some e => .error e
      | none => .ok (d.settle mode [r] []) := by
  obtain ⟨⟨attributes, associations, product, contentType⟩, associated, markings⟩ := d
  cases r <;> simp [take, Reading.refusal?, settle, setAll, List.filterMap_cons,
    Reading.write?, Reading.associate?, Reading.mark?, Record.set]

theorem visit_result (d : Draft) (v : Visit) :
    (d.visit mode v).result =
      match (readings [v]).findSome? Reading.refusal? with
      | some e => .error e
      | none => .ok (d.settle mode (readings [v]) (products [v])) := by
  cases v with
  | entity name inside =>
    have hproducts : products [Visit.entity name inside] =
        (Visit.entity name inside).product?.toList := by
      cases h : (Visit.entity name inside).product? <;> simp [products, h]
    rw [visit, enter_eq mode, hproducts]
    rfl
  | leaf n scope =>
    cases hvalue : n.value with
    | none =>
      simp only [visit, hvalue, readings, products, List.filterMap_cons, Visit.reading?,
        Visit.product?, Option.map_none, List.filterMap_nil, settle_nil]
      rfl
    | some w =>
      have hreadings : readings [Visit.leaf n scope] = [contribution scope n.name w] := by
        simp [readings, Visit.reading?, hvalue]
      rw [hreadings]
      simp only [visit, hvalue, take_result, List.findSome?_cons]
      cases h : (contribution scope n.name w).refusal? <;> rfl

/-- The result of a walk: the first refusal, or all contributions. -/
theorem follow_result (d : Draft) (vs : List Visit) :
    (d.follow mode vs).result =
      match (readings vs).findSome? Reading.refusal? with
      | some e => .error e
      | none => .ok (d.settle mode (readings vs) (products vs)) := by
  induction vs generalizing d with
  | nil => simp [follow, readings, products, settle_nil]
  | cons v rest ih =>
    have hreadings : readings (v :: rest) = readings [v] ++ readings rest :=
      readings_append [v] rest
    have hproducts : products (v :: rest) = products [v] ++ products rest :=
      products_append [v] rest
    -- a refusal at the first step ends the walk; otherwise the rest goes on from its draft
    rw [follow, hreadings, hproducts, List.findSome?_append]
    have hstep := visit_result mode d v
    cases hrefusal : (readings [v]).findSome? Reading.refusal? with
    | some e =>
      rw [hrefusal] at hstep
      simp only [hstep]
      rfl
    | none =>
      rw [hrefusal] at hstep
      simp only [hstep, ih, settle_settle]
      rfl

end Draft

/-! ## Values under keys -/

/-- Of several values written under one key the last one counts. -/
theorem get?_setAll (a : Attributes) (ws : List (String × Record.Value)) (key : String) :
    (setAll a ws).get? key =
      ((ws.reverse.find? (fun w => w.1 == key)).map Prod.snd).or (a.get? key) := by
  induction ws generalizing a with
  | nil => rfl
  | cons w rest ih =>
    show (setAll (a.set w.1 w.2) rest).get? key = _
    rw [ih, List.reverse_cons, List.find?_append]
    cases hrest : rest.reverse.find? (fun w => w.1 == key) with
    | some v => rfl
    | none =>
      by_cases hkey : w.1 = key
      · subst hkey
        simp [Attributes.get?_set_self]
      · simp [Attributes.get?_set_of_ne _ _ hkey, hkey]

/-- A value that is found was written there. -/
theorem mem_of_get?_setAll {ws : List (String × Record.Value)} {key : String} {v : Record.Value}
    (h : (setAll [] ws).get? key = some v) : (key, v) ∈ ws := by
  rw [get?_setAll, Option.or_eq_some_iff, Option.map_eq_some_iff] at h
  rcases h with ⟨⟨k, v⟩, hfind, rfl⟩ | ⟨-, h⟩
  · obtain rfl : k = key := by simpa using List.find?_some hfind
    exact List.mem_reverse.mp (List.mem_of_find?_eq_some hfind)
  · cases h

/-- When all values written under a key are the same one, it is found there. -/
theorem get?_setAll_of_forall {a : Attributes} {ws : List (String × Record.Value)} {key : String}
    {v : Record.Value} (hmem : (key, v) ∈ ws) (hall : ∀ w ∈ ws, w.1 = key → w.2 = v) :
    (setAll a ws).get? key = some v := by
  rw [get?_setAll]
  cases hfind : ws.reverse.find? (fun w => w.1 == key) with
  | none =>
    have := List.find?_eq_none.mp hfind (key, v) (List.mem_reverse.mpr hmem)
    simp at this
  | some w =>
    have hw := List.mem_reverse.mp (List.mem_of_find?_eq_some hfind)
    have hkey : w.1 = key := by simpa using List.find?_some hfind
    simp [hall w hw hkey]

/-- A key that nothing is written under keeps its value. -/
theorem get?_setAll_of_not_mem {a : Attributes} {ws : List (String × Record.Value)} {key : String}
    (hnot : ∀ w ∈ ws, w.1 ≠ key) : (setAll a ws).get? key = a.get? key := by
  have hfind : ws.reverse.find? (fun w => w.1 == key) = none := by
    rw [List.find?_eq_none]
    intro w hw
    simpa using hnot w (List.mem_reverse.mp hw)
  rw [get?_setAll, hfind]
  rfl

end Catalogue.Exchange
