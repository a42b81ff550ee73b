import Catalogue.Proofs.Json.Shape
import Catalogue.Proofs.Json.Text
import Catalogue.Proofs.Record.Sorted
import Catalogue.Proofs.Time.Stamp
import Catalogue.Record.Basic

/-!
# Records through their serialised form

Fields that are empty are left out and read as empty again. The values are read one after another
and set under their keys, which rebuilds attributes that were sorted.

* `Record.floats` — the floats of a record.
* `Attributes.ofJson?_toJson` — sorted attributes are read back.
* `Record.ofJson?_toJson` and `Record.read?_write` — a record is read back from its serialised form
  and from its text.
-/

namespace Catalogue.Record

/-! ## Values -/

namespace Value

/-- The floats of a value. -/
def floats : Value → List Float
  | float x => [x]
  | _ => []

theorem tagged?_toJson (v : Value) :
    v.toJson.tagged? "type" "value" = some (v.kind, some v.content) :=
  Json.tagged?_pair (by decide) _ _

theorem ofJson?_toJson {v : Value} (h : ∀ x ∈ v.floats, x.isFinite = true) :
    ofJson? v.toJson = some v := by
  rw [ofJson?, tagged?_toJson]
  show ofKind? v.kind (some v.content) = some v
  cases v with
  | text s => rfl
  | integer n =>
    simp only [kind, content, ofKind?, Json.content?_some, Json.int64?_toInt, Option.map_some]
  | float x =>
    have hx : x.isFinite = true := h x List.mem_cons_self
    simp only [kind, content, ofKind?, Json.content?_some, Json.float?_ofFloat hx, Option.map_some]
  | bool b => rfl
  | date t =>
    simp only [kind, content, ofKind?, Json.content?_some, Json.string?, Option.bind_some,
      Time.stamp?_stamp, Option.map_some]
  | geometry wkt => rfl

theorem isExact_toJson {v : Value} (h : ∀ x ∈ v.floats, (Json.float x).IsExact) :
    v.toJson.IsExact := by
  refine ⟨trivial, ?_, trivial⟩
  cases v with
  | integer n => exact Json.isExact_signed n.le_toInt n.toInt_lt
  | float x => exact Json.isExact_ofFloat (h x List.mem_cons_self)
  | _ => trivial

theorem limit_toJson (n : Nat) (v : Value) : Json.limit (n + 1) v.toJson = v.toJson := by
  have hcontent : Json.limit n v.content = v.content := by
    cases v with
    | float x => exact Json.limit_ofFloat n x
    | _ => rfl
  refine Json.limit_object ?_
  simp only [List.forall_mem_cons, Json.limit, hcontent, true_and]
  exact List.forall_mem_nil _

end Value

/-! ## Attributes -/

namespace Attributes

/-- The floats of attributes. -/
def floats (a : Attributes) : List Float := a.flatMap fun m => m.2.floats

/-- A value under a key behind all others. -/
theorem set_of_forall_lt {a : Attributes} {key : String} (h : ∀ m ∈ a, m.1 < key) (value : Value) :
    a.set key value = a ++ [(key, value)] := by
  induction a with
  | nil => rfl
  | cons m rest ih =>
    obtain ⟨hm, hrest⟩ := List.forall_mem_cons.mp h
    have hne : (m.1 == key) = false := beq_eq_false_iff_ne.mpr hm.ne
    rw [set, hne, if_neg Bool.false_ne_true, if_neg hm.not_gt, ih hrest]
    rfl

/-- Setting the values of sorted attributes one after another rebuilds them. -/
theorem foldl_set {a b : Attributes} (h : (a ++ b).Sorted) :
    b.foldl (fun c m => c.set m.1 m.2) a = a ++ b := by
  induction b generalizing a with
  | nil => exact (List.append_nil a).symm
  | cons m rest ih =>
    have hlt : ∀ n ∈ a, n.1 < m.1 := fun n hn =>
      (List.pairwise_append.mp h).2.2 n hn m List.mem_cons_self
    rw [List.foldl_cons, set_of_forall_lt hlt, ih (by rwa [List.append_assoc])]
    rw [List.append_assoc, List.singleton_append]

/-- Values that are read back are set one after another. -/
theorem foldlM_toJson {b : Attributes} (h : ∀ m ∈ b, Value.ofJson? m.2.toJson = some m.2)
    (a : Attributes) :
    (b.map fun m => (m.1, m.2.toJson)).foldlM
      (fun c m => (Value.ofJson? m.2).map (c.set m.1 ·)) a =
        some (b.foldl (fun c m => c.set m.1 m.2) a) := by
  induction b generalizing a with
  | nil => rfl
  | cons m rest ih =>
    obtain ⟨hm, hrest⟩ := List.forall_mem_cons.mp h
    rw [List.map_cons, List.foldlM_cons, hm]
    exact ih hrest _

/-- Sorted attributes are read back. -/
theorem ofJson?_toJson {a : Attributes} (hsorted : a.Sorted)
    (h : ∀ x ∈ a.floats, x.isFinite = true) : ofJson? a.toJson = some a := by
  have hvalue : ∀ m ∈ a, Value.ofJson? m.2.toJson = some m.2 := fun m hm =>
    Value.ofJson?_toJson fun x hx => h x (List.mem_flatMap.mpr ⟨m, hm, hx⟩)
  have hall := foldlM_toJson hvalue []
  rw [foldl_set (a := []) hsorted] at hall
  exact hall

theorem isExact_toJson {a : Attributes} (h : ∀ x ∈ a.floats, (Json.float x).IsExact) :
    a.toJson.IsExact := by
  have hvalue : ∀ m ∈ a, m.2.toJson.IsExact := fun m hm =>
    Value.isExact_toJson fun x hx => h x (List.mem_flatMap.mpr ⟨m, hm, hx⟩)
  exact Json.membersExact_iff.mpr (List.forall_mem_map.mpr hvalue)

theorem limit_toJson (n : Nat) (a : Attributes) : Json.limit (n + 2) a.toJson = a.toJson :=
  Json.limit_object (List.forall_mem_map.mpr fun m _ => m.2.limit_toJson n)

end Attributes

/-! ## Records -/

theorem Product.ofJson?_toJson (p : Product) : ofJson? p.toJson = some p := by
  cases p <;> decide

/-- The floats of a record. -/
def floats (r : Record) : List Float := r.attributes.floats

theorem ofJson?_of_fields {v : Json} {attributes associations product contentType : Option Json}
    {r : Record}
    (hfields : v.fields? ["attributes", "associations", "record_type", "content_type"] =
      some [attributes, associations, product, contentType])
    (hattributes : Json.optional? Attributes.ofJson? [] attributes = some r.attributes)
    (hassociations : Json.optional? (Json.items? Json.string?) [] associations =
      some r.associations)
    (hproduct : Json.optional? (Json.nullable? Product.ofJson?) none product = some r.product)
    (hcontent : Json.optional? (Json.nullable? Json.string?) none contentType =
      some r.contentType) : ofJson? v = some r := by
  simp only [ofJson?, hfields, hattributes, hassociations, hproduct, hcontent,
    Option.bind_eq_bind, Option.bind_some, Option.pure_def]

/-- The fields of a serialised record; empty ones are absent. -/
theorem fields?_toJson (r : Record) :
    r.toJson.fields? ["attributes", "associations", "record_type", "content_type"] =
      some [some r.attributes.toJson,
        if r.associations.isEmpty then none else some (.array (r.associations.map .string)),
        r.product.map Product.toJson, r.contentType.map .string] := by
  obtain ⟨attributes, associations, product, contentType⟩ := r
  cases associations <;> cases product <;> cases contentType <;> rfl

/-- A record is read back from its serialised form. -/
theorem ofJson?_toJson {r : Record} (hsorted : r.attributes.Sorted)
    (h : ∀ x ∈ r.floats, x.isFinite = true) : ofJson? r.toJson = some r := by
  refine ofJson?_of_fields r.fields?_toJson ?_ ?_ ?_ ?_
  · exact Attributes.ofJson?_toJson hsorted h
  · split
    · next hempty => rw [Json.optional?, List.isEmpty_iff.mp hempty]
    · rw [Json.optional?_some]
      exact Json.items?_map fun s _ => rfl
  · cases r.product with
    | none => rfl
    | some p => exact congrArg (Option.map some) p.ofJson?_toJson
  · cases r.contentType with
    | none => rfl
    | some s => rfl

/-- A field that may be left out holds a text or a list of texts. -/
theorem mem_optionalMembers {r : Record} {m : String × Json} (h : m ∈ r.optionalMembers) :
    (∃ s, m.2 = .string s) ∨ m.2 = .array (r.associations.map .string) := by
  unfold optionalMembers at h
  rw [List.mem_append, List.mem_append] at h
  rcases h with (h | h) | h
  · split at h
    · cases h
    · rw [List.mem_singleton.mp h]
      exact .inr rfl
  · split at h
    · cases h
    · rw [List.mem_singleton.mp h]
      exact .inl ⟨_, rfl⟩
  · split at h
    · cases h
    · rw [List.mem_singleton.mp h]
      exact .inl ⟨_, rfl⟩

theorem isExact_toJson {r : Record} (h : ∀ x ∈ r.floats, (Json.float x).IsExact) :
    r.toJson.IsExact := by
  refine ⟨Attributes.isExact_toJson h, Json.membersExact_iff.mpr fun m hm => ?_⟩
  rcases mem_optionalMembers hm with ⟨s, hs⟩ | hlist
  · rw [hs]
    trivial
  · rw [hlist]
    exact Json.itemsExact_iff.mpr (List.forall_mem_map.mpr fun _ _ => trivial)

theorem limit_toJson (r : Record) : Json.limit Json.levels r.toJson = r.toJson := by
  refine Json.limit_object (n := 126)
    (List.forall_mem_cons.mpr ⟨r.attributes.limit_toJson 124, fun m hm => ?_⟩)
  rcases mem_optionalMembers hm with ⟨s, hs⟩ | hlist
  · rw [hs]
    rfl
  · rw [hlist]
    exact Json.limit_array (List.forall_mem_map.mpr fun _ _ => rfl)

/-- A record is read back from its text. -/
theorem read?_write {r : Record} (hsorted : r.attributes.Sorted)
    (hfinite : ∀ x ∈ r.floats, x.isFinite = true)
    (hexact : ∀ x ∈ r.floats, (Json.float x).IsExact) :
    (Json.read? r.toJson.write).bind ofJson? = some r := by
  rw [Json.read?_write (isExact_toJson hexact) (limit_toJson r), Option.bind_some,
    ofJson?_toJson hsorted hfinite]

end Catalogue.Record
