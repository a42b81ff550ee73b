import Catalogue.Proofs.Schema.Acceptance
import Catalogue.Proofs.Schema.Table

/-!
# What is looked up in a schema

The schema of a sequence of declarations answers as they say. Only the order of the declarations of
entities is lost: entities are kept in a sorted table, so that they are listed in the order of their
enumeration, and in the order of declaration exactly when they were declared in that order.

* `Answers` — what the lookups of a schema give, in terms of the declarations.
* `view?_eq_some_iff` — the views of a schema.
* `answers_of_build` — what the lookups of a schema that was built give.
-/

namespace Catalogue.Schema

open Catalogue.Lists

/-! ## Answers -/

/-- What the lookups of a schema give when it answers as a sequence of declarations says. -/
structure Answers (steps : List Declaration) (s : Schema) : Prop where
  /-- The entities that are listed are those declared, in the order of their enumeration. -/
  entities_eq : s.entities = Entity.all.filter (· ∈ declaredIn steps)
  /-- This is the order of declaration only where they were declared in that order. -/
  entities_eq_declaredIn_iff : s.entities = declaredIn steps ↔ (declaredIn steps).Pairwise (· < ·)
  attributesOf_declared : ∀ e as, .entity e as ∈ steps → s.attributesOf e = as
  attributesOf_undeclared : ∀ e, e ∉ declaredIn steps → s.attributesOf e = []
  attributesOfName_name : ∀ e : Entity, s.attributesOfName e.name = s.attributesOf e
  attributesOfName_unknown : ∀ name, (∀ e : Entity, name ≠ e.name) → s.attributesOfName name = []
  find?_iff : ∀ e name a, s.find? e name = some a ↔
    ∃ as, .entity e as ∈ steps ∧ a ∈ as ∧ a.name = name
  relationshipsBelow_eq : ∀ parent, s.relationshipsBelow parent =
    (relationshipsOf steps).filter (·.parent = parent)
  cardinality?_iff : ∀ parent child parents children,
    s.cardinality? parent child = some (parents, children) ↔
      .relate ⟨parent, child, parents, children⟩ ∈ steps

section Built

variable {steps : List Declaration} {s : Schema}

theorem attributes_of_build (h : (Declarations.ofList steps).build = .ok s) :
    s.attributes = .ofList (entitiesOf steps) := by
  rw [(build_eq_ok_iff.mp h).2, ofList_eq]
  rfl

theorem relationships_of_build (h : (Declarations.ofList steps).build = .ok s) :
    s.relationships = relationshipsOf steps := by
  rw [(build_eq_ok_iff.mp h).2, ofList_eq]
  rfl

theorem views_of_build (h : (Declarations.ofList steps).build = .ok s) :
    s.views = .ofList ((viewsOf steps).map fun v =>
      (v.1, View.ofRoot v.1 v.2 (relationshipsOf steps))) := by
  rw [(build_eq_ok_iff.mp h).2, ofList_eq]
  rfl

/-! ## Entities and their attributes -/

theorem entities_of_build (h : (Declarations.ofList steps).build = .ok s) :
    s.entities = Entity.all.filter (· ∈ declaredIn steps) := by
  rw [Schema.entities, attributes_of_build h, Table.keys_ofList_eq_filter, declaredIn]

theorem attributesOf_of_build (h : (Declarations.ofList steps).build = .ok s) {e : Entity}
    {as : List Attribute} (he : .entity e as ∈ steps) : s.attributesOf e = as := by
  have hget : s.attributes.get? e = some as := by
    rw [attributes_of_build h, Table.get?_ofList_iff (build_eq_ok_iff.mp h).1.entities_nodup]
    exact mem_entitiesOf.mpr he
  rw [Schema.attributesOf, hget]
  rfl

theorem attributesOf_of_undeclared (h : (Declarations.ofList steps).build = .ok s) {e : Entity}
    (he : e ∉ declaredIn steps) : s.attributesOf e = [] := by
  have hget : s.attributes.get? e = none := by
    rw [Option.eq_none_iff_forall_ne_some]
    intro as hsome
    rw [attributes_of_build h,
      Table.get?_ofList_iff (build_eq_ok_iff.mp h).1.entities_nodup] at hsome
    exact he (mem_declaredIn.mpr ⟨as, mem_entitiesOf.mp hsome⟩)
  rw [Schema.attributesOf, hget]
  rfl

/-- An attribute is one of those that were declared for the entity. -/
theorem mem_attributesOf_iff (h : (Declarations.ofList steps).build = .ok s) {e : Entity}
    {a : Attribute} : a ∈ s.attributesOf e ↔ ∃ as, .entity e as ∈ steps ∧ a ∈ as := by
  constructor
  · intro ha
    by_cases he : e ∈ declaredIn steps
    · obtain ⟨as, hmem⟩ := mem_declaredIn.mp he
      exact ⟨as, hmem, attributesOf_of_build h hmem ▸ ha⟩
    · rw [attributesOf_of_undeclared h he] at ha
      cases ha
  · rintro ⟨as, hmem, ha⟩
    rwa [attributesOf_of_build h hmem]

/-- No entity has two attributes of one name. -/
theorem nodup_attributesOf (h : (Declarations.ofList steps).build = .ok s) (e : Entity) :
    ((s.attributesOf e).map Attribute.name).Nodup := by
  by_cases he : e ∈ declaredIn steps
  · obtain ⟨as, hmem⟩ := mem_declaredIn.mp he
    rw [attributesOf_of_build h hmem]
    exact (build_eq_ok_iff.mp h).1.attributes_nodup e as hmem
  · rw [attributesOf_of_undeclared h he]
    exact List.nodup_nil

/-! ## Views -/

/-- A name is that of the view which was declared under it. -/
theorem view?_eq_some_iff (h : (Declarations.ofList steps).build = .ok s) {name : String}
    {v : View} : s.view? name = some v ↔
      ∃ root, .view name root ∈ steps ∧ v = View.ofRoot name root (relationshipsOf steps) := by
  have hkeys : (((viewsOf steps).map fun v =>
      (v.1, View.ofRoot v.1 v.2 (relationshipsOf steps))).map Prod.fst).Nodup := by
    rw [List.map_map]
    exact (build_eq_ok_iff.mp h).1.views_nodup
  rw [Schema.view?, views_of_build h, Table.get?_ofList_iff hkeys, List.mem_map]
  constructor
  · rintro ⟨⟨_, root⟩, hmem, heq⟩
    cases heq
    exact ⟨root, mem_viewsOf.mp hmem, rfl⟩
  · rintro ⟨root, hmem, rfl⟩
    exact ⟨(name, root), mem_viewsOf.mpr hmem, rfl⟩

/-! ## Every lookup -/

theorem find?_iff_of_build (h : (Declarations.ofList steps).build = .ok s) {e : Entity}
    {name : String} {a : Attribute} : s.find? e name = some a ↔
      ∃ as, .entity e as ∈ steps ∧ a ∈ as ∧ a.name = name := by
  rw [Schema.find?, find?_key_eq_some_iff (nodup_attributesOf h e), mem_attributesOf_iff h,
    ← exists_and_right]
  simp only [and_assoc]

theorem cardinality?_iff_of_build (h : (Declarations.ofList steps).build = .ok s)
    {parent child : Entity} {parents children : Cardinality} :
    s.cardinality? parent child = some (parents, children) ↔
      .relate ⟨parent, child, parents, children⟩ ∈ steps := by
  have hsearch : s.relationships.find? (fun r => r.parent == parent && r.child == child) =
      (relationshipsOf steps).find? (fun r => r.ends == (parent, child)) := by
    rw [relationships_of_build h]
    rfl
  rw [Schema.cardinality?, hsearch, Option.map_eq_some_iff, ← mem_relationshipsOf]
  simp only [find?_key_eq_some_iff (build_eq_ok_iff.mp h).1.ends_nodup]
  constructor
  · rintro ⟨⟨p, c, ps, cs⟩, ⟨hmem, hends⟩, hboth⟩
    cases hends
    cases hboth
    exact hmem
  · intro hmem
    exact ⟨_, ⟨hmem, rfl⟩, rfl⟩

/-- A schema that is built from a sequence of declarations answers as they say. -/
theorem answers_of_build (h : (Declarations.ofList steps).build = .ok s) : Answers steps s where
  entities_eq := entities_of_build h
  entities_eq_declaredIn_iff := by
    have hsorted : s.entities.Pairwise (· < ·) := by
      rw [entities_of_build h]
      exact Entity.pairwise_all.filter _
    constructor
    · exact fun heq => heq ▸ hsorted
    · intro hdeclared
      refine hsorted.eq_of_mem_iff hdeclared fun e => ?_
      rw [entities_of_build h, List.mem_filter, decide_eq_true_eq,
        and_iff_right (Entity.mem_all e)]
  attributesOf_declared _ _ := attributesOf_of_build h
  attributesOf_undeclared _ := attributesOf_of_undeclared h
  attributesOfName_name e := by rw [Schema.attributesOfName, Entity.ofName?_name]
  attributesOfName_unknown name hname := by
    have hnone : Entity.ofName? name = none :=
      Option.eq_none_iff_forall_ne_some.mpr fun e he =>
        hname e (Entity.ofName?_eq_some_iff.mp he)
    rw [Schema.attributesOfName, hnone]
  find?_iff _ _ _ := find?_iff_of_build h
  relationshipsBelow_eq parent := by
    rw [Schema.relationshipsBelow, relationships_of_build h]
    rfl
  cardinality?_iff _ _ _ _ := cardinality?_iff_of_build h

end Built

/-- A card and a product that lead to each other, declared after what relates them. -/
def looped : List Declaration :=
  [.relate ⟨.card, .product, .oneToOne, .oneToZeroOrMore⟩,
    .relate ⟨.product, .card, .oneToOne, .oneToOne⟩,
    .view "cards" .card,
    .entity .card [⟨.card, "identifier", .text, true⟩, ⟨.card, "status", .text, false⟩],
    .entity .product [⟨.product, "identifier", .text, true⟩]]

theorem answers_of_looped : ∃ s, (Declarations.ofList looped).build = .ok s ∧ Answers looped s :=
  ⟨_, rfl, answers_of_build rfl⟩

/-- Entities that are declared in another order than that of their enumeration are not listed in the
order of declaration. -/
theorem entities_ne_declaredIn : ∃ s,
    (Declarations.ofList [.entity .card [], .entity .product []]).build = .ok s ∧
    s.entities = [.product, .card] ∧
    s.entities ≠ declaredIn [.entity .card [], .entity .product []] :=
  ⟨_, rfl, rfl, by decide⟩

end Catalogue.Schema
