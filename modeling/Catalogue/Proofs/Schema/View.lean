import Catalogue.Proofs.Schema.Lookup
import Catalogue.Proofs.Schema.Search

/-!
# What a view has

A view lists what relationships lead to from its root, breadth first, with the relationships in the
order in which they were crossed. This also holds where relationships form a cycle. The attributes
of a view are those that were declared for its entities.

* `BreadthFirst` — the entities and the relationships of a view.
* `breadthFirst_ofRoot` — views are made so.
* `view_of_build` — the views of a schema that was built.
-/

namespace Catalogue.Schema

open Search (trail)

/-! ## Entities and relationships -/

/-- A view lists what relationships lead to from its root, breadth first. -/
structure BreadthFirst (rels : List Relationship) (v : View) : Prop where
  head_eq : v.entities.head? = some v.root
  nodup : v.entities.Nodup
  mem_entities_iff : ∀ e, e ∈ v.entities ↔ ∃ n, Path rels v.root n e
  nearest : v.entities.Pairwise fun a b => distance rels v.root a ≤ distance rels v.root b
  /-- Entities come in the order in which the relationships of the view first lead to them. -/
  ordered : v.entities.Pairwise fun a b =>
    (trail v.root v.relationships).idxOf a < (trail v.root v.relationships).idxOf b
  relationships_eq : v.relationships = v.entities.flatMap (outgoing rels)
  mem_relationships_iff : ∀ r, r ∈ v.relationships ↔ r ∈ rels ∧ r.parent ∈ v.entities
  relationships_nodup : v.relationships.Nodup
  /-- The search has nothing pending after one round for each entity. -/
  ends : (Search.round rels)^[v.entities.length] (Search.start v.root) =
    ⟨v.entities, [], v.relationships⟩

/-- Among different entities no relationship is outgoing twice. -/
theorem nodup_flatMap_outgoing {rels : List Relationship} (hrels : rels.Nodup)
    {entities : List Entity} (h : entities.Nodup) : (entities.flatMap (outgoing rels)).Nodup := by
  refine List.nodup_flatMap.mpr ⟨fun e _ => hrels.filter _, h.imp fun hne r hr hr' => hne ?_⟩
  rw [← (mem_outgoing.mp hr).2, ← (mem_outgoing.mp hr').2]

theorem breadthFirst_ofRoot {rels : List Relationship} (hrels : rels.Nodup) (name : String)
    (root : Entity) : BreadthFirst rels (View.ofRoot name root rels) := by
  obtain ⟨hrounds, hpending, hprogress⟩ := Search.run_spec rels root
  have hcrossed : (View.ofRoot name root rels).relationships =
      (View.ofRoot name root rels).entities.flatMap (outgoing rels) := hprogress.crossed_eq
  refine ⟨hprogress.orderly.head?_eq, hprogress.orderly.nodup,
    fun _ => Search.mem_found_run_iff, ?_, hprogress.orderly.ordered, hcrossed, fun r => ?_, ?_, ?_⟩
  · refine hprogress.nearest.imp_of_mem fun _ hb hnear => ?_
    obtain ⟨_, hpath⟩ := hprogress.reached _ hb
    exact hnear.distance_le hpath
  · rw [hcrossed, List.mem_flatMap]
    simp only [mem_outgoing]
    constructor
    · rintro ⟨e, he, hr, rfl⟩
      exact ⟨hr, he⟩
    · rintro ⟨hr, he⟩
      exact ⟨r.parent, he, hr, rfl⟩
  · rw [hcrossed]
    exact nodup_flatMap_outgoing hrels hprogress.orderly.nodup
  · rw [← hpending]
    exact hrounds

/-! ## Attributes -/

section Built

variable {steps : List Declaration} {s : Schema} {name : String} {v : View}

/-- What a path of relationships leads to is declared when its start is. -/
theorem Sound.declared_of_path (h : Sound steps) {root : Entity} (hroot : root ∈ declaredIn steps)
    {n : Nat} {e : Entity} (hpath : Path (relationshipsOf steps) root n e) :
    e ∈ declaredIn steps := by
  cases hpath with
  | here => exact hroot
  | step hr _ => exact h.child_declared _ (mem_relationshipsOf.mp hr)

/-- No entity has two attributes of one name, also where those of several are put together. -/
theorem nodup_flatMap_attributesOf (h : (Declarations.ofList steps).build = .ok s)
    {entities : List Entity} (hentities : entities.Nodup) :
    (entities.flatMap fun e => (s.attributesOf e).map fun a => (e, a.name)).Nodup := by
  refine List.nodup_flatMap.mpr ⟨fun e _ => ?_, hentities.imp fun hne p hp hp' => hne ?_⟩
  · have hnames := nodup_attributesOf h e
    have hpairs : (s.attributesOf e).map (fun a => (e, a.name)) =
        ((s.attributesOf e).map Attribute.name).map (Prod.mk e) := by
      rw [List.map_map]
      rfl
    rw [hpairs]
    exact hnames.map fun _ _ heq => congrArg Prod.snd heq
  · obtain ⟨a, -, rfl⟩ := List.mem_map.mp hp
    obtain ⟨b, -, heq⟩ := List.mem_map.mp hp'
    exact (congrArg Prod.fst heq).symm

/-- A view of a schema that is built from a sequence of declarations is the one that was declared
under its name. It lists what relationships lead to from its root, breadth first, and has the
attributes that were declared for each of these entities. -/
theorem view_of_build (h : (Declarations.ofList steps).build = .ok s)
    (hv : s.view? name = some v) :
    v.name = name ∧ .view name v.root ∈ steps ∧ BreadthFirst (relationshipsOf steps) v ∧
    ∃ parts : List (Entity × List Attribute), parts.map Prod.fst = v.entities ∧
      (∀ d ∈ parts, .entity d.1 d.2 ∈ steps) ∧
      s.viewAttributes name = parts.flatMap Prod.snd ∧
      (parts.flatMap fun d => d.2.map fun a => (d.1, a.name)).Nodup := by
  obtain ⟨root, hroot, rfl⟩ := (view?_eq_some_iff h).mp hv
  have hsound : Sound steps := (build_eq_ok_iff.mp h).1
  have hview : BreadthFirst (relationshipsOf steps)
      (View.ofRoot name root (relationshipsOf steps)) :=
    breadthFirst_ofRoot (List.Nodup.of_map _ hsound.ends_nodup) name root
  refine ⟨rfl, hroot, hview,
    (View.ofRoot name root (relationshipsOf steps)).entities.map fun e => (e, s.attributesOf e),
    ?_, ?_, ?_, ?_⟩
  · rw [List.map_map]
    exact List.map_id' _
  · intro d hd
    obtain ⟨e, he, rfl⟩ := List.mem_map.mp hd
    obtain ⟨n, hpath⟩ := (hview.mem_entities_iff e).mp he
    obtain ⟨as, has⟩ := mem_declaredIn.mp
      (hsound.declared_of_path (hsound.root_declared _ _ hroot) hpath)
    rwa [attributesOf_of_build h has]
  · rw [Schema.viewAttributes, hv, List.flatMap_map]
  · rw [List.flatMap_map]
    exact nodup_flatMap_attributesOf h hview.nodup

end Built

theorem view_of_looped : ∃ s v, (Declarations.ofList looped).build = .ok s ∧
    s.view? "cards" = some v ∧ BreadthFirst (relationshipsOf looped) v := by
  have hbuild : (Declarations.ofList looped).build = .ok (Declarations.ofList looped).schema := rfl
  have hview : (Declarations.ofList looped).schema.view? "cards" =
      some (View.ofRoot "cards" .card (relationshipsOf looped)) := rfl
  exact ⟨_, _, hbuild, hview, (view_of_build hbuild hview).2.2.1⟩

example : (View.ofRoot "cards" .card (relationshipsOf looped)).entities = [.card, .product] := by
  cbv

end Catalogue.Schema
