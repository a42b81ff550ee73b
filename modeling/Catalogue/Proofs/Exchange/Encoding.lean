import Catalogue.Proofs.Exchange.Drafting
import Catalogue.Proofs.Exchange.Fields
import Catalogue.Proofs.Exchange.Unfolding

/-!
# The graph of a record, read again

The graph of a record is one branch: a root with its sections and, last, the association. Walking
through it meets the leaves in the order in which they were found, each in the scope of its entity.

* `assemble_eq` — the graph is planted.
* `assemble_spec` — the readings and types on the walk through the graph of a record.
-/

namespace Catalogue.Exchange

open Catalogue.Graph
open Catalogue.Record (Product)
open Catalogue.Schema (Entity rootName)

/-! ## Branches of a record -/

/-- The branch of a leaf. -/
def leafBranch (l : String × Graph.Value) : Branch := .node .leaf l.1 (some l.2) []

/-- The branch of a section, if it has leaves. -/
def sectionBranches (s : Section) : List Branch :=
  if s.2.isEmpty then [] else [.node .entity s.1.name none (s.2.map leafBranch)]

/-- The branch of an associated record. -/
def destinationBranch (identifier : String) : Branch :=
  .node .entity Entity.destination.name none
    [.node .entity Entity.card.name none [leafBranch (identifierName, .text identifier)]]

/-- The branch of the associated records, if there are any. -/
def associationBranches (identifiers : List String) : List Branch :=
  if identifiers.isEmpty then []
  else [.node .entity Entity.association.name none (identifiers.map destinationBranch)]

/-- The branches below the root. -/
def branches (ss : List Section) (identifiers : List String) : List Branch :=
  ss.flatMap sectionBranches ++ associationBranches identifiers

theorem plantAll_append (g : Graph) (parent : NodeId) (bs cs : List Branch) :
    plantAll g parent (bs ++ cs) = plantAll (plantAll g parent bs) parent cs := by
  induction bs generalizing g with
  | nil => rfl
  | cons b rest ih => exact ih (plant g parent b)

theorem addLeaves_eq (g : Graph) (parent : NodeId) (ls : List (String × Graph.Value)) :
    addLeaves g parent ls = plantAll g parent (ls.map leafBranch) := by
  induction ls generalizing g with
  | nil => rfl
  | cons l rest ih => exact ih (g.addLeaf parent l.1 l.2).1

theorem addSection_eq (root : NodeId) (g : Graph) (s : Section) :
    addSection root g s = plantAll g root (sectionBranches s) := by
  rw [addSection, sectionBranches]
  split
  · rfl
  · exact addLeaves_eq _ _ _

theorem addAssociations_eq (root : NodeId) (g : Graph) (identifiers : List String) :
    addAssociations root g identifiers = plantAll g root (associationBranches identifiers) := by
  have hdestinations : ∀ (identifiers : List String) (g : Graph) (association : NodeId),
      identifiers.foldl (addDestination association) g =
        plantAll g association (identifiers.map destinationBranch) := by
    intro identifiers
    induction identifiers with
    | nil => exact fun _ _ => rfl
    | cons i rest ih => exact fun g association => ih (addDestination association g i) association
  rw [addAssociations, associationBranches]
  split
  · rfl
  · exact hdestinations _ _ _

/-- The graph of sections and associated records is planted under its root. -/
theorem assemble_eq (ss : List Section) (identifiers : List String) :
    assemble ss identifiers =
      plantAll (Graph.ofRoot rootName).1 (Graph.ofRoot rootName).2 (branches ss identifiers) := by
  have hsections : ∀ (ss : List Section) (g : Graph) (root : NodeId),
      ss.foldl (addSection root) g = plantAll g root (ss.flatMap sectionBranches) := by
    intro ss
    induction ss with
    | nil => exact fun _ _ => rfl
    | cons s rest ih =>
      intro g root
      rw [List.foldl_cons, ih, addSection_eq, List.flatMap_cons, plantAll_append]
  rw [branches, plantAll_append, ← hsections, ← addAssociations_eq]
  rfl

theorem allSound_of_forall {bs : List Branch} (h : ∀ b ∈ bs, b.Sound) : Branch.AllSound bs := by
  induction bs with
  | nil => trivial
  | cons b rest ih =>
    exact ⟨h b List.mem_cons_self, ih fun c hc => h c (List.mem_cons_of_mem _ hc)⟩

theorem sound_leafBranch (l : String × Graph.Value) : (leafBranch l).Sound :=
  ⟨by decide, fun _ => ⟨rfl, rfl⟩, trivial⟩

theorem sound_entity {name : String} {below : List Branch} (h : ∀ b ∈ below, b.Sound) :
    (Branch.node .entity name none below).Sound :=
  ⟨by decide, nofun, allSound_of_forall h⟩

theorem sound_branches (ss : List Section) (identifiers : List String) :
    Branch.AllSound (branches ss identifiers) := by
  apply allSound_of_forall
  intro b hb
  rw [branches, List.mem_append, List.mem_flatMap] at hb
  rcases hb with ⟨s, -, hb⟩ | hb
  · rw [sectionBranches] at hb
    split at hb
    · cases hb
    · obtain rfl := List.mem_singleton.mp hb
      refine sound_entity fun c hc => ?_
      obtain ⟨l, -, rfl⟩ := List.mem_map.mp hc
      exact sound_leafBranch l
  · rw [associationBranches] at hb
    split at hb
    · cases hb
    · obtain rfl := List.mem_singleton.mp hb
      refine sound_entity fun c hc => ?_
      obtain ⟨i, -, rfl⟩ := List.mem_map.mp hc
      refine sound_entity fun d hd => ?_
      obtain rfl := List.mem_singleton.mp hd
      refine sound_entity fun l hl => ?_
      obtain rfl := List.mem_singleton.mp hl
      exact sound_leafBranch _

/-! ## The count of nodes -/

mutual

/-- Planting adds as many nodes as there are in the branch. -/
theorem size_nodes_plant : ∀ (b : Branch) (g : Graph) (parent : NodeId),
    (plant g parent b).nodes.size = g.nodes.size + b.size
  | .node kind name value below, g, parent => by
    rw [plant, size_nodes_plantAll below, Branch.size, add]
    show (g.nodes.push _).size + _ = _
    rw [Array.size_push]
    omega

theorem size_nodes_plantAll : ∀ (bs : List Branch) (g : Graph) (parent : NodeId),
    (plantAll g parent bs).nodes.size = g.nodes.size + Branch.sizes bs
  | [], g, _ => rfl
  | b :: rest, g, parent => by
    rw [plantAll, size_nodes_plantAll rest, size_nodes_plant b, Branch.sizes, Nat.add_assoc]

end

theorem sizes_append (bs cs : List Branch) :
    Branch.sizes (bs ++ cs) = Branch.sizes bs + Branch.sizes cs := by
  induction bs with
  | nil => rw [List.nil_append, Branch.sizes, Nat.zero_add]
  | cons b rest ih => rw [List.cons_append, Branch.sizes, Branch.sizes, ih, Nat.add_assoc]

theorem sizes_leaves (ls : List (String × Graph.Value)) :
    Branch.sizes (ls.map leafBranch) = ls.length := by
  induction ls with
  | nil => rfl
  | cons l rest ih =>
    rw [List.map_cons, Branch.sizes, ih, List.length_cons, Nat.add_comm]
    rfl

/-- A section with more leaves is larger. -/
theorem sizes_sectionBranches_le {s t : Section} (h : s.2.length ≤ t.2.length) :
    Branch.sizes (sectionBranches s) ≤ Branch.sizes (sectionBranches t) := by
  obtain ⟨e, ls⟩ := s
  obtain ⟨e', ls'⟩ := t
  cases ls with
  | nil => exact Nat.zero_le _
  | cons l rest =>
    cases ls' with
    | nil => exact absurd h (by simp)
    | cons l' rest' =>
      have hlength : (l :: rest).length ≤ (l' :: rest').length := h
      simp only [sectionBranches, List.isEmpty_cons, Bool.false_eq_true, if_false, Branch.sizes,
        Branch.size, sizes_leaves]
      omega

theorem sizes_flatMap (ss : List Section) : Branch.sizes (ss.flatMap sectionBranches) =
    (ss.map fun s => Branch.sizes (sectionBranches s)).sum := by
  induction ss with
  | nil => rfl
  | cons s rest ih => rw [List.flatMap_cons, sizes_append, ih, List.map_cons, List.sum_cons]

/-- A graph of sections that is not too large is one branch. -/
theorem planted_assemble {ss : List Section} {identifiers : List String}
    (h : (assemble ss identifiers).nodes.size ≤ 2 ^ 32) :
    Planted (assemble ss identifiers) (.node .root rootName none (branches ss identifiers)) := by
  rw [assemble_eq] at h ⊢
  rw [size_nodes_plantAll] at h
  have hroot : (Graph.ofRoot rootName).1.nodes.size = 1 := rfl
  exact planted_plantAll rootName _ (by omega)

/-! ## Readings of a section -/

/-- What the leaves of a section contribute. -/
def sectionReadings (s : Section) : List Reading :=
  s.2.map fun l => contribution (inside s.1) l.1 l.2

/-- The type that a section sets. -/
def sectionProduct? (s : Section) : Option Product :=
  if s.2.isEmpty || (inside s.1).inAssociation then none else Product.ofEntity? s.1

theorem visitsOfAll_append (k : Nat) (scope : Scope) (bs cs : List Branch) :
    visitsOfAll k scope (bs ++ cs) =
      visitsOfAll k scope bs ++ visitsOfAll (k + Branch.sizes bs) scope cs := by
  induction bs generalizing k with
  | nil => rfl
  | cons b rest ih =>
    rw [List.cons_append, visitsOfAll, visitsOfAll, ih, Branch.sizes, List.append_assoc,
      Nat.add_assoc]

theorem visits_leaves (k : Nat) (scope : Scope) (ls : List (String × Graph.Value)) :
    readings (visitsOfAll k scope (ls.map leafBranch)) =
        ls.map (fun l => contribution scope l.1 l.2) ∧
      products (visitsOfAll k scope (ls.map leafBranch)) = [] := by
  induction ls generalizing k with
  | nil => exact ⟨rfl, rfl⟩
  | cons l rest ih =>
    obtain ⟨hreadings, hproducts⟩ := ih (k + (leafBranch l).size)
    rw [List.map_cons, visitsOfAll, readings_append, products_append, hreadings, hproducts]
    exact ⟨rfl, rfl⟩

/-- An entity sets its type and then has what is below it. -/
theorem visits_entity (k : Nat) (scope : Scope) (name : String) (below : List Branch) :
    readings (visitsOfAll k scope [.node .entity name none below]) =
        readings (visitsOfAll (k + 1) (scope.enter name) below) ∧
      products (visitsOfAll k scope [.node .entity name none below]) =
        (Visit.entity name (scope.enter name)).product?.toList ++
          products (visitsOfAll (k + 1) (scope.enter name) below) := by
  have hvisits : visitsOfAll k scope [.node .entity name none below] =
      [Visit.entity name (scope.enter name)] ++
        visitsOfAll (k + 1) (scope.enter name) below := by
    rw [visitsOfAll, visitsOfAll, visitsOf, List.append_nil]
    rfl
  have hproducts : products [Visit.entity name (scope.enter name)] =
      (Visit.entity name (scope.enter name)).product?.toList := by
    rw [products]
    cases h : (Visit.entity name (scope.enter name)).product? <;> simp [h]
  rw [hvisits, readings_append, products_append, hproducts]
  exact ⟨rfl, rfl⟩

theorem visits_section (k : Nat) (s : Section) :
    readings (visitsOfAll k {} (sectionBranches s)) = sectionReadings s ∧
      products (visitsOfAll k {} (sectionBranches s)) = (sectionProduct? s).toList := by
  obtain ⟨e, ls⟩ := s
  cases ls with
  | nil => exact ⟨rfl, rfl⟩
  | cons l rest =>
    -- entering the entity sets its type, and its leaves set none
    obtain ⟨hreadings, hproducts⟩ := visits_leaves (k + 1) (inside e) (l :: rest)
    obtain ⟨hreadings', hproducts'⟩ := visits_entity k {} e.name ((l :: rest).map leafBranch)
    refine ⟨hreadings'.trans hreadings, hproducts'.trans ?_⟩
    show _ ++ products (visitsOfAll (k + 1) (inside e) _) = _
    rw [hproducts, List.append_nil, Visit.product?, Entity.ofName?_name]
    rfl

theorem visits_sections (k : Nat) (ss : List Section) :
    readings (visitsOfAll k {} (ss.flatMap sectionBranches)) = ss.flatMap sectionReadings ∧
      products (visitsOfAll k {} (ss.flatMap sectionBranches)) = ss.filterMap sectionProduct? := by
  induction ss generalizing k with
  | nil => exact ⟨rfl, rfl⟩
  | cons s rest ih =>
    obtain ⟨hreadings, hproducts⟩ := visits_section k s
    obtain ⟨hreadings', hproducts'⟩ := ih (k + Branch.sizes (sectionBranches s))
    rw [List.flatMap_cons, visitsOfAll_append, readings_append, products_append, hreadings,
      hproducts, hreadings', hproducts', List.flatMap_cons]
    refine ⟨rfl, ?_⟩
    cases h : sectionProduct? s <;> simp [h]

/-! ## Readings of the association -/

/-- The scope inside the association. -/
def associated : Scope := ({} : Scope).enter Entity.association.name

theorem visits_destinations (k : Nat) (identifiers : List String) :
    readings (visitsOfAll k associated (identifiers.map destinationBranch)) =
        identifiers.map Reading.associate ∧
      products (visitsOfAll k associated (identifiers.map destinationBranch)) = [] := by
  induction identifiers generalizing k with
  | nil => exact ⟨rfl, rfl⟩
  | cons i rest ih =>
    obtain ⟨hreadings, hproducts⟩ := ih (k + (destinationBranch i).size)
    rw [List.map_cons, visitsOfAll, readings_append, products_append, hreadings, hproducts]
    exact ⟨rfl, rfl⟩

theorem visits_association (k : Nat) (identifiers : List String) :
    readings (visitsOfAll k {} (associationBranches identifiers)) =
        identifiers.map Reading.associate ∧
      products (visitsOfAll k {} (associationBranches identifiers)) = [] := by
  cases identifiers with
  | nil => exact ⟨rfl, rfl⟩
  | cons i rest =>
    obtain ⟨hreadings, hproducts⟩ := visits_destinations (k + 1) (i :: rest)
    obtain ⟨hreadings', hproducts'⟩ :=
      visits_entity k {} Entity.association.name ((i :: rest).map destinationBranch)
    refine ⟨hreadings'.trans hreadings, hproducts'.trans ?_⟩
    show [] ++ products (visitsOfAll (k + 1) associated _) = _
    exact hproducts

/-- What the walk through an assembled graph meets. -/
theorem assemble_spec {ss : List Section} {identifiers : List String}
    (h : (assemble ss identifiers).nodes.size ≤ 2 ^ 32) :
    ∃ t, (assemble ss identifiers).topology = .ok t ∧
      readings (visits t) = ss.flatMap sectionReadings ++ identifiers.map Reading.associate ∧
      products (visits t) = ss.filterMap sectionProduct? := by
  have hplanted := planted_assemble h
  obtain ⟨t, ht⟩ := (hplanted.valid (sound_branches ss identifiers)).exists_topology
  obtain ⟨hreadings, hproducts⟩ := visits_sections 1 ss
  obtain ⟨hreadings', hproducts'⟩ :=
    visits_association (1 + Branch.sizes (ss.flatMap sectionBranches)) identifiers
  refine ⟨t, ht, ?_, ?_⟩
  · rw [visits_planted hplanted ht, branches, visitsOfAll_append, readings_append, hreadings,
      hreadings']
  · rw [visits_planted hplanted ht, branches, visitsOfAll_append, products_append, hproducts,
      hproducts', List.append_nil]

end Catalogue.Exchange
