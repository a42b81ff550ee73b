import Catalogue.Proofs.Graph.Valid

/-!
# Descendants

In a valid graph an edge leads to a node with fewer descendants, so a recursion along the edges
ends, and no path has as many edges as there are nodes.

* `Graph.Valid.card_descendants_lt` — a child has fewer descendants.
* `Graph.Valid.card_descendants_lt_size` — a node has fewer descendants than there are nodes.
-/

namespace Catalogue

namespace Graph

open Relation (TransGen)

theorem mem_children {g : Graph} {id child : NodeId} :
    child ∈ g.children id ↔ g.Leads id child := by
  rw [children, List.mem_map]
  constructor
  · rintro ⟨e, he, rfl⟩
    obtain ⟨hmem, hparent⟩ := List.mem_filter.mp he
    rw [← beq_iff_eq.mp hparent]
    exact hmem
  · intro h
    exact ⟨⟨id, child⟩, List.mem_filter.mpr ⟨h, beq_self_eq_true id⟩, rfl⟩

theorem mem_of_node?_eq_some {g : Graph} {id : NodeId} {n : Node} (h : g.node? id = some n) :
    n ∈ g.nodes.toList ∧ n.id = id := by
  rw [node?, ← Array.find?_toList] at h
  exact ⟨List.mem_of_find?_eq_some h, by simpa using List.find?_some h⟩

/-- Nodes with different numbers are found by their numbers. -/
theorem node?_of_mem {g : Graph} (hnodup : g.ids.Nodup) {n : Node} (h : n ∈ g.nodes.toList) :
    g.node? n.id = some n := by
  have hsome : (g.node? n.id).isSome = true := by
    rw [node?, ← Array.find?_toList, List.find?_isSome]
    exact ⟨n, h, beq_self_eq_true _⟩
  obtain ⟨m, hm⟩ := Option.isSome_iff_exists.mp hsome
  obtain ⟨hmem, hid⟩ := mem_of_node?_eq_some hm
  rw [hm, List.inj_on_of_nodup_map hnodup hmem h hid]

open Classical in
/-- The nodes that edges lead to from a node. -/
noncomputable def descendants (g : Graph) (id : NodeId) : Finset NodeId :=
  g.ids.toFinset.filter fun d => TransGen g.Leads id d

theorem mem_descendants {g : Graph} {id d : NodeId} :
    d ∈ g.descendants id ↔ d ∈ g.ids ∧ TransGen g.Leads id d := by
  simp [descendants]

namespace Valid

variable {g : Graph} (h : g.Valid)
include h

/-- A leaf has no children. -/
theorem children_of_leaf {id : NodeId} {n : Node} (hn : g.node? id = some n)
    (hkind : n.kind = .leaf) : g.children id = [] := by
  obtain ⟨hmem, rfl⟩ := mem_of_node?_eq_some hn
  refine List.eq_nil_iff_forall_not_mem.mpr fun child hchild => ?_
  exact h.parent_not_leaf _ (mem_children.mp hchild) n hmem hkind rfl

/-- A child has fewer descendants. -/
theorem card_descendants_lt {id child : NodeId} (hleads : g.Leads id child) :
    (g.descendants child).card < (g.descendants id).card := by
  apply Finset.card_lt_card
  rw [Finset.ssubset_iff_of_subset]
  · refine ⟨child, mem_descendants.mpr ⟨h.child_mem _ hleads, .single hleads⟩, fun hself => ?_⟩
    exact h.acyclic child (mem_descendants.mp hself).2
  · intro d hd
    obtain ⟨hmem, hpath⟩ := mem_descendants.mp hd
    exact mem_descendants.mpr ⟨hmem, .head hleads hpath⟩

/-- A node has fewer descendants than there are nodes. -/
theorem card_descendants_lt_size {id : NodeId} (hid : id ∈ g.ids) :
    (g.descendants id).card < g.nodes.size := by
  have hsub : g.descendants id ⊆ g.ids.toFinset := fun d hd =>
    List.mem_toFinset.mpr (mem_descendants.mp hd).1
  have hssub : g.descendants id ⊂ g.ids.toFinset := by
    rw [Finset.ssubset_iff_of_subset hsub]
    exact ⟨id, List.mem_toFinset.mpr hid, fun hself => h.acyclic id (mem_descendants.mp hself).2⟩
  calc (g.descendants id).card
      < g.ids.toFinset.card := Finset.card_lt_card hssub
    _ ≤ g.ids.length := List.toFinset_card_le g.ids
    _ = g.nodes.size := by simp [ids]

end Valid

end Graph

end Catalogue
