import Catalogue.Proofs.Graph.Descent
import Catalogue.Proofs.Lists.Parts

/-!
# Indexed graphs

The indices of a valid graph answer as the scans of its rows do, for the numbers of its nodes and
for every other number. Its edges are shared out among the child lists, each edge to one of them
and as often as the graph has it.

* `Topology.edgesFrom` — the edges that a child list stands for; `edgesFrom_eq` — they are a row of
  the edges of the graph.
* `topology_agrees` — the indices of a valid graph and the scans of its rows.
-/

namespace Catalogue

namespace Graph

open Catalogue.Lists

/-! ## Child lists -/

/-- The edges that the child list of a node stands for. -/
def Topology.edgesFrom (t : Topology) (parent : NodeId) : List Edge :=
  (t.children parent).map (Edge.mk parent)

section Agreement

variable {g : Graph} {t : Topology} (h : g.topology = .ok t)
include h

/-- A child list stands for the edges from its node, in the order of the graph. -/
theorem edgesFrom_eq (parent : NodeId) :
    t.edgesFrom parent = g.edges.toList.filter fun e => e.parent == parent := by
  rw [Topology.edgesFrom, (topology_ok h).2.2.2, children, List.map_map]
  refine (List.map_congr_left fun e he => ?_).trans (List.map_id _)
  obtain ⟨-, hparent⟩ := List.mem_filter.mp he
  rw [Function.comp_apply, ← beq_iff_eq.mp hparent]
  rfl

theorem mem_edgesFrom {parent : NodeId} {e : Edge} :
    e ∈ t.edgesFrom parent ↔ e ∈ g.edges.toList ∧ e.parent = parent := by
  rw [edgesFrom_eq h, List.mem_filter, beq_iff_eq]

/--
The indices agree with the scans for every number, whether or not a node has it. The child lists of
the nodes together are the edges of the graph, repeated edges as often as they are repeated; no
other number has children, and no edge is in two child lists.
-/
theorem topology_agrees :
    (g.root? = some t.root ∧ (∀ id, t.node? id = g.node? id) ∧
        ∀ id, t.children id = g.children id) ∧
      g.ids.Nodup ∧ (g.ids.flatMap t.edgesFrom).Perm g.edges.toList ∧
      (∀ id, id ∉ g.ids → t.children id = []) ∧
      ∀ e ∈ g.edges.toList, ∃! id, e ∈ t.edgesFrom id := by
  obtain ⟨-, hroot, hnode, hchildren⟩ := topology_ok h
  have hv := valid_of_topology_eq_ok h
  refine ⟨⟨hroot, hnode, hchildren⟩, hv.nodup_ids, ?_, fun id hid => ?_, fun e he => ?_⟩
  · rw [List.flatMap_congr fun id _ => edgesFrom_eq h id]
    exact flatMap_filter_key_perm hv.nodup_ids hv.parent_mem
  · rw [hchildren, List.eq_nil_iff_forall_not_mem]
    exact fun child hchild => hid (hv.parent_mem _ (mem_children.mp hchild))
  · refine ⟨e.parent, (mem_edgesFrom h).mpr ⟨he, rfl⟩, fun id hid => ?_⟩
    exact ((mem_edgesFrom h).mp hid).2.symm

end Agreement

/-- A product with a card that two edges lead to and a leaf that has three parents, one of them a
file that the root does not reach. -/
def braided : Graph where
  nodes := #[⟨4, .root, "product", none⟩, ⟨9, .entity, "card", none⟩,
    ⟨2, .leaf, "identifier", some (.text "a")⟩, ⟨7, .entity, "file", none⟩]
  edges := #[⟨7, 2⟩, ⟨4, 9⟩, ⟨9, 2⟩, ⟨4, 9⟩, ⟨4, 2⟩]

/-- The repeated edge is twice in the child list of the root, and number 5 is no node. -/
theorem topology_agrees_braided : ∃ t, braided.topology = .ok t ∧ t.root = 4 ∧
    t.node? 5 = none ∧ t.children 4 = [9, 9, 2] ∧ t.children 5 = [] ∧
    ([4, 9, 2, 7].flatMap t.edgesFrom).Perm [⟨7, 2⟩, ⟨4, 9⟩, ⟨9, 2⟩, ⟨4, 9⟩, ⟨4, 2⟩] := by
  obtain ⟨t, h⟩ : ∃ t, braided.topology = .ok t := ⟨_, rfl⟩
  obtain ⟨⟨hroot, hnode, hchildren⟩, -, hedges, hnone, -⟩ := topology_agrees h
  exact ⟨t, h, (Option.some.inj hroot).symm, hnode 5, hchildren 4, hnone 5 (by decide), hedges⟩

end Graph

end Catalogue
