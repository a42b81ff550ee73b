import Catalogue.Proofs.Graph.Descent

/-!
# The entities above a node

Where no two edges lead to one node, what is above a node is its parent and what is above its
parent. So the entities above a node are told by a walk down to it: each entity on the way comes to
those above, and takes the place of the nearest one.

* `SingleParents` — at most one edge leads to every node.
* `EntityAbove`, `NearestEntity` — the entities above a node, and the nearest of them.
* `Valid.entityAbove_child_iff`, `Valid.nearestEntity_child_iff` — both, one step further down.
-/

namespace Catalogue

namespace Graph

open Relation (TransGen)

/-! ## Parents -/

/-- At most one edge leads to every node. -/
def SingleParents (g : Graph) : Prop := (g.edges.toList.map Edge.child).Nodup

instance (g : Graph) : Decidable g.SingleParents :=
  inferInstanceAs (Decidable (g.edges.toList.map Edge.child).Nodup)

namespace SingleParents

variable {g : Graph} (h : g.SingleParents)
include h

theorem parent_unique {a b child : NodeId} (ha : g.Leads a child) (hb : g.Leads b child) : a = b :=
  congrArg Edge.parent (List.inj_on_of_nodup_map h ha hb rfl)

theorem nodup_children (id : NodeId) : (g.children id).Nodup :=
  (List.filter_sublist.map Edge.child).nodup h

/-- What is above a node is its parent and what is above its parent. -/
theorem transGen_child_iff {a m child : NodeId} (hleads : g.Leads m child) :
    TransGen g.Leads a child ↔ a = m ∨ TransGen g.Leads a m := by
  constructor
  · rintro (hsingle | ⟨habove, hlast⟩)
    · exact .inl (h.parent_unique hsingle hleads)
    · exact .inr (h.parent_unique hlast hleads ▸ habove)
  · rintro (rfl | habove)
    · exact .single hleads
    · exact .tail habove hleads

end SingleParents

/-! ## Entities -/

/-- An entity that edges lead down from to a node. -/
structure EntityAbove (g : Graph) (a : Node) (id : NodeId) : Prop where
  mem : a ∈ g.nodes.toList
  kind_eq : a.kind = .entity
  leads : TransGen g.Leads a.id id

/-- The entity above a node that has no other one between itself and the node. -/
structure NearestEntity (g : Graph) (a : Node) (id : NodeId) : Prop where
  above : g.EntityAbove a id
  nearest : ∀ b, g.EntityAbove b id → ¬ TransGen g.Leads a.id b.id

namespace Valid

variable {g : Graph} (hv : g.Valid)
include hv

theorem not_leads_root {root id : NodeId} (hroot : g.root? = some root) : ¬ g.Leads id root := by
  intro hleads
  rw [root?, ← Array.find?_toList] at hroot
  obtain ⟨n, hn, rfl⟩ := Option.map_eq_some_iff.mp hroot
  have hkind : n.kind = .root := by simpa using List.find?_some hn
  exact hv.child_not_root _ hleads n (List.mem_of_find?_eq_some hn) hkind rfl

/-- No entity is above the root. -/
theorem not_entityAbove_root {root : NodeId} (hroot : g.root? = some root) (a : Node) :
    ¬ g.EntityAbove a root := by
  intro habove
  cases habove.leads with
  | single hleads => exact hv.not_leads_root hroot hleads
  | tail _ hleads => exact hv.not_leads_root hroot hleads

variable (hsingle : g.SingleParents) {m : Node} (hm : m ∈ g.nodes.toList) {child : NodeId}
  (hleads : g.Leads m.id child)
include hsingle hm hleads

/-- The entities above a child are those above its parent, and the parent if it is one. -/
theorem entityAbove_child_iff (a : Node) :
    g.EntityAbove a child ↔ (a = m ∧ m.kind = .entity) ∨ g.EntityAbove a m.id := by
  constructor
  · rintro ⟨hmem, hkind, habove⟩
    rcases (hsingle.transGen_child_iff hleads).mp habove with hid | habove
    · obtain rfl := List.inj_on_of_nodup_map hv.nodup_ids hmem hm hid
      exact .inl ⟨rfl, hkind⟩
    · exact .inr ⟨hmem, hkind, habove⟩
  · rintro (⟨rfl, hkind⟩ | ⟨hmem, hkind, habove⟩)
    · exact ⟨hm, hkind, .single hleads⟩
    · exact ⟨hmem, hkind, .tail habove hleads⟩

/-- The entity nearest to a child is its parent if that is one, and else the one nearest to it. -/
theorem nearestEntity_child_iff (a : Node) :
    g.NearestEntity a child ↔ if m.kind = .entity then a = m else g.NearestEntity a m.id := by
  have habove := hv.entityAbove_child_iff hsingle hm hleads
  split
  case isTrue hkind =>
    have hself : g.EntityAbove m child := (habove m).mpr (.inl ⟨rfl, hkind⟩)
    constructor
    · intro hnearest
      rcases (habove a).mp hnearest.above with ⟨rfl, -⟩ | hfar
      · rfl
      · exact absurd hfar.leads (hnearest.nearest m hself)
    · rintro rfl
      refine ⟨hself, fun b hb hbelow => ?_⟩
      rcases (habove b).mp hb with ⟨rfl, -⟩ | hb
      · exact hv.acyclic _ hbelow
      · exact hv.acyclic _ (hbelow.trans hb.leads)
  case isFalse hkind =>
    have hsame : ∀ b, g.EntityAbove b child ↔ g.EntityAbove b m.id := fun b => by
      rw [habove b]
      exact or_iff_right fun hself => hkind hself.2
    constructor
    · intro hnearest
      exact ⟨(hsame a).mp hnearest.above, fun b hb => hnearest.nearest b ((hsame b).mpr hb)⟩
    · intro hnearest
      exact ⟨(hsame a).mpr hnearest.above, fun b hb => hnearest.nearest b ((hsame b).mp hb)⟩

end Valid

end Graph

end Catalogue
