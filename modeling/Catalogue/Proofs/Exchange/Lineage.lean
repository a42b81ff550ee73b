import Catalogue.Proofs.Exchange.Contribution
import Catalogue.Proofs.Exchange.Fields
import Catalogue.Proofs.Exchange.Preorder
import Catalogue.Proofs.Graph.Ancestry

/-!
# Where a path leads

A path is taken apart at its end: its last step leads from where the rest ends to a child. From the
root, where no two edges lead to one node, a path is told by its end, and the scope there by the
entities above.

* `stopAt?_append_singleton` — the last step of a path.
* `exists_path` — a path leads to every node that can be reached.
* `path_unique` — with single parents, only one does.
* `Scope.Describes` — what a scope says about the entities above; `describes_of_stopAt?`.
-/

namespace Catalogue.Exchange

open Catalogue.Graph
open Catalogue.Schema (Entity)
open Relation (ReflTransGen)

/-! ## Paths -/

section Paths

variable {g : Graph} {s : Scope}

/-- The last step of a path leads from the end of the rest to a child, in the scope below it. -/
theorem stopAt?_append_singleton {id : NodeId} {path : List Nat} {i : Nat} {stop : Stop} :
    stopAt? g s id (path ++ [i]) = some stop ↔
      ∃ above, stopAt? g s id path = some above ∧
        (g.children above.node.id)[i]? = some stop.node.id ∧
        g.node? stop.node.id = some stop.node ∧ stop.scope = above.scope.below above.node := by
  induction path generalizing s id with
  | nil =>
    simp only [List.nil_append, stopAt?, Option.bind_eq_bind, Option.bind_eq_some_iff,
      Option.map_eq_some_iff]
    constructor
    · rintro ⟨n, hn, child, hchild, m, hm, rfl⟩
      obtain rfl := (mem_of_node?_eq_some hn).2
      obtain rfl := (mem_of_node?_eq_some hm).2
      exact ⟨⟨n, s⟩, ⟨n, hn, rfl⟩, hchild, hm, rfl⟩
    · rintro ⟨_, ⟨n, hn, rfl⟩, hchild, hm, hscope⟩
      rw [(mem_of_node?_eq_some hn).2] at hchild
      refine ⟨n, hn, stop.node.id, hchild, stop.node, hm, ?_⟩
      rw [← show stop.scope = s.below n from hscope]
  | cons j rest ih =>
    simp only [List.cons_append, stopAt?, Option.bind_eq_bind, Option.bind_eq_some_iff, ih]
    constructor
    · rintro ⟨n, hn, child, hchild, above, habove, hlast⟩
      exact ⟨above, ⟨n, hn, child, hchild, habove⟩, hlast⟩
    · rintro ⟨above, ⟨n, hn, child, hchild, habove⟩, hlast⟩
      exact ⟨n, hn, child, hchild, above, habove, hlast⟩

/-- A path ends at a node of the graph. -/
theorem mem_of_stopAt? {id : NodeId} {path : List Nat} {stop : Stop}
    (h : stopAt? g s id path = some stop) : stop.node ∈ g.nodes.toList := by
  rcases List.eq_nil_or_concat' path with rfl | ⟨path, i, rfl⟩
  · obtain ⟨n, hn, rfl⟩ := Option.map_eq_some_iff.mp h
    exact (mem_of_node?_eq_some hn).1
  · obtain ⟨-, -, -, hn, -⟩ := stopAt?_append_singleton.mp h
    exact (mem_of_node?_eq_some hn).1

/-- A path leads to every node that can be reached. -/
theorem exists_path (hv : g.Valid) {root : NodeId} {n : Node} (hn : n ∈ g.nodes.toList)
    (h : ReflTransGen g.Leads root n.id) :
    ∃ path scope, stopAt? g s root path = some ⟨n, scope⟩ := by
  generalize hid : n.id = id at h
  induction h generalizing n with
  | refl =>
    refine ⟨[], s, Option.map_eq_some_iff.mpr ⟨n, ?_, rfl⟩⟩
    rw [← hid, node?_of_mem hv.nodup_ids hn]
  | tail hpath hleads ih =>
    subst hid
    obtain ⟨m, hm, hparent⟩ := List.mem_map.mp (hv.parent_mem _ hleads)
    obtain ⟨path, scope, hstop⟩ := ih hm hparent
    obtain ⟨i, hi⟩ := List.mem_iff_getElem?.mp (mem_children.mpr hleads)
    refine ⟨path ++ [i], scope.below m, stopAt?_append_singleton.mpr ⟨⟨m, scope⟩, hstop, ?_⟩⟩
    exact ⟨by rw [hparent]; exact hi, node?_of_mem hv.nodup_ids hn, rfl⟩

end Paths

section Root

variable {g : Graph} (hv : g.Valid) (hsingle : g.SingleParents) {root : NodeId}
  (hroot : g.root? = some root) {s : Scope}
include hv hroot

/-- No other path leads back to the root. -/
theorem stopAt?_append_singleton_ne_root {path : List Nat} {i : Nat} {stop : Stop}
    (h : stopAt? g s root (path ++ [i]) = some stop) : stop.node.id ≠ root := by
  obtain ⟨above, -, hchild, -⟩ := stopAt?_append_singleton.mp h
  intro hid
  rw [hid] at hchild
  exact hv.not_leads_root hroot (mem_children.mp (List.mem_of_getElem? hchild))

include hsingle

/-- One path from the root leads to each node. -/
theorem path_unique {p q : List Nat} {a b : Stop} (hp : stopAt? g s root p = some a)
    (hq : stopAt? g s root q = some b) (hnode : a.node = b.node) : p = q := by
  have hempty : ∀ {c : Stop}, stopAt? g s root [] = some c → c.node.id = root := by
    intro c hc
    obtain ⟨n, hn, rfl⟩ := Option.map_eq_some_iff.mp hc
    exact (mem_of_node?_eq_some hn).2
  -- a path ends at the root exactly when it has no step, so both have a last one or neither has
  induction p using List.reverseRecOn generalizing q a b with
  | nil =>
    rcases List.eq_nil_or_concat' q with rfl | ⟨q, j, rfl⟩
    · rfl
    · exact absurd (hnode ▸ hempty hp) (stopAt?_append_singleton_ne_root hv hroot hq)
  | append_singleton p i ih =>
    rcases List.eq_nil_or_concat' q with rfl | ⟨q, j, rfl⟩
    · exact absurd (hnode ▸ hempty hq) (stopAt?_append_singleton_ne_root hv hroot hp)
    · obtain ⟨a', ha', hi, -⟩ := stopAt?_append_singleton.mp hp
      obtain ⟨b', hb', hj, -⟩ := stopAt?_append_singleton.mp hq
      rw [← hnode] at hj
      have hparent : a'.node.id = b'.node.id :=
        hsingle.parent_unique (mem_children.mp (List.mem_of_getElem? hi))
          (mem_children.mp (List.mem_of_getElem? hj))
      have hsame : a'.node = b'.node :=
        List.inj_on_of_nodup_map hv.nodup_ids (mem_of_stopAt? ha') (mem_of_stopAt? hb') hparent
      obtain rfl := ih ha' hb' hsame
      obtain ⟨hlt, -⟩ := List.getElem?_eq_some_iff.mp hi
      rw [← hparent, ← hi] at hj
      rw [(List.getElem?_inj hlt (hsingle.nodup_children _)).mp hj.symm]

end Root

/-! ## Scopes -/

/-- A scope tells the name of the entity nearest to a node, and whether an association is above. -/
structure Scope.Describes (s : Scope) (g : Graph) (id : NodeId) : Prop where
  entity_iff : ∀ name, s.entity = some name ↔ ∃ a, g.NearestEntity a id ∧ a.name = name
  inAssociation_iff : s.inAssociation = true ↔
    ∃ a, g.EntityAbove a id ∧ a.name = Entity.association.name

theorem ofName?_eq_association_iff {name : String} :
    (Entity.ofName? name == some .association) = true ↔ name = Entity.association.name := by
  rw [beq_iff_eq]
  exact Entity.ofName?_eq_some_iff

section Describes

variable {g : Graph} (hv : g.Valid)
include hv

/-- The empty scope describes the root. -/
theorem Scope.describes_root {root : NodeId} (hroot : g.root? = some root) :
    Scope.Describes {} g root where
  entity_iff name := by
    refine ⟨nofun, ?_⟩
    rintro ⟨a, hnearest, -⟩
    exact absurd hnearest.above (hv.not_entityAbove_root hroot a)
  inAssociation_iff := by
    refine ⟨nofun, ?_⟩
    rintro ⟨a, habove, -⟩
    exact absurd habove (hv.not_entityAbove_root hroot a)

variable (hsingle : g.SingleParents)
include hsingle

/-- The scope below a node describes its children, when the scope of the node describes it. -/
theorem Scope.Describes.below {s : Scope} {m : Node} {child : NodeId} (h : s.Describes g m.id)
    (hm : m ∈ g.nodes.toList) (hleads : g.Leads m.id child) : (s.below m).Describes g child := by
  have hnearest := hv.nearestEntity_child_iff hsingle hm hleads
  have habove := hv.entityAbove_child_iff hsingle hm hleads
  by_cases hkind : m.kind = .entity
  case pos =>
    have hbelow : s.below m = s.enter m.name := by simp [Scope.below, hkind]
    simp only [hkind, if_true, and_true] at hnearest habove
    constructor
    case entity_iff =>
      intro name
      simp [hbelow, Scope.enter, hnearest]
    case inAssociation_iff =>
      simp only [hbelow, Scope.enter, Bool.or_eq_true, h.inAssociation_iff,
        ofName?_eq_association_iff, habove, or_and_right, exists_or, exists_eq_left]
      exact or_comm
  case neg =>
    have hbelow : s.below m = s := by
      rw [Scope.below]
      split
      · next hentity => exact absurd hentity hkind
      · rfl
    simp only [hkind, if_false, and_false, false_or] at hnearest habove
    rw [hbelow]
    exact ⟨fun name => by simp only [h.entity_iff, hnearest],
      by simp only [h.inAssociation_iff, habove]⟩

/-- On a walk from the root every scope describes where it is. -/
theorem describes_of_stopAt? {root : NodeId} (hroot : g.root? = some root) {path : List Nat}
    {stop : Stop} (h : stopAt? g {} root path = some stop) :
    stop.scope.Describes g stop.node.id := by
  induction path using List.reverseRecOn generalizing stop with
  | nil =>
    obtain ⟨n, hn, rfl⟩ := Option.map_eq_some_iff.mp h
    rw [(mem_of_node?_eq_some hn).2]
    exact Scope.describes_root hv hroot
  | append_singleton path i ih =>
    obtain ⟨above, habove, hchild, -, hscope⟩ := stopAt?_append_singleton.mp h
    rw [hscope]
    exact (ih habove).below hv hsingle (mem_of_stopAt? habove)
      (mem_children.mp (List.mem_of_getElem? hchild))

end Describes

end Catalogue.Exchange
