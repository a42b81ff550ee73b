import Catalogue.Proofs.Graph.Valid

/-!
# The node that a cycle is reported at

When no more nodes can be taken away, those that are left lie on a cycle or behind one, and the
report names the first of them in the row of nodes. The named node lies on a cycle itself exactly
when every node that is only behind a cycle comes after one on a cycle.

* `Graph.OnCycle`, `Graph.Held` — a node on a cycle, and one on a cycle or behind one.
* `Graph.firstHeld_of_topology` — the report names the first node that is held.
* `cycle_reported` — when that node is on a cycle.
-/

namespace Catalogue

open Catalogue.Graph
open Relation (ReflTransGen TransGen)

namespace Graph

/-! ## Cycles -/

/-- A path of edges leads from the node back to it. -/
def OnCycle (g : Graph) (id : NodeId) : Prop := TransGen g.Leads id id

/-- A path of edges, which may be empty, leads from a cycle to the node. -/
def Held (g : Graph) (id : NodeId) : Prop := ∃ a, g.OnCycle a ∧ ReflTransGen g.Leads a id

theorem OnCycle.held {g : Graph} {id : NodeId} (h : g.OnCycle id) : g.Held id := ⟨id, h, .refl⟩

theorem held_iff {g : Graph} {id : NodeId} :
    g.Held id ↔ ∃ a, TransGen g.Leads a a ∧ (a = id ∨ TransGen g.Leads a id) := by
  constructor
  · rintro ⟨a, hcycle, hpath⟩
    rcases Relation.reflTransGen_iff_eq_or_transGen.mp hpath with rfl | hpath
    · exact ⟨id, hcycle, .inl rfl⟩
    · exact ⟨a, hcycle, .inr hpath⟩
  · rintro ⟨a, hcycle, rfl | hpath⟩
    · exact ⟨a, hcycle, .refl⟩
    · exact ⟨a, hcycle, hpath.to_reflTransGen⟩

/-- The number is that of the first node in the row that is on a cycle or behind one. -/
def FirstHeld (g : Graph) (id : NodeId) : Prop :=
  ∃ before n after, g.nodes.toList = before ++ n :: after ∧ n.id = id ∧ g.Held id ∧
    ∀ m ∈ before, ¬ g.Held m.id

/-- In the row of nodes, one that is only behind a cycle comes after one that is on a cycle. -/
def CyclesLead (g : Graph) : Prop :=
  ∀ before n after, g.nodes.toList = before ++ n :: after → g.Held n.id → ¬ g.OnCycle n.id →
    ∃ m ∈ before, g.OnCycle m.id

theorem FirstHeld.onCycle_iff {g : Graph} {id : NodeId} (h : g.FirstHeld id) :
    g.OnCycle id ↔ g.CyclesLead := by
  obtain ⟨before, n, after, hrow, rfl, hheld, hfirst⟩ := h
  constructor
  · intro hcycle before' m after' hrow' hheld' hnot
    -- the first held node is not behind `m`, and it is not `m`
    rcases List.append_eq_append_iff.mp (hrow.symm.trans hrow') with ⟨l, hl, hl'⟩ | ⟨l, hl, hl'⟩
    · cases l with
      | nil =>
        obtain rfl : n = m := by simpa using (List.cons.inj hl').1
        exact absurd hcycle hnot
      | cons x l =>
        obtain rfl : n = x := (List.cons.inj hl').1
        exact ⟨n, by simp [hl], hcycle⟩
    · cases l with
      | nil =>
        obtain rfl : m = n := (List.cons.inj hl').1
        exact absurd hcycle hnot
      | cons x l =>
        obtain rfl : m = x := (List.cons.inj hl').1
        exact absurd hheld' (hfirst m (by simp [hl]))
  · intro hlead
    by_contra hnot
    obtain ⟨m, hm, hcycle⟩ := hlead before n after hrow hheld hnot
    exact hfirst m hm hcycle.held

/-! ## The report -/

section Checked

variable {g : Graph} {index : Index Node} {root : NodeId} (h : g.Checked index root)
include h

/-- When the other checks pass, the nodes that are left are those that are held. -/
theorem Checked.hasParent_iff_held {n : Node} (hn : n ∈ g.nodes.toList) :
    hasParent g.peeled.degrees n = true ↔ g.Held n.id := by
  have hparent : ∀ e ∈ g.edges.toList, e.parent ∈ g.ids := fun e he => (h.edge he).1
  have hchild : ∀ e ∈ g.edges.toList, e.child ∈ g.ids := fun e he => (h.edge he).2.1
  rw [held_iff, peeled]
  exact hasParent_peel_iff h.indexes.2.1 hparent hchild hn

end Checked

/-- The report of a cycle names the first node that is on a cycle or behind one. -/
theorem firstHeld_of_topology {g : Graph} {id : NodeId} (h : g.topology = .error (.cycle id)) :
    g.FirstHeld id := by
  rcases topology_eq_error h with h | h | ⟨index, root, hnodes, hroot, h⟩ |
    ⟨index, root, hchecked, htaken, heq⟩
  -- no other check reports a cycle
  · rcases indexNodes_error indexes_empty h with ⟨_, heq, -⟩ | ⟨_, -, heq, -⟩ <;> cases heq
  · obtain ⟨_, heq, -⟩ := onlyRoot_error h
    cases heq
  · have hindex := (indexNodes_ok indexes_empty List.nodup_nil hnodes).1
    obtain ⟨e, -, herror⟩ := checkEdges_error h
    rcases edgeError?_eq_some hindex herror with ⟨_, heq, -⟩ | ⟨heq, -⟩ | ⟨heq, -⟩ <;> cases heq
  · have hparent : ∀ e ∈ g.edges.toList, e.parent ∈ g.ids := fun e he => (hchecked.edge he).1
    have hchild : ∀ e ∈ g.edges.toList, e.child ∈ g.ids := fun e he => (hchecked.edge he).2.1
    obtain ⟨n, hn, hfind, -⟩ :=
      exists_cycle_of_stuck hchecked.indexes.2.1 hparent hchild htaken
    obtain ⟨hleft, before, after, hrow, hbefore⟩ := List.find?_eq_some_iff_append.mp hfind
    have hid : id = n.id := by
      rw [peeled, hfind] at heq
      exact GraphError.cycle.inj heq
    refine ⟨before, n, after, hrow, hid.symm, ?_, fun m hm hheld => ?_⟩
    · rw [hid]
      exact (hchecked.hasParent_iff_held hn).mp hleft
    · have hm' : m ∈ g.nodes.toList := by simp [hrow, hm]
      have hnot := hbefore m hm
      rw [Bool.not_eq_true', ← Bool.not_eq_true] at hnot
      exact hnot ((hchecked.hasParent_iff_held hm').mpr hheld)

/-- The report of a cycle names the first node that is on a cycle or behind one, and this node is
on a cycle exactly when every node that is only behind a cycle comes after one on a cycle. -/
theorem cycle_reported {g : Graph} {id : NodeId} (h : g.topology = .error (.cycle id)) :
    g.FirstHeld id ∧ (g.OnCycle id ↔ g.CyclesLead) := by
  have hfirst := firstHeld_of_topology h
  exact ⟨hfirst, hfirst.onCycle_iff⟩

/-- A root and three entities; the edges run between the last three. -/
def threeBeside (edges : List Edge) : Graph where
  nodes := #[⟨0, .root, "r", none⟩, ⟨1, .entity, "file", none⟩, ⟨2, .entity, "card", none⟩,
    ⟨3, .entity, "part", none⟩]
  edges := edges.toArray

theorem cycle_reported_leading :
    (threeBeside [⟨1, 2⟩, ⟨2, 1⟩, ⟨2, 3⟩]).topology = .error (.cycle 1) ∧
      (threeBeside [⟨1, 2⟩, ⟨2, 1⟩, ⟨2, 3⟩]).FirstHeld 1 ∧
      (threeBeside [⟨1, 2⟩, ⟨2, 1⟩, ⟨2, 3⟩]).CyclesLead := by
  have hreport : (threeBeside [⟨1, 2⟩, ⟨2, 1⟩, ⟨2, 3⟩]).topology = .error (.cycle 1) := rfl
  have hcycle : (threeBeside [⟨1, 2⟩, ⟨2, 1⟩, ⟨2, 3⟩]).OnCycle 1 :=
    .tail (b := 2) (.single (by simp [Leads, LeadsTo, threeBeside]))
      (by simp [Leads, LeadsTo, threeBeside])
  obtain ⟨hfirst, hiff⟩ := cycle_reported hreport
  exact ⟨hreport, hfirst, hiff.mp hcycle⟩

/-- A node that is only behind a cycle is reported when it comes first. -/
theorem not_onCycle_of_reported :
    (threeBeside [⟨2, 3⟩, ⟨3, 2⟩, ⟨3, 1⟩]).topology = .error (.cycle 1) ∧
      ¬ (threeBeside [⟨2, 3⟩, ⟨3, 2⟩, ⟨3, 1⟩]).OnCycle 1 := by
  refine ⟨rfl, fun hcycle => ?_⟩
  obtain ⟨child, hleads, -⟩ := Relation.TransGen.head'_iff.mp hcycle
  simp [Leads, LeadsTo, threeBeside] at hleads

end Graph

end Catalogue
