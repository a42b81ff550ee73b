import Catalogue.Proofs.Graph.Peeling
import Mathlib.Algebra.Group.Nat.Defs

/-!
# Which graphs are valid

The checks of a graph, made one after another, accept exactly the valid graphs; and an error says
something that is true of the graph.

* `Graph.Valid` — what a valid graph is.
* `GraphError.Holds` — what an error says about a graph.
* `Graph.topology_ok` — the indices of a valid graph agree with the look-ups in its rows.
* `Graph.topology_correct` — acceptance, errors, and the counts of edges on the way.
-/

namespace Catalogue

namespace Graph

open Relation (TransGen)

/-! ## Valid graphs -/

/-- The numbers of the nodes. -/
def ids (g : Graph) : List NodeId := g.nodes.toList.map Node.id

/-- An edge leads from one node to the other. -/
def Leads (g : Graph) : NodeId → NodeId → Prop := LeadsTo g.edges.toList

structure Valid (g : Graph) : Prop where
  nodup_ids : g.ids.Nodup
  value_of_leaf : ∀ n ∈ g.nodes.toList, n.kind = .leaf → n.value.isSome
  one_root : g.nodes.toList.countP (fun n => n.kind = .root) = 1
  parent_mem : ∀ e ∈ g.edges.toList, e.parent ∈ g.ids
  child_mem : ∀ e ∈ g.edges.toList, e.child ∈ g.ids
  child_not_root : ∀ e ∈ g.edges.toList, ∀ n ∈ g.nodes.toList, n.kind = .root → e.child ≠ n.id
  parent_not_leaf : ∀ e ∈ g.edges.toList, ∀ n ∈ g.nodes.toList, n.kind = .leaf → e.parent ≠ n.id
  acyclic : ∀ id, ¬ TransGen g.Leads id id

/-- A valid graph has no more nodes than there are numbers. -/
theorem Valid.size_le {g : Graph} (h : g.Valid) : g.nodes.size ≤ 2 ^ 32 := by
  have hnumbers : (g.ids.map UInt32.toNat).Nodup := h.nodup_ids.map fun _ _ => UInt32.toNat.inj
  have hrange : g.ids.map UInt32.toNat ⊆ List.range (2 ^ 32) := by
    intro n hn
    obtain ⟨id, -, rfl⟩ := List.mem_map.mp hn
    exact List.mem_range.mpr id.toNat_lt
  have hlength := (List.subperm_of_subset hnumbers hrange).length_le
  rwa [List.length_range, List.length_map, ids, List.length_map, Array.length_toList] at hlength

/-- What an error says about a graph. -/
def GraphError.Holds (g : Graph) : GraphError → Prop
  | .rootCount count => g.nodes.toList.countP (fun n => n.kind = .root) = count ∧ count ≠ 1
  | .duplicateNode id => 2 ≤ g.ids.count id
  | .unknownNode parent child missing =>
    g.Leads parent child ∧ (missing = parent ∨ missing = child) ∧ missing ∉ g.ids
  | .rootHasParent root =>
    (∃ n ∈ g.nodes.toList, n.kind = .root ∧ n.id = root) ∧ ∃ parent, g.Leads parent root
  | .cycle id => id ∈ g.ids ∧ ∃ a, TransGen g.Leads a a ∧ (a = id ∨ TransGen g.Leads a id)
  | .missingValue id name =>
    ∃ n ∈ g.nodes.toList, n.id = id ∧ n.name = name ∧ n.kind = .leaf ∧ n.value = none
  | .attributeHasChildren id =>
    (∃ n ∈ g.nodes.toList, n.kind = .leaf ∧ n.id = id) ∧ ∃ child, g.Leads id child

/-- A valid graph has no error. -/
theorem GraphError.Holds.not_valid {g : Graph} {e : GraphError} (h : e.Holds g) : ¬ g.Valid := by
  intro hv
  cases e with
  | rootCount count => exact h.2 (h.1.symm.trans hv.one_root)
  | duplicateNode id =>
    have hle : g.ids.count id ≤ 1 := List.nodup_iff_count.mp hv.nodup_ids id
    have : 2 ≤ g.ids.count id := h
    omega
  | unknownNode parent child missing =>
    obtain ⟨hleads, rfl | rfl, hmissing⟩ := h
    · exact hmissing (hv.parent_mem _ hleads)
    · exact hmissing (hv.child_mem _ hleads)
  | rootHasParent root =>
    obtain ⟨⟨n, hn, hkind, rfl⟩, parent, hleads⟩ := h
    exact hv.child_not_root _ hleads n hn hkind rfl
  | cycle id =>
    obtain ⟨-, a, hcycle, -⟩ := h
    exact hv.acyclic a hcycle
  | missingValue id name =>
    obtain ⟨n, hn, -, -, hkind, hnone⟩ := h
    have := hv.value_of_leaf n hn hkind
    rw [hnone] at this
    cases this
  | attributeHasChildren id =>
    obtain ⟨⟨n, hn, hkind, rfl⟩, child, hleads⟩ := h
    exact hv.parent_not_leaf _ hleads n hn hkind rfl

/-! ## The index of the nodes -/

/-- A table has the first node of every number. -/
def Indexes (t : Index Node) (nodes : List Node) : Prop :=
  ∀ id, t.get? id = nodes.find? (fun n => n.id == id)

theorem indexes_empty : Indexes .empty [] := fun id => Index.get?_empty id

theorem Indexes.isSome_iff {t : Index Node} {nodes : List Node} (h : Indexes t nodes)
    (id : NodeId) : (t.get? id).isSome = true ↔ id ∈ nodes.map Node.id := by
  rw [h, List.find?_isSome]
  simp

theorem Indexes.update {t : Index Node} {nodes : List Node} (h : Indexes t nodes) {n : Node}
    (hnew : n.id ∉ nodes.map Node.id) : Indexes (t.update n.id fun _ => n) (nodes ++ [n]) := by
  intro id
  rw [List.find?_append]
  by_cases hid : n.id = id
  · subst hid
    have hnone : nodes.find? (fun m => m.id == n.id) = none := by
      rw [← h, ← Option.not_isSome_iff_eq_none, h.isSome_iff]
      exact hnew
    simp [Index.get?_update_self, hnone]
  · rw [Index.get?_update_of_ne _ _ hid, h]
    simp [hid]

/-- Indexing goes through all nodes when they have different numbers and the leaves have values. -/
theorem indexNodes_ok {seen rest : List Node} {t t' : Index Node} (hseen : Indexes t seen)
    (hnodup : (seen.map Node.id).Nodup) (h : indexNodes t rest = .ok t') :
    Indexes t' (seen ++ rest) ∧ ((seen ++ rest).map Node.id).Nodup ∧
      ∀ n ∈ rest, n.kind = .leaf → n.value.isSome := by
  induction rest generalizing seen t with
  | nil =>
    cases h
    simpa using ⟨hseen, hnodup⟩
  | cons n rest ih =>
    rw [indexNodes] at h
    split at h
    · cases h
    · rename_i hnew
      rw [hseen.isSome_iff] at hnew
      split at h
      · cases h
      · rename_i hvalue
        have hnodup' : ((seen ++ [n]).map Node.id).Nodup := by
          rw [List.map_append, (List.perm_append_comm).nodup_iff]
          exact List.nodup_cons.mpr ⟨hnew, hnodup⟩
        obtain ⟨hindex, hall, hvalues⟩ := ih (hseen.update hnew) hnodup' h
        rw [List.append_assoc] at hindex hall
        refine ⟨hindex, hall, fun m hm hkind => ?_⟩
        rcases List.mem_cons.mp hm with rfl | hm
        · rw [← Option.ne_none_iff_isSome]
          exact fun hnone => hvalue ⟨hkind, hnone⟩
        · exact hvalues m hm hkind

/-- Otherwise a number is repeated or a leaf has no value. -/
theorem indexNodes_error {seen rest : List Node} {t : Index Node} {e : GraphError}
    (hseen : Indexes t seen) (h : indexNodes t rest = .error e) :
    (∃ id, e = .duplicateNode id ∧ 2 ≤ ((seen ++ rest).map Node.id).count id) ∨
      ∃ n ∈ rest, e = .missingValue n.id n.name ∧ n.kind = .leaf ∧ n.value = none := by
  induction rest generalizing seen t with
  | nil => cases h
  | cons n rest ih =>
    rw [indexNodes] at h
    split at h
    · rename_i hold
      rw [hseen.isSome_iff] at hold
      cases h
      have := List.one_le_count_iff.mpr hold
      refine .inl ⟨n.id, rfl, ?_⟩
      rw [List.map_append, List.count_append, List.map_cons, List.count_cons_self]
      omega
    · rename_i hnew
      rw [hseen.isSome_iff] at hnew
      split at h
      · rename_i hvalue
        cases h
        exact .inr ⟨n, List.mem_cons_self, rfl, hvalue⟩
      · have hrest := ih (hseen.update hnew) h
        rw [List.append_assoc] at hrest
        refine hrest.imp id ?_
        rintro ⟨m, hm, hfails⟩
        exact ⟨m, List.mem_cons_of_mem _ hm, hfails⟩

/-! ## The root and the edges -/

theorem onlyRoot_ok {nodes : List Node} {root : NodeId} (h : onlyRoot nodes = .ok root) :
    ∃ n, nodes.filter (fun n => n.kind = .root) = [n] ∧ n.id = root := by
  rw [onlyRoot] at h
  split at h
  · rename_i n hfilter
    cases h
    exact ⟨n, hfilter, rfl⟩
  · cases h

theorem onlyRoot_error {nodes : List Node} {e : GraphError} (h : onlyRoot nodes = .error e) :
    ∃ count, e = .rootCount count ∧ nodes.countP (fun n => n.kind = .root) = count ∧
      count ≠ 1 := by
  rw [onlyRoot] at h
  split at h
  · cases h
  · rename_i hnot
    cases h
    refine ⟨_, rfl, List.countP_eq_length_filter, fun hone => ?_⟩
    obtain ⟨n, hn⟩ := List.length_eq_one_iff.mp hone
    exact hnot n hn

theorem edgeError?_eq_none {nodes : List Node} {index : Index Node} {root : NodeId} {e : Edge}
    (hindex : Indexes index nodes) (h : edgeError? index root e = none) :
    e.parent ∈ nodes.map Node.id ∧ e.child ∈ nodes.map Node.id ∧ e.child ≠ root ∧
      ∃ n, index.get? e.parent = some n ∧ n.kind ≠ .leaf := by
  rw [edgeError?] at h
  split at h
  · cases h
  · rename_i n hn
    have hparent : (index.get? e.parent).isSome = true := by rw [hn, Option.isSome_some]
    split at h
    · cases h
    · rename_i hchild
      rw [Option.isNone_iff_eq_none, ← Ne, Option.ne_none_iff_isSome] at hchild
      split at h
      · cases h
      · rename_i hroot
        split at h
        · cases h
        · rename_i hkind
          exact ⟨(hindex.isSome_iff _).mp hparent, (hindex.isSome_iff _).mp hchild, hroot, n, hn,
            hkind⟩

theorem edgeError?_eq_some {nodes : List Node} {index : Index Node} {root : NodeId} {e : Edge}
    {err : GraphError} (hindex : Indexes index nodes) (h : edgeError? index root e = some err) :
    (∃ missing, err = .unknownNode e.parent e.child missing ∧
        (missing = e.parent ∨ missing = e.child) ∧ missing ∉ nodes.map Node.id) ∨
      (err = .rootHasParent root ∧ e.child = root) ∨
      (err = .attributeHasChildren e.parent ∧ ∃ n ∈ nodes, n.kind = .leaf ∧ n.id = e.parent) := by
  have hmissing : ∀ {id}, index.get? id = none → id ∉ nodes.map Node.id := by
    intro id hnone
    rw [← hindex.isSome_iff, hnone]
    exact Bool.false_ne_true
  rw [edgeError?] at h
  split at h
  · rename_i hparent
    cases h
    exact .inl ⟨_, rfl, .inl rfl, hmissing hparent⟩
  · rename_i n hn
    split at h
    · rename_i hchild
      cases h
      exact .inl ⟨_, rfl, .inr rfl, hmissing (Option.isNone_iff_eq_none.mp hchild)⟩
    · split at h
      · rename_i hroot
        cases h
        exact .inr (.inl ⟨rfl, hroot⟩)
      · split at h
        · rename_i hkind
          cases h
          rw [hindex] at hn
          exact .inr (.inr ⟨rfl, n, List.mem_of_find?_eq_some hn, hkind,
            by simpa using List.find?_some hn⟩)
        · cases h

theorem checkEdges_ok {index : Index Node} {root : NodeId} {edges : List Edge}
    (h : checkEdges index root edges = .ok ()) :
    ∀ e ∈ edges, edgeError? index root e = none := by
  rw [checkEdges] at h
  split at h
  · cases h
  · rename_i hnone
    exact List.findSome?_eq_none_iff.mp hnone

theorem checkEdges_error {index : Index Node} {root : NodeId} {edges : List Edge}
    {err : GraphError} (h : checkEdges index root edges = .error err) :
    ∃ e ∈ edges, edgeError? index root e = some err := by
  rw [checkEdges] at h
  split at h
  · rename_i hsome
    cases h
    exact List.exists_of_findSome?_eq_some hsome
  · cases h

/-! ## All checks -/

/-- The checks before the one for cycles, all passed. -/
structure Checked (g : Graph) (index : Index Node) (root : NodeId) : Prop where
  indexed : indexNodes .empty g.nodes.toList = .ok index
  rooted : onlyRoot g.nodes.toList = .ok root
  joined : checkEdges index root g.edges.toList = .ok ()

/-- The nodes left when no more can be taken away. -/
def peeled (g : Graph) : Peeling := peel g.nodes.toList (connect g.nodes.toList g.edges.toList)

theorem topology_eq (g : Graph) :
    g.topology = (indexNodes .empty g.nodes.toList).bind fun index =>
      (onlyRoot g.nodes.toList).bind fun root =>
      (checkEdges index root g.edges.toList).bind fun _ =>
        if g.peeled.taken = g.nodes.toList.length then
          .ok ⟨root, g.nodes.toList, index, (connect g.nodes.toList g.edges.toList).children⟩
        else
          .error (.cycle
            (((g.nodes.toList.find? (hasParent g.peeled.degrees)).map Node.id).getD root)) := rfl

theorem topology_eq_ok {g : Graph} {t : Topology} (h : g.topology = .ok t) :
    ∃ index root, g.Checked index root ∧ g.peeled.taken = g.nodes.toList.length ∧
      t = ⟨root, g.nodes.toList, index, (connect g.nodes.toList g.edges.toList).children⟩ := by
  rw [topology_eq] at h
  cases hindex : indexNodes .empty g.nodes.toList with
  | error e => rw [hindex] at h; cases h
  | ok index =>
    cases hroot : onlyRoot g.nodes.toList with
    | error e => rw [hindex, hroot] at h; cases h
    | ok root =>
      cases hedges : checkEdges index root g.edges.toList with
      | error e => simp only [hindex, hroot, hedges, Except.bind] at h; cases h
      | ok _ =>
        simp only [hindex, hroot, hedges, Except.bind] at h
        split at h
        · rename_i htaken
          cases h
          exact ⟨index, root, ⟨hindex, hroot, hedges⟩, htaken, rfl⟩
        · cases h

theorem topology_eq_error {g : Graph} {e : GraphError} (h : g.topology = .error e) :
    indexNodes .empty g.nodes.toList = .error e ∨
      onlyRoot g.nodes.toList = .error e ∨
      (∃ index root, indexNodes .empty g.nodes.toList = .ok index ∧
        onlyRoot g.nodes.toList = .ok root ∧ checkEdges index root g.edges.toList = .error e) ∨
      ∃ index root, g.Checked index root ∧ g.peeled.taken ≠ g.nodes.toList.length ∧
        e = .cycle
          (((g.nodes.toList.find? (hasParent g.peeled.degrees)).map Node.id).getD root) := by
  rw [topology_eq] at h
  cases hindex : indexNodes .empty g.nodes.toList with
  | error e => rw [hindex] at h; cases h; exact .inl rfl
  | ok index =>
    cases hroot : onlyRoot g.nodes.toList with
    | error e => rw [hindex, hroot] at h; cases h; exact .inr (.inl rfl)
    | ok root =>
      cases hedges : checkEdges index root g.edges.toList with
      | error e =>
        simp only [hindex, hroot, hedges, Except.bind] at h
        cases h
        exact .inr (.inr (.inl ⟨index, root, rfl, rfl, hedges⟩))
      | ok _ =>
        simp only [hindex, hroot, hedges, Except.bind] at h
        split at h
        · cases h
        · rename_i htaken
          cases h
          exact .inr (.inr (.inr ⟨index, root, ⟨hindex, hroot, hedges⟩, htaken, rfl⟩))

section Checked

variable {g : Graph} {index : Index Node} {root : NodeId} (h : g.Checked index root)
include h

theorem Checked.indexes : Indexes index g.nodes.toList ∧ g.ids.Nodup ∧
    ∀ n ∈ g.nodes.toList, n.kind = .leaf → n.value.isSome :=
  indexNodes_ok indexes_empty List.nodup_nil h.indexed

theorem Checked.edge {e : Edge} (he : e ∈ g.edges.toList) :
    e.parent ∈ g.ids ∧ e.child ∈ g.ids ∧ e.child ≠ root ∧
      ∃ n, index.get? e.parent = some n ∧ n.kind ≠ .leaf :=
  edgeError?_eq_none h.indexes.1 (checkEdges_ok h.joined e he)

/-- Without a cycle a graph that passes the other checks is valid. -/
theorem Checked.valid (hacyclic : ∀ id, ¬ TransGen g.Leads id id) : g.Valid := by
  obtain ⟨hindex, hnodup, hvalue⟩ := h.indexes
  obtain ⟨r, hfilter, rfl⟩ := onlyRoot_ok h.rooted
  refine ⟨hnodup, hvalue, ?_, fun e he => (h.edge he).1, fun e he => (h.edge he).2.1, ?_, ?_,
    hacyclic⟩
  · rw [List.countP_eq_length_filter, hfilter]
    rfl
  · intro e he n hn hkind
    have hmem : n ∈ g.nodes.toList.filter (fun n => n.kind = .root) :=
      List.mem_filter.mpr ⟨hn, by simpa using hkind⟩
    rw [hfilter, List.mem_singleton] at hmem
    rw [hmem]
    exact (h.edge he).2.2.1
  · intro e he n hn hkind heq
    obtain ⟨m, hget, hnot⟩ := (h.edge he).2.2.2
    rw [hindex] at hget
    have hid : m.id = e.parent := by simpa using List.find?_some hget
    have hsame : m = n := List.inj_on_of_nodup_map hnodup (List.mem_of_find?_eq_some hget) hn
      (hid.trans heq)
    exact hnot (hsame ▸ hkind)

/-- A count of edges is at least one whenever it is lowered, and nodes are taken away until none
is ready. -/
theorem Checked.counted :
    (∀ p child, Peeling.Lowers g.nodes.toList g.edges.toList p child →
      ∃ d, p.degrees.get? child = some d ∧ 1 ≤ d) ∧ g.peeled.ready = [] := by
  have hnodup := h.indexes.2.1
  have hchild : ∀ e ∈ g.edges.toList, e.child ∈ g.ids := fun e he => (h.edge he).2.1
  obtain ⟨done, -, hend⟩ := balanced_peel hnodup hchild
  exact ⟨fun p child => Peeling.counted_of_lowers hnodup hchild, hend⟩

/-- When nodes are left the first one is on a cycle or behind one. -/
theorem Checked.stuck (htaken : g.peeled.taken ≠ g.nodes.toList.length) :
    (GraphError.cycle
      (((g.nodes.toList.find? (hasParent g.peeled.degrees)).map Node.id).getD root)).Holds g := by
  obtain ⟨n, hn, hfind, hcycle⟩ := exists_cycle_of_stuck h.indexes.2.1
    (fun e he => (h.edge he).1) (fun e he => (h.edge he).2.1) htaken
  rw [peeled, hfind]
  exact ⟨List.mem_map.mpr ⟨n, hn, rfl⟩, hcycle⟩

end Checked

theorem valid_of_topology_eq_ok {g : Graph} {t : Topology} (h : g.topology = .ok t) :
    g.Valid := by
  obtain ⟨index, root, hchecked, htaken, -⟩ := topology_eq_ok h
  exact hchecked.valid (no_cycle_of_taken hchecked.indexes.2.1
    (fun e he => (hchecked.edge he).2.1) htaken)

theorem holds_of_topology_eq_error {g : Graph} {e : GraphError} (h : g.topology = .error e) :
    e.Holds g := by
  rcases topology_eq_error h with h | h | ⟨index, root, hnodes, hroot, h⟩ |
    ⟨index, root, hchecked, htaken, rfl⟩
  · rcases indexNodes_error indexes_empty h with ⟨id, rfl, hcount⟩ | ⟨n, hn, rfl, hkind, hnone⟩
    · exact hcount
    · exact ⟨n, hn, rfl, rfl, hkind, hnone⟩
  · obtain ⟨count, rfl, hcount, hne⟩ := onlyRoot_error h
    exact ⟨hcount, hne⟩
  · have hindex := (indexNodes_ok indexes_empty List.nodup_nil hnodes).1
    obtain ⟨r, hfilter, hid⟩ := onlyRoot_ok hroot
    obtain ⟨e, he, herror⟩ := checkEdges_error h
    rcases edgeError?_eq_some hindex herror with ⟨missing, rfl, hend, hmissing⟩ |
      ⟨rfl, hchild⟩ | ⟨rfl, hleaf⟩
    · exact ⟨he, hend, hmissing⟩
    · have hr : r ∈ g.nodes.toList.filter (fun n => n.kind = .root) := by simp [hfilter]
      obtain ⟨hmem, hkind⟩ := List.mem_filter.mp hr
      exact ⟨⟨r, hmem, by simpa using hkind, hid⟩, e.parent, by rw [← hchild]; exact he⟩
    · exact ⟨hleaf, e.child, he⟩
  · exact hchecked.stuck htaken

/-! ## Valid graphs as they are read -/

/-- The indices of a valid graph agree with the look-ups in its rows. -/
theorem topology_ok {g : Graph} {t : Topology} (h : g.topology = .ok t) :
    t.nodes = g.nodes.toList ∧ g.root? = some t.root ∧ (∀ id, t.node? id = g.node? id) ∧
      ∀ id, t.children id = g.children id := by
  obtain ⟨index, root, hchecked, -, rfl⟩ := topology_eq_ok h
  obtain ⟨r, hfilter, rfl⟩ := onlyRoot_ok hchecked.rooted
  refine ⟨rfl, ?_, fun id => ?_, fun id => ?_⟩
  · rw [root?, ← Array.find?_toList, ← List.head?_filter, hfilter]
    rfl
  · rw [Topology.node?, hchecked.indexes.1, node?, Array.find?_toList]
  · exact get?_children_connect _ _ _

/-- A valid graph is accepted. -/
theorem Valid.exists_topology {g : Graph} (h : g.Valid) : ∃ t, g.topology = .ok t := by
  cases htopology : g.topology with
  | ok t => exact ⟨t, rfl⟩
  | error e => exact absurd h (holds_of_topology_eq_error htopology).not_valid

/-- Exactly the valid graphs are accepted, every error is true of the graph, and no count of edges
is lowered below zero on the way. -/
theorem topology_correct (g : Graph) :
    ((∃ t, g.topology = .ok t) ↔ g.Valid) ∧ (∀ e, g.topology = .error e → e.Holds g) ∧
      ∀ index root, g.Checked index root →
        (∀ p child, Peeling.Lowers g.nodes.toList g.edges.toList p child →
          ∃ d, p.degrees.get? child = some d ∧ 1 ≤ d) ∧ g.peeled.ready = [] := by
  refine ⟨⟨?_, Valid.exists_topology⟩, fun e => holds_of_topology_eq_error,
    fun index root => Checked.counted⟩
  rintro ⟨t, h⟩
  exact valid_of_topology_eq_ok h

end Graph

end Catalogue
