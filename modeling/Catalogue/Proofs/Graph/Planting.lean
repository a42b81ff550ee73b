import Catalogue.Proofs.Graph.Valid
import Mathlib.Algebra.Group.Nat.Defs

/-!
# Planted graphs

A branch is a node with what is below it. Planting a branch adds its nodes one after another, each
before those below it, so that they get the numbers of that order and every edge leads to a greater
number.

* `plant` — adds a branch to a graph.
* `plant_spec` — the nodes and edges that this appends.
* `Planted` — a graph that is one branch; `Planted.valid` and `Planted.holds` say that it is valid
  and that looking around in it finds the branch.
-/

namespace Catalogue.Graph

open Relation (TransGen)

/-! ## Branches -/

/-- A node with what is below it. -/
inductive Branch where
  | node (kind : NodeRole) (name : String) (value : Option Value) (below : List Branch)

namespace Branch

mutual

/-- How many nodes a branch has. -/
def size : Branch → Nat
  | node _ _ _ below => sizes below + 1

def sizes : List Branch → Nat
  | [] => 0
  | b :: rest => b.size + sizes rest

end

mutual

/-- The nodes of a branch, numbered in order. -/
def nodes (k : Nat) : Branch → List Node
  | node kind name value below => ⟨UInt32.ofNat k, kind, name, value⟩ :: nodesAll (k + 1) below

def nodesAll (k : Nat) : List Branch → List Node
  | [] => []
  | b :: rest => b.nodes k ++ nodesAll (k + b.size) rest

end

mutual

/-- The edges inside a branch. -/
def edges (k : Nat) : Branch → List Edge
  | node _ _ _ below => edgesAll k (k + 1) below

/-- The edges from a parent to branches, and those inside them. -/
def edgesAll (parent k : Nat) : List Branch → List Edge
  | [] => []
  | b :: rest =>
    ⟨UInt32.ofNat parent, UInt32.ofNat k⟩ :: (b.edges k ++ edgesAll parent (k + b.size) rest)

end

/-- The numbers of the first nodes of branches. -/
def starts (k : Nat) : List Branch → List NodeId
  | [] => []
  | b :: rest => UInt32.ofNat k :: starts (k + b.size) rest

theorem size_pos (b : Branch) : 0 < b.size := by
  cases b
  rw [size]
  exact Nat.succ_pos _

/-! ## The numbers in a branch -/

theorem toNat_ofNat {k : Nat} (h : k < 2 ^ 32) : (UInt32.ofNat k).toNat = k :=
  UInt32.toNat_ofNat_of_lt' h

mutual

theorem map_toNat_nodes : ∀ (b : Branch) {k : Nat}, k + b.size ≤ 2 ^ 32 →
    (b.nodes k).map (fun n => n.id.toNat) = List.range' k b.size
  | node kind name value below, k, h => by
    rw [size] at h ⊢
    rw [nodes, List.map_cons, map_toNat_nodesAll below (by omega), List.range'_succ,
      toNat_ofNat (by omega)]

theorem map_toNat_nodesAll : ∀ (bs : List Branch) {k : Nat}, k + sizes bs ≤ 2 ^ 32 →
    (nodesAll k bs).map (fun n => n.id.toNat) = List.range' k (sizes bs)
  | [], k, _ => rfl
  | b :: rest, k, h => by
    rw [sizes] at h ⊢
    rw [nodesAll, List.map_append, map_toNat_nodes b (by omega), map_toNat_nodesAll rest (by omega),
      List.range'_append_1]

end

mutual

/-- An edge inside a branch leads from one of its nodes to a later one. -/
theorem edges_bounds : ∀ (b : Branch) {k : Nat}, k + b.size ≤ 2 ^ 32 → ∀ e ∈ b.edges k,
    k ≤ e.parent.toNat ∧ e.parent.toNat < e.child.toNat ∧ e.child.toNat < k + b.size
  | node kind name value below, k, h => by
    intro e he
    rw [size] at h ⊢
    have := edgesAll_bounds below (k := k + 1) (by omega) (by omega) e he
    omega

theorem edgesAll_bounds : ∀ (bs : List Branch) {parent k : Nat}, parent < k →
    k + sizes bs ≤ 2 ^ 32 → ∀ e ∈ edgesAll parent k bs,
    (e.parent.toNat = parent ∨ k ≤ e.parent.toNat) ∧ e.parent.toNat < e.child.toNat ∧
      k ≤ e.child.toNat ∧ e.child.toNat < k + sizes bs
  | [], _, _, _, _ => by
    intro e he
    rw [edgesAll] at he
    cases he
  | b :: rest, parent, k, hlt, h => by
    intro e he
    have := b.size_pos
    rw [sizes] at h ⊢
    rw [edgesAll, List.mem_cons, List.mem_append] at he
    rcases he with rfl | he | he
    · dsimp only
      rw [toNat_ofNat (by omega), toNat_ofNat (by omega)]
      omega
    · have := edges_bounds b (by omega) e he
      omega
    · have := edgesAll_bounds rest (k := k + b.size) (by omega) (by omega) e he
      omega

end

end Branch

/-! ## Children -/

theorem childrenOf_append (es fs : List Edge) (id : NodeId) :
    childrenOf (es ++ fs) id = childrenOf es id ++ childrenOf fs id := by simp [childrenOf]

theorem childrenOf_cons_self (parent child : NodeId) (es : List Edge) :
    childrenOf (⟨parent, child⟩ :: es) parent = child :: childrenOf es parent := by
  simp [childrenOf]

theorem childrenOf_cons_of_ne {parent id : NodeId} (child : NodeId) (es : List Edge)
    (h : parent ≠ id) : childrenOf (⟨parent, child⟩ :: es) id = childrenOf es id := by
  simp [childrenOf, h]

theorem childrenOf_eq_nil (es : List Edge) {id : NodeId} (h : ∀ e ∈ es, e.parent ≠ id) :
    childrenOf es id = [] := by
  rw [childrenOf, List.map_eq_nil_iff, List.filter_eq_nil_iff]
  intro e he
  simpa using h e he

namespace Branch

/-- The children of the parent are the first nodes of the branches. -/
theorem childrenOf_edgesAll_self : ∀ (bs : List Branch) {parent k : Nat}, parent < k →
    k + sizes bs ≤ 2 ^ 32 →
    childrenOf (edgesAll parent k bs) (UInt32.ofNat parent) = starts k bs
  | [], _, _, _, _ => rfl
  | b :: rest, parent, k, hlt, h => by
    have hpos := b.size_pos
    rw [sizes] at h
    have hinside : childrenOf (b.edges k) (UInt32.ofNat parent) = [] := by
      refine childrenOf_eq_nil _ fun e he heq => ?_
      have := edges_bounds b (by omega) e he
      rw [heq, toNat_ofNat (by omega)] at this
      omega
    rw [edgesAll, childrenOf_cons_self, childrenOf_append, hinside, List.nil_append,
      childrenOf_edgesAll_self rest (by omega) (by omega), starts]

/-- The children of a node inside branches are found in its branch. -/
theorem childrenOf_edgesAll_of_mem {b : Branch} {rest : List Branch} {parent k i : Nat}
    (hlt : parent < k) (h : k + sizes (b :: rest) ≤ 2 ^ 32) (hi : k ≤ i)
    (hi' : i < k + sizes (b :: rest)) :
    childrenOf (edgesAll parent k (b :: rest)) (UInt32.ofNat i) =
      if i < k + b.size then childrenOf (b.edges k) (UInt32.ofNat i)
      else childrenOf (edgesAll parent (k + b.size) rest) (UInt32.ofNat i) := by
  have hpos := b.size_pos
  rw [sizes] at h hi'
  have hne : UInt32.ofNat parent ≠ UInt32.ofNat i := by
    intro heq
    have := congrArg UInt32.toNat heq
    rw [toNat_ofNat (by omega), toNat_ofNat (by omega)] at this
    omega
  rw [edgesAll, childrenOf_cons_of_ne _ _ hne, childrenOf_append]
  split
  · next hin =>
    rw [childrenOf_eq_nil (edgesAll parent (k + b.size) rest), List.append_nil]
    intro e he heq
    have := edgesAll_bounds rest (k := k + b.size) (by omega) (by omega) e he
    rw [heq, toNat_ofNat (by omega)] at this
    omega
  · next hout =>
    rw [childrenOf_eq_nil (b.edges k), List.nil_append]
    intro e he heq
    have := edges_bounds b (by omega) e he
    rw [heq, toNat_ofNat (by omega)] at this
    omega

end Branch

/-! ## Looking around in a graph -/

/-- The branches with these numbers are in a graph. -/
structure HoldsAll (g : Graph) (parent k : Nat) (bs : List Branch) : Prop where
  node : ∀ n ∈ Branch.nodesAll k bs, g.node? n.id = some n
  children : ∀ i, k ≤ i → i < k + Branch.sizes bs →
    g.children (UInt32.ofNat i) = childrenOf (Branch.edgesAll parent k bs) (UInt32.ofNat i)

/-- The branch with this number is in a graph. -/
structure Holds (g : Graph) (k : Nat) (b : Branch) : Prop where
  node : ∀ n ∈ b.nodes k, g.node? n.id = some n
  children : ∀ i, k ≤ i → i < k + b.size →
    g.children (UInt32.ofNat i) = childrenOf (b.edges k) (UInt32.ofNat i)

section Holds

variable {g : Graph} {k : Nat} {b : Branch} {rest : List Branch} {kind : NodeRole} {name : String}
  {value : Option Value} {below : List Branch}

/-- At its number is the first node of a branch. -/
theorem Holds.node?_eq (h : Holds g k (.node kind name value below)) :
    g.node? (UInt32.ofNat k) = some ⟨UInt32.ofNat k, kind, name, value⟩ := by
  refine h.node ⟨UInt32.ofNat k, kind, name, value⟩ ?_
  rw [Branch.nodes]
  exact List.mem_cons_self

theorem Holds.children_eq (h : Holds g k (.node kind name value below))
    (hlt : k + (Branch.node kind name value below).size ≤ 2 ^ 32) :
    g.children (UInt32.ofNat k) = Branch.starts (k + 1) below := by
  rw [Branch.size] at hlt
  rw [h.children k (Nat.le_refl k) (by rw [Branch.size]; omega), Branch.edges]
  exact Branch.childrenOf_edgesAll_self below (by omega) (by omega)

theorem Holds.inside (h : Holds g k (.node kind name value below)) :
    HoldsAll g k (k + 1) below := by
  refine ⟨fun n hn => h.node n ?_, fun i hi hi' => ?_⟩
  · rw [Branch.nodes]
    exact List.mem_cons_of_mem _ hn
  · rw [h.children i (by omega) (by rw [Branch.size]; omega), Branch.edges]

variable {parent : Nat}

theorem HoldsAll.head (h : HoldsAll g parent k (b :: rest)) (hlt : parent < k)
    (hsize : k + Branch.sizes (b :: rest) ≤ 2 ^ 32) : Holds g k b := by
  refine ⟨fun n hn => h.node n ?_, fun i hi hi' => ?_⟩
  · rw [Branch.nodesAll]
    exact List.mem_append_left _ hn
  · have hin : i < k + Branch.sizes (b :: rest) := by
      rw [Branch.sizes]
      omega
    rw [h.children i hi hin, Branch.childrenOf_edgesAll_of_mem hlt hsize hi hin, if_pos hi']

theorem HoldsAll.tail (h : HoldsAll g parent k (b :: rest)) (hlt : parent < k)
    (hsize : k + Branch.sizes (b :: rest) ≤ 2 ^ 32) :
    HoldsAll g parent (k + b.size) rest := by
  refine ⟨fun n hn => h.node n ?_, fun i hi hi' => ?_⟩
  · rw [Branch.nodesAll]
    exact List.mem_append_right _ hn
  · have hin : i < k + Branch.sizes (b :: rest) := by
      rw [Branch.sizes]
      omega
    rw [h.children i (by omega) hin, Branch.childrenOf_edgesAll_of_mem hlt hsize (by omega) hin,
      if_neg (by omega)]

end Holds

/-! ## Planting -/

mutual

/-- Adds a branch under a node. -/
def plant (g : Graph) (parent : NodeId) : Branch → Graph
  | .node kind name value below =>
    let (g, id) := g.add parent kind name value
    plantAll g id below

def plantAll (g : Graph) (parent : NodeId) : List Branch → Graph
  | [] => g
  | b :: rest => plantAll (plant g parent b) parent rest

end

/-- As long as there are numbers left, the next one is the count of nodes. -/
def Counting (g : Graph) : Prop :=
  g.nodes.size < 2 ^ 32 → g.cursor = some (UInt32.ofNat g.nodes.size, g.nodes.size)

theorem Counting.nextId_eq {g : Graph} (h : Counting g) (hsize : g.nodes.size < 2 ^ 32) :
    g.nextId = UInt32.ofNat g.nodes.size := by
  rw [nextId, h hsize]
  exact if_pos rfl

theorem push_spec {g : Graph} (hid : g.nextId = UInt32.ofNat g.nodes.size)
    (hsize : g.nodes.size + 1 ≤ 2 ^ 32) (kind : NodeRole) (name : String) (value : Option Value) :
    Counting (g.push kind name value).1 ∧
      (g.push kind name value).2 = UInt32.ofNat g.nodes.size ∧
      (g.push kind name value).1.nodes.toList =
        g.nodes.toList ++ [⟨UInt32.ofNat g.nodes.size, kind, name, value⟩] ∧
      (g.push kind name value).1.edges = g.edges := by
  have hnext : g.nextId + 1 = UInt32.ofNat (g.nodes.size + 1) := by
    rw [hid, UInt32.ofNat_add]
    rfl
  refine ⟨fun hroom => ?_, hid, by simp [push, hid], rfl⟩
  have hlt : g.nextId.toNat < lastId := by
    rw [push, Array.size_push] at hroom
    rw [hid, Branch.toNat_ofNat (by omega)]
    unfold lastId
    omega
  simp only [push, if_pos hlt, hnext, Array.size_push]

theorem add_spec {g : Graph} (h : Counting g) (hsize : g.nodes.size + 1 ≤ 2 ^ 32)
    (parent : NodeId) (kind : NodeRole) (name : String) (value : Option Value) :
    Counting (g.add parent kind name value).1 ∧
      (g.add parent kind name value).2 = UInt32.ofNat g.nodes.size ∧
      (g.add parent kind name value).1.nodes.toList =
        g.nodes.toList ++ [⟨UInt32.ofNat g.nodes.size, kind, name, value⟩] ∧
      (g.add parent kind name value).1.edges.toList =
        g.edges.toList ++ [⟨parent, UInt32.ofNat g.nodes.size⟩] := by
  obtain ⟨hcount, hid, hnodes, hedges⟩ := push_spec (h.nextId_eq hsize) hsize kind name value
  refine ⟨hcount, hid, hnodes, ?_⟩
  simp only [add]
  rw [Array.toList_push, hedges, hid]

mutual

/-- Planting a branch appends its nodes and edges. -/
theorem plant_spec : ∀ (b : Branch) (parent : Nat) {g : Graph}, Counting g →
    g.nodes.size + b.size ≤ 2 ^ 32 →
    Counting (plant g (UInt32.ofNat parent) b) ∧
      (plant g (UInt32.ofNat parent) b).nodes.toList = g.nodes.toList ++ b.nodes g.nodes.size ∧
      (plant g (UInt32.ofNat parent) b).edges.toList = g.edges.toList ++
        ⟨UInt32.ofNat parent, UInt32.ofNat g.nodes.size⟩ :: b.edges g.nodes.size
  | .node kind name value below, parent, g, h, hsize => by
    rw [Branch.size] at hsize
    obtain ⟨hcount, hid, hnodes, hedges⟩ :=
      add_spec h (by omega) (UInt32.ofNat parent) kind name value
    have hlength : (g.add (UInt32.ofNat parent) kind name value).1.nodes.size =
        g.nodes.size + 1 := by
      rw [← Array.length_toList, hnodes, List.length_append, Array.length_toList]
      rfl
    obtain ⟨hcount', hnodes', hedges'⟩ :=
      plantAll_spec below g.nodes.size hcount (by omega)
    rw [hnodes, hlength] at hnodes'
    rw [hedges, hlength] at hedges'
    rw [plant]
    simp only [hid]
    refine ⟨hcount', ?_, ?_⟩
    · rw [hnodes', Branch.nodes, List.append_assoc]
      rfl
    · rw [hedges', Branch.edges, List.append_assoc]
      rfl

theorem plantAll_spec : ∀ (bs : List Branch) (parent : Nat) {g : Graph}, Counting g →
    g.nodes.size + Branch.sizes bs ≤ 2 ^ 32 →
    Counting (plantAll g (UInt32.ofNat parent) bs) ∧
      (plantAll g (UInt32.ofNat parent) bs).nodes.toList =
        g.nodes.toList ++ Branch.nodesAll g.nodes.size bs ∧
      (plantAll g (UInt32.ofNat parent) bs).edges.toList =
        g.edges.toList ++ Branch.edgesAll parent g.nodes.size bs
  | [], parent, g, h, _ => by
    rw [plantAll, Branch.nodesAll, Branch.edgesAll, List.append_nil, List.append_nil]
    exact ⟨h, rfl, rfl⟩
  | b :: rest, parent, g, h, hsize => by
    rw [Branch.sizes] at hsize
    obtain ⟨hcount, hnodes, hedges⟩ := plant_spec b parent h (by omega)
    have hlength : (plant g (UInt32.ofNat parent) b).nodes.size = g.nodes.size + b.size := by
      have hmap := Branch.map_toNat_nodes b (k := g.nodes.size) (by omega)
      have hcount := congrArg List.length hmap
      rw [List.length_map, List.length_range'] at hcount
      rw [← Array.length_toList, hnodes, List.length_append, Array.length_toList, hcount]
    obtain ⟨hcount', hnodes', hedges'⟩ :=
      plantAll_spec rest parent hcount (by omega)
    rw [hnodes, hlength] at hnodes'
    rw [hedges, hlength] at hedges'
    rw [plantAll]
    refine ⟨hcount', ?_, ?_⟩
    · rw [hnodes', Branch.nodesAll, List.append_assoc]
    · rw [hedges', Branch.edgesAll, List.append_assoc]
      rfl

end

/-! ## Planted graphs -/

namespace Branch

mutual

/-- No node is a root, and a leaf has a value and nothing below it. -/
def Sound : Branch → Prop
  | node kind _ value below =>
    kind ≠ .root ∧ (kind = .leaf → value.isSome ∧ below = []) ∧ AllSound below

def AllSound : List Branch → Prop
  | [] => True
  | b :: rest => b.Sound ∧ AllSound rest

end

mutual

theorem Sound.nodes : ∀ {b : Branch}, b.Sound → ∀ {k : Nat}, ∀ n ∈ b.nodes k,
    n.kind ≠ .root ∧ (n.kind = .leaf → n.value.isSome)
  | node kind name value below, h, k => by
    obtain ⟨hroot, hleaf, hbelow⟩ := h
    intro n hn
    rw [Branch.nodes, List.mem_cons] at hn
    rcases hn with rfl | hn
    · exact ⟨hroot, fun hkind => (hleaf hkind).1⟩
    · exact AllSound.nodes hbelow n hn

theorem AllSound.nodes : ∀ {bs : List Branch}, AllSound bs → ∀ {k : Nat}, ∀ n ∈ nodesAll k bs,
    n.kind ≠ .root ∧ (n.kind = .leaf → n.value.isSome)
  | [], _, _ => by
    intro n hn
    cases hn
  | b :: rest, h, k => by
    intro n hn
    rw [nodesAll, List.mem_append] at hn
    rcases hn with hn | hn
    · exact Sound.nodes h.1 n hn
    · exact AllSound.nodes h.2 n hn

end

mutual

/-- An edge inside a branch does not start at a leaf. -/
theorem Sound.edges : ∀ {b : Branch}, b.Sound → ∀ {k : Nat}, ∀ e ∈ b.edges k,
    ∃ n ∈ b.nodes k, n.id = e.parent ∧ n.kind ≠ .leaf
  | node kind name value below, h, k => by
    obtain ⟨-, hleaf, hbelow⟩ := h
    intro e he
    rw [Branch.edges] at he
    rw [Branch.nodes]
    rcases AllSound.edges hbelow e he with hparent | ⟨n, hn, hid, hkind⟩
    · refine ⟨_, List.mem_cons_self, hparent.symm, fun hkind => ?_⟩
      rw [(hleaf hkind).2, edgesAll] at he
      cases he
    · exact ⟨n, List.mem_cons_of_mem _ hn, hid, hkind⟩

theorem AllSound.edges : ∀ {bs : List Branch}, AllSound bs → ∀ {parent k : Nat},
    ∀ e ∈ edgesAll parent k bs, e.parent = UInt32.ofNat parent ∨
      ∃ n ∈ nodesAll k bs, n.id = e.parent ∧ n.kind ≠ .leaf
  | [], _, _, _ => by
    intro e he
    rw [edgesAll] at he
    cases he
  | b :: rest, h, parent, k => by
    intro e he
    rw [edgesAll, List.mem_cons, List.mem_append] at he
    rw [nodesAll]
    rcases he with rfl | he | he
    · exact .inl rfl
    · obtain ⟨n, hn, hid, hkind⟩ := Sound.edges h.1 e he
      exact .inr ⟨n, List.mem_append_left _ hn, hid, hkind⟩
    · refine (AllSound.edges h.2 e he).imp id ?_
      rintro ⟨n, hn, hid, hkind⟩
      exact ⟨n, List.mem_append_right _ hn, hid, hkind⟩

end

end Branch

/-- A graph is one branch. -/
structure Planted (g : Graph) (b : Branch) : Prop where
  nodes_eq : g.nodes.toList = b.nodes 0
  edges_eq : g.edges.toList = b.edges 0
  size_le : b.size ≤ 2 ^ 32

/-- A root with branches planted under it is one branch. -/
theorem planted_plantAll (name : String) (bs : List Branch) (h : Branch.sizes bs + 1 ≤ 2 ^ 32) :
    Planted (plantAll (Graph.ofRoot name).1 (Graph.ofRoot name).2 bs)
      (.node .root name none bs) := by
  obtain ⟨hcount, hid, hnodes, hedges⟩ :=
    push_spec (g := {}) rfl (by decide) .root name none
  have hlength : (Graph.ofRoot name).1.nodes.size = 1 := rfl
  obtain ⟨-, hnodes', hedges'⟩ := plantAll_spec bs 0 hcount (by
    show (Graph.ofRoot name).1.nodes.size + _ ≤ _
    omega)
  refine ⟨hnodes', hedges', ?_⟩
  rw [Branch.size]
  omega

section Planted

variable {g : Graph} {b : Branch}

theorem Planted.nodup_ids (h : Planted g b) : g.ids.Nodup := by
  have hmap : (g.ids.map UInt32.toNat).Nodup := by
    rw [ids, List.map_map, h.nodes_eq]
    show ((b.nodes 0).map fun n => n.id.toNat).Nodup
    rw [Branch.map_toNat_nodes b (by have := h.size_le; omega)]
    exact List.nodup_range'
  exact hmap.of_map

/-- The numbers of the nodes are the first ones. -/
theorem Planted.mem_ids (h : Planted g b) {id : NodeId} (hid : id.toNat < b.size) :
    id ∈ g.ids := by
  have hmem : id.toNat ∈ (b.nodes 0).map fun n => n.id.toNat := by
    rw [Branch.map_toNat_nodes b (by have := h.size_le; omega), List.mem_range'_1]
    omega
  obtain ⟨n, hn, hn'⟩ := List.mem_map.mp hmem
  rw [ids, h.nodes_eq]
  exact List.mem_map.mpr ⟨n, hn, UInt32.toNat.inj hn'⟩

/-- Looking around in the graph finds the branch. -/
theorem Planted.holds (h : Planted g b) : Holds g 0 b := by
  refine ⟨fun n hn => ?_, fun i _ _ => ?_⟩
  · rw [← h.nodes_eq] at hn
    cases hfind : g.node? n.id with
    | none =>
      rw [node?, ← Array.find?_toList, List.find?_eq_none] at hfind
      exact absurd (beq_self_eq_true n.id) (hfind n hn)
    | some m =>
      rw [node?, ← Array.find?_toList] at hfind
      have hid : m.id = n.id := by simpa using List.find?_some hfind
      rw [List.inj_on_of_nodup_map h.nodup_ids (List.mem_of_find?_eq_some hfind) hn hid]
  · show childrenOf g.edges.toList _ = _
    rw [h.edges_eq]

/-- A planted graph is valid when no other node is a root and the leaves are in order. -/
theorem Planted.valid {name : String} {below : List Branch}
    (h : Planted g (.node .root name none below)) (hsound : Branch.AllSound below) : g.Valid := by
  have hsize := h.size_le
  have hbounds : ∀ e ∈ g.edges.toList, e.parent.toNat < e.child.toNat ∧
      e.child.toNat < (Branch.node .root name none below).size := by
    intro e he
    rw [h.edges_eq] at he
    have := Branch.edges_bounds _ (by omega) e he
    omega
  -- the root is the first node, and no other node is a root
  have hnodes : g.nodes.toList = ⟨0, .root, name, none⟩ :: Branch.nodesAll 1 below := by
    rw [h.nodes_eq, Branch.nodes]
    rfl
  have hrest := fun n => Branch.AllSound.nodes hsound (k := 1) n
  refine ⟨h.nodup_ids, ?_, ?_, ?_, ?_, ?_, ?_, ?_⟩
  · intro n hn hkind
    rw [hnodes, List.mem_cons] at hn
    rcases hn with rfl | hn
    · cases hkind
    · exact (hrest n hn).2 hkind
  · have hnone : (Branch.nodesAll 1 below).countP (fun n => n.kind = .root) = 0 := by
      rw [List.countP_eq_zero]
      intro n hn
      simpa using (hrest n hn).1
    rw [hnodes, List.countP_cons, hnone]
    rfl
  · intro e he
    have := hbounds e he
    exact h.mem_ids (by omega)
  · intro e he
    exact h.mem_ids (hbounds e he).2
  · intro e he n hn hkind heq
    rw [hnodes, List.mem_cons] at hn
    rcases hn with rfl | hn
    · have := (hbounds e he).1
      rw [heq] at this
      exact absurd this (Nat.not_lt_zero _)
    · exact (hrest n hn).1 hkind
  · intro e he n hn hkind heq
    rw [h.edges_eq, Branch.edges] at he
    obtain ⟨m, hm, hid, hnot⟩ : ∃ m ∈ g.nodes.toList, m.id = e.parent ∧ m.kind ≠ .leaf := by
      rw [hnodes]
      rcases Branch.AllSound.edges hsound e he with hparent | ⟨m, hm, hid, hnot⟩
      · exact ⟨_, List.mem_cons_self, hparent.symm, by simp⟩
      · exact ⟨m, List.mem_cons_of_mem _ hm, hid, hnot⟩
    -- numbers are distinct, so the node where the edge starts is the leaf
    have hsame : m = n := List.inj_on_of_nodup_map h.nodup_ids hm hn (hid.trans heq)
    exact hnot (hsame ▸ hkind)
  -- numbers grow along a path
  · have hless : ∀ {a b : NodeId}, TransGen g.Leads a b → a.toNat < b.toNat := by
      intro a b hpath
      induction hpath with
      | single hleads => exact (hbounds _ hleads).1
      | tail _ hleads ih => exact Nat.lt_trans ih (hbounds _ hleads).1
    exact fun id hcycle => Nat.lt_irrefl _ (hless hcycle)

end Planted

end Catalogue.Graph
