import Catalogue.Proofs.Graph.Planting

/-!
# Planted graphs are trees

A planted graph is numbered in the order of its nodes, and every node but the first has exactly one
edge to it, from a node with a smaller number. What is directly below a node can be read off the
branch.

* `IsTree` — what a tree of numbered nodes is; `Planted.isTree`.
* `Bears` — a node with what is below it is a branch; `Bears.below` goes down one step.
* `Planted.exists_parent` — a relation between each branch and those directly below it holds between
  each node and its parent.
-/

namespace Catalogue.Graph

/-! ## Trees -/

/-- The nodes that edges lead to from a node, in the order of the edges. -/
def below (g : Graph) (id : NodeId) : List Node := (g.children id).filterMap g.node?

/-- A valid graph with its nodes numbered in order, and one edge to every node but the root. -/
structure IsTree (g : Graph) : Prop where
  ids_eq : g.ids.map UInt32.toNat = List.range g.nodes.size
  size_edges : g.edges.size + 1 = g.nodes.size
  one_parent : ∀ n ∈ g.nodes.toList, n.kind ≠ .root →
    (g.edges.toList.map Edge.child).count n.id = 1
  parent_lt : ∀ e ∈ g.edges.toList, e.parent.toNat < e.child.toNat
  accepted : ∃ t, g.topology = .ok t

namespace Branch

theorem length_nodes {b : Branch} {k : Nat} (h : k + b.size ≤ 2 ^ 32) :
    (b.nodes k).length = b.size := by
  have hlength := congrArg List.length (map_toNat_nodes b h)
  simpa using hlength

mutual

/-- The edges of a branch lead to all of its nodes but the first, in order. -/
theorem map_child_edges : ∀ (b : Branch) (k : Nat),
    (b.edges k).map Edge.child = ((b.nodes k).map Node.id).tail
  | node kind name value below, k => by
    rw [edges, nodes, map_child_edgesAll below k (k + 1)]
    rfl

theorem map_child_edgesAll : ∀ (bs : List Branch) (parent k : Nat),
    (edgesAll parent k bs).map Edge.child = (nodesAll k bs).map Node.id
  | [], _, _ => rfl
  | b :: rest, parent, k => by
    have hfirst : (b.nodes k).map Node.id = UInt32.ofNat k :: ((b.nodes k).map Node.id).tail := by
      cases b
      rw [nodes]
      rfl
    rw [edgesAll, nodesAll, List.map_cons, List.map_append, List.map_append, hfirst,
      map_child_edges b k, map_child_edgesAll rest parent (k + b.size)]
    rfl

end

end Branch

section Planted

variable {g : Graph} {name : String} {bs : List Branch}

/-- A planted graph is a tree. -/
theorem Planted.isTree (h : Planted g (.node .root name none bs)) (hsound : Branch.AllSound bs) :
    g.IsTree := by
  have hsize := h.size_le
  have hlength : g.nodes.size = (Branch.node .root name none bs).size := by
    rw [← Array.length_toList, h.nodes_eq]
    exact Branch.length_nodes (by omega)
  have hchild : g.edges.toList.map Edge.child = g.ids.tail := by
    rw [h.edges_eq, ids, h.nodes_eq]
    exact Branch.map_child_edges _ 0
  refine ⟨?_, ?_, ?_, ?_, (h.valid hsound).exists_topology⟩
  · rw [ids, List.map_map, h.nodes_eq, hlength, List.range_eq_range']
    exact Branch.map_toNat_nodes _ (by omega)
  · have hedges := congrArg List.length hchild
    rw [List.length_map, Array.length_toList, List.length_tail, ids, List.length_map,
      Array.length_toList] at hedges
    have := Branch.size_pos (.node .root name none bs)
    omega
  · intro n hn hkind
    rw [hchild]
    refine List.count_eq_one_of_mem h.nodup_ids.tail ?_
    rw [ids, h.nodes_eq, Branch.nodes, List.map_cons, List.tail_cons]
    rw [h.nodes_eq, Branch.nodes] at hn
    rcases List.mem_cons.mp hn with rfl | hn
    · exact absurd rfl hkind
    · exact List.mem_map.mpr ⟨n, hn, rfl⟩
  · intro e he
    rw [h.edges_eq] at he
    have := Branch.edges_bounds _ (by omega) e he
    omega

end Planted

/-! ## What a node bears -/

namespace Branch

/-- The name of the first node of a branch. -/
def name : Branch → String
  | node _ name _ _ => name

/-- The kind of the first node of a branch. -/
def kind : Branch → NodeRole
  | node kind _ _ _ => kind

/-- The value of the first node of a branch. -/
def value : Branch → Option Value
  | node _ _ value _ => value

/-- The first node of a branch, with a number. -/
def top (id : NodeId) : Branch → Node
  | node kind name value _ => ⟨id, kind, name, value⟩

@[simp] theorem name_top (b : Branch) (id : NodeId) : (b.top id).name = b.name := by cases b; rfl

@[simp] theorem kind_top (b : Branch) (id : NodeId) : (b.top id).kind = b.kind := by cases b; rfl

@[simp] theorem value_top (b : Branch) (id : NodeId) : (b.top id).value = b.value := by
  cases b
  rfl

@[simp] theorem id_top (b : Branch) (id : NodeId) : (b.top id).id = id := by cases b; rfl

/-- The first nodes of branches. -/
def tops (k : Nat) : List Branch → List Node
  | [] => []
  | b :: rest => b.top (UInt32.ofNat k) :: tops (k + b.size) rest

end Branch

/-- A node of a graph with what is below it is this branch. -/
def Bears (g : Graph) (n : Node) (b : Branch) : Prop :=
  ∃ k, n = b.top (UInt32.ofNat k) ∧ Holds g k b ∧ k + b.size ≤ 2 ^ 32

theorem Holds.node?_top {g : Graph} {k : Nat} {b : Branch} (h : Holds g k b) :
    g.node? (UInt32.ofNat k) = some (b.top (UInt32.ofNat k)) := by
  cases b
  exact h.node?_eq

section Bears

variable {g : Graph} {k parent : Nat} {bs : List Branch}

theorem HoldsAll.filterMap_starts (h : HoldsAll g parent k bs) (hlt : parent < k)
    (hsize : k + Branch.sizes bs ≤ 2 ^ 32) :
    (Branch.starts k bs).filterMap g.node? = Branch.tops k bs := by
  induction bs generalizing k with
  | nil => rfl
  | cons b rest ih =>
    have hrest : k + b.size + Branch.sizes rest ≤ 2 ^ 32 := by
      rw [Branch.sizes] at hsize
      omega
    rw [Branch.starts, Branch.tops, List.filterMap_cons_some (h.head hlt hsize).node?_top,
      ih (h.tail hlt hsize) (by omega) hrest]

theorem HoldsAll.bears (h : HoldsAll g parent k bs) (hlt : parent < k)
    (hsize : k + Branch.sizes bs ≤ 2 ^ 32) : List.Forall₂ g.Bears (Branch.tops k bs) bs := by
  induction bs generalizing k with
  | nil => exact .nil
  | cons b rest ih =>
    have hhead := h.head hlt hsize
    have htail := h.tail hlt hsize
    rw [Branch.sizes] at hsize
    exact .cons ⟨k, rfl, hhead, by omega⟩ (ih htail (by omega) (by omega))

variable {n : Node} {kind : NodeRole} {name : String} {value : Option Value}

/-- The nodes below a node are the first nodes of the branches below it. -/
theorem Bears.below (h : g.Bears n (.node kind name value bs)) :
    List.Forall₂ g.Bears (g.below n.id) bs := by
  obtain ⟨k, rfl, hholds, hsize⟩ := h
  have hchildren := hholds.children_eq hsize
  rw [Branch.size] at hsize
  rw [Branch.id_top, Graph.below, hchildren, hholds.inside.filterMap_starts (by omega) (by omega)]
  exact hholds.inside.bears (by omega) (by omega)

theorem Bears.eq_node (h : g.Bears n (.node kind name value bs)) :
    n = ⟨n.id, kind, name, value⟩ := by
  obtain ⟨k, rfl, -⟩ := h
  rfl

theorem Bears.name_eq {b : Branch} (h : g.Bears n b) : n.name = b.name := by
  obtain ⟨k, rfl, -⟩ := h
  exact b.name_top _

theorem map_name_eq {ns : List Node} (h : List.Forall₂ g.Bears ns bs) :
    ns.map Node.name = bs.map Branch.name := by
  induction h with
  | nil => rfl
  | cons hhead _ ih => rw [List.map_cons, List.map_cons, hhead.name_eq, ih]

theorem exists_bears_of_mem {ns : List Node} (h : List.Forall₂ g.Bears ns bs) (hn : n ∈ ns) :
    ∃ b ∈ bs, g.Bears n b := by
  induction h with
  | nil => cases hn
  | cons hhead _ ih =>
    rcases List.mem_cons.mp hn with rfl | hn
    · exact ⟨_, List.mem_cons_self, hhead⟩
    · obtain ⟨b, hb, hbears⟩ := ih hn
      exact ⟨b, List.mem_cons_of_mem _ hb, hbears⟩

theorem exists_mem_bears {ns : List Node} (h : List.Forall₂ g.Bears ns bs) {b : Branch}
    (hb : b ∈ bs) : ∃ n ∈ ns, g.Bears n b := by
  induction h with
  | nil => cases hb
  | cons hhead _ ih =>
    rcases List.mem_cons.mp hb with rfl | hb
    · exact ⟨_, List.mem_cons_self, hhead⟩
    · obtain ⟨n, hn, hbears⟩ := ih hb
      exact ⟨n, List.mem_cons_of_mem _ hn, hbears⟩

end Bears

/-! ## Parents -/

namespace Branch

mutual

/-- A relation holds between every branch inside a branch and those directly below it. -/
def Linked (R : Branch → Branch → Prop) : Branch → Prop
  | node kind name value below =>
    (∀ b ∈ below, R (node kind name value below) b) ∧ AllLinked R below

def AllLinked (R : Branch → Branch → Prop) : List Branch → Prop
  | [] => True
  | b :: rest => b.Linked R ∧ AllLinked R rest

end

theorem allLinked_of_forall {R : Branch → Branch → Prop} {bs : List Branch}
    (h : ∀ b ∈ bs, b.Linked R) : AllLinked R bs := by
  induction bs with
  | nil => trivial
  | cons b rest ih =>
    obtain ⟨hb, hrest⟩ := List.forall_mem_cons.mp h
    exact ⟨hb, ih hrest⟩

theorem top_mem_nodes (b : Branch) (k : Nat) : b.top (UInt32.ofNat k) ∈ b.nodes k := by
  cases b
  rw [nodes]
  exact List.mem_cons_self

variable {R : Branch → Branch → Prop}

mutual

/-- An edge inside a branch leads from one of its nodes to one that is directly below it. -/
theorem Linked.edges : ∀ {b : Branch}, b.Linked R → ∀ {k : Nat}, ∀ e ∈ b.edges k,
    ∃ p c, R p c ∧ p.top e.parent ∈ b.nodes k ∧ c.top e.child ∈ b.nodes k
  | node kind name value below, h, k => by
    obtain ⟨htop, hbelow⟩ := h
    intro e he
    rw [Branch.edges] at he
    rw [Branch.nodes]
    rcases AllLinked.edges hbelow e he with ⟨c, hc, hparent, hmem⟩ | ⟨p, c, hR, hp, hmem⟩
    · refine ⟨_, c, htop c hc, ?_, List.mem_cons_of_mem _ hmem⟩
      rw [hparent]
      exact List.mem_cons_self
    · exact ⟨p, c, hR, List.mem_cons_of_mem _ hp, List.mem_cons_of_mem _ hmem⟩

theorem AllLinked.edges : ∀ {bs : List Branch}, AllLinked R bs → ∀ {parent k : Nat},
    ∀ e ∈ edgesAll parent k bs,
    (∃ c ∈ bs, e.parent = UInt32.ofNat parent ∧ c.top e.child ∈ nodesAll k bs) ∨
      ∃ p c, R p c ∧ p.top e.parent ∈ nodesAll k bs ∧ c.top e.child ∈ nodesAll k bs
  | [], _, _, _ => by
    intro e he
    rw [edgesAll] at he
    cases he
  | b :: rest, h, parent, k => by
    intro e he
    rw [edgesAll, List.mem_cons, List.mem_append] at he
    rw [nodesAll]
    rcases he with rfl | he | he
    · exact .inl ⟨b, List.mem_cons_self, rfl, List.mem_append_left _ (top_mem_nodes b k)⟩
    · obtain ⟨p, c, hR, hp, hc⟩ := Linked.edges h.1 e he
      exact .inr ⟨p, c, hR, List.mem_append_left _ hp, List.mem_append_left _ hc⟩
    · rcases AllLinked.edges h.2 e he with ⟨c, hc, hparent, hmem⟩ | ⟨p, c, hR, hp, hc⟩
      · exact .inl ⟨c, List.mem_cons_of_mem _ hc, hparent, List.mem_append_right _ hmem⟩
      · exact .inr ⟨p, c, hR, List.mem_append_right _ hp, List.mem_append_right _ hc⟩

end

end Branch

section Parents

variable {g : Graph} {name : String} {bs : List Branch} {R : Branch → Branch → Prop}

/-- The first node of a planted graph is its root, and no other node is a root. -/
theorem Planted.root (h : Planted g (.node .root name none bs)) (hsound : Branch.AllSound bs) :
    ∃ root, g.root? = some root.id ∧ g.Bears root (.node .root name none bs) ∧
      ∀ n ∈ g.nodes.toList, n.kind = .root → n = root := by
  have hnodes : g.nodes.toList =
      ⟨UInt32.ofNat 0, .root, name, none⟩ :: Branch.nodesAll 1 bs := by
    rw [h.nodes_eq, Branch.nodes]
  refine ⟨⟨UInt32.ofNat 0, .root, name, none⟩, ?_, ⟨0, rfl, h.holds, ?_⟩, ?_⟩
  · rw [root?, ← Array.find?_toList, hnodes]
    rfl
  · have := h.size_le
    omega
  · intro n hn hkind
    rw [hnodes, List.mem_cons] at hn
    rcases hn with rfl | hn
    · rfl
    · exact absurd hkind (Branch.AllSound.nodes hsound n hn).1

/-- The end of an edge is below its start. -/
theorem Planted.mem_below (h : Planted g (.node .root name none bs)) {n : Node}
    (hn : n ∈ g.nodes.toList) {id : NodeId} (he : (⟨id, n.id⟩ : Edge) ∈ g.edges.toList) :
    n ∈ g.below id := by
  refine List.mem_filterMap.mpr ⟨n.id, ?_, h.holds.node n (by rw [← h.nodes_eq]; exact hn)⟩
  exact List.mem_map.mpr ⟨⟨id, n.id⟩, List.mem_filter.mpr ⟨he, beq_self_eq_true id⟩, rfl⟩

/-- Every node but the root has a parent to which the relation holds. -/
theorem Planted.exists_parent (h : Planted g (.node .root name none bs))
    (hlinked : (Branch.node .root name none bs).Linked R) {n : Node} (hn : n ∈ g.nodes.toList)
    (hkind : n.kind ≠ .root) :
    ∃ p c, R p c ∧ ∃ id, p.top id ∈ g.nodes.toList ∧ n = c.top n.id ∧
      (⟨id, n.id⟩ : Edge) ∈ g.edges.toList := by
  have hmem : n.id ∈ g.edges.toList.map Edge.child := by
    rw [h.edges_eq, Branch.map_child_edges, Branch.nodes, List.map_cons, List.tail_cons]
    rw [h.nodes_eq, Branch.nodes] at hn
    rcases List.mem_cons.mp hn with rfl | hn
    · exact absurd rfl hkind
    · exact List.mem_map.mpr ⟨n, hn, rfl⟩
  obtain ⟨e, he, hid⟩ := List.mem_map.mp hmem
  obtain ⟨p, c, hR, hp, hc⟩ := hlinked.edges e (by rw [← h.edges_eq]; exact he)
  rw [← h.nodes_eq] at hp hc
  -- numbers are distinct, so the node at the end of the edge is this one
  have hsame : c.top e.child = n :=
    List.inj_on_of_nodup_map h.nodup_ids hc hn ((c.id_top e.child).trans hid)
  refine ⟨p, c, hR, e.parent, hp, ?_, ?_⟩
  · rw [← hid, hsame]
  · rw [← hid]
    exact he

end Parents

end Catalogue.Graph
