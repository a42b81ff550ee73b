import Catalogue.Proofs.Exchange.Traversal

/-!
# Numbers and orders that do not matter

What a graph is decoded to depends on neither the numbers of its nodes nor the order in which nodes
and edges are kept, as long as the edges from each node keep theirs; nor does it depend on what the
root does not reach. In both cases the stops of one graph are carried over to the other: equal
numbers up to a renumbering, and equal children in the same order.

* `Graph.Rearranges` — the nodes and edges of a graph, renumbered and in another order.
* `Graph.Extends` — a graph with more nodes and edges that its root does not reach.
* `Graph.Carries` — what both come to, for the nodes that are walked.
* `decode_rearranged` — graphs of both kinds are decoded to the same record.
-/

namespace Catalogue

namespace Graph

open Relation (TransGen ReflTransGen)

/-! ## Renumbering -/

def Node.renumber (f : NodeId → NodeId) (n : Node) : Node := { n with id := f n.id }

def Edge.renumber (f : NodeId → NodeId) (e : Edge) : Edge := ⟨f e.parent, f e.child⟩

/-- The numbers of a graph: those of its nodes and those at the ends of its edges. -/
def allNumbers (g : Graph) : List NodeId :=
  g.ids ++ g.edges.toList.flatMap fun e => [e.parent, e.child]

/--
The second graph has the nodes and the edges of the first one, with other numbers and in another
order. Different numbers stay different, and the edges from each node keep their order.
-/
structure Rearranges (f : NodeId → NodeId) (g g' : Graph) : Prop where
  injective : ∀ a ∈ g.allNumbers, ∀ b ∈ g.allNumbers, f a = f b → a = b
  nodes : g'.nodes.toList.Perm (g.nodes.toList.map (Node.renumber f))
  edges : g'.edges.toList.Perm (g.edges.toList.map (Edge.renumber f))
  children_eq : ∀ id, g'.children id = childrenOf (g.edges.toList.map (Edge.renumber f)) id

section

variable {g : Graph}

theorem mem_allNumbers_of_mem {n : Node} (h : n ∈ g.nodes.toList) : n.id ∈ g.allNumbers :=
  List.mem_append_left _ (List.mem_map_of_mem h)

theorem ends_mem_allNumbers {e : Edge} (h : e ∈ g.edges.toList) :
    e.parent ∈ g.allNumbers ∧ e.child ∈ g.allNumbers := by
  have hends : ∀ id ∈ [e.parent, e.child], id ∈ g.allNumbers := fun id hid =>
    List.mem_append_right _ (List.mem_flatMap.mpr ⟨e, h, hid⟩)
  exact ⟨hends _ List.mem_cons_self, hends _ (List.mem_cons_of_mem _ List.mem_cons_self)⟩

/-- The only root of a valid graph is the first one. -/
theorem Valid.root?_eq (hv : g.Valid) {n : Node} (h : n ∈ g.nodes.toList) (hkind : n.kind = .root) :
    g.root? = some n.id := by
  have hone := hv.one_root
  rw [List.countP_eq_length_filter] at hone
  obtain ⟨m, hm⟩ := List.length_eq_one_iff.mp hone
  have hmem : n ∈ g.nodes.toList.filter (fun n => n.kind = .root) :=
    List.mem_filter.mpr ⟨h, by simpa using hkind⟩
  rw [hm, List.mem_singleton] at hmem
  rw [root?, ← Array.find?_toList, ← List.head?_filter, hm, hmem]
  rfl

theorem Valid.exists_root (hv : g.Valid) : ∃ n ∈ g.nodes.toList, n.kind = .root := by
  have hpos : 0 < g.nodes.toList.countP (fun n => n.kind = .root) := by
    rw [hv.one_root]
    exact Nat.one_pos
  obtain ⟨n, hn, hkind⟩ := List.countP_pos_iff.mp hpos
  exact ⟨n, hn, by simpa using hkind⟩

end

namespace Rearranges

variable {f : NodeId → NodeId} {g g' : Graph} (h : Rearranges f g g')
include h

theorem mem_nodes {n' : Node} : n' ∈ g'.nodes.toList ↔ ∃ n ∈ g.nodes.toList, n.renumber f = n' := by
  rw [h.nodes.mem_iff, List.mem_map]

theorem mem_edges {e' : Edge} : e' ∈ g'.edges.toList ↔ ∃ e ∈ g.edges.toList, e.renumber f = e' := by
  rw [h.edges.mem_iff, List.mem_map]

theorem ids_perm : g'.ids.Perm (g.ids.map f) := by
  have hperm := h.nodes.map Node.id
  rw [List.map_map] at hperm
  rw [ids, ids, List.map_map]
  exact hperm

theorem countP_root : g'.nodes.toList.countP (fun n => n.kind = .root) =
    g.nodes.toList.countP (fun n => n.kind = .root) := by
  rw [h.nodes.countP_eq, List.countP_map]
  rfl

/-- A path is a path of the first graph. -/
theorem exists_path {a' b' : NodeId} (hpath : TransGen g'.Leads a' b') :
    ∃ a ∈ g.allNumbers, ∃ b ∈ g.allNumbers, f a = a' ∧ f b = b' ∧ TransGen g.Leads a b := by
  induction hpath with
  | single hedge =>
    obtain ⟨e, he, heq⟩ := h.mem_edges.mp hedge
    obtain ⟨hparent, hchild⟩ := ends_mem_allNumbers he
    injection heq with hp hc
    exact ⟨_, hparent, _, hchild, hp, hc, .single he⟩
  | tail _ hedge ih =>
    obtain ⟨a, ha, b, hb, rfl, rfl, hpath⟩ := ih
    obtain ⟨e, he, heq⟩ := h.mem_edges.mp hedge
    obtain ⟨hparent, hchild⟩ := ends_mem_allNumbers he
    injection heq with hp hc
    obtain rfl := h.injective _ hparent _ hb hp
    exact ⟨a, ha, _, hchild, rfl, hc, hpath.tail he⟩

theorem valid (hv : g.Valid) : g'.Valid where
  nodup_ids := by
    rw [h.ids_perm.nodup_iff]
    refine hv.nodup_ids.map_on fun a ha b hb => h.injective a ?_ b ?_
    · exact List.mem_append_left _ ha
    · exact List.mem_append_left _ hb
  value_of_leaf n' hn' hkind := by
    obtain ⟨n, hn, rfl⟩ := h.mem_nodes.mp hn'
    exact hv.value_of_leaf n hn hkind
  one_root := h.countP_root.trans hv.one_root
  parent_mem e' he' := by
    obtain ⟨e, he, rfl⟩ := h.mem_edges.mp he'
    exact h.ids_perm.mem_iff.mpr (List.mem_map_of_mem (hv.parent_mem e he))
  child_mem e' he' := by
    obtain ⟨e, he, rfl⟩ := h.mem_edges.mp he'
    exact h.ids_perm.mem_iff.mpr (List.mem_map_of_mem (hv.child_mem e he))
  child_not_root e' he' n' hn' hkind heq := by
    obtain ⟨e, he, rfl⟩ := h.mem_edges.mp he'
    obtain ⟨n, hn, rfl⟩ := h.mem_nodes.mp hn'
    refine hv.child_not_root e he n hn hkind (h.injective _ ?_ _ (mem_allNumbers_of_mem hn) heq)
    exact (ends_mem_allNumbers he).2
  parent_not_leaf e' he' n' hn' hkind heq := by
    obtain ⟨e, he, rfl⟩ := h.mem_edges.mp he'
    obtain ⟨n, hn, rfl⟩ := h.mem_nodes.mp hn'
    refine hv.parent_not_leaf e he n hn hkind (h.injective _ ?_ _ (mem_allNumbers_of_mem hn) heq)
    exact (ends_mem_allNumbers he).1
  acyclic id hcycle := by
    obtain ⟨a, ha, b, hb, rfl, hsame, hpath⟩ := h.exists_path hcycle
    obtain rfl := h.injective _ hb _ ha hsame
    exact hv.acyclic b hpath

theorem valid_of_valid (hv : g'.Valid) : g.Valid where
  nodup_ids := (h.ids_perm.nodup_iff.mp hv.nodup_ids).of_map f
  value_of_leaf n hn hkind := hv.value_of_leaf (n.renumber f) (h.mem_nodes.mpr ⟨n, hn, rfl⟩) hkind
  one_root := h.countP_root.symm.trans hv.one_root
  parent_mem e he := by
    have hmem := hv.parent_mem _ (h.mem_edges.mpr ⟨e, he, rfl⟩)
    obtain ⟨id, hid, heq⟩ := List.mem_map.mp (h.ids_perm.mem_iff.mp hmem)
    rwa [← h.injective id (List.mem_append_left _ hid) _ (ends_mem_allNumbers he).1 heq]
  child_mem e he := by
    have hmem := hv.child_mem _ (h.mem_edges.mpr ⟨e, he, rfl⟩)
    obtain ⟨id, hid, heq⟩ := List.mem_map.mp (h.ids_perm.mem_iff.mp hmem)
    rwa [← h.injective id (List.mem_append_left _ hid) _ (ends_mem_allNumbers he).2 heq]
  child_not_root e he n hn hkind heq :=
    hv.child_not_root _ (h.mem_edges.mpr ⟨e, he, rfl⟩) _ (h.mem_nodes.mpr ⟨n, hn, rfl⟩) hkind
      (congrArg f heq)
  parent_not_leaf e he n hn hkind heq :=
    hv.parent_not_leaf _ (h.mem_edges.mpr ⟨e, he, rfl⟩) _ (h.mem_nodes.mpr ⟨n, hn, rfl⟩) hkind
      (congrArg f heq)
  acyclic id hcycle := by
    refine hv.acyclic (f id) (hcycle.lift f fun a b hedge => ?_)
    exact h.mem_edges.mpr ⟨_, hedge, rfl⟩

/-- Every node has the children that it had, in the same order. -/
theorem children_renumber {id : NodeId} (hid : id ∈ g.allNumbers) :
    g'.children (f id) = (g.children id).map f := by
  have hparent : ∀ e ∈ g.edges.toList, ((e.renumber f).parent == f id) = (e.parent == id) := by
    intro e he
    rw [Bool.eq_iff_iff, beq_iff_eq, beq_iff_eq]
    exact ⟨h.injective _ (ends_mem_allNumbers he).1 _ hid, congrArg f⟩
  rw [h.children_eq, childrenOf, children, List.filter_map, List.map_map, List.map_map]
  exact congrArg _ (List.filter_congr hparent)

end Rearranges

/-! ## Carrying stops over -/

/--
Nodes of the first graph that the second one has under other numbers, with the same children in the
same order; and their children are such nodes too.
-/
structure Carries (f : NodeId → NodeId) (S : NodeId → Prop) (g g' : Graph) : Prop where
  node?_eq : ∀ id, S id → g'.node? (f id) = (g.node? id).map (Node.renumber f)
  children_eq : ∀ id, S id → g'.children (f id) = (g.children id).map f
  closed : ∀ id, S id → ∀ child ∈ g.children id, S child

/-- A rearranged graph has every node. -/
theorem Rearranges.carries {f : NodeId → NodeId} {g g' : Graph} (h : Rearranges f g g')
    (hv : g.Valid) : Carries f (· ∈ g.ids) g g' where
  node?_eq id hid := by
    obtain ⟨n, hn, rfl⟩ := List.mem_map.mp hid
    rw [node?_of_mem hv.nodup_ids hn]
    exact node?_of_mem (h.valid hv).nodup_ids (h.mem_nodes.mpr ⟨n, hn, rfl⟩)
  children_eq id hid := h.children_renumber (List.mem_append_left _ hid)
  closed id _ child hchild := hv.child_mem _ (mem_children.mp hchild)

/-! ## Graphs with more than the root reaches -/

/--
The second graph has the nodes of the first one and, from all nodes that its root reaches, the same
edges in the same order. What else it has, the root does not reach.
-/
structure Extends (g g' : Graph) : Prop where
  nodes : g.nodes.toList ⊆ g'.nodes.toList
  children_eq : ∀ root, g'.root? = some root → ∀ id, ReflTransGen g'.Leads root id →
    g'.children id = g.children id

/-- Nodes and edges that are added to a graph, none of these edges from where its root gets to. -/
theorem extends_of_added {g : Graph} (nodes : Array Node) (edges : Array Edge)
    (h : let g' : Graph := { g with nodes := g.nodes ++ nodes, edges := g.edges ++ edges }
      ∀ e ∈ edges.toList, ∀ root, g'.root? = some root → ¬ ReflTransGen g'.Leads root e.parent) :
    Extends g { g with nodes := g.nodes ++ nodes, edges := g.edges ++ edges } where
  nodes n hn := by
    rw [Array.toList_append]
    exact List.mem_append_left _ hn
  children_eq root hroot id hreaches := by
    have hnone : edges.toList.filter (fun e => e.parent == id) = [] := by
      refine List.filter_eq_nil_iff.mpr fun e he hid => ?_
      rw [← beq_iff_eq.mp hid] at hreaches
      exact h e he root hroot hreaches
    rw [children, children, Array.toList_append, List.filter_append, hnone, List.append_nil]

namespace Extends

variable {g g' : Graph} (h : Extends g g') (hv : g.Valid) (hv' : g'.Valid)
include h hv hv'

/-- The root stays the root. -/
theorem root?_eq : g'.root? = g.root? := by
  obtain ⟨n, hn, hkind⟩ := hv.exists_root
  rw [hv.root?_eq hn hkind, hv'.root?_eq (h.nodes hn) hkind]

/-- A graph with more keeps the nodes that the root reaches. -/
theorem carries {root : NodeId} (hroot : g'.root? = some root) :
    Carries id (fun id => ReflTransGen g'.Leads root id ∧ id ∈ g.ids) g g' where
  node?_eq id := by
    rintro ⟨-, hid⟩
    obtain ⟨n, hn, rfl⟩ := List.mem_map.mp hid
    rw [node?_of_mem hv.nodup_ids hn]
    exact node?_of_mem hv'.nodup_ids (h.nodes hn)
  children_eq id := by
    rintro ⟨hreaches, -⟩
    rw [List.map_id]
    exact h.children_eq root hroot id hreaches
  closed id := by
    rintro ⟨hreaches, -⟩ child hchild
    refine ⟨hreaches.tail (mem_children.mp ?_), hv.child_mem _ (mem_children.mp hchild)⟩
    rw [h.children_eq root hroot id hreaches]
    exact hchild

end Extends

end Graph

namespace Exchange

open Catalogue.Graph
open Relation (ReflTransGen)

/-! ## Stops -/

/-- The same stop at a node with another number. -/
def Stop.renumber (f : NodeId → NodeId) (s : Stop) : Stop := { s with node := s.node.renumber f }

section

variable {f : NodeId → NodeId} {S : NodeId → Prop} {g g' : Graph}

/-- The stops from a node that is carried over are carried over. -/
theorem preorder_carried (h : Carries f S g g') (hv : g.Valid) (hv' : g'.Valid) {id : NodeId}
    (hid : S id) (s : Scope) :
    preorder g' hv' s (f id) = (preorder g hv s id).map (Stop.renumber f) := by
  induction hcard : (g.descendants id).card using Nat.strongRecOn generalizing s id with
  | _ k ih =>
    have hnode := h.node?_eq id hid
    cases hn : g.node? id with
    | none =>
      rw [hn] at hnode
      rw [preorder_of_none hv hn, preorder_of_none hv' hnode, List.map_nil]
    | some n =>
      rw [hn] at hnode
      have hself : [Stop.mk (n.renumber f) s].filter Stop.isStep =
          ([Stop.mk n s].filter Stop.isStep).map (Stop.renumber f) := by
        rw [List.filter_singleton, List.filter_singleton]
        show (bif Stop.isStep ⟨n, s⟩ then _ else _) = _
        cases Stop.isStep ⟨n, s⟩ <;> rfl
      have hbelow : s.below (n.renumber f) = s.below n := rfl
      rw [preorder_of_some hv hn, preorder_of_some hv' hnode, List.map_append, hself, hbelow,
        h.children_eq id hid, List.flatMap_map, List.map_flatMap]
      refine congrArg _ (List.flatMap_congr fun child hchild => ?_)
      have hless := hv.card_descendants_lt (mem_children.mp hchild)
      exact ih _ (hcard ▸ hless) (h.closed id hid child hchild) _ rfl

/-- A step at a stop does not depend on the number of the node. -/
theorem visit_renumber (mode : Narrowing) (d : Draft) (s : Stop) :
    d.visit mode (s.renumber f).visit = d.visit mode s.visit := by
  obtain ⟨⟨id, kind, name, value⟩, scope⟩ := s
  cases kind <;> rfl

theorem follow_renumber (mode : Narrowing) (stops : List Stop) (d : Draft) :
    d.follow mode ((stops.map (Stop.renumber f)).map Stop.visit) =
      d.follow mode (stops.map Stop.visit) := by
  induction stops generalizing d with
  | nil => rfl
  | cons s rest ih =>
    rw [List.map_cons, List.map_cons, List.map_cons, Draft.follow_cons, Draft.follow_cons,
      visit_renumber]
    rcases d.visit mode s.visit with ⟨_ | d', entries⟩
    · rfl
    · simp only [ih d']

/-- A graph whose root is carried over is decoded to the same record, with the same reports. -/
theorem decode_carried (h : Carries f S g g') {t t' : Topology} (ht : g.topology = .ok t)
    (ht' : g'.topology = .ok t') (hroot : t'.root = f t.root) (hS : S t.root) (fallback : String)
    (mode : Narrowing) : decode fallback mode g' = decode fallback mode g := by
  rw [decode_of_topology ht, decode_of_topology ht', visits_eq_preorder ht, visits_eq_preorder ht',
    hroot, preorder_carried h (valid_of_topology_eq_ok ht) (valid_of_topology_eq_ok ht') hS,
    follow_renumber]

end

/-! ## Decoding -/

/-- The root of a valid graph is one of its nodes. -/
theorem root_mem_ids {g : Graph} {t : Topology} (h : g.topology = .ok t) : t.root ∈ g.ids := by
  obtain ⟨n, hn, hkind⟩ := (valid_of_topology_eq_ok h).exists_root
  have hroot := (topology_ok h).2.1
  rw [(valid_of_topology_eq_ok h).root?_eq hn hkind] at hroot
  rw [← Option.some.inj hroot]
  exact List.mem_map_of_mem hn

theorem decode_of_rearranges {f : NodeId → NodeId} {g g' : Graph} (h : Rearranges f g g')
    (hv : g.Valid) (fallback : String) (mode : Narrowing) :
    decode fallback mode g' = decode fallback mode g := by
  obtain ⟨t, ht⟩ := hv.exists_topology
  obtain ⟨t', ht'⟩ := (h.valid hv).exists_topology
  refine decode_carried (h.carries hv) ht ht' ?_ (root_mem_ids ht) fallback mode
  obtain ⟨n, hn, hkind⟩ := hv.exists_root
  have hroot : g.root? = some n.id := hv.root?_eq hn hkind
  have hroot' : g'.root? = some (f n.id) :=
    (h.valid hv).root?_eq (h.mem_nodes.mpr ⟨n, hn, rfl⟩) hkind
  rw [(topology_ok ht).2.1] at hroot
  rw [(topology_ok ht').2.1] at hroot'
  rw [Option.some.inj hroot, Option.some.inj hroot']

theorem decode_of_extends {g g' : Graph} (h : Extends g g') (hv : g.Valid) (hv' : g'.Valid)
    (fallback : String) (mode : Narrowing) :
    decode fallback mode g' = decode fallback mode g := by
  obtain ⟨t, ht⟩ := hv.exists_topology
  obtain ⟨t', ht'⟩ := hv'.exists_topology
  have hroot : t'.root = t.root := by
    have hsame := h.root?_eq hv hv'
    rw [(topology_ok ht).2.1, (topology_ok ht').2.1] at hsame
    exact Option.some.inj hsame
  have hroot' : g'.root? = some t.root := by rw [(topology_ok ht').2.1, hroot]
  exact decode_carried (h.carries hv hv' hroot') ht ht' hroot ⟨.refl, root_mem_ids ht⟩ fallback mode

/-- Only a valid graph has a record. -/
theorem valid_of_decode_eq_ok {fallback : String} {mode : Narrowing} {g : Graph} {r : Record}
    (h : (decode fallback mode g).result = .ok r) : g.Valid := by
  rw [decode] at h
  split at h
  · cases h
  · next t ht => exact valid_of_topology_eq_ok ht

/--
A graph with other numbers, in another order that keeps the edges from each node in theirs, has a
record if and only if the graph had one, and it is the same record; a valid graph is decoded with
the same reports and the same error, too. A valid graph with more nodes and edges that its root does
not reach is decoded as without them.
-/
theorem decode_rearranged (fallback : String) (mode : Narrowing) (g g' : Graph) :
    (∀ f, Rearranges f g g' →
      (∀ r, (decode fallback mode g').result = .ok r ↔ (decode fallback mode g).result = .ok r) ∧
        (g.Valid → decode fallback mode g' = decode fallback mode g)) ∧
    (Extends g g' → g.Valid → g'.Valid →
      decode fallback mode g' = decode fallback mode g) := by
  constructor
  · intro f h
    refine ⟨fun r => ?_, fun hv => decode_of_rearranges h hv fallback mode⟩
    constructor
    · intro hr
      rwa [decode_of_rearranges h (h.valid_of_valid (valid_of_decode_eq_ok hr))] at hr
    · intro hr
      rwa [decode_of_rearranges h (valid_of_decode_eq_ok hr)]
  · intro h hv hv'
    exact decode_of_extends h hv hv' fallback mode

/-- A card and an association that share an identifier. -/
def shared : Graph where
  nodes := #[⟨0, .root, "product", none⟩, ⟨1, .entity, "card", none⟩,
    ⟨2, .entity, "association", none⟩, ⟨3, .leaf, "identifier", some (.text "a")⟩]
  edges := #[⟨0, 1⟩, ⟨0, 2⟩, ⟨1, 3⟩, ⟨2, 3⟩]

/-- The same graph from its end, with greater numbers. -/
def shuffled : Graph where
  nodes := #[⟨13, .leaf, "identifier", some (.text "a")⟩, ⟨12, .entity, "association", none⟩,
    ⟨11, .entity, "card", none⟩, ⟨10, .root, "product", none⟩]
  edges := #[⟨12, 13⟩, ⟨10, 11⟩, ⟨11, 13⟩, ⟨10, 12⟩]

/-- The same graph next to a file that refers to the identifier but that nothing refers to. -/
def surrounded : Graph :=
  { shared with
    nodes := shared.nodes ++ #[⟨4, .entity, "file", none⟩]
    edges := shared.edges ++ #[⟨4, 3⟩] }

theorem valid_shared : shared.Valid := by
  obtain ⟨t, ht⟩ : ∃ t, shared.topology = .ok t := ⟨_, rfl⟩
  exact valid_of_topology_eq_ok ht

theorem valid_surrounded : surrounded.Valid := by
  obtain ⟨t, ht⟩ : ∃ t, surrounded.topology = .ok t := ⟨_, rfl⟩
  exact valid_of_topology_eq_ok ht

theorem rearranges_shuffled : Rearranges (· + 10) shared shuffled where
  injective a _ b _ h := by simpa using h
  nodes := List.reverse_perm (shared.nodes.toList.map (Node.renumber (· + 10)))
  edges := by decide
  children_eq id := by
    by_cases h0 : id = 10
    · rw [h0]; rfl
    by_cases h1 : id = 11
    · rw [h1]; rfl
    by_cases h2 : id = 12
    · rw [h2]; rfl
    simp [children, childrenOf, shuffled, shared, Edge.renumber, Ne.symm h0, Ne.symm h1, Ne.symm h2]

theorem extends_surrounded : Extends shared surrounded := by
  refine extends_of_added _ _ ?_
  intro g' e he root hroot hreaches
  rw [List.mem_singleton.mp he] at hreaches
  have hroot : root = 0 := (Option.some.inj hroot).symm
  rcases hreaches.cases_tail with hself | ⟨parent, -, hedge⟩
  · rw [hroot] at hself
    cases hself
  · revert hedge
    show ¬ (⟨parent, 4⟩ : Edge) ∈ _
    simp [g', shared]

theorem decode_rearranged_shared :
    Rearranges (· + 10) shared shuffled ∧
      decode "DATA" .legacy shuffled = decode "DATA" .legacy shared ∧
      Extends shared surrounded ∧ shared.Valid ∧ surrounded.Valid ∧
        decode "DATA" .legacy surrounded = decode "DATA" .legacy shared :=
  ⟨rearranges_shuffled,
    ((decode_rearranged _ _ _ _).1 _ rearranges_shuffled).2 valid_shared,
    extends_surrounded, valid_shared, valid_surrounded,
    (decode_rearranged _ _ _ _).2 extends_surrounded valid_shared valid_surrounded⟩

end Exchange

end Catalogue
