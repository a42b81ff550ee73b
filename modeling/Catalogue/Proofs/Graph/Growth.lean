import Catalogue.Proofs.Graph.Descent
import Catalogue.Proofs.Graph.Numbering
import Catalogue.Proofs.Graph.Tree

/-!
# Growing graphs

A node that is added never gets a number below those that are all in use, however many nodes there
are. So when a branch is planted under a node, all other nodes keep what is below them, also when
numbers run out and are used twice.

* `Fills` — a graph has the numbers below a bound and no others.
* `Outgrows` — the nodes and edges that planting adds.
* `below_plant_self`, `below_plant_of_lt` — what is below a node after planting.
-/

namespace Catalogue.Graph

/-! ## Numbers for further nodes -/

/-- All numbers below a bound are in use, and the next one is not below it. -/
structure Beyond (k : Nat) (g : Graph) : Prop where
  mem_numbers : ∀ i < k, i ∈ numbers g
  le_nextId : k ≤ g.nextId.toNat

/-- A number that is looked up is not below numbers that are all in use. -/
theorem le_freeId {nodes : List Node} {k : Nat}
    (hused : ∀ i < k, i ∈ nodes.map fun n => n.id.toNat) (hk : k ≤ lastId) :
    k ≤ (freeId nodes).toNat := by
  rw [freeId]
  generalize nodes.map (fun n => n.id.toNat) = used at hused
  have hofNat : ∀ n ≤ lastId, (UInt32.ofNat n).toNat = n := fun n hn =>
    UInt32.toNat_ofNat_of_lt' (Nat.lt_of_le_of_lt hn (by decide))
  cases hmax : used.max? with
  | none =>
    rw [List.max?_eq_none_iff.mp hmax] at hused
    exact Nat.le_of_not_lt fun hpos => List.not_mem_nil (hused 0 (Nat.zero_lt_of_lt hpos))
  | some greatest =>
    dsimp only
    split
    · next hlt =>
      rw [hofNat _ hlt]
      refine Nat.le_of_not_lt fun habove => ?_
      have := (List.max?_eq_some_iff.mp hmax).2 _ (hused _ habove)
      omega
    · cases hgap : gap? used with
      | none => exact (hofNat lastId (Nat.le_refl _)).symm ▸ hk
      | some n =>
        have hrange := List.mem_range.mp (List.mem_of_find?_eq_some hgap)
        have hnot : n ∉ used := by simpa using List.find?_some hgap
        rw [Option.getD_some, hofNat n (by omega)]
        exact Nat.le_of_not_lt fun hlt => hnot (hused n hlt)

theorem numbers_add (g : Graph) (parent : NodeId) (kind : NodeRole) (name : String)
    (value : Option Value) :
    numbers (g.add parent kind name value).1 = numbers g ++ [g.nextId.toNat] := by
  simp [numbers, add, push]

theorem Beyond.add {g : Graph} {k : Nat} (h : Beyond k g) (parent : NodeId) (kind : NodeRole)
    (name : String) (value : Option Value) : Beyond k (g.add parent kind name value).1 := by
  have hused : ∀ i < k, i ∈ numbers (g.add parent kind name value).1 := fun i hi => by
    rw [numbers_add]
    exact List.mem_append_left _ (h.mem_numbers i hi)
  refine ⟨hused, ?_⟩
  have hnext := h.le_nextId
  have hcursor : (g.add parent kind name value).1.cursor =
    cursorAfter g.nextId (g.nodes.size + 1) := rfl
  have hsize : (g.add parent kind name value).1.nodes.size = g.nodes.size + 1 :=
    Array.size_push _
  by_cases hlast : g.nextId.toNat < lastId
  · rw [nextId, hcursor, cursorAfter, if_pos hlast]
    dsimp only
    have hsucc : (g.nextId + 1).toNat = g.nextId.toNat + 1 := by
      rw [UInt32.toNat_add, UInt32.toNat_one, Nat.mod_eq_of_lt (by unfold lastId at hlast; omega)]
    rw [if_pos hsize.symm, hsucc]
    omega
  · rw [nextId, hcursor, cursorAfter, if_neg hlast]
    have hbound := g.nextId.toNat_lt
    exact le_freeId hused (by unfold lastId; omega)

/-! ## Nodes and edges that are added -/

/-- A graph has further nodes, with numbers from a bound on, and further edges, from one node or
from such nodes. -/
structure Outgrows (k : Nat) (id : NodeId) (g h : Graph) : Prop where
  beyond : Beyond k h
  nodes : ∃ ns, h.nodes.toList = g.nodes.toList ++ ns ∧ ∀ n ∈ ns, k ≤ n.id.toNat
  edges : ∃ es, h.edges.toList = g.edges.toList ++ es ∧
    ∀ e ∈ es, e.parent = id ∨ k ≤ e.parent.toNat

theorem Outgrows.refl {k : Nat} {g : Graph} (h : Beyond k g) (id : NodeId) : Outgrows k id g g :=
  ⟨h, ⟨[], (List.append_nil _).symm, List.forall_mem_nil _⟩, [], (List.append_nil _).symm,
    List.forall_mem_nil _⟩

theorem Outgrows.trans {k : Nat} {id id' : NodeId} {g h i : Graph} (hgh : Outgrows k id g h)
    (hhi : Outgrows k id' h i) (hid : id' = id ∨ k ≤ id'.toNat) : Outgrows k id g i := by
  obtain ⟨-, ⟨ns, hns, hnumbers⟩, es, hes, hparents⟩ := hgh
  obtain ⟨hbeyond, ⟨ns', hns', hnumbers'⟩, es', hes', hparents'⟩ := hhi
  refine ⟨hbeyond, ⟨ns ++ ns', by rw [hns', hns, List.append_assoc], ?_⟩, es ++ es',
    by rw [hes', hes, List.append_assoc], ?_⟩
  · exact List.forall_mem_append.mpr ⟨hnumbers, hnumbers'⟩
  · refine List.forall_mem_append.mpr ⟨hparents, fun e he => ?_⟩
    rcases hparents' e he with heq | hle
    · exact heq ▸ hid
    · exact .inr hle

theorem Beyond.outgrows_add {k : Nat} {g : Graph} (h : Beyond k g) (parent : NodeId)
    (kind : NodeRole) (name : String) (value : Option Value) :
    Outgrows k parent g (g.add parent kind name value).1 := by
  refine ⟨h.add parent kind name value, ⟨_, Array.toList_push, ?_⟩, _, Array.toList_push, ?_⟩
  · intro n hn
    rw [List.mem_singleton.mp hn]
    exact h.le_nextId
  · intro e he
    rw [List.mem_singleton.mp he]
    exact .inl rfl

mutual

theorem Beyond.outgrows_plant {k : Nat} : ∀ (b : Branch) {g : Graph} (parent : NodeId),
    Beyond k g → Outgrows k parent g (plant g parent b)
  | .node kind name value below, g, parent, h => by
    have hadd := h.outgrows_add parent kind name value
    exact hadd.trans (Beyond.outgrows_plantAll below _ hadd.beyond) (.inr h.le_nextId)

theorem Beyond.outgrows_plantAll {k : Nat} : ∀ (bs : List Branch) {g : Graph} (parent : NodeId),
    Beyond k g → Outgrows k parent g (plantAll g parent bs)
  | [], _, parent, h => .refl h parent
  | b :: rest, _, parent, h =>
    have hplant := Beyond.outgrows_plant b parent h
    hplant.trans (Beyond.outgrows_plantAll rest parent hplant.beyond) (.inl rfl)

end

section Outgrows

variable {k : Nat} {id i : NodeId} {g h : Graph} (hgrow : Outgrows k id g h)
include hgrow

/-- A node that is found is still found. -/
theorem Outgrows.node?_eq_some {n : Node} (hn : g.node? i = some n) : h.node? i = some n := by
  obtain ⟨ns, hns, -⟩ := hgrow.nodes
  rw [node?, ← Array.find?_toList] at hn ⊢
  rw [hns, List.find?_append, hn]
  rfl

theorem Outgrows.root?_eq_some (hroot : g.root? = some i) : h.root? = some i := by
  obtain ⟨ns, hns, -⟩ := hgrow.nodes
  obtain ⟨n, hn, rfl⟩ := Option.map_eq_some_iff.mp hroot
  rw [← Array.find?_toList] at hn
  rw [root?, ← Array.find?_toList, hns, List.find?_append, hn]
  rfl

theorem Outgrows.node?_eq (hi : i.toNat < k) : h.node? i = g.node? i := by
  obtain ⟨ns, hns, hnumbers⟩ := hgrow.nodes
  have hnone : ns.find? (fun n => n.id == i) = none := by
    rw [List.find?_eq_none]
    intro n hn heq
    have := hnumbers n hn
    rw [eq_of_beq heq] at this
    omega
  rw [node?, node?, ← Array.find?_toList, ← Array.find?_toList, hns, List.find?_append, hnone,
    Option.or_none]

theorem Outgrows.children_eq (hi : i.toNat < k) (hne : i ≠ id) : h.children i = g.children i := by
  obtain ⟨es, hes, hparents⟩ := hgrow.edges
  have hnone : childrenOf es i = [] := by
    refine childrenOf_eq_nil es fun e he heq => ?_
    rcases hparents e he with hid | hle
    · exact hne (heq.symm.trans hid)
    · rw [heq] at hle
      omega
  show childrenOf h.edges.toList i = childrenOf g.edges.toList i
  rw [hes, childrenOf_append, hnone, List.append_nil]

end Outgrows

/-! ## What is below a node -/

/-- The numbers of a graph are those below a bound, and edges lead to greater ones. -/
structure Fills (g : Graph) (k : Nat) : Prop where
  beyond : Beyond k g
  node_lt : ∀ n ∈ g.nodes.toList, n.id.toNat < k
  edge_lt : ∀ e ∈ g.edges.toList, e.parent.toNat < e.child.toNat ∧ e.child.toNat < k

section Fills

variable {g : Graph} {k : Nat} (hfills : Fills g k)
include hfills

theorem Fills.child_lt {id child : NodeId} (hchild : child ∈ g.children id) :
    id.toNat < child.toNat ∧ child.toNat < k :=
  hfills.edge_lt ⟨id, child⟩ (mem_children.mp hchild)

theorem Fills.lt_of_mem_below {id : NodeId} {n : Node} (hn : n ∈ g.below id) :
    id.toNat < n.id.toNat ∧ n.id.toNat < k := by
  obtain ⟨child, hchild, hnode⟩ := List.mem_filterMap.mp hn
  rw [(mem_of_node?_eq_some hnode).2]
  exact hfills.child_lt hchild

variable {id : NodeId}

/-- A branch that is planted under a node is below it, after what was there. -/
theorem Fills.below_plant_self (hid : id.toNat < k) (b : Branch) :
    (plant g id b).below id = g.below id ++ [b.top g.nextId] := by
  obtain ⟨kind, name, value, below⟩ := b
  have hle := hfills.beyond.le_nextId
  have hadd := hfills.beyond.outgrows_add id kind name value
  have hbelow : Outgrows k g.nextId (g.add id kind name value).1
      (plant g id (.node kind name value below)) :=
    hadd.beyond.outgrows_plantAll below g.nextId
  have hgrow := hfills.beyond.outgrows_plant (.node kind name value below) id
  have hchildren : (plant g id (.node kind name value below)).children id =
      g.children id ++ [g.nextId] := by
    rw [hbelow.children_eq hid (by rintro rfl; omega)]
    show childrenOf (g.edges.push ⟨id, g.nextId⟩).toList id = _
    rw [Array.toList_push, childrenOf_append, childrenOf_cons_self]
    rfl
  -- no node had the number of the new one
  have hnew : (g.add id kind name value).1.node? g.nextId =
      some ⟨g.nextId, kind, name, value⟩ := by
    have hnone : g.nodes.toList.find? (fun n => n.id == g.nextId) = none := by
      rw [List.find?_eq_none]
      intro n hn heq
      have := hfills.node_lt n hn
      rw [eq_of_beq heq] at this
      omega
    show (g.nodes.push ⟨g.nextId, kind, name, value⟩).find? _ = _
    rw [← Array.find?_toList, Array.toList_push, List.find?_append, hnone, Option.none_or]
    exact List.find?_cons_of_pos (beq_self_eq_true g.nextId)
  rw [Graph.below, hchildren, List.filterMap_append, List.filterMap_cons_some
    (hbelow.node?_eq_some hnew)]
  refine congrArg (· ++ _) (List.filterMap_congr fun child hchild => ?_)
  exact hgrow.node?_eq (hfills.child_lt hchild).2

/-- All later nodes keep what is below them. -/
theorem Fills.below_plant_of_lt {i : NodeId} (hid : id.toNat < i.toNat) (hi : i.toNat < k)
    (b : Branch) : (plant g id b).below i = g.below i := by
  have hgrow := hfills.beyond.outgrows_plant b id
  rw [Graph.below, hgrow.children_eq hi (by rintro rfl; omega)]
  exact List.filterMap_congr fun child hchild => hgrow.node?_eq (hfills.child_lt hchild).2

end Fills

/-- A planted graph with numbers left has the first numbers. -/
theorem fills_plantAll (name : String) (bs : List Branch) (h : Branch.sizes bs + 1 < 2 ^ 32) :
    Fills (plantAll (Graph.ofRoot name).1 (Graph.ofRoot name).2 bs) (Branch.sizes bs + 1) := by
  have hplanted := planted_plantAll name bs h.le
  obtain ⟨hcount, -⟩ := push_spec (g := {}) rfl (by decide) .root name none
  have hroom : (Graph.ofRoot name).1.nodes.size + Branch.sizes bs ≤ 2 ^ 32 := by
    have hlength : (Graph.ofRoot name).1.nodes.size = 1 := rfl
    omega
  have hcounting : Counting (plantAll (Graph.ofRoot name).1 (Graph.ofRoot name).2 bs) :=
    (plantAll_spec bs 0 hcount hroom).1
  have hnumbers : numbers (plantAll (Graph.ofRoot name).1 (Graph.ofRoot name).2 bs) =
      List.range (Branch.sizes bs + 1) := by
    rw [numbers, hplanted.nodes_eq, List.range_eq_range']
    exact Branch.map_toNat_nodes (.node .root name none bs) (by rw [Branch.size]; omega)
  have hsize := congrArg List.length hnumbers
  rw [length_numbers, List.length_range] at hsize
  refine ⟨⟨fun i hi => ?_, ?_⟩, fun n hn => ?_, fun e he => ?_⟩
  · rw [hnumbers]
    exact List.mem_range.mpr hi
  · rw [hcounting.nextId_eq (hsize ▸ h), hsize, Branch.toNat_ofNat h]
  · have hmem : n.id.toNat ∈ numbers _ := List.mem_map.mpr ⟨n, hn, rfl⟩
    rw [hnumbers] at hmem
    exact List.mem_range.mp hmem
  · rw [hplanted.edges_eq] at he
    have := Branch.edges_bounds (.node .root name none bs) (by rw [Branch.size]; omega) e he
    rw [Branch.size] at this
    omega

end Catalogue.Graph
