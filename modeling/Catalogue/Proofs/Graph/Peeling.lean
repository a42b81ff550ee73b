import Catalogue.Graph.Topology
import Mathlib.Data.Fintype.EquivFin
import Mathlib.Data.Fintype.Sets

/-!
# Taking nodes away

Nodes that no remaining edge leads to are taken away one by one. The count kept for a node is at
all times the number of edges to it from nodes that are still there, so nothing is removed that
was not counted, and the nodes that are left in the end are those on a cycle or behind one.

* `Peeling.Balanced` — the counts agree with the edges; every step keeps this.
* `Peeling.Balanced.pending_counted` — a count that is lowered is at least one.
* `balanced_peel` — how it ends: no node is ready any more.
* `hasParent_peel_iff`, `no_cycle_of_taken` — what is left is on a cycle or behind one, and when
  nothing is left there is no cycle.
-/

namespace Catalogue.Graph

open Relation (TransGen)

/-! ## Edges -/

/-- An edge leads from one node to the other. -/
def LeadsTo (edges : List Edge) (a b : NodeId) : Prop := ⟨a, b⟩ ∈ edges

/-- The children that edges give to a node. -/
def childrenOf (edges : List Edge) (id : NodeId) : List NodeId :=
  (edges.filter (fun e => e.parent == id)).map Edge.child

/-- The edges that count for a node when some nodes are taken away and some edges of the last one
are still pending. -/
def openEdges (edges : List Edge) (done pending : List NodeId) (id : NodeId) : Nat :=
  edges.countP (fun e => e.child = id ∧ e.parent ∉ done) + pending.count id

theorem openEdges_nil (edges : List Edge) (id : NodeId) :
    openEdges edges [] [] id = edges.countP (fun e => e.child = id) := by
  simp [openEdges]

theorem openEdges_pending_self (edges : List Edge) (done rest : List NodeId) (child : NodeId) :
    openEdges edges done (child :: rest) child = openEdges edges done rest child + 1 := by
  rw [openEdges, openEdges, List.count_cons_self, Nat.add_assoc]

theorem openEdges_pending_of_ne (edges : List Edge) (done rest : List NodeId)
    {child id : NodeId} (h : child ≠ id) :
    openEdges edges done (child :: rest) id = openEdges edges done rest id := by
  rw [openEdges, openEdges, List.count_cons_of_ne h]

/-- The edges of a node that is taken away become pending. -/
theorem openEdges_take (edges : List Edge) {done : List NodeId} {taken : NodeId}
    (h : taken ∉ done) (id : NodeId) :
    openEdges edges (done ++ [taken]) (childrenOf edges taken) id = openEdges edges done [] id := by
  induction edges with
  | nil => simp [openEdges, childrenOf]
  | cons e rest ih =>
    simp only [openEdges, childrenOf, List.count_nil, Nat.add_zero, List.mem_append,
      List.mem_singleton] at ih ⊢
    rw [List.countP_cons, List.countP_cons, List.filter_cons]
    by_cases hparent : e.parent = taken
    · simp only [hparent, h, beq_self_eq_true, if_true, List.map_cons, List.count_cons, beq_iff_eq,
        or_true, not_true, and_false, decide_false, not_false_eq_true, and_true, decide_eq_true_eq]
      simp only [Bool.false_eq_true, if_false]
      omega
    · simp only [hparent, or_false, beq_iff_eq, if_false]
      omega

/-- No open edge leads to a node when all its parents are taken away. -/
theorem openEdges_eq_zero_iff {edges : List Edge} {done : List NodeId} {id : NodeId} :
    openEdges edges done [] id = 0 ↔ ∀ parent, LeadsTo edges parent id → parent ∈ done := by
  simp only [openEdges, List.count_nil, Nat.add_zero, List.countP_eq_zero]
  constructor
  · intro h parent hleads
    simpa using h _ hleads
  · rintro h ⟨parent, child⟩ he
    by_cases hchild : child = id
    · subst hchild
      simpa using h parent he
    · simp [hchild]

/-! ## The indices of the edges -/

/-- The children of every node, in the order of their edges. -/
theorem get?_children_connect (nodes : List Node) (edges : List Edge) (id : NodeId) :
    ((connect nodes edges).children.get? id).getD [] = childrenOf edges id := by
  induction edges with
  | nil => simp [connect, noEdges, childrenOf, Index.get?_empty]
  | cons e rest ih =>
    show (((connect nodes rest).children.update e.parent _).get? id).getD [] = _
    by_cases h : e.parent = id
    · subst h
      rw [Index.get?_update_self, Option.getD_some, ih]
      simp [childrenOf]
    · rw [Index.get?_update_of_ne _ _ h, ih]
      simp [childrenOf, h]

theorem get?_degrees_noEdges (nodes : List Node) (id : NodeId) :
    (noEdges nodes).degrees.get? id = if id ∈ nodes.map Node.id then some 0 else none := by
  have hfold : ∀ (l : List Node) (t : Index Int),
      (l.foldl (fun t n => t.update n.id fun _ => 0) t).get? id =
        if id ∈ l.map Node.id then some 0 else t.get? id := by
    intro l
    induction l with
    | nil => simp
    | cons n rest ih =>
      intro t
      rw [List.foldl_cons, ih, List.map_cons]
      by_cases hrest : id ∈ rest.map Node.id
      · simp [hrest]
      · by_cases h : n.id = id
        · subst h
          simp [Index.get?_update_self]
        · rw [Index.get?_update_of_ne _ _ h]
          simp [hrest, Ne.symm h]
  rw [noEdges, hfold, Index.get?_empty]

/-- The number of edges to every node. -/
theorem get?_degrees_connect {nodes : List Node} {edges : List Edge}
    (h : ∀ e ∈ edges, e.child ∈ nodes.map Node.id) (id : NodeId) :
    (connect nodes edges).degrees.get? id =
      if id ∈ nodes.map Node.id then some (openEdges edges [] [] id : Int) else none := by
  induction edges with
  | nil => exact get?_degrees_noEdges nodes id
  | cons e rest ih =>
    have hrest := ih fun d hd => h d (List.mem_cons_of_mem _ hd)
    have hchild := h e List.mem_cons_self
    rw [openEdges_nil] at hrest ⊢
    show ((connect nodes rest).degrees.update e.child _).get? id = _
    by_cases hid : e.child = id
    · subst hid
      rw [Index.get?_update_self, hrest, if_pos hchild, if_pos hchild]
      simp
    · rw [Index.get?_update_of_ne _ _ hid, hrest]
      simp [hid]

namespace Peeling

/-! ## The invariant -/

/-- The counts agree with the edges, given the nodes taken away so far and the pending children of
the last one. -/
structure Balanced (ids : List NodeId) (edges : List Edge) (done pending : List NodeId)
    (p : Peeling) : Prop where
  taken_eq : p.taken = done.length
  nodup : (done ++ p.ready).Nodup
  mem_ids : ∀ id ∈ done ++ p.ready, id ∈ ids
  degree : ∀ id, p.degrees.get? id =
    if id ∈ ids then some (openEdges edges done pending id : Int) else none
  free_iff : ∀ id ∈ ids, openEdges edges done pending id = 0 ↔ id ∈ done ++ p.ready
  /-- No path of edges to a node that was taken away goes back forever. -/
  grounded : ∀ id ∈ done, Acc (LeadsTo edges) id

namespace Balanced

variable {ids : List NodeId} {edges : List Edge} {done pending : List NodeId} {p : Peeling}

/-- The count of a pending child is at least one. -/
theorem pending_counted {child : NodeId} (h : Balanced ids edges done (child :: pending) p)
    (hchild : child ∈ ids) : ∃ d, p.degrees.get? child = some d ∧ 1 ≤ d := by
  refine ⟨_, by rw [h.degree, if_pos hchild], ?_⟩
  rw [openEdges_pending_self]
  omega

theorem release {child : NodeId} (h : Balanced ids edges done (child :: pending) p)
    (hchild : child ∈ ids) : Balanced ids edges done pending (p.release child) := by
  have hget := h.degree child
  rw [if_pos hchild, openEdges_pending_self] at hget
  have hd : ((openEdges edges done pending child + 1 : Nat) : Int) - 1 =
      openEdges edges done pending child := by omega
  -- one more edge to the child is open, so it is not yet free
  have hbefore : child ∉ done ++ p.ready := by
    rw [← h.free_iff child hchild, openEdges_pending_self]
    omega
  have hdegree : ∀ id, (p.degrees.update child fun _ =>
      (openEdges edges done pending child : Int)).get? id =
        if id ∈ ids then some (openEdges edges done pending id : Int) else none := by
    intro id
    by_cases hid : child = id
    · subst hid
      rw [Index.get?_update_self, if_pos hchild]
    · rw [Index.get?_update_of_ne _ _ hid, h.degree, openEdges_pending_of_ne _ _ _ hid]
  have hothers : ∀ id ∈ ids, child ≠ id →
      (openEdges edges done pending id = 0 ↔ id ∈ done ++ p.ready) := by
    intro id hmem hid
    rw [← h.free_iff id hmem, openEdges_pending_of_ne _ _ _ hid]
  rw [Peeling.release, hget]
  simp only [hd]
  -- the last open edge makes the child ready
  by_cases hzero : (openEdges edges done pending child : Int) = 0
  · rw [if_pos hzero]
    have hperm : (done ++ child :: p.ready).Perm (child :: (done ++ p.ready)) := List.perm_middle
    refine ⟨h.taken_eq, ?_, ?_, hdegree, ?_, h.grounded⟩
    · exact hperm.nodup_iff.mpr (List.nodup_cons.mpr ⟨hbefore, h.nodup⟩)
    · intro id hmem
      rcases List.mem_cons.mp (hperm.mem_iff.mp hmem) with rfl | hmem
      · exact hchild
      · exact h.mem_ids id hmem
    · intro id hmem
      rw [hperm.mem_iff, List.mem_cons]
      by_cases hid : child = id
      · subst hid
        exact ⟨fun _ => .inl rfl, fun _ => by omega⟩
      · rw [hothers id hmem hid]
        exact ⟨.inr, fun hor => hor.resolve_left (Ne.symm hid)⟩
  · rw [if_neg hzero]
    refine ⟨h.taken_eq, h.nodup, h.mem_ids, hdegree, ?_, h.grounded⟩
    intro id hmem
    by_cases hid : child = id
    · subst hid
      exact ⟨fun hnone => absurd (by omega) hzero, fun hmem => absurd hmem hbefore⟩
    · exact hothers id hmem hid

theorem foldl_release {later : List NodeId} (h : Balanced ids edges done (pending ++ later) p)
    (hmem : ∀ child ∈ pending, child ∈ ids) :
    Balanced ids edges done later (pending.foldl Peeling.release p) := by
  induction pending generalizing p with
  | nil => exact h
  | cons child rest ih =>
    exact ih (h.release (hmem child List.mem_cons_self))
      fun c hc => hmem c (List.mem_cons_of_mem _ hc)

/-- A node that is ready is taken away, and its children become pending. -/
theorem begin_take {id : NodeId} {rest : List NodeId} (h : Balanced ids edges done [] p)
    (hready : p.ready = id :: rest) :
    Balanced ids edges (done ++ [id]) (childrenOf edges id)
      { p with ready := rest, taken := p.taken + 1 } := by
  have hlist : done ++ [id] ++ rest = done ++ p.ready := by simp [hready]
  have hnodup := h.nodup
  rw [hready] at hnodup
  have hnot : id ∉ done := fun hmem =>
    (List.nodup_append.mp hnodup).2.2 id hmem id List.mem_cons_self rfl
  have hid : id ∈ done ++ p.ready := by simp [hready]
  have hfree := (h.free_iff id (h.mem_ids id hid)).mpr hid
  refine ⟨?_, ?_, ?_, ?_, ?_, ?_⟩
  · rw [List.length_append, ← h.taken_eq]
    rfl
  · rw [hlist]
    exact h.nodup
  · rw [hlist]
    exact h.mem_ids
  · intro other
    rw [openEdges_take edges hnot]
    exact h.degree other
  · intro other
    rw [openEdges_take edges hnot, hlist]
    exact h.free_iff other
  · intro other hmem
    rcases List.mem_append.mp hmem with hmem | hmem
    · exact h.grounded other hmem
    -- all parents of a free node were taken away before, so paths to it are grounded with theirs
    · rw [List.mem_singleton.mp hmem]
      exact ⟨id, fun parent hleads => h.grounded parent (openEdges_eq_zero_iff.mp hfree _ hleads)⟩

theorem length_le (h : Balanced ids edges done pending p) :
    done.length + p.ready.length ≤ ids.length := by
  have := h.nodup.length_le_of_subset h.mem_ids
  rwa [List.length_append] at this

/-- Without pending edges a node has a count when it was neither taken away nor is ready. -/
theorem hasParent_iff (h : Balanced ids edges done [] p) {n : Node} (hmem : n.id ∈ ids) :
    hasParent p.degrees n = true ↔ n.id ∉ done ++ p.ready := by
  rw [← h.free_iff _ hmem, hasParent, h.degree, if_pos hmem, Option.getD_some, decide_eq_true_iff]
  omega

/-- In the end a node has a count when it was not taken away. -/
theorem hasParent_iff_left (h : Balanced ids edges done [] p) (hend : p.ready = []) {n : Node}
    (hmem : n.id ∈ ids) : hasParent p.degrees n = true ↔ n.id ∉ done := by
  rw [h.hasParent_iff hmem, hend, List.append_nil]

end Balanced

/-! ## All steps -/

section Steps

variable {ids : List NodeId} {edges : List Edge} {table : Index (List NodeId)}

theorem Balanced.take {done rest : List NodeId} {p : Peeling} {id : NodeId}
    (htable : ∀ id, (table.get? id).getD [] = childrenOf edges id)
    (hchild : ∀ e ∈ edges, e.child ∈ ids) (h : Balanced ids edges done [] p)
    (hready : p.ready = id :: rest) :
    Balanced ids edges (done ++ [id]) [] (p.take table) := by
  rw [Peeling.take, hready]
  simp only [htable]
  have hbegin := h.begin_take hready
  rw [← List.append_nil (childrenOf edges id)] at hbegin
  refine foldl_release hbegin fun child hmem => ?_
  obtain ⟨e, he, rfl⟩ := List.mem_map.mp hmem
  exact hchild e (List.mem_of_mem_filter he)

theorem run_of_ready_nil {p : Peeling} (h : p.ready = []) (rounds : Nat) :
    Peeling.run table rounds p = p := by
  induction rounds with
  | zero => rfl
  | succ n ih =>
    have htake : p.take table = p := by rw [Peeling.take, h]
    rw [Peeling.run, htake, ih]

/-- The counts agree with the edges after any number of rounds, and after as many rounds as there
are nodes no node is ready. -/
theorem Balanced.run (htable : ∀ id, (table.get? id).getD [] = childrenOf edges id)
    (hchild : ∀ e ∈ edges, e.child ∈ ids) {done : List NodeId} {p : Peeling}
    (h : Balanced ids edges done [] p) (rounds : Nat) :
    ∃ done', Balanced ids edges done' [] (Peeling.run table rounds p) ∧
      (ids.length ≤ done.length + rounds → (Peeling.run table rounds p).ready = []) := by
  induction rounds generalizing done p with
  | zero =>
    refine ⟨done, h, fun hle => ?_⟩
    have := h.length_le
    rw [Peeling.run, ← List.length_eq_zero_iff]
    omega
  | succ n ih =>
    cases hready : p.ready with
    | nil =>
      rw [run_of_ready_nil hready]
      exact ⟨done, h, fun _ => hready⟩
    | cons id rest =>
      obtain ⟨done', hrun, hend⟩ := ih (h.take htable hchild hready)
      refine ⟨done', hrun, fun hle => hend ?_⟩
      rw [List.length_append, List.length_singleton]
      omega

end Steps

/-- Before any node is taken away. -/
def start (nodes : List Node) (a : Adjacency) : Peeling where
  ready := ((nodes.filter (fun n => !hasParent a.degrees n)).map Node.id).reverse
  degrees := a.degrees
  taken := 0

theorem balanced_start {nodes : List Node} {edges : List Edge}
    (hnodup : (nodes.map Node.id).Nodup)
    (hchild : ∀ e ∈ edges, e.child ∈ nodes.map Node.id) :
    Balanced (nodes.map Node.id) edges [] [] (start nodes (connect nodes edges)) := by
  have hdegree := get?_degrees_connect hchild
  -- ready at the start are exactly the nodes without an edge to them
  have hready : ∀ id, id ∈ (start nodes (connect nodes edges)).ready ↔
      id ∈ nodes.map Node.id ∧ openEdges edges [] [] id = 0 := by
    intro id
    simp only [start, List.mem_reverse, List.mem_map, List.mem_filter]
    constructor
    · rintro ⟨n, ⟨hn, hfree⟩, rfl⟩
      have hmem : n.id ∈ nodes.map Node.id := List.mem_map.mpr ⟨n, hn, rfl⟩
      refine ⟨⟨n, hn, rfl⟩, ?_⟩
      rw [hasParent, hdegree, if_pos hmem] at hfree
      simpa using hfree
    · rintro ⟨⟨n, hn, rfl⟩, hzero⟩
      have hmem : n.id ∈ nodes.map Node.id := List.mem_map.mpr ⟨n, hn, rfl⟩
      refine ⟨n, ⟨hn, ?_⟩, rfl⟩
      rw [hasParent, hdegree, if_pos hmem, hzero]
      rfl
  refine ⟨rfl, ?_, ?_, hdegree, ?_, by simp⟩
  · rw [List.nil_append, start]
    exact List.nodup_reverse.mpr (hnodup.sublist (List.filter_sublist.map _))
  · intro id hid
    exact ((hready id).mp hid).1
  · intro id hid
    rw [List.nil_append, hready]
    exact ⟨fun hzero => ⟨hid, hzero⟩, And.right⟩

/-- The loop comes to a pending child: its count is to be lowered next, after those of the children
before it. -/
def Lowers (nodes : List Node) (edges : List Edge) (p : Peeling) (child : NodeId) : Prop :=
  let a := connect nodes edges
  ∃ rounds id rest before after,
    let q := run a.children rounds (start nodes a)
    q.ready = id :: rest ∧ (a.children.get? id).getD [] = before ++ child :: after ∧
      p = before.foldl release { q with ready := rest, taken := q.taken + 1 }

/-- Every count that is lowered is at least one. -/
theorem counted_of_lowers {nodes : List Node} {edges : List Edge}
    (hnodup : (nodes.map Node.id).Nodup)
    (hchild : ∀ e ∈ edges, e.child ∈ nodes.map Node.id) {p : Peeling} {child : NodeId}
    (h : Lowers nodes edges p child) : ∃ d, p.degrees.get? child = some d ∧ 1 ≤ d := by
  obtain ⟨rounds, id, rest, before, after, hready, hsplit, rfl⟩ := h
  rw [get?_children_connect] at hsplit
  have hmem : ∀ c ∈ childrenOf edges id, c ∈ nodes.map Node.id := by
    intro c hc
    obtain ⟨e, he, rfl⟩ := List.mem_map.mp hc
    exact hchild e (List.mem_of_mem_filter he)
  rw [hsplit] at hmem
  obtain ⟨done, hrun, -⟩ :=
    (balanced_start hnodup hchild).run (get?_children_connect nodes edges) hchild rounds
  have hbegin := hrun.begin_take hready
  rw [hsplit] at hbegin
  have hbefore := hbegin.foldl_release fun c hc => hmem c (List.mem_append_left _ hc)
  exact hbefore.pending_counted (hmem child (by simp))

end Peeling

open Peeling

/-- In the end no node is ready, and the counts agree with the edges. -/
theorem balanced_peel {nodes : List Node} {edges : List Edge}
    (hnodup : (nodes.map Node.id).Nodup)
    (hchild : ∀ e ∈ edges, e.child ∈ nodes.map Node.id) :
    ∃ done, Balanced (nodes.map Node.id) edges done [] (peel nodes (connect nodes edges)) ∧
      (peel nodes (connect nodes edges)).ready = [] := by
  obtain ⟨done, hrun, hend⟩ :=
    (balanced_start hnodup hchild).run (get?_children_connect nodes edges) hchild nodes.length
  exact ⟨done, hrun, hend (by simp)⟩

/-! ## Cycles -/

theorem no_cycle_of_acc {edges : List Edge} {id : NodeId} (h : Acc (LeadsTo edges) id) :
    ¬ TransGen (LeadsTo edges) id id := by
  have hacc := h.transGen
  intro hcycle
  induction hacc with
  | intro a _ ih => exact ih a hcycle (h.inv_of_transGen hcycle) hcycle

/-- When every node of a finite set has a parent in the set, every one is on a cycle or behind
one. -/
theorem exists_cycle_of_left {edges : List Edge} {left : List NodeId}
    (hparent : ∀ b ∈ left, ∃ a ∈ left, LeadsTo edges a b) {id : NodeId} (hid : id ∈ left) :
    ∃ a, TransGen (LeadsTo edges) a a ∧ (a = id ∨ TransGen (LeadsTo edges) a id) := by
  by_contra hnone
  -- without a cycle the nodes before `id` are well-founded, but each of them has a parent
  let Before := { a : { a // a ∈ left } // a.1 = id ∨ TransGen (LeadsTo edges) a.1 id }
  let r : Before → Before → Prop := fun a b => TransGen (LeadsTo edges) a.1.1 b.1.1
  have : IsTrans Before r := ⟨fun a b c hab hbc => hab.trans hbc⟩
  have : Std.Irrefl r := ⟨fun a hcycle => hnone ⟨a.1.1, hcycle, a.2⟩⟩
  have hnever : ∀ a : Before, False := by
    intro a
    induction a using (Finite.wellFounded_of_trans_of_irrefl r).induction with
    | _ a ih =>
      obtain ⟨⟨b, hleft⟩, hbefore⟩ := a
      obtain ⟨parent, hmem, hleads⟩ := hparent b hleft
      refine ih ⟨⟨parent, hmem⟩, .inr ?_⟩ (.single hleads)
      rcases hbefore with rfl | hbefore
      · exact .single hleads
      · exact (TransGen.single hleads).trans hbefore
  exact hnever ⟨⟨id, hid⟩, .inl rfl⟩

section Outcome

variable {nodes : List Node} {edges : List Edge}

/-- A node that is left has a parent that is left. -/
theorem exists_parent_left {ids done : List NodeId} {p : Peeling}
    (h : Balanced ids edges done [] p) (hend : p.ready = [])
    (hparent : ∀ e ∈ edges, e.parent ∈ ids) :
    ∀ b ∈ ids.filter (· ∉ done), ∃ a ∈ ids.filter (· ∉ done), LeadsTo edges a b := by
  intro b hb
  obtain ⟨hmem, hleft⟩ := List.mem_filter.mp hb
  have hopen : openEdges edges done [] b ≠ 0 := by
    rw [Ne, h.free_iff b hmem, hend, List.append_nil]
    simpa using hleft
  rw [Ne, openEdges_eq_zero_iff] at hopen
  simp only [not_forall, exists_prop] at hopen
  obtain ⟨a, hleads, ha⟩ := hopen
  exact ⟨a, List.mem_filter.mpr ⟨hparent _ hleads, by simpa using ha⟩, hleads⟩

/-- When all nodes are taken away there is no cycle. -/
theorem no_cycle_of_taken (hnodup : (nodes.map Node.id).Nodup)
    (hchild : ∀ e ∈ edges, e.child ∈ nodes.map Node.id)
    (htaken : (peel nodes (connect nodes edges)).taken = nodes.length) (id : NodeId) :
    ¬ TransGen (LeadsTo edges) id id := by
  obtain ⟨done, hpeel, hend⟩ := balanced_peel hnodup hchild
  intro hcycle
  have hid : id ∈ nodes.map Node.id := by
    cases hcycle with
    | single hleads => exact hchild _ hleads
    | tail _ hleads => exact hchild _ hleads
  have hdone : id ∈ done := by
    by_contra hleft
    -- a node left over would be one too many to count
    have hnodup' : (id :: done).Nodup := by
      have := hpeel.nodup
      rw [hend, List.append_nil] at this
      exact List.nodup_cons.mpr ⟨hleft, this⟩
    have hsub : id :: done ⊆ nodes.map Node.id := by
      intro x hx
      rcases List.mem_cons.mp hx with rfl | hx
      · exact hid
      · exact hpeel.mem_ids x (List.mem_append_left _ hx)
    have hlen := hnodup'.length_le_of_subset hsub
    rw [List.length_cons, List.length_map, ← htaken, hpeel.taken_eq] at hlen
    omega
  exact no_cycle_of_acc (hpeel.grounded id hdone) hcycle

/-- The nodes that are left are those on a cycle or behind one. -/
theorem hasParent_peel_iff (hnodup : (nodes.map Node.id).Nodup)
    (hparent : ∀ e ∈ edges, e.parent ∈ nodes.map Node.id)
    (hchild : ∀ e ∈ edges, e.child ∈ nodes.map Node.id) {n : Node} (hn : n ∈ nodes) :
    hasParent (peel nodes (connect nodes edges)).degrees n = true ↔
      ∃ a, TransGen (LeadsTo edges) a a ∧ (a = n.id ∨ TransGen (LeadsTo edges) a n.id) := by
  obtain ⟨done, hpeel, hend⟩ := balanced_peel hnodup hchild
  have hmem : n.id ∈ nodes.map Node.id := List.mem_map.mpr ⟨n, hn, rfl⟩
  rw [hpeel.hasParent_iff_left hend hmem]
  constructor
  · intro hleft
    exact exists_cycle_of_left (exists_parent_left hpeel hend hparent)
      (List.mem_filter.mpr ⟨hmem, by simpa using hleft⟩)
  -- no path leads from a cycle to a node that was taken away
  · rintro ⟨a, hcycle, hpath⟩ hdone
    have hacc := hpeel.grounded n.id hdone
    rcases hpath with rfl | hpath
    · exact no_cycle_of_acc hacc hcycle
    · exact no_cycle_of_acc (hacc.inv_of_transGen hpath) hcycle

/-- When not all nodes are taken away, the first one left is on a cycle or behind one. -/
theorem exists_cycle_of_stuck (hnodup : (nodes.map Node.id).Nodup)
    (hparent : ∀ e ∈ edges, e.parent ∈ nodes.map Node.id)
    (hchild : ∀ e ∈ edges, e.child ∈ nodes.map Node.id)
    (htaken : (peel nodes (connect nodes edges)).taken ≠ nodes.length) :
    ∃ n ∈ nodes, nodes.find? (hasParent (peel nodes (connect nodes edges)).degrees) = some n ∧
      ∃ a, TransGen (LeadsTo edges) a a ∧ (a = n.id ∨ TransGen (LeadsTo edges) a n.id) := by
  -- a node with a parent is left, since otherwise all would be taken
  cases hfind : nodes.find? (hasParent (peel nodes (connect nodes edges)).degrees) with
  | some n =>
    have hn := List.mem_of_find?_eq_some hfind
    exact ⟨n, hn, rfl, (hasParent_peel_iff hnodup hparent hchild hn).mp (List.find?_some hfind)⟩
  | none =>
    obtain ⟨done, hpeel, hend⟩ := balanced_peel hnodup hchild
    have hsub : nodes.map Node.id ⊆ done := by
      intro id hid
      obtain ⟨n, hn, rfl⟩ := List.mem_map.mp hid
      by_contra hnot
      exact List.find?_eq_none.mp hfind n hn ((hpeel.hasParent_iff_left hend hid).mpr hnot)
    have hle := hnodup.length_le_of_subset hsub
    have hge := hpeel.length_le
    rw [hend, List.length_nil, List.length_map] at hge
    rw [List.length_map] at hle
    exact absurd (by rw [hpeel.taken_eq]; omega) htaken

end Outcome

end Catalogue.Graph
