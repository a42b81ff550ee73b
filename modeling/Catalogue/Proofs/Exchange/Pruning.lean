import Mathlib
import Catalogue.Proofs.Exchange.Contribution
import Catalogue.Proofs.Exchange.Traversal

/-!
# What associations keep to themselves

Below an association leaves name associated records and do nothing else. A graph whose associations
are cut off from what is below them is decoded to the same record without associated records, or to
the same error.

* `Graph.prune` — a graph without the edges from associations.
* `preorder_prune` — its stops are the stops outside associations.
* `decode_prune` — it is decoded to the same record without associated records.
-/

namespace Catalogue

namespace Graph

/-! ## Graphs without what is below associations -/

/-- An entity that opens an association. -/
def Node.opensAssociation (n : Node) : Bool :=
  n.kind = .entity && n.name == Schema.Entity.association.name

/-- A graph without the edges from associations. -/
def prune (g : Graph) : Graph :=
  { g with edges := g.edges.filter fun e => !(g.node? e.parent).any Node.opensAssociation }

variable {g : Graph}

theorem mem_prune {e : Edge} : e ∈ g.prune.edges.toList ↔
    e ∈ g.edges.toList ∧ (g.node? e.parent).any Node.opensAssociation = false := by
  simp [prune]

/-- An association has no children any more, and every other node has those it had. -/
theorem children_prune (id : NodeId) : g.prune.children id =
    if (g.node? id).any Node.opensAssociation then [] else g.children id := by
  rw [children, children, prune, Array.toList_filter, List.filter_filter]
  split
  · next h =>
    rw [List.map_eq_nil_iff, List.filter_eq_nil_iff]
    intro e _ hkept
    obtain ⟨hid, hkept⟩ := Bool.and_eq_true_iff.mp hkept
    rw [beq_iff_eq.mp hid, h] at hkept
    cases hkept
  · next h =>
    refine congrArg _ (List.filter_congr fun e _ => ?_)
    cases hid : e.parent == id with
    | false => rfl
    | true => simp [beq_iff_eq.mp hid, h]

/-- A valid graph stays valid. -/
theorem Valid.prune (h : g.Valid) : g.prune.Valid where
  nodup_ids := h.nodup_ids
  value_of_leaf := h.value_of_leaf
  one_root := h.one_root
  parent_mem e he := h.parent_mem e (mem_prune.mp he).1
  child_mem e he := h.child_mem e (mem_prune.mp he).1
  child_not_root e he := h.child_not_root e (mem_prune.mp he).1
  parent_not_leaf e he := h.parent_not_leaf e (mem_prune.mp he).1
  acyclic a hcycle := h.acyclic a (hcycle.lift id fun _ _ he => (mem_prune.mp he).1)

end Graph

namespace Exchange

open Catalogue.Graph
open Catalogue.Schema (Entity)

/-! ## Stops outside associations -/

/-- Entering an entity named as an association is what leads below one. -/
theorem Scope.enter_inAssociation (s : Scope) (name : String) :
    (s.enter name).inAssociation = (s.inAssociation || name == Entity.association.name) := by
  have hname : (Entity.ofName? name == some .association) = (name == Entity.association.name) := by
    rw [Bool.eq_iff_iff, beq_iff_eq, beq_iff_eq]
    exact Entity.ofName?_eq_some_iff
  rw [enter, hname]

theorem Scope.below_inAssociation (s : Scope) (n : Node) :
    (s.below n).inAssociation = (s.inAssociation || n.opensAssociation) := by
  cases hk : n.kind <;> simp [below, Node.opensAssociation, hk, enter_inAssociation]

/-- Whether no association is above. -/
def Stop.isOutside (s : Stop) : Bool := !s.scope.inAssociation

/-- A leaf is visited in the scope that it stands in. -/
theorem Stop.scope_of_visit {s : Stop} {n : Node} {scope : Scope} (h : .leaf n scope = s.visit) :
    s.scope = scope := by
  rw [visit] at h
  split at h
  · injection h with _ hscope
    exact hscope.symm
  · cases h

section Valid

variable {g : Graph} (hv : g.Valid)

/-- Below an association every stop is. -/
theorem inAssociation_of_mem_preorder {s : Scope} (hs : s.inAssociation = true) {id : NodeId}
    {stop : Stop} (hstop : stop ∈ preorder g hv s id) : stop.scope.inAssociation = true := by
  induction hcard : (g.descendants id).card using Nat.strongRecOn generalizing s id with
  | _ k ih =>
    cases hn : g.node? id with
    | none =>
      rw [preorder_of_none hv hn] at hstop
      cases hstop
    | some n =>
      rw [preorder_of_some hv hn, List.mem_append, List.mem_flatMap] at hstop
      rcases hstop with hself | ⟨child, hchild, hbelow⟩
      · rw [List.mem_singleton.mp (List.mem_of_mem_filter hself)]
        exact hs
      · refine ih _ (hcard ▸ hv.card_descendants_lt (mem_children.mp hchild)) ?_ hbelow rfl
        rw [Scope.below_inAssociation, hs, Bool.true_or]

/-- Without the edges from associations the stops outside associations are left. -/
theorem preorder_prune {s : Scope} (hs : s.inAssociation = false) (id : NodeId) :
    preorder g.prune hv.prune s id = (preorder g hv s id).filter Stop.isOutside := by
  induction hcard : (g.descendants id).card using Nat.strongRecOn generalizing s id with
  | _ k ih =>
    cases hn : g.node? id with
    | none => rw [preorder_of_none hv hn, preorder_of_none hv.prune hn, List.filter_nil]
    | some n =>
      have hself : ([Stop.mk n s].filter Stop.isStep).filter Stop.isOutside =
          [Stop.mk n s].filter Stop.isStep := by
        refine List.filter_eq_self.mpr fun stop hstop => ?_
        rw [List.mem_singleton.mp (List.mem_of_mem_filter hstop), Stop.isOutside, hs]
        rfl
      rw [preorder_of_some hv hn, preorder_of_some hv.prune hn, List.filter_append, hself,
        children_prune, hn, Option.any_some, List.filter_flatMap]
      cases hopens : n.opensAssociation with
      | true =>
        -- all that the graph has here stands below an association
        have hbelow : (s.below n).inAssociation = true := by
          rw [Scope.below_inAssociation, hopens, Bool.or_true]
        refine congrArg _ (Eq.symm (List.flatMap_eq_nil_iff.mpr fun child _ => ?_))
        refine List.filter_eq_nil_iff.mpr fun stop hstop => ?_
        simp [Stop.isOutside, inAssociation_of_mem_preorder hv hbelow hstop]
      | false =>
        have hbelow : (s.below n).inAssociation = false := by
          rw [Scope.below_inAssociation, hopens, hs, Bool.or_false]
        refine congrArg _ (List.flatMap_congr fun child hchild => ?_)
        exact ih _ (hcard ▸ hv.card_descendants_lt (mem_children.mp hchild)) hbelow child rfl

end Valid

/-! ## What a walk leaves behind outside associations -/

/-- The visits outside associations. -/
def outside (stops : List Stop) : List Visit := (stops.filter Stop.isOutside).map Stop.visit

theorem outside_cons (s : Stop) (rest : List Stop) :
    outside (s :: rest) = (if s.isOutside then [s.visit] else []) ++ outside rest := by
  rw [outside, List.filter_cons]
  split <;> rfl

/-- What leaves contribute only outside associations is contributed there. -/
theorem filterMap_readings_outside {β : Type} {f : Reading → Option β}
    (hf : ∀ {scope name v r}, Contributes scope name v r → scope.inAssociation = true → f r = none)
    (stops : List Stop) :
    (readings (outside stops)).filterMap f = (readings (stops.map Stop.visit)).filterMap f := by
  induction stops with
  | nil => rfl
  | cons s rest ih =>
    have hcons : readings ((s :: rest).map Stop.visit) =
        readings [s.visit] ++ readings (rest.map Stop.visit) := readings_append [s.visit] _
    rw [outside_cons, readings_append, hcons, List.filterMap_append, List.filterMap_append, ih]
    cases hs : s.scope.inAssociation with
    | false => rw [Stop.isOutside, hs]; rfl
    | true =>
      have hnone : (readings [s.visit]).filterMap f = [] := by
        rw [List.filterMap_eq_nil_iff]
        intro r hr
        obtain ⟨n, scope, v, hvisit, hcontributes⟩ := exists_contributes hr
        refine hf hcontributes ?_
        rw [← Stop.scope_of_visit (List.mem_singleton.mp hvisit), hs]
      rw [Stop.isOutside, hs, hnone]
      rfl

/-- Below an association no entity sets the type. -/
theorem products_outside (stops : List Stop) :
    products (outside stops) = products (stops.map Stop.visit) := by
  induction stops with
  | nil => rfl
  | cons s rest ih =>
    have hcons : products ((s :: rest).map Stop.visit) =
        products [s.visit] ++ products (rest.map Stop.visit) := products_append [s.visit] _
    rw [outside_cons, products_append, hcons, ih]
    cases hs : s.scope.inAssociation with
    | false => rw [Stop.isOutside, hs]; rfl
    | true =>
      have hnone : s.visit.product? = none := by
        rw [Stop.visit]
        split
        · rfl
        · simp [Visit.product?, Scope.enter_inAssociation, hs]
      have hproducts : products [s.visit] = [] := List.filterMap_cons_none hnone
      rw [Stop.isOutside, hs, hproducts]
      rfl

/-- Outside associations no associated record is named. -/
theorem associates_outside (stops : List Stop) :
    (readings (outside stops)).filterMap Reading.associate? = [] := by
  rw [List.filterMap_eq_nil_iff]
  intro r hr
  obtain ⟨n, scope, v, hvisit, hcontributes⟩ := exists_contributes hr
  obtain ⟨s, hs, hleaf⟩ := List.mem_map.mp hvisit
  refine hcontributes.outside ?_
  rw [← Stop.scope_of_visit hleaf.symm]
  simpa [Stop.isOutside] using (List.mem_filter.mp hs).2

/-- The visits outside associations come to the same draft without associated records, or to the
same error. -/
theorem follow_outside (mode : Narrowing) (stops : List Stop) :
    (Draft.follow mode {} (outside stops)).result =
      (Draft.follow mode {} (stops.map Stop.visit)).result.map
        (fun d => { d with associated := #[] }) := by
  have hwrites := filterMap_readings_outside (fun hr h => (hr.inside h).1) stops
  have hmarks := filterMap_readings_outside (fun hr h => (hr.inside h).2.1) stops
  have hrefusal : (readings (outside stops)).findSome? Reading.refusal? =
      (readings (stops.map Stop.visit)).findSome? Reading.refusal? := by
    rw [← List.head?_filterMap, ← List.head?_filterMap,
      filterMap_readings_outside fun hr h => (hr.inside h).2.2]
  rw [Draft.follow_result, Draft.follow_result, hrefusal]
  cases (readings (stops.map Stop.visit)).findSome? Reading.refusal? with
  | some e => rfl
  | none =>
    simp [Draft.settle, Except.map, hwrites, hmarks, products_outside, associates_outside]

/-! ## Decoding -/

/--
Cutting associations off from what is below them takes the associated records from a record and
changes nothing else: the values, the markings and the type stay as they are, and an error stays the
same error.
-/
theorem decode_prune {g : Graph} {t : Topology} (h : g.topology = .ok t) (fallback : String)
    (mode : Narrowing) :
    (∃ t', g.prune.topology = .ok t') ∧
      (decode fallback mode g.prune).result =
        (decode fallback mode g).result.map fun r => { r with associations := [] } := by
  have hv := valid_of_topology_eq_ok h
  obtain ⟨t', h'⟩ := hv.prune.exists_topology
  have hroot : t'.root = t.root := by
    have hsame : g.prune.root? = g.root? := rfl
    rw [(topology_ok h).2.1, (topology_ok h').2.1] at hsame
    exact Option.some.inj hsame
  have hvisits : visits t' = outside (preorder g hv {} t.root) := by
    rw [visits_eq_preorder h', hroot, preorder_prune hv rfl, outside]
  refine ⟨⟨t', h'⟩, ?_⟩
  rw [decode_of_topology h', decode_of_topology h, conclude_result, conclude_result, hvisits,
    visits_eq_preorder h, follow_outside]
  cases (Draft.follow mode {} ((preorder g hv {} t.root).map Stop.visit)).result <;> rfl

/-- An association that shares a card with the product, and has an image and a malformed box of its
own. -/
def laden : Graph where
  nodes := #[⟨0, .root, "product", none⟩, ⟨1, .entity, "association", none⟩,
    ⟨2, .entity, "card", none⟩, ⟨3, .leaf, "identifier", some (.text "a")⟩,
    ⟨4, .entity, "imagery", none⟩, ⟨5, .entity, "coverage", none⟩,
    ⟨6, .leaf, "spatialGeographicReferenceBox", some (.text "POINT")⟩]
  edges := #[⟨0, 1⟩, ⟨0, 2⟩, ⟨1, 4⟩, ⟨2, 3⟩, ⟨1, 2⟩, ⟨1, 5⟩, ⟨5, 6⟩]

theorem decode_prune_laden : ∃ t, laden.topology = .ok t ∧
    (decode "REPORT" .legacy laden).result = .ok
      { attributes := [("id", .text "a")], associations := ["a"], contentType := some "REPORT" } ∧
    (decode "REPORT" .legacy laden.prune).result = .ok
      { attributes := [("id", .text "a")], associations := [], contentType := some "REPORT" } := by
  have hladen : (decode "REPORT" .legacy laden).result = .ok
      { attributes := [("id", .text "a")], associations := ["a"]
        contentType := some "REPORT" } := by
    cbv
  refine ⟨_, rfl, hladen, ?_⟩
  rw [(decode_prune rfl "REPORT" .legacy).2, hladen]
  rfl

end Exchange

end Catalogue
