import Catalogue.Proofs.Exchange.Lineage
import Catalogue.Proofs.Exchange.Traversal

/-!
# Associated records

The associations of a decoded record are the texts of the identifiers below associations. In a
graph in which no two edges lead to one node, each of them is taken once, in the order of the
paths. What is above a leaf is read off its scope: whether an association is, and which entity is
the nearest. An identifier whose nearest entity is unknown to the schema is not taken.

* `InOrder` — the nodes with a property, in depth-first order along the edges.
* `inOrder_filter` — stops that are kept by a property of their nodes are in this order.
* `associations_of_decode` — the associations of a decoded record, stop by stop.
* `decode_associations` — they are the texts of the identifiers below associations, in order.
-/

namespace Catalogue

open Catalogue.Graph
open Catalogue.Schema (Entity)
open Relation (ReflTransGen)

/-- The text that a node has as its value. -/
def Graph.Node.text? (n : Node) : Option String := n.value.bind Value.text?

namespace Exchange

/-! ## Nodes in order -/

/-- The path from the root to the first node is before that to the second one, position by position,
so that a walk depth first along the edges comes to the first node earlier. -/
def Precedes (g : Graph) (root : NodeId) (m n : Node) : Prop :=
  ∃ p q, (stopAt? g {} root p).map Stop.node = some m ∧
    (stopAt? g {} root q).map Stop.node = some n ∧ p < q

/-- The nodes with a property, each once, in depth-first order along the edges. -/
structure InOrder (g : Graph) (root : NodeId) (P : Node → Prop) (nodes : List Node) : Prop where
  nodup : nodes.Nodup
  mem_iff : ∀ n, n ∈ nodes ↔ P n
  ordered : nodes.Pairwise (Precedes g root)

/-- The stops at the ends of sorted paths follow one another. -/
theorem pairwise_precedes {g : Graph} {root : NodeId} {paths : List (List Nat)}
    (h : paths.Pairwise (· < ·)) : (paths.filterMap (stopAt? g {} root)).Pairwise
      fun a b => Precedes g root a.node b.node := by
  refine List.pairwise_filterMap.mpr (h.imp fun {p q} hlt a ha b hb => ?_)
  exact ⟨p, q, by rw [ha]; rfl, by rw [hb]; rfl, hlt⟩

/-- Steps are kept from the stops as from the ends of all paths. -/
theorem Enumerates.filter_eq {stopAt? : List Nat → Option Stop} {paths : List (List Nat)}
    {stops : List Stop} (h : Enumerates stopAt? paths stops) {keep : Stop → Bool}
    (hstep : ∀ stop, keep stop = true → stop.isStep = true) :
    stops.filter keep = (paths.filterMap stopAt?).filter keep := by
  rw [h.stops_eq, List.filter_filter]
  refine List.filter_congr fun stop _ => ?_
  cases hkeep : keep stop with
  | true => rw [hstep stop hkeep]; rfl
  | false => rfl

section InOrder

variable {g : Graph} (hv : g.Valid) (hsingle : g.SingleParents) {root : NodeId}
  (hroot : g.root? = some root) {P : Node → Prop}
include hv hsingle hroot

theorem Precedes.asymm {m n : Node} (h : Precedes g root m n) : ¬ Precedes g root n m := by
  rintro ⟨q', p', hq', hp', hlt'⟩
  obtain ⟨p, q, hp, hq, hlt⟩ := h
  have hsame : ∀ {x y : List Nat} {k : Node}, (stopAt? g {} root x).map Stop.node = some k →
      (stopAt? g {} root y).map Stop.node = some k → x = y := by
    intro x y k hx hy
    obtain ⟨a, ha, rfl⟩ := Option.map_eq_some_iff.mp hx
    obtain ⟨b, hb, hnode⟩ := Option.map_eq_some_iff.mp hy
    exact path_unique hv hsingle hroot ha hb hnode.symm
  obtain rfl := hsame hp hp'
  obtain rfl := hsame hq hq'
  exact lt_asymm hlt hlt'

theorem nodup_of_ordered {nodes : List Node} (h : nodes.Pairwise (Precedes g root)) :
    nodes.Nodup := by
  refine h.imp fun {m n} hlt heq => ?_
  subst heq
  exact hlt.asymm hv hsingle hroot hlt

/-- There is one order only. -/
theorem InOrder.unique {ns ms : List Node} (h : InOrder g root P ns) (h' : InOrder g root P ms) :
    ns = ms := by
  have hperm : ns.Perm ms :=
    (List.perm_ext_iff_of_nodup h.nodup h'.nodup).mpr fun n => by rw [h.mem_iff, h'.mem_iff]
  exact hperm.eq_of_pairwise (fun m n _ _ hmn hnm => absurd hnm (hmn.asymm hv hsingle hroot))
    h.ordered h'.ordered

/-- The nodes of the stops that are kept by a property of them are in order. -/
theorem inOrder_filter {stops : List Stop}
    (hstops : ∃ paths, Enumerates (stopAt? g {} root) paths stops) {keep : Stop → Bool}
    (hstep : ∀ stop, keep stop = true → stop.isStep = true)
    (hkeep : ∀ path stop, stopAt? g {} root path = some stop → (keep stop = true ↔ P stop.node))
    (hreach : ∀ n, P n → n ∈ g.nodes.toList ∧ ReflTransGen g.Leads root n.id) :
    InOrder g root P ((stops.filter keep).map Stop.node) := by
  obtain ⟨paths, hpaths⟩ := hstops
  have hfilter := hpaths.filter_eq hstep
  have hpairwise : ((stops.filter keep).map Stop.node).Pairwise (Precedes g root) := by
    rw [hfilter]
    exact List.pairwise_map.mpr ((pairwise_precedes hpaths.sorted).filter keep)
  refine ⟨nodup_of_ordered hv hsingle hroot hpairwise, fun n => ?_, hpairwise⟩
  rw [hfilter, List.mem_map]
  constructor
  · rintro ⟨stop, hstop, rfl⟩
    obtain ⟨hmem, hkept⟩ := List.mem_filter.mp hstop
    obtain ⟨path, -, hpath⟩ := List.mem_filterMap.mp hmem
    exact (hkeep path stop hpath).mp hkept
  · intro hn
    obtain ⟨hmem, hreached⟩ := hreach n hn
    obtain ⟨path, scope, hpath⟩ := exists_path (s := {}) hv hmem hreached
    have hin : path ∈ paths := (hpaths.mem_iff path).mpr (by rw [hpath]; rfl)
    exact ⟨⟨n, scope⟩, List.mem_filter.mpr
      ⟨List.mem_filterMap.mpr ⟨path, hin, hpath⟩, (hkeep path _ hpath).mpr hn⟩, rfl⟩

end InOrder

/-! ## Identifiers -/

/-- A leaf that the root reaches, that is named as an identifier and has an association above. -/
structure IsAssociated (g : Graph) (root : NodeId) (n : Node) : Prop where
  mem : n ∈ g.nodes.toList
  reached : ReflTransGen g.Leads root n.id
  kind_eq : n.kind = .leaf
  name_eq : n.name = identifierName
  below : ∃ a, g.EntityAbove a n.id ∧ a.name = Entity.association.name

/-- The entity nearest to a node is one of the schema. -/
def IsPlaced (g : Graph) (n : Node) : Prop :=
  ∃ a e, g.NearestEntity a n.id ∧ Entity.ofName? a.name = some e

/-- No entity of the schema has an empty name. -/
theorem ofName?_getD (o : Option String) : Entity.ofName? (o.getD "") = o.bind Entity.ofName? := by
  cases o with
  | none => decide
  | some name => rfl

/-- Below an association, and in an entity of the schema, a leaf that is named as an identifier adds
its text to the associations. No other leaf adds anything. -/
theorem associate?_contribution (scope : Scope) (name : String) (v : Graph.Value) :
    (contribution scope name v).associate? =
      if name = identifierName ∧ scope.inAssociation = true ∧
        (scope.entity.bind Entity.ofName?).isSome then v.text? else none := by
  cases hscope : scope.inAssociation with
  | false =>
    rw [(contributes_contribution scope name v).outside hscope]
    simp
  | true =>
    cases hentity : scope.entity.bind Entity.ofName? with
    | none =>
      simp only [contribution, ofName?_getD, hentity]
      simp [Reading.associate?]
    | some e =>
      simp only [contribution, ofName?_getD, hentity, hscope, if_true, readAssociated]
      by_cases hname : name = identifierName
      · cases htext : v.text? <;> simp [hname, Reading.associate?]
      · simp [hname, Reading.associate?]

namespace Stop

/-- What a stop adds to the associations. -/
def associate? (s : Stop) : Option String := s.visit.reading?.bind Reading.associate?

/-- Whether the text of a stop belongs to the associations. -/
def isAssociated (s : Stop) : Bool :=
  s.node.kind = .leaf ∧ s.node.name = identifierName ∧ s.scope.inAssociation = true ∧
    (s.scope.entity.bind Entity.ofName?).isSome

theorem isStep_of_isAssociated {s : Stop} (h : s.isAssociated = true) : s.isStep = true := by
  simp [isStep, (of_decide_eq_true h).1]

/-- A stop adds its text if that belongs to the associations, and else nothing. -/
theorem associate?_eq (s : Stop) :
    s.associate? = if s.isAssociated then s.node.text? else none := by
  obtain ⟨n, scope⟩ := s
  by_cases hkind : n.kind = .leaf
  case neg =>
    have hvisit : Stop.visit ⟨n, scope⟩ = .entity n.name (scope.enter n.name) := by
      cases hn : n.kind <;> simp_all [Stop.visit]
    rw [associate?, hvisit, if_neg fun h => hkind (of_decide_eq_true h).1]
    rfl
  case pos =>
    have hvisit : Stop.visit ⟨n, scope⟩ = .leaf n scope := by simp [Stop.visit, hkind]
    rw [associate?, hvisit, Visit.reading?, Node.text?]
    cases n.value with
    | none => exact (ite_self none).symm
    | some v =>
      simp only [Option.map_some, Option.bind_some, associate?_contribution, isAssociated, hkind,
        true_and, decide_eq_true_eq]

end Stop

/-- The stop at an identifier below an association, in an entity of the schema, is told by its
node. -/
theorem isAssociated_iff_of_stopAt? {g : Graph} (hv : g.Valid) (hsingle : g.SingleParents)
    {root : NodeId} (hroot : g.root? = some root) {path : List Nat} {stop : Stop}
    (h : stopAt? g {} root path = some stop) :
    stop.isAssociated = true ↔ IsAssociated g root stop.node ∧ IsPlaced g stop.node := by
  have hscope := describes_of_stopAt? hv hsingle hroot h
  rw [Stop.isAssociated, decide_eq_true_eq, hscope.inAssociation_iff,
    Option.isSome_iff_exists]
  simp only [Option.bind_eq_some_iff]
  constructor
  · rintro ⟨hkind, hname, hbelow, e, name, hentity, he⟩
    obtain ⟨a, hnearest, rfl⟩ := (hscope.entity_iff name).mp hentity
    exact ⟨⟨mem_of_stopAt? h, reaches_of_stopAt? h, hkind, hname, hbelow⟩, a, e, hnearest, he⟩
  · rintro ⟨hn, a, e, hnearest, he⟩
    exact ⟨hn.kind_eq, hn.name_eq, hn.below, e, a.name,
      (hscope.entity_iff a.name).mpr ⟨a, hnearest, rfl⟩, he⟩

/-! ## Decoding -/

section Decode

variable {g : Graph} {t : Topology} {fallback : String} {mode : Narrowing} {r : Record}

/-- The associations of a decoded record are what the stops add to them. -/
theorem associations_of_decode (ht : g.topology = .ok t)
    (h : (decode fallback mode g).result = .ok r) :
    r.associations =
      (preorder g (valid_of_topology_eq_ok ht) {} t.root).filterMap Stop.associate? := by
  rw [decode_of_topology ht, conclude_result, visits_eq_preorder ht, Draft.follow_result] at h
  split at h
  · cases h
  · obtain rfl := Except.ok.inj h
    simp only [Draft.finish, Draft.settle, readings, List.filterMap_map, List.filterMap_filterMap,
      Array.empty_append, List.toList_toArray]
    rfl

/--
The associations of a decoded record are the texts of the identifiers below associations, without
those whose nearest entity is unknown to the schema. Each is taken once, in depth-first order along
the edges, which is one order only.
-/
theorem decode_associations (ht : g.topology = .ok t) (hsingle : g.SingleParents)
    (h : (decode fallback mode g).result = .ok r) :
    let listed := InOrder g t.root fun n => IsAssociated g t.root n ∧ IsPlaced g n
    (∃! nodes, listed nodes) ∧
      ∀ nodes, listed nodes → r.associations = nodes.filterMap Node.text? := by
  intro listed
  have hv := valid_of_topology_eq_ok ht
  have hroot : g.root? = some t.root := (topology_ok ht).2.1
  have hlisted : listed (((preorder g hv {} t.root).filter Stop.isAssociated).map Stop.node) :=
    inOrder_filter hv hsingle hroot (exists_enumerates hv {} t.root)
      (fun _ => Stop.isStep_of_isAssociated)
      (fun _ _ => isAssociated_iff_of_stopAt? hv hsingle hroot)
      (fun _ hn => ⟨hn.1.mem, hn.1.reached⟩)
  have hunique : ∀ nodes, listed nodes →
      nodes = ((preorder g hv {} t.root).filter Stop.isAssociated).map Stop.node :=
    fun _ hnodes => hnodes.unique hv hsingle hroot hlisted
  refine ⟨⟨_, hlisted, hunique⟩, fun nodes hnodes => ?_⟩
  rw [hunique nodes hnodes, associations_of_decode ht h, List.filterMap_map, List.filterMap_filter]
  exact List.filterMap_congr fun stop _ => stop.associate?_eq

end Decode

/-- An association with an identifier in a container, and with one in a card below an annex, which
the schema does not know; the annex has an identifier of its own. -/
def related : Graph where
  nodes := #[⟨0, .root, "product", none⟩, ⟨1, .entity, "association", none⟩,
    ⟨2, .entity, "annex", none⟩, ⟨3, .leaf, "identifier", some (.text "x")⟩,
    ⟨4, .entity, "card", none⟩, ⟨5, .leaf, "identifier", some (.text "a")⟩,
    ⟨6, .record, "part", none⟩, ⟨7, .leaf, "identifier", some (.text "b")⟩]
  edges := #[⟨0, 1⟩, ⟨1, 6⟩, ⟨1, 2⟩, ⟨2, 3⟩, ⟨2, 4⟩, ⟨4, 5⟩, ⟨6, 7⟩]

theorem decode_associations_related : ∃ t, related.topology = .ok t ∧ related.SingleParents ∧
    (decode "DATA" .legacy related).result = .ok
      { associations := ["b", "a"], contentType := some "DATA" } ∧
    (∃! nodes, InOrder related t.root
      (fun n => IsAssociated related t.root n ∧ IsPlaced related n) nodes) ∧
    ∀ nodes, InOrder related t.root (fun n => IsAssociated related t.root n ∧ IsPlaced related n)
      nodes → ["b", "a"] = nodes.filterMap Node.text? := by
  obtain ⟨t, ht⟩ : ∃ t, related.topology = .ok t := ⟨_, rfl⟩
  have hsingle : related.SingleParents := by decide
  have hdecode : (decode "DATA" .legacy related).result = .ok
      { associations := ["b", "a"], contentType := some "DATA" } := by
    decide +kernel
  exact ⟨t, ht, hsingle, hdecode, decode_associations ht hsingle hdecode⟩

/-- An association whose only identifier is in an annex. -/
def annexed : Graph where
  nodes := #[⟨0, .root, "product", none⟩, ⟨1, .entity, "association", none⟩,
    ⟨2, .entity, "annex", none⟩, ⟨3, .leaf, "identifier", some (.text "x")⟩]
  edges := #[⟨0, 1⟩, ⟨1, 2⟩, ⟨2, 3⟩]

/-- An identifier in an entity that the schema does not know is left out, also below an
association. -/
theorem associations_ne_annexed : ∃ t r nodes, annexed.topology = .ok t ∧ annexed.SingleParents ∧
    (decode "DATA" .legacy annexed).result = .ok r ∧
    InOrder annexed t.root (IsAssociated annexed t.root) nodes ∧
    r.associations ≠ nodes.filterMap Node.text? := by
  obtain ⟨t, ht⟩ : ∃ t, annexed.topology = .ok t := ⟨_, rfl⟩
  have hroot : t.root = 0 := (Option.some.inj (topology_ok ht).2.1).symm
  have hdecode : (decode "DATA" .legacy annexed).result = .ok { contentType := some "DATA" } := by
    decide +kernel
  have hfirst : annexed.Leads 0 1 := by simp [Leads, LeadsTo, annexed]
  have hsecond : annexed.Leads 1 2 := by simp [Leads, LeadsTo, annexed]
  have hthird : annexed.Leads 2 3 := by simp [Leads, LeadsTo, annexed]
  have hassociation : annexed.EntityAbove ⟨1, .entity, "association", none⟩ 3 :=
    ⟨by simp [annexed], rfl, .tail (.single hsecond) hthird⟩
  refine ⟨t, _, [⟨3, .leaf, "identifier", some (.text "x")⟩], ht, by decide, hdecode, ?_,
    by decide⟩
  rw [hroot]
  refine ⟨List.nodup_singleton _, fun n => ?_, List.pairwise_singleton _ _⟩
  rw [List.mem_singleton]
  constructor
  · rintro rfl
    exact ⟨by simp [annexed], .tail (.tail (.single hfirst) hsecond) hthird, rfl, rfl,
      _, hassociation, rfl⟩
  · rintro ⟨hmem, -, hkind, -, -⟩
    simp only [annexed, List.mem_cons, List.not_mem_nil, or_false] at hmem
    rcases hmem with rfl | rfl | rfl | rfl <;> first | rfl | cases hkind

end Exchange

end Catalogue
