import Catalogue.Exchange.Decode
import Catalogue.Proofs.Exchange.Unfolding
import Catalogue.Proofs.Graph.Descent

/-!
# Stops in preorder

The stops of a walk through a valid graph, as a recursion along its edges that no count of edges
bounds: what it descends on is the number of descendants.

* `preorder` — the stops from a node: the node, and then what is below each of its children.
* `unfold_eq_preorder` — a bounded unfolding makes all these stops when its bound leaves room for
  every path.
* `exists_enumerates` — the stops stand at the ends of the paths, one for each path, in the
  lexicographic order of the positions along them.
-/

namespace Catalogue.Exchange

open Catalogue.Graph
open Relation (ReflTransGen)

/-! ## Stops -/

/-- The scope below a node: an entity sets it, and every other node passes it on. -/
def Scope.below (s : Scope) (n : Node) : Scope :=
  match n.kind with
  | .entity => s.enter n.name
  | _ => s

/-- A node on a path and the scope it stands in. -/
structure Stop where
  node : Node
  scope : Scope
  deriving DecidableEq

namespace Stop

/-- Whether a step is made at a stop: at entities and leaves. -/
def isStep (s : Stop) : Bool := s.node.kind = .entity || s.node.kind = .leaf

/-- The step made at a stop. -/
def visit (s : Stop) : Visit :=
  match s.node.kind with
  | .leaf => .leaf s.node s.scope
  | _ => .entity s.node.name (s.scope.enter s.node.name)

end Stop

/-- The stops from a node on: the node, and then what is below each of its children in turn. -/
def preorder (g : Graph) (hv : g.Valid) (s : Scope) (id : NodeId) : List Stop :=
  match g.node? id with
  | none => []
  | some n =>
    match n.kind with
    | .leaf => [⟨n, s⟩]
    | .entity =>
      ⟨n, s⟩ :: (g.children id).attach.flatMap fun c => preorder g hv (s.enter n.name) c.1
    | .root => (g.children id).attach.flatMap fun c => preorder g hv s c.1
    | .record => (g.children id).attach.flatMap fun c => preorder g hv s c.1
termination_by (g.descendants id).card
decreasing_by all_goals exact hv.card_descendants_lt (mem_children.mp c.2)

section Valid

variable {g : Graph} (hv : g.Valid)

theorem preorder_of_none {s : Scope} {id : NodeId} (h : g.node? id = none) :
    preorder g hv s id = [] := by
  rw [preorder, h]

/-- The stops from a node are the node, if it is one, and those from its children in its scope. -/
theorem preorder_of_some {s : Scope} {id : NodeId} {n : Node} (h : g.node? id = some n) :
    preorder g hv s id =
      [Stop.mk n s].filter Stop.isStep ++ (g.children id).flatMap (preorder g hv (s.below n)) := by
  have hattach : ∀ s' : Scope, ((g.children id).attach.flatMap fun c => preorder g hv s' c.1) =
      (g.children id).flatMap (preorder g hv s') := by
    intro s'
    rw [List.flatMap_subtype (g := preorder g hv s') fun _ _ => rfl, List.unattach_attach]
  rw [preorder, h]
  cases hk : n.kind
  case leaf => simp [Stop.isStep, hk, hv.children_of_leaf h hk]
  all_goals simp only [hattach, Scope.below, hk]
  case entity => simp [Stop.isStep, hk]
  all_goals simp [Stop.isStep, hk]

/-- Where paths may have as many edges as a node has descendants, the walk makes all its stops. -/
theorem unfold_eq_preorder {t : Topology} (ht : Shows t g) (budget : Nat) (s : Scope) (id : NodeId)
    (hbudget : (g.descendants id).card ≤ budget) :
    unfold t budget s id = (preorder g hv s id).map Stop.visit := by
  induction budget generalizing s id with
  | zero =>
    have hchildren : g.children id = [] := by
      refine List.eq_nil_iff_forall_not_mem.mpr fun child hchild => ?_
      have := hv.card_descendants_lt (mem_children.mp hchild)
      omega
    rw [unfold, ht.node?_eq]
    cases hn : g.node? id with
    | none => rw [preorder_of_none hv hn]; rfl
    | some n =>
      rw [preorder_of_some hv hn, hchildren]
      cases hk : n.kind <;> simp [Stop.isStep, Stop.visit, hk]
  | succ b ih =>
    have hbelow : ∀ s' : Scope, (t.children id).flatMap (unfold t b s') =
        ((g.children id).flatMap (preorder g hv s')).map Stop.visit := by
      intro s'
      rw [ht.children_eq, List.map_flatMap]
      refine List.flatMap_congr fun child hchild => ih s' child ?_
      have := hv.card_descendants_lt (mem_children.mp hchild)
      omega
    rw [unfold, ht.node?_eq]
    cases hn : g.node? id with
    | none => rw [preorder_of_none hv hn]; rfl
    | some n =>
      rw [preorder_of_some hv hn]
      cases hk : n.kind <;> simp only [hbelow]
      case leaf => simp [Stop.isStep, Stop.visit, hk, hv.children_of_leaf hn hk]
      all_goals simp [Stop.isStep, Stop.visit, Scope.below, hk]

end Valid

/-! ## Paths -/

/-- The node at the end of a path, with the scope it stands in there; a path is told by positions
among children. -/
def stopAt? (g : Graph) (s : Scope) (id : NodeId) : List Nat → Option Stop
  | [] => (g.node? id).map (⟨·, s⟩)
  | i :: rest => do
    let n ← g.node? id
    let child ← (g.children id)[i]?
    stopAt? g (s.below n) child rest

/-- The end of a path that starts with one of the given nodes. -/
def stopAmong? (g : Graph) (s : Scope) (ids : List NodeId) : List Nat → Option Stop
  | [] => none
  | i :: rest => ids[i]?.bind (stopAt? g s · rest)

/-- Stops are those at the ends of all paths, one for each path, in the order of the paths. -/
structure Enumerates (stopAt? : List Nat → Option Stop) (paths : List (List Nat))
    (stops : List Stop) : Prop where
  sorted : paths.Pairwise (· < ·)
  mem_iff : ∀ path, path ∈ paths ↔ (stopAt? path).isSome
  stops_eq : stops = (paths.filterMap stopAt?).filter Stop.isStep

section Among

variable {g : Graph} {s : Scope} {ids : List NodeId}

/-- A path starts at one of the nodes that there are. -/
theorem exists_of_stopAmong?_isSome {path : List Nat}
    (h : (stopAmong? g s ids path).isSome = true) :
    ∃ i rest, path = i :: rest ∧ i < ids.length := by
  cases path with
  | nil => cases h
  | cons i rest =>
    refine ⟨i, rest, rfl, ?_⟩
    rw [stopAmong?] at h
    cases hi : ids[i]? with
    | none => rw [hi] at h; cases h
    | some id => exact (List.getElem?_eq_some_iff.mp hi).1

theorem stopAmong?_append_of_lt {more : List NodeId} {i : Nat} (rest : List Nat)
    (h : i < ids.length) :
    stopAmong? g s (ids ++ more) (i :: rest) = stopAmong? g s ids (i :: rest) := by
  rw [stopAmong?, stopAmong?, List.getElem?_append_left h]

theorem stopAmong?_append_length (id : NodeId) (rest : List Nat) :
    stopAmong? g s (ids ++ [id]) (ids.length :: rest) = stopAt? g s id rest := by
  rw [stopAmong?, List.getElem?_concat_length]
  rfl

/-- The paths from some nodes are those from the first one, then those from the second one, and
so on. -/
theorem exists_enumerates_stopAmong? {stops : NodeId → List Stop}
    (h : ∀ id ∈ ids, ∃ paths, Enumerates (stopAt? g s id) paths (stops id)) :
    ∃ paths, Enumerates (stopAmong? g s ids) paths (ids.flatMap stops) := by
  induction ids using List.reverseRecOn with
  | nil =>
    refine ⟨[], .nil, fun path => ?_, rfl⟩
    cases path <;> simp [stopAmong?]
  | append_singleton ids id ih =>
    obtain ⟨ps, hps⟩ := ih fun id' hid' => h id' (List.mem_append_left _ hid')
    obtain ⟨qs, hqs⟩ := h id (by simp)
    have hstart : ∀ p ∈ ps, ∃ i rest, p = i :: rest ∧ i < ids.length := fun p hp =>
      exists_of_stopAmong?_isSome ((hps.mem_iff p).mp hp)
    refine ⟨ps ++ qs.map (ids.length :: ·), ?_, fun path => ?_, ?_⟩
    · refine List.pairwise_append.mpr ⟨hps.sorted, List.pairwise_map.mpr ?_, ?_⟩
      · exact hqs.sorted.imp fun hlt => List.Lex.cons hlt
      · intro p hp q hq
        obtain ⟨i, rest, rfl, hi⟩ := hstart p hp
        obtain ⟨q, -, rfl⟩ := List.mem_map.mp hq
        exact List.Lex.rel hi
    · rw [List.mem_append, List.mem_map]
      constructor
      · rintro (hp | ⟨q, hq, rfl⟩)
        · obtain ⟨i, rest, rfl, hi⟩ := hstart path hp
          rw [stopAmong?_append_of_lt rest hi]
          exact (hps.mem_iff _).mp hp
        · rw [stopAmong?_append_length]
          exact (hqs.mem_iff q).mp hq
      · intro hpath
        obtain ⟨i, rest, rfl, hi⟩ := exists_of_stopAmong?_isSome hpath
        rw [List.length_append, List.length_singleton] at hi
        rcases Nat.lt_succ_iff_lt_or_eq.mp hi with hlt | rfl
        · rw [stopAmong?_append_of_lt rest hlt] at hpath
          exact .inl ((hps.mem_iff _).mpr hpath)
        · rw [stopAmong?_append_length] at hpath
          exact .inr ⟨rest, (hqs.mem_iff rest).mpr hpath, rfl⟩
    · have hfirst : ps.filterMap (stopAmong? g s (ids ++ [id])) =
          ps.filterMap (stopAmong? g s ids) := by
        refine List.filterMap_congr fun p hp => ?_
        obtain ⟨i, rest, rfl, hi⟩ := hstart p hp
        exact stopAmong?_append_of_lt rest hi
      have hlast : (qs.map (ids.length :: ·)).filterMap (stopAmong? g s (ids ++ [id])) =
          qs.filterMap (stopAt? g s id) := by
        rw [List.filterMap_map]
        exact List.filterMap_congr fun q _ => stopAmong?_append_length id q
      rw [List.filterMap_append, hfirst, hlast, List.filter_append, ← hps.stops_eq,
        ← hqs.stops_eq, List.flatMap_append, List.flatMap_singleton]

end Among

section Valid

variable {g : Graph} (hv : g.Valid)

/-- The stops in preorder are those at the ends of all paths. -/
theorem exists_enumerates (s : Scope) (id : NodeId) :
    ∃ paths, Enumerates (stopAt? g s id) paths (preorder g hv s id) := by
  induction hcard : (g.descendants id).card using Nat.strongRecOn generalizing s id with
  | _ k ih =>
    cases hn : g.node? id with
    | none =>
      refine ⟨[], .nil, fun path => ?_, by rw [preorder_of_none hv hn]; rfl⟩
      cases path <;> simp [stopAt?, hn]
    | some n =>
      have hchildren : ∀ child ∈ g.children id, ∃ paths,
          Enumerates (stopAt? g (s.below n) child) paths (preorder g hv (s.below n) child) :=
        fun child hchild =>
          ih _ (hcard ▸ hv.card_descendants_lt (mem_children.mp hchild)) (s.below n) child rfl
      obtain ⟨ps, hps⟩ := exists_enumerates_stopAmong? hchildren
      have hnil : ∀ p ∈ ps, p ≠ [] := by
        rintro p hp rfl
        have := (hps.mem_iff []).mp hp
        cases this
      have hstop : ∀ p, p ≠ [] →
          stopAt? g s id p = stopAmong? g (s.below n) (g.children id) p := by
        intro p hp
        cases p with
        | nil => exact absurd rfl hp
        | cons i rest => simp [stopAt?, stopAmong?, hn]
      refine ⟨[] :: ps, ?_, fun path => ?_, ?_⟩
      · refine List.pairwise_cons.mpr ⟨fun p hp => ?_, hps.sorted⟩
        cases p with
        | nil => exact absurd rfl (hnil _ hp)
        | cons i rest => exact List.Lex.nil
      · rw [List.mem_cons]
        cases path with
        | nil => simp [stopAt?, hn]
        | cons i rest =>
          rw [hstop _ (List.cons_ne_nil i rest), ← hps.mem_iff]
          simp
      · have hrest : ps.filterMap (stopAt? g s id) =
            ps.filterMap (stopAmong? g (s.below n) (g.children id)) :=
          List.filterMap_congr fun p hp => hstop p (hnil p hp)
        have hfirst : stopAt? g s id [] = some ⟨n, s⟩ := by simp [stopAt?, hn]
        rw [preorder_of_some hv hn, List.filterMap_cons_some hfirst, hrest, hps.stops_eq,
          ← List.filter_append, List.singleton_append]

/-- Every stop can be reached. -/
theorem reaches_of_stopAt? {s : Scope} {id : NodeId} {path : List Nat} {stop : Stop}
    (h : stopAt? g s id path = some stop) : ReflTransGen g.Leads id stop.node.id := by
  induction path generalizing s id with
  | nil =>
    obtain ⟨n, hn, rfl⟩ := Option.map_eq_some_iff.mp h
    rw [(mem_of_node?_eq_some hn).2]
  | cons i rest ih =>
    simp only [stopAt?, Option.bind_eq_bind, Option.bind_eq_some_iff] at h
    obtain ⟨n, hn, child, hchild, h⟩ := h
    exact .head (mem_children.mp (List.mem_of_getElem? hchild)) (ih h)

end Valid

end Catalogue.Exchange
