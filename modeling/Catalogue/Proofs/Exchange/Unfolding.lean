import Catalogue.Exchange.Visit
import Catalogue.Proofs.Graph.Planting

/-!
# Walks as unfoldings

The walk with its stack makes the visits of a recursion: a node, and then what is below each of
its children in turn.

* `unfold` — the visits from a node, as a recursion.
* `walk_eq_unfold` — the walk makes these visits for every node on its stack.
* `visits_planted` — the visits of a planted graph are those of its branch.
-/

namespace Catalogue.Exchange

open Catalogue.Graph

/-! ## The recursion -/

/-- The visits from a node on, along paths of so many edges. -/
def unfold (t : Topology) (budget : Nat) (scope : Scope) (id : NodeId) : List Visit :=
  let inside (s : Scope) : List Visit :=
    match budget with
    | 0 => []
    | b + 1 => (t.children id).flatMap (unfold t b s)
  match t.node? id with
  | none => []
  | some n =>
    match n.kind with
    | .leaf => [.leaf n scope]
    | .entity => .entity n.name (scope.enter n.name) :: inside (scope.enter n.name)
    | .root => inside scope
    | .record => inside scope

/-- The visits from the nodes on a stack. -/
def unfoldAll (t : Topology) (stack : List Pending) : List Visit :=
  stack.flatMap fun p => unfold t p.budget p.scope p.id

theorem unfoldAll_cons (t : Topology) (p : Pending) (rest : List Pending) :
    unfoldAll t (p :: rest) = unfold t p.budget p.scope p.id ++ unfoldAll t rest := by
  rw [unfoldAll, List.flatMap_cons]
  rfl

theorem unfoldAll_append (t : Topology) (s r : List Pending) :
    unfoldAll t (s ++ r) = unfoldAll t s ++ unfoldAll t r := by
  rw [unfoldAll, List.flatMap_append]
  rfl

/-- The visits below a node are those from its children. -/
theorem unfoldAll_below (t : Topology) (p : Pending) (inside : Scope) :
    unfoldAll t (below t p inside) =
      match p.budget with
      | 0 => []
      | b + 1 => (t.children p.id).flatMap (unfold t b inside) := by
  unfold below
  cases p.budget with
  | zero => rfl
  | succ b => rw [unfoldAll, List.flatMap_map]

/-- The walk makes the visits from every node on the stack, top first. -/
theorem walk_eq_unfold (t : Topology) (stack : List Pending) :
    walk t stack = unfoldAll t stack := by
  fun_induction walk t stack with
  | case1 => rfl
  | case2 p rest hnode ih =>
    rw [unfoldAll_cons, ih, unfold, hnode]
    rfl
  | case3 p rest n hnode hkind ih =>
    rw [unfoldAll_cons, ih, unfold, hnode]
    simp only [hkind]
    rfl
  | case4 p rest n hnode hkind inside ih =>
    rw [unfoldAll_cons, ih, unfoldAll_append, unfoldAll_below, unfold, hnode]
    simp only [hkind]
    rfl
  | case5 p rest n hnode hkind ih =>
    rw [unfoldAll_cons, ih, unfoldAll_append, unfoldAll_below, unfold, hnode]
    simp only [hkind]
  | case6 p rest n hnode hkind ih =>
    rw [unfoldAll_cons, ih, unfoldAll_append, unfoldAll_below, unfold, hnode]
    simp only [hkind]

/-! ## The visits of a branch -/

mutual

/-- The visits of a branch with its numbers. -/
def visitsOf (k : Nat) (scope : Scope) : Branch → List Visit
  | .node kind name value below =>
    match kind with
    | .leaf => [.leaf ⟨UInt32.ofNat k, .leaf, name, value⟩ scope]
    | .entity => .entity name (scope.enter name) :: visitsOfAll (k + 1) (scope.enter name) below
    | .root => visitsOfAll (k + 1) scope below
    | .record => visitsOfAll (k + 1) scope below

def visitsOfAll (k : Nat) (scope : Scope) : List Branch → List Visit
  | [] => []
  | b :: rest => visitsOf k scope b ++ visitsOfAll (k + b.size) scope rest

end

/-- Looking up in a topology is looking up in a graph. -/
structure Shows (t : Topology) (g : Graph) : Prop where
  node?_eq : ∀ id, t.node? id = g.node? id
  children_eq : ∀ id, t.children id = g.children id

mutual

/-- The visits from the first node of a branch are those of the branch. -/
theorem unfold_of_holds {t : Topology} {g : Graph} (ht : Shows t g) :
    ∀ (b : Branch) {k budget : Nat} {scope : Scope}, Holds g k b → k + b.size ≤ 2 ^ 32 →
    b.size ≤ budget → unfold t budget scope (UInt32.ofNat k) = visitsOf k scope b
  | .node kind name value below, k, budget, scope, h, hsize, hbudget => by
    have hsize' := hsize
    rw [Branch.size] at hsize' hbudget
    obtain ⟨b, rfl⟩ : ∃ b, budget = b + 1 := ⟨budget - 1, by omega⟩
    have hinside : ∀ s, (t.children (UInt32.ofNat k)).flatMap (unfold t b s) =
        visitsOfAll (k + 1) s below := by
      intro s
      rw [ht.children_eq, h.children_eq hsize]
      exact unfoldAll_of_holds ht below h.inside (by omega) (by omega) (by omega)
    rw [unfold, ht.node?_eq, h.node?_eq]
    cases kind
    · exact hinside scope
    · exact congrArg _ (hinside (scope.enter name))
    · rfl
    · exact hinside scope

theorem unfoldAll_of_holds {t : Topology} {g : Graph} (ht : Shows t g) :
    ∀ (bs : List Branch) {parent k budget : Nat} {scope : Scope}, HoldsAll g parent k bs →
    parent < k → k + Branch.sizes bs ≤ 2 ^ 32 → Branch.sizes bs ≤ budget →
    (Branch.starts k bs).flatMap (unfold t budget scope) = visitsOfAll k scope bs
  | [], _, _, _, _, _, _, _, _ => rfl
  | b :: rest, parent, k, budget, scope, h, hlt, hsize, hbudget => by
    have hhead := h.head hlt hsize
    have htail := h.tail hlt hsize
    rw [Branch.sizes] at hsize hbudget
    rw [Branch.starts, List.flatMap_cons, visitsOfAll,
      unfold_of_holds ht b hhead (by omega) (by omega),
      unfoldAll_of_holds ht rest htail (by omega) (by omega) (by omega)]

end

/-- The visits of a planted graph are those of its branch. -/
theorem visits_planted {g : Graph} {t : Topology} {name : String} {below : List Branch}
    (hplanted : Planted g (.node .root name none below)) (ht : g.topology = .ok t) :
    visits t = visitsOfAll 1 {} below := by
  obtain ⟨hnodes, hroot, hnode, hchildren⟩ := topology_ok ht
  have hzero : t.root = UInt32.ofNat 0 := by
    rw [root?, ← Array.find?_toList, hplanted.nodes_eq, Branch.nodes] at hroot
    simpa using hroot.symm
  have hlength : t.nodes.length = (Branch.node .root name none below).size := by
    have hmap := Branch.map_toNat_nodes (.node .root name none below) (k := 0)
      (by have := hplanted.size_le; omega)
    have hlen := congrArg List.length hmap
    rw [List.length_map, List.length_range'] at hlen
    rw [hnodes, hplanted.nodes_eq, hlen]
  rw [visits, walk_eq_unfold, unfoldAll_cons, hzero, hlength]
  dsimp only
  rw [unfold_of_holds ⟨hnode, hchildren⟩ (.node .root name none below) hplanted.holds
    (by have := hplanted.size_le; omega) (Nat.le_refl _), unfoldAll, List.flatMap_nil,
    List.append_nil, visitsOf]

end Catalogue.Exchange
