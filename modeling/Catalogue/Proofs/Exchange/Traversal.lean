import Catalogue.Exchange.Decode
import Catalogue.Proofs.Exchange.Preorder

/-!
# The loop of a walk

A walk is a loop over a stack of places. It keeps no record of where it has been and no count of
the edges it may still follow; that it ends is due to the graph having no cycle, and how many turns
it makes is the number of paths.

* `Loops` — a loop that ends, with its steps and its outcome.
* `loops_of_ample` — every loop over a valid graph ends, with the steps of the preorder.
* `decode_preorder` — the steps and the outcome of decoding.
-/

namespace Catalogue.Exchange

open Catalogue.Graph
open Relation (ReflTransGen)

/-! ## The loop -/

/-- The stops from the places on a stack, top first. -/
def stopsFrom (g : Graph) (hv : g.Valid) (places : List (NodeId × Scope)) : List Stop :=
  places.flatMap fun p => preorder g hv p.2 p.1

/-- The stops up to the first one whose step fails. -/
def upToFailure (mode : Narrowing) (d : Draft) : List Stop → List Stop
  | [] => []
  | s :: rest =>
    match (d.visit mode s.visit).result with
    | .error _ => [s]
    | .ok d => s :: upToFailure mode d rest

/--
A loop over a stack of places that ends, with the stops at which it makes steps and what comes out.
A turn takes the place on top: an entity is entered and a leaf is read, the children of a node are
put on the stack with the first one on top, and a leaf that is refused ends the loop.
-/
inductive Loops (t : Topology) (mode : Narrowing) :
    List (NodeId × Scope) → Draft → List Stop → Reported Draft → Prop
  | finished {d} : Loops t mode [] d [] ⟨.ok d, []⟩
  | unknown {id s rest d stops r} : t.node? id = none → Loops t mode rest d stops r →
    Loops t mode ((id, s) :: rest) d stops r
  | passed {id s rest d stops r n} : t.node? id = some n → n.kind = .root ∨ n.kind = .record →
    Loops t mode ((t.children id).map (·, s) ++ rest) d stops r →
    Loops t mode ((id, s) :: rest) d stops r
  | entered {id s rest d stops r n} : t.node? id = some n → n.kind = .entity →
    Loops t mode ((t.children id).map (·, s.enter n.name) ++ rest)
      (d.enter n.name (s.enter n.name)) stops r →
    Loops t mode ((id, s) :: rest) d (⟨n, s⟩ :: stops) r
  | taken {id s rest d stops r n d' entries} : t.node? id = some n → n.kind = .leaf →
    d.visit mode (.leaf n s) = ⟨.ok d', entries⟩ → Loops t mode rest d' stops r →
    Loops t mode ((id, s) :: rest) d (⟨n, s⟩ :: stops) ⟨r.result, entries ++ r.entries⟩
  | refused {id s rest d n e entries} : t.node? id = some n → n.kind = .leaf →
    d.visit mode (.leaf n s) = ⟨.error e, entries⟩ →
    Loops t mode ((id, s) :: rest) d [⟨n, s⟩] ⟨.error e, entries⟩

namespace Loops

variable {t : Topology} {mode : Narrowing}

/-- There is one way through a loop. -/
theorem unique {stack : List (NodeId × Scope)} {d : Draft} {stops stops' : List Stop}
    {r r' : Reported Draft} (h : Loops t mode stack d stops r)
    (h' : Loops t mode stack d stops' r') : stops = stops' ∧ r = r' := by
  induction h generalizing stops' r' with
  | finished => cases h'; exact ⟨rfl, rfl⟩
  | unknown hn _ ih =>
    cases h' with
    | unknown _ h' => exact ih h'
    | _ => simp_all
  | passed hn hk _ ih =>
    cases h' with
    | passed _ _ h' => exact ih h'
    | _ => simp_all
  | entered hn hk _ ih =>
    cases h' with
    | entered hn' _ h' =>
      obtain rfl := Option.some.inj (hn.symm.trans hn')
      obtain ⟨rfl, rfl⟩ := ih h'
      exact ⟨rfl, rfl⟩
    | _ => simp_all
  | taken hn hk hd _ ih =>
    cases h' with
    | taken hn' _ hd' h' =>
      obtain rfl := Option.some.inj (hn.symm.trans hn')
      cases hd.symm.trans hd'
      obtain ⟨rfl, rfl⟩ := ih h'
      exact ⟨rfl, rfl⟩
    | _ => simp_all
  | refused hn hk hd =>
    cases h' with
    | refused hn' _ hd' =>
      obtain rfl := Option.some.inj (hn.symm.trans hn')
      cases hd.symm.trans hd'
      exact ⟨rfl, rfl⟩
    | _ => simp_all

end Loops

theorem Draft.follow_cons (mode : Narrowing) (d : Draft) (v : Visit) (rest : List Visit) :
    d.follow mode (v :: rest) =
      match d.visit mode v with
      | ⟨.error e, entries⟩ => ⟨.error e, entries⟩
      | ⟨.ok d, entries⟩ =>
        ⟨(d.follow mode rest).result, entries ++ (d.follow mode rest).entries⟩ := by
  rw [Draft.follow]
  rcases d.visit mode v with ⟨_ | _, _⟩ <;> rfl

section Valid

variable {g : Graph} (hv : g.Valid) {t : Topology} (ht : Shows t g) (mode : Narrowing)

/-- The stack of a walk leaves room for every path. -/
def Ample (g : Graph) (stack : List Pending) : Prop :=
  ∀ p ∈ stack, (g.descendants p.id).card ≤ p.budget

def Pending.place (p : Pending) : NodeId × Scope := (p.id, p.scope)

include hv ht in
/-- With room for every path all children are put on the stack, and there is room for theirs. -/
theorem below_of_ample {p : Pending} {rest : List Pending} (h : Ample g (p :: rest))
    (inside : Scope) :
    Ample g (below t p inside ++ rest) ∧
      (below t p inside ++ rest).map Pending.place =
        (t.children p.id).map (·, inside) ++ rest.map Pending.place := by
  have hp : (g.descendants p.id).card ≤ p.budget := h p List.mem_cons_self
  have hchild : ∀ c ∈ t.children p.id, (g.descendants c).card < p.budget := by
    intro c hc
    rw [ht.children_eq] at hc
    exact Nat.lt_of_lt_of_le (hv.card_descendants_lt (mem_children.mp hc)) hp
  rw [below]
  cases hbudget : p.budget with
  | zero =>
    have hnil : t.children p.id = [] := by
      refine List.eq_nil_iff_forall_not_mem.mpr fun c hc => ?_
      have := hchild c hc
      omega
    rw [hnil]
    exact ⟨fun q hq => h q (List.mem_cons_of_mem _ hq), rfl⟩
  | succ b =>
    refine ⟨fun q hq => ?_, by simp [Pending.place, Function.comp_def]⟩
    rcases List.mem_append.mp hq with hq | hq
    · obtain ⟨c, hc, rfl⟩ := List.mem_map.mp hq
      have := hchild c hc
      show (g.descendants c).card ≤ b
      omega
    · exact h q (List.mem_cons_of_mem _ hq)

/-- The stops from a place are those of its node and those from its children. -/
theorem stopsFrom_cons {p : Pending} {n : Node} (hn : g.node? p.id = some n)
    (rest : List (NodeId × Scope)) :
    stopsFrom g hv (p.place :: rest) =
      [Stop.mk n p.scope].filter Stop.isStep ++
        stopsFrom g hv ((g.children p.id).map (·, p.scope.below n) ++ rest) := by
  rw [stopsFrom, stopsFrom, List.flatMap_cons, List.flatMap_append, List.flatMap_map,
    ← List.append_assoc]
  exact congrArg (· ++ _) (preorder_of_some hv hn)

/-- The loop over a stack ends, with the steps in preorder up to the first that fails. -/
def LoopsInPreorder (t : Topology) (stack : List (NodeId × Scope)) (d : Draft) : Prop :=
  Loops t mode stack d (upToFailure mode d (stopsFrom g hv stack))
    (Draft.follow mode d ((stopsFrom g hv stack).map Stop.visit))

include ht in
/-- A root or a record makes no step and passes its scope on. -/
theorem loops_of_passed {p : Pending} {rest : List Pending} {n : Node}
    (h : Ample g (p :: rest)) (hn : t.node? p.id = some n) (hk : n.kind = .root ∨ n.kind = .record)
    (d : Draft)
    (ih : Ample g (below t p p.scope ++ rest) →
      LoopsInPreorder hv mode t ((below t p p.scope ++ rest).map Pending.place) d) :
    LoopsInPreorder hv mode t ((p :: rest).map Pending.place) d := by
  obtain ⟨hample, hplaces⟩ := below_of_ample hv ht h p.scope
  have hloops := ih hample
  rw [hplaces, LoopsInPreorder] at hloops
  have hg : g.node? p.id = some n := by rw [← ht.node?_eq]; exact hn
  have hstep : [Stop.mk n p.scope].filter Stop.isStep = [] := by
    rcases hk with hk | hk <;> simp [Stop.isStep, hk]
  have hbelow : p.scope.below n = p.scope := by rcases hk with hk | hk <;> simp [Scope.below, hk]
  rw [LoopsInPreorder, List.map_cons, stopsFrom_cons hv hg, hstep, hbelow, List.nil_append,
    ← ht.children_eq]
  exact .passed hn hk hloops

include ht in
/-- A loop with room for every path goes in preorder. -/
theorem loops_of_ample {stack : List Pending} (h : Ample g stack) (d : Draft) :
    LoopsInPreorder hv mode t (stack.map Pending.place) d := by
  induction stack using walk.induct t generalizing d with
  | case1 => exact .finished
  | case2 p rest hn ih =>
    have hnone : stopsFrom g hv ((p :: rest).map Pending.place) =
        stopsFrom g hv (rest.map Pending.place) := by
      rw [List.map_cons, stopsFrom, List.flatMap_cons,
        preorder_of_none hv (show g.node? p.place.1 = none by rw [← ht.node?_eq]; exact hn)]
      rfl
    rw [LoopsInPreorder, hnone]
    exact .unknown hn (ih (fun q hq => h q (List.mem_cons_of_mem _ hq)) d)
  | case3 p rest n hn hk ih =>
    have hrest : Ample g rest := fun q hq => h q (List.mem_cons_of_mem _ hq)
    have hg : g.node? p.id = some n := by rw [← ht.node?_eq]; exact hn
    have hvisit : Stop.visit ⟨n, p.scope⟩ = .leaf n p.scope := by simp [Stop.visit, hk]
    have hstep : [Stop.mk n p.scope].filter Stop.isStep = [⟨n, p.scope⟩] := by
      simp [Stop.isStep, hk]
    rw [LoopsInPreorder, List.map_cons, stopsFrom_cons hv hg, hv.children_of_leaf hg hk, hstep,
      List.map_nil, List.nil_append, List.singleton_append, List.map_cons, Draft.follow_cons,
      upToFailure, hvisit]
    cases hd : d.visit mode (.leaf n p.scope) with
    | mk result entries =>
      cases result with
      | error e => exact .refused hn hk hd
      | ok d' => exact .taken hn hk hd (ih hrest d')
  | case4 p rest n hn hk inside ih =>
    obtain ⟨hample, hplaces⟩ := below_of_ample hv ht h inside
    have hg : g.node? p.id = some n := by rw [← ht.node?_eq]; exact hn
    have hloops := ih hample (d.enter n.name inside)
    rw [hplaces, LoopsInPreorder] at hloops
    have hvisit : Stop.visit ⟨n, p.scope⟩ = .entity n.name inside := by
      simp [Stop.visit, hk, inside]
    have hstep : [Stop.mk n p.scope].filter Stop.isStep = [⟨n, p.scope⟩] := by
      simp [Stop.isStep, hk]
    have hbelow : p.scope.below n = inside := by simp [Scope.below, hk, inside]
    rw [LoopsInPreorder, List.map_cons, stopsFrom_cons hv hg, hstep, hbelow, List.singleton_append,
      List.map_cons, Draft.follow_cons, upToFailure, hvisit, ← ht.children_eq]
    exact .entered hn hk hloops
  | case5 p rest n hn hk ih => exact loops_of_passed hv ht mode h hn (.inl hk) d (ih · d)
  | case6 p rest n hn hk ih => exact loops_of_passed hv ht mode h hn (.inr hk) d (ih · d)

end Valid

/-! ## Decoding -/

/-- The record of what a walk has come to. -/
def conclude (fallback : String) (r : Reported Draft) : Reported Record :=
  match r.result with
  | .error e => ⟨.error e, r.entries⟩
  | .ok d => ⟨.ok (d.finish fallback), r.entries ++ [decodedReport (d.finish fallback)]⟩

theorem conclude_result (fallback : String) (r : Reported Draft) :
    (conclude fallback r).result = r.result.map (Draft.finish fallback) := by
  rw [conclude]
  cases r.result <;> rfl

theorem decode_of_topology {g : Graph} {t : Topology} (h : g.topology = .ok t) (fallback : String)
    (mode : Narrowing) :
    decode fallback mode g = conclude fallback (Draft.follow mode {} (visits t)) := by
  rw [decode, h]
  rfl

theorem shows_of_topology {g : Graph} {t : Topology} (h : g.topology = .ok t) : Shows t g := by
  obtain ⟨-, -, hnode, hchildren⟩ := topology_ok h
  exact ⟨hnode, hchildren⟩

/-- In a valid graph the walk starts with room for every path. -/
theorem ample_root {g : Graph} {t : Topology} (h : g.topology = .ok t) :
    Ample g [⟨t.root, {}, t.nodes.length⟩] := by
  obtain ⟨hnodes, hroot, -, -⟩ := topology_ok h
  have hmem : t.root ∈ g.ids := by
    rw [root?, ← Array.find?_toList] at hroot
    obtain ⟨n, hn, hid⟩ := Option.map_eq_some_iff.mp hroot
    exact List.mem_map.mpr ⟨n, List.mem_of_find?_eq_some hn, hid⟩
  have hlt := (valid_of_topology_eq_ok h).card_descendants_lt_size hmem
  intro p hp
  rw [List.mem_singleton.mp hp]
  show (g.descendants t.root).card ≤ t.nodes.length
  rw [hnodes, Array.length_toList]
  exact Nat.le_of_lt hlt

/-- The visits of a valid graph are the steps at its stops in preorder. -/
theorem visits_eq_preorder {g : Graph} {t : Topology} (h : g.topology = .ok t) :
    visits t = (preorder g (valid_of_topology_eq_ok h) {} t.root).map Stop.visit := by
  have hroom := ample_root h ⟨t.root, {}, t.nodes.length⟩ List.mem_cons_self
  rw [visits, walk_eq_unfold, unfoldAll_cons,
    unfold_eq_preorder (valid_of_topology_eq_ok h) (shows_of_topology h) _ _ _ hroom, unfoldAll,
    List.flatMap_nil, List.append_nil]

/-- Where no step fails, steps are made at all stops. -/
theorem upToFailure_of_ok {mode : Narrowing} {d d' : Draft} {stops : List Stop}
    (h : (Draft.follow mode d (stops.map Stop.visit)).result = .ok d') :
    upToFailure mode d stops = stops := by
  induction stops generalizing d with
  | nil => rfl
  | cons s rest ih =>
    rw [List.map_cons, Draft.follow_cons] at h
    rw [upToFailure]
    rcases hd : d.visit mode s.visit with ⟨_ | _, entries⟩
    · rw [hd] at h
      cases h
    · rw [hd] at h
      exact congrArg (s :: ·) (ih h)

theorem upToFailure_prefix (mode : Narrowing) (d : Draft) (stops : List Stop) :
    upToFailure mode d stops <+: stops := by
  induction stops generalizing d with
  | nil => exact List.prefix_rfl
  | cons s rest ih =>
    rw [upToFailure]
    split
    · exact ⟨rest, rfl⟩
    · next d' _ => exact (List.prefix_cons_inj s).mpr (ih d')

/--
Decoding goes through a valid graph in preorder. The loop of the walk ends in one way only: its
steps are those at the stops of the preorder, all of them or up to the first that fails, and its
outcome is what `decode` makes a record of. The stops stand at the ends of the paths from the root,
one for each path and in the order of the paths, so that only nodes that the root reaches are
visited.
-/
theorem decode_preorder {g : Graph} {t : Topology} (h : g.topology = .ok t) (fallback : String)
    (mode : Narrowing) :
    let stops := preorder g (valid_of_topology_eq_ok h) {} t.root
    let outcome := Draft.follow mode {} (stops.map Stop.visit)
    (∀ made r, Loops t mode [(t.root, {})] {} made r ↔
      made = upToFailure mode {} stops ∧ r = outcome) ∧
    upToFailure mode {} stops <+: stops ∧
    (∀ d, outcome.result = .ok d → upToFailure mode {} stops = stops) ∧
    decode fallback mode g = conclude fallback outcome ∧
    (∃ paths, Enumerates (stopAt? g {} t.root) paths stops) ∧
    ∀ s ∈ stops, ReflTransGen g.Leads t.root s.node.id := by
  intro stops outcome
  have hv := valid_of_topology_eq_ok h
  have hfrom : stopsFrom g hv [(t.root, {})] = stops := by
    rw [stopsFrom, List.flatMap_singleton]
  have hloops : Loops t mode [(t.root, {})] {} (upToFailure mode {} stops) outcome := by
    have hloops := loops_of_ample hv (shows_of_topology h) mode (ample_root h) {}
    simpa only [LoopsInPreorder, List.map_cons, List.map_nil, Pending.place, hfrom] using hloops
  obtain ⟨paths, hpaths⟩ : ∃ paths, Enumerates (stopAt? g {} t.root) paths stops :=
    exists_enumerates hv {} t.root
  refine ⟨fun made r => ⟨fun hmade => hmade.unique hloops, ?_⟩, upToFailure_prefix _ _ _,
    fun _ => upToFailure_of_ok, ?_, ⟨paths, hpaths⟩, ?_⟩
  · rintro ⟨rfl, rfl⟩
    exact hloops
  · rw [decode_of_topology h, visits_eq_preorder h]
  · intro s hs
    rw [hpaths.stops_eq] at hs
    obtain ⟨path, -, hpath⟩ := List.mem_filterMap.mp (List.mem_of_mem_filter hs)
    exact reaches_of_stopAt? hpath

/-- A card and an association that share an identifier, next to a file that the root does not
reach. -/
def sharing : Graph where
  nodes := #[⟨0, .root, "product", none⟩, ⟨1, .entity, "card", none⟩,
    ⟨2, .entity, "association", none⟩, ⟨3, .leaf, "identifier", some (.text "a")⟩,
    ⟨4, .entity, "file", none⟩]
  edges := #[⟨0, 1⟩, ⟨4, 3⟩, ⟨0, 2⟩, ⟨1, 3⟩, ⟨2, 3⟩]

/-- The shared identifier is read twice, in two scopes, and the file is never entered. -/
theorem decode_preorder_sharing :
    ∃ t, sharing.topology = .ok t ∧
      (decode "DATA" .legacy sharing).result = .ok
        { attributes := [("id", .text "a")], associations := ["a"], contentType := some "DATA" } ∧
      (∃ r, decode "DATA" .legacy sharing = conclude "DATA" r ∧ Loops t .legacy [(t.root, {})] {} [
        ⟨⟨1, .entity, "card", none⟩, {}⟩,
        ⟨⟨3, .leaf, "identifier", some (.text "a")⟩, { entity := some "card" }⟩,
        ⟨⟨2, .entity, "association", none⟩, {}⟩,
        ⟨⟨3, .leaf, "identifier", some (.text "a")⟩,
          { entity := some "association", inAssociation := true }⟩] r) := by
  obtain ⟨t, h⟩ : ∃ t, sharing.topology = .ok t := ⟨_, rfl⟩
  have hdecode : (decode "DATA" .legacy sharing).result = .ok
      { attributes := [("id", .text "a")], associations := ["a"], contentType := some "DATA" } := by
    decide +kernel
  obtain ⟨hloops, -, -, hconclude, -⟩ := decode_preorder h "DATA" .legacy
  refine ⟨t, h, hdecode, _, hconclude, (hloops _ _).mpr ⟨?_, rfl⟩⟩
  have hroot : t.root = 0 := (Option.some.inj (topology_ok h).2.1).symm
  have hv := valid_of_topology_eq_ok h
  have hidentifier (s : Scope) : preorder sharing hv s 3 =
      [⟨⟨3, .leaf, "identifier", some (.text "a")⟩, s⟩] := by
    rw [preorder_of_some hv (n := ⟨3, .leaf, "identifier", some (.text "a")⟩) rfl,
      show sharing.children 3 = [] from rfl]
    rfl
  have hcard (s : Scope) : preorder sharing hv s 1 =
      ⟨⟨1, .entity, "card", none⟩, s⟩ :: preorder sharing hv (s.enter "card") 3 := by
    rw [preorder_of_some hv (n := ⟨1, .entity, "card", none⟩) rfl,
      show sharing.children 1 = [3] from rfl, List.flatMap_singleton]
    rfl
  have hassociation (s : Scope) : preorder sharing hv s 2 =
      ⟨⟨2, .entity, "association", none⟩, s⟩ :: preorder sharing hv (s.enter "association") 3 := by
    rw [preorder_of_some hv (n := ⟨2, .entity, "association", none⟩) rfl,
      show sharing.children 2 = [3] from rfl, List.flatMap_singleton]
    rfl
  rw [hroot, preorder_of_some hv (n := ⟨0, .root, "product", none⟩) rfl,
    show sharing.children 0 = [1, 2] from rfl, List.flatMap_cons, List.flatMap_singleton, hcard,
    hassociation, hidentifier, hidentifier]
  rfl

end Catalogue.Exchange
