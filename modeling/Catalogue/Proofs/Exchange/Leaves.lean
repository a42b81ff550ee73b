import Catalogue.Proofs.Exchange.Places
import Catalogue.Proofs.Exchange.Typing
import Catalogue.Proofs.Graph.Growth
import Catalogue.Proofs.Lists.Distinct

/-!
# The leaves of a record's graph

Every value of a record has a place of its own in the graph: an entity below the root and a name in
it. The leaf there is what the value becomes, and associated records do not add to it, however many
there are.

* `places` — the places of a record, those of the markings included.
* `leavesAt` — the values of the leaves at a place of a graph.
* `leavesAt_graphOf` — the leaves at a place come from the value at this place alone.
-/

namespace Catalogue.Exchange

open Catalogue.Graph
open Catalogue.Lists
open Catalogue.Schema (Entity rootName)

/-! ## All places of a record -/

/-- The places of a record, in order. -/
def places (r : Record) : List Place := scanned r ++ Marking.all.map .marking

/-- The places in an entity of a record's graph. -/
def placesIn (e : Entity) : List Place :=
  if e = .security then Marking.all.map .marking else placesOf e

theorem notMem_sectionsOf (r : Record) :
    Entity.security ∉ sectionsOf r ∧ Entity.association ∉ sectionsOf r := by
  have hnot := (List.nodup_append.mp (nodup_sectionsOf r)).2.2
  exact ⟨fun h => hnot _ h _ List.mem_cons_self rfl,
    fun h => hnot _ h _ (List.mem_cons_of_mem _ List.mem_cons_self) rfl⟩

theorem placesIn_eq {r : Record} {e : Entity} (he : e ∈ sectionsOf r) :
    placesIn e = placesOf e := by
  refine if_neg ?_
  rintro rfl
  exact (notMem_sectionsOf r).1 he

theorem flatMap_placesIn (r : Record) :
    (sectionsOf r ++ [Entity.security]).flatMap placesIn = places r := by
  have hsections : ∀ e ∈ sectionsOf r, placesIn e = placesOf e := fun _ => placesIn_eq
  rw [List.flatMap_append, List.flatMap_congr hsections, flatMap_placesOf]
  rfl

theorem entity_of_mem_placesIn {e : Entity} {p : Place} (hp : p ∈ placesIn e) : p.entity = e := by
  rw [placesIn] at hp
  split at hp
  · next heq =>
    obtain ⟨m, -, rfl⟩ := List.mem_map.mp hp
    exact heq.symm
  · rw [placesOf, List.mem_append] at hp
    rcases hp with hp | hp
    · obtain ⟨m, -, rfl⟩ := List.mem_map.mp hp
      rfl
    · split at hp
      · next heq =>
        rw [List.mem_singleton.mp hp]
        exact heq.symm
      · cases hp

/-- The places in an entity have different names. -/
theorem nodup_map_name_placesIn (e : Entity) : ((placesIn e).map Place.name).Nodup := by
  rw [placesIn]
  split
  · decide
  · have hnames : (placesOf e).map Place.name =
        (mappings e).map Mapping.name ++ if e = .coverage then [boxName] else [] := by
      rw [placesOf, fieldsOf, List.map_append, List.map_map]
      refine congrArg₂ _ rfl ?_
      split <;> rfl
    rw [hnames]
    exact nodup_attributeNames e

theorem scanned_perm (r : Record) :
    (scanned r).Perm (.location :: (sectionsOf r).flatMap fieldsOf) := by
  have hfields : (sectionsOf r).flatMap fieldsOf =
      [Entity.card, .file, .stream, .approval, .relatedFile, .part, .common, .coverage].flatMap
        fieldsOf ++ (fieldsOf .exploitationInfo ++
          (r.product.map fun p => fieldsOf p.entity).getD []) := by
    rw [sectionsOf, List.flatMap_append, ← List.append_assoc]
    refine congrArg₂ _ rfl ?_
    cases r.product with
    | none => rfl
    | some p => exact List.append_nil _
  rw [hfields, scanned, List.append_assoc]
  exact List.perm_middle

/-- The values of a record are at different places. -/
theorem nodup_map_key_places (r : Record) : ((places r).map Place.key).Nodup := by
  have hkeys : ((sectionsOf r).flatMap fieldsOf).map Place.key = fieldKeys r.product := by
    rw [fieldKeys, List.map_flatMap, List.map_flatMap]
    exact List.flatMap_congr fun e _ => List.map_map
  have hperm : ((places r).map Place.key).Perm
      (locationKey :: (fieldKeys r.product ++ Marking.all.map Marking.key)) := by
    rw [places, List.map_append, ← hkeys]
    exact ((scanned_perm r).map _).append_right _
  rw [hperm.nodup_iff, List.nodup_cons, List.nodup_append]
  have hfield : ∀ key ∈ fieldKeys r.product, ∃ e, ∃ m ∈ mappings e, m.key = key := by
    intro key hkey
    obtain ⟨m, hm, rfl⟩ := List.mem_map.mp hkey
    obtain ⟨e, -, hm⟩ := List.mem_flatMap.mp hm
    exact ⟨e, m, hm, rfl⟩
  refine ⟨fun hmem => ?_, nodup_fieldKeys r.product, by decide, fun key hkey other hother heq => ?_⟩
  · rcases List.mem_append.mp hmem with hmem | hmem
    · obtain ⟨e, m, hm, hkey⟩ := hfield _ hmem
      exact (key_ne e m hm).1 hkey
    · obtain ⟨m, -, hkey⟩ := List.mem_map.mp hmem
      exact locationKey_ne m hkey.symm
  · obtain ⟨e, m, hm, rfl⟩ := hfield _ hkey
    obtain ⟨k, -, rfl⟩ := List.mem_map.mp hother
    exact marking_key_ne hm k heq

/-- A place is told by its entity and its name. -/
theorem eq_of_mem_places {r : Record} {p q : Place} (hp : p ∈ places r) (hq : q ∈ places r)
    (hentity : p.entity = q.entity) (hname : p.name = q.name) : p = q := by
  rw [← flatMap_placesIn, List.mem_flatMap] at hp hq
  obtain ⟨e, -, hp⟩ := hp
  obtain ⟨e', -, hq⟩ := hq
  have heq : e = e' := by
    rw [← entity_of_mem_placesIn hp, ← entity_of_mem_placesIn hq, hentity]
  subst heq
  exact List.inj_on_of_nodup_map (nodup_map_name_placesIn e) hp hq hname

/-- What is made of the places of a record with one entity and name is made of the only such one. -/
theorem filterMap_places {β : Type} {r : Record} {p : Place} (hp : p ∈ places r)
    (f : Place → Option β) :
    (places r).filterMap (fun q => if q.entity = p.entity ∧ q.name = p.name then f q else none) =
      (f p).toList := by
  have hnodup : (places r).Nodup := (nodup_map_key_places r).of_map
  rw [filterMap_eq_of_unique hnodup hp fun q hq hne => if_neg fun h =>
    hne (eq_of_mem_places hq hp h.1 h.2), if_pos ⟨rfl, rfl⟩]

/-! ## Leaves at a place -/

/-- The values of the leaves at a place that are below a node, if it is the entity of the place. -/
def leavesUnder (g : Graph) (p : Place) (n : Node) : List Graph.Value :=
  if n.kind = .entity ∧ n.name = p.entity.name then
    (g.below n.id).filterMap fun l => if l.kind = .leaf ∧ l.name = p.name then l.value else none
  else []

/-- The values of the leaves at a place of a graph. -/
def leavesAt (g : Graph) (root : NodeId) (p : Place) : List Graph.Value :=
  (g.below root).flatMap (leavesUnder g p)

/-- The values of the leaves at a place that are in a branch. -/
def branchLeaves (p : Place) : Branch → List Graph.Value
  | .node kind name _ below =>
    if kind = .entity ∧ name = p.entity.name then
      below.filterMap fun b => if b.kind = .leaf ∧ b.name = p.name then b.value else none
    else []

/-- The values of the leaves at a place that are in a section. -/
def sectionLeaves (p : Place) (s : Section) : List Graph.Value :=
  if s.1 = p.entity then s.2.filterMap fun l => if l.1 = p.name then some l.2 else none else []

theorem filterMap_of_bears {β : Type} {g : Graph} {f : Node → Option β} {c : Branch → Option β}
    (hf : ∀ (b : Branch) id, f (b.top id) = c b) {ns : List Node} {bs : List Branch}
    (h : List.Forall₂ g.Bears ns bs) : ns.filterMap f = bs.filterMap c := by
  induction h with
  | nil => rfl
  | cons hhead _ ih =>
    obtain ⟨k, rfl, -⟩ := hhead
    rw [List.filterMap_cons, List.filterMap_cons, hf, ih]

theorem leavesUnder_of_bears {g : Graph} {n : Node} {b : Branch} (p : Place) (h : g.Bears n b) :
    leavesUnder g p n = branchLeaves p b := by
  obtain ⟨kind, name, value, below⟩ := b
  have hnode := h.eq_node
  have hbelow := filterMap_of_bears
    (f := fun l => if l.kind = .leaf ∧ l.name = p.name then l.value else none)
    (c := fun b => if b.kind = .leaf ∧ b.name = p.name then b.value else none)
    (fun b id => by simp) h.below
  rw [leavesUnder, hbelow, branchLeaves, hnode]

theorem flatMap_of_bears {g : Graph} (p : Place) {ns : List Node} {bs : List Branch}
    (h : List.Forall₂ g.Bears ns bs) :
    ns.flatMap (leavesUnder g p) = bs.flatMap (branchLeaves p) := by
  induction h with
  | nil => rfl
  | cons hhead _ ih => rw [List.flatMap_cons, List.flatMap_cons, leavesUnder_of_bears p hhead, ih]

theorem flatMap_branchLeaves (p : Place) (s : Section) :
    (sectionBranches s).flatMap (branchLeaves p) = sectionLeaves p s := by
  obtain ⟨e, ls⟩ := s
  cases ls with
  | nil => exact (ite_self _).symm
  | cons l rest =>
    have hleaves : ((l :: rest).map leafBranch).filterMap
        (fun b => if b.kind = .leaf ∧ b.name = p.name then b.value else none) =
          (l :: rest).filterMap fun l => if l.1 = p.name then some l.2 else none := by
      rw [List.filterMap_map]
      refine List.filterMap_congr fun l _ => ?_
      simp [leafBranch, Branch.kind, Branch.name, Branch.value]
    simp only [sectionBranches, List.isEmpty_cons, Bool.false_eq_true, if_false, List.flatMap_cons,
      List.flatMap_nil, List.append_nil, branchLeaves, sectionLeaves, hleaves, true_and,
      name_injective.eq_iff]

/-- The leaves at a place of an assembled graph are those of the sections, however many associated
records there are. -/
theorem leavesAt_assemble {ss : List Section} (identifiers : List String)
    (hsize : Branch.sizes (ss.flatMap sectionBranches) + 1 < 2 ^ 32) :
    ∃ root, (assemble ss identifiers).root? = some root ∧
      ∀ p : Place, p.entity ≠ .association →
        leavesAt (assemble ss identifiers) root p = ss.flatMap (sectionLeaves p) := by
  have hfills := fills_plantAll rootName _ hsize
  have hplanted := planted_plantAll rootName _ hsize.le
  have hsound : Branch.AllSound (ss.flatMap sectionBranches) := by
    simpa [branches, associationBranches] using sound_branches ss []
  obtain ⟨root, hroot, hbears, hunique⟩ := hplanted.root hsound
  have hassemble := assemble_eq ss identifiers
  rw [branches, plantAll_append] at hassemble
  have hid : (Graph.ofRoot rootName).2 = root.id := by
    rw [← hunique ⟨UInt32.ofNat 0, .root, rootName, none⟩ (by
      rw [hplanted.nodes_eq, Branch.nodes]
      exact List.mem_cons_self) rfl]
    rfl
  generalize plantAll (Graph.ofRoot rootName).1 (Graph.ofRoot rootName).2
    (ss.flatMap sectionBranches) = g at *
  rw [hassemble, hid]
  have hleaves : ∀ p, leavesAt g root.id p = ss.flatMap (sectionLeaves p) := fun p => by
    rw [leavesAt, flatMap_of_bears p hbears.below, List.flatMap_assoc]
    exact List.flatMap_congr fun s _ => flatMap_branchLeaves p s
  refine ⟨root.id, ?_, fun p hp => ?_⟩
  · exact (hfills.beyond.outgrows_plantAll _ _).root?_eq_some hroot
  · cases identifiers with
    | nil => exact hleaves p
    | cons i rest =>
      have hzero : root.id.toNat < Branch.sizes (ss.flatMap sectionBranches) + 1 := by
        rw [← hid]
        exact Nat.succ_pos _
      show leavesAt (plant g root.id _) root.id p = _
      rw [← hleaves p, leavesAt, leavesAt, hfills.below_plant_self hzero, List.flatMap_append]
      have hassociation : ∀ h : Graph, leavesUnder h p ((Branch.node .entity
          Entity.association.name none ((i :: rest).map destinationBranch)).top g.nextId) = [] :=
        fun h => if_neg fun hname => hp (name_injective hname.2).symm
      rw [List.flatMap_singleton, hassociation, List.append_nil]
      -- what is below the other entities was there before the association
      refine List.flatMap_congr fun n hn => ?_
      obtain ⟨hlt, hlt'⟩ := hfills.lt_of_mem_below hn
      rw [leavesUnder, leavesUnder, hfills.below_plant_of_lt hlt hlt']

/-! ## Leaves of a record -/

/-- The leaf that the value at a place becomes. -/
def Place.leaf? (r : Record) (p : Place) : Option Graph.Value := (p.finding? r).bind Finding.leaf?

/-- The section of an entity, place by place. -/
def sectionIn (r : Record) (e : Entity) : Section :=
  (e, (placesIn e).filterMap fun p => (p.leaf? r).map (p.name, ·))

theorem sections_eq (r : Record) :
    (sectionsOf r).map (sectionOf r) ++ [(Entity.security, markingLeaves r)] =
      (sectionsOf r ++ [Entity.security]).map (sectionIn r) := by
  rw [List.map_append, List.map_singleton]
  refine congrArg₂ _ (List.map_congr_left fun e he => ?_) (congrArg (fun ls => [(_, ls)]) ?_)
  · rw [sectionOf, sectionIn, found, findings_eq, placesIn_eq he, List.filterMap_filterMap]
    refine congrArg (e, ·) (List.filterMap_congr fun p _ => ?_)
    rw [Place.named?, Place.leaf?]
    cases p.finding? r <;> rfl
  · show Marking.all.filterMap _ = (Marking.all.map Place.marking).filterMap _
    rw [List.filterMap_map]
    refine List.filterMap_congr fun m _ => ?_
    rw [Function.comp_apply, Place.leaf?, Place.finding?]
    cases r.text? m.key <;> rfl

/-- A record has fewer places than there are numbers. -/
theorem sizes_sections_lt (r : Record) :
    Branch.sizes (((sectionsOf r ++ [Entity.security]).map (sectionIn r)).flatMap
      sectionBranches) + 1 < 2 ^ 32 := by
  have hsection : ∀ e,
      Branch.sizes (sectionBranches (sectionIn r e)) ≤ (placesIn e).length + 1 := by
    intro e
    rw [sectionBranches]
    split
    · exact Nat.zero_le _
    · rw [Branch.sizes, Branch.size, sizes_leaves]
      exact Nat.succ_le_succ (List.length_filterMap_le _ _)
  have hplaces : ((sectionsOf r ++ [Entity.security]).map fun e => (placesIn e).length + 1).sum +
      1 < 2 ^ 32 := by
    rw [sectionsOf]
    cases r.product with
    | none => decide
    | some p => cases p <;> decide
  rw [sizes_flatMap, List.map_map]
  exact Nat.lt_of_le_of_lt (Nat.succ_le_succ (List.sum_le_sum fun e _ => hsection e)) hplaces

theorem sectionLeaves_sectionIn (r : Record) (p : Place) (e : Entity) :
    sectionLeaves p (sectionIn r e) = (placesIn e).filterMap fun q =>
      if q.entity = p.entity ∧ q.name = p.name then q.leaf? r else none := by
  rw [sectionLeaves, sectionIn]
  split
  · next heq =>
    rw [List.filterMap_filterMap]
    refine List.filterMap_congr fun q hq => ?_
    have hentity : q.entity = p.entity := (entity_of_mem_placesIn hq).trans heq
    by_cases hname : q.name = p.name <;> cases hleaf : q.leaf? r <;> simp [hentity, hname]
  · next hne =>
    symm
    rw [List.filterMap_eq_nil_iff]
    exact fun q hq => if_neg fun h => hne ((entity_of_mem_placesIn hq).symm.trans h.1)

/-- The leaf at a place is what the value there becomes, and there is no other. -/
theorem leavesAt_graphOf (r : Record) : ∃ root, (graphOf r).root? = some root ∧
    ∀ p ∈ places r, leavesAt (graphOf r) root p = (p.leaf? r).toList := by
  obtain ⟨root, hroot, hleaves⟩ := leavesAt_assemble r.associations (sizes_sections_lt r)
  rw [← sections_eq] at hroot hleaves
  refine ⟨root, hroot, fun p hp => ?_⟩
  have hentity : p.entity ≠ .association := by
    rw [← flatMap_placesIn] at hp
    obtain ⟨e, he, hp⟩ := List.mem_flatMap.mp hp
    rw [entity_of_mem_placesIn hp]
    rintro rfl
    exact (notMem_sectionsOf r).2 (by simpa using he)
  rw [graphOf, hleaves p hentity, sections_eq, List.flatMap_map, ← filterMap_places hp,
    ← flatMap_placesIn, List.filterMap_flatMap]
  exact List.flatMap_congr fun e _ => sectionLeaves_sectionIn r p e

end Catalogue.Exchange
