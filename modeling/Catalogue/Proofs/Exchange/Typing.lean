import Catalogue.Proofs.Exchange.Sections
import Catalogue.Proofs.Graph.Tree
import Catalogue.Proofs.Lists.Parts
import Catalogue.Schema.Standard

/-!
# The graph of a record is typed by the schema

The tables of the exchange agree with the standard schema, so that every leaf of the graph of a
record is an attribute that the schema declares for the entity above it, with the kind of its value.

* `Orderly` — sections of different entities, each with different and declared attributes;
  `orderly_sections` — the sections of a record are such.
* `Sectioned` and `Associates` — what is below the root of the graph of a record.
* `encode_typed` — the graph of a record is a tree, and typed.
-/

namespace Catalogue.Exchange

open Catalogue.Graph
open Catalogue.Lists
open Catalogue.Record (Product)
open Catalogue.Schema (Attribute Entity Kind rootName standard)

/-! ## Agreement of the tables -/

/-- The standard schema declares an attribute of the entity with a name, with this kind. -/
def Declares (entity name : String) (k : Kind) : Prop :=
  ∃ e, Entity.ofName? entity = some e ∧ (standard.find? e name).map Attribute.kind = some k

theorem declares_name {e : Entity} {name : String} {k : Kind}
    (h : (standard.find? e name).map Attribute.kind = some k) : Declares e.name name k :=
  ⟨e, Entity.ofName?_name e, h⟩

/-- Every field is declared with its kind. -/
theorem declares_field (e : Entity) : ∀ m ∈ mappings e,
    (standard.find? e m.name).map Attribute.kind = some m.kind := by
  cases e <;> decide +kernel

theorem declares_box : Declares Entity.coverage.name boxName .rectangle :=
  declares_name (by decide +kernel)

theorem declares_marking (m : Marking) : Declares Entity.security.name m.name .text :=
  declares_name (by cases m <;> decide +kernel)

theorem declares_identifier : Declares Entity.card.name identifierName .text :=
  declares_name (by decide +kernel)

/-- The attributes of an entity have different names. -/
theorem nodup_attributeNames (e : Entity) : ((mappings e).map Mapping.name ++
    if e = .coverage then [boxName] else []).Nodup := by
  cases e <;> decide +kernel

/-- The entities of a record's sections are different, and none is that of the associations. -/
theorem nodup_sectionsOf (r : Record) :
    (sectionsOf r ++ [Entity.security, Entity.association]).Nodup := by
  unfold sectionsOf
  cases r.product with
  | none => decide
  | some p => cases p <;> decide

theorem name_injective : Function.Injective Entity.name :=
  Function.LeftInverse.injective (g := fun s => (Entity.ofName? s).getD .product) fun e => by
    simp [Entity.ofName?_name]

/-! ## Sections in order -/

/-- A finding that is a leaf has a value of this kind. -/
def Finding.HasKind (k : Kind) (f : Finding) : Prop := ∀ v, f = .leaf v → v.kind = k

theorem hasKind_leaf {k : Kind} {v : Graph.Value} (h : v.kind = k) :
    (Finding.leaf v).HasKind k := by
  rintro _ ⟨⟩
  exact h

theorem hasKind_fitted {α : Type} {m : Mapping} {n : Int64} {leaf : α → Graph.Value}
    {fit : Option α} (h : ∀ a, (leaf a).kind = m.kind) : (fitted m n leaf fit).HasKind m.kind := by
  cases fit with
  | none => exact nofun
  | some a => exact hasKind_leaf (h a)

/-- A leaf has the kind of its field. -/
theorem hasKind_encodeField (e : Entity) (m : Mapping) (v : Record.Value) :
    (encodeField e m v).HasKind m.kind := by
  fun_cases encodeField e m v with
  | case1 s hkind => exact hasKind_leaf hkind.symm
  | case3 s hkind => exact hasKind_leaf hkind.symm
  | case4 n hkind => exact hasKind_fitted fun _ => hkind.symm
  | case5 n hkind => exact hasKind_fitted fun _ => hkind.symm
  | case6 n hkind => exact hasKind_fitted fun _ => hkind.symm
  | case7 n hkind => exact hasKind_fitted fun _ => hkind.symm
  | case8 n hkind => exact hasKind_leaf hkind.symm
  | case9 x hkind => exact hasKind_leaf hkind.symm
  | case10 b hkind => exact hasKind_leaf hkind.symm
  | case11 t hkind => exact hasKind_leaf hkind.symm
  | _ => rintro _ ⟨⟩

/-- The only leaf for a location is a box. -/
theorem hasKind_locationFinding? {r : Record} {f : Finding} (h : locationFinding? r = some f) :
    f.HasKind .rectangle := by
  have hbox : ∀ wkt, (boxOf wkt).HasKind .rectangle := by
    intro wkt
    rw [boxOf]
    split
    · exact hasKind_leaf rfl
    · rintro _ ⟨⟩
  obtain ⟨v, -, rfl⟩ := Option.map_eq_some_iff.mp h
  cases v with
  | geometry wkt => exact hbox wkt
  | text wkt => exact hbox wkt
  | _ => rintro _ ⟨⟩

/-- Sections of different entities, each with different attributes that are declared. -/
structure Orderly (ss : List Section) : Prop where
  nodup_entities : (ss.map Prod.fst ++ [Entity.association]).Nodup
  nodup_names : ∀ s ∈ ss, (s.2.map Prod.fst).Nodup
  declared : ∀ s ∈ ss, ∀ l ∈ s.2, Declares s.1.name l.1 l.2.kind

theorem map_fst_found (fs : List (String × Finding)) :
    ((found fs).map Prod.fst).Sublist (fs.map Prod.fst) := by
  refine map_filterMap_sublist (fun f l hl => ?_) fs
  obtain ⟨v, -, rfl⟩ := Option.map_eq_some_iff.mp hl
  rfl

/-- The findings of an entity carry the names of its attributes. -/
theorem map_fst_findings (r : Record) (e : Entity) :
    ((findings r e).map Prod.fst).Sublist ((mappings e).map Mapping.name ++
      if e = .coverage then [boxName] else []) := by
  rw [findings, List.map_append]
  refine List.Sublist.append ?_ ?_
  · refine map_filterMap_sublist (fun m f hf => ?_) (mappings e)
    obtain ⟨v, -, rfl⟩ := Option.map_eq_some_iff.mp hf
    rfl
  · split
    · cases locationFinding? r with
      | none => exact List.nil_sublist _
      | some f => exact List.Sublist.refl _
    · exact List.Sublist.refl _

/-- What becomes of the values that an entity holds is declared, with the kind of the leaf. -/
theorem declares_findings {r : Record} {e : Entity} {f : String × Finding}
    (h : f ∈ findings r e) : ∃ k, Declares e.name f.1 k ∧ f.2.HasKind k := by
  rw [findings, List.mem_append] at h
  rcases h with h | h
  · obtain ⟨m, hm, hfield⟩ := List.mem_filterMap.mp h
    obtain ⟨v, -, rfl⟩ := Option.map_eq_some_iff.mp hfield
    exact ⟨m.kind, declares_name (declares_field e m hm), hasKind_encodeField e m v⟩
  · split at h
    · next hcoverage =>
      subst hcoverage
      obtain ⟨f, hlocation, rfl⟩ := List.mem_map.mp h
      exact ⟨.rectangle, declares_box, hasKind_locationFinding? (Option.mem_toList.mp hlocation)⟩
    · cases h

theorem declares_found {r : Record} {e : Entity} {l : String × Graph.Value}
    (h : l ∈ found (findings r e)) : Declares e.name l.1 l.2.kind := by
  obtain ⟨⟨name, f⟩, hf, hleaf⟩ := List.mem_filterMap.mp h
  obtain ⟨k, hdeclares, hkind⟩ := declares_findings hf
  cases f with
  | leaf v =>
    obtain rfl := Option.some.inj hleaf
    dsimp only
    rw [hkind v rfl]
    exact hdeclares
  | skipped entry => cases hleaf
  | refused err => cases hleaf

/-- The sections of a record are in order. -/
theorem orderly_sections (r : Record) :
    Orderly ((sectionsOf r).map (sectionOf r) ++ [(.security, markingLeaves r)]) := by
  have hentities : ((sectionsOf r).map (sectionOf r)).map Prod.fst = sectionsOf r := by
    rw [List.map_map]
    exact List.map_id _
  constructor
  case nodup_entities =>
    rw [List.map_append, hentities, List.append_assoc]
    exact nodup_sectionsOf r
  case nodup_names =>
    intro s hs
    rw [List.mem_append, List.mem_map, List.mem_singleton] at hs
    rcases hs with ⟨e, -, rfl⟩ | rfl
    · exact ((map_fst_found _).trans (map_fst_findings r e)).nodup (nodup_attributeNames e)
    · have hnames : ((markingLeaves r).map Prod.fst).Sublist (Marking.all.map Marking.name) := by
        refine map_filterMap_sublist (fun m l hl => ?_) Marking.all
        obtain ⟨s, -, rfl⟩ := Option.map_eq_some_iff.mp hl
        rfl
      exact hnames.nodup (by decide)
  case declared =>
    intro s hs
    rw [List.mem_append, List.mem_map, List.mem_singleton] at hs
    rcases hs with ⟨e, -, rfl⟩ | rfl
    · exact fun l hl => declares_found hl
    · intro l hl
      obtain ⟨m, -, hm⟩ := List.mem_filterMap.mp hl
      obtain ⟨s, -, rfl⟩ := Option.map_eq_some_iff.mp hm
      exact declares_marking m

/-! ## Typed graphs -/

/-- Below the root are entities with different names. Apart from the association, each has leaves
and nothing else below it, with different names. -/
structure Sectioned (g : Graph) (root : NodeId) : Prop where
  kind_eq : ∀ n ∈ g.below root, n.kind = .entity
  nodup_names : ((g.below root).map Node.name).Nodup
  leaves : ∀ n ∈ g.below root, n.name ≠ Entity.association.name →
    g.below n.id ≠ [] ∧ (∀ l ∈ g.below n.id, l.kind = .leaf) ∧
      ((g.below n.id).map Node.name).Nodup

/-- Every leaf is below an entity for which it is declared with the kind of its value. -/
def LeavesDeclared (g : Graph) : Prop :=
  ∀ n ∈ g.nodes.toList, n.kind = .leaf → ∃ p ∈ g.nodes.toList,
    (⟨p.id, n.id⟩ : Edge) ∈ g.edges.toList ∧ p.kind = .entity ∧
      ∃ v, n.value = some v ∧ Declares p.name n.name v.kind

/-- A destination with one card, which has one text as its identifier. -/
def IsDestination (g : Graph) (n : Node) (identifier : String) : Prop :=
  n = ⟨n.id, .entity, Entity.destination.name, none⟩ ∧
    ∃ card, g.below n.id = [⟨card, .entity, Entity.card.name, none⟩] ∧
      ∃ leaf, g.below card = [⟨leaf, .leaf, identifierName, some (.text identifier)⟩]

/-- The only association of a graph is below the root, with one destination for each identifier in
order; there is none when there is no identifier. -/
structure Associates (g : Graph) (root : NodeId) (identifiers : List String) : Prop where
  absent : identifiers = [] → ∀ n ∈ g.nodes.toList, n.kind = .entity →
    n.name ≠ Entity.association.name
  present : identifiers ≠ [] → ∃ a ∈ g.below root,
    a = ⟨a.id, .entity, Entity.association.name, none⟩ ∧
    (∀ n ∈ g.nodes.toList, n.kind = .entity → n.name = Entity.association.name → n = a) ∧
      List.Forall₂ (IsDestination g) (g.below a.id) identifiers

/-! ## Branches of a record -/

theorem mem_branches {ss : List Section} {identifiers : List String} {b : Branch}
    (h : b ∈ branches ss identifiers) :
    (∃ s ∈ ss, s.2 ≠ [] ∧ b = .node .entity s.1.name none (s.2.map leafBranch)) ∨
      (identifiers ≠ [] ∧
        b = .node .entity Entity.association.name none (identifiers.map destinationBranch)) := by
  rw [branches, List.mem_append, List.mem_flatMap] at h
  rcases h with ⟨s, hs, hb⟩ | hb
  · rw [sectionBranches] at hb
    split at hb
    · cases hb
    · next hne => exact .inl ⟨s, hs, by simpa using hne, List.mem_singleton.mp hb⟩
  · rw [associationBranches] at hb
    split at hb
    · cases hb
    · next hne => exact .inr ⟨by simpa using hne, List.mem_singleton.mp hb⟩

/-- A leaf fits an entity for which it is declared, and an association fits the root. -/
def Fits (p c : Branch) : Prop :=
  (c.kind = .leaf → p.kind = .entity ∧ ∃ v, c.value = some v ∧ Declares p.name c.name v.kind) ∧
  (c.kind = .entity → c.name = Entity.association.name → p.kind = .root)

section Orderly

variable {ss : List Section} {identifiers : List String} (hss : Orderly ss)
include hss

theorem Orderly.ne_association {s : Section} (hs : s ∈ ss) :
    s.1.name ≠ Entity.association.name := fun heq =>
  (List.nodup_append.mp hss.nodup_entities).2.2 s.1 (List.mem_map.mpr ⟨s, hs, rfl⟩)
    .association List.mem_cons_self (name_injective heq)

/-- The branches below the root have different names. -/
theorem Orderly.nodup_branches : ((branches ss identifiers).map Branch.name).Nodup := by
  have hsections : ((ss.flatMap sectionBranches).map Branch.name).Sublist
      (ss.map fun s => s.1.name) := by
    clear hss
    induction ss with
    | nil => exact .slnil
    | cons s rest ih =>
      rw [List.flatMap_cons, List.map_append, List.map_cons, sectionBranches]
      split
      · exact ih.cons _
      · exact ih.cons_cons _
  have hassociation : ((associationBranches identifiers).map Branch.name).Sublist
      [Entity.association.name] := by
    rw [associationBranches]
    split
    · exact List.nil_sublist _
    · exact List.Sublist.refl _
  have hnames := hss.nodup_entities.map name_injective
  rw [List.map_append, List.map_map] at hnames
  rw [branches, List.map_append]
  exact (hsections.append hassociation).nodup hnames

/-- Every branch below the root of a record's graph fits where it is. -/
theorem Orderly.linked :
    (Branch.node .root rootName none (branches ss identifiers)).Linked Fits := by
  have hleaf : ∀ l : String × Graph.Value, (leafBranch l).Linked Fits := fun l =>
    ⟨fun b hb => absurd hb List.not_mem_nil, trivial⟩
  -- an entity that is no association fits everywhere
  have hentity : ∀ (p : Branch) (name : String) (below : List Branch),
      name ≠ Entity.association.name → Fits p (.node .entity name none below) :=
    fun p name below hne => ⟨nofun, fun _ heq => absurd heq hne⟩
  refine ⟨fun b hb => ?_, Branch.allLinked_of_forall fun b hb => ?_⟩
  · refine ⟨fun hkind => ?_, fun _ _ => rfl⟩
    rcases mem_branches hb with ⟨s, -, -, rfl⟩ | ⟨-, rfl⟩ <;> cases hkind
  · rcases mem_branches hb with ⟨s, hs, -, rfl⟩ | ⟨-, rfl⟩
    · refine ⟨fun c hc => ?_, Branch.allLinked_of_forall fun c hc => ?_⟩
      · obtain ⟨l, hl, rfl⟩ := List.mem_map.mp hc
        exact ⟨fun _ => ⟨rfl, l.2, rfl, hss.declared s hs l hl⟩, nofun⟩
      · obtain ⟨l, -, rfl⟩ := List.mem_map.mp hc
        exact hleaf l
    · refine ⟨fun c hc => ?_, Branch.allLinked_of_forall fun c hc => ?_⟩
      · obtain ⟨i, -, rfl⟩ := List.mem_map.mp hc
        exact hentity _ _ _ (by decide)
      · obtain ⟨i, -, rfl⟩ := List.mem_map.mp hc
        refine ⟨fun d hd => ?_, ⟨fun l hl => ?_, hleaf _, trivial⟩, trivial⟩
        · obtain rfl := List.mem_singleton.mp hd
          exact hentity _ _ _ (by decide)
        · obtain rfl := List.mem_singleton.mp hl
          exact ⟨fun _ => ⟨rfl, .text i, rfl, declares_identifier⟩, nofun⟩

end Orderly

/-! ## The graph of a record -/

/-- A destination bears its identifier. -/
theorem isDestination {g : Graph} {n : Node} {identifier : String}
    (h : g.Bears n (destinationBranch identifier)) : IsDestination g n identifier := by
  refine ⟨h.eq_node, ?_⟩
  obtain ⟨card, _, hcard, hnil, hbelow⟩ := List.forall₂_cons_right_iff.mp h.below
  obtain rfl := List.forall₂_nil_right_iff.mp hnil
  obtain ⟨leaf, _, hleaf, hnil, hbelow'⟩ := List.forall₂_cons_right_iff.mp hcard.below
  obtain rfl := List.forall₂_nil_right_iff.mp hnil
  refine ⟨card.id, ?_, leaf.id, ?_⟩
  · rw [hbelow, ← hcard.eq_node]
  · rw [hbelow', ← hleaf.eq_node]

section Typed

variable {g : Graph} {ss : List Section} {identifiers : List String} (hss : Orderly ss)
include hss

theorem sectioned {root : Node}
    (h : g.Bears root (.node .root rootName none (branches ss identifiers))) :
    Sectioned g root.id := by
  constructor
  case kind_eq =>
    intro n hn
    obtain ⟨b, hb, hbears⟩ := exists_bears_of_mem h.below hn
    rcases mem_branches hb with ⟨s, -, -, rfl⟩ | ⟨-, rfl⟩ <;> rw [hbears.eq_node]
  case nodup_names =>
    rw [map_name_eq h.below]
    exact hss.nodup_branches
  case leaves =>
    intro n hn hname
    obtain ⟨b, hb, hbears⟩ := exists_bears_of_mem h.below hn
    rcases mem_branches hb with ⟨s, hs, hne, rfl⟩ | ⟨-, rfl⟩
    · have hnames : (g.below n.id).map Node.name = s.2.map Prod.fst := by
        rw [map_name_eq hbears.below, List.map_map]
        rfl
      refine ⟨fun hnil => hne ?_, fun l hl => ?_, ?_⟩
      · rw [hnil] at hnames
        exact List.map_eq_nil_iff.mp hnames.symm
      · obtain ⟨c, hc, hleaf⟩ := exists_bears_of_mem hbears.below hl
        obtain ⟨l, -, rfl⟩ := List.mem_map.mp hc
        rw [hleaf.eq_node]
      · rw [hnames]
        exact hss.nodup_names s hs
    · exact absurd hbears.name_eq hname

theorem leavesDeclared (h : Planted g (.node .root rootName none (branches ss identifiers))) :
    LeavesDeclared g := by
  intro n hn hkind
  obtain ⟨p, c, ⟨hfits, -⟩, id, hp, hc, he⟩ :=
    h.exists_parent hss.linked hn (by rw [hkind]; exact nofun)
  rw [hc, c.kind_top] at hkind
  obtain ⟨hentity, v, hv, hdeclares⟩ := hfits hkind
  refine ⟨p.top id, hp, ?_, (p.kind_top id).trans hentity, v, ?_, ?_⟩
  · rw [p.id_top]
    exact he
  · rw [hc, c.value_top, hv]
  · rw [hc, p.name_top, c.name_top]
    exact hdeclares

theorem associates (h : Planted g (.node .root rootName none (branches ss identifiers)))
    {root : Node} (hroot : ∀ n ∈ g.nodes.toList, n.kind = .root → n = root)
    (hbears : g.Bears root (.node .root rootName none (branches ss identifiers))) :
    Associates g root.id identifiers := by
  have hbelow : ∀ n ∈ g.nodes.toList, n.kind = .entity → n.name = Entity.association.name →
      n ∈ g.below root.id ∧ identifiers ≠ [] := by
    intro n hn hkind hname
    obtain ⟨p, c, ⟨-, hfits⟩, id, hp, hc, he⟩ :=
      h.exists_parent hss.linked hn (by rw [hkind]; exact nofun)
    have hparent : p.kind = .root := by
      rw [hc] at hkind hname
      exact hfits ((c.kind_top _).symm.trans hkind) ((c.name_top _).symm.trans hname)
    have hid : id = root.id := by
      rw [← hroot _ hp (by rw [p.kind_top]; exact hparent), p.id_top]
    rw [hid] at he
    have hmem := h.mem_below hn he
    obtain ⟨b, hb, hn'⟩ := exists_bears_of_mem hbears.below hmem
    rcases mem_branches hb with ⟨s, hs, -, rfl⟩ | ⟨hne, rfl⟩
    · exact absurd (hn'.name_eq.symm.trans hname) (hss.ne_association hs)
    · exact ⟨hmem, hne⟩
  constructor
  case absent => exact fun hnil n hn hkind hname => (hbelow n hn hkind hname).2 hnil
  case present =>
    intro hne
    have hmem : Branch.node .entity Entity.association.name none
        (identifiers.map destinationBranch) ∈ branches ss identifiers := by
      rw [branches, List.mem_append, associationBranches, if_neg (by simpa using hne)]
      exact .inr List.mem_cons_self
    obtain ⟨a, ha, ha'⟩ := exists_mem_bears hbears.below hmem
    refine ⟨a, ha, ha'.eq_node, fun n hn hkind hname => ?_, ?_⟩
    · exact List.inj_on_of_nodup_map (sectioned hss hbears).nodup_names (hbelow n hn hkind hname).1
        ha (hname.trans ha'.name_eq.symm)
    · exact (List.forall₂_map_right_iff.mp ha'.below).imp fun _ _ => isDestination

end Typed

/--
The graph of a record is a tree that is typed by the schema: below its root are the sections of the
record, each with its attributes, and the association with the associated records.
-/
theorem encode_typed (r : Record) (g : Graph) (h : (encode r).result = .ok g)
    (hsize : g.nodes.size < 2 ^ 32) :
    g.IsTree ∧ LeavesDeclared g ∧ ∃ root, g.root? = some root ∧ Sectioned g root ∧
      Associates g root r.associations := by
  obtain ⟨rfl, -⟩ := encode_ok h
  have hss := orderly_sections r
  have hplanted := planted_assemble hsize.le
  have hsound := sound_branches
    ((sectionsOf r).map (sectionOf r) ++ [(.security, markingLeaves r)]) r.associations
  obtain ⟨root, hroot, hbears, hunique⟩ := hplanted.root hsound
  exact ⟨hplanted.isTree hsound, leavesDeclared hss hplanted, root.id, hroot,
    sectioned hss hbears, associates hss hplanted hunique hbears⟩

/-- A place with a marking and an associated record. -/
def place : Record where
  attributes := [("id", .text "a"), ("location", .geometry "POINT (1 2)"),
    ("security.classification", .text "SECRET")]
  associations := ["b"]

/-- The graph of the place. -/
def placeGraph : Graph :=
  assemble [(.card, [(identifierName, .text "a")]),
    (.coverage, [(boxName, .rectangle ⟨⟨2.0, 1.0⟩, ⟨2.0, 1.0⟩⟩)]),
    (.security, [(Marking.classification.name, .text "SECRET")])] ["b"]

theorem encode_typed_place : (encode place).result = .ok placeGraph ∧
    placeGraph.nodes.size = 11 ∧ placeGraph.IsTree ∧ LeavesDeclared placeGraph ∧
      ∃ root, placeGraph.root? = some root ∧ Sectioned placeGraph root ∧
        Associates placeGraph root ["b"] := by
  have hencode : (encode place).result = .ok placeGraph := by decide +kernel
  have hsize : placeGraph.nodes.size = 11 := by decide +kernel
  exact ⟨hencode, hsize, encode_typed place placeGraph hencode (by omega)⟩

end Catalogue.Exchange
