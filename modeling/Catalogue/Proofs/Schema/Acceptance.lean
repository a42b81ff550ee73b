import Catalogue.Proofs.Lists.Decisive
import Catalogue.Proofs.Lists.Distinct
import Catalogue.Schema.Declaration

/-!
# Which declarations are accepted

A schema is built from a sequence of declarations exactly when nothing is wrong with any of them.
What may be wrong with a declaration depends on those before it and, where an entity has to be
declared, on the whole sequence. The error is what is wrong with the first such declaration, where
all entities are looked at before all relationships, and these before all views.

* `Violation` — what is wrong with one declaration of a sequence.
* `scan` — the order in which the declarations are looked at.
* `Sound` — a sequence in which nothing is wrong.
* `build_eq_ok_iff` — what is built from which sequences.
* `build_outcome` — acceptance, and the error of a sequence that is not accepted.
-/

namespace Catalogue.Schema

open Catalogue.Lists

/-! ## What is declared -/

namespace Declaration

def entity? : Declaration → Option (Entity × List Attribute)
  | .entity e attributes => some (e, attributes)
  | _ => none

def relationship? : Declaration → Option Relationship
  | .relate r => some r
  | _ => none

def view? : Declaration → Option (String × Entity)
  | .view name root => some (name, root)
  | _ => none

end Declaration

def entitiesOf (steps : List Declaration) : List (Entity × List Attribute) :=
  steps.filterMap Declaration.entity?

def relationshipsOf (steps : List Declaration) : List Relationship :=
  steps.filterMap Declaration.relationship?

def viewsOf (steps : List Declaration) : List (String × Entity) :=
  steps.filterMap Declaration.view?

/-- The entities that are declared in a sequence, in the order of declaration. -/
def declaredIn (steps : List Declaration) : List Entity := (entitiesOf steps).map Prod.fst

/-- The two ends of a relationship. -/
def Relationship.ends (r : Relationship) : Entity × Entity := (r.parent, r.child)

/-- What is collected of a kind are the declarations of that kind. -/
theorem mem_filterMap_iff {β : Type} {f : Declaration → Option β} (g : β → Declaration)
    (h : ∀ x b, f x = some b ↔ g b = x) {steps : List Declaration} {b : β} :
    b ∈ steps.filterMap f ↔ g b ∈ steps := by
  simp only [List.mem_filterMap, h, exists_eq_right']

theorem mem_entitiesOf {steps : List Declaration} {e : Entity} {as : List Attribute} :
    (e, as) ∈ entitiesOf steps ↔ .entity e as ∈ steps :=
  mem_filterMap_iff (fun d : Entity × List Attribute => .entity d.1 d.2) fun x b => by
    cases x <;> simp [Declaration.entity?, Prod.ext_iff, eq_comm]

theorem mem_relationshipsOf {steps : List Declaration} {r : Relationship} :
    r ∈ relationshipsOf steps ↔ .relate r ∈ steps :=
  mem_filterMap_iff .relate fun x r => by cases x <;> simp [Declaration.relationship?, eq_comm]

theorem mem_viewsOf {steps : List Declaration} {name : String} {root : Entity} :
    (name, root) ∈ viewsOf steps ↔ .view name root ∈ steps :=
  mem_filterMap_iff (fun v : String × Entity => .view v.1 v.2) fun x b => by
    cases x <;> simp [Declaration.view?, Prod.ext_iff, eq_comm]

theorem mem_declaredIn {steps : List Declaration} {e : Entity} :
    e ∈ declaredIn steps ↔ ∃ as, .entity e as ∈ steps := by
  rw [declaredIn, List.mem_map]
  constructor
  · rintro ⟨⟨_, as⟩, hmem, rfl⟩
    exact ⟨as, mem_entitiesOf.mp hmem⟩
  · rintro ⟨as, hmem⟩
    exact ⟨(e, as), mem_entitiesOf.mpr hmem, rfl⟩

/-- The declarations of a sequence are collected by their kinds, each kind in order. -/
theorem ofList_eq (steps : List Declaration) :
    Declarations.ofList steps = ⟨entitiesOf steps, relationshipsOf steps, viewsOf steps⟩ := by
  induction steps using List.reverseRecOn with
  | nil => rfl
  | append_singleton steps x ih =>
    have hlast : Declarations.ofList (steps ++ [x]) = (Declarations.ofList steps).declare x :=
      List.foldl_append
    rw [hlast, ih]
    cases x <;> simp [Declarations.declare, Declarations.entity, Declarations.relate,
      Declarations.view, entitiesOf, relationshipsOf, viewsOf, Declaration.entity?,
      Declaration.relationship?, Declaration.view?]

/-! ## What may be wrong -/

/-- What is wrong with a declaration that comes after some others of a sequence. -/
inductive Violation (steps before : List Declaration) : Declaration → SchemaError → Prop
  | duplicateAttribute {e : Entity} {front back : List Attribute} {a : Attribute}
      (hfront : (front.map Attribute.name).Nodup) (h : a.name ∈ front.map Attribute.name) :
      Violation steps before (.entity e (front ++ a :: back)) (.duplicateAttribute e a.name)
  | duplicateEntity {e : Entity} {as : List Attribute} (hnames : (as.map Attribute.name).Nodup)
      (h : e ∈ declaredIn before) :
      Violation steps before (.entity e as) (.duplicateEntity e)
  | selfRelationship {r : Relationship} (h : r.parent = r.child) :
      Violation steps before (.relate r) (.selfRelationship r.parent)
  | undeclaredParent {r : Relationship} (hloop : r.parent ≠ r.child)
      (h : r.parent ∉ declaredIn steps) :
      Violation steps before (.relate r) (.undeclaredEntity r.parent r.child r.parent)
  | undeclaredChild {r : Relationship} (hloop : r.parent ≠ r.child)
      (hparent : r.parent ∈ declaredIn steps) (h : r.child ∉ declaredIn steps) :
      Violation steps before (.relate r) (.undeclaredEntity r.parent r.child r.child)
  | duplicateRelationship {r : Relationship} (hloop : r.parent ≠ r.child)
      (hparent : r.parent ∈ declaredIn steps) (hchild : r.child ∈ declaredIn steps)
      (h : r.ends ∈ (relationshipsOf before).map Relationship.ends) :
      Violation steps before (.relate r) (.duplicateRelationship r.parent r.child)
  | undeclaredRoot {name : String} {root : Entity} (h : root ∉ declaredIn steps) :
      Violation steps before (.view name root) (.undeclaredViewRoot name root)
  | duplicateView {name : String} {root : Entity} (hroot : root ∈ declaredIn steps)
      (h : name ∈ (viewsOf before).map Prod.fst) :
      Violation steps before (.view name root) (.duplicateView name)

/-- Each declaration of a row with those before it. -/
def placesFrom (before : List Declaration) :
    List Declaration → List (List Declaration × Declaration)
  | [] => []
  | x :: rest => (before, x) :: placesFrom (before ++ [x]) rest

/-- The order in which the declarations of a sequence are looked at: the entities, the
relationships, the views, each kind in the order of declaration. -/
def scan (steps : List Declaration) : List (List Declaration × Declaration) :=
  let places := placesFrom [] steps
  places.filter (·.2.entity?.isSome) ++ places.filter (·.2.relationship?.isSome)
    ++ places.filter (·.2.view?.isSome)

theorem mem_placesFrom {pre rest : List Declaration} {p : List Declaration × Declaration} :
    p ∈ placesFrom pre rest ↔
      ∃ before after, rest = before ++ p.2 :: after ∧ p.1 = pre ++ before := by
  induction rest generalizing pre with
  | nil => simp [placesFrom]
  | cons x rest ih =>
    rw [placesFrom, List.mem_cons, ih]
    constructor
    · rintro (rfl | ⟨before, after, rfl, heq⟩)
      · exact ⟨[], rest, rfl, (List.append_nil _).symm⟩
      · exact ⟨x :: before, after, rfl, by rw [heq, List.append_assoc]; rfl⟩
    · rintro ⟨before, after, hrest, heq⟩
      cases before with
      | nil =>
        obtain ⟨rfl, rfl⟩ := List.cons.inj hrest
        exact .inl (Prod.ext (heq.trans (List.append_nil _)) rfl)
      | cons y before =>
        obtain ⟨rfl, rfl⟩ := List.cons.inj hrest
        exact .inr ⟨before, after, rfl, by rw [heq, List.append_assoc]; rfl⟩

/-- Every declaration is looked at, with those before it. -/
theorem mem_scan {steps before : List Declaration} {x : Declaration} :
    (before, x) ∈ scan steps ↔ ∃ after, steps = before ++ x :: after := by
  have hplaces : (before, x) ∈ placesFrom [] steps ↔ ∃ after, steps = before ++ x :: after := by
    rw [mem_placesFrom]
    constructor
    · rintro ⟨_, after, hsteps, rfl⟩
      exact ⟨after, hsteps⟩
    · exact fun ⟨after, hsteps⟩ => ⟨before, after, hsteps, rfl⟩
  rw [← hplaces, scan]
  cases x <;> simp [Declaration.entity?, Declaration.relationship?, Declaration.view?]

/-! ## The checks -/

/-- The outcome of a check that finds a fault, or none. -/
def outcome : Option SchemaError → Except SchemaError Unit
  | none => .ok ()
  | some err => .error err

/-- The first fault of a row, where what was seen of those before is kept, the latest first. -/
def firstFault? {β κ : Type} (fault? : List κ → β → Option SchemaError) (key : β → κ)
    (seen : List κ) : List β → Option SchemaError
  | [] => none
  | b :: rest => (fault? seen b).or (firstFault? fault? key (key b :: seen) rest)

/-- The fault of an entity after those that were seen. -/
def entityFault? (seen : List Entity) (d : Entity × List Attribute) : Option SchemaError :=
  match Declarations.repeatedName? [] d.2 with
  | some name => some (.duplicateAttribute d.1 name)
  | none => if d.1 ∈ seen then some (.duplicateEntity d.1) else none

/-- The fault of a relationship between entities, after pairs that were seen. -/
def relationshipFault? (known : List Entity) (seen : List (Entity × Entity)) (r : Relationship) :
    Option SchemaError :=
  if r.parent = r.child then some (.selfRelationship r.parent)
  else if r.parent ∉ known then some (.undeclaredEntity r.parent r.child r.parent)
  else if r.child ∉ known then some (.undeclaredEntity r.parent r.child r.child)
  else if seen.contains r.ends then some (.duplicateRelationship r.parent r.child)
  else none

/-- The fault of a view of entities, after names that were seen. -/
def viewFault? (known : List Entity) (seen : List String) (v : String × Entity) :
    Option SchemaError :=
  if v.2 ∉ known then some (.undeclaredViewRoot v.1 v.2)
  else if v.1 ∈ seen then some (.duplicateView v.1)
  else none

theorem checkEntities_eq (seen : List Entity) (l : List (Entity × List Attribute)) :
    Declarations.checkEntities seen l = outcome (firstFault? entityFault? Prod.fst seen l) := by
  induction l generalizing seen with
  | nil => rfl
  | cons d rest ih =>
    rw [Declarations.checkEntities, firstFault?, entityFault?]
    cases Declarations.repeatedName? [] d.2 with
    | some name => rfl
    | none =>
      by_cases h : d.1 ∈ seen
      · simp only [if_pos h]
        rfl
      · simp only [if_neg h]
        exact ih _

theorem checkRelationships_eq (known : List Entity) (seen : List (Entity × Entity))
    (l : List Relationship) : Declarations.checkRelationships known seen l =
      outcome (firstFault? (relationshipFault? known) Relationship.ends seen l) := by
  induction l generalizing seen with
  | nil => rfl
  | cons r rest ih =>
    have hends : r.ends = (r.parent, r.child) := rfl
    rw [Declarations.checkRelationships, firstFault?, relationshipFault?, hends]
    simp only [List.contains_iff_mem]
    split
    · rfl
    split
    · rfl
    split
    · rfl
    split
    · rfl
    · exact ih _

theorem checkViews_eq (known : List Entity) (seen : List String) (l : List (String × Entity)) :
    Declarations.checkViews known seen l =
      outcome (firstFault? (viewFault? known) Prod.fst seen l) := by
  induction l generalizing seen with
  | nil => rfl
  | cons v rest ih =>
    rw [Declarations.checkViews, firstFault?, viewFault?]
    split
    · rfl
    split
    · rfl
    · exact ih _

/-- What is wrong with a declaration of a sequence, after some others. -/
def fault? (steps before : List Declaration) : Declaration → Option SchemaError
  | .entity e as => entityFault? (declaredIn before).reverse (e, as)
  | .relate r => relationshipFault? (declaredIn steps)
      ((relationshipsOf before).map Relationship.ends).reverse r
  | .view name root => viewFault? (declaredIn steps) ((viewsOf before).map Prod.fst).reverse
      (name, root)

/-- The first fault among the declarations of one kind is found in the scan of that kind. -/
theorem firstFault?_filterMap {β κ : Type} (f : Declaration → Option β)
    (fault : List κ → β → Option SchemaError) (key : β → κ) (steps : List Declaration)
    (h : ∀ before x b, f x = some b →
      fault? steps before x = fault ((before.filterMap f).map key).reverse b)
    (before rest : List Declaration) :
    firstFault? fault key ((before.filterMap f).map key).reverse (rest.filterMap f) =
      ((placesFrom before rest).filter (fun p => (f p.2).isSome)).findSome?
        fun p => fault? steps p.1 p.2 := by
  induction rest generalizing before with
  | nil => rfl
  | cons x rest ih =>
    have hnext := ih (before ++ [x])
    rw [placesFrom, List.filter_cons]
    cases hx : f x with
    | none =>
      rw [List.filterMap_append, List.filterMap_cons_none hx, List.filterMap_nil,
        List.append_nil] at hnext
      rw [List.filterMap_cons_none hx, hnext]
      simp
    | some b =>
      rw [List.filterMap_append, List.filterMap_cons_some hx, List.filterMap_nil, List.map_append,
        List.reverse_append] at hnext
      rw [List.filterMap_cons_some hx, firstFault?, ← h before x b hx]
      simp only [Option.isSome_some, if_true, List.findSome?_cons]
      cases fault? steps before x with
      | some err => rfl
      | none => exact hnext

theorem outcome_or (a b : Option SchemaError) :
    outcome (a.or b) = (do outcome a; outcome b) := by
  cases a <;> rfl

/-- A sequence is accepted when the scan finds no fault, and else the first one is the error. -/
theorem build_ofList (steps : List Declaration) :
    (Declarations.ofList steps).build = (do
      outcome ((scan steps).findSome? fun p => fault? steps p.1 p.2)
      return (Declarations.ofList steps).schema) := by
  have hentities := firstFault?_filterMap Declaration.entity? entityFault? Prod.fst steps
    (fun before x b hx => by cases x <;> cases hx; rfl) [] steps
  have hrelationships := firstFault?_filterMap Declaration.relationship?
    (relationshipFault? (declaredIn steps)) Relationship.ends steps
    (fun before x b hx => by cases x <;> cases hx; rfl) [] steps
  have hviews := firstFault?_filterMap Declaration.view? (viewFault? (declaredIn steps)) Prod.fst
    steps (fun before x b hx => by cases x <;> cases hx; rfl) [] steps
  rw [scan, List.findSome?_append, List.findSome?_append, ← hentities, ← hrelationships, ← hviews,
    outcome_or, outcome_or, ofList_eq, Declarations.build, checkEntities_eq,
    checkRelationships_eq, checkViews_eq]
  simp only [bind_assoc]
  rfl

/-! ## Faults and violations -/

/-- No name is repeated when the names are different, and none is one of those seen before. -/
theorem repeatedName?_eq_none_iff {seen : List String} {as : List Attribute} :
    Declarations.repeatedName? seen as = none ↔
      (as.map Attribute.name).Nodup ∧ ∀ a ∈ as, a.name ∉ seen := by
  induction as generalizing seen with
  | nil => simp [Declarations.repeatedName?]
  | cons a rest ih =>
    rw [Declarations.repeatedName?]
    by_cases h : a.name ∈ seen
    · simp [h]
    · rw [if_neg h, ih]
      simp only [List.mem_cons, not_or, List.map_cons, List.nodup_cons, List.mem_map, not_exists,
        not_and, forall_eq_or_imp]
      constructor
      · rintro ⟨hnodup, hnew⟩
        exact ⟨⟨fun b hb => (hnew b hb).1, hnodup⟩, h, fun b hb => (hnew b hb).2⟩
      · rintro ⟨⟨hne, hnodup⟩, -, hnew⟩
        exact ⟨hnodup, fun b hb => ⟨hne b hb, hnew b hb⟩⟩

/-- The name that is repeated is that of the first attribute that does not have a new one. -/
theorem repeatedName?_eq_some_iff {seen : List String} {as : List Attribute} {name : String} :
    Declarations.repeatedName? seen as = some name ↔
      ∃ front a back, as = front ++ a :: back ∧ a.name = name ∧
        Declarations.repeatedName? seen front = none ∧
        (name ∈ front.map Attribute.name ∨ name ∈ seen) := by
  induction as generalizing seen with
  | nil => simp [Declarations.repeatedName?]
  | cons b rest ih =>
    rw [Declarations.repeatedName?]
    by_cases h : b.name ∈ seen
    · rw [if_pos h, Option.some_inj]
      constructor
      · rintro rfl
        exact ⟨[], b, rest, rfl, rfl, rfl, .inr h⟩
      · rintro ⟨front, a, back, hsplit, rfl, hfront, -⟩
        cases front with
        | nil => exact congrArg Attribute.name (List.cons.inj hsplit).1
        | cons c front =>
          obtain rfl := (List.cons.inj hsplit).1
          rw [Declarations.repeatedName?, if_pos h] at hfront
          cases hfront
    · rw [if_neg h, ih]
      constructor
      · rintro ⟨front, a, back, rfl, rfl, hfront, hname⟩
        refine ⟨b :: front, a, back, rfl, rfl, ?_, ?_⟩
        · rw [Declarations.repeatedName?, if_neg h, hfront]
        · simp only [List.map_cons, List.mem_cons] at hname ⊢
          tauto
      · rintro ⟨front, a, back, hsplit, rfl, hfront, hname⟩
        cases front with
        | nil =>
          obtain rfl := (List.cons.inj hsplit).1
          exact absurd (hname.resolve_left (List.not_mem_nil)) h
        | cons c front =>
          obtain ⟨rfl, rfl⟩ := List.cons.inj hsplit
          rw [Declarations.repeatedName?, if_neg h] at hfront
          refine ⟨front, a, back, rfl, rfl, hfront, ?_⟩
          simp only [List.map_cons, List.mem_cons] at hname ⊢
          tauto

section Faults

variable {steps before : List Declaration} {err : SchemaError}

theorem violation_of_entityFault? {e : Entity} {as : List Attribute}
    (h : entityFault? (declaredIn before).reverse (e, as) = some err) :
    Violation steps before (.entity e as) err := by
  rw [entityFault?] at h
  split at h
  · next name hname =>
    obtain rfl := Option.some.inj h
    obtain ⟨front, a, back, hsplit, rfl, hfront, hmem⟩ := repeatedName?_eq_some_iff.mp hname
    obtain rfl : as = front ++ a :: back := hsplit
    exact .duplicateAttribute (repeatedName?_eq_none_iff.mp hfront).1
      (hmem.resolve_right List.not_mem_nil)
  · next hnone =>
    split at h
    · next hmem =>
      obtain rfl := Option.some.inj h
      exact .duplicateEntity (repeatedName?_eq_none_iff.mp hnone).1 (List.mem_reverse.mp hmem)
    · cases h

theorem violation_of_relationshipFault? {r : Relationship}
    (h : relationshipFault? (declaredIn steps)
      ((relationshipsOf before).map Relationship.ends).reverse r = some err) :
    Violation steps before (.relate r) err := by
  rw [relationshipFault?] at h
  split at h
  · next hloop => obtain rfl := Option.some.inj h; exact .selfRelationship hloop
  next hloop =>
  split at h
  · next hparent => obtain rfl := Option.some.inj h; exact .undeclaredParent hloop hparent
  next hparent =>
  rw [not_not] at hparent
  split at h
  · next hchild => obtain rfl := Option.some.inj h; exact .undeclaredChild hloop hparent hchild
  next hchild =>
  rw [not_not] at hchild
  split at h
  · next hpair =>
    obtain rfl := Option.some.inj h
    exact .duplicateRelationship hloop hparent hchild
      (List.mem_reverse.mp (List.contains_iff_mem.mp hpair))
  · cases h

theorem violation_of_viewFault? {name : String} {root : Entity}
    (h : viewFault? (declaredIn steps) ((viewsOf before).map Prod.fst).reverse (name, root) =
      some err) : Violation steps before (.view name root) err := by
  rw [viewFault?] at h
  split at h
  · next hroot => obtain rfl := Option.some.inj h; exact .undeclaredRoot hroot
  next hroot =>
  rw [not_not] at hroot
  split at h
  · next hname =>
    obtain rfl := Option.some.inj h
    exact .duplicateView hroot (List.mem_reverse.mp hname)
  · cases h

theorem violation_of_fault? {x : Declaration} (h : fault? steps before x = some err) :
    Violation steps before x err := by
  cases x with
  | entity e as => exact violation_of_entityFault? h
  | relate r => exact violation_of_relationshipFault? h
  | view name root => exact violation_of_viewFault? h

theorem Violation.fault?_eq {x : Declaration} (h : Violation steps before x err) :
    fault? steps before x = some err := by
  cases h with
  | @duplicateAttribute e front back a hfront h =>
    have hname : Declarations.repeatedName? [] (front ++ a :: back) = some a.name :=
      repeatedName?_eq_some_iff.mpr ⟨front, a, back, rfl, rfl,
        repeatedName?_eq_none_iff.mpr ⟨hfront, fun _ _ => List.not_mem_nil⟩, .inl h⟩
    simp [fault?, entityFault?, hname]
  | @duplicateEntity e as hnames h =>
    have hnone : Declarations.repeatedName? [] as = none :=
      repeatedName?_eq_none_iff.mpr ⟨hnames, fun _ _ => List.not_mem_nil⟩
    simp [fault?, entityFault?, hnone, h]
  | selfRelationship h => simp [fault?, relationshipFault?, h]
  | undeclaredParent hloop h => simp [fault?, relationshipFault?, hloop, h]
  | undeclaredChild hloop hparent h => simp [fault?, relationshipFault?, hloop, hparent, h]
  | duplicateRelationship hloop hparent hchild h =>
    rw [fault?, relationshipFault?, if_neg hloop, if_neg (not_not.mpr hparent),
      if_neg (not_not.mpr hchild), if_pos (List.contains_iff_mem.mpr (List.mem_reverse.mpr h))]
  | undeclaredRoot h => simp [fault?, viewFault?, h]
  | duplicateView hroot h =>
    rw [fault?, viewFault?, if_neg (not_not.mpr hroot), if_pos (List.mem_reverse.mpr h)]

/-- The fault of a declaration is what is wrong with it. -/
theorem fault?_eq_some_iff {x : Declaration} :
    fault? steps before x = some err ↔ Violation steps before x err :=
  ⟨violation_of_fault?, Violation.fault?_eq⟩

end Faults

/-! ## Acceptance -/

/-- A sequence of declarations in which nothing is wrong. -/
structure Sound (steps : List Declaration) : Prop where
  attributes_nodup : ∀ e as, .entity e as ∈ steps → (as.map Attribute.name).Nodup
  entities_nodup : (declaredIn steps).Nodup
  ends_ne : ∀ r, .relate r ∈ steps → r.parent ≠ r.child
  parent_declared : ∀ r, .relate r ∈ steps → r.parent ∈ declaredIn steps
  child_declared : ∀ r, .relate r ∈ steps → r.child ∈ declaredIn steps
  ends_nodup : ((relationshipsOf steps).map Relationship.ends).Nodup
  root_declared : ∀ name root, .view name root ∈ steps → root ∈ declaredIn steps
  views_nodup : ((viewsOf steps).map Prod.fst).Nodup

/-- In a sequence in which nothing is wrong, nothing is wrong with any declaration. -/
theorem Sound.not_violation {steps before after : List Declaration} {x : Declaration}
    (h : Sound steps) (hsteps : steps = before ++ x :: after) (err : SchemaError) :
    ¬ Violation steps before x err := by
  intro hviolation
  have hmem : x ∈ steps := by simp [hsteps]
  cases hviolation with
  | @duplicateAttribute e front back a hfront hname =>
    have hnodup := h.attributes_nodup _ _ hmem
    rw [List.map_append, List.nodup_append] at hnodup
    exact hnodup.2.2 _ hname _ List.mem_cons_self rfl
  | duplicateEntity hnames he =>
    exact nodup_map_filterMap_iff.mp h.entities_nodup before _ after hsteps _ rfl he
  | selfRelationship hloop => exact h.ends_ne _ hmem hloop
  | undeclaredParent hloop hparent => exact hparent (h.parent_declared _ hmem)
  | undeclaredChild hloop hparent hchild => exact hchild (h.child_declared _ hmem)
  | duplicateRelationship hloop hparent hchild hpair =>
    exact nodup_map_filterMap_iff.mp h.ends_nodup before _ after hsteps _ rfl hpair
  | undeclaredRoot hroot => exact hroot (h.root_declared _ _ hmem)
  | duplicateView hroot hname =>
    exact nodup_map_filterMap_iff.mp h.views_nodup before _ after hsteps _ rfl hname

/-- A sequence with none of whose declarations anything is wrong is sound. -/
theorem sound_of_not_violation {steps : List Declaration}
    (h : ∀ before x after, steps = before ++ x :: after →
      ∀ err, ¬ Violation steps before x err) : Sound steps := by
  have hplace : ∀ x ∈ steps, ∃ before, ∀ err, ¬ Violation steps before x err := by
    intro x hx
    obtain ⟨before, after, hsteps⟩ := List.append_of_mem hx
    exact ⟨before, h before x after hsteps⟩
  have hmem : ∀ before x after, steps = before ++ x :: after → x ∈ steps := by
    intro before x after hsteps
    simp [hsteps]
  -- what comes later in a check is reached only when nothing was wrong before it
  have hnames : ∀ e as, .entity e as ∈ steps → (as.map Attribute.name).Nodup := by
    intro e as he
    obtain ⟨before, hnone⟩ := hplace _ he
    by_contra hnot
    cases hname : Declarations.repeatedName? [] as with
    | none => exact hnot (repeatedName?_eq_none_iff.mp hname).1
    | some name =>
      refine hnone (.duplicateAttribute e name) (violation_of_fault? ?_)
      simp [fault?, entityFault?, hname]
  have hloop : ∀ r, .relate r ∈ steps → r.parent ≠ r.child := by
    intro r hr heq
    obtain ⟨before, hnone⟩ := hplace _ hr
    exact hnone _ (.selfRelationship heq)
  have hparent : ∀ r, .relate r ∈ steps → r.parent ∈ declaredIn steps := by
    intro r hr
    obtain ⟨before, hnone⟩ := hplace _ hr
    by_contra hnot
    exact hnone _ (.undeclaredParent (hloop r hr) hnot)
  have hchild : ∀ r, .relate r ∈ steps → r.child ∈ declaredIn steps := by
    intro r hr
    obtain ⟨before, hnone⟩ := hplace _ hr
    by_contra hnot
    exact hnone _ (.undeclaredChild (hloop r hr) (hparent r hr) hnot)
  have hroot : ∀ name root, .view name root ∈ steps → root ∈ declaredIn steps := by
    intro name root hv
    obtain ⟨before, hnone⟩ := hplace _ hv
    by_contra hnot
    exact hnone _ (.undeclaredRoot hnot)
  refine ⟨hnames, ?_, hloop, hparent, hchild, ?_, hroot, ?_⟩
  all_goals refine nodup_map_filterMap_iff.mpr fun before x after hsteps d hx hseen => ?_
  all_goals cases x <;> cases hx
  · have he := hmem before _ after hsteps
    exact h before _ after hsteps _ (.duplicateEntity (hnames _ _ he) hseen)
  · have hr := hmem before _ after hsteps
    exact h before _ after hsteps _
      (.duplicateRelationship (hloop _ hr) (hparent _ hr) (hchild _ hr) hseen)
  · have hv := hmem before _ after hsteps
    exact h before _ after hsteps _ (.duplicateView (hroot _ _ hv) hseen)

/-- Nothing is wrong in a sequence when nothing is wrong with any declaration of its scan. -/
theorem sound_iff {steps : List Declaration} :
    Sound steps ↔ ∀ p ∈ scan steps, ∀ err, ¬ Violation steps p.1 p.2 err := by
  constructor
  · rintro h ⟨before, x⟩ hp
    obtain ⟨after, hsteps⟩ := mem_scan.mp hp
    exact h.not_violation hsteps
  · intro h
    exact sound_of_not_violation fun before x after hsteps =>
      h (before, x) (mem_scan.mpr ⟨after, hsteps⟩)

theorem outcome_bind_eq_ok_iff {a : Option SchemaError} {s t : Schema} :
    (do outcome a; return s) = Except.ok t ↔ a = none ∧ t = s := by
  cases a with
  | none => exact ⟨fun h => ⟨rfl, (Except.ok.inj h).symm⟩, fun h => congrArg Except.ok h.2.symm⟩
  | some err => exact ⟨nofun, fun h => nomatch h.1⟩

theorem outcome_bind_eq_error_iff {a : Option SchemaError} {s : Schema} {err : SchemaError} :
    (do outcome a; return s) = Except.error err ↔ a = some err := by
  cases a with
  | none => exact ⟨nofun, nofun⟩
  | some e => exact ⟨fun h => congrArg some (Except.error.inj h), fun h => by cases h; rfl⟩

/-- What is built from a sequence in which nothing is wrong is its schema. -/
theorem build_eq_ok_iff {steps : List Declaration} {s : Schema} :
    (Declarations.ofList steps).build = .ok s ↔
      Sound steps ∧ s = (Declarations.ofList steps).schema := by
  rw [build_ofList, outcome_bind_eq_ok_iff, sound_iff,
    findSome?_eq_none_iff_forall fun _ _ _ => fault?_eq_some_iff]

/-- A sequence of declarations is accepted exactly when nothing is wrong in it, and else the error
is what is wrong with the first declaration of the scan with which something is wrong. -/
theorem build_outcome (steps : List Declaration) :
    ((∃ s, (Declarations.ofList steps).build = .ok s) ↔ Sound steps) ∧
    ∀ err, (Declarations.ofList steps).build = .error err ↔
      FirstOf (fun p => Violation steps p.1 p.2) (scan steps) err := by
  refine ⟨?_, fun err => ?_⟩
  · simp only [build_eq_ok_iff, exists_and_left, exists_eq, and_true]
  · rw [build_ofList, outcome_bind_eq_error_iff]
    exact findSome?_eq_some_iff_firstOf fun _ _ _ => fault?_eq_some_iff

end Catalogue.Schema
