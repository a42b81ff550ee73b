import Catalogue.Proofs.Lists.Parts
import Catalogue.Proofs.Query.Grammar
import Catalogue.Query.Compile

/-!
# What the details of a spatial relation stand for

Coordinates, distances and angles stand for numbers, and a shape for the region that its own parts
make, told by the tree alone: no part of one detail has to do with another.

* `Node.coordinate?`, `Node.meters?`, `Node.bearing?`, `Node.region?` — what details stand for.
* `foldlM_feed?` — a shape that is fed its parts in order gets them kind by kind.
* `Rule.isMeasure` — distances, shapes and what stands inside them.
-/

namespace Catalogue.Query

open Catalogue.Geometry
open Catalogue.Lists
open Catalogue.Text

/-! ## What details stand for -/

namespace Node

/-- The children of a node, keywords and brackets set aside. -/
def parts (n : Node) : List Node := n.children.filter fun c => c.rule ≠ .punctuation

/-- The coordinate of two finite numbers, the latitude first; degrees with minutes and seconds stand
for none. -/
def coordinate? (n : Node) : Option Coordinate :=
  match n.parts with
  | [lat, lon] => do
    return { lat := ← Number.finite? (trim lat.text), lon := ← Number.finite? (trim lon.text) }
  | _ => none

/-- The meters of a number of known units, when they are finite. -/
def meters? (n : Node) : Option Float :=
  match n.parts with
  | [value, unit] => do
    let u ← LengthUnit.ofToken? (trim unit.text)
    let x ← Number.float? (trim value.text)
    (some (u.inMeters x)).filter Float.isFinite
  | _ => none

/-- The degrees of an angle, when they are finite. -/
def bearing? (n : Node) : Option Float := Number.finite? (trim n.text)

/-- The corners of a shape, in order. -/
def corners (n : Node) : List Node := n.parts.filter fun p => p.rule.isCorner

/-- The distances of a shape, in order. -/
def distances (n : Node) : List Node := n.parts.filter fun p => p.rule = .distance

/-- The angles of a shape, of which there is at most one. -/
def angles (n : Node) : List Node := n.parts.filter fun p => p.rule = .angle

/-- A shape with its own coordinates, distances and angle. -/
def draft? (o : Options) (n : Node) : Option Draft := do
  let kind ← shapeOf? n.rule
  let coordinates ← n.corners.mapM coordinate?
  let distances ← n.distances.mapM meters?
  let angles ← n.angles.mapM bearing?
  return { kind, vertices := o.vertices, coordinates, distances, angle := angles.getLast? }

/-- The region of a shape that can be finished. -/
def region? (o : Options) (n : Node) : Option Region :=
  (n.draft? o).bind fun d => d.finish.toOption

/-! ## Details that stand for nothing -/

/-- A shape stands for no draft when one of its details stands for nothing. -/
theorem draft?_eq_none_iff {o : Options} {n : Node} {kind : Shape}
    (h : shapeOf? n.rule = some kind) :
    n.draft? o = none ↔ (∃ c ∈ n.corners, c.coordinate? = none) ∨
      (∃ d ∈ n.distances, d.meters? = none) ∨ ∃ a ∈ n.angles, a.bearing? = none := by
  rw [draft?, h, ← mapM_eq_none_iff, ← mapM_eq_none_iff, ← mapM_eq_none_iff]
  cases n.corners.mapM coordinate? <;> cases n.distances.mapM meters? <;>
    cases n.angles.mapM bearing? <;> simp

/-- A shape stands for no region when it stands for no draft or the draft is not finished. -/
theorem region?_eq_none_iff {o : Options} {n : Node} :
    n.region? o = none ↔ n.draft? o = none ∨ ∃ d e, n.draft? o = some d ∧ d.finish = .error e := by
  rw [region?]
  cases n.draft? o with
  | none => simp
  | some d => cases hfinish : d.finish <;> simp [Except.toOption, hfinish]

/-! ## Parts one after another -/

/-- A shape with one more part. -/
def feed? (d : Draft) (n : Node) : Option Draft :=
  if n.rule.isCorner then n.coordinate?.map d.addCoordinate
  else if n.rule = .distance then n.meters?.map d.addDistance
  else if n.rule = .angle then n.bearing?.map d.withAngle
  else some d

/-- Fed part by part, a shape gets its coordinates, its distances and its last angle. -/
theorem foldlM_feed? (ns : List Node) (d : Draft) :
    ns.foldlM feed? d = (do
      let coordinates ← (ns.filter fun p => p.rule.isCorner).mapM coordinate?
      let distances ← (ns.filter fun p => p.rule = .distance).mapM meters?
      let angles ← (ns.filter fun p => p.rule = .angle).mapM bearing?
      return { d with
        coordinates := d.coordinates ++ coordinates
        distances := d.distances ++ distances
        angle := angles.getLast?.or d.angle }) := by
  induction ns generalizing d with
  | nil => simp
  | cons n rest ih =>
    rw [List.foldlM_cons, feed?]
    -- the part belongs to one of the three lists, and what it stands for is in front there
    split
    · next hcorner =>
      have hdistance : n.rule ≠ .distance := fun h => by simp [h, Rule.isCorner] at hcorner
      have hangle : n.rule ≠ .angle := fun h => by simp [h, Rule.isCorner] at hcorner
      cases hread : n.coordinate? <;>
        simp [ih, hread, hcorner, hdistance, hangle, Draft.addCoordinate, Option.bind_assoc]
    · next hcorner =>
      split
      · next hdistance =>
        have hkind : Rule.distance.isCorner = false := rfl
        cases hread : n.meters? <;>
          simp [ih, hread, hkind, hdistance, Draft.addDistance, Option.bind_assoc]
      · next hdistance =>
        split
        · next hangle =>
          have hkind : Rule.angle.isCorner = false := rfl
          cases hread : n.bearing? <;>
            simp [ih, hread, hkind, hangle, Draft.withAngle, Option.bind_assoc, List.getLast?_cons]
        · next hangle => simp [ih, hcorner, hdistance, hangle]

/-- A shape is fed its own parts in order. -/
theorem draft?_eq_foldlM (o : Options) (n : Node) :
    n.draft? o = (shapeOf? n.rule).bind fun kind =>
      n.parts.foldlM feed? (.start kind o.vertices) := by
  rw [draft?]
  cases shapeOf? n.rule with
  | none => rfl
  | some kind =>
    show _ = n.parts.foldlM feed? (.start kind o.vertices)
    rw [foldlM_feed?]
    simp [corners, distances, angles, Draft.start]

end Node

/-! ## Measures -/

namespace Rule

/-- Whether nodes of the rule are distances or shapes or stand inside these only. -/
def isMeasure : Rule → Bool
  | number => true
  | unit => true
  | angle => true
  | distance => true
  | coordinate => true
  | dmsCoordinate => true
  | punctuation => true
  | r => r.isShape

/-! ### Productions -/

theorem produces_coordinate {parts : List Rule} (h : coordinate.produces parts = true) :
    parts = [number, number] ∨ parts = [dmsCoordinate] := by
  unfold produces at h
  split at h <;> first | exact .inl rfl | exact .inr rfl | contradiction

theorem produces_distance {parts : List Rule} (h : distance.produces parts = true) :
    parts = [number, unit] := by
  unfold produces at h
  split at h <;> first | rfl | contradiction

theorem isCorner_iff {r : Rule} : r.isCorner = true ↔ r = coordinate ∨ r = dmsCoordinate := by
  cases r <;> decide

theorem exists_shapeOf? {r : Rule} (h : r.isShape = true) : ∃ kind, shapeOf? r = some kind := by
  cases r <;> first | exact ⟨_, rfl⟩ | cases h

theorem isToken_of_isShape {r : Rule} (h : r.isShape = true) : r.isToken = false := by
  cases r <;> first | rfl | cases h

/-- A shape is made of corners, distances and angles. -/
theorem produces_shape {r : Rule} {parts : List Rule} (hr : r.isShape = true)
    (h : r.produces parts = true) : ∀ p ∈ parts, p.isCorner = true ∨ p = distance ∨ p = angle := by
  unfold produces at h
  split at h
  all_goals first
    | exact absurd hr (by decide)
    | exact absurd h (by decide)
    | exact fun p hp => .inl (List.all_eq_true.mp h p hp)
    | skip
  all_goals simp [h]

/-! ### Measures -/

theorem isMeasure_of_isCorner {r : Rule} (h : r.isCorner = true) : r.isMeasure = true := by
  cases r <;> first | rfl | cases h

theorem isMeasure_of_isShape {r : Rule} (h : r.isShape = true) : r.isMeasure = true := by
  cases r <;> first | rfl | cases h

theorem isMeasure_of_part {r : Rule} (h : r.isCorner = true ∨ r = distance ∨ r = angle) :
    r.isMeasure = true := by
  rcases h with h | rfl | rfl
  · exact isMeasure_of_isCorner h
  · rfl
  · rfl

/-- What a measure is made of are measures. -/
theorem isMeasure_of_produces {r : Rule} {parts : List Rule} (hr : r.isMeasure = true)
    (h : r.produces parts = true) : ∀ p ∈ parts, p.isMeasure = true := by
  unfold produces at h
  split at h
  all_goals first
    | exact absurd hr (by decide)
    | exact absurd h (by decide)
    | decide
    | exact fun p hp => isMeasure_of_isCorner (List.all_eq_true.mp h p hp)
    | skip
  all_goals
    next corner =>
    revert h
    cases corner <;> decide

theorem connective?_of_isMeasure {r : Rule} (h : r.isMeasure = true) : connective? r = none := by
  cases r <;> first | rfl | cases h

theorem isPrimary_of_isMeasure {r : Rule} (h : r.isMeasure = true) : r.isPrimary = false := by
  cases r <;> first | rfl | cases h

theorem isOperator_of_isMeasure {r : Rule} (h : r.isMeasure = true) : r.isOperator = false := by
  cases r <;> first | rfl | cases h

theorem ne_subject_of_isMeasure {r : Rule} (h : r.isMeasure = true) : r ≠ subject := by
  rintro rfl
  cases h

end Rule

namespace Node

/-! ## Keywords and brackets -/

theorem conformsAll_iff {ns : List Node} : conformsAll ns = true ↔ ∀ n ∈ ns, n.conforms = true := by
  induction ns with
  | nil => simp [conformsAll]
  | cons n rest ih => rw [conformsAll, Bool.and_eq_true, ih, List.forall_mem_cons]

theorem partRules_eq (ns : List Node) :
    partRules ns = (ns.filter fun c => c.rule ≠ .punctuation).map Node.rule := by
  induction ns with
  | nil => rfl
  | cons n rest ih =>
    rw [partRules]
    split
    · next h => rw [List.filter_cons_of_neg (by simp [h]), ih]
    · next h => rw [List.filter_cons_of_pos (by simp [h]), List.map_cons, ih]

/-- A node that is no token has the parts of a production, and they follow the grammar. -/
theorem produces_parts {n : Node} (h : n.conforms = true) (hr : n.rule.isToken = false) :
    n.rule.produces (n.parts.map Node.rule) = true ∧ ∀ p ∈ n.parts, p.conforms = true := by
  obtain ⟨rule, text, children⟩ := n
  rw [conforms, hr, if_neg Bool.false_ne_true, Bool.and_eq_true, partRules_eq] at h
  exact ⟨h.1, fun p hp => conformsAll_iff.mp h.2 p (List.mem_filter.mp hp).1⟩

/-- The children of a node follow the grammar too. -/
theorem conforms_children {n : Node} (h : n.conforms = true) :
    ∀ c ∈ n.children, c.conforms = true := by
  obtain ⟨rule, text, children⟩ := n
  rw [conforms] at h
  split at h
  · rw [List.isEmpty_iff.mp h]
    nofun
  · rw [Bool.and_eq_true] at h
    exact conformsAll_iff.mp h.2

/-- A token has no children. -/
theorem children_of_token {n : Node} (h : n.conforms = true) (hr : n.rule.isToken = true) :
    n.children = [] := by
  obtain ⟨rule, text, children⟩ := n
  rw [conforms, hr, if_pos rfl] at h
  exact List.isEmpty_iff.mp h

end Node

end Catalogue.Query
