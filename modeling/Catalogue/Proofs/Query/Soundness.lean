import Catalogue.Proofs.Query.Leftover
import Catalogue.Proofs.Query.Nesting

/-!
# What filters are made of

Filters are born at the ends of terms and combined at the ends of groups. A group with one filter is
not wrapped, so every conjunction and disjunction has two children or more, and every number that is
read into a term has been found to be finite. This holds of every tree, whether it follows the
grammar or not. In a tree that does, a comparison and a spatial relation have an operator of their
own kind, so that the operator and the operand of a predicate fit.

* `Filter.IsSound` — no small connectives, and finite numbers.
* `Machine.IsSound` — the invariant of the machine; `Machine.IsSound.step` and
  `Machine.IsSound.run`.
* `Filter.Predicate.IsTyped` — a predicate whose operator and operand fit.
* `compile_sound` — what holds of every compiled filter.
-/

namespace Catalogue

open Catalogue.Filter (Operator Value)
open Catalogue.Geometry

/-! ## Filters -/

namespace Filter

/-- The floating-point numbers of a value. -/
def Value.numbers : Value → List Float
  | .float x => [x.value]
  | .double x => [x]
  | .geometry r => r.radius.toList
  | _ => []

/-- The floating-point numbers of a predicate: a distance, and those of its operand. -/
def Predicate.numbers (p : Predicate) : List Float :=
  p.operator.meters?.toList ++ p.value.numbers

/-- The floating-point numbers of a filter. -/
def numbers (f : Filter) : List Float := f.predicates.flatMap Predicate.numbers

mutual

/-- Whether every conjunction and every disjunction, at any depth, has at least two children. -/
def isBranched : Filter → Bool
  | .and children => decide (2 ≤ children.length) && branchedAll children
  | .or children => decide (2 ≤ children.length) && branchedAll children
  | .not child => child.isBranched
  | .predicate _ => true

def branchedAll : List Filter → Bool
  | [] => true
  | f :: rest => f.isBranched && branchedAll rest

end

/-- A filter without small connectives, and with finite numbers. -/
structure IsSound (f : Filter) : Prop where
  branched : f.isBranched = true
  finite : ∀ x ∈ f.numbers, x.isFinite = true

/--
A predicate whose operator and operand fit: the test for presence has no operand, spatial relations
have a geometry, and a geometry with a radius is a point.
-/
structure Predicate.IsTyped (p : Predicate) : Prop where
  exists_iff : p.operator = .exists ↔ p.value = .null
  isSpatial_iff : p.operator.isSpatial = true ↔ ∃ r, p.value = .geometry r
  point_of_radius : ∀ r x, p.value = .geometry r → r.radius = some x → ∃ c, r.wkt = pointText c

theorem branchedAll_iff {fs : List Filter} :
    branchedAll fs = true ↔ ∀ f ∈ fs, f.isBranched = true := by
  induction fs with
  | nil => simp [branchedAll]
  | cons f rest ih => rw [branchedAll, Bool.and_eq_true, ih, List.forall_mem_cons]

theorem isSound_test {subject : String} {o : Operator} {v : Value}
    (ho : ∀ x ∈ o.meters?, x.isFinite = true) (hv : ∀ x ∈ v.numbers, x.isFinite = true) :
    (test subject o v).IsSound := by
  refine ⟨rfl, fun x hx => ?_⟩
  rw [numbers, test, predicates, List.flatMap_singleton, Predicate.numbers, List.mem_append,
    Option.mem_toList] at hx
  rcases hx with hx | hx
  · exact ho x hx
  · exact hv x hx

theorem finite_predicatesAll {fs : List Filter} (h : ∀ f ∈ fs, f.IsSound) :
    ∀ x ∈ (predicatesAll fs).flatMap Predicate.numbers, x.isFinite = true := by
  intro x hx
  rw [Query.Machine.predicatesAll_eq, List.flatMap_assoc] at hx
  obtain ⟨f, hf, hx⟩ := List.mem_flatMap.mp hx
  exact (h f hf).finite x hx

/-- Two filters or more under a connective. -/
theorem isSound_connected {fs : List Filter} (h : ∀ f ∈ fs, f.IsSound) (hlen : 2 ≤ fs.length) :
    (Filter.and fs).IsSound ∧ (Filter.or fs).IsSound := by
  have hall : branchedAll fs = true := branchedAll_iff.mpr fun f hf => (h f hf).branched
  have hfinite := finite_predicatesAll h
  refine ⟨⟨?_, hfinite⟩, ⟨?_, hfinite⟩⟩
  · rw [isBranched, hall, Bool.and_true, decide_eq_true hlen]
  · rw [isBranched, hall, Bool.and_true, decide_eq_true hlen]

theorem IsSound.not {f : Filter} (h : f.IsSound) : (Filter.not f).IsSound :=
  ⟨h.branched, h.finite⟩

end Filter

/-! ## Regions -/

namespace Geometry

/-- A region whose radius, if it has one, is finite and stands around a point. -/
def Region.IsSound (r : Region) : Prop :=
  ∀ x, r.radius = some x → x.isFinite = true ∧ ∃ c, r.wkt = pointText c

/-- A finished shape has a radius only if it is a circle, whose text is its centre. -/
theorem isSound_of_finish {d : Draft} {r : Region} (hd : ∀ x ∈ d.distances, x.isFinite = true)
    (h : d.finish = .ok r) : r.IsSound := by
  intro x hx
  unfold Draft.finish at h
  split at h
  case h_5 =>
    unfold Draft.finishCircle at h
    split at h
    · next c radius hcoordinates hdistances =>
      obtain rfl := Except.ok.inj h
      obtain rfl := Option.some.inj hx
      exact ⟨hd radius (by rw [hdistances]; exact List.mem_singleton_self _), c, rfl⟩
    · cases h
    · cases h
  case h_1 =>
    unfold Draft.finishPoint at h
    split at h <;> cases h
    cases hx
  case h_2 =>
    unfold Draft.finishLine at h
    split at h <;> cases h
    cases hx
  case h_3 =>
    unfold Draft.finishPolygon at h
    split at h <;> cases h
    cases hx
  case h_4 =>
    unfold Draft.finishRectangle at h
    split at h <;> cases h
    cases hx
  case h_6 =>
    unfold Draft.finishEllipse at h
    split at h
    · next c major minor _ _ =>
      cases hring : ellipseOutline c major minor (d.angle.getD 0.0) d.vertices with
      | error e =>
        rw [hring] at h
        cases h
      | ok ring =>
        rw [hring] at h
        obtain rfl := Except.ok.inj h
        cases hx
    · cases h
    · cases h

end Geometry

namespace Query

/-! ## Open terms -/

/-- An open term with finite distances and a sound region. -/
structure OpenTerm.IsSound (t : OpenTerm) : Prop where
  distance : ∀ x ∈ t.distance, x.isFinite = true
  draft : ∀ d ∈ t.draft, ∀ x ∈ d.distances, x.isFinite = true
  region : ∀ r ∈ t.region, r.IsSound

theorem isFinite_of_lastDistance {t : OpenTerm} {x : Float} (h : t.lastDistance = .ok x) :
    x.isFinite = true := by
  unfold OpenTerm.lastDistance at h
  split at h
  · unfold OpenTerm.meters at h
    split at h
    · cases h
    · split at h
      · split at h
        · next hfinite =>
          obtain rfl := Except.ok.inj h
          exact hfinite
        · cases h
      · cases h
  · cases h

namespace OpenTerm.IsSound

variable {t : OpenTerm}

theorem empty : ({} : OpenTerm).IsSound := ⟨nofun, nofun, nofun⟩

theorem fail (h : t.IsSound) (cause : DropCause) : (t.fail cause).IsSound :=
  ⟨h.distance, h.draft, h.region⟩

theorem withDraft (h : t.IsSound) {d : Draft} (hd : ∀ x ∈ d.distances, x.isFinite = true) :
    ({ t with draft := some d } : OpenTerm).IsSound := by
  refine ⟨h.distance, ?_, h.region⟩
  rintro d' hd'
  obtain rfl := Option.some.inj hd'
  exact hd

theorem endCoordinate (h : t.IsSound) : t.endCoordinate.IsSound := by
  have hcleared : ({ t with numbers := [] } : OpenTerm).IsSound := ⟨h.distance, h.draft, h.region⟩
  unfold OpenTerm.endCoordinate
  dsimp only
  split
  · split
    · next c d _ hdraft => exact hcleared.withDraft (h.draft d hdraft)
    · exact hcleared.fail _
    · exact hcleared.fail _
  · exact hcleared.fail _

theorem endDistance (h : t.IsSound) (inShape : Bool) : (t.endDistance inShape).IsSound := by
  have hcleared : ({ t with numbers := t.numbers.dropLast, unit := none } : OpenTerm).IsSound :=
    ⟨h.distance, h.draft, h.region⟩
  unfold OpenTerm.endDistance
  dsimp only
  split
  · exact hcleared.fail _
  · next x hx =>
    have hfinite : x.isFinite = true := isFinite_of_lastDistance hx
    split
    · refine ⟨h.distance, fun d hd => ?_, h.region⟩
      obtain ⟨d', hd', rfl⟩ := Option.map_eq_some_iff.mp hd
      exact List.forall_mem_append.mpr ⟨h.draft d' hd', List.forall_mem_singleton.mpr hfinite⟩
    · refine ⟨fun y hy => ?_, h.draft, h.region⟩
      obtain rfl := Option.some.inj hy
      exact hfinite

theorem endShape (h : t.IsSound) : t.endShape.IsSound := by
  unfold OpenTerm.endShape
  split
  · exact h
  · next d hdraft =>
    have hcleared : ({ t with draft := none } : OpenTerm).IsSound := ⟨h.distance, nofun, h.region⟩
    dsimp only
    split
    · next r hr =>
      refine ⟨h.distance, nofun, fun r' hr' => ?_⟩
      obtain rfl := Option.some.inj hr'
      exact isSound_of_finish (h.draft d hdraft) hr
    · exact hcleared.fail _

/-- Leaving a node that closes no group and no term. -/
theorem afterLeaving (h : t.IsSound) (rule : Rule) (parent : Option Rule) :
    (Machine.afterLeaving rule parent t).IsSound := by
  unfold Machine.afterLeaving
  split
  · exact h.endCoordinate
  · exact h.endDistance _
  · split
    · exact h.endShape
    · exact h

end OpenTerm.IsSound

/-! ## Ends of terms -/

/-- The numbers of a number literal are finite, whatever kind reads it. -/
theorem isFinite_of_numberValue? {order : List NumberKind} {s : String} {v : Value}
    (h : numberValue? order s = some v) : ∀ x ∈ v.numbers, x.isFinite = true := by
  obtain ⟨k, -, hk⟩ := List.exists_of_findSome?_eq_some h
  unfold NumberKind.read? at hk
  intro x hx
  split at hk
  all_goals obtain ⟨y, hy, rfl⟩ := Option.map_eq_some_iff.mp hk
  case h_4 =>
    rw [List.mem_singleton.mp hx]
    exact (Option.filter_eq_some_iff.mp hy).2
  case h_5 =>
    rw [List.mem_singleton.mp hx]
    exact (Option.filter_eq_some_iff.mp hy).2
  all_goals cases hx

/-- An operator without a distance and an operand without numbers. -/
theorem isSound_plain {subject : String} {op : Operator} {v : Value} (hop : op.meters? = none)
    (hv : v.numbers = []) : (Filter.test subject op v).IsSound := by
  refine Filter.isSound_test ?_ ?_
  · rw [hop]
    nofun
  · rw [hv]
    nofun

theorem isSound_instantFilter (subject : String) {op : Operator} (hop : op.meters? = none)
    (t : Time.Instant) : (instantFilter subject op t).IsSound := by
  have htwo {a b : Filter} (ha : a.IsSound) (hb : b.IsSound) : (Filter.or [a, b]).IsSound := by
    have hboth : ∀ f ∈ [a, b], f.IsSound :=
      List.forall_mem_cons.mpr ⟨ha, List.forall_mem_singleton.mpr hb⟩
    exact (Filter.isSound_connected hboth (Nat.le_refl 2)).2
  fun_cases instantFilter subject op t with
  | case1 => exact htwo (isSound_plain rfl rfl) (isSound_plain rfl rfl)
  | case2 => exact htwo (isSound_plain rfl rfl) (isSound_plain rfl rfl)
  | case3 => exact isSound_plain hop rfl

theorem isSound_literalFilter {order : List NumberKind} {subject : String} {op : Operator}
    {l : Literal} {f : Filter} (hop : op.meters? = none)
    (h : literalFilter order subject op l = .ok f) : f.IsSound := by
  cases l with
  | text s =>
    obtain rfl := Except.ok.inj h
    exact isSound_plain hop rfl
  | number s =>
    rw [literalFilter] at h
    split at h
    · next v hv =>
      obtain rfl := Except.ok.inj h
      refine Filter.isSound_test ?_ (isFinite_of_numberValue? hv)
      rw [hop]
      rintro _ ⟨⟩
    · cases h
  | date s =>
    rw [literalFilter] at h
    split at h
    · obtain rfl := Except.ok.inj h
      exact isSound_instantFilter subject hop _
    · cases h

/-- A slot whose operator, if it is complete, has no distance. -/
def Slot.IsPlain (s : Slot) : Prop := ∀ op, s = .ready op → op.meters? = none

section

variable {slot : Option Slot} {t : OpenTerm} {f : Filter}

theorem isSound_comparison {order : List NumberKind} (hslot : ∀ s ∈ slot, s.IsPlain)
    (h : t.comparison order slot = .ok f) : f.IsSound := by
  rw [OpenTerm.comparison] at h
  cases hsubject : t.subjectOf with
  | error cause =>
    rw [hsubject] at h
    cases h
  | ok subject =>
    simp only [hsubject, bind, Except.bind] at h
    split at h
    · obtain rfl := Except.ok.inj h
      exact isSound_plain rfl rfl
    · next op _ =>
      split at h
      · exact isSound_literalFilter (hslot _ rfl op rfl) h
      · cases h
    · cases h

theorem isSound_spatial (hslot : ∀ s ∈ slot, s.IsPlain) (ht : t.IsSound)
    (h : t.spatial slot = .ok f) : f.IsSound := by
  rw [OpenTerm.spatial] at h
  cases hsubject : t.subjectOf with
  | error cause =>
    rw [hsubject] at h
    cases h
  | ok subject =>
    simp only [hsubject, bind, Except.bind] at h
    split at h
    · cases h
    · next r hr =>
      have hregion : ∀ x ∈ (Value.geometry r).numbers, x.isFinite = true := fun x hx =>
        (ht.region r hr x (Option.mem_toList.mp hx)).1
      split at h
      · next op =>
        obtain rfl := Except.ok.inj h
        refine Filter.isSound_test ?_ hregion
        rw [hslot _ rfl op rfl]
        rintro _ ⟨⟩
      · next relation m hm =>
        obtain rfl := Except.ok.inj h
        refine Filter.isSound_test (fun x hx => ?_) hregion
        have hx : x = m := by cases relation <;> exact (Option.some.inj hx).symm
        rw [hx]
        exact ht.distance m hm
      · cases h
      · cases h

/-- A term that is not dropped becomes a sound filter. -/
theorem isSound_outcome {o : Options} {rule : Rule} (hslot : ∀ s ∈ slot, s.IsPlain)
    (ht : t.IsSound) (h : Machine.outcome o rule slot t = .ok f) : f.IsSound := by
  unfold Machine.outcome at h
  split at h
  · exact isSound_comparison hslot h
  · exact isSound_spatial hslot ht h

end

/-- A closed group amounts to a sound filter if it has collected such filters. -/
theorem isSound_combine {g : Group} {f : Filter} (hg : ∀ f ∈ g.filters, f.IsSound)
    (h : g.combine = some f) : f.IsSound := by
  obtain ⟨key, c, fs⟩ := g
  rcases fs with _ | ⟨f₁, _ | ⟨f₂, fs⟩⟩
  · cases c <;> cases h
  · have hone : f₁.IsSound := hg f₁ List.mem_cons_self
    cases c
    all_goals obtain rfl := Option.some.inj h
    · exact hone
    · exact hone
    · exact hone.not
  · have hmany := Filter.isSound_connected hg (Nat.le_add_left 2 fs.length)
    cases c
    all_goals obtain rfl := Option.some.inj h
    · exact hmany.2
    · exact hmany.1
    · exact hmany.1.not

/-! ## The machine -/

/-- A machine that holds sound filters, operators without distances and a sound term. -/
structure Machine.IsSound (m : Machine) : Prop where
  groups : ∀ g ∈ m.groups, ∀ f ∈ g.filters, f.IsSound
  result : ∀ f ∈ m.result, f.IsSound
  slots : ∀ s ∈ m.slots, s.IsPlain
  term : m.term.IsSound

/-- No operator that a leaf names has a distance. -/
theorem isPlain_of_operator? {n : Node} {s : Slot} (h : n.operator? = some s) : s.IsPlain := by
  rintro op rfl
  unfold Node.operator? at h
  split at h
  · split at h
    · obtain ⟨op', hop, heq⟩ := Option.map_eq_some_iff.mp h
      obtain rfl := Slot.ready.inj heq
      unfold Operator.comparison? at hop
      split at hop <;> cases hop <;> rfl
    · obtain ⟨op', hop, heq⟩ := Option.map_eq_some_iff.mp h
      obtain rfl := Slot.ready.inj heq
      unfold Operator.spatial? at hop
      split at hop <;> cases hop <;> rfl
    · obtain ⟨r, -, heq⟩ := Option.map_eq_some_iff.mp h
      cases heq
    · cases h
  · cases h

namespace Machine.IsSound

variable {o : Options} {mark : String → UInt64} {m : Machine}

theorem empty : ({} : Machine).IsSound := ⟨nofun, nofun, nofun, .empty⟩

theorem deliver (h : m.IsSound) {f : Filter} (hf : f.IsSound) : (m.deliver f).IsSound := by
  unfold Machine.deliver
  split
  · next g rest hgroups =>
    have hold := h.groups
    rw [hgroups, List.forall_mem_cons] at hold
    refine ⟨List.forall_mem_cons.mpr ⟨?_, hold.2⟩, h.result, h.slots, h.term⟩
    exact List.forall_mem_append.mpr ⟨hold.1, List.forall_mem_singleton.mpr hf⟩
  · next hgroups =>
    refine ⟨h.groups, fun f' hf' => ?_, h.slots, h.term⟩
    obtain rfl := Option.some.inj hf'
    exact hf

theorem report (h : m.IsSound) (e : Journal.Entry) : (m.report e).IsSound :=
  ⟨h.groups, h.result, h.slots, h.term⟩

theorem endGroup (h : m.IsSound) (n : Node) : (m.endGroup mark n).IsSound := by
  unfold Machine.endGroup
  split
  · exact h.report _
  · next g rest hgroups =>
    have hold := h.groups
    rw [hgroups, List.forall_mem_cons] at hold
    have hrest : ({ m with groups := rest } : Machine).IsSound :=
      ⟨hold.2, h.result, h.slots, h.term⟩
    -- the marks decide on a report only
    have hclosed : (if (g.mark == mark n.text) = true then { m with groups := rest }
        else Machine.report { m with groups := rest } (mismatch n)).IsSound := by
      split
      · exact hrest
      · exact hrest.report _
    dsimp only
    split
    · next f hf => exact hclosed.deliver (isSound_combine hold.1 hf)
    · exact hclosed

theorem endTerm (h : m.IsSound) (rule : Rule) : (m.endTerm (outcome o rule)).IsSound := by
  have hcleared : ({ m with slots := m.slots.tail, term := {} } : Machine).IsSound :=
    ⟨h.groups, h.result, fun s hs => h.slots s (List.mem_of_mem_tail hs), .empty⟩
  unfold Machine.endTerm
  dsimp only
  split
  · next f hf =>
    have hslot : ∀ s ∈ m.slots.head?, s.IsPlain := fun s hs =>
      h.slots s (List.mem_of_mem_head? hs)
    exact hcleared.deliver (isSound_outcome hslot h.term hf)
  · exact hcleared.report _

/-- A leaf changes the open term by what has no numbers yet. -/
theorem term_takeLeaf (h : m.IsSound) (n : Node) (parent : Option Rule) :
    (m.takeLeaf n parent).term.IsSound := by
  have hterm := h.term
  cases hr : n.rule
  all_goals simp only [takeLeaf, hr]
  case comparisonOp => split <;> exact ⟨hterm.distance, hterm.draft, hterm.region⟩
  case geoOp => split <;> exact ⟨hterm.distance, hterm.draft, hterm.region⟩
  case relativeGeoOp => split <;> exact ⟨hterm.distance, hterm.draft, hterm.region⟩
  case number => split <;> exact ⟨hterm.distance, hterm.draft, hterm.region⟩
  case angle =>
    unfold readAngle
    split
    · next d _ hdraft => exact hterm.withDraft (hterm.draft d hdraft)
    · exact hterm.fail _
  all_goals exact ⟨hterm.distance, hterm.draft, hterm.region⟩

theorem takeLeaf (h : m.IsSound) {n : Node} (hleaf : n.isLeaf = true) (parent : Option Rule) :
    (m.takeLeaf n parent).IsSound := by
  obtain ⟨e, -, hon⟩ := takeLeaf_confined n parent m.ancestors.head? m.term
  have htake : m.takeLeaf n parent = e.on m := hon m rfl rfl
  refine ⟨?_, ?_, ?_, h.term_takeLeaf n parent⟩
  · rw [htake]
    exact h.groups
  · rw [htake]
    exact h.result
  · rw [slots_takeLeaf m n parent hleaf]
    intro s hs
    rcases List.mem_append.mp hs with hs | hs
    · exact isPlain_of_operator? (Option.mem_toList.mp hs)
    · exact h.slots s hs

theorem enter (h : m.IsSound) (n : Node) : (m.enter o mark n).IsSound := by
  unfold Machine.enter
  dsimp only
  split
  · exact ⟨List.forall_mem_cons.mpr ⟨nofun, h.groups⟩, h.result, h.slots, h.term⟩
  · split
    · exact ⟨h.groups, h.result, h.slots, .empty⟩
    · split
      · exact ⟨h.groups, h.result, h.slots, h.term.withDraft nofun⟩
      · have hdown : ({ m with ancestors := n.rule :: m.ancestors } : Machine).IsSound :=
          ⟨h.groups, h.result, h.slots, h.term⟩
        split
        · next hleaf => exact hdown.takeLeaf hleaf _
        · exact hdown

theorem leave (h : m.IsSound) (n : Node) : (m.leave o mark n).IsSound := by
  have hup : ({ m with ancestors := m.ancestors.tail } : Machine).IsSound :=
    ⟨h.groups, h.result, h.slots, h.term⟩
  cases hg : connective? n.rule with
  | some c =>
    rw [leave_eq_endGroup o mark hg]
    exact hup.endGroup n
  | none =>
    cases hp : n.rule.isPrimary with
    | true =>
      rw [leave_primary o mark m hp]
      exact hup.endTerm n.rule
    | false =>
      rw [leave_eq o mark hg hp]
      exact ⟨h.groups, h.result, h.slots, h.term.afterLeaving n.rule _⟩

theorem step (h : m.IsSound) (s : Step) : (m.step o mark s).IsSound := by
  cases s with
  | enter n => exact h.enter n
  | leave n => exact h.leave n

/-- Whatever is walked, the machine holds sound filters. -/
theorem run (h : m.IsSound) (steps : List Step) : (Machine.run o mark m steps).IsSound := by
  induction steps generalizing m with
  | nil => exact h
  | cons s rest ih => exact ih (h.step s)

end Machine.IsSound

/-! ## Operators of terms -/

/-- A slot with a spatial relation. -/
def Slot.isSpatial : Slot → Bool
  | .ready op => op.isSpatial
  | .relative _ => true

theorem isSpatial_of_operator? {n : Node} {s : Slot} (h : n.operator? = some s) :
    n.rule.isOperator = true ∧ (s.isSpatial = true ↔ n.rule ≠ .comparisonOp) := by
  unfold Node.operator? at h
  split at h
  · split at h
    · next hr =>
      obtain ⟨op, hop, rfl⟩ := Option.map_eq_some_iff.mp h
      unfold Operator.comparison? at hop
      rw [hr]
      split at hop <;> cases hop <;> decide
    · next hr =>
      obtain ⟨op, hop, rfl⟩ := Option.map_eq_some_iff.mp h
      unfold Operator.spatial? at hop
      rw [hr]
      split at hop <;> cases hop <;> decide
    · next hr =>
      obtain ⟨r, -, rfl⟩ := Option.map_eq_some_iff.mp h
      rw [hr]
      exact ⟨rfl, fun _ => by decide, fun _ => rfl⟩
    · cases h
  · cases h

/-- The operators on the stack were there before or are those of nodes that have been entered. -/
theorem Machine.mem_slots_run {o : Options} {mark : String → UInt64} {s : Slot}
    {steps : List Step} {m : Machine} (h : s ∈ (run o mark m steps).slots) :
    s ∈ m.slots ∨ ∃ n, Step.enter n ∈ steps ∧ n.operator? = some s := by
  induction steps generalizing m with
  | nil => exact .inl h
  | cons first rest ih =>
    rcases ih h with hs | ⟨n, hn, hop⟩
    · cases first with
      | enter n =>
        have hs : s ∈ (m.enter o mark n).slots := hs
        rw [slots_enter, List.mem_append, Option.mem_toList] at hs
        rcases hs with hop | hs
        · exact .inr ⟨n, List.mem_cons_self, hop⟩
        · exact .inl hs
      | leave n =>
        have hs : s ∈ (m.leave o mark n).slots := hs
        rw [slots_leave] at hs
        split at hs
        · exact .inl (List.mem_of_mem_tail hs)
        · exact .inl hs
    · exact .inr ⟨n, List.mem_cons_of_mem _ hn, hop⟩

/-- The operator of a comparison is one of comparisons, and that of a spatial relation is not. -/
theorem Rule.operator_of_produces {r : Rule} {parts : List Rule} (hr : r.isPrimary = true)
    (h : r.produces parts = true) :
    ∀ p ∈ parts, p.isOperator = true → (p ≠ .comparisonOp ↔ r = .geoPrimary) := by
  unfold Rule.produces at h
  split at h
  all_goals first
    | exact absurd hr (by decide)
    | exact absurd h (by decide)
    | decide
    | skip
  all_goals
    next last =>
    revert h
    cases last <;> decide

namespace Node

mutual

/-- In a detail that follows the grammar no operator stands below the top. -/
theorem eq_of_enter_mem : ∀ (n : Node), n.conforms = true → n.rule.isDetail = true →
    ∀ {n' : Node}, Step.enter n' ∈ n.steps → n'.rule.isOperator = true → n' = n
  | ⟨rule, text, children⟩, h, hr, n', hmem, hop => by
    rw [steps] at hmem
    rcases List.mem_cons.mp hmem with htop | hmem
    · exact Step.enter.inj htop
    · rcases List.mem_append.mp hmem with hin | hend
      · rw [conforms] at h
        split at h
        · obtain rfl : children = [] := List.isEmpty_iff.mp h
          cases hin
        · obtain ⟨hprod, hall⟩ := Bool.and_eq_true_iff.mp h
          have hparts := Rule.isDetail_of_produces hr hprod
          have hdetail := isDetail_of_partRules fun p hp => (hparts p hp).1
          have hchild := mem_of_enter_memAll children hall hdetail hin hop
          -- the parts of a detail are no operators, and neither is a keyword
          rcases mem_partRules hchild with hp | hp
          · rw [hp] at hop
            cases hop
          · rw [(hparts _ hp).2] at hop
            cases hop
      · cases List.mem_singleton.mp hend

theorem mem_of_enter_memAll : ∀ (ns : List Node), conformsAll ns = true →
    (∀ n ∈ ns, n.rule.isDetail = true) → ∀ {n' : Node}, Step.enter n' ∈ stepsAll ns →
      n'.rule.isOperator = true → n' ∈ ns
  | [], _, _, _, hmem, _ => by cases hmem
  | n :: rest, h, hd, n', hmem, hop => by
    rw [conformsAll, Bool.and_eq_true] at h
    rw [stepsAll] at hmem
    rcases List.mem_append.mp hmem with hin | hin
    · rw [eq_of_enter_mem n h.1 (hd n List.mem_cons_self) hin hop]
      exact List.mem_cons_self
    · have hrest :=
        mem_of_enter_memAll rest h.2 (fun m hm => hd m (List.mem_cons_of_mem _ hm)) hin hop
      exact List.mem_cons_of_mem _ hrest

end

/-- The operators inside a comparison or a spatial relation that follows the grammar are its own. -/
theorem operator_of_conforms {n n' : Node} (h : n.conforms = true) (hr : n.rule.isPrimary = true)
    (hmem : Step.enter n' ∈ stepsAll n.children) (hop : n'.rule.isOperator = true) :
    n'.rule ≠ .comparisonOp ↔ n.rule = .geoPrimary := by
  obtain ⟨rule, text, children⟩ := n
  rw [conforms, Rule.isToken_of_isPrimary hr, if_neg Bool.false_ne_true, Bool.and_eq_true_iff] at h
  obtain ⟨hdetail, -⟩ := Rule.inner_of_produces hr h.1
  have hchild := mem_of_enter_memAll children h.2 (isDetail_of_partRules hdetail) hmem hop
  rcases mem_partRules hchild with hp | hp
  · rw [hp] at hop
    cases hop
  · exact Rule.operator_of_produces hr h.1 _ hp hop

end Node

/-! ## Predicates of terms -/

/-- A comparison with an operand that is no geometry. -/
theorem isTyped_test {subject : String} {op : Operator} {v : Value} (hop : op.isSpatial = false)
    (hexists : op ≠ .exists) (hnull : v ≠ .null) (hgeometry : ∀ r, v ≠ .geometry r) :
    (⟨subject, op, v⟩ : Filter.Predicate).IsTyped := by
  refine ⟨?_, ?_, fun r _ hr _ => absurd hr (hgeometry r)⟩
  · exact ⟨fun h => absurd h hexists, fun h => absurd h hnull⟩
  · constructor
    · intro h
      rw [hop] at h
      cases h
    · rintro ⟨r, hr⟩
      exact absurd hr (hgeometry r)

/-- A number literal is a number. -/
theorem isNumeric_of_numberValue? {order : List NumberKind} {s : String} {v : Value}
    (h : numberValue? order s = some v) : v.isNumeric = true := by
  obtain ⟨k, -, hk⟩ := List.exists_of_findSome?_eq_some h
  cases k
  all_goals
    obtain ⟨x, -, rfl⟩ := Option.map_eq_some_iff.mp hk
    rfl

theorem isTyped_literalFilter {order : List NumberKind} {subject : String} {op : Operator}
    {l : Literal} {f : Filter} (hop : op.isSpatial = false) (hexists : op ≠ .exists)
    (h : literalFilter order subject op l = .ok f) : ∀ p ∈ f.predicates, p.IsTyped := by
  cases l with
  | text s =>
    obtain rfl := Except.ok.inj h
    refine List.forall_mem_singleton.mpr (isTyped_test hop hexists ?_ ?_)
    · rintro ⟨⟩
    · rintro _ ⟨⟩
  | number s =>
    rw [literalFilter] at h
    split at h
    · next v hv =>
      obtain rfl := Except.ok.inj h
      have hnumeric := isNumeric_of_numberValue? hv
      refine List.forall_mem_singleton.mpr (isTyped_test hop hexists ?_ ?_)
      · rintro rfl
        cases hnumeric
      · rintro r rfl
        cases hnumeric
    · cases h
  | date s =>
    rw [literalFilter] at h
    split at h
    · next t _ =>
      obtain rfl := Except.ok.inj h
      have hdate (op : Operator) (hop : op.isSpatial = false) (hexists : op ≠ .exists) :
          (⟨subject, op, .date t⟩ : Filter.Predicate).IsTyped := by
        refine isTyped_test hop hexists ?_ ?_
        · rintro ⟨⟩
        · rintro _ ⟨⟩
      have hequal := hdate .eq rfl (by decide)
      fun_cases instantFilter subject op t with
      | case1 =>
        have hafter := hdate .gt rfl (by decide)
        exact List.forall_mem_cons.mpr ⟨hafter, List.forall_mem_singleton.mpr hequal⟩
      | case2 =>
        have hbefore := hdate .lt rfl (by decide)
        exact List.forall_mem_cons.mpr ⟨hbefore, List.forall_mem_singleton.mpr hequal⟩
      | case3 => exact List.forall_mem_singleton.mpr (hdate op hop hexists)
    · cases h

section

variable {slot : Option Slot} {t : OpenTerm} {f : Filter}

theorem isTyped_comparison {order : List NumberKind}
    (hslot : ∀ s ∈ slot, s.isSpatial = false) (h : t.comparison order slot = .ok f) :
    ∀ p ∈ f.predicates, p.IsTyped := by
  rw [OpenTerm.comparison] at h
  cases hsubject : t.subjectOf with
  | error cause =>
    rw [hsubject] at h
    cases h
  | ok subject =>
    simp only [hsubject, bind, Except.bind] at h
    split at h
    · obtain rfl := Except.ok.inj h
      refine List.forall_mem_singleton.mpr ⟨?_, ?_, ?_⟩
      · exact ⟨fun _ => rfl, fun _ => rfl⟩
      · constructor
        · rintro ⟨⟩
        · rintro ⟨_, ⟨⟩⟩
      · rintro _ _ ⟨⟩
    · next op hop =>
      split at h
      · exact isTyped_literalFilter (hslot _ rfl) hop h
      · cases h
    · cases h

theorem isTyped_spatial (hslot : ∀ s ∈ slot, s.isSpatial = true) (ht : t.IsSound)
    (h : t.spatial slot = .ok f) : ∀ p ∈ f.predicates, p.IsTyped := by
  have htyped {subject : String} {op : Operator} {r : Region} (hop : op.isSpatial = true)
      (hr : r.IsSound) : ∀ p ∈ (Filter.test subject op (.geometry r)).predicates, p.IsTyped := by
    refine List.forall_mem_singleton.mpr ⟨?_, ?_, ?_⟩
    · refine ⟨?_, nofun⟩
      rintro rfl
      cases hop
    · exact ⟨fun _ => ⟨r, rfl⟩, fun _ => hop⟩
    · rintro r' x hr' hx
      obtain rfl := Value.geometry.inj hr'
      exact (hr x hx).2
  rw [OpenTerm.spatial] at h
  cases hsubject : t.subjectOf with
  | error cause =>
    rw [hsubject] at h
    cases h
  | ok subject =>
    simp only [hsubject, bind, Except.bind] at h
    split at h
    · cases h
    · next r hr =>
      split at h
      · obtain rfl := Except.ok.inj h
        exact htyped (hslot _ rfl) (ht.region r hr)
      · next relation m _ =>
        obtain rfl := Except.ok.inj h
        exact htyped (by cases relation <;> rfl) (ht.region r hr)
      · cases h
      · cases h

end

theorem eq_ok_of_toOption {ε α : Type} {x : Except ε α} {a : α} (h : x.toOption = some a) :
    x = .ok a := by
  cases x with
  | ok b => exact congrArg Except.ok (Option.some.inj h)
  | error e => cases h

open Machine in
/-- A term that follows the grammar turns into predicates whose operators and operands fit. -/
theorem isTyped_turned {o : Options} {n : Node} {f : Filter} (h : n.conforms = true)
    (hr : n.rule.isPrimary = true) (hf : turned o hash n [] = some f) :
    ∀ p ∈ f.predicates, p.IsTyped := by
  have hslot : ∀ s ∈ (inside o hash n).slots.head?, s.isSpatial = true ↔ n.rule = .geoPrimary := by
    intro s hs
    rcases mem_slots_run (List.mem_of_mem_head? hs) with hs | ⟨n', hn', hs⟩
    · cases hs
    · obtain ⟨hop, hspatial⟩ := isSpatial_of_operator? hs
      rw [hspatial, Node.operator_of_conforms h hr hn' hop]
  have hempty : ({} : Machine).IsSound := .empty
  have hstart : ({ ancestors := [n.rule] } : Machine).IsSound :=
    ⟨hempty.groups, hempty.result, hempty.slots, hempty.term⟩
  have hterm : (inside o hash n).term.IsSound := (hstart.run _).term
  rw [turned, List.append_nil] at hf
  have hf := eq_ok_of_toOption hf
  unfold outcome at hf
  split at hf
  · next hrule =>
    refine isTyped_comparison (fun s hs => ?_) hf
    rw [← Bool.not_eq_true, hslot s hs, hrule]
    rintro ⟨⟩
  · next hrule =>
    have hgeo : n.rule = .geoPrimary := (Rule.isPrimary_iff.mp hr).resolve_left hrule
    exact isTyped_spatial (fun s hs => (hslot s hs).mpr hgeo) hterm hf

/-! ## Trees that follow the grammar -/

theorem mem_predicates_joined (connect : List Filter → Filter) {ds : List (Option Filter)}
    {f : Filter} {p : Filter.Predicate}
    (hconnect : ∀ fs, (connect fs).predicates = fs.flatMap Filter.predicates)
    (h : joined connect ds = some f) (hp : p ∈ f.predicates) :
    ∃ g, some g ∈ ds ∧ p ∈ g.predicates := by
  have hmem {g : Filter} (hg : g ∈ ds.filterMap id) : some g ∈ ds := by
    obtain ⟨d, hd, rfl⟩ := List.mem_filterMap.mp hg
    exact hd
  unfold joined at h
  split at h
  · cases h
  · next g hone =>
    obtain rfl := Option.some.inj h
    exact ⟨g, hmem (by rw [hone]; exact List.mem_cons_self), hp⟩
  · obtain rfl := Option.some.inj h
    rw [hconnect] at hp
    obtain ⟨g, hg, hp⟩ := List.mem_flatMap.mp hp
    exact ⟨g, hmem hg, hp⟩

theorem mem_of_single {ds : List (Option Filter)} {f : Filter} (h : single ds = some f) :
    some f ∈ ds := by
  unfold single at h
  split at h
  · rw [h]
    exact List.mem_cons_self
  · cases h

mutual

/-- The predicates of what a tree stands for are those of its terms. -/
theorem isTyped_meaning {o : Options} : ∀ (n : Node), n.conforms = true → ∀ {f : Filter},
    meaning o n = some f → ∀ p ∈ f.predicates, p.IsTyped
  | ⟨rule, text, children⟩, h, f, hf, p, hp => by
    have hprimary : rule.isPrimary = true → alone o ⟨rule, text, children⟩ = some f →
        p.IsTyped := by
      intro hr halone
      obtain ⟨hfree, -⟩ := Node.conforms_primary_inner h hr
      rw [Machine.alone_eq_turned o hr hfree] at halone
      exact isTyped_turned h hr halone p hp
    have hparts : rule.isToken = false → ∀ g, some g ∈ meanings o children →
        ∀ p ∈ g.predicates, p.IsTyped := by
      intro htoken
      rw [Node.conforms, htoken, if_neg Bool.false_ne_true, Bool.and_eq_true] at h
      exact fun g => isTyped_meanings children h.2
    unfold meaning at hf
    split at hf
    · obtain ⟨g, hg, hpg⟩ := mem_predicates_joined .or Machine.predicatesAll_eq hf hp
      exact hparts rfl g hg p hpg
    · obtain ⟨g, hg, hpg⟩ := mem_predicates_joined .and Machine.predicatesAll_eq hf hp
      exact hparts rfl g hg p hpg
    · exact hparts rfl f (mem_of_single hf) p hp
    · obtain ⟨g, hg, rfl⟩ := Option.map_eq_some_iff.mp hf
      exact hparts rfl g (mem_of_single hg) p hp
    · exact hprimary rfl hf
    · exact hprimary rfl hf
    · cases hf

theorem isTyped_meanings {o : Options} : ∀ (ns : List Node), Node.conformsAll ns = true →
    ∀ {f : Filter}, some f ∈ meanings o ns → ∀ p ∈ f.predicates, p.IsTyped
  | [], _, _, hf => by cases hf
  | n :: rest, h, f, hf => by
    rw [Node.conformsAll, Bool.and_eq_true] at h
    rw [meanings] at hf
    split at hf
    · exact isTyped_meanings rest h.2 hf
    · rcases List.mem_cons.mp hf with hn | hrest
      · exact isTyped_meaning n h.1 hn.symm
      · exact isTyped_meanings rest h.2 hrest

end

/-! ## Compilation -/

/--
The filter of a query is sound: no connective in it has fewer than two children, and its numbers are
finite. If the query follows the grammar, operators and operands fit.
-/
theorem compile_sound (o : Options) (tree : Node) (c : Compiled) (f : Filter)
    (h : compile o tree = .ok c) (hf : c.filter = some f) :
    f.IsSound ∧ (tree.conforms = true → ∀ p ∈ f.predicates, p.IsTyped) := by
  have hrule : tree.rule = .query := by
    by_contra hrule
    rw [compile, compileMarked, if_neg hrule] at h
    cases h
  constructor
  · rw [compile, compileMarked, if_pos hrule] at h
    obtain rfl := Except.ok.inj h
    exact (Machine.IsSound.run .empty tree.steps).result f hf
  · intro hconforms
    have hmeaning := filter_compile hrule
      (settles_meaning (o := o) tree hconforms (by rw [hrule]; rfl))
    rw [h] at hmeaning
    exact isTyped_meaning tree hconforms ((Except.ok.inj hmeaning).symm.trans hf)

/-- A distance around a circle: both numbers, five kilometers and two meters, are finite. -/
theorem compile_sound_circle :
    let circle := Build.circle (Build.coordinate "1" "2") (Build.distance "2" "METERS")
    let near := Build.relative "place" "WITHIN" (Build.distance "5" "KILOMETERS") circle
    let absent := Build.not (Build.factor (Build.present "title"))
    let tree := Build.query [Build.term [Build.factor near, Build.factor absent]]
    tree.conforms = true ∧ ∃ c f, compile {} tree = .ok c ∧ c.filter = some f ∧
      f.numbers.length = 2 ∧ f.IsSound ∧ ∀ p ∈ f.predicates, p.IsTyped := by
  intro circle near absent tree
  have hconforms : tree.conforms = true := by decide
  have hcount : (((compileMarked (fun _ => 0) {} tree).toOption.bind Compiled.filter).map
      fun f => f.numbers.length) = some 2 := by decide +kernel
  obtain ⟨f, hf, hlength⟩ := Option.map_eq_some_iff.mp hcount
  obtain ⟨c, hc, hfilter⟩ := Option.bind_eq_some_iff.mp hf
  have hcompile : compile {} tree = .ok c := (compileMarked_congr rfl).trans (eq_ok_of_toOption hc)
  obtain ⟨hsound, htyped⟩ := compile_sound {} tree c f hcompile hfilter
  exact ⟨hconforms, c, f, hcompile, hfilter, hlength, hsound, htyped hconforms⟩

end Query

end Catalogue
