import Catalogue.Proofs.Query.Account
import Catalogue.Proofs.Query.Detail
import Catalogue.Proofs.Query.Leftover
import Catalogue.Proofs.Query.Soundness

/-!
# Spatial relations

A spatial relation stands for one predicate: its attribute, the operator that its token and its own
distance make, and the region of its shape. The distance of the relation and the distances of the
shape are told apart by what stands above them, however many there are.

* `Spatial` — the parts of a spatial relation; `Spatial.filter?` — what they stand for.
* `Spatial.IsUnreadable` — why they stand for nothing.
* `compile_spatial` — a query of one spatial relation is compiled to what the relation stands for.
-/

namespace Catalogue.Query

open Catalogue.Filter (Operator Relation)
open Catalogue.Geometry
open Catalogue.Journal
open Catalogue.Text

/-! ## Parts -/

/-- The parts of a spatial relation. -/
structure Spatial where
  subject : Node
  operator : Node
  /-- The distance of a relation that needs one. -/
  distance : Option Node
  shape : Node

namespace Spatial

/-- The operator: that of the token, or the relation of the token at the distance. -/
def operator? (s : Spatial) : Option Operator :=
  match s.distance with
  | none => Operator.spatial? (trim s.operator.text)
  | some d => do
    let relation ← Relation.ofToken? (trim s.operator.text)
    let meters ← d.meters?
    return relation.operator meters

/-- The predicate of a spatial relation. -/
def filter? (o : Options) (s : Spatial) : Option Filter := do
  let operator ← s.operator?
  let region ← s.shape.region? o
  return .test (trim s.subject.text) operator (.geometry region)

/-- Whether the token of the operator is known where it stands. -/
def IsKnown (s : Spatial) : Prop :=
  match s.distance with
  | none => (Operator.spatial? (trim s.operator.text)).isSome
  | some _ => (Relation.ofToken? (trim s.operator.text)).isSome

/-- Why a spatial relation stands for nothing. -/
inductive IsUnreadable (o : Options) (s : Spatial) : Prop
  | operator (h : ¬ s.IsKnown)
  | relative (d : Node) (hd : s.distance = some d) (h : d.meters? = none)
  | corner (c : Node) (hc : c ∈ s.shape.corners) (h : c.coordinate? = none)
  | distance (d : Node) (hd : d ∈ s.shape.distances) (h : d.meters? = none)
  | angle (a : Node) (ha : a ∈ s.shape.angles) (h : a.bearing? = none)
  | unfinished (d : Draft) (e : GeometryError) (hd : s.shape.draft? o = some d)
    (h : d.finish = .error e)

theorem operator?_eq_none_iff {s : Spatial} :
    s.operator? = none ↔ ¬ s.IsKnown ∨ ∃ d, s.distance = some d ∧ d.meters? = none := by
  rw [operator?, IsKnown]
  cases s.distance with
  | none => simp
  | some d =>
    cases Relation.ofToken? (trim s.operator.text) <;> cases hd : d.meters? <;> simp [hd]

theorem filter?_of_none {o : Options} {s : Spatial} (h : s.operator? = none) :
    s.filter? o = none := by rw [filter?, h]; rfl

theorem filter?_of_some {o : Options} {s : Spatial} {operator : Operator}
    (h : s.operator? = some operator) :
    s.filter? o = (s.shape.region? o).map fun r =>
      .test (trim s.subject.text) operator (.geometry r) := by
  rw [filter?, h]
  cases s.shape.region? o <;> rfl

theorem filter?_eq_none_iff_or {o : Options} {s : Spatial} :
    s.filter? o = none ↔ s.operator? = none ∨ s.shape.region? o = none := by
  rw [filter?]
  cases s.operator? <;> cases s.shape.region? o <;> simp

/-- A spatial relation around a shape stands for nothing when something in it is unreadable. -/
theorem filter?_eq_none_iff {o : Options} {s : Spatial} (h : s.shape.rule.isShape = true) :
    s.filter? o = none ↔ s.IsUnreadable o := by
  obtain ⟨kind, hkind⟩ := Rule.exists_shapeOf? h
  rw [filter?_eq_none_iff_or, operator?_eq_none_iff, Node.region?_eq_none_iff,
    Node.draft?_eq_none_iff hkind]
  constructor
  · rintro ((hknown | ⟨d, hd, h⟩) | (⟨c, hc, h⟩ | ⟨d, hd, h⟩ | ⟨a, ha, h⟩) | ⟨d, e, hd, h⟩)
    · exact .operator hknown
    · exact .relative d hd h
    · exact .corner c hc h
    · exact .distance d hd h
    · exact .angle a ha h
    · exact .unfinished d e hd h
  · intro hunreadable
    cases hunreadable with
    | operator h => exact .inl (.inl h)
    | relative d hd h => exact .inl (.inr ⟨d, hd, h⟩)
    | corner c hc h => exact .inr (.inl (.inl ⟨c, hc, h⟩))
    | distance d hd h => exact .inr (.inl (.inr (.inl ⟨d, hd, h⟩)))
    | angle a ha h => exact .inr (.inl (.inr (.inr ⟨a, ha, h⟩)))
    | unfinished d e hd h => exact .inr (.inr ⟨d, e, hd, h⟩)

end Spatial

/-- The parts of a spatial relation: an attribute, an operator, a distance if need be, and a
shape. -/
def Node.spatial? (n : Node) : Option Spatial :=
  match n.parts with
  | [subject, operator, shape] => some ⟨subject, operator, none, shape⟩
  | [subject, operator, distance, shape] => some ⟨subject, operator, some distance, shape⟩
  | _ => none

theorem Rule.isToken_of_isOperator {r : Rule} (h : r.isOperator = true) : r.isToken = true := by
  cases r <;> first | rfl | cases h

/-- A spatial relation that follows the grammar has one of two productions. -/
theorem Rule.produces_geoPrimary {parts : List Rule} (h : geoPrimary.produces parts = true) :
    (∃ r, r.isShape = true ∧ parts = [subject, geoOp, r]) ∨
      ∃ r, r.isShape = true ∧ parts = [subject, relativeGeoOp, distance, r] := by
  unfold produces at h
  split at h
  all_goals first
    | exact .inl ⟨_, h, rfl⟩
    | exact .inr ⟨_, h, rfl⟩
    | contradiction

/-- The parts of a spatial relation that follow the grammar. -/
structure Spatial.Conforms (s : Spatial) : Prop where
  conforms_subject : s.subject.conforms = true
  rule_subject : s.subject.rule = .subject
  conforms_operator : s.operator.conforms = true
  rule_operator : s.operator.rule = if s.distance.isSome then .relativeGeoOp else .geoOp
  conforms_distance : ∀ d ∈ s.distance, d.conforms = true
  rule_distance : ∀ d ∈ s.distance, d.rule = .distance
  conforms_shape : s.shape.conforms = true
  isShape_shape : s.shape.rule.isShape = true

/-- The parts in order. -/
def Spatial.nodes (s : Spatial) : List Node :=
  s.subject :: s.operator :: (s.distance.toList ++ [s.shape])

/-- A spatial relation that follows the grammar has its parts. -/
theorem exists_spatial {n : Node} (h : n.conforms = true) (hr : n.rule = .geoPrimary) :
    ∃ s, n.spatial? = some s ∧ s.Conforms ∧ n.parts = s.nodes := by
  obtain ⟨hproduces, hconforms⟩ := Node.produces_parts h (by rw [hr]; rfl)
  rw [hr] at hproduces
  rcases Rule.produces_geoPrimary hproduces with ⟨r, hshape, hrules⟩ | ⟨r, hshape, hrules⟩
  all_goals simp only [List.map_eq_cons_iff, List.map_eq_nil_iff] at hrules
  · obtain ⟨subject, -, hparts, hsubject, operator, -, rfl, hoperator, shape, -, rfl, rfl, rfl⟩ :=
      hrules
    rw [hparts] at hconforms
    refine ⟨⟨subject, operator, none, shape⟩, ?_, ?_, hparts⟩
    · rw [Node.spatial?, hparts]
    · constructor <;> simp_all
  · obtain ⟨subject, -, hparts, hsubject, operator, -, rfl, hoperator, distance, -, rfl, hdistance,
      shape, -, rfl, rfl, rfl⟩ := hrules
    rw [hparts] at hconforms
    refine ⟨⟨subject, operator, some distance, shape⟩, ?_, ?_, hparts⟩
    · rw [Node.spatial?, hparts]
    · constructor <;> simp_all

/-! ## Reading -/

namespace OpenTerm

variable {subject : Option String} {t : OpenTerm}

/-- A term that has failed becomes no predicate. -/
theorem Fails.spatial (h : t.Fails subject) (slot : Option Slot) :
    (t.spatial slot).toOption = none := by
  obtain ⟨cause, hcause⟩ := Option.isSome_iff_exists.mp h.2
  rw [OpenTerm.spatial, subjectOf, hcause]
  rfl

/-- What a spatial relation becomes at its end. -/
def Ends (slots : List Slot) (subject : String) (f : Option Filter) (t : OpenTerm) : Prop :=
  t.subject = some subject ∧ (t.spatial slots.head?).toOption = f

theorem Fails.ends {subject : String} (h : t.Fails (some subject)) (slots : List Slot) :
    t.Ends slots subject none := ⟨h.1, h.spatial _⟩

end OpenTerm

namespace Machine.Reads

variable {o : Options} {mark : String → UInt64} {parent : Option Rule} {t : OpenTerm} {n : Node}

theorem subject (h : n.conforms = true) (hr : n.rule = .subject) :
    Reads o mark n.steps parent t [] (· = { t with subject := some (trim n.text) }) := by
  refine token h (by rw [hr]; rfl) (e := ⟨[], _, []⟩) ?_ rfl
  rintro m - rfl
  simp [takeLeaf, hr, Effect.on]

/-- A known operator waits. -/
theorem operator {slot : Slot} (h : n.operator? = some slot) :
    Reads o mark n.steps parent t [slot] (· = t) := by
  refine ⟨⟨[slot], t, []⟩, rfl, rfl, ?_⟩
  rintro m - rfl
  rw [run_operator o mark h]
  simp [pushSlot, Effect.on]

/-- An unknown operator makes the term fail. -/
theorem unknown (h : n.conforms = true) (hr : n.rule.isOperator = true)
    (hnone : n.operator? = none) : Reads o mark n.steps parent t [] (OpenTerm.Fails t.subject) := by
  have hleaf : n.isLeaf = true := by
    rw [Node.isLeaf, Node.children_of_token h (Rule.isToken_of_isOperator hr)]
    rfl
  rw [Node.operator?, if_pos hleaf] at hnone
  have hfails (cause : DropCause) (htake : ∀ m : Machine, m.takeLeaf n parent = m.fail cause) :
      Reads o mark n.steps parent t [] (OpenTerm.Fails t.subject) := by
    refine token h (Rule.isToken_of_isOperator hr) (e := ⟨[], t.fail cause, []⟩) ?_
      (OpenTerm.fails_fail t cause)
    rintro m - rfl
    simp [htake, Effect.on, Machine.fail]
  cases hrule : n.rule
  case comparisonOp =>
    simp only [hrule, Option.map_eq_none_iff] at hnone
    exact hfails (.unknownComparison (trim n.text)) fun m => by simp only [takeLeaf, hrule, hnone]
  case geoOp =>
    simp only [hrule, Option.map_eq_none_iff] at hnone
    exact hfails (.unknownSpatial (trim n.text)) fun m => by simp only [takeLeaf, hrule, hnone]
  case relativeGeoOp =>
    simp only [hrule, Option.map_eq_none_iff] at hnone
    exact hfails (.unknownRelation (trim n.text)) fun m => by simp only [takeLeaf, hrule, hnone]
  all_goals
    rw [hrule] at hr
    cases hr

end Machine.Reads

/-! ### The relation -/

section Relation

variable {o : Options} {mark : String → UInt64} {parent : Option Rule} {s : Spatial}

/-- After a failure the relation ends as no predicate. -/
theorem reads_failed {ns : List Node} (hns : ∀ n ∈ ns, n.conforms = true ∧ n.rule.isMeasure = true)
    {t : OpenTerm} {subject : String} (h : t.Fails (some subject)) (slots : List Slot) :
    Machine.Reads o mark (Node.stepsAll ns) parent t [] (OpenTerm.Ends slots subject none) :=
  (Machine.Reads.failedAll ns (Node.conformsAll_iff.mpr fun n hn => (hns n hn).1)
    (fun n hn => (hns n hn).2) h).mono fun _ ht => ht.ends slots

/-- With the operator that waits and the distance that was read, the shape ends the relation. -/
theorem reads_ending (hs : s.Conforms) {distance : Option Float} {slots : List Slot}
    {operator : Operator} (hspatial : ∀ r, (OpenTerm.spatial slots.head?
      { subject := some (trim s.subject.text), distance, region := some r }).toOption =
        some (.test (trim s.subject.text) operator (.geometry r))) :
    Machine.Reads o mark (Node.stepsAll [s.shape]) parent
      { subject := some (trim s.subject.text), distance } []
      (OpenTerm.Ends slots (trim s.subject.text) ((s.shape.region? o).map fun r =>
        .test (trim s.subject.text) operator (.geometry r))) := by
  refine ((Machine.Reads.shape hs.conforms_shape hs.isShape_shape rfl rfl rfl).mono ?_).only
  intro t ht
  cases hregion : s.shape.region? o with
  | none =>
    rw [hregion] at ht
    exact OpenTerm.Fails.ends ht slots
  | some r =>
    rw [hregion] at ht
    obtain rfl : t = _ := ht
    exact ⟨rfl, hspatial r⟩

/-- What a spatial relation starts with. -/
theorem reads_subject (hs : s.Conforms) : Machine.Reads o mark s.subject.steps parent {} []
    (· = { subject := some (trim s.subject.text) }) :=
  .subject hs.conforms_subject hs.rule_subject

theorem isOperator_operator (hs : s.Conforms) : s.operator.rule.isOperator = true := by
  rw [hs.rule_operator]
  split <;> rfl

/-- The operator of a spatial relation is known by its token. -/
theorem operator?_operator (hs : s.Conforms) : s.operator.operator? = match s.distance with
    | none => (Operator.spatial? (trim s.operator.text)).map .ready
    | some _ => (Relation.ofToken? (trim s.operator.text)).map .relative := by
  have hleaf : s.operator.isLeaf = true := by
    rw [Node.isLeaf, Node.children_of_token hs.conforms_operator
      (Rule.isToken_of_isOperator (isOperator_operator hs))]
    rfl
  rw [Node.operator?, if_pos hleaf, hs.rule_operator]
  cases s.distance <;> rfl

theorem isMeasure_shape (hs : s.Conforms) :
    ∀ n ∈ [s.shape], n.conforms = true ∧ n.rule.isMeasure = true :=
  List.forall_mem_singleton.mpr ⟨hs.conforms_shape, Rule.isMeasure_of_isShape hs.isShape_shape⟩

/-- A spatial relation without a distance ends as what it stands for. -/
theorem reads_plain (hs : s.Conforms) (hdistance : s.distance = none) :
    ∃ slots, Machine.Reads o mark (Node.stepsAll s.nodes) parent {} slots
      (OpenTerm.Ends slots (trim s.subject.text) (s.filter? o)) := by
  have hslot := operator?_operator hs
  rw [hdistance] at hslot
  have hoperator : s.operator? = Operator.spatial? (trim s.operator.text) := by
    rw [Spatial.operator?, hdistance]
  rw [Spatial.nodes, hdistance]
  cases hknown : Operator.spatial? (trim s.operator.text) with
  | none =>
    rw [hknown] at hslot hoperator
    rw [Spatial.filter?_of_none hoperator]
    refine ⟨[], (reads_subject hs).cons ?_⟩
    rintro - rfl
    refine (Machine.Reads.unknown hs.conforms_operator (isOperator_operator hs) hslot).cons ?_
    exact fun t ht => reads_failed (isMeasure_shape hs) ht []
  | some operator =>
    rw [hknown] at hslot hoperator
    rw [Spatial.filter?_of_some hoperator]
    refine ⟨[.ready operator], (reads_subject hs).cons_nil ?_⟩
    rintro - rfl
    refine (Machine.Reads.operator hslot).cons ?_
    rintro - rfl
    exact reads_ending hs fun r => rfl

/-- A spatial relation with a distance ends as what it stands for. -/
theorem reads_relative (hs : s.Conforms) {d : Node} (hdistance : s.distance = some d)
    (hparent : parent.any Rule.isShape = false) :
    ∃ slots, Machine.Reads o mark (Node.stepsAll s.nodes) parent {} slots
      (OpenTerm.Ends slots (trim s.subject.text) (s.filter? o)) := by
  have hslot := operator?_operator hs
  rw [hdistance] at hslot
  have hconforms : d.conforms = true := hs.conforms_distance d hdistance
  have hrule : d.rule = .distance := hs.rule_distance d hdistance
  rw [Spatial.nodes, hdistance]
  cases hknown : Relation.ofToken? (trim s.operator.text) with
  | none =>
    have hoperator : s.operator? = none := by simp [Spatial.operator?, hdistance, hknown]
    rw [hknown] at hslot
    rw [Spatial.filter?_of_none hoperator]
    refine ⟨[], (reads_subject hs).cons ?_⟩
    rintro - rfl
    refine (Machine.Reads.unknown hs.conforms_operator (isOperator_operator hs) hslot).cons ?_
    have hmeasure : d.rule.isMeasure = true := by rw [hrule]; rfl
    refine fun t ht => reads_failed (List.forall_mem_cons.mpr ⟨⟨hconforms, hmeasure⟩, ?_⟩) ht []
    exact isMeasure_shape hs
  | some relation =>
    rw [hknown] at hslot
    refine ⟨[.relative relation], (reads_subject hs).cons_nil ?_⟩
    rintro - rfl
    refine (Machine.Reads.operator hslot).cons ?_
    rintro - rfl
    refine (Machine.Reads.distance hconforms hrule rfl rfl).cons fun t ht => ?_
    cases hmeters : d.meters? with
    | none =>
      have hoperator : s.operator? = none := by simp [Spatial.operator?, hdistance, hknown, hmeters]
      rw [hmeters] at ht
      rw [Spatial.filter?_of_none hoperator]
      exact reads_failed (isMeasure_shape hs) ht _
    | some x =>
      have hoperator : s.operator? = some (relation.operator x) := by
        simp [Spatial.operator?, hdistance, hknown, hmeters]
      rw [hmeters, hparent] at ht
      obtain rfl : t = { subject := some (trim s.subject.text), distance := some x } := ht
      rw [Spatial.filter?_of_some hoperator]
      exact reads_ending hs fun r => rfl

/-- A spatial relation ends as what it stands for. -/
theorem reads_spatial (hs : s.Conforms) :
    ∃ slots, Machine.Reads o mark (Node.stepsAll s.nodes) (some .geoPrimary) {} slots
      (OpenTerm.Ends slots (trim s.subject.text) (s.filter? o)) := by
  cases hdistance : s.distance with
  | none => exact reads_plain hs hdistance
  | some d => exact reads_relative hs hdistance rfl

end Relation

/-! ## Reports -/

namespace Machine

variable {o : Options} {mark : String → UInt64}

theorem Quiet.trans {a b c : Machine} (h : Quiet a b) (h' : Quiet b c) : Quiet a c := by
  obtain ⟨es, hes, hquiet⟩ := h
  obtain ⟨es', hes', hquiet'⟩ := h'
  exact ⟨es ++ es', by rw [hes', hes, List.append_assoc],
    List.forall_mem_append.mpr ⟨hquiet, hquiet'⟩⟩

mutual

/-- Inside a comparison or a spatial relation no dropped term is reported. -/
theorem quiet_steps : ∀ (n : Node) (m : Machine), n.isPrimaryFree = true →
    Quiet m (run o mark m n.steps)
  | ⟨rule, text, children⟩, m, h => by
    rw [Node.isPrimaryFree, Bool.and_eq_true, Bool.not_eq_true'] at h
    rw [run_steps]
    exact ((quiet_enter o mark m _).trans (quiet_stepsAll children _ h.2)).trans
      (quiet_leave o mark _ h.1)

theorem quiet_stepsAll : ∀ (ns : List Node) (m : Machine), Node.primaryFreeAll ns = true →
    Quiet m (run o mark m (Node.stepsAll ns))
  | [], _, _ => .of_eq rfl
  | n :: rest, m, h => by
    rw [Node.primaryFreeAll, Bool.and_eq_true] at h
    rw [Node.stepsAll, run_append]
    exact (quiet_steps n m h.1).trans (quiet_stepsAll rest _ h.2)

end

end Machine

/-! ## Compilation -/

/-- A node that is all a query holds; the texts are those of the nodes above it. -/
def Node.inQuery (query term factor : String) (n : Node) : Node :=
  ⟨.query, query, [⟨.term, term, [⟨.factor, factor, [n]⟩]⟩]⟩

section Compile

open Machine

variable {o : Options} {n : Node}

/-- The reports of the machine inside a term, and that of the term if it is dropped. -/
def termEntries (e : Effect) (result : Except DropCause Filter) : List Entry :=
  match result with
  | .ok _ => e.entries
  | .error cause => e.entries ++ [dropped e.term.subject cause]

/-- A term ends with what is inside it, with every machine that enters it. -/
theorem run_term (hr : n.rule.isPrimary = true) {e : Effect}
    (hon : ∀ m : Machine, m.ancestors.head? = some n.rule → m.term = {} →
      run o hash m (Node.stepsAll n.children) = e.on m) (m : Machine) :
    run o hash m n.steps = (e.on m).endTerm (outcome o n.rule) := by
  obtain ⟨rule, text, children⟩ := n
  have hin := enter_primary o hash hr m
  rw [run_steps, hon _ (by rw [hin]; rfl) (by rw [hin]), hin, leave_primary o hash _ hr]
  rfl

/-- A query that holds one term is compiled to what the term ends as. -/
theorem compile_inQuery (hr : n.rule.isPrimary = true) {e : Effect}
    (hon : ∀ m : Machine, m.ancestors.head? = some n.rule → m.term = {} →
      run o hash m (Node.stepsAll n.children) = e.on m) (query term factor : String) :
    ∃ report, isDropReport report = false ∧
      compile o (n.inQuery query term factor) = .ok {
        filter := (outcome o n.rule e.slots.head? e.term).toOption
        entries := termEntries e (outcome o n.rule e.slots.head? e.term) ++ [report] } := by
  -- the machine before the term
  let m : Machine :=
    { ancestors := [.factor, .term, .query]
      groups := [⟨hash term, .and, []⟩, ⟨hash query, .or, []⟩] }
  have hsteps : run o hash {} (n.inQuery query term factor).steps =
      (((run o hash m n.steps).leave o hash ⟨.factor, factor, [n]⟩).leave o hash
        ⟨.term, term, [⟨.factor, factor, [n]⟩]⟩).leave o hash (n.inQuery query term factor) := by
    simp only [Node.inQuery, run_steps, Node.stepsAll, List.append_nil]
    rfl
  have hslots : (e.on m).slots = e.slots := List.append_nil _
  have hterm : (e.on m).term = e.term := rfl
  rw [compile, compileMarked, if_pos (show (n.inQuery query term factor).rule = .query from rfl),
    hsteps, run_term hr hon, endTerm, hslots, hterm]
  generalize outcome o n.rule e.slots.head? e.term = result
  refine ⟨.report .queryCompiled [("predicates", toString (predicateCount result.toOption))], rfl,
    ?_⟩
  cases result with
  | ok f =>
    simp [leave, endGroup, deliver, Group.combine, Rule.isShape, Node.inQuery, Effect.on, m,
      termEntries, Except.toOption]
  | error cause =>
    simp [leave, endGroup, report, Group.combine, Rule.isShape, Node.inQuery, Effect.on, m,
      termEntries, Except.toOption]

theorem filter_termEntries {e : Effect} (he : ∀ x ∈ e.entries, isDropReport x = false)
    (result : Except DropCause Filter) {report : Entry} (hreport : isDropReport report = false) :
    (termEntries e result ++ [report]).filter isDropReport = match result with
      | .ok _ => []
      | .error cause => [dropped e.term.subject cause] := by
  have hentries : e.entries.filter isDropReport = [] :=
    List.filter_eq_nil_iff.mpr fun x hx => by simp [he x hx]
  have hdropped : ∀ cause, isDropReport (dropped e.term.subject cause) = true := fun _ => rfl
  cases result <;>
    simp [termEntries, hentries, hreport, hdropped]

/--
A query of one spatial relation that follows the grammar is compiled to one predicate: the
attribute, the operator of the token and of the distance of the relation, and the region of a shape
with just its own coordinates, distances and angle, in order. There is no predicate exactly when one
of these is unreadable; then, and only then, one report says that the term is dropped.
-/
theorem compile_spatial (o : Options) (n : Node) (h : n.conforms = true) (hr : n.rule = .geoPrimary)
    (query term factor : String) :
    ∃ s c, n.spatial? = some s ∧ compile o (n.inQuery query term factor) = .ok c ∧
      c.filter = s.filter? o ∧ (c.filter = none ↔ s.IsUnreadable o) ∧
      (∀ f, c.filter = some f → c.entries.filter isDropReport = []) ∧
      (c.filter = none → ∃ cause,
        c.entries.filter isDropReport = [dropped (some (trim s.subject.text)) cause]) := by
  obtain ⟨s, hspatial, hs, hnodes⟩ := exists_spatial h hr
  have hprimary : n.rule.isPrimary = true := by rw [hr]; rfl
  obtain ⟨slots, e, rfl, ⟨hsubject, hfilter⟩, hon⟩ : ∃ slots, Reads o hash (Node.stepsAll s.nodes)
      (some .geoPrimary) {} slots (OpenTerm.Ends slots (trim s.subject.text) (s.filter? o)) :=
    reads_spatial hs
  have hchildren : ∀ m : Machine, m.ancestors.head? = some n.rule → m.term = {} →
      run o hash m (Node.stepsAll n.children) = e.on m := by
    intro m hparent hterm
    rw [run_parts (Node.conforms_children h)]
    show run o hash m (Node.stepsAll n.parts) = _
    rw [hnodes]
    exact hon m (by rw [hparent, hr]) hterm
  -- what is reported inside is about degrees with minutes and seconds
  have hquiet : ∀ x ∈ e.entries, isDropReport x = false := by
    obtain ⟨es, hes, hquiet⟩ : Quiet { ancestors := [n.rule] }
        (run o hash { ancestors := [n.rule] } (Node.stepsAll n.children)) :=
      quiet_stepsAll n.children _ (Node.conforms_primary_inner h hprimary).1
    rw [hchildren _ rfl rfl] at hes
    have hentries : e.entries = es := hes
    rwa [hentries]
  obtain ⟨report, hreport, hcompile⟩ := compile_inQuery hprimary hchildren query term factor
  have houtcome : outcome o n.rule e.slots.head? e.term = e.term.spatial e.slots.head? := by
    rw [hr]
    rfl
  rw [houtcome] at hcompile
  have hdrops := filter_termEntries hquiet (e.term.spatial e.slots.head?) hreport
  refine ⟨s, _, hspatial, hcompile, hfilter, ?_, fun f hf => ?_, fun hnone => ?_⟩
  · exact hfilter ▸ Spatial.filter?_eq_none_iff hs.isShape_shape
  · rw [hdrops, eq_ok_of_toOption hf]
  · obtain ⟨cause, hcause⟩ : ∃ cause, e.term.spatial e.slots.head? = .error cause := by
      cases hresult : e.term.spatial e.slots.head? with
      | ok f =>
        rw [hresult] at hnone
        cases hnone
      | error cause => exact ⟨cause, rfl⟩
    rw [hdrops, hcause, hsubject]
    exact ⟨cause, rfl⟩

/-- A distance around a circle: the distance of the relation is not the radius. -/
theorem compile_spatial_circle :
    let circle := Build.circle (Build.coordinate "1" " 2 ") (Build.distance "2" "METERS")
    let near := Build.relative " place " "within" (Build.distance "5" "KILOMETERS") circle
    near.conforms = true ∧ near.rule = .geoPrimary ∧
      ∃ c, compile {} (near.inQuery "q" "t" "f") = .ok c ∧
        c.filter = some (.test "place" (.within 5000.0)
          (.geometry { wkt := "POINT(2 1)", radius := some 2.0 })) ∧
        c.entries.filter isDropReport = [] := by
  intro circle near
  have hconforms : near.conforms = true := by decide
  obtain ⟨s, c, hspatial, hcompile, hfilter, -, hkept, -⟩ :=
    compile_spatial {} near hconforms rfl "q" "t" "f"
  obtain rfl : (⟨Build.leaf .subject " place ", Build.leaf .relativeGeoOp "within",
    some (Build.distance "5" "KILOMETERS"), circle⟩ : Spatial) = s := Option.some.inj hspatial
  have hoperator : Spatial.operator? ⟨Build.leaf .subject " place ",
      Build.leaf .relativeGeoOp "within", some (Build.distance "5" "KILOMETERS"), circle⟩ =
        some (.within 5000.0) := by
    decide +kernel
  have hregion : circle.region? {} = some { wkt := "POINT(2 1)", radius := some 2.0 } := by
    decide +kernel
  rw [Spatial.filter?_of_some hoperator, hregion] at hfilter
  have hsubject : trim " place " = "place" := by decide +kernel
  have hfilter : c.filter = some (.test (trim " place ") (.within 5000.0)
    (.geometry { wkt := "POINT(2 1)", radius := some 2.0 })) := hfilter
  rw [hsubject] at hfilter
  exact ⟨hconforms, rfl, c, hcompile, hfilter, hkept _ hfilter⟩

end Compile

end Catalogue.Query
