import Catalogue.Proofs.Query.Confinement
import Catalogue.Proofs.Query.Measure
import Catalogue.Proofs.Text.Words

/-!
# Reading the details of a spatial relation

Numbers, units, distances and coordinates share one open term: leaves put their texts into it, and
the nodes above them take these out again when they are left. In a tree that follows the grammar
each takes out what its own leaves have put in, so a detail is read as what it stands for. A detail
that stands for nothing makes the term fail, and a term that has failed stays so.

* `Machine.Reads` — what a part of a walk makes of the open term.
* `Reads.failed` — a term that has failed stays so.
* `Reads.distance` and `Reads.shape` — measures are read as what they stand for, or the term fails.
-/

namespace Catalogue.Query

open Catalogue.Geometry
open Catalogue.Text

namespace OpenTerm

/-! ## Failures -/

/-- A term about an attribute has failed. -/
def Fails (subject : Option String) (t : OpenTerm) : Prop :=
  t.subject = subject ∧ t.failure.isSome = true

/-- What was to be read has been read, or else the term has failed. -/
def Holds (subject : Option String) (expected : Option OpenTerm) (t : OpenTerm) : Prop :=
  match expected with
  | some t' => t = t'
  | none => t.Fails subject

theorem fails_fail (t : OpenTerm) (cause : DropCause) : (t.fail cause).Fails t.subject :=
  ⟨rfl, by cases h : t.failure <;> simp [fail, h]⟩

/-- Two numbers are a coordinate when both are finite. -/
theorem toOption_ofTexts (lat lon : String) :
    (Coordinate.ofTexts (trim lat) (trim lon)).toOption = (do
      return { lat := ← Number.finite? (trim lat), lon := ← Number.finite? (trim lon) }) := by
  have hdegrees (s : String) : (degrees (trim s)).toOption = Number.finite? (trim s) := by
    rw [degrees, trim_trim]
    cases Number.finite? (trim s) <;> rfl
  rw [← hdegrees lat, ← hdegrees lon, Coordinate.ofTexts]
  cases degrees (trim lat) with
  | error e => rfl
  | ok x => cases degrees (trim lon) <;> rfl

/-- Two numbers end as a coordinate of the shape. -/
theorem holds_endCoordinate {t : OpenTerm} {d : Draft} (hnumbers : t.numbers = [])
    (hdraft : t.draft = some d) {lat lon : String} {c : Option Coordinate}
    (hc : (Coordinate.ofTexts lat lon).toOption = c) :
    Holds t.subject (c.map fun c => { t with draft := some (d.addCoordinate c) })
      { t with numbers := [lat, lon] }.endCoordinate := by
  cases hread : Coordinate.ofTexts lat lon with
  | error e =>
    obtain rfl : none = c := by rw [← hc, hread]; rfl
    simp only [endCoordinate, hread, hdraft]
    exact fails_fail { t with numbers := [] } _
  | ok x =>
    obtain rfl : some x = c := by rw [← hc, hread]; rfl
    simp only [endCoordinate, hread, hdraft]
    show _ = _
    rw [← hnumbers]

/-- A number and a unit are meters when the unit is known and the meters are finite. -/
theorem toOption_meters (value unit : String) :
    (meters value unit).toOption = (do
      let u ← LengthUnit.ofToken? unit
      let x ← Number.float? value
      (some (u.inMeters x)).filter Float.isFinite) := by
  rw [meters, LengthUnit.ofToken]
  cases LengthUnit.ofToken? unit with
  | none => rfl
  | some u =>
    cases Number.float? value with
    | none => rfl
    | some x =>
      show (if (u.inMeters x).isFinite then _ else _ : Except DropCause Float).toOption =
        (some (u.inMeters x)).filter Float.isFinite
      rw [Option.filter_some]
      split <;> rfl

/-- The open term with one more distance. -/
def withDistance (t : OpenTerm) (inShape : Bool) (x : Float) : OpenTerm :=
  if inShape then { t with draft := t.draft.map (·.addDistance x) }
  else { t with distance := some x }

/-- A number and a unit end as a distance of the shape around them, or else of the relation. -/
theorem holds_endDistance {t : OpenTerm} (hnumbers : t.numbers = []) (hunit : t.unit = none)
    (inShape : Bool) {value unit : String} {x : Option Float}
    (hx : (meters value unit).toOption = x) :
    Holds t.subject (x.map (t.withDistance inShape))
      ({ t with numbers := [value], unit := some unit }.endDistance inShape) := by
  cases hread : meters value unit with
  | error cause =>
    obtain rfl : none = x := by rw [← hx, hread]; rfl
    simp only [endDistance, lastDistance, List.getLast?_singleton, hread]
    exact fails_fail { t with numbers := [], unit := none } _
  | ok y =>
    obtain rfl : some y = x := by rw [← hx, hread]; rfl
    simp only [endDistance, lastDistance, List.getLast?_singleton, hread, List.dropLast_singleton]
    show _ = withDistance _ _ _
    rw [withDistance, ← hnumbers, ← hunit]

/-- A shape ends as the region that it is finished to. -/
theorem holds_endShape {t : OpenTerm} {d : Draft} (hdraft : t.draft = none) :
    Holds t.subject (d.finish.toOption.map fun r => { t with region := some r })
      { t with draft := some d }.endShape := by
  cases hfinish : d.finish with
  | error e =>
    simp only [endShape, hfinish]
    exact fails_fail { t with draft := none } _
  | ok r =>
    simp only [endShape, hfinish]
    show _ = _
    rw [← hdraft]

namespace Fails

variable {subject : Option String} {t : OpenTerm}

theorem fail (h : t.Fails subject) (cause : DropCause) : (t.fail cause).Fails subject :=
  h.1 ▸ fails_fail t cause

theorem endCoordinate (h : t.Fails subject) : t.endCoordinate.Fails subject := by
  have hcleared : ({ t with numbers := [] } : OpenTerm).Fails subject := h
  unfold OpenTerm.endCoordinate
  dsimp only
  split
  · split
    · exact hcleared
    · exact hcleared.fail _
    · exact hcleared.fail _
  · exact hcleared.fail _

theorem endDistance (h : t.Fails subject) (inShape : Bool) :
    (t.endDistance inShape).Fails subject := by
  have hcleared : OpenTerm.Fails subject { t with numbers := t.numbers.dropLast, unit := none } := h
  unfold OpenTerm.endDistance
  dsimp only
  split
  · exact hcleared.fail _
  · split <;> exact hcleared

theorem endShape (h : t.Fails subject) : t.endShape.Fails subject := by
  unfold OpenTerm.endShape
  split
  · exact h
  · next d _ =>
    have hcleared : ({ t with draft := none } : OpenTerm).Fails subject := h
    dsimp only
    split
    · exact hcleared
    · exact hcleared.fail _

end Fails

end OpenTerm

namespace Machine

variable {o : Options} {mark : String → UInt64}

/-- A keyword or a bracket changes nothing. -/
theorem run_punctuation {n : Node} (h : n.conforms = true) (hr : n.rule = .punctuation)
    (m : Machine) : run o mark m n.steps = m := by
  obtain ⟨rule, text, children⟩ := n
  cases hr
  obtain rfl : children = [] := Node.children_of_token h rfl
  rw [run_steps]
  rfl

/-- Only the parts of a node are read. -/
theorem run_parts {ns : List Node} (h : ∀ n ∈ ns, n.conforms = true) (m : Machine) :
    run o mark m (Node.stepsAll ns) =
      run o mark m (Node.stepsAll (ns.filter fun c => c.rule ≠ .punctuation)) := by
  induction ns generalizing m with
  | nil => rfl
  | cons n rest ih =>
    obtain ⟨hn, hrest⟩ := List.forall_mem_cons.mp h
    rw [Node.stepsAll, run_append, ih hrest]
    by_cases hr : n.rule = .punctuation
    · rw [List.filter_cons_of_neg (by simp [hr]), run_punctuation hn hr]
    · rw [List.filter_cons_of_pos (by simp [hr]), Node.stepsAll, run_append]

/-- The open term after a node that opens no group, no term and is no token is entered. -/
def afterEntering (o : Options) (rule : Rule) (t : OpenTerm) : OpenTerm :=
  match shapeOf? rule with
  | some kind => { t with draft := some (.start kind o.vertices) }
  | none => t

theorem afterLeaving_shape {rule : Rule} (h : rule.isShape = true) (parent : Option Rule)
    (t : OpenTerm) : afterLeaving rule parent t = t.endShape := by
  cases rule <;> first | rfl | cases h

section Failed

variable {subject : Option String} {t : OpenTerm}

theorem fails_takeLeaf {m : Machine} (h : m.term.Fails subject) {n : Node}
    (hn : n.rule ≠ .subject) (parent : Option Rule) : (m.takeLeaf n parent).term.Fails subject := by
  cases hr : n.rule
  all_goals simp only [takeLeaf, hr]
  case subject => exact absurd hr hn
  case comparisonOp => split <;> first | exact h | exact h.fail _
  case geoOp => split <;> first | exact h | exact h.fail _
  case relativeGeoOp => split <;> first | exact h | exact h.fail _
  case number => split <;> exact h
  case angle =>
    unfold readAngle
    split <;> first | exact h | exact h.fail _
  case dmsCoordinate => exact h.fail _
  all_goals exact h

theorem fails_afterEntering (h : t.Fails subject) (o : Options) (rule : Rule) :
    (afterEntering o rule t).Fails subject := by
  unfold afterEntering
  split <;> exact h

theorem fails_afterLeaving (h : t.Fails subject) (rule : Rule) (parent : Option Rule) :
    (afterLeaving rule parent t).Fails subject := by
  unfold afterLeaving
  split
  · exact h.endCoordinate
  · exact h.endDistance _
  · split
    · exact h.endShape
    · exact h

end Failed

/-! ## Reading -/

variable (o mark) in
/--
A part of a walk, below a rule and with an open term, pushes some operators and leaves a term with a
property; besides it makes reports.
-/
def Reads (steps : List Step) (parent : Option Rule) (t : OpenTerm) (slots : List Slot)
    (P : OpenTerm → Prop) : Prop :=
  ∃ e : Effect, e.slots = slots ∧ P e.term ∧
    ∀ m : Machine, m.ancestors.head? = parent → m.term = t → run o mark m steps = e.on m

namespace Reads

variable {steps steps' : List Step} {parent : Option Rule} {t : OpenTerm} {slots slots' : List Slot}
  {P Q : OpenTerm → Prop} {n : Node} {subject : Option String}

theorem mono (h : Reads o mark steps parent t slots P) (hPQ : ∀ t, P t → Q t) :
    Reads o mark steps parent t slots Q := by
  obtain ⟨e, hslots, hterm, hon⟩ := h
  exact ⟨e, hslots, hPQ _ hterm, hon⟩

theorem nil (h : P t) : Reads o mark [] parent t [] P := by
  refine ⟨⟨[], t, []⟩, rfl, h, ?_⟩
  rintro m - rfl
  simp [run, Effect.on]

/-- One part of a walk after another. -/
theorem append (h : Reads o mark steps parent t slots P)
    (h' : ∀ t', P t' → Reads o mark steps' parent t' slots' Q) :
    Reads o mark (steps ++ steps') parent t (slots' ++ slots) Q := by
  obtain ⟨e, rfl, hterm, hon⟩ := h
  obtain ⟨e', rfl, hterm', hon'⟩ := h' e.term hterm
  refine ⟨e.andThen e', rfl, hterm', fun m hparent ht => ?_⟩
  rw [run_append, hon m hparent ht, hon' (e.on m) hparent rfl, Effect.on_on]

/-- A node in front of others that push no operators. -/
theorem cons {rest : List Node} (h : Reads o mark n.steps parent t slots P)
    (h' : ∀ t', P t' → Reads o mark (Node.stepsAll rest) parent t' [] Q) :
    Reads o mark (Node.stepsAll (n :: rest)) parent t slots Q := by
  rw [Node.stepsAll]
  exact h.append h'

/-- A node that pushes no operators in front of others. -/
theorem cons_nil {rest : List Node} (h : Reads o mark n.steps parent t [] P)
    (h' : ∀ t', P t' → Reads o mark (Node.stepsAll rest) parent t' slots Q) :
    Reads o mark (Node.stepsAll (n :: rest)) parent t slots Q := by
  rw [Node.stepsAll, ← List.append_nil slots]
  exact h.append h'

/-- A single node. -/
theorem only (h : Reads o mark n.steps parent t slots P) :
    Reads o mark (Node.stepsAll [n]) parent t slots P := by
  rwa [Node.stepsAll, Node.stepsAll, List.append_nil]

/-- Two nodes without operators. -/
theorem pair {n' : Node} (h : Reads o mark n.steps parent t [] P)
    (h' : ∀ t', P t' → Reads o mark n'.steps parent t' [] Q) :
    Reads o mark (Node.stepsAll [n, n']) parent t [] Q := h.cons fun t' ht' => (h' t' ht').only

/-- A token is read with the rule above it in mind. -/
theorem token (hconforms : n.conforms = true) (htoken : n.rule.isToken = true) {e : Effect}
    (h : ∀ m : Machine, m.ancestors.head? = some n.rule → m.term = t →
      m.takeLeaf n parent = e.on m) (hP : P e.term) :
    Reads o mark n.steps parent t e.slots P := by
  refine ⟨e, rfl, hP, ?_⟩
  rintro m rfl ht
  have hleaf : n.isLeaf = true := List.isEmpty_iff.mpr (Node.children_of_token hconforms htoken)
  obtain ⟨rule, text, children⟩ := n
  obtain rfl : children = [] := Node.children_of_token hconforms htoken
  have hgroup : connective? rule = none := by cases rule <;> first | rfl | cases htoken
  have hprimary : rule.isPrimary = false := by cases rule <;> first | rfl | cases htoken
  have hterm : ¬(rule = .primary ∨ rule = .geoPrimary) := by
    rw [← Rule.isPrimary_iff, hprimary]
    exact Bool.false_ne_true
  have hshape : shapeOf? rule = none := by cases rule <;> first | rfl | cases htoken
  have hin : m.enter o mark ⟨rule, text, []⟩ =
      e.on { m with ancestors := rule :: m.ancestors } := by
    simp only [enter, hgroup, hterm, hshape, hleaf, if_true, if_false]
    exact h { m with ancestors := rule :: m.ancestors } rfl ht
  have hout : ∀ t' parent', afterLeaving rule parent' t' = t' := by
    intro t' parent'
    cases rule <;> first | rfl | cases htoken
  rw [run_steps, hin, leave_eq o mark hgroup hprimary, hout]
  rfl

/-- Of a measure that is no token the children are read, and then it is left. -/
theorem branch (hmeasure : n.rule.isMeasure = true) (htoken : n.rule.isToken = false)
    (h : Reads o mark (Node.stepsAll n.children) (some n.rule) (afterEntering o n.rule t) slots P) :
    Reads o mark n.steps parent t slots fun t' =>
      ∃ t₁, P t₁ ∧ t' = afterLeaving n.rule parent t₁ := by
  obtain ⟨e, hslots, hterm, hon⟩ := h
  refine ⟨⟨e.slots, afterLeaving n.rule parent e.term, e.entries⟩, hslots, ⟨_, hterm, rfl⟩, ?_⟩
  rintro m rfl rfl
  obtain ⟨rule, text, children⟩ := n
  have hgroup : connective? rule = none := Rule.connective?_of_isMeasure hmeasure
  have hprimary : rule.isPrimary = false := Rule.isPrimary_of_isMeasure hmeasure
  have hterm : ¬(rule = .primary ∨ rule = .geoPrimary) := by
    rw [← Rule.isPrimary_iff, hprimary]
    exact Bool.false_ne_true
  have henter : m.enter o mark ⟨rule, text, children⟩ =
      { m with ancestors := rule :: m.ancestors, term := afterEntering o rule m.term } := by
    simp only [enter, afterEntering, hgroup, hterm, if_false]
    cases hs : shapeOf? rule with
    | some kind => rfl
    | none =>
      simp only
      split
      · cases rule <;> first | rfl | cases htoken
      · rfl
  rw [run_steps, henter, hon _ rfl rfl, leave_eq o mark hgroup hprimary]
  rfl

mutual

/-- A term that has failed stays so, whatever measure follows. -/
theorem failed : ∀ (n : Node) {parent : Option Rule} {t : OpenTerm}, n.conforms = true →
    n.rule.isMeasure = true → t.Fails subject →
    Reads o mark n.steps parent t [] (OpenTerm.Fails subject)
  | ⟨rule, text, children⟩, parent, t, h, hmeasure, ht => by
    have hmeasure : rule.isMeasure = true := hmeasure
    cases htoken : rule.isToken with
    | true =>
      obtain ⟨e, hslots, hon⟩ := takeLeaf_confined ⟨rule, text, children⟩ parent (some rule) t
      have hnone : e.slots = [] := by
        rw [Rule.isOperator_of_isMeasure hmeasure] at hslots
        exact List.eq_nil_of_length_eq_zero (Nat.le_zero.mp hslots)
      have hterm : e.term = (takeLeaf { ancestors := [rule], term := t } ⟨rule, text, children⟩
        parent).term := congrArg Machine.term (hon _ rfl rfl).symm
      have hfails := fails_takeLeaf (m := { ancestors := [rule], term := t }) ht
        (n := ⟨rule, text, children⟩) (Rule.ne_subject_of_isMeasure hmeasure) parent
      rw [← hnone]
      exact token h htoken hon (hterm ▸ hfails)
    | false =>
      rw [Node.conforms, htoken, if_neg Bool.false_ne_true, Bool.and_eq_true] at h
      have hparts := Rule.isMeasure_of_produces hmeasure h.1
      have hchildren : ∀ n ∈ children, n.rule.isMeasure = true := by
        intro n hn
        rcases mem_partRules hn with hp | hp
        · rw [hp]
          rfl
        · exact hparts _ hp
      refine (branch (n := ⟨rule, text, children⟩) hmeasure htoken
        (failedAll children h.2 hchildren (fails_afterEntering ht o rule))).mono ?_
      rintro - ⟨t₁, ht₁, rfl⟩
      exact fails_afterLeaving ht₁ rule parent

theorem failedAll : ∀ (ns : List Node) {parent : Option Rule} {t : OpenTerm},
    Node.conformsAll ns = true → (∀ n ∈ ns, n.rule.isMeasure = true) → t.Fails subject →
    Reads o mark (Node.stepsAll ns) parent t [] (OpenTerm.Fails subject)
  | [], _, _, _, _, ht => nil ht
  | n :: rest, parent, t, h, hn, ht => by
    rw [Node.conformsAll, Bool.and_eq_true] at h
    obtain ⟨hmeasure, hrest⟩ := List.forall_mem_cons.mp hn
    exact cons (failed n h.1 hmeasure ht) fun _ ht' => failedAll rest h.2 hrest ht'

end

/-! ### Tokens -/

theorem number (h : n.conforms = true) (hr : n.rule = .number) (hparent : parent ≠ some .primary) :
    Reads o mark n.steps parent t [] (· = { t with numbers := t.numbers ++ [trim n.text] }) := by
  refine token h (by rw [hr]; rfl) (e := ⟨[], _, []⟩) ?_ rfl
  rintro m - rfl
  simp [takeLeaf, hr, hparent, Effect.on]

theorem unit (h : n.conforms = true) (hr : n.rule = .unit) :
    Reads o mark n.steps parent t [] (· = { t with unit := some (trim n.text) }) := by
  refine token h (by rw [hr]; rfl) (e := ⟨[], _, []⟩) ?_ rfl
  rintro m - rfl
  simp [takeLeaf, hr, Effect.on]

/-- Degrees with minutes and seconds are reported and not read. -/
theorem sexagesimal (h : n.conforms = true) (hr : n.rule = .dmsCoordinate) :
    Reads o mark n.steps parent t [] (OpenTerm.Fails t.subject) := by
  refine token h (by rw [hr]; rfl) (e := ⟨[], t.fail (.geometry (.sexagesimal (trim n.text))),
    [.report .sexagesimalUnsupported [("coordinate", trim n.text)]]⟩) ?_ (OpenTerm.fails_fail t _)
  rintro m - rfl
  simp [takeLeaf, hr, Effect.on, Machine.fail, report]

/-- An angle is one of the shape that is being collected. -/
theorem angle (h : n.conforms = true) (hr : n.rule = .angle) {d : Draft}
    (hdraft : t.draft = some d) :
    Reads o mark n.steps parent t [] (OpenTerm.Holds t.subject
      (n.bearing?.map fun x => { t with draft := some (d.withAngle x) })) := by
  have htake : ∀ m : Machine, m.takeLeaf n parent = m.readAngle (trim n.text) := by
    intro m
    simp only [takeLeaf, hr]
  rw [Node.bearing?]
  cases hx : Number.finite? (trim n.text) with
  | none =>
    refine token h (by rw [hr]; rfl) (e := ⟨[], t.fail (.unreadableAngle (trim n.text)), []⟩) ?_
      (OpenTerm.fails_fail t _)
    rintro m - rfl
    simp [htake, readAngle, hx, Effect.on, Machine.fail]
  | some x =>
    refine token h (by rw [hr]; rfl) (e := ⟨[], _, []⟩) ?_ rfl
    rintro m - rfl
    simp [htake, readAngle, hx, hdraft, Effect.on]

/-! ### Coordinates and distances -/

/-- Of a measure that is no token the parts are read, and then it is left. -/
theorem ofParts (h : n.conforms = true) (hmeasure : n.rule.isMeasure = true)
    (htoken : n.rule.isToken = false)
    (hparts : Reads o mark (Node.stepsAll n.parts) (some n.rule) (afterEntering o n.rule t) slots
      P) :
    Reads o mark n.steps parent t slots fun t' =>
      ∃ t₁, P t₁ ∧ t' = afterLeaving n.rule parent t₁ := by
  obtain ⟨e, hslots, hterm, hon⟩ := hparts
  refine branch hmeasure htoken ⟨e, hslots, hterm, fun m hm ht => ?_⟩
  rw [run_parts (Node.conforms_children h)]
  exact hon m hm ht

/-- Of a measure that is neither a token nor a shape nothing else is read. -/
theorem ofPlainParts {rule : Rule} (h : n.conforms = true) (hr : n.rule = rule)
    (hmeasure : rule.isMeasure = true) (htoken : rule.isToken = false)
    (hplain : shapeOf? rule = none) (ending : OpenTerm → OpenTerm)
    (hending : ∀ t₁, afterLeaving rule parent t₁ = ending t₁)
    (hparts : Reads o mark (Node.stepsAll n.parts) (some rule) t slots P) :
    Reads o mark n.steps parent t slots fun t' => ∃ t₁, P t₁ ∧ t' = ending t₁ := by
  subst hr
  simp only [← hending]
  refine ofParts h hmeasure htoken ?_
  rwa [afterEntering, hplain]

/-- A coordinate is read with its own two numbers, the latitude first. -/
theorem coordinate (h : n.conforms = true) (hr : n.rule = .coordinate) {d : Draft}
    (hnumbers : t.numbers = []) (hdraft : t.draft = some d) :
    Reads o mark n.steps parent t [] (OpenTerm.Holds t.subject
      (n.coordinate?.map fun c => { t with draft := some (d.addCoordinate c) })) := by
  obtain ⟨hproduces, hconforms⟩ := Node.produces_parts h (by rw [hr]; rfl)
  rw [hr] at hproduces
  rcases Rule.produces_coordinate hproduces with hrules | hrules
  · simp only [List.map_eq_cons_iff, List.map_eq_nil_iff] at hrules
    obtain ⟨lat, -, hparts, hlat, lon, -, rfl, hlon, rfl⟩ := hrules
    rw [hparts] at hconforms
    have hread : Reads o mark (Node.stepsAll n.parts) (some .coordinate) t []
        (· = { t with numbers := [trim lat.text, trim lon.text] }) := by
      rw [hparts]
      refine (number (hconforms lat (by simp)) hlat (by decide)).pair ?_
      rintro - rfl
      refine (number (hconforms lon (by simp)) hlon (by decide)).mono ?_
      rintro - rfl
      simp [hnumbers]
    refine (ofPlainParts h hr rfl rfl rfl OpenTerm.endCoordinate (fun _ => rfl) hread).mono ?_
    rintro t' ⟨t₁, rfl, hending⟩
    rw [hending, Node.coordinate?, hparts]
    exact OpenTerm.holds_endCoordinate hnumbers hdraft (OpenTerm.toOption_ofTexts _ _)
  · simp only [List.map_eq_cons_iff, List.map_eq_nil_iff] at hrules
    obtain ⟨dms, -, hparts, hdms, rfl⟩ := hrules
    rw [hparts] at hconforms
    have hread : Reads o mark (Node.stepsAll n.parts) (some .coordinate) t []
        (OpenTerm.Fails t.subject) := by
      rw [hparts]
      exact (sexagesimal (hconforms dms (by simp)) hdms).only
    refine (ofPlainParts h hr rfl rfl rfl OpenTerm.endCoordinate (fun _ => rfl) hread).mono ?_
    rintro - ⟨t₁, ht₁, rfl⟩
    rw [Node.coordinate?, hparts]
    exact ht₁.endCoordinate

/-- A distance is read with its own number and unit; what it belongs to is told by its place. -/
theorem distance (h : n.conforms = true) (hr : n.rule = .distance) (hnumbers : t.numbers = [])
    (hunit : t.unit = none) :
    Reads o mark n.steps parent t [] (OpenTerm.Holds t.subject
      (n.meters?.map (t.withDistance (parent.any Rule.isShape)))) := by
  obtain ⟨hproduces, hconforms⟩ := Node.produces_parts h (by rw [hr]; rfl)
  rw [hr] at hproduces
  have hrules := Rule.produces_distance hproduces
  simp only [List.map_eq_cons_iff, List.map_eq_nil_iff] at hrules
  obtain ⟨value, -, hparts, hvalue, unit, -, rfl, hname, rfl⟩ := hrules
  rw [hparts] at hconforms
  have hread : Reads o mark (Node.stepsAll n.parts) (some .distance) t []
      (· = { t with numbers := [trim value.text], unit := some (trim unit.text) }) := by
    rw [hparts]
    refine (number (hconforms value (by simp)) hvalue (by decide)).pair ?_
    rintro - rfl
    refine (Reads.unit (hconforms unit (by simp)) hname).mono ?_
    rintro - rfl
    simp [hnumbers]
  refine (ofPlainParts h hr rfl rfl rfl (OpenTerm.endDistance · (parent.any Rule.isShape))
    (fun _ => rfl) hread).mono ?_
  rintro t' ⟨t₁, rfl, hending⟩
  rw [hending, Node.meters?, hparts]
  exact OpenTerm.holds_endDistance hnumbers hunit _ (OpenTerm.toOption_meters _ _)

/-! ### Shapes -/

/-- A part of a shape is fed to it. -/
theorem part (h : n.conforms = true)
    (hpart : n.rule.isCorner = true ∨ n.rule = .distance ∨ n.rule = .angle)
    (hparent : parent.any Rule.isShape = true) (hnumbers : t.numbers = []) (hunit : t.unit = none)
    {d : Draft} (hdraft : t.draft = some d) :
    Reads o mark n.steps parent t [] (OpenTerm.Holds t.subject
      ((Node.feed? d n).map fun d' => { t with draft := some d' })) := by
  rw [Node.feed?]
  rcases hpart with hcorner | hr | hr
  · rw [if_pos hcorner, Option.map_map]
    rcases Rule.isCorner_iff.mp hcorner with hr | hr
    · exact coordinate h hr hnumbers hdraft
    · have hnone : n.coordinate? = none := by
        rw [Node.coordinate?, Node.parts, Node.children_of_token h (by rw [hr]; rfl)]
        rfl
      rw [hnone]
      exact sexagesimal h hr
  · have hwith (x : Float) : t.withDistance (parent.any Rule.isShape) x =
        { t with draft := some (d.addDistance x) } := by
      rw [hparent, OpenTerm.withDistance, if_pos rfl, hdraft]
      rfl
    rw [if_neg (by simp [hr, Rule.isCorner]), if_pos hr, Option.map_map]
    refine (distance h hr hnumbers hunit).mono fun t' ht' => ?_
    rwa [funext hwith] at ht'
  · rw [if_neg (by simp [hr, Rule.isCorner]), if_neg (by simp [hr]), if_pos hr, Option.map_map]
    exact angle h hr hdraft

/-- The parts of a shape are fed to it one after another, up to the first that stands for
nothing. -/
theorem parts {ns : List Node} (hns : ∀ n ∈ ns, n.conforms = true ∧
      (n.rule.isCorner = true ∨ n.rule = .distance ∨ n.rule = .angle))
    (hparent : parent.any Rule.isShape = true) (hnumbers : t.numbers = []) (hunit : t.unit = none)
    {d : Draft} (hdraft : t.draft = some d) :
    Reads o mark (Node.stepsAll ns) parent t [] (OpenTerm.Holds t.subject
      ((ns.foldlM Node.feed? d).map fun d' => { t with draft := some d' })) := by
  induction ns generalizing t d with
  | nil =>
    refine nil ?_
    show t = { t with draft := some d }
    rw [← hdraft]
  | cons n rest ih =>
    obtain ⟨⟨hconforms, hpart⟩, hrest⟩ := List.forall_mem_cons.mp hns
    refine cons (part hconforms hpart hparent hnumbers hunit hdraft) fun t' ht' => ?_
    rw [List.foldlM_cons]
    cases hfeed : Node.feed? d n with
    | none =>
      rw [hfeed] at ht'
      refine failedAll rest (Node.conformsAll_iff.mpr fun p hp => (hrest p hp).1) ?_ ht'
      exact fun p hp => Rule.isMeasure_of_part (hrest p hp).2
    | some d' =>
      rw [hfeed] at ht'
      obtain rfl : t' = { t with draft := some d' } := ht'
      exact ih (t := { t with draft := some d' }) hrest hnumbers hunit rfl

/-- A shape is read as the region that it stands for. -/
theorem shape (h : n.conforms = true) (hr : n.rule.isShape = true) (hnumbers : t.numbers = [])
    (hunit : t.unit = none) (hdraft : t.draft = none) :
    Reads o mark n.steps parent t [] (OpenTerm.Holds t.subject
      ((n.region? o).map fun r => { t with region := some r })) := by
  obtain ⟨kind, hkind⟩ : ∃ kind, shapeOf? n.rule = some kind := Rule.exists_shapeOf? hr
  have htoken : n.rule.isToken = false := Rule.isToken_of_isShape hr
  have hentered : afterEntering o n.rule t = { t with draft := some (.start kind o.vertices) } := by
    rw [afterEntering, hkind]
  have hleft : ∀ t₁, afterLeaving n.rule parent t₁ = t₁.endShape := afterLeaving_shape hr parent
  obtain ⟨hproduces, hconforms⟩ := Node.produces_parts h htoken
  have hparts : ∀ p ∈ n.parts, p.conforms = true ∧
      (p.rule.isCorner = true ∨ p.rule = .distance ∨ p.rule = .angle) := fun p hp =>
    ⟨hconforms p hp, Rule.produces_shape hr hproduces _ (List.mem_map_of_mem hp)⟩
  have hread : Reads o mark (Node.stepsAll n.parts) (some n.rule) (afterEntering o n.rule t) []
      (OpenTerm.Holds t.subject ((n.parts.foldlM Node.feed? (.start kind o.vertices)).map
        fun d => { t with draft := some d })) := by
    rw [hentered]
    have hparent : (some n.rule).any Rule.isShape = true := hr
    exact parts (t := { t with draft := some (.start kind o.vertices) }) hparts hparent hnumbers
      hunit rfl
  refine (ofParts h (Rule.isMeasure_of_isShape hr) htoken hread).mono ?_
  rintro - ⟨t₁, ht₁, rfl⟩
  rw [hleft, Node.region?, Node.draft?_eq_foldlM, hkind, Option.bind_some]
  cases hfed : n.parts.foldlM Node.feed? (.start kind o.vertices) with
  | none =>
    rw [hfed] at ht₁
    exact OpenTerm.Fails.endShape ht₁
  | some d =>
    rw [hfed] at ht₁
    obtain rfl : t₁ = { t with draft := some d } := ht₁
    exact OpenTerm.holds_endShape hdraft

end Reads

end Machine

end Catalogue.Query
