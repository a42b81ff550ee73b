import Catalogue.Proofs.Exchange.RoundTrip
import Catalogue.Proofs.Geometry.Reading
import Catalogue.Proofs.Lists.Parts

/-!
# One pass is enough

A record that came out of a graph is in its own normal form: encoding it and decoding its graph
changes nothing any more. What the normal form drops or rewrites is dropped and rewritten once, and
the box around a box is that box.

* `IsNormalForm.again` — a normal form is its own normal form.
* `IsNormalForm.noneRefused` — no value of a normal form is refused.
* `IsNormalForm.size_graphOf_le` — the graph of the normal form is not larger.
* `encode_decode_fixpoint` — after one pass the exchange is the identity.
-/

namespace Catalogue.Exchange

open Catalogue.Geometry (Coordinate Legible parse_envelope)
open Catalogue.Graph
open Catalogue.Lists
open Catalogue.Record (Product)
open Catalogue.Schema (Entity)

/-! ## The normal form of a normal form -/

/-- The positions of a record's location, if it is a geometry. -/
def locationPositions (r : Record) : List Coordinate :=
  match (locationText? r).map Geometry.parse with
  | some (.ok shape) => shape.positions
  | _ => []

theorem locationPositions_eq {r : Record} {wkt : String} {shape : Geometry}
    (htext : locationText? r = some wkt) (hparse : Geometry.parse wkt = .ok shape) :
    locationPositions r = shape.positions := by
  simp only [locationPositions, htext, Option.map_some, hparse]

namespace IsNormalForm

variable {fallback : String} {r r' : Record} (h : IsNormalForm fallback r r')
include h

/-- The type stays or is dropped. -/
theorem product_eq_some {p : Product} (hp : r'.product = some p) : r.product = some p := by
  rw [h.product_eq, keptProduct?, Option.filter_eq_some_iff] at hp
  exact hp.1

theorem sectionsOf_sublist : (sectionsOf r').Sublist (sectionsOf r) := by
  refine (List.Sublist.refl sections).append ?_
  cases hp : r'.product with
  | none => exact List.nil_sublist _
  | some p => rw [h.product_eq_some hp]

/-- An entity is looked at again when one of its fields has a value. -/
theorem mem_sectionsOf {e : Entity} (he : e ∈ sectionsOf r) {m : Mapping} (hm : m ∈ mappings e)
    {v : Record.Value} (hv : r'.get? m.key = some v) : e ∈ sectionsOf r' := by
  rw [h.field e he m hm, Option.filter_eq_some_iff] at hv
  rw [sectionsOf, List.mem_append] at he ⊢
  refine he.imp id fun he => ?_
  -- the entity is that of the type, which stays because of this value
  obtain ⟨p, hp, rfl⟩ := Option.map_eq_some_iff.mp (Option.mem_toList.mp he)
  have hkept : keptProduct? r = some p := by
    rw [keptProduct?, hp, Option.filter_some, if_pos]
    refine List.any_eq_true.mpr ⟨m, hm, ?_⟩
    rw [hv.1]
    exact hv.2
  rw [h.product_eq, hkept]
  exact List.mem_singleton.mpr rfl

/-- A field has the value that it had, if that comes back. -/
theorem get?_field {e : Entity} (he : e ∈ sectionsOf r') {m : Mapping} (hm : m ∈ mappings e)
    {v : Record.Value} : r'.get? m.key = some v ↔ r.get? m.key = some v ∧ m.keeps v = true := by
  rw [h.field e (h.sectionsOf_sublist.subset he) m hm, Option.filter_eq_some_iff]

/-- The type of a normal form comes back. -/
theorem keptProduct?_eq : keptProduct? r' = r'.product := by
  rw [keptProduct?]
  cases hp : r'.product with
  | none => rfl
  | some p =>
    have hkept := h.product_eq.symm.trans hp
    rw [keptProduct?, Option.filter_eq_some_iff] at hkept
    obtain ⟨m, hm, hany⟩ := List.any_eq_true.mp hkept.2
    obtain ⟨v, hv, hkeeps⟩ := (Option.any_eq_true _ _).mp hany
    have hentity : p.entity ∈ sectionsOf r' := by simp [sectionsOf, hp]
    rw [Option.filter_some, if_pos]
    refine List.any_eq_true.mpr ⟨m, hm, ?_⟩
    rw [(h.get?_field hentity hm).mpr ⟨hv, hkeeps⟩]
    exact hkeeps

/-- The location of a normal form is read as a geometry with the same location. -/
theorem parse_location (hzero : ∀ c ∈ locationPositions r, c.All (· ≠ -0.0))
    (hlegible : ∀ c ∈ locationPositions r, Legible c) {wkt : String}
    (htext : locationText? r' = some wkt) : ∃ shape, Geometry.parse wkt = .ok shape ∧
      r'.get? locationKey = some (.geometry shape.envelope.toGeometry.text) := by
  cases htext' : locationText? r with
  | none =>
    rw [locationText?, h.no_location htext'] at htext
    cases htext
  | some wkt' =>
    obtain ⟨shape, hparse, hget⟩ := h.location wkt' htext'
    rw [locationPositions_eq htext' hparse] at hzero hlegible
    obtain ⟨hparse', henvelope⟩ := parse_envelope hzero hlegible
    rw [locationText?, hget] at htext
    obtain rfl := Option.some.inj htext
    exact ⟨_, hparse', by rw [henvelope, hget]⟩

theorem text?_marking (m : Marking) :
    r'.text? m.key = (r.text? m.key).bind (plainMarking m) := by
  rw [Record.text?, h.marking m]
  cases (r.text? m.key).bind (plainMarking m) <;> rfl

/-- A normal form is its own normal form. -/
theorem again (hzero : ∀ c ∈ locationPositions r, c.All (· ≠ -0.0))
    (hlegible : ∀ c ∈ locationPositions r, Legible c) : IsNormalForm fallback r' r' := by
  constructor
  case sorted => exact h.sorted
  case field =>
    intro e he m hm
    cases hv : r'.get? m.key with
    | none => rfl
    | some v => rw [Option.filter_some, if_pos ((h.get?_field he hm).mp hv).2]
  case location => exact fun wkt => h.parse_location hzero hlegible
  case no_location =>
    intro htext
    cases htext' : locationText? r with
    | none => exact h.no_location htext'
    | some wkt =>
      obtain ⟨shape, -, hget⟩ := h.location wkt htext'
      rw [locationText?, hget] at htext
      cases htext
  case marking =>
    intro m
    rw [h.marking m, h.text?_marking m]
    refine congrArg _ ?_
    cases hplain : (r.text? m.key).bind (plainMarking m) with
    | none => rfl
    | some t =>
      obtain ⟨s, -, hs⟩ := Option.bind_eq_some_iff.mp hplain
      exact (plainMarking_plain hs).symm
  case other =>
    intro key hfield hlocation hmark
    by_cases hother : ∀ e ∈ sectionsOf r, ∀ m ∈ mappings e, m.key ≠ key
    · exact h.other key hother hlocation hmark
    · push Not at hother
      obtain ⟨e, he, m, hm, rfl⟩ := hother
      cases hv : r'.get? m.key with
      | none => rfl
      | some v => exact absurd rfl (hfield e (h.mem_sectionsOf he hm hv) m hm)
  case associations_eq => rfl
  case product_eq => exact h.keptProduct?_eq.symm
  case contentType_eq =>
    rw [h.contentType_eq, h.keptProduct?_eq, h.product_eq]

end IsNormalForm

/-- No value of a normal form is refused. -/
theorem IsNormalForm.noneRefused {fallback : String} {r r' : Record}
    (h : IsNormalForm fallback r r') (hnone : NoneRefused r (sectionsOf r))
    (hzero : ∀ c ∈ locationPositions r, c.All (· ≠ -0.0))
    (hlegible : ∀ c ∈ locationPositions r, Legible c) : NoneRefused r' (sectionsOf r') := by
  intro e he f hf err
  rw [findings, List.mem_append] at hf
  rcases hf with hf | hf
  -- the value of a field was encoded before
  · obtain ⟨m, hm, hfield⟩ := List.mem_filterMap.mp hf
    obtain ⟨v, hv, rfl⟩ := Option.map_eq_some_iff.mp hfield
    refine hnone e (h.sectionsOf_sublist.subset he) (m.name, encodeField e m v) ?_ err
    refine List.mem_append_left _ (List.mem_filterMap.mpr ⟨m, hm, ?_⟩)
    rw [((h.get?_field he hm).mp hv).1]
    rfl
  -- the location is a geometry, if it is a text at all
  · split at hf
    · obtain ⟨f, hfinding, rfl⟩ := List.mem_map.mp hf
      rw [Option.mem_toList] at hfinding
      cases htext : locationText? r' with
      | some wkt =>
        obtain ⟨shape, hparse, -⟩ := h.parse_location hzero hlegible htext
        rw [locationFinding?_of_text htext] at hfinding
        obtain rfl := Option.some.inj hfinding
        rw [boxOf, hparse]
        rintro ⟨⟩
      | none =>
        rw [locationFinding?, h.again hzero hlegible |>.no_location htext] at hfinding
        cases hfinding
    · cases hf

/-! ## The size of a graph -/

theorem size_graphOf (r : Record) : (graphOf r).nodes.size = 1 +
    (((sectionsOf r).map fun e => Branch.sizes (sectionBranches (sectionOf r e))).sum +
      Branch.sizes (sectionBranches (.security, markingLeaves r)) +
      Branch.sizes (associationBranches r.associations)) := by
  rw [graphOf, assemble_eq, size_nodes_plantAll, branches, sizes_append, sizes_flatMap]
  simp [Graph.ofRoot, Graph.push, Function.comp_def]

namespace IsNormalForm

variable {fallback : String} {r r' : Record} (h : IsNormalForm fallback r r')
include h

/-- A section of a normal form has no more leaves. -/
theorem length_found_le {e : Entity} (he : e ∈ sectionsOf r') :
    (found (findings r' e)).length ≤ (found (findings r e)).length := by
  have hfields : (found (fieldFindings r' e)).length ≤ (found (fieldFindings r e)).length := by
    rw [found, found, fieldFindings, fieldFindings, List.filterMap_filterMap,
      List.filterMap_filterMap]
    refine length_filterMap_le_length fun m hm hsome => ?_
    cases hv : r'.get? m.key with
    | none => simp [hv] at hsome
    | some v =>
      rw [((h.get?_field he hm).mp hv).1, ← hv]
      exact hsome
  have hlocation : (found ((locationFinding? r').toList.map (boxName, ·))).length ≤
      (found ((locationFinding? r).toList.map (boxName, ·))).length := by
    cases htext : locationText? r with
    | none =>
      rw [locationFinding?, h.no_location htext]
      exact Nat.zero_le _
    | some wkt =>
      obtain ⟨shape, hparse, -⟩ := h.location wkt htext
      rw [locationFinding?_of_text htext, boxOf, hparse]
      refine (List.length_filterMap_le _ _).trans ?_
      cases locationFinding? r' <;> simp [found, Finding.leaf?]
  rw [findings, findings, found, found, List.filterMap_append, List.filterMap_append,
    List.length_append, List.length_append]
  refine Nat.add_le_add hfields ?_
  split
  · exact hlocation
  · exact Nat.le_refl _

theorem length_markingLeaves_le :
    (markingLeaves r').length ≤ (markingLeaves r).length := by
  refine length_filterMap_le_length fun m _ hsome => ?_
  rw [h.text?_marking] at hsome
  cases hs : r.text? m.key with
  | none => simp [hs] at hsome
  | some s => rfl

/-- The graph of a normal form is not larger. -/
theorem size_graphOf_le : (graphOf r').nodes.size ≤ (graphOf r).nodes.size := by
  have hsections : ((sectionsOf r').map fun e =>
        Branch.sizes (sectionBranches (sectionOf r' e))).sum ≤
      ((sectionsOf r).map fun e => Branch.sizes (sectionBranches (sectionOf r e))).sum :=
    (List.sum_le_sum fun e he => sizes_sectionBranches_le (h.length_found_le he)).trans
      ((h.sectionsOf_sublist.map _).sum_le_sum fun _ _ => Nat.zero_le _)
  have hmarkings := sizes_sectionBranches_le (s := (.security, markingLeaves r'))
    (t := (.security, markingLeaves r)) h.length_markingLeaves_le
  rw [size_graphOf, size_graphOf, h.associations_eq]
  omega

end IsNormalForm

/-! ## One pass -/

/-- A graph that is decoded has no more nodes than there are numbers. -/
theorem size_le_of_decode {fallback : String} {mode : Narrowing} {g : Graph} {r : Record}
    (h : (decode fallback mode g).result = .ok r) : g.nodes.size ≤ 2 ^ 32 := by
  cases htopology : g.topology with
  | error e =>
    simp only [decode, htopology] at h
    cases h
  | ok t => exact (valid_of_topology_eq_ok htopology).size_le

/--
After one pass the exchange is the identity, on the record and on the graph. The graph of a record
is decoded when it has no more nodes than there are numbers. The record that comes out is encoded
again, its graph is decoded to the same record, and encoding that gives the same graph. The location
must have no negative zero, and numbers that are read back from their texts.
-/
theorem encode_decode_fixpoint (fallback : String) (mode mode' : Narrowing) (r : Record)
    (g : Graph) (h : (encode r).result = .ok g)
    (hzero : ∀ c ∈ locationPositions r, c.All (· ≠ -0.0))
    (hlegible : ∀ c ∈ locationPositions r, Legible c) :
    ((∃ r₁, (decode fallback mode g).result = .ok r₁) ↔ g.nodes.size ≤ 2 ^ 32) ∧
      ∀ r₁, (decode fallback mode g).result = .ok r₁ →
        ∃ g₁, (encode r₁).result = .ok g₁ ∧ (decode fallback mode' g₁).result = .ok r₁ ∧
          ((decode fallback mode' g₁).result.bind fun r₂ => (encode r₂).result) = .ok g₁ := by
  refine ⟨⟨fun ⟨r₁, hdecode⟩ => size_le_of_decode hdecode, fun hsize =>
    ⟨_, (decode_of_encode fallback mode h hsize).1⟩⟩, fun r₁ hdecode => ?_⟩
  have hsize := size_le_of_decode hdecode
  obtain ⟨hdecode', hnone⟩ := decode_of_encode fallback mode h hsize
  obtain rfl := Except.ok.inj (hdecode'.symm.trans hdecode)
  have hnormal := isNormalForm_finish fallback mode hnone
  have hencode := encode_of_noneRefused (hnormal.noneRefused hnone hzero hlegible)
  obtain ⟨rfl, -⟩ := encode_ok h
  obtain ⟨hagain, hnone'⟩ :=
    decode_of_encode fallback mode' hencode (hnormal.size_graphOf_le.trans hsize)
  -- both records are the normal form of the first one
  have hsame := (isNormalForm_finish fallback mode' hnone').unique (hnormal.again hzero hlegible)
  rw [hsame] at hagain
  refine ⟨_, hencode, hagain, ?_⟩
  rw [hagain]
  exact hencode

/-- A located image with a policy that has a token twice and an associated record. -/
def survey : Record where
  attributes := [("isr.cloud-cover", .integer 40), ("location", .text "linestring (1 2.5, -3 4)"),
    ("security.policy", .text "a  b a")]
  associations := ["c"]
  product := some .imagery

/-- The image after one pass: it has a content type, its location is the box around it, and its
policy has every token once. -/
def surveyed : Record where
  attributes := [("isr.cloud-cover", .integer 40),
    ("location", .geometry "POLYGON((-3 4, 1 4, 1 2.5, -3 2.5, -3 4))"),
    ("security.policy", .text "a b")]
  associations := ["c"]
  product := some .imagery
  contentType := some "IMAGERY"

/-- The graph of the image after one pass. -/
def surveyedGraph : Graph :=
  assemble [(.coverage, [(boxName, .rectangle ⟨⟨4.0, -3.0⟩, ⟨2.5, 1.0⟩⟩)]),
    (.imagery, [("cloudCoverPercentage", .short 40)]),
    (.security, [(Marking.policy.name, .text "a b")])] ["c"]

theorem encode_decode_fixpoint_survey :
    (encode survey).result = .ok (graphOf survey) ∧ (graphOf survey).nodes.size = 11 ∧
      (∀ c ∈ locationPositions survey, c.All (· ≠ -0.0)) ∧
      (∀ c ∈ locationPositions survey, Legible c) ∧
      (decode "REPORT" .legacy (graphOf survey)).result = .ok surveyed ∧
      (encode surveyed).result = .ok surveyedGraph ∧
      (decode "REPORT" .intersection surveyedGraph).result = .ok surveyed ∧
      ((decode "REPORT" .intersection surveyedGraph).result.bind fun r₂ => (encode r₂).result) =
        .ok surveyedGraph := by
  have hencode : (encode survey).result = .ok (graphOf survey) := by decide +kernel
  have hsize : (graphOf survey).nodes.size = 11 := by decide +kernel
  have hzero : ∀ c ∈ locationPositions survey, c.All (· ≠ -0.0) := by decide +kernel
  have hlegible : ∀ c ∈ locationPositions survey, Legible c := by decide +kernel
  have hdecode : (decode "REPORT" .legacy (graphOf survey)).result = .ok surveyed := by
    decide +kernel
  have hgraph : (encode surveyed).result = .ok surveyedGraph := by decide +kernel
  obtain ⟨-, hfixpoint⟩ :=
    encode_decode_fixpoint "REPORT" .legacy .intersection survey _ hencode hzero hlegible
  obtain ⟨g₁, hencode', hdecode', hagain⟩ := hfixpoint surveyed hdecode
  obtain rfl := Except.ok.inj (hgraph.symm.trans hencode')
  exact ⟨hencode, hsize, hzero, hlegible, hdecode, hgraph, hdecode', hagain⟩

end Catalogue.Exchange
