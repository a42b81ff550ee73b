import Catalogue.Proofs.Exchange.Reencoding
import Catalogue.Proofs.Lists.Decisive

/-!
# The places of a record's values

A record has its values in places: those of the fields of the entities that are looked at for it,
that of the location, and those of the markings. Fields and location are gone through in one order,
and the first value that is refused ends encoding. Refused are integers that do not fit the kind of
their field, and locations that are no geometry.

* `Place` — where a value goes in a graph; `scanned` — the places in their order.
* `findings_eq` — what becomes of the values of a record, place by place.
* `encode_error` — a record is refused for the first of its values that is, and for nothing else.
-/

namespace Catalogue.Exchange

open Catalogue.Lists
open Catalogue.Schema (Entity Kind)

/-! ## Places -/

/-- Where a value of a record goes in a graph. -/
inductive Place where
  | field (e : Entity) (m : Mapping)
  | location
  | marking (m : Marking)
  deriving DecidableEq

namespace Place

/-- The key of the value. -/
def key : Place → String
  | field _ m => m.key
  | location => locationKey
  | marking m => m.key

/-- The entity that has the leaf. -/
def entity : Place → Entity
  | field e _ => e
  | location => .coverage
  | marking _ => .security

/-- The name of the leaf. -/
def name : Place → String
  | field _ m => m.name
  | location => boxName
  | marking m => m.name

/-- What becomes of the value that a record has at a place. -/
def finding? (r : Record) : Place → Option Finding
  | field e m => (r.get? m.key).map (encodeField e m)
  | location => locationFinding? r
  | marking m => (r.text? m.key).map fun s => .leaf (.text s)

/-- The value that a record has at a place is refused. -/
inductive Refuses (r : Record) : Place → ExchangeError → Prop
  | outOfRange {e m n least greatest} : r.get? m.key = some (.integer n) →
    m.kind.bounds? = some (least, greatest) → ¬ (least ≤ n.toInt ∧ n.toInt ≤ greatest) →
    Refuses r (.field e m) (.outOfRange m.key n m.kind)
  | geometry {wkt e} : r.get? locationKey = some (.text wkt) ∨
    r.get? locationKey = some (.geometry wkt) → Geometry.parse wkt = .error e →
    Refuses r .location (.geometry e)

end Place

/-- The fields of an entity. -/
def fieldsOf (e : Entity) : List Place := (mappings e).map (.field e)

/-- The fields and the location of a record, in the order in which they are looked at. -/
def scanned (r : Record) : List Place :=
  [Entity.card, .file, .stream, .approval, .relatedFile, .part, .common, .coverage].flatMap
    fieldsOf ++ .location :: fieldsOf .exploitationInfo ++
      (r.product.map fun p => fieldsOf p.entity).getD []

/-! ## Findings -/

/-- What becomes of a value, with the name of its leaf. -/
def Place.named? (r : Record) (p : Place) : Option (String × Finding) :=
  (p.finding? r).map (p.name, ·)

/-- The fields of an entity; a coverage also has the location. -/
def placesOf (e : Entity) : List Place := fieldsOf e ++ if e = .coverage then [.location] else []

theorem flatMap_placesOf (r : Record) : (sectionsOf r).flatMap placesOf = scanned r := by
  rw [sectionsOf, List.flatMap_append, scanned]
  refine congrArg₂ _ rfl ?_
  cases r.product with
  | none => rfl
  | some p => cases p <;> rfl

theorem findings_eq (r : Record) (e : Entity) :
    findings r e = (placesOf e).filterMap (Place.named? r) := by
  rw [findings, placesOf, List.filterMap_append, fieldsOf, List.filterMap_map]
  refine congrArg₂ _ (List.filterMap_congr fun m _ => ?_) ?_
  · exact (Option.map_map _ _ _).symm
  · split
    · cases h : locationFinding? r <;> simp [Place.named?, Place.finding?, Place.name, h]
    · rfl

/-- What is made of the findings of a record is made of them place by place. -/
theorem filterMap_findings {β : Type} (f : Finding → Option β) (r : Record) :
    ((sectionsOf r).flatMap (findings r)).filterMap (fun x => f x.2) =
      (scanned r).filterMap fun p => (p.finding? r).bind f := by
  have hplaces : (sectionsOf r).flatMap (findings r) =
      ((sectionsOf r).flatMap placesOf).filterMap (Place.named? r) := by
    rw [List.filterMap_flatMap]
    exact List.flatMap_congr fun e _ => findings_eq r e
  rw [hplaces, flatMap_placesOf, List.filterMap_filterMap]
  refine List.filterMap_congr fun p _ => ?_
  rw [Place.named?]
  cases p.finding? r <;> rfl

/-! ## Refused values -/

theorem holds_eq_false_iff {k : Kind} {n : Int64} : k.holds n = false ↔
    ∃ least greatest, k.bounds? = some (least, greatest) ∧
      ¬ (least ≤ n.toInt ∧ n.toInt ≤ greatest) := by
  unfold Kind.holds
  rcases k.bounds? with _ | ⟨least, greatest⟩ <;> simp

/-- The value of a field is refused when it is an integer that does not fit. -/
theorem refusal?_encodeField_iff {entity : Entity} {m : Mapping} {v : Record.Value}
    {e : ExchangeError} : (encodeField entity m v).refusal? = some e ↔
      ∃ n, v = .integer n ∧ m.kind.holds n = false ∧ .outOfRange m.key n m.kind = e := by
  rw [refusal?_encodeField]
  cases v with
  | integer n => cases hholds : m.kind.holds n <;> simp [misfit?, misfitError, hholds]
  | _ => simp [misfit?]

/-- The text of a location is refused when it is no geometry. -/
theorem refusal?_boxOf_iff {wkt : String} {e : ExchangeError} :
    (boxOf wkt).refusal? = some e ↔ ∃ err, Geometry.parse wkt = .error err ∧ .geometry err = e := by
  rw [boxOf]
  cases Geometry.parse wkt <;> simp [Finding.refusal?]

theorem Place.refusal?_eq_some_iff {r : Record} {p : Place} {e : ExchangeError} :
    (p.finding? r).bind Finding.refusal? = some e ↔ p.Refuses r e := by
  cases p with
  | field entity m =>
    have hfinding : ((finding? r (.field entity m)).bind Finding.refusal? = some e) ↔
        ∃ v, r.get? m.key = some v ∧ (encodeField entity m v).refusal? = some e := by
      rw [finding?]
      cases r.get? m.key <;> simp
    rw [hfinding]
    constructor
    · rintro ⟨v, hv, hrefused⟩
      obtain ⟨n, rfl, hn, rfl⟩ := refusal?_encodeField_iff.mp hrefused
      obtain ⟨least, greatest, hbounds, hout⟩ := holds_eq_false_iff.mp hn
      exact .outOfRange hv hbounds hout
    · rintro (⟨hv, hbounds, hout⟩ | _)
      exact ⟨_, hv, refusal?_encodeField_iff.mpr
        ⟨_, rfl, holds_eq_false_iff.mpr ⟨_, _, hbounds, hout⟩, rfl⟩⟩
  | location =>
    rw [finding?, locationFinding?]
    constructor
    · intro h
      obtain ⟨f, hf, hrefused⟩ := Option.bind_eq_some_iff.mp h
      obtain ⟨v, hv, rfl⟩ := Option.map_eq_some_iff.mp hf
      cases v with
      | text wkt =>
        obtain ⟨err, hparse, rfl⟩ := refusal?_boxOf_iff.mp hrefused
        exact .geometry (.inl hv) hparse
      | geometry wkt =>
        obtain ⟨err, hparse, rfl⟩ := refusal?_boxOf_iff.mp hrefused
        exact .geometry (.inr hv) hparse
      | _ => cases hrefused
    · rintro (_ | ⟨hv | hv, hparse⟩)
      all_goals
        rw [hv]
        exact refusal?_boxOf_iff.mpr ⟨_, hparse, rfl⟩
  | marking m =>
    rw [finding?]
    constructor
    · intro h
      cases hs : r.text? m.key <;> rw [hs] at h <;> cases h
    · rintro ⟨⟩

/-! ## Refused records -/

/-- The result of encoding: the first refusal in the order of the places, or the graph. -/
theorem encode_result_scanned (r : Record) :
    (encode r).result =
      match (scanned r).findSome? fun p => (p.finding? r).bind Finding.refusal? with
      | none => .ok (graphOf r)
      | some e => .error e := by
  have hrefusals : refusals ((sectionsOf r).flatMap (findings r)) =
      (scanned r).filterMap fun p => (p.finding? r).bind Finding.refusal? :=
    filterMap_findings Finding.refusal? r
  rw [encode_result, hrefusals, ← List.head?_filterMap]
  cases (scanned r).filterMap fun p => (p.finding? r).bind Finding.refusal? <;> rfl

/-- A record without a refused value is encoded. -/
theorem exists_encode_iff (r : Record) :
    (∃ g, (encode r).result = .ok g) ↔ ∀ p ∈ scanned r, ∀ e, ¬ p.Refuses r e := by
  rw [← findSome?_eq_none_iff_forall fun _ _ _ => Place.refusal?_eq_some_iff,
    encode_result_scanned]
  cases (scanned r).findSome? fun p => (p.finding? r).bind Finding.refusal? <;> simp

/--
A record is refused for the first value in the order of its places that is refused, with the error
for this value, and it is encoded when no value is refused. Refused are only integers of fields that
do not fit and locations that are no geometry.
-/
theorem encode_error (r : Record) :
    (∀ e, (encode r).result = .error e ↔ FirstOf (Place.Refuses r) (scanned r) e) ∧
    ((∃ g, (encode r).result = .ok g) ↔ ∀ p ∈ scanned r, ∀ e, ¬ p.Refuses r e) := by
  refine ⟨fun e => ?_, exists_encode_iff r⟩
  rw [← findSome?_eq_some_iff_firstOf fun _ _ _ => Place.refusal?_eq_some_iff,
    encode_result_scanned]
  cases (scanned r).findSome? fun p => (p.finding? r).bind Finding.refusal? <;> simp

end Catalogue.Exchange
