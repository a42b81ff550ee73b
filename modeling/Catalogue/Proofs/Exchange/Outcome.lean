import Catalogue.Proofs.Exchange.Association
import Catalogue.Proofs.Exchange.Reencoding
import Catalogue.Proofs.Lists.Decisive

/-!
# What decides a decoded record

Outside associations a leaf has one nearest entity, and with its name this tells what it is read
as: the box of a coverage, the value of a field, or nothing. The first box that cannot be read ends
decoding; nothing else does. Under a key stands what the last leaf that writes it has, and the type
is that of the last entity of a type.

* `Stop.Writes` — a leaf writes a value under a key; `Stop.IsMalformed` — its box cannot be read.
* `decode_error` — decoding fails for an invalid graph or for the first malformed box.
* `decode_last` — the values and the type of a decoded record are the last ones.
-/

namespace Catalogue.Exchange

open Catalogue.Geometry (Box GeometryError)
open Catalogue.Graph
open Catalogue.Lists
open Catalogue.Record (Product)
open Catalogue.Schema (Entity Kind)

/-! ## Values of leaves -/

/-- The value of a leaf is one that a field takes, and it stands for this value of a record. -/
inductive Mapping.Reads (m : Mapping) : Graph.Value → Record.Value → Prop
  | text {s} : m.kind = .text → m.table.all (·.contains s) = true → Reads m (.text s) (.text s)
  | integer {v n} : m.kind.isInteger = true → v.integer? = some n → Reads m v (.integer n)
  | float {v x} : m.kind = .double → v.float? = some x → Reads m v (.float x)
  | bool {b} : m.kind = .bool → Reads m (.bool b) (.bool b)
  | date {s t} : m.kind = .date → s.instant? = some t → Reads m (.date s) (.date t)

/-- The value of a leaf is a box, or the text of a geometry with this box around it. -/
inductive BoxOf : Graph.Value → Box → Prop
  | rectangle (b : Box) : BoxOf (.rectangle b) b
  | text {wkt g} : Geometry.parse wkt = .ok g → BoxOf (.text wkt) g.envelope

theorem getD_map_eq_write {α : Type} {a : Option α} {f : α → Reading} {x : Journal.Entry}
    {key : String} {w : Record.Value} :
    (a.map f).getD (.skipped x) = .write key w ↔ ∃ b, a = some b ∧ f b = .write key w := by
  cases a <;> simp

/-- A field writes the values that it reads under its own key. -/
theorem decodeField_eq_write {e : Entity} {m : Mapping} {v : Graph.Value} {key : String}
    {w : Record.Value} : decodeField e m v = .write key w ↔ m.key = key ∧ m.Reads v w := by
  constructor
  · intro h
    rw [decodeField] at h
    cases hkind : m.kind <;> simp only [hkind, getD_map_eq_write] at h
    case text =>
      obtain ⟨s, hs, h⟩ := h
      cases v <;> cases hs
      rw [readText] at h
      split at h
      · next htable =>
        cases h
        exact ⟨rfl, .text hkind (by rw [htable]; rfl)⟩
      · next t htable =>
        split at h
        · next hmem =>
          cases h
          exact ⟨rfl, .text hkind (by rw [htable]; exact hmem)⟩
        · cases h
    case double =>
      obtain ⟨x, hx, h⟩ := h
      cases h
      exact ⟨rfl, .float hkind hx⟩
    case bool =>
      obtain ⟨b, hb, h⟩ := h
      cases h
      cases v <;> cases hb
      exact ⟨rfl, .bool hkind⟩
    case date =>
      obtain ⟨s, hs, h⟩ := h
      cases v <;> cases hs
      rw [readDate] at h
      split at h
      · next t ht =>
        cases h
        exact ⟨rfl, .date hkind ht⟩
      · cases h
    case rectangle => cases h
    all_goals
      obtain ⟨n, hn, h⟩ := h
      cases h
      exact ⟨rfl, .integer (by rw [hkind]; rfl) hn⟩
  · rintro ⟨rfl, h⟩
    cases h with
    | text hkind htable =>
      simp only [decodeField, hkind, Graph.Value.text?, Option.map_some, Option.getD_some, readText]
      cases hm : m.table with
      | none => rfl
      | some t =>
        rw [hm] at htable
        exact if_pos htable
    | integer hkind hv =>
      rw [decodeField]
      cases hk : m.kind <;> rw [hk] at hkind <;> first | exact absurd hkind (by decide) | simp [hv]
    | float hkind hv => simp [decodeField, hkind, hv]
    | bool hkind => simp [decodeField, hkind, Graph.Value.bool?]
    | date hkind ht => simp [decodeField, hkind, Graph.Value.date?, readDate, ht]

theorem decodeField_ne_refused (e : Entity) (m : Mapping) (v : Graph.Value) (err : ExchangeError) :
    decodeField e m v ≠ .refused err := by
  rcases decodeField_eq e m v with ⟨w, hw⟩ | ⟨entry, hentry⟩ <;> simp [*]

/-- The box of a coverage is written as the location. -/
theorem readBox_eq_write {v : Graph.Value} {key : String} {w : Record.Value} :
    readBox v = .write key w ↔
      locationKey = key ∧ ∃ b, BoxOf v b ∧ w = .geometry b.toGeometry.text := by
  constructor
  · intro h
    cases v with
    | rectangle b =>
      cases h
      exact ⟨rfl, b, .rectangle b, rfl⟩
    | text wkt =>
      rw [readBox] at h
      split at h
      · next g hg =>
        cases h
        exact ⟨rfl, _, .text hg, rfl⟩
      · cases h
    | _ => cases h
  · rintro ⟨rfl, b, hb, rfl⟩
    cases hb with
    | rectangle => rfl
    | text hg =>
      rw [readBox, hg]
      rfl

theorem readBox_eq_refused {v : Graph.Value} {err : ExchangeError} :
    readBox v = .refused err ↔
      ∃ wkt e, v = .text wkt ∧ Geometry.parse wkt = .error e ∧ .geometry e = err := by
  constructor
  · intro h
    cases v with
    | text wkt =>
      rw [readBox] at h
      split at h
      · cases h
      · next e he =>
        cases h
        exact ⟨wkt, e, rfl, he, rfl⟩
    | _ => cases h
  · rintro ⟨wkt, e, rfl, he, rfl⟩
    rw [readBox, he]

/-! ## What leaves are read as -/

/-- A leaf is read as the box of a coverage or as the value of a field. -/
inductive ReadAs (e : Entity) (name : String) (v : Graph.Value) : Reading → Prop
  | box : e = .coverage → name = boxName → ReadAs e name v (readBox v)
  | field {m} : m ∈ mappings e → m.name = name → ReadAs e name v (decodeField e m v)

/-- What a leaf writes, or is refused for, is what it is read as outside associations. -/
theorem contribution_eq_iff {scope : Scope} {name : String} {v : Graph.Value} {r : Reading}
    (hr : r.write?.isSome ∨ r.refusal?.isSome) :
    contribution scope name v = r ↔
      scope.inAssociation = false ∧ ∃ e : Entity, scope.entity = some e.name ∧
        ReadAs e name v r := by
  constructor
  · intro h
    have hskipped : ∀ x, Reading.skipped x ≠ r := by
      rintro x rfl
      simp [Reading.write?, Reading.refusal?] at hr
    have hmark : ∀ m s, Reading.mark m s ≠ r := by
      rintro m s rfl
      simp [Reading.write?, Reading.refusal?] at hr
    have hcontributes := contributes_contribution scope name v
    rw [h] at hcontributes
    have houtside : scope.inAssociation = false := by
      by_contra hinside
      obtain ⟨hwrite, -, hrefusal⟩ := hcontributes.inside (Bool.eq_true_of_not_eq_false hinside)
      simp [hwrite, hrefusal] at hr
    refine ⟨houtside, ?_⟩
    simp only [contribution, ofName?_getD, houtside, Bool.false_eq_true, if_false] at h
    split at h
    · exact absurd h (hskipped _)
    · next e he =>
      obtain ⟨name', hname', he⟩ := Option.bind_eq_some_iff.mp he
      rw [Entity.ofName?_eq_some_iff] at he
      subst he
      refine ⟨e, hname', ?_⟩
      split at h
      · rw [readMarking] at h
        split at h
        · exact absurd h (hskipped _)
        · split at h
          · exact absurd h (hmark _ _)
          · exact absurd h (hskipped _)
      · split at h
        · next hbox =>
          subst h
          exact .box hbox.1 hbox.2
        · split at h
          · next m hm =>
            subst h
            exact .field (List.mem_of_find?_eq_some hm) (by simpa using List.find?_some hm)
          · exact absurd h (hskipped _)
  · rintro ⟨houtside, e, hentity, hreads⟩
    have hname : Entity.ofName? (scope.entity.getD "") = some e := by
      rw [hentity]
      exact Entity.ofName?_name e
    simp only [contribution, hname, houtside, Bool.false_eq_true, if_false]
    cases hreads with
    | box he hbox => subst he; simp [hbox, Entity.holdsMarkings]
    | field hm hfield =>
      obtain ⟨hfind, hne, hmarkings, -⟩ := mapping?_name e _ hm
      subst hfield
      simp [hmarkings, hne, hfind]

/-! ## Stops that decide -/

namespace Stop

/-- A leaf whose nearest entity is this one, outside associations. -/
structure IsLeafOf (s : Stop) (e : Entity) : Prop where
  kind_eq : s.node.kind = .leaf
  outside : s.scope.inAssociation = false
  entity_eq : s.scope.entity = some e.name

/-- A leaf writes a value under a key: as the value of a field, or as the box of a coverage. -/
inductive Writes (s : Stop) : String → Record.Value → Prop
  | field {e m w v} : s.IsLeafOf e → m ∈ mappings e → m.name = s.node.name →
    s.node.value = some w → m.Reads w v → Writes s m.key v
  | location {w b} : s.IsLeafOf .coverage → s.node.name = boxName → s.node.value = some w →
    BoxOf w b → Writes s locationKey (.geometry b.toGeometry.text)

/-- A leaf that is the box of a coverage has a text that is no geometry. -/
structure IsMalformed (s : Stop) (e : GeometryError) : Prop where
  isLeafOf : s.IsLeafOf .coverage
  name_eq : s.node.name = boxName
  unreadable : ∃ wkt, s.node.value = some (.text wkt) ∧ Geometry.parse wkt = .error e

/-- An entity that has a type is entered outside associations. -/
structure Sets (s : Stop) (p : Product) : Prop where
  kind_eq : s.node.kind = .entity
  outside : s.scope.inAssociation = false
  name_eq : s.node.name = p.entity.name

/-- What a stop writes under a key. -/
def written? (key : String) (s : Stop) : Option Record.Value :=
  (s.visit.reading?.bind Reading.write?).bind fun w => if w.1 = key then some w.2 else none

/-- What a stop is refused for. -/
def refusal? (s : Stop) : Option ExchangeError := s.visit.reading?.bind Reading.refusal?

/-- A leaf writes, or is refused for, what its value is read as. -/
theorem reading?_eq_some_iff {s : Stop} {r : Reading}
    (hr : r.write?.isSome ∨ r.refusal?.isSome) :
    s.visit.reading? = some r ↔
      ∃ e, s.IsLeafOf e ∧ ∃ v, s.node.value = some v ∧ ReadAs e s.node.name v r := by
  obtain ⟨n, scope⟩ := s
  by_cases hkind : n.kind = .leaf
  case neg =>
    have hvisit : Stop.visit ⟨n, scope⟩ = .entity n.name (scope.enter n.name) := by
      cases hn : n.kind <;> simp_all [Stop.visit]
    rw [hvisit]
    constructor
    · rintro ⟨⟩
    · rintro ⟨e, he, -⟩
      exact absurd he.kind_eq hkind
  case pos =>
    have hvisit : Stop.visit ⟨n, scope⟩ = .leaf n scope := by simp [Stop.visit, hkind]
    rw [hvisit, Visit.reading?, Option.map_eq_some_iff]
    constructor
    · rintro ⟨v, hv, hread⟩
      obtain ⟨houtside, e, hentity, hreadAs⟩ := (contribution_eq_iff hr).mp hread
      exact ⟨e, ⟨hkind, houtside, hentity⟩, v, hv, hreadAs⟩
    · rintro ⟨e, ⟨-, houtside, hentity⟩, v, hv, hreadAs⟩
      exact ⟨v, hv, (contribution_eq_iff hr).mpr ⟨houtside, e, hentity, hreadAs⟩⟩

theorem reading?_eq_write_iff {s : Stop} {key : String} {v : Record.Value} :
    s.visit.reading? = some (.write key v) ↔ s.Writes key v := by
  rw [reading?_eq_some_iff (.inl rfl)]
  constructor
  · rintro ⟨e, hleaf, w, hw, hread⟩
    generalize hr : Reading.write key v = r at hread
    cases hread with
    | box he hname =>
      obtain ⟨rfl, b, hb, rfl⟩ := readBox_eq_write.mp hr.symm
      exact .location (he ▸ hleaf) hname hw hb
    | field hm hname =>
      obtain ⟨rfl, hreads⟩ := decodeField_eq_write.mp hr.symm
      exact .field hleaf hm hname hw hreads
  · intro h
    cases h with
    | field hleaf hm hname hw hreads =>
      refine ⟨_, hleaf, _, hw, ?_⟩
      rw [← decodeField_eq_write.mpr ⟨rfl, hreads⟩]
      exact .field hm hname
    | location hleaf hname hw hb =>
      refine ⟨_, hleaf, _, hw, ?_⟩
      rw [← readBox_eq_write.mpr ⟨rfl, _, hb, rfl⟩]
      exact .box rfl hname

theorem written?_eq_some_iff {s : Stop} {key : String} {v : Record.Value} :
    s.written? key = some v ↔ s.Writes key v := by
  rw [← reading?_eq_write_iff]
  simp only [written?, Option.bind_eq_some_iff]
  constructor
  · rintro ⟨w, ⟨r, hr, hwrite⟩, hkey⟩
    rw [Option.ite_none_right_eq_some] at hkey
    obtain ⟨rfl, hv⟩ := hkey
    cases hv
    rw [hr, eq_write_of_write? hwrite]
  · intro h
    exact ⟨(key, v), ⟨_, h, rfl⟩, if_pos rfl⟩

theorem refusal?_eq_some_iff {s : Stop} {err : ExchangeError} :
    s.refusal? = some err ↔ ∃ e, s.IsMalformed e ∧ .geometry e = err := by
  have hreading : s.refusal? = some err ↔ s.visit.reading? = some (.refused err) := by
    rw [refusal?, Option.bind_eq_some_iff]
    constructor
    · rintro ⟨r, hr, hrefusal⟩
      cases r <;> cases hrefusal
      exact hr
    · exact fun h => ⟨_, h, rfl⟩
  rw [hreading, reading?_eq_some_iff (.inr rfl)]
  constructor
  · rintro ⟨e, hleaf, w, hw, hread⟩
    generalize hr : Reading.refused err = r at hread
    cases hread with
    | box he hname =>
      obtain ⟨wkt, err', rfl, hparse, rfl⟩ := readBox_eq_refused.mp hr.symm
      exact ⟨err', ⟨he ▸ hleaf, hname, wkt, hw, hparse⟩, rfl⟩
    | field hm hname => exact absurd hr.symm (decodeField_ne_refused _ _ _ _)
  · rintro ⟨e, ⟨hleaf, hname, wkt, hw, hparse⟩, rfl⟩
    refine ⟨_, hleaf, _, hw, ?_⟩
    rw [← readBox_eq_refused.mpr ⟨wkt, e, rfl, hparse, rfl⟩]
    exact .box rfl hname

theorem product?_eq_some_iff {s : Stop} (hs : s.isStep = true) {p : Product} :
    s.visit.product? = some p ↔ s.Sets p := by
  obtain ⟨n, scope⟩ := s
  by_cases hkind : n.kind = .entity
  case neg =>
    have hleaf : n.kind = .leaf := by simpa [isStep, hkind] using hs
    have hvisit : Stop.visit ⟨n, scope⟩ = .leaf n scope := by simp [Stop.visit, hleaf]
    rw [hvisit]
    refine ⟨?_, fun h => absurd h.kind_eq hkind⟩
    rintro ⟨⟩
  case pos =>
    have hvisit : Stop.visit ⟨n, scope⟩ = .entity n.name (scope.enter n.name) := by
      simp [Stop.visit, hkind]
    rw [hvisit, Visit.product?, Option.ite_none_left_eq_some, Option.bind_eq_some_iff, Scope.enter,
      Bool.or_eq_true, not_or]
    constructor
    · rintro ⟨⟨houtside, -⟩, e, he, hp⟩
      rw [Product.ofEntity?] at hp
      have hfound := List.find?_some hp
      obtain rfl : p.entity = e := beq_iff_eq.mp hfound
      exact ⟨hkind, Bool.eq_false_iff.mpr houtside, Entity.ofName?_eq_some_iff.mp he⟩
    · rintro ⟨-, houtside, hname⟩
      have he : Entity.ofName? n.name = some p.entity :=
        Entity.ofName?_eq_some_iff.mpr hname
      refine ⟨⟨Bool.eq_false_iff.mp houtside, ?_⟩, p.entity, he, ofEntity?_entity p⟩
      rw [he]
      cases p <;> decide

end Stop

/-! ## Decoding -/

/-- Steps are made at all stops in preorder. -/
theorem isStep_of_mem_preorder {g : Graph} (hv : g.Valid) {scope : Scope} {id : NodeId} {s : Stop}
    (hs : s ∈ preorder g hv scope id) : s.isStep = true := by
  obtain ⟨paths, hpaths⟩ := exists_enumerates hv scope id
  rw [hpaths.stops_eq] at hs
  exact (List.mem_filter.mp hs).2

/-- The values written by some stops, found under a key. -/
theorem get?_setAll_stops (stops : List Stop) (key : String) :
    (setAll [] ((readings (stops.map Stop.visit)).filterMap Reading.write?)).get? key =
      stops.reverse.findSome? (Stop.written? key) := by
  have hwrites : (readings (stops.map Stop.visit)).filterMap Reading.write? =
      stops.filterMap fun s => s.visit.reading?.bind Reading.write? := by
    rw [readings, List.filterMap_filterMap, List.filterMap_map]
    rfl
  rw [get?_setAll, List.find?_eq_findSome?_guard, List.map_findSome?, ← List.getLast?_filterMap,
    ← List.getLast?_filterMap, hwrites, List.filterMap_filterMap]
  refine (Option.or_none).trans (congrArg List.getLast? (List.filterMap_congr fun s _ => ?_))
  rw [Stop.written?]
  congr 1
  funext w
  by_cases hkey : w.1 = key <;> simp [Option.guard, hkey]

theorem findSome?_refusal?_stops (stops : List Stop) :
    (readings (stops.map Stop.visit)).findSome? Reading.refusal? =
      stops.findSome? Stop.refusal? := by
  rw [readings, ← List.head?_filterMap, List.filterMap_filterMap, List.filterMap_map,
    List.head?_filterMap]
  rfl

theorem getLast?_products_stops (stops : List Stop) :
    (products (stops.map Stop.visit)).getLast? =
      stops.reverse.findSome? fun s => s.visit.product? := by
  rw [products, List.filterMap_map, List.getLast?_filterMap]
  rfl

/-- A stop that does not write a key leaves its value as it is. -/
theorem get?_of_visit {mode : Narrowing} {d d' : Draft} {s : Stop} {key : String}
    (hs : ∀ v, ¬ s.Writes key v) (h : (d.visit mode s.visit).result = .ok d') :
    d'.record.get? key = d.record.get? key := by
  rw [Draft.visit_result] at h
  split at h
  · cases h
  obtain rfl := Except.ok.inj h
  refine get?_setAll_of_not_mem fun w hw hkey => hs w.2 ?_
  obtain ⟨r, hr, hwrite⟩ := List.mem_filterMap.mp hw
  obtain ⟨visit, hvisit, hreading⟩ := List.mem_filterMap.mp hr
  rw [List.mem_singleton.mp hvisit] at hreading
  rw [← Stop.written?_eq_some_iff, Stop.written?, hreading, Option.bind_some, hwrite,
    Option.bind_some, if_pos hkey]

namespace Draft

variable (d : Draft) (fallback : String)

theorem get?_finish_of_ne {key : String} (h : ∀ m : Marking, m.key ≠ key) :
    (d.finish fallback).get? key = d.record.get? key :=
  d.markings.get?_apply_of_ne d.record fun m _ => h m

theorem product_finish : (d.finish fallback).product = d.record.product := by
  obtain ⟨ws, hws⟩ := d.markings.apply_eq_setAll d.record
  rw [finish, hws]

theorem contentType_finish :
    (d.finish fallback).contentType = d.record.contentType.or (some fallback) := by
  obtain ⟨ws, hws⟩ := d.markings.apply_eq_setAll d.record
  rw [finish, hws]

end Draft

section Decode

variable {g : Graph} {t : Topology} (ht : g.topology = .ok t) (fallback : String) (mode : Narrowing)

/-- The result of decoding: the first refusal, or the draft that the stops come to. -/
theorem decode_result :
    (decode fallback mode g).result =
      match (preorder g (valid_of_topology_eq_ok ht) {} t.root).findSome? Stop.refusal? with
      | some e => .error e
      | none => .ok ((Draft.settle mode {} (readings (visits t)) (products (visits t))).finish
          fallback) := by
  rw [decode_of_topology ht, conclude_result, Draft.follow_result, visits_eq_preorder ht,
    findSome?_refusal?_stops]
  cases (preorder g _ {} t.root).findSome? Stop.refusal? <;> rfl

/-- A valid graph is refused for its first malformed box only. -/
theorem decode_error_iff {err : ExchangeError} :
    (decode fallback mode g).result = .error err ↔
      ∃ e, FirstOf Stop.IsMalformed (preorder g (valid_of_topology_eq_ok ht) {} t.root) e ∧
        .geometry e = err := by
  rw [← firstOf_map, ← findSome?_eq_some_iff_firstOf fun _ _ _ => Stop.refusal?_eq_some_iff,
    decode_result ht]
  cases (preorder g _ {} t.root).findSome? Stop.refusal? <;> simp

/-- A valid graph without a malformed box is decoded. -/
theorem exists_decode_iff :
    (∃ r, (decode fallback mode g).result = .ok r) ↔
      ∀ s ∈ preorder g (valid_of_topology_eq_ok ht) {} t.root, ∀ e, ¬ s.IsMalformed e := by
  have hnone : (∀ s ∈ preorder g (valid_of_topology_eq_ok ht) {} t.root, ∀ e, ¬ s.IsMalformed e) ↔
      (preorder g (valid_of_topology_eq_ok ht) {} t.root).findSome? Stop.refusal? = none := by
    rw [findSome?_eq_none_iff_forall fun _ _ _ => Stop.refusal?_eq_some_iff]
    simp
  rw [hnone, decode_result ht]
  cases (preorder g _ {} t.root).findSome? Stop.refusal? <;> simp

/-- Under a key that is not one of a marking stands what was written last. -/
theorem get?_decoded {fallback : String} {mode : Narrowing} {r : Record}
    (h : (decode fallback mode g).result = .ok r) {key : String}
    (hkey : ∀ m : Marking, m.key ≠ key) :
    r.get? key = (preorder g (valid_of_topology_eq_ok ht) {} t.root).reverse.findSome?
      (Stop.written? key) := by
  rw [decode_result ht] at h
  split at h
  · cases h
  obtain rfl := Except.ok.inj h
  rw [Draft.get?_finish_of_ne _ fallback hkey, ← get?_setAll_stops, ← visits_eq_preorder ht]
  rfl

end Decode

/--
Decoding fails for an invalid graph, with its error, and for nothing else than the first malformed
box outside associations. In particular every other leaf that is not taken is passed over.
-/
theorem decode_error (fallback : String) (mode : Narrowing) (g : Graph) :
    (∀ e, (decode fallback mode g).result = .error (.graph e) ↔ g.topology = .error e) ∧
    ∀ t (ht : g.topology = .ok t),
      let stops := preorder g (valid_of_topology_eq_ok ht) {} t.root
      (∀ e, (decode fallback mode g).result = .error (.geometry e) ↔
        FirstOf Stop.IsMalformed stops e) ∧
      ((∃ r, (decode fallback mode g).result = .ok r) ↔ ∀ s ∈ stops, ∀ e, ¬ s.IsMalformed e) := by
  refine ⟨fun e => ?_, fun t ht => ⟨fun e => ?_, exists_decode_iff ht fallback mode⟩⟩
  · cases htopology : g.topology with
    | error e' => simp [decode, htopology]
    | ok t =>
      rw [decode_error_iff htopology]
      simp
  · rw [decode_error_iff ht]
    simp

/-- A malformed box below an association, and three boxes in a coverage: one of another kind and two
malformed ones. -/
def spoiled : Graph where
  nodes := #[⟨0, .root, "product", none⟩, ⟨1, .entity, "association", none⟩,
    ⟨2, .entity, "coverage", none⟩, ⟨3, .leaf, "spatialGeographicReferenceBox", some (.text "X")⟩,
    ⟨4, .entity, "coverage", none⟩,
    ⟨5, .leaf, "spatialGeographicReferenceBox", some (.bool true)⟩,
    ⟨6, .leaf, "temporalStart", some (.text "now")⟩,
    ⟨7, .leaf, "spatialGeographicReferenceBox", some (.text "CIRCLE (1)")⟩,
    ⟨8, .leaf, "spatialGeographicReferenceBox", some (.text "POINT")⟩]
  edges := #[⟨0, 1⟩, ⟨1, 2⟩, ⟨2, 3⟩, ⟨0, 4⟩, ⟨4, 5⟩, ⟨4, 6⟩, ⟨4, 7⟩, ⟨4, 8⟩]

theorem decode_error_spoiled : ∃ t, ∃ ht : spoiled.topology = .ok t,
    (decode "DATA" .legacy spoiled).result = .error (.geometry (.unsupportedType "CIRCLE")) ∧
    FirstOf Stop.IsMalformed (preorder spoiled (valid_of_topology_eq_ok ht) {} t.root)
      (.unsupportedType "CIRCLE") := by
  obtain ⟨t, ht⟩ : ∃ t, spoiled.topology = .ok t := ⟨_, rfl⟩
  have hdecode : (decode "DATA" .legacy spoiled).result =
      .error (.geometry (.unsupportedType "CIRCLE")) := by
    decide +kernel
  exact ⟨t, ht, hdecode, (((decode_error "DATA" .legacy spoiled).2 t ht).1 _).mp hdecode⟩

/--
What a decoded record has under a key, that of a marking apart, is what the last leaf that writes
the key has, and it has nothing there when no leaf does. A leaf that does not write a key leaves its
value as it is. The type is that of the last entity of a type, and tells the content type.
-/
theorem decode_last {g : Graph} {t : Topology} (ht : g.topology = .ok t) {fallback : String}
    {mode : Narrowing} {r : Record} (h : (decode fallback mode g).result = .ok r) :
    let stops := preorder g (valid_of_topology_eq_ok ht) {} t.root
    (∀ key, (∀ m : Marking, m.key ≠ key) →
      (∀ v, r.get? key = some v ↔ LastOf (fun s v => Stop.Writes s key v) stops v) ∧
      (r.get? key = none ↔ ∀ s ∈ stops, ∀ v, ¬ s.Writes key v)) ∧
    (∀ key s d d', (∀ v, ¬ Stop.Writes s key v) → (Draft.visit mode d s.visit).result = .ok d' →
      d'.record.get? key = d.record.get? key) ∧
    (∀ p, r.product = some p ↔ LastOf Stop.Sets stops p) ∧
    (r.product = none ↔ ∀ s ∈ stops, ∀ p, ¬ s.Sets p) ∧
    r.contentType = some ((r.product.map Product.contentTypeName).getD fallback) := by
  intro stops
  have hget : ∀ key, (∀ m : Marking, m.key ≠ key) →
      r.get? key = stops.reverse.findSome? (Stop.written? key) := fun key => get?_decoded ht h
  rw [decode_result ht] at h
  split at h
  · cases h
  obtain rfl := Except.ok.inj h
  generalize hd : Draft.settle mode {} (readings (visits t)) (products (visits t)) = d at hget ⊢
  have hproducts : ∀ s ∈ stops, ∀ p, s.visit.product? = some p ↔ s.Sets p := fun s hs p =>
    Stop.product?_eq_some_iff (isStep_of_mem_preorder (valid_of_topology_eq_ok ht) hs)
  have hproduct : (d.finish fallback).product =
      stops.reverse.findSome? fun s => s.visit.product? := by
    rw [Draft.product_finish, ← getLast?_products_stops, ← visits_eq_preorder ht, ← hd]
    exact Option.or_none
  have hwritten : ∀ key s v, s ∈ stops → (s.written? key = some v ↔ s.Writes key v) :=
    fun _ _ _ _ => Stop.written?_eq_some_iff
  refine ⟨fun key hkey => ⟨fun v => ?_, ?_⟩, fun key s d d' => get?_of_visit, fun p => ?_, ?_, ?_⟩
  · rw [hget key hkey]
    exact findSome?_reverse_eq_some_iff_lastOf fun s hs v => hwritten key s v hs
  · rw [hget key hkey, findSome?_eq_none_iff_forall fun s _ v => Stop.written?_eq_some_iff]
    simp [stops]
  · rw [hproduct]
    exact findSome?_reverse_eq_some_iff_lastOf hproducts
  · rw [hproduct, findSome?_eq_none_iff_forall fun s hs => hproducts s (List.mem_reverse.mp hs)]
    simp
  · have hsame : d.record.contentType = d.record.product.map Product.contentTypeName := by
      rw [← hd]
      exact (Option.or_none).trans (congrArg _ Option.or_none.symm)
    rw [Draft.contentType_finish, Draft.product_finish, hsame]
    cases d.record.product <;> rfl

/-- An image with a video inside: both have a number of rows, and then a text is given for it. Both
are also below an association, next to another type. -/
def retaken : Graph where
  nodes := #[⟨0, .root, "product", none⟩, ⟨1, .entity, "imagery", none⟩,
    ⟨2, .leaf, "numberOfRows", some (.int 480)⟩, ⟨3, .entity, "video", none⟩,
    ⟨4, .leaf, "numberOfRows", some (.short 720)⟩, ⟨5, .leaf, "numberOfRows", some (.text "tall")⟩,
    ⟨6, .entity, "association", none⟩, ⟨7, .entity, "gmti", none⟩]
  edges := #[⟨0, 1⟩, ⟨1, 2⟩, ⟨1, 3⟩, ⟨3, 4⟩, ⟨1, 5⟩, ⟨0, 6⟩, ⟨6, 1⟩, ⟨6, 7⟩]

theorem decode_last_retaken : ∃ t, ∃ ht : retaken.topology = .ok t,
    (decode "DATA" .legacy retaken).result = .ok
      { attributes := [("media.height-pixels", .integer 720)], product := some .video
        contentType := some "VIDEO" } ∧
    LastOf (fun s v => Stop.Writes s "media.height-pixels" v)
      (preorder retaken (valid_of_topology_eq_ok ht) {} t.root) (.integer 720) ∧
    LastOf Stop.Sets (preorder retaken (valid_of_topology_eq_ok ht) {} t.root) .video := by
  obtain ⟨t, ht⟩ : ∃ t, retaken.topology = .ok t := ⟨_, rfl⟩
  have hdecode : (decode "DATA" .legacy retaken).result = .ok
      { attributes := [("media.height-pixels", .integer 720)], product := some .video
        contentType := some "VIDEO" } := by
    decide +kernel
  have hkey : ∀ m : Marking, m.key ≠ "media.height-pixels" := by
    intro m
    cases m <;> decide
  obtain ⟨hvalues, -, hproduct, -⟩ := decode_last ht hdecode
  exact ⟨t, ht, hdecode, ((hvalues _ hkey).1 _).mp rfl, (hproduct _).mp rfl⟩

end Catalogue.Exchange
