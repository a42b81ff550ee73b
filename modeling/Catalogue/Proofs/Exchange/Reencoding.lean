import Catalogue.Proofs.Exchange.Contribution
import Catalogue.Proofs.Exchange.Sections
import Catalogue.Proofs.Exchange.Traversal
import Catalogue.Proofs.Geometry.Finite

/-!
# Encoding what was decoded

The location of a decoded record is the text of a finite box, and such a text is read again. So a
decoded record is refused for one reason only: a field takes every integer that a leaf can hold,
and gives back those of its own kind.

* `misfits` — the integers of a record that do not fit the kinds of their fields.
* `encode_result_of_location` — without a refused location only a misfit is refused.
* `marking_or_leaf_of_decode` — the values of a decoded record are markings or written by leaves.
* `location_of_decode` — the location of a decoded record is the text of a finite box.
* `encode_decoded` — a decoded record is encoded, or its first misfit is refused.
-/

namespace Catalogue.Schema.Kind

/-- The least and the greatest integer of a kind that has not all integers of 64 bits. -/
def bounds? : Kind → Option (Int × Int)
  | short => some (-0x8000, 0x7FFF)
  | ushort => some (0, 0xFFFF)
  | int => some (-0x80000000, 0x7FFFFFFF)
  | uint => some (0, 0xFFFFFFFF)
  | _ => none

/-- Whether an integer is within the bounds of a kind, if it has any. -/
def holds (k : Kind) (n : Int64) : Bool :=
  k.bounds?.all fun b => b.1 ≤ n.toInt ∧ n.toInt ≤ b.2

end Catalogue.Schema.Kind

namespace Catalogue.Exchange

open Catalogue.Geometry (Box)
open Catalogue.Graph
open Catalogue.Schema (Entity Kind)

/-! ## Integers that do not fit -/

/-- An integer that does not fit the kind of a field, if that is the value. -/
def misfit? (m : Mapping) : Record.Value → Option (String × Int64 × Kind)
  | .integer n => if m.kind.holds n then none else some (m.key, n, m.kind)
  | _ => none

/-- The integers of a record that do not fit the kinds of their fields, with the keys and the kinds,
in the order in which the fields are looked at. -/
def misfits (r : Record) : List (String × Int64 × Kind) :=
  (sectionsOf r).flatMap fun e => (mappings e).filterMap fun m => (r.get? m.key).bind (misfit? m)

/-! ## Refused values -/

/-- The error for an integer that does not fit. -/
def misfitError (x : String × Int64 × Kind) : ExchangeError := .outOfRange x.1 x.2.1 x.2.2

theorem refusal?_fitted {α : Type} {m : Mapping} {n : Int64} {leaf : α → Graph.Value}
    {fit : Option α} (h : fit.isSome = m.kind.holds n) :
    (fitted m n leaf fit).refusal? = (misfit? m (.integer n)).map misfitError := by
  rw [misfit?, ← h]
  cases fit <;> rfl

theorem isSome_of_bounds {α : Type} {a : α} {k : Kind} {n : Int64} {least greatest above : Int}
    (hk : k.bounds? = some (least, greatest)) (habove : above = greatest + 1) :
    (if least ≤ n.toInt ∧ n.toInt < above then some a else none).isSome = k.holds n := by
  rw [Kind.holds, hk, Option.all_some, Bool.eq_iff_iff, Option.isSome_ite, decide_eq_true_iff,
    habove, Int.lt_add_one_iff]

/-- The value of a field is refused when it is an integer that does not fit. -/
theorem refusal?_encodeField (e : Entity) (m : Mapping) (v : Record.Value) :
    (encodeField e m v).refusal? = (misfit? m v).map misfitError := by
  fun_cases encodeField e m v with
  | case4 n hkind => exact refusal?_fitted (isSome_of_bounds (by rw [hkind]; rfl) rfl)
  | case5 n hkind => exact refusal?_fitted (isSome_of_bounds (by rw [hkind]; rfl) rfl)
  | case6 n hkind => exact refusal?_fitted (isSome_of_bounds (by rw [hkind]; rfl) rfl)
  | case7 n hkind => exact refusal?_fitted (isSome_of_bounds (by rw [hkind]; rfl) rfl)
  | case8 n hkind =>
    rw [misfit?, hkind]
    rfl
  | case12 _ _ hshort hushort hint huint =>
    cases v with
    | integer n =>
      -- all kinds with bounds take integers
      have hbounds : m.kind.bounds? = none := by
        unfold Kind.bounds?
        split
        · next hkind => exact (hshort n hkind rfl).elim
        · next hkind => exact (hushort n hkind rfl).elim
        · next hkind => exact (hint n hkind rfl).elim
        · next hkind => exact (huint n hkind rfl).elim
        · rfl
      rw [misfit?, Kind.holds, hbounds]
      rfl
    | _ => rfl
  | _ => rfl

/-- What is refused of the fields of an entity. -/
theorem refusals_fieldFindings (r : Record) (e : Entity) :
    refusals (fieldFindings r e) =
      ((mappings e).filterMap fun m => (r.get? m.key).bind (misfit? m)).map misfitError := by
  rw [refusals, fieldFindings, List.filterMap_filterMap, List.map_filterMap]
  refine List.filterMap_congr fun m _ => ?_
  cases r.get? m.key with
  | none => rfl
  | some v => exact refusal?_encodeField e m v

/-- A record whose location is not refused is encoded, or refused for an integer that does not fit
its field. -/
theorem encode_result_of_location {r : Record}
    (h : ∀ f ∈ locationFinding? r, f.refusal? = none) :
    (encode r).result =
      match misfits r with
      | [] => .ok (graphOf r)
      | (key, n, kind) :: _ => .error (.outOfRange key n kind) := by
  have hlocation : refusals ((locationFinding? r).toList.map (boxName, ·)) = [] := by
    cases hfinding : locationFinding? r with
    | none => rfl
    | some f => exact List.filterMap_cons_none (h f hfinding)
  have hfindings : ∀ e, refusals (findings r e) =
      ((mappings e).filterMap fun m => (r.get? m.key).bind (misfit? m)).map misfitError := by
    intro e
    rw [findings, refusals_append, refusals_fieldFindings]
    split
    · rw [hlocation, List.append_nil]
    · exact List.append_nil _
  have hrefusals : refusals ((sectionsOf r).flatMap (findings r)) =
      (misfits r).map misfitError := by
    rw [refusals, List.filterMap_flatMap, misfits, List.map_flatMap]
    exact List.flatMap_congr fun e _ => hfindings e
  rw [encode_result, hrefusals]
  cases misfits r <;> rfl

/-! ## The values of a decoded record -/

/-- A leaf that is visited is a node of the graph. -/
theorem node?_of_mem_walk {t : Topology} {stack : List Pending} {n : Node} {scope : Scope}
    (h : .leaf n scope ∈ walk t stack) : ∃ id, t.node? id = some n := by
  fun_induction walk t stack with
  | case1 => cases h
  | case2 p rest _ ih => exact ih h
  | case3 p rest m hm _ ih =>
    rcases List.mem_cons.mp h with heq | h
    · injection heq with hn _
      exact ⟨p.id, hn ▸ hm⟩
    · exact ih h
  | case4 p rest m _ _ inside ih =>
    rcases List.mem_cons.mp h with heq | h
    · cases heq
    · exact ih h
  | case5 p rest m _ _ ih | case6 p rest m _ _ ih => exact ih h

theorem eq_write_of_write? {r : Reading} {key : String} {v : Record.Value}
    (h : r.write? = some (key, v)) : r = .write key v := by
  cases r with
  | write k w =>
    obtain ⟨rfl, rfl⟩ := Prod.mk.inj (Option.some.inj h)
    rfl
  | _ => cases h

/-- A value of a decoded record is the text of a marking or was written by a leaf of the graph. -/
theorem marking_or_leaf_of_decode {fallback : String} {mode : Narrowing} {g : Graph} {r : Record}
    (h : (decode fallback mode g).result = .ok r) {key : String} {v : Record.Value}
    (hv : r.get? key = some v) :
    (∃ m ∈ Marking.all, m.key = key ∧ ∃ s, v = .text s) ∨
      ∃ n ∈ g.nodes.toList, ∃ scope value, n.value = some value ∧
        contribution scope n.name value = .write key v := by
  cases htopology : g.topology with
  | error e =>
    rw [decode, htopology] at h
    cases h
  | ok t =>
    rw [decode_of_topology htopology, conclude_result, Draft.follow_result] at h
    split at h
    · cases h
    · obtain rfl := Except.ok.inj h
      rcases Descriptor.text_or_of_get?_apply hv with hmarking | hset
      · exact .inl hmarking
      · obtain ⟨reading, hreading, hwrite⟩ := List.mem_filterMap.mp (mem_of_get?_setAll hset)
        obtain ⟨n, scope, value, hvisit, hvalue, hcontribution⟩ := exists_contribution hreading
        obtain ⟨id, hid⟩ := node?_of_mem_walk hvisit
        rw [(topology_ok htopology).2.2.1] at hid
        exact .inr ⟨n, (mem_of_node?_eq_some hid).1, scope, value, hvalue,
          hcontribution.trans (eq_write_of_write? hwrite)⟩

/-- A value of a decoded record that is no marking was written by a leaf of the graph. -/
theorem exists_leaf_of_decode {fallback : String} {mode : Narrowing} {g : Graph} {r : Record}
    (h : (decode fallback mode g).result = .ok r) {key : String} {v : Record.Value}
    (hkey : ∀ m ∈ Marking.all, m.key ≠ key) (hv : r.get? key = some v) :
    ∃ n ∈ g.nodes.toList, ∃ scope value, n.value = some value ∧
      contribution scope n.name value = .write key v :=
  (marking_or_leaf_of_decode h hv).resolve_left fun ⟨m, hm, heq, _⟩ => hkey m hm heq

/-! ## The location of a decoded record -/

/-- What a leaf writes is a box or the value of a field. -/
theorem write_of_contribution {scope : Scope} {name key : String} {v : Graph.Value}
    {w : Record.Value} (h : contribution scope name v = .write key w) :
    readBox v = .write key w ∨ ∃ e, ∃ m ∈ mappings e, decodeField e m v = .write key w := by
  have hinside := (contributes_contribution scope name v).inside
  rw [h] at hinside
  rw [contribution] at h
  split at h
  · cases h
  · next e _ =>
    split at h
    · next hassociation => cases (hinside hassociation).1
    · split at h
      · unfold readMarking at h
        split at h
        · cases h
        · split at h <;> cases h
      · split at h
        · exact .inl h
        · split at h
          · next m hm => exact .inr ⟨e, m, List.mem_of_find?_eq_some hm, h⟩
          · cases h

/-- Only a box writes the location. -/
theorem readBox_of_contribution {scope : Scope} {name : String} {v : Graph.Value}
    {w : Record.Value} (h : contribution scope name v = .write locationKey w) :
    readBox v = .write locationKey w := by
  rcases write_of_contribution h with hbox | ⟨e, m, hm, hfield⟩
  · exact hbox
  · rcases decodeField_eq e m v with ⟨_, hwrite⟩ | ⟨_, hskipped⟩
    · rw [hwrite] at hfield
      injection hfield with hkey _
      exact absurd hkey (key_ne e m hm).1
    · rw [hskipped] at hfield
      cases hfield

/-- A box that is read gives the text of a finite box. -/
theorem finite_of_readBox {v : Graph.Value} {w : Record.Value}
    (hfinite : ∀ b, v = .rectangle b → b.Finite) (h : readBox v = .write locationKey w) :
    ∃ b : Box, b.Finite ∧ w = .geometry b.toGeometry.text := by
  cases v with
  | rectangle b =>
    injection h with _ hw
    exact ⟨b, hfinite b rfl, hw.symm⟩
  | text wkt =>
    rw [readBox] at h
    split at h
    · next g hg =>
      injection h with _ hw
      exact ⟨g.envelope, Geometry.finite_envelope hg, hw.symm⟩
    · cases h
  | _ => cases h

/-- The boxes that a graph holds are finite. -/
def FiniteBoxes (g : Graph) : Prop :=
  ∀ n ∈ g.nodes.toList, ∀ b, n.value = some (.rectangle b) → b.Finite

/-- The location of a decoded record is the text of a finite box. -/
theorem location_of_decode {fallback : String} {mode : Narrowing} {g : Graph} {r : Record}
    (hfinite : FiniteBoxes g) (h : (decode fallback mode g).result = .ok r) {v : Record.Value}
    (hv : r.get? locationKey = some v) : ∃ b : Box, b.Finite ∧ v = .geometry b.toGeometry.text := by
  obtain ⟨n, hn, scope, value, hvalue, hcontribution⟩ :=
    exists_leaf_of_decode h (fun m _ => (locationKey_ne m).symm) hv
  have hbox : ∀ b, value = .rectangle b → b.Finite := fun b hb => hfinite n hn b (hb ▸ hvalue)
  exact finite_of_readBox hbox (readBox_of_contribution hcontribution)

/-- The location of a decoded record is not refused. -/
theorem refusal?_locationFinding {fallback : String} {mode : Narrowing} {g : Graph} {r : Record}
    (hfinite : FiniteBoxes g) (h : (decode fallback mode g).result = .ok r) {f : Finding}
    (hf : locationFinding? r = some f) : f.refusal? = none := by
  obtain ⟨v, hv, rfl⟩ := Option.map_eq_some_iff.mp hf
  obtain ⟨b, hb, rfl⟩ := location_of_decode hfinite h hv
  obtain ⟨read, hread⟩ := Geometry.exists_parse_box hb
  show (boxOf b.toGeometry.text).refusal? = none
  rw [boxOf, hread]
  rfl

/-! ## Encoding a decoded record -/

/-- No integer is a misfit when each fits the field that it is under. -/
theorem misfits_eq_nil_iff {r : Record} : misfits r = [] ↔
    ∀ e ∈ sectionsOf r, ∀ m ∈ mappings e, ∀ n, r.get? m.key = some (.integer n) →
      m.kind.holds n = true := by
  rw [misfits, List.flatMap_eq_nil_iff]
  refine forall₂_congr fun e _ => ?_
  rw [List.filterMap_eq_nil_iff]
  refine forall₂_congr fun m _ => ?_
  cases hv : r.get? m.key with
  | none => simp
  | some v => cases v <;> simp [misfit?]

/--
A decoded record is encoded, unless an integer that it holds under the key of a field does not fit
the kind of that field: then the first such integer is refused, with its key and that kind. No
record that is decoded from finite boxes is refused for its location.
-/
theorem encode_decoded (fallback : String) (mode : Narrowing) (g : Graph) (r : Record)
    (hfinite : FiniteBoxes g) (h : (decode fallback mode g).result = .ok r) :
    (encode r).result = (match misfits r with
      | [] => .ok (graphOf r)
      | (key, n, kind) :: _ => .error (.outOfRange key n kind)) ∧
    (misfits r = [] ↔ ∀ e ∈ sectionsOf r, ∀ m ∈ mappings e, ∀ n,
      r.get? m.key = some (.integer n) → m.kind.holds n = true) :=
  ⟨encode_result_of_location fun _ hf => refusal?_locationFinding hfinite h hf, misfits_eq_nil_iff⟩

/-- A card with a number of parts, in the widest kind there is, and a coverage with a box. -/
def extended (parts : Int64) : Graph where
  nodes := #[⟨0, .root, "product", none⟩, ⟨1, .entity, "card", none⟩,
    ⟨2, .leaf, "numberOfParts", some (.long parts)⟩, ⟨3, .entity, "coverage", none⟩,
    ⟨4, .leaf, "spatialGeographicReferenceBox", some (.rectangle ⟨⟨2.5, 1.0⟩, ⟨1.5, 3.0⟩⟩)⟩]
  edges := #[⟨0, 1⟩, ⟨1, 2⟩, ⟨0, 3⟩, ⟨3, 4⟩]

theorem finiteBoxes_extended (parts : Int64) : FiniteBoxes (extended parts) := by
  intro n hn b hb
  simp only [extended, List.mem_cons, List.not_mem_nil, or_false] at hn
  rcases hn with rfl | rfl | rfl | rfl | rfl
  case inr.inr.inr.inr =>
    cases hb
    refine ⟨⟨?_, ?_⟩, ?_, ?_⟩ <;> decide +kernel
  all_goals cases hb

/-- The record of a card with a number of parts and a coverage with a box. -/
def extent (parts : Int64) : Record where
  attributes := [("card.number-of-parts", .integer parts),
    ("location", .geometry "POLYGON((1 2.5, 3 2.5, 3 1.5, 1 1.5, 1 2.5))")]
  contentType := some "DATA"

theorem encode_decoded_extended : FiniteBoxes (extended 12) ∧
    (decode "DATA" .legacy (extended 12)).result = .ok (extent 12) ∧
    misfits (extent 12) = [] ∧ (encode (extent 12)).result = .ok (graphOf (extent 12)) := by
  have hdecode : (decode "DATA" .legacy (extended 12)).result = .ok (extent 12) := by
    decide +kernel
  have hmisfits : misfits (extent 12) = [] := by
    decide +kernel
  refine ⟨finiteBoxes_extended 12, hdecode, hmisfits, ?_⟩
  rw [(encode_decoded "DATA" .legacy _ _ (finiteBoxes_extended 12) hdecode).1, hmisfits]

/-- A number of parts beyond 32 bits is decoded, and then refused. -/
theorem encode_extended_refused : FiniteBoxes (extended 5000000000) ∧
    (decode "DATA" .legacy (extended 5000000000)).result = .ok (extent 5000000000) ∧
    (encode (extent 5000000000)).result =
      .error (.outOfRange "card.number-of-parts" 5000000000 .int) := by
  refine ⟨finiteBoxes_extended _, ?_, ?_⟩ <;> decide +kernel

end Catalogue.Exchange
