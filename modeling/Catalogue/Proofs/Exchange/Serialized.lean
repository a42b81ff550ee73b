import Catalogue.Proofs.Exchange.Reencoding
import Catalogue.Proofs.Exchange.RoundTrip
import Catalogue.Proofs.Graph.Serialized
import Catalogue.Proofs.Number.Finite
import Catalogue.Proofs.Record.Serialized

/-!
# Exchanges through text

A graph that is sent as text is decoded where it arrives, and the record may be sent on as text. A
leaf writes its own float or an integer as a float, so the record of a graph with finite floats has
finite floats too, and its keys are sorted: both texts are read back.

* `isFinite_of_decode` — the floats of a decoded record are finite.
* `sorted_of_decode` — the keys of a decoded record are sorted.
* `text_round_trip` — a graph, and the record decoded from it, are read back from their texts.
-/

namespace Catalogue.Exchange

open Catalogue.Graph
open Catalogue.Number
open Catalogue.Record (Attributes)
open Catalogue.Schema (Entity)

/-! ## Numbers -/

/-- The float nearest to an integer of 64 bits is finite. -/
theorem isFinite_widened (negative : Bool) (n : Int64) :
    (Decimal.finite negative n.toInt.natAbs 0).toFloat.isFinite = true := by
  have hbound : n.toInt.natAbs ≤ 2 ^ 63 := by
    have hlow := n.le_toInt
    have hhigh := n.toInt_lt
    omega
  have hpower : 2 ^ 10 ≤ 2 ^ endExponent :=
    Nat.pow_le_pow_right (by decide) (by rw [endExponent_eq]; decide)
  have hbelow : BelowEnd n.toInt.natAbs (10 ^ 0) := by
    rw [BelowEnd, pow_zero, Nat.mul_one]
    calc n.toInt.natAbs ≤ 2 ^ 63 := hbound
      _ < (2 ^ 54 - 1) * 2 ^ 10 := by decide
      _ ≤ (2 ^ 54 - 1) * 2 ^ endExponent := Nat.mul_le_mul_left _ hpower
  exact hbelow.isFinite_toFloat negative

/-- The float of a value with finite floats is finite. -/
theorem isFinite_of_float? {v : Graph.Value} {x : Float}
    (hv : ∀ y ∈ v.floats, y.isFinite = true) (h : v.float? = some x) : x.isFinite = true := by
  unfold Value.float? at h
  split at h
  · next y =>
    obtain rfl := Option.some.inj h
    exact hv _ List.mem_cons_self
  · obtain ⟨n, -, rfl⟩ := Option.map_eq_some_iff.mp h
    exact isFinite_widened _ n

/-- A field takes a float from the float of the value only. -/
theorem float?_of_decodeField {e : Entity} {m : Mapping} {v : Graph.Value} {key : String}
    {x : Float} (h : decodeField e m v = .write key (.float x)) : v.float? = some x := by
  have hread {α : Type} {a : Option α} {f : α → Reading} {other : Journal.Entry}
      (h : (a.map f).getD (.skipped other) = .write key (.float x)) :
      ∃ y, a = some y ∧ f y = .write key (.float x) := by
    cases a with
    | none => cases h
    | some y => exact ⟨y, rfl, h⟩
  rw [decodeField] at h
  cases hkind : m.kind <;> simp only [hkind] at h
  case rectangle => cases h
  all_goals obtain ⟨y, hy, h⟩ := hread h
  case double =>
    injection h with _ hw
    rw [hy, Record.Value.float.inj hw]
  case text =>
    rw [readText] at h
    split at h
    · cases h
    · split at h <;> cases h
  case date =>
    rw [readDate] at h
    split at h <;> cases h
  all_goals cases h

/-- A box is written as text. -/
theorem floats_of_readBox {v : Graph.Value} {key : String} {w : Record.Value}
    (h : readBox v = .write key w) : w.floats = [] := by
  unfold readBox at h
  split at h
  · injection h with _ hw
    rw [← hw]
    rfl
  · split at h
    · injection h with _ hw
      rw [← hw]
      rfl
    · cases h
  · cases h

/-- What a leaf with finite floats writes has finite floats. -/
theorem isFinite_of_contribution {scope : Scope} {name key : String} {v : Graph.Value}
    {w : Record.Value} (hv : ∀ x ∈ v.floats, x.isFinite = true)
    (h : contribution scope name v = .write key w) : ∀ x ∈ w.floats, x.isFinite = true := by
  intro x hx
  rcases write_of_contribution h with hbox | ⟨e, m, -, hfield⟩
  · rw [floats_of_readBox hbox] at hx
    cases hx
  · cases w with
    | float y =>
      obtain rfl := List.mem_singleton.mp hx
      exact isFinite_of_float? hv (float?_of_decodeField hfield)
    | _ => cases hx

/-! ## Decoded records -/

section Decoded

variable {fallback : String} {mode : Narrowing} {g : Graph} {r : Record}

/-- The keys of a decoded record are sorted. -/
theorem sorted_of_decode (h : (decode fallback mode g).result = .ok r) : r.attributes.Sorted := by
  cases htopology : g.topology with
  | error e =>
    rw [decode, htopology] at h
    cases h
  | ok t =>
    rw [decode_of_topology htopology, conclude_result, Draft.follow_result] at h
    split at h
    · cases h
    · obtain rfl := Except.ok.inj h
      rw [Draft.finish]
      obtain ⟨ws, happly⟩ := Descriptor.apply_eq_setAll _ _
      rw [happly]
      exact sorted_setAll (sorted_setAll Attributes.sorted_nil _) ws

/-- The floats of a record decoded from finite ones are finite. -/
theorem isFinite_of_decode (hfinite : ∀ x ∈ g.floats, x.isFinite = true)
    (h : (decode fallback mode g).result = .ok r) : ∀ x ∈ r.floats, x.isFinite = true := by
  intro x hx
  obtain ⟨⟨key, v⟩, hmem, hx⟩ := List.mem_flatMap.mp hx
  have hget : r.get? key = some v := (sorted_of_decode h).get?_of_mem hmem
  rcases marking_or_leaf_of_decode h hget with ⟨-, -, -, s, rfl⟩ | ⟨n, hn, scope, w, hw, hwrite⟩
  · cases hx
  · refine isFinite_of_contribution (fun y hy => hfinite y ?_) hwrite x hx
    refine List.mem_flatMap.mpr ⟨n, hn, ?_⟩
    rw [Node.floats, hw]
    exact hy

end Decoded

/-! ## Texts -/

/-- The next number of a graph is not looked at. -/
theorem topology_cursor (g : Graph) (cursor : Option (NodeId × Nat)) :
    { g with cursor }.topology = g.topology := rfl

theorem decode_cursor (fallback : String) (mode : Narrowing) (g : Graph)
    (cursor : Option (NodeId × Nat)) :
    decode fallback mode { g with cursor } = decode fallback mode g := rfl

/--
A graph with finite floats is read back from its serialised form, and from the text of that form
when the texts of its floats are read as these floats. What is read has the nodes and the edges of
the graph, so it has the same topology or the same defect, and the same record with the same
reports. The record is in turn read back from its serialised form and its text.
-/
theorem text_round_trip (g : Graph) (hfinite : ∀ x ∈ g.floats, x.isFinite = true) :
    ∃ g', Graph.ofJson? g.toJson = some g' ∧
      ((∀ x ∈ g.floats, (Json.float x).IsExact) →
        (Json.read? g.toJson.write).bind Graph.ofJson? = some g') ∧
      g'.nodes = g.nodes ∧ g'.edges = g.edges ∧ g'.topology = g.topology ∧
      ∀ fallback mode, decode fallback mode g' = decode fallback mode g ∧
        ∀ r, (decode fallback mode g).result = .ok r → Record.ofJson? r.toJson = some r ∧
          ((∀ x ∈ r.floats, (Json.float x).IsExact) →
            (Json.read? r.toJson.write).bind Record.ofJson? = some r) := by
  refine ⟨{ g with cursor := none }, Graph.ofJson?_toJson hfinite, Graph.read?_write hfinite,
    rfl, rfl, topology_cursor g none, fun fallback mode => ⟨decode_cursor fallback mode g none, ?_⟩⟩
  intro r h
  have hsorted : r.attributes.Sorted := sorted_of_decode h
  have hfloats : ∀ x ∈ r.floats, x.isFinite = true := isFinite_of_decode hfinite h
  exact ⟨Record.ofJson?_toJson hsorted hfloats, Record.read?_write hsorted hfloats⟩

/-- A file with a title and an extent. -/
def measured : Graph where
  nodes := #[⟨0, .root, "product", none⟩, ⟨1, .entity, "file", none⟩,
    ⟨2, .leaf, "title", some (.text "\"Hafen\" ⚓")⟩, ⟨3, .leaf, "extent", some (.double 1.5)⟩]
  edges := #[⟨0, 1⟩, ⟨1, 2⟩, ⟨1, 3⟩]

/-- The record of a file with a title and an extent. -/
def measuredFile : Record where
  attributes := [("resource-size", .float 1.5), ("title", .text "\"Hafen\" ⚓")]
  contentType := some "DATA"

/-- The text `1.5` is read as the float that it is the text of. -/
theorem isExact_threeHalves : (Json.float 1.5).IsExact := by
  have hwrite : (Json.float 1.5).write.toList = ['1', '.', '5'] := by
    decide +kernel
  have hscale : Json.scaled? false ['1'] ['5'] 0 = some 1.5 := by
    show (Json.scale? (nearestFloat 15 0) (-1)).map _ = _
    rw [Json.scale?]
    decide +kernel
  show Json.number? (Json.float 1.5).write.toList = _
  rw [hwrite]
  show some (Json.literal false ['1'] ['5'] none, ([] : List Char)) = _
  rw [Json.literal, if_neg (by decide)]
  simp only [Option.getD_none, hscale]

theorem text_round_trip_measured :
    (decode "DATA" .legacy measured).result = .ok measuredFile ∧
    (∃ g, (Json.read? measured.toJson.write).bind Graph.ofJson? = some g ∧
      g.nodes = measured.nodes ∧ g.edges = measured.edges) ∧
    (Json.read? measuredFile.toJson.write).bind Record.ofJson? = some measuredFile := by
  have hdecode : (decode "DATA" .legacy measured).result = .ok measuredFile := by
    decide +kernel
  have hfloats : measured.floats = [1.5] := rfl
  have hfinite : ∀ x ∈ measured.floats, x.isFinite = true := by
    rw [hfloats, List.forall_mem_singleton]
    decide +kernel
  have hexact : ∀ x ∈ measured.floats, (Json.float x).IsExact := by
    rw [hfloats, List.forall_mem_singleton]
    exact isExact_threeHalves
  have hrecord : ∀ x ∈ measuredFile.floats, (Json.float x).IsExact :=
    List.forall_mem_singleton.mpr isExact_threeHalves
  obtain ⟨g, -, hread, hnodes, hedges, -, hdecoded⟩ := text_round_trip measured hfinite
  exact ⟨hdecode, ⟨g, hread hexact, hnodes, hedges⟩,
    ((hdecoded "DATA" .legacy).2 measuredFile hdecode).2 hrecord⟩

end Catalogue.Exchange
