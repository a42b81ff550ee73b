import Catalogue.Proofs.Exchange.Outcome
import Catalogue.Proofs.Number.Nearest

/-!
# Integers in numeric fields

A leaf may have an integer of any kind where a field takes numbers. A field of integers takes it as
the same number. A field of floats does so too, except that a long integer with more than 53
significant bits becomes the float that is nearest to it.

* `Value.whole?` — the integer that a value of an integer kind is.
* `Widens` — what an integer becomes in a field.
* `exists_reads` — a numeric field reads every integer.
* `decode_widened` — the integers of a graph in its record.
-/

namespace Catalogue.Graph.Value

/-- The integer that a value of an integer kind is. -/
def whole? : Value → Option ℤ
  | short n => some n.toInt
  | ushort n => some n.toNat
  | int n => some n.toInt
  | uint n => some n.toNat
  | long n => some n.toInt
  | _ => none

/-- Widening to 64 bits keeps an integer. -/
theorem toInt_integer? {v : Value} {n : ℤ} (h : v.whole? = some n) :
    ∃ i, v.integer? = some i ∧ i.toInt = n := by
  cases v with
  | short a =>
    obtain rfl := Option.some.inj h
    exact ⟨_, rfl, Int16.toInt_toInt64 a⟩
  | ushort a =>
    obtain rfl := Option.some.inj h
    have hlt : a.toNat < 2 ^ 16 := a.toNat_lt
    exact ⟨_, rfl, Int64.toInt_ofInt_of_le (by omega) (by omega)⟩
  | int a =>
    obtain rfl := Option.some.inj h
    exact ⟨_, rfl, Int32.toInt_toInt64 a⟩
  | uint a =>
    obtain rfl := Option.some.inj h
    have hlt : a.toNat < 2 ^ 32 := a.toNat_lt
    exact ⟨_, rfl, Int64.toInt_ofInt_of_le (by omega) (by omega)⟩
  | long a =>
    obtain rfl := Option.some.inj h
    exact ⟨_, rfl, rfl⟩
  | _ => cases h

/-- Only a long integer has more than 32 bits. -/
theorem natAbs_le_of_whole? {v : Value} {n : ℤ} (h : v.whole? = some n) (hlong : ∀ i, v ≠ .long i) :
    n.natAbs ≤ 2 ^ 53 := by
  cases v with
  | short a =>
    obtain rfl := Option.some.inj h
    have := a.le_toInt
    have := a.toInt_lt
    omega
  | ushort a =>
    obtain rfl := Option.some.inj h
    have hlt : a.toNat < 2 ^ 16 := a.toNat_lt
    omega
  | int a =>
    obtain rfl := Option.some.inj h
    have := a.le_toInt
    have := a.toInt_lt
    omega
  | uint a =>
    obtain rfl := Option.some.inj h
    have hlt : a.toNat < 2 ^ 32 := a.toNat_lt
    omega
  | long a => exact absurd rfl (hlong a)
  | _ => cases h

end Catalogue.Graph.Value

namespace Catalogue.Exchange

open Catalogue.Graph
open Catalogue.Graph.Value (natAbs_le_of_whole? toInt_integer?)
open Catalogue.Lists
open Catalogue.Number
open Catalogue.Schema (Entity Kind)

/-! ## One field -/

/-- What an integer becomes in a field: a value that is the same number, or, where no float is the
same number as a long integer, the float that is nearest to it. -/
inductive Mapping.Widens (m : Mapping) (v : Graph.Value) (n : ℤ) : Record.Value → Prop
  | integer {i : Int64} : m.kind.isInteger = true → i.toInt = n → Widens m v n (.integer i)
  | float {x : Float} : m.kind = .double → value? x = some (n : ℚ) → Widens m v n (.float x)
  | rounded {i : Int64} {x : Float} {q : ℚ} : m.kind = .double → v = .long i →
    2 ^ 53 < n.natAbs → (∀ y, value? y ≠ some (n : ℚ)) → Nearest n x q → Widens m v n (.float x)

/-- A numeric field reads every integer. -/
theorem Mapping.exists_reads {m : Mapping} (hkind : m.kind.isInteger = true ∨ m.kind = .double)
    {v : Graph.Value} {n : ℤ} (hv : v.whole? = some n) : ∃ w, m.Reads v w ∧ m.Widens v n w := by
  obtain ⟨i, hi, rfl⟩ := toInt_integer? hv
  rcases hkind with hinteger | hdouble
  · exact ⟨.integer i, .integer hinteger hi, .integer hinteger rfl⟩
  · obtain ⟨q, hnearest⟩ := exists_nearest_int64 i
    have hfloat : v.float? = some (Decimal.finite (i < 0) i.toInt.natAbs 0).toFloat := by
      cases v <;> simp_all [Graph.Value.float?, Graph.Value.integer?]
    refine ⟨.float _, .float hdouble hfloat, ?_⟩
    by_cases hbinary : IsBinary i.toInt
    · have hvalue := hnearest.value_eq
      rw [hnearest.eq_of_isBinary hbinary] at hvalue
      exact .float hdouble hvalue
    · have hlarge : 2 ^ 53 < i.toInt.natAbs :=
        Nat.lt_of_not_le fun hle => hbinary (IsBinary.of_natAbs_le hle)
      obtain ⟨j, hj⟩ : ∃ j, v = .long j := by
        by_contra hnot
        exact Nat.not_le_of_lt hlarge (natAbs_le_of_whole? hv fun j hj => hnot ⟨j, hj⟩)
      exact .rounded hdouble hj hlarge (fun y hy => hbinary (isBinary_of_value? hy)) hnearest

/-! ## Whole graphs -/

/-- A leaf outside associations gives an integer for a numeric field of its entity. -/
structure Stop.Gives (s : Stop) (m : Mapping) (v : Graph.Value) (n : ℤ) : Prop where
  field : ∃ e, s.IsLeafOf e ∧ m ∈ mappings e
  name_eq : m.name = s.node.name
  numeric : m.kind.isInteger = true ∨ m.kind = .double
  value_eq : s.node.value = some v
  whole_eq : v.whole? = some n

/-- A leaf writes what the field reads, and nothing else. -/
theorem Stop.Gives.writes {s : Stop} {m : Mapping} {v : Graph.Value} {n : ℤ} (h : s.Gives m v n) :
    ∃ w, m.Widens v n w ∧ ∀ w', s.Writes m.key w' ↔ w' = w := by
  obtain ⟨e, hleaf, hm⟩ := h.field
  obtain ⟨w, hreads, hwidens⟩ := Mapping.exists_reads h.numeric h.whole_eq
  have hwrites : s.Writes m.key w := .field hleaf hm h.name_eq h.value_eq hreads
  refine ⟨w, hwidens, fun w' => ⟨fun hw' => ?_, fun hw' => hw' ▸ hwrites⟩⟩
  rw [← Stop.written?_eq_some_iff] at hw' hwrites
  exact Option.some.inj (hw'.symm.trans hwrites)

/--
An integer that a leaf gives for a numeric field is written to the record as the same number, unless
it is a long integer that no float is the same number as, and the field is one of floats; then the
nearest float is written. The record has what was written unless a later leaf writes the same key.
-/
theorem decode_widened {g : Graph} {t : Topology} (ht : g.topology = .ok t) {fallback : String}
    {mode : Narrowing} {r : Record} (h : (decode fallback mode g).result = .ok r) {s : Stop}
    {m : Mapping} {v : Graph.Value} {n : ℤ} (hgives : s.Gives m v n) :
    ∃ w, m.Widens v n w ∧ (∀ w', s.Writes m.key w' ↔ w' = w) ∧
      ∀ before after, preorder g (valid_of_topology_eq_ok ht) {} t.root = before ++ s :: after →
        (∀ s' ∈ after, ∀ w', ¬ s'.Writes m.key w') → r.get? m.key = some w := by
  obtain ⟨w, hwidens, hwrites⟩ := hgives.writes
  refine ⟨w, hwidens, hwrites, fun before after hstops hlast => ?_⟩
  obtain ⟨e, -, hm⟩ := hgives.field
  rw [get?_decoded ht h fun k => (marking_key_ne hm k).symm,
    findSome?_reverse_eq_some_iff_lastOf fun _ _ _ => Stop.written?_eq_some_iff]
  exact ⟨before, s, after, hstops, (hwrites w).mpr rfl, hlast⟩

/-- A job with a number of 54 significant bits, and a number of reports. -/
def numbered : Graph where
  nodes := #[⟨0, .root, "product", none⟩, ⟨1, .entity, "gmti", none⟩,
    ⟨2, .leaf, "identifierJob", some (.long 9007199254740993)⟩,
    ⟨3, .leaf, "numberOfTargetReports", some (.ushort 7)⟩]
  edges := #[⟨0, 1⟩, ⟨1, 2⟩, ⟨1, 3⟩]

/-- The leaf with the number of reports, as the walk comes to it. -/
def reports : Stop := ⟨⟨3, .leaf, "numberOfTargetReports", some (.ushort 7)⟩, inside .gmti⟩

/-- The number of reports is the last leaf of the walk, and it is in the record. -/
theorem decode_widened_numbered :
    let r : Record := {
      attributes := [("isr.moving-target-job-id", .float 9007199254740992.0),
        ("isr.target-report-count", .integer 7)]
      product := some .gmti, contentType := some "GMTI" }
    (decode "DATA" .legacy numbered).result = .ok r ∧
      (Mapping.plain "numberOfTargetReports" "isr.target-report-count" .long).Widens
        (.ushort 7) 7 (.integer 7) ∧
      (∀ w, reports.Writes "isr.target-report-count" w ↔ w = .integer 7) ∧
      r.get? "isr.target-report-count" = some (.integer 7) := by
  intro r
  obtain ⟨t, ht⟩ : ∃ t, numbered.topology = .ok t := ⟨_, rfl⟩
  have hdecode : (decode "DATA" .legacy numbered).result = .ok r := by
    decide +kernel
  have hv := valid_of_topology_eq_ok ht
  have hroot : t.root = 0 := (Option.some.inj (topology_ok ht).2.1).symm
  have hstops : preorder numbered hv {} t.root =
      [⟨⟨1, .entity, "gmti", none⟩, {}⟩,
        ⟨⟨2, .leaf, "identifierJob", some (.long 9007199254740993)⟩, inside .gmti⟩] ++
      [reports] := by
    rw [hroot, preorder_of_some hv (n := ⟨0, .root, "product", none⟩) rfl,
      show numbered.children 0 = [1] from rfl, List.flatMap_singleton,
      preorder_of_some hv (n := ⟨1, .entity, "gmti", none⟩) rfl,
      show numbered.children 1 = [2, 3] from rfl, List.flatMap_cons, List.flatMap_singleton,
      preorder_of_some hv (n := ⟨2, .leaf, "identifierJob", _⟩) rfl,
      show numbered.children 2 = [] from rfl,
      preorder_of_some hv (n := ⟨3, .leaf, "numberOfTargetReports", _⟩) rfl,
      show numbered.children 3 = [] from rfl]
    rfl
  have hgives : reports.Gives (.plain "numberOfTargetReports" "isr.target-report-count" .long)
      (.ushort 7) 7 :=
    ⟨⟨.gmti, ⟨rfl, rfl, rfl⟩, by decide⟩, rfl, .inl rfl, rfl, rfl⟩
  obtain ⟨w, hwidens, hwrites, hlast⟩ := decode_widened ht hdecode hgives
  have hget := hlast _ [] hstops (List.forall_mem_nil _)
  obtain rfl : Record.Value.integer 7 = w := Option.some.inj hget
  exact ⟨hdecode, hwidens, hwrites, hget⟩

/-- The number of the job is another one in the record. -/
theorem job_not_widened : ∃ x,
    (decode "DATA" .legacy numbered).result = .ok
      { attributes := [("isr.moving-target-job-id", .float x),
          ("isr.target-report-count", .integer 7)]
        product := some .gmti, contentType := some "GMTI" } ∧
    (Graph.Value.long 9007199254740993).whole? = some 9007199254740993 ∧
    value? x = some 9007199254740992 :=
  ⟨9007199254740992.0, by decide +kernel, rfl, by decide +kernel⟩

end Catalogue.Exchange
