import Catalogue.Exchange.Decode
import Catalogue.Proofs.Graph.Timestamp
import Catalogue.Proofs.Number.Integer

/-!
# One field there and back

The value of a field is encoded as a leaf, and the leaf is read by the same field. A value whose
variant the field calls for comes back, unless a table does not have it or it is a date inside a
leap second; every other value leaves nothing behind.

* `Mapping.keeps` — whether a value comes back.
* `encodeField_suits` — the leaf of a value is read as the value, if it comes back.
* `nodup_fieldKeys` — no two fields that are looked at for a record have the same key.
-/

namespace Catalogue.Number

/-! ## Narrow integers -/

theorem toInt64_of_int16? {n : Int64} {a : Int16} (h : int16? n.toInt = some a) :
    a.toInt64 = n := by
  rw [← Int64.toInt_inj, Int16.toInt_toInt64, int16?_eq_some_iff.mp h]

theorem toInt64_of_int32? {n : Int64} {a : Int32} (h : int32? n.toInt = some a) :
    a.toInt64 = n := by
  rw [← Int64.toInt_inj, Int32.toInt_toInt64, int32?_eq_some_iff.mp h]

theorem ofInt_toNat_of_uint16? {n : Int64} {a : UInt16} (h : uint16? n.toInt = some a) :
    Int64.ofInt a.toNat = n := by
  rw [uint16?_eq_some_iff.mp h, Int64.ofInt_toInt]

theorem ofInt_toNat_of_uint32? {n : Int64} {a : UInt32} (h : uint32? n.toInt = some a) :
    Int64.ofInt a.toNat = n := by
  rw [uint32?_eq_some_iff.mp h, Int64.ofInt_toInt]

end Catalogue.Number

namespace Catalogue.Exchange

open Catalogue.Graph (Timestamp)
open Catalogue.Record (Product)
open Catalogue.Schema (Entity Kind)

/-! ## One field -/

/-- Whether a value of a record comes back from the attribute of a field. -/
def Mapping.keeps (m : Mapping) (v : Record.Value) : Bool :=
  match m.kind, v with
  | .text, .text s => m.table.all (·.contains s)
  | .short, .integer _ => true
  | .ushort, .integer _ => true
  | .int, .integer _ => true
  | .uint, .integer _ => true
  | .long, .integer _ => true
  | .double, .float _ => true
  | .bool, .bool _ => true
  | .date, .date t => !t.isLeap
  | _, _ => false

/-- The leaf of a finding, if it is one. -/
def Finding.leaf? : Finding → Option Graph.Value
  | leaf v => some v
  | _ => none

/-- A reading that is a value for the record, or nothing. -/
inductive Reading.Yields : Reading → Option (String × Record.Value) → Prop
  | write (key : String) (v : Record.Value) : Yields (.write key v) (some (key, v))
  | skipped (e : Journal.Entry) : Yields (.skipped e) none

/-- What a value leaves behind. -/
def Mapping.kept? (m : Mapping) (v : Record.Value) : Option (String × Record.Value) :=
  if m.keeps v then some (m.key, v) else none

theorem kept?_of_keeps {m : Mapping} {v : Record.Value} (h : m.keeps v = true) :
    m.kept? v = some (m.key, v) :=
  if_pos h

theorem kept?_of_not_keeps {m : Mapping} {v : Record.Value} (h : m.keeps v = false) :
    m.kept? v = none :=
  if_neg (by rw [h]; exact Bool.false_ne_true)

/-- What becomes of a value agrees with what it leaves behind, when its leaf is read back. -/
def Finding.Suits (read : Graph.Value → Reading) (w : Option (String × Record.Value)) :
    Finding → Prop
  | leaf v => (read v).Yields w
  | skipped _ => w = none
  | refused _ => True

/-- A leaf from which a kept value is read leaves that value behind. -/
theorem yields_of_write {e : Entity} {m : Mapping} {v : Record.Value} {w : Graph.Value}
    (hread : decodeField e m w = .write m.key v) (hkeeps : m.keeps v = true) :
    (decodeField e m w).Yields (m.kept? v) := by
  rw [hread, kept?_of_keeps hkeeps]
  exact .write _ _

/-- A leaf that has the integer of a record is read as that integer. -/
theorem decodeField_integer {e : Entity} {m : Mapping} {n : Int64} {w : Graph.Value}
    (hkind : m.kind ∈ [Kind.short, .ushort, .int, .uint, .long]) (hw : w.integer? = some n) :
    (decodeField e m w).Yields (m.kept? (.integer n)) := by
  simp only [List.mem_cons, List.not_mem_nil, or_false] at hkind
  refine yields_of_write ?_ ?_
  · rcases hkind with hkind | hkind | hkind | hkind | hkind <;>
      simp only [decodeField, hkind, hw, Option.map_some, Option.getD_some]
  · rcases hkind with hkind | hkind | hkind | hkind | hkind <;> simp only [Mapping.keeps, hkind]

theorem fitted_suits {α : Type} {e : Entity} {m : Mapping} {n : Int64} {leaf : α → Graph.Value}
    {fit : Option α} (hkind : m.kind ∈ [Kind.short, .ushort, .int, .uint, .long])
    (h : ∀ a, fit = some a → (leaf a).integer? = some n) :
    (fitted m n leaf fit).Suits (decodeField e m) (m.kept? (.integer n)) := by
  cases fit with
  | none => trivial
  | some a => exact decodeField_integer hkind (h a rfl)

/-- The leaf of a value is read as the value, if it comes back; nothing else is left behind. -/
theorem encodeField_suits (e : Entity) (m : Mapping) (v : Record.Value) :
    (encodeField e m v).Suits (decodeField e m) (m.kept? v) := by
  fun_cases encodeField e m v with
  | case1 s hkind t htable hmem =>
    refine yields_of_write ?_ ?_
    · simp only [decodeField, hkind, Graph.Value.text?, Option.map_some, Option.getD_some,
        readText, htable, hmem, if_true]
    · simp only [Mapping.keeps, hkind, htable, Option.all_some, hmem]
  | case2 s hkind t htable hmem =>
    exact kept?_of_not_keeps (by simp [Mapping.keeps, hkind, htable, hmem])
  | case3 s hkind htable =>
    refine yields_of_write ?_ ?_
    · simp only [decodeField, hkind, Graph.Value.text?, Option.map_some, Option.getD_some,
        readText, htable]
    · simp only [Mapping.keeps, hkind, htable, Option.all_none]
  | case4 n hkind =>
    exact fitted_suits (by simp [hkind]) fun a h => congrArg some (Number.toInt64_of_int16? h)
  | case5 n hkind =>
    exact fitted_suits (by simp [hkind]) fun a h => congrArg some (Number.ofInt_toNat_of_uint16? h)
  | case6 n hkind =>
    exact fitted_suits (by simp [hkind]) fun a h => congrArg some (Number.toInt64_of_int32? h)
  | case7 n hkind =>
    exact fitted_suits (by simp [hkind]) fun a h => congrArg some (Number.ofInt_toNat_of_uint32? h)
  | case8 n hkind => exact decodeField_integer (by simp [hkind]) rfl
  | case9 x hkind =>
    refine yields_of_write ?_ ?_
    · simp only [decodeField, hkind, Graph.Value.float?, Option.map_some, Option.getD_some]
    · simp only [Mapping.keeps, hkind]
  | case10 b hkind =>
    refine yields_of_write ?_ ?_
    · simp only [decodeField, hkind, Graph.Value.bool?, Option.map_some, Option.getD_some]
    · simp only [Mapping.keeps, hkind]
  | case11 t hkind =>
    show (decodeField e m _).Yields _
    simp only [decodeField, hkind, Graph.Value.date?, Option.map_some, Option.getD_some, readDate,
      Timestamp.instant?_ofInstant]
    cases hleap : t.isLeap with
    -- the leaf is there, but its parts name no instant
    | true =>
      rw [kept?_of_not_keeps (by simp [Mapping.keeps, hkind, hleap])]
      exact .skipped _
    | false =>
      rw [kept?_of_keeps (by simp [Mapping.keeps, hkind, hleap])]
      exact .write _ _
  | case12 =>
    apply kept?_of_not_keeps
    -- the variant is not the one that the kind calls for
    fun_cases Mapping.keeps m v <;> simp_all

/-- Apart from dates, whatever becomes a leaf comes back. -/
theorem keeps_of_leaf {e : Entity} {m : Mapping} {v : Record.Value} {w : Graph.Value}
    (h : encodeField e m v = .leaf w) (hkind : m.kind ≠ .date) : m.keeps v = true := by
  fun_cases Mapping.keeps m v with
  | case1 s hm =>
    simp only [encodeField, hm] at h
    cases htable : m.table with
    | none => rfl
    | some t =>
      simp only [htable] at h
      by_cases hmem : t.contains s = true
      · exact hmem
      · rw [if_neg hmem] at h
        cases h
  | case9 t hm => exact absurd hm hkind
  | case10 => simp_all [encodeField]
  | _ => rfl

/-- A value that is not refused becomes a leaf exactly when it comes back. -/
theorem leaf?_isSome {e : Entity} {m : Mapping} {v : Record.Value} (hkind : m.kind ≠ .date)
    (hnot : ∀ err, encodeField e m v ≠ .refused err) :
    (encodeField e m v).leaf?.isSome = m.keeps v := by
  have hsuits := encodeField_suits e m v
  cases h : encodeField e m v with
  | leaf w => exact (keeps_of_leaf h hkind).symm
  | skipped entry =>
    rw [h] at hsuits
    have hnone : m.kept? v = none := hsuits
    rw [Mapping.kept?, ite_eq_right_iff] at hnone
    exact (Bool.eq_false_iff.mpr fun hkeeps => by cases hnone hkeeps).symm
  | refused err => exact absurd h (hnot err)

/-! ## Fields in their tables -/

/-- The scope inside an entity below the root. -/
def inside (e : Entity) : Scope := ({} : Scope).enter e.name

theorem inside_eq (e : Entity) : inside e = ⟨some e.name, decide (e = .association)⟩ := by
  cases e <;> rfl

/-- A field is found under its name, and no special leaf is in its place. -/
theorem mapping?_name (e : Entity) : ∀ m ∈ mappings e, mapping? e m.name = some m ∧
    m.name ≠ boxName ∧ e.holdsMarkings = false ∧ e ≠ .association := by
  cases e <;> decide +kernel

theorem contribution_field {e : Entity} {m : Mapping} (hm : m ∈ mappings e) (w : Graph.Value) :
    contribution (inside e) m.name w = decodeField e m w := by
  obtain ⟨hfind, hname, hmarkings, hassociation⟩ := mapping?_name e m hm
  simp [contribution, inside_eq, Entity.ofName?_name, hfind, hname, hmarkings, hassociation]

theorem contribution_box (w : Graph.Value) :
    contribution (inside .coverage) boxName w = readBox w := rfl

theorem contribution_marking (m : Marking) (s : String) :
    contribution (inside .security) m.name (.text s) = .mark m s := by
  cases m <;> rfl

/-- The keys of the fields that are looked at for every record. -/
def sectionKeys : List String := (sections.flatMap mappings).map Mapping.key

/-- The keys of the fields that are looked at for a record of a type. -/
def fieldKeys (p : Option Product) : List String :=
  ((sections ++ (p.map Product.entity).toList).flatMap mappings).map Mapping.key

theorem nodup_sectionKeys : sectionKeys.Nodup := by decide +kernel

/-- The fields of a type have keys of their own. -/
theorem nodup_typeKeys (p : Product) : ((mappings p.entity).map Mapping.key).Nodup ∧
    ∀ key ∈ (mappings p.entity).map Mapping.key, key ∉ sectionKeys := by
  cases p <;> decide +kernel

/-- No two fields that are looked at for a record have the same key. -/
theorem nodup_fieldKeys (p : Option Product) : (fieldKeys p).Nodup := by
  rw [fieldKeys, List.flatMap_append, List.map_append]
  cases p with
  | none =>
    rw [Option.map_none, Option.toList_none, List.flatMap_nil, List.map_nil, List.append_nil]
    exact nodup_sectionKeys
  | some p =>
    obtain ⟨hnodup, hnot⟩ := nodup_typeKeys p
    rw [Option.map_some, Option.toList_some, List.flatMap_singleton, List.nodup_append]
    exact ⟨nodup_sectionKeys, hnodup, fun key hkey other hother heq =>
      hnot other hother (heq ▸ hkey)⟩

/-- The location and the markings have keys of their own. -/
theorem key_ne (e : Entity) : ∀ m ∈ mappings e,
    m.key ≠ locationKey ∧ ∀ k ∈ Marking.all, k.key ≠ m.key := by
  cases e <;> decide +kernel

theorem locationKey_ne (m : Marking) : locationKey ≠ m.key := by cases m <;> decide

theorem marking_key_ne {e : Entity} {m : Mapping} (hm : m ∈ mappings e) (k : Marking) :
    m.key ≠ k.key := fun h => (key_ne e m hm).2 k (by cases k <;> decide) h.symm

/-- No field of a type's own entity is a date. -/
theorem kind_ne_date (p : Product) : ∀ m ∈ mappings p.entity, m.kind ≠ .date := by
  cases p <;> decide +kernel

/-! ## The location -/

/-- The text of a record's location. -/
def locationText? (r : Record) : Option String :=
  match r.get? locationKey with
  | some (.text wkt) => some wkt
  | some (.geometry wkt) => some wkt
  | _ => none

/-- The box around the geometry of a text, as a geometry. -/
def boxed? (wkt : String) : Option Record.Value :=
  match Geometry.parse wkt with
  | .ok g => some (.geometry g.envelope.toGeometry.text)
  | .error _ => none

/-- The location that a record leaves behind. -/
def keptLocation? (r : Record) : Option (String × Record.Value) :=
  ((locationText? r).bind boxed?).map (locationKey, ·)

theorem boxOf_suits (wkt : String) :
    (boxOf wkt).Suits readBox ((boxed? wkt).map (locationKey, ·)) := by
  rw [boxOf, boxed?]
  cases Geometry.parse wkt with
  | ok g => exact .write _ _
  | error e => trivial

theorem locationFinding?_suits {r : Record} {f : Finding} (h : locationFinding? r = some f) :
    f.Suits readBox (keptLocation? r) := by
  rw [locationFinding?, Option.map_eq_some_iff] at h
  obtain ⟨v, hv, rfl⟩ := h
  cases v with
  | text wkt => simpa [keptLocation?, locationText?, hv] using boxOf_suits wkt
  | geometry wkt => simpa [keptLocation?, locationText?, hv] using boxOf_suits wkt
  | _ =>
    show keptLocation? r = none
    simp [keptLocation?, locationText?, hv]

theorem locationFinding?_of_text {r : Record} {wkt : String} (h : locationText? r = some wkt) :
    locationFinding? r = some (boxOf wkt) := by
  rw [locationText?] at h
  rw [locationFinding?]
  split at h
  · next hget =>
    obtain rfl := Option.some.inj h
    rw [hget]
    rfl
  · next hget =>
    obtain rfl := Option.some.inj h
    rw [hget]
    rfl
  · cases h

theorem keptLocation?_of_none {r : Record} (h : locationFinding? r = none) :
    keptLocation? r = none := by
  rw [locationFinding?, Option.map_eq_none_iff] at h
  simp [keptLocation?, locationText?, h]

end Catalogue.Exchange
