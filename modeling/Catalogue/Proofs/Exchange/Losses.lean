import Catalogue.Journal.Line
import Catalogue.Proofs.Exchange.Leaves

/-!
# Lost values

A value that a record has at a place becomes one leaf there, or there is no leaf and one warning
names the place. Only a marking whose value is no text leaves neither behind.

* `Place.Makes` — the leaf that is made from a value.
* `warningsAt` — the written warnings that name a place.
* `encode_accounts_iff` — a value is lost without a warning exactly when it is that of a marking and
  no text.
-/

namespace Catalogue.Exchange

open Catalogue.Graph (Timestamp)
open Catalogue.Journal (Entry Event Session)
open Catalogue.Schema (Entity rootName)

/-! ## What a value becomes -/

/-- A leaf is made from a value at a place. -/
inductive Place.Makes : Place → Record.Value → Graph.Value → Prop
  | text {e m s} : m.kind = .text → m.table.all (·.contains s) = true →
    Makes (.field e m) (.text s) (.text s)
  | integer {e m n w} : w.kind = m.kind → w.integer? = some n → Makes (.field e m) (.integer n) w
  | float {e m x} : m.kind = .double → Makes (.field e m) (.float x) (.double x)
  | bool {e m b} : m.kind = .bool → Makes (.field e m) (.bool b) (.bool b)
  | date {e m t} : m.kind = .date → Makes (.field e m) (.date t) (.date (Timestamp.ofInstant t))
  | box {v wkt g} : v = .text wkt ∨ v = .geometry wkt → Geometry.parse wkt = .ok g →
    Makes .location v (.rectangle g.envelope)
  | marking {m s} : Makes (.marking m) (.text s) (.text s)

/-- A value that is no text is passed over at the place of a marking. -/
inductive Place.Overlooks : Place → Record.Value → Prop
  | marking {m v} : (∀ s, v ≠ .text s) → Overlooks (.marking m) v

/-- An entry reports that a value is left out at an attribute of an entity. -/
inductive Tells (e : Entity) : String → Entry → Prop
  | kind {name expected actual} : Tells e name (kindReport e name expected actual)
  | member {m t s} : Tells e m.name (unknownMember e m t s)

/-- What becomes of a value is a leaf made from it, a report or an error. -/
inductive Place.Becomes (p : Place) (v : Record.Value) : Finding → Prop
  | leaf {w} : p.Makes v w → Becomes p v (.leaf w)
  | skipped {x} : Tells p.entity p.name x → Becomes p v (.skipped x)
  | refused {e} : Becomes p v (.refused e)

theorem becomes_fitted {α : Type} {e : Entity} {m : Mapping} {n : Int64} {leaf : α → Graph.Value}
    {fit : Option α} (hkind : ∀ a, (leaf a).kind = m.kind)
    (hfit : ∀ a, fit = some a → (leaf a).integer? = some n) :
    (Place.field e m).Becomes (.integer n) (fitted m n leaf fit) := by
  cases fit with
  | none => exact .refused
  | some a => exact .leaf (.integer (hkind a) (hfit a rfl))

theorem becomes_encodeField (e : Entity) (m : Mapping) (v : Record.Value) :
    (Place.field e m).Becomes v (encodeField e m v) := by
  fun_cases encodeField e m v with
  | case1 s hkind t htable hmem => exact .leaf (.text hkind (by rw [htable]; exact hmem))
  | case2 s hkind t htable hmem => exact .skipped .member
  | case3 s hkind htable => exact .leaf (.text hkind (by rw [htable]; rfl))
  | case4 n hkind =>
    exact becomes_fitted (fun _ => hkind.symm) fun a h => congrArg some (Number.toInt64_of_int16? h)
  | case5 n hkind =>
    exact becomes_fitted (fun _ => hkind.symm) fun a h =>
      congrArg some (Number.ofInt_toNat_of_uint16? h)
  | case6 n hkind =>
    exact becomes_fitted (fun _ => hkind.symm) fun a h => congrArg some (Number.toInt64_of_int32? h)
  | case7 n hkind =>
    exact becomes_fitted (fun _ => hkind.symm) fun a h =>
      congrArg some (Number.ofInt_toNat_of_uint32? h)
  | case8 n hkind => exact .leaf (.integer hkind.symm rfl)
  | case9 x hkind => exact .leaf (.float hkind)
  | case10 b hkind => exact .leaf (.bool hkind)
  | case11 t hkind => exact .leaf (.date hkind)
  | case12 => exact .skipped .kind

theorem becomes_boxOf {v : Record.Value} {wkt : String} (hv : v = .text wkt ∨ v = .geometry wkt) :
    Place.location.Becomes v (boxOf wkt) := by
  rw [boxOf]
  split
  · next g hg => exact .leaf (.box hv hg)
  · exact .refused

/-- Something becomes of the value at a place, unless it is passed over. -/
theorem Place.becomes_of_get? {r : Record} {p : Place} {v : Record.Value}
    (hv : r.get? p.key = some v) :
    (∃ f, p.finding? r = some f ∧ p.Becomes v f ∧ ¬ p.Overlooks v) ∨
      (p.finding? r = none ∧ p.Overlooks v) := by
  cases p with
  | field e m =>
    refine .inl ⟨encodeField e m v, ?_, becomes_encodeField e m v, by rintro ⟨⟩⟩
    rw [finding?, show r.get? m.key = some v from hv, Option.map_some]
  | location =>
    rw [finding?, locationFinding?, show r.get? locationKey = some v from hv, Option.map_some]
    refine .inl ⟨_, rfl, ?_, by rintro ⟨⟩⟩
    cases v with
    | text wkt => exact becomes_boxOf (.inl rfl)
    | geometry wkt => exact becomes_boxOf (.inr rfl)
    | _ => exact .skipped .kind
  | marking m =>
    rw [finding?, Record.text?, show r.get? m.key = some v from hv]
    cases v with
    | text s =>
      refine .inl ⟨_, rfl, .leaf .marking, ?_⟩
      rintro ⟨hne⟩
      exact hne s rfl
    | _ => exact .inr ⟨rfl, .marking (by simp)⟩

theorem Place.finding?_of_get?_eq_none {r : Record} {p : Place} (hv : r.get? p.key = none) :
    p.finding? r = none := by
  cases p with
  | field e m => exact Option.map_eq_none_iff.mpr hv
  | location => exact Option.map_eq_none_iff.mpr hv
  | marking m => rw [finding?, Record.text?, show r.get? m.key = none from hv, Option.map_none]

/-- No value of an encoded record is refused. -/
theorem Place.finding?_ne_refused {r : Record} {g : Graph} (h : (encode r).result = .ok g)
    {p : Place} (hp : p ∈ places r) (e : ExchangeError) : p.finding? r ≠ some (.refused e) := by
  intro hf
  have hrefuses : p.Refuses r e := refusal?_eq_some_iff.mp (by rw [hf]; rfl)
  rcases List.mem_append.mp hp with hp | hp
  · exact (exists_encode_iff r).mp ⟨g, h⟩ p hp e hrefuses
  · obtain ⟨m, -, rfl⟩ := List.mem_map.mp hp
    cases hrefuses

/-! ## Reports of encoding -/

/-- The report of a value that is left out. -/
def Finding.skipped? : Finding → Option Entry
  | skipped x => some x
  | _ => none

/-- The report that the value at a place is left out. -/
def Place.skipped? (r : Record) (p : Place) : Option Entry :=
  (p.finding? r).bind Finding.skipped?

theorem leaves_entries {fs : List (String × Finding)} (h : ∀ f ∈ fs, ∀ e, f.2 ≠ .refused e) :
    (leaves fs).entries = fs.filterMap fun f => f.2.skipped? := by
  induction fs with
  | nil => rfl
  | cons f rest ih =>
    obtain ⟨hf, hrest⟩ := List.forall_mem_cons.mp h
    obtain ⟨name, f⟩ := f
    cases f with
    | leaf v => exact ih hrest
    | skipped x => exact congrArg (x :: ·) (ih hrest)
    | refused e => exact absurd rfl (hf e)

theorem gather_entries {r : Record} {es : List Entity} (h : NoneRefused r es) :
    (gather r es).entries = (es.flatMap (findings r)).filterMap fun f => f.2.skipped? := by
  induction es with
  | nil => rfl
  | cons e rest ih =>
    obtain ⟨hnone, hrest⟩ := List.forall_mem_cons.mp h
    have hleaves := leaves_result (findings r e)
    rw [refusals_eq_nil_iff.mpr hnone] at hleaves
    simp only [gather, hleaves, leaves_entries hnone, ih hrest, List.flatMap_cons,
      List.filterMap_append]

/-- Encoding reports the values that are left out, and then its graph. -/
theorem encode_entries {r : Record} {g : Graph} (h : (encode r).result = .ok g) :
    (encode r).entries = (places r).filterMap (Place.skipped? r) ++ [encodedReport g r] := by
  obtain ⟨rfl, hnone⟩ := encode_ok h
  have hgather := gather_result r (sectionsOf r)
  rw [noneRefused_iff.mpr hnone] at hgather
  have hmarkings : (Marking.all.map Place.marking).filterMap (Place.skipped? r) = [] := by
    rw [List.filterMap_eq_nil_iff]
    intro p hp
    obtain ⟨m, -, rfl⟩ := List.mem_map.mp hp
    rw [Place.skipped?, Place.finding?]
    cases r.text? m.key <;> rfl
  rw [encode]
  simp only [hgather, gather_entries hnone, filterMap_findings Finding.skipped?]
  rw [places, List.filterMap_append, hmarkings, List.append_nil]
  rfl

/-! ## Warnings about a place -/

/-- An entry is a warning that a value is left out at a place. -/
def Place.IsWarning (p : Place) (x : Entry) : Prop :=
  x.severity = .warn ∧
    x.event ∈ [Event.attributeKindMismatch.name, Event.enumerationUnknown.name] ∧
    ("entity", p.entity.name) ∈ x.fields ∧ ("attribute", p.name) ∈ x.fields

instance (p : Place) (x : Entry) : Decidable (p.IsWarning x) :=
  inferInstanceAs (Decidable (_ ∧ _))

/-- The entries that a session writes as warnings about a place. -/
def warningsAt (s : Session) (p : Place) (es : List Entry) : List Entry :=
  (es.filter fun x => s.shows x.severity).filter fun x => p.IsWarning x

theorem Tells.isWarning_iff {e : Entity} {name : String} {x : Entry} (h : Tells e name x)
    {p : Place} : p.IsWarning x ↔ e = p.entity ∧ name = p.name := by
  cases h <;>
    simp [Place.IsWarning, kindReport, unknownMember, Entry.report, Event.severity,
      Event.isWarning, name_injective.eq_iff, eq_comm]

theorem Place.tells_of_skipped? {r : Record} {p : Place} {x : Entry}
    (h : p.skipped? r = some x) : Tells p.entity p.name x := by
  obtain ⟨f, hf, hx⟩ := Option.bind_eq_some_iff.mp h
  cases hv : r.get? p.key with
  | none =>
    rw [finding?_of_get?_eq_none hv] at hf
    cases hf
  | some v =>
    rcases becomes_of_get? hv with ⟨f', hf', hbecomes, -⟩ | ⟨hnone, -⟩
    · obtain rfl := Option.some.inj (hf.symm.trans hf')
      cases hbecomes with
      | skipped htells => exact Option.some.inj hx ▸ htells
      | _ => cases hx
    · rw [hf] at hnone
      cases hnone

theorem warningsAt_eq {s : Session} (hs : s.shows .warn = true) (p : Place) (es : List Entry) :
    warningsAt s p es = es.filter fun x => p.IsWarning x := by
  rw [warningsAt, List.filter_filter]
  refine List.filter_congr fun x _ => ?_
  rw [Bool.and_eq_left_iff_imp]
  intro hwarning
  rw [(of_decide_eq_true hwarning).1]
  exact hs

/-- The warnings about a place tell of the value there alone. -/
theorem warningsAt_encode {r : Record} {g : Graph} (h : (encode r).result = .ok g) {s : Session}
    (hs : s.shows .warn = true) {p : Place} (hp : p ∈ places r) :
    warningsAt s p (encode r).entries = (p.skipped? r).toList := by
  have hreport : ([encodedReport g r].filter fun x => p.IsWarning x) = [] := by
    refine List.filter_cons_of_neg fun hwarning => ?_
    cases (of_decide_eq_true hwarning).1
  rw [warningsAt_eq hs, encode_entries h, List.filter_append, hreport, List.append_nil,
    List.filter_filterMap, ← filterMap_places hp]
  refine List.filterMap_congr fun q _ => ?_
  cases hskipped : q.skipped? r with
  | none => exact (ite_self _).symm
  | some x => simp [Option.filter_some, (q.tells_of_skipped? hskipped).isWarning_iff]

/-! ## Accounting for values -/

/-- A value leaves one leaf that is made from it and no warning, or one warning and no leaf. -/
def Accounted (p : Place) (v : Record.Value) (leaves : List Graph.Value)
    (warnings : List Entry) : Prop :=
  (∃ w, p.Makes v w ∧ leaves = [w] ∧ warnings = []) ∨ (leaves = [] ∧ ∃ x, warnings = [x])

/--
Every value that a record has at a place becomes one leaf there or is reported by one written
warning that names the place, unless the place is that of a marking and the value is no text. Then
the value leaves nothing, and nothing is reported. Different places have values of different keys.
-/
theorem encode_accounts_iff {r : Record} {g : Graph} (h : (encode r).result = .ok g) {s : Session}
    (hs : s.shows .warn = true) :
    ((places r).map Place.key).Nodup ∧ ∃ root, g.root? = some root ∧
      ∀ p ∈ places r, ∀ v, r.get? p.key = some v →
        (Accounted p v (leavesAt g root p) (warningsAt s p (encode r).entries) ↔
          ¬ p.Overlooks v) ∧
        (p.Overlooks v → leavesAt g root p = [] ∧ warningsAt s p (encode r).entries = []) := by
  obtain ⟨root, hroot, hleaves⟩ := leavesAt_graphOf r
  have hgraph := (encode_ok h).1
  refine ⟨nodup_map_key_places r, root, hgraph ▸ hroot, fun p hp v hv => ?_⟩
  rw [warningsAt_encode h hs hp, hgraph, hleaves p hp, Place.leaf?, Place.skipped?]
  rcases Place.becomes_of_get? hv with ⟨f, hf, hbecomes, hnot⟩ | ⟨hnone, hoverlooks⟩
  · refine ⟨iff_of_true ?_ hnot, fun hoverlooks => absurd hoverlooks hnot⟩
    rw [hf]
    cases hbecomes with
    | leaf hmakes => exact .inl ⟨_, hmakes, rfl, rfl⟩
    | skipped => exact .inr ⟨rfl, _, rfl⟩
    | refused => exact absurd hf (Place.finding?_ne_refused h hp _)
  · rw [hnone]
    refine ⟨iff_of_false ?_ (not_not_intro hoverlooks), fun _ => ⟨rfl, rfl⟩⟩
    rintro (⟨w, -, hw, -⟩ | ⟨-, x, hx⟩)
    · cases hw
    · cases hx

/-- A card with a status that is not in its table, a location that is a number, and a number where
the classification is expected. -/
def damaged : Record where
  attributes := [("card.status", .text "LOST"), ("id", .text "a"), ("location", .integer 5),
    ("security.classification", .integer 5), ("security.policy", .text "NATO")]

/-- The graph of the damaged record. -/
def damagedGraph : Graph :=
  assemble [(.card, [(identifierName, .text "a")]),
    (.security, [(Marking.policy.name, .text "NATO")])] []

theorem encode_accounts_iff_damaged :
    let s : Session := ⟨.warn, []⟩
    s.shows .warn = true ∧ (encode damaged).result = .ok damagedGraph ∧
      ∃ root, damagedGraph.root? = some root ∧
        Accounted .location (.integer 5) (leavesAt damagedGraph root .location)
          (warningsAt s .location (encode damaged).entries) ∧
        Accounted (.marking .policy) (.text "NATO") (leavesAt damagedGraph root (.marking .policy))
          (warningsAt s (.marking .policy) (encode damaged).entries) ∧
        leavesAt damagedGraph root (.marking .classification) = [] ∧
          warningsAt s (.marking .classification) (encode damaged).entries = [] := by
  intro s
  have hencode : (encode damaged).result = .ok damagedGraph := by decide +kernel
  obtain ⟨-, root, hroot, haccounts⟩ := encode_accounts_iff (s := s) hencode rfl
  refine ⟨rfl, hencode, root, hroot, ?_, ?_, ?_⟩
  · refine (haccounts .location (by decide) _ rfl).1.mpr ?_
    rintro ⟨⟩
  · refine (haccounts (.marking .policy) (by decide) _ rfl).1.mpr ?_
    rintro ⟨hne⟩
    exact hne _ rfl
  · exact (haccounts (.marking .classification) (by decide) _ rfl).2 (.marking (by simp))

/-- A record whose only value is a number where the classification is expected. -/
def unmarked : Record where
  attributes := [("security.classification", .integer 5)]

/-- The classification is lost, and the only entry reports that the record was encoded. -/
theorem encode_unmarked :
    let g := (Graph.ofRoot rootName).1
    (encode unmarked).result = .ok g ∧ (encode unmarked).entries = [encodedReport g unmarked] ∧
      .marking .classification ∈ places unmarked ∧
      unmarked.get? Marking.classification.key = some (.integer 5) ∧
      ∃ root, g.root? = some root ∧
        ¬ ((∃ w, leavesAt g root (.marking .classification) = [w]) ∨
          ∃ x, warningsAt ⟨.warn, []⟩ (.marking .classification) (encode unmarked).entries = [x])
    := by
  have hleaves : leavesAt (Graph.ofRoot rootName).1 0 (.marking .classification) = [] := by decide
  have hwarnings : warningsAt ⟨.warn, []⟩ (.marking .classification) (encode unmarked).entries =
      [] := by
    decide +kernel
  refine ⟨by decide +kernel, by decide +kernel, by decide, rfl, 0, rfl, ?_⟩
  rw [hleaves, hwarnings]
  simp

end Catalogue.Exchange
