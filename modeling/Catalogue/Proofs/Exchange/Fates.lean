import Catalogue.Journal.Line
import Catalogue.Proofs.Exchange.Outcome

/-!
# What becomes of leaves

A leaf that is visited is used up in one way. Its value is written into the record, folded into the
markings or taken as the identifier of an associated record; or it is left out, and then one entry
reports it and nothing else changes.

* `Loses` — why a leaf is left out, with the report of it.
* `Stop.Meets` — what becomes of a leaf, told by where it stands and what it has.
* `Draft.follow_entries` — the reports of a walk are those of the leaves that are left out.
* `decode_fates` — every leaf that decoding visits meets one fate, and the counts add up.
-/

namespace Catalogue.Exchange

open Catalogue.Graph
open Catalogue.Journal (Entry Event Session)
open Catalogue.Schema (Entity Kind)

/-! ## Fates -/

/-- What becomes of a leaf. -/
inductive Fate where
  /-- It is written into the record. -/
  | written (key : String) (v : Record.Value)
  /-- It is folded into the markings. -/
  | folded (m : Marking) (s : String)
  /-- It is added to the associated records. -/
  | appended (identifier : String)
  /-- It is left out, and this is reported. -/
  | reported (x : Entry)

namespace Fate

/-- What becomes of the draft, and what is reported. -/
def outcome (mode : Narrowing) (d : Draft) : Fate → Reported Draft
  | written key v => ⟨.ok { d with record := d.record.set key v }, []⟩
  | folded m s => ⟨.ok { d with markings := d.markings.fold mode m s }, []⟩
  | appended identifier => ⟨.ok { d with associated := d.associated.push identifier }, []⟩
  | reported x => ⟨.ok d, [x]⟩

/-- The contribution that comes to this fate. -/
def reading : Fate → Reading
  | written key v => .write key v
  | folded m s => .mark m s
  | appended identifier => .associate identifier
  | reported x => .skipped x

def isWritten : Fate → Bool
  | written _ _ => true
  | _ => false

def isFolded : Fate → Bool
  | folded _ _ => true
  | _ => false

def isAppended : Fate → Bool
  | appended _ => true
  | _ => false

def report? : Fate → Option Entry
  | reported x => some x
  | _ => none

theorem take_reading (mode : Narrowing) (d : Draft) (f : Fate) :
    d.take mode f.reading = f.outcome mode d := by
  cases f <;> rfl

theorem reading_injective {f f' : Fate} (h : f.reading = f'.reading) : f = f' := by
  cases f <;> cases f' <;> cases h <;> rfl

/-- What is not refused comes to a fate. -/
theorem exists_reading_eq {r : Reading} (h : r.refusal? = none) : ∃ f : Fate, f.reading = r := by
  cases r with
  | write key v => exact ⟨.written key v, rfl⟩
  | mark m s => exact ⟨.folded m s, rfl⟩
  | associate identifier => exact ⟨.appended identifier, rfl⟩
  | skipped x => exact ⟨.reported x, rfl⟩
  | refused e => cases h

/-- Every fate is one of the four. -/
theorem length_eq_add (fates : List Fate) :
    fates.length = fates.countP isWritten + fates.countP isFolded + fates.countP isAppended +
      (fates.filterMap report?).length := by
  induction fates with
  | nil => rfl
  | cons f rest ih =>
    cases f <;>
      simp [List.countP_cons, List.filterMap_cons, isWritten, isFolded, isAppended, report?] <;>
      omega

end Fate

/-! ## Leaves that are left out -/

/-- The value has a form in which the kind of the field can be read. -/
inductive Mapping.Takes (m : Mapping) : Graph.Value → Prop
  | text {s} : m.kind = .text → Takes m (.text s)
  | integer {v} : m.kind.isInteger = true → v.integer?.isSome → Takes m v
  | float {v} : m.kind = .double → v.float?.isSome → Takes m v
  | bool {b} : m.kind = .bool → Takes m (.bool b)
  | date {s} : m.kind = .date → Takes m (.date s)

/-- The value of a field is left out, with the report of it. -/
inductive Mapping.Misses (e : Entity) (m : Mapping) : Graph.Value → Entry → Prop
  | kind {v} : ¬ m.Takes v → Misses e m v (wrongKind e m.name m.kind v)
  | member {t s} : m.kind = .text → m.table = some t → t.contains s = false →
    Misses e m (.text s) (unknownMember e m t s)
  | date {s} : m.kind = .date → s.instant? = none → Misses e m (.date s) (invalidDate e m s)

/-- A leaf with a value is left out in its scope, with the report of it. -/
inductive Loses (scope : Scope) (name : String) (v : Graph.Value) : Entry → Prop
  /-- The nearest entity is none of the schema. -/
  | unknown : (∀ e : Entity, scope.entity ≠ some e.name) →
    Loses scope name v (unplaced (scope.entity.getD "") name)
  /-- Below an association there are only identifiers. -/
  | unrelated {e : Entity} : scope.inAssociation = true → scope.entity = some e.name →
    name ≠ identifierName → Loses scope name v (unplaced e.name name)
  | identifier {e : Entity} : scope.inAssociation = true → scope.entity = some e.name →
    name = identifierName → v.text? = none → Loses scope name v (wrongKind e name .text v)
  /-- Among markings there is nothing else. -/
  | unmarked {e : Entity} : scope.inAssociation = false → scope.entity = some e.name →
    e.holdsMarkings = true → v.text?.isSome → (∀ m : Marking, m.name ≠ name) →
    Loses scope name v (unplaced e.name name)
  | marking {e : Entity} : scope.inAssociation = false → scope.entity = some e.name →
    e.holdsMarkings = true → v.text? = none → Loses scope name v (wrongKind e name .text v)
  | box : scope.inAssociation = false → scope.entity = some Entity.coverage.name →
    name = boxName → v.text? = none → v.rectangle? = none →
    Loses scope name v (wrongKind .coverage boxName .rectangle v)
  | field {e : Entity} {m x} : scope.inAssociation = false → scope.entity = some e.name →
    m ∈ mappings e → m.name = name → m.Misses e v x → Loses scope name v x
  /-- The entity has no field of the name. -/
  | unmapped {e : Entity} : scope.inAssociation = false → scope.entity = some e.name →
    e.holdsMarkings = false → ¬ (e = .coverage ∧ name = boxName) →
    (∀ m ∈ mappings e, m.name ≠ name) → Loses scope name v (unplaced e.name name)

theorem getD_map_eq_skipped {α : Type} {a : Option α} {f : α → Reading} {x y : Entry} :
    (a.map f).getD (.skipped x) = .skipped y ↔
      (a = none ∧ x = y) ∨ ∃ b, a = some b ∧ f b = .skipped y := by
  cases a <;> simp

/-- A field leaves out the values that it misses. -/
theorem decodeField_eq_skipped {e : Entity} {m : Mapping} {v : Graph.Value} {x : Entry} :
    decodeField e m v = .skipped x ↔ m.Misses e v x := by
  constructor
  · intro h
    rw [decodeField] at h
    cases hkind : m.kind <;> simp only [hkind, getD_map_eq_skipped] at h
    case text =>
      rcases h with ⟨hnone, rfl⟩ | ⟨s, hs, h⟩
      · rw [← hkind]
        refine .kind fun htakes => ?_
        cases htakes <;> simp_all [Graph.Value.text?, Kind.isInteger]
      · cases v <;> cases hs
        unfold readText at h
        split at h
        · cases h
        · next t htable =>
          split at h
          · cases h
          · next hmem =>
            cases h
            exact .member hkind htable (Bool.eq_false_iff.mpr hmem)
    case date =>
      rcases h with ⟨hnone, rfl⟩ | ⟨s, hs, h⟩
      · rw [← hkind]
        refine .kind fun htakes => ?_
        cases htakes <;> simp_all [Graph.Value.date?, Kind.isInteger]
      · cases v <;> cases hs
        unfold readDate at h
        split at h
        · cases h
        · next hnone =>
          cases h
          exact .date hkind hnone
    case rectangle =>
      cases h
      rw [← hkind]
      refine .kind fun htakes => ?_
      cases htakes <;> simp_all [Kind.isInteger]
    all_goals
      rcases h with ⟨hnone, rfl⟩ | ⟨b, -, ⟨⟩⟩
      rw [← hkind]
      refine .kind fun htakes => ?_
      cases htakes <;> simp_all [Kind.isInteger, Graph.Value.bool?]
  · intro h
    cases h with
    | kind hnot =>
      rw [decodeField]
      cases hkind : m.kind
      case text =>
        have hnone : v.text? = none := by
          cases v <;> first | rfl | exact absurd (.text hkind) hnot
        simp [hnone]
      case double =>
        have hnone : v.float? = none := Option.not_isSome_iff_eq_none.mp (hnot <| .float hkind ·)
        simp [hnone]
      case bool =>
        have hnone : v.bool? = none := by
          cases v <;> first | rfl | exact absurd (.bool hkind) hnot
        simp [hnone]
      case date =>
        have hnone : v.date? = none := by
          cases v <;> first | rfl | exact absurd (.date hkind) hnot
        simp [hnone]
      case rectangle => rfl
      all_goals
        have hnone : v.integer? = none :=
          Option.not_isSome_iff_eq_none.mp (hnot <| .integer (by rw [hkind]; rfl) ·)
        simp [hnone]
    | member hkind htable hmem =>
      simp [decodeField, hkind, Graph.Value.text?, readText, htable, hmem]
    | date hkind hnone => simp [decodeField, hkind, Graph.Value.date?, readDate, hnone]

theorem readBox_eq_skipped {v : Graph.Value} {x : Entry} :
    readBox v = .skipped x ↔
      v.text? = none ∧ v.rectangle? = none ∧ wrongKind .coverage boxName .rectangle v = x := by
  cases v with
  | text wkt =>
    rw [readBox]
    cases Geometry.parse wkt <;> simp [located, Graph.Value.text?]
  | rectangle b => simp [readBox, located, Graph.Value.rectangle?]
  | _ => simp [readBox, Graph.Value.text?, Graph.Value.rectangle?]

theorem readAssociated_eq_skipped {e : Entity} {name : String} {v : Graph.Value} {x : Entry} :
    readAssociated e name v = .skipped x ↔
      (name ≠ identifierName ∧ unplaced e.name name = x) ∨
        (name = identifierName ∧ v.text? = none ∧ wrongKind e name .text v = x) := by
  unfold readAssociated
  by_cases hname : name = identifierName
  · cases htext : v.text? <;> simp [hname]
  · simp [hname]

theorem readMarking_eq_skipped {e : Entity} {name : String} {v : Graph.Value} {x : Entry} :
    readMarking e name v = .skipped x ↔
      (v.text? = none ∧ wrongKind e name .text v = x) ∨
        (v.text?.isSome ∧ (∀ m : Marking, m.name ≠ name) ∧ unplaced e.name name = x) := by
  have hmarking : Marking.ofName? name = none ↔ ∀ m : Marking, m.name ≠ name := by
    simp only [Marking.ofName?, List.find?_eq_none, beq_iff_eq]
    exact ⟨fun h m => h m (by cases m <;> decide), fun h m _ => h m⟩
  unfold readMarking
  cases htext : v.text? with
  | none => simp
  | some s =>
    rw [← hmarking]
    cases Marking.ofName? name <;> simp

/-- What a leaf is read as in an entity of the schema. -/
theorem contribution_of_entity {scope : Scope} {e : Entity} (hentity : scope.entity = some e.name)
    (name : String) (v : Graph.Value) :
    contribution scope name v =
      if scope.inAssociation then readAssociated e name v
      else if e.holdsMarkings then readMarking e name v
      else if e = .coverage ∧ name = boxName then readBox v
      else ((mapping? e name).map (decodeField e · v)).getD (.skipped (unplaced e.name name)) := by
  have hgetD : scope.entity.getD "" = e.name := by rw [hentity]; rfl
  simp only [contribution, hgetD, Entity.ofName?_name]
  cases mapping? e name <;> rfl

/-- In no entity of the schema every leaf is left out. -/
theorem contribution_of_unknown {scope : Scope} (h : ∀ e : Entity, scope.entity ≠ some e.name)
    (name : String) (v : Graph.Value) :
    contribution scope name v = .skipped (unplaced (scope.entity.getD "") name) := by
  have hname : Entity.ofName? (scope.entity.getD "") = none := by
    rw [ofName?_getD, Option.bind_eq_none_iff]
    intro name' hentity
    by_contra hne
    obtain ⟨e, he⟩ := Option.ne_none_iff_exists'.mp hne
    exact h e (by rw [hentity, Entity.ofName?_eq_some_iff.mp he])
  simp only [contribution, hname]

/-- A leaf is left out exactly in these ways. -/
theorem contribution_eq_skipped {scope : Scope} {name : String} {v : Graph.Value} {x : Entry} :
    contribution scope name v = .skipped x ↔ Loses scope name v x := by
  by_cases hknown : ∃ e : Entity, scope.entity = some e.name
  case neg =>
    have hunknown : ∀ e : Entity, scope.entity ≠ some e.name := not_exists.mp hknown
    rw [contribution_of_unknown hunknown]
    constructor
    · rintro ⟨⟩
      exact .unknown hunknown
    · rintro (_ | _)
      · rfl
      all_goals exact absurd ‹scope.entity = some _› (hunknown _)
  case pos =>
    obtain ⟨e, hentity⟩ := hknown
    have hsame : ∀ {e' : Entity}, scope.entity = some e'.name → e = e' := by
      intro e' hentity'
      have hname := Entity.ofName?_name e'
      rw [Option.some.inj (hentity'.symm.trans hentity), Entity.ofName?_name] at hname
      exact Option.some.inj hname
    rw [contribution_of_entity hentity]
    constructor
    · intro h
      split at h
      · next hscope =>
        rcases readAssociated_eq_skipped.mp h with ⟨hname, rfl⟩ | ⟨hname, htext, rfl⟩
        · exact .unrelated hscope hentity hname
        · exact .identifier hscope hentity hname htext
      next hscope =>
      rw [Bool.not_eq_true] at hscope
      split at h
      · next hmarkings =>
        rcases readMarking_eq_skipped.mp h with ⟨htext, rfl⟩ | ⟨htext, hname, rfl⟩
        · exact .marking hscope hentity hmarkings htext
        · exact .unmarked hscope hentity hmarkings htext hname
      next hmarkings =>
      rw [Bool.not_eq_true] at hmarkings
      split at h
      · next hbox =>
        obtain ⟨htext, hrectangle, rfl⟩ := readBox_eq_skipped.mp h
        exact .box hscope (hbox.1 ▸ hentity) hbox.2 htext hrectangle
      next hbox =>
      rcases getD_map_eq_skipped.mp h with ⟨hnone, rfl⟩ | ⟨m, hm, hfield⟩
      · refine .unmapped hscope hentity hmarkings hbox fun m hm => ?_
        simpa using List.find?_eq_none.mp hnone m hm
      · exact .field hscope hentity (List.mem_of_find?_eq_some hm)
          (by simpa using List.find?_some hm) (decodeField_eq_skipped.mp hfield)
    · intro h
      cases h with
      | unknown hnot => exact absurd hentity (hnot e)
      | unrelated hscope hentity' hname =>
        obtain rfl := hsame hentity'
        rw [if_pos hscope, readAssociated_eq_skipped]
        exact .inl ⟨hname, rfl⟩
      | identifier hscope hentity' hname htext =>
        obtain rfl := hsame hentity'
        rw [if_pos hscope, readAssociated_eq_skipped]
        exact .inr ⟨hname, htext, rfl⟩
      | unmarked hscope hentity' hmarkings htext hname =>
        obtain rfl := hsame hentity'
        rw [hscope, if_neg Bool.false_ne_true, if_pos hmarkings, readMarking_eq_skipped]
        exact .inr ⟨htext, hname, rfl⟩
      | marking hscope hentity' hmarkings htext =>
        obtain rfl := hsame hentity'
        rw [hscope, if_neg Bool.false_ne_true, if_pos hmarkings, readMarking_eq_skipped]
        exact .inl ⟨htext, rfl⟩
      | box hscope hentity' hname htext hrectangle =>
        obtain rfl := hsame hentity'
        rw [hscope, if_neg Bool.false_ne_true, if_neg (by decide), if_pos ⟨rfl, hname⟩,
          readBox_eq_skipped]
        exact ⟨htext, hrectangle, rfl⟩
      | field hscope hentity' hm hname hmisses =>
        obtain rfl := hsame hentity'
        obtain ⟨hfind, hne, hmarkings, -⟩ := mapping?_name _ _ hm
        subst hname
        rw [hscope, if_neg Bool.false_ne_true, hmarkings, if_neg Bool.false_ne_true,
          if_neg (hne ·.2), hfind]
        exact decodeField_eq_skipped.mpr hmisses
      | unmapped hscope hentity' hmarkings hbox hname =>
        obtain rfl := hsame hentity'
        have hnone : mapping? e name = none := by
          simpa [mapping?, List.find?_eq_none] using hname
        rw [hscope, if_neg Bool.false_ne_true, hmarkings, if_neg Bool.false_ne_true, if_neg hbox,
          hnone]
        rfl

/-! ## Fates of leaves -/

namespace Stop

/-- What becomes of a leaf where it stands. -/
inductive Meets (s : Stop) : Fate → Prop
  | written {key v} : s.Writes key v → Meets s (.written key v)
  | folded {e : Entity} {m txt} : s.IsLeafOf e → e.holdsMarkings = true → m.name = s.node.name →
    s.node.value = some (.text txt) → Meets s (.folded m txt)
  | appended {identifier} : s.isAssociated = true → s.node.text? = some identifier →
    Meets s (.appended identifier)
  | reported {v x} : s.node.kind = .leaf → s.node.value = some v →
    Loses s.scope s.node.name v x → Meets s (.reported x)

theorem visit_of_leaf {s : Stop} (h : s.node.kind = .leaf) : s.visit = .leaf s.node s.scope := by
  simp [visit, h]

theorem kind_of_reading? {s : Stop} {r : Reading} (h : s.visit.reading? = some r) :
    s.node.kind = .leaf := by
  unfold visit at h
  split at h
  · next hkind => exact hkind
  · cases h

/-- At a leaf its contribution is read. -/
theorem reading?_eq_contribution_iff {s : Stop} {r : Reading} :
    s.visit.reading? = some r ↔ s.node.kind = .leaf ∧
      ∃ v, s.node.value = some v ∧ contribution s.scope s.node.name v = r := by
  constructor
  · intro h
    have hkind := kind_of_reading? h
    rw [visit_of_leaf hkind] at h
    exact ⟨hkind, Option.map_eq_some_iff.mp h⟩
  · rintro ⟨hkind, v, hv, hread⟩
    rw [visit_of_leaf hkind]
    exact Option.map_eq_some_iff.mpr ⟨v, hv, hread⟩

theorem reading?_eq_mark_iff {s : Stop} {m : Marking} {txt : String} :
    s.visit.reading? = some (.mark m txt) ↔ ∃ e : Entity, s.IsLeafOf e ∧
      e.holdsMarkings = true ∧ m.name = s.node.name ∧ s.node.value = some (.text txt) := by
  rw [reading?_eq_contribution_iff]
  constructor
  · rintro ⟨hkind, v, hv, hread⟩
    have hcontributes := contributes_contribution s.scope s.node.name v
    rw [hread] at hcontributes
    cases hcontributes with
    | mark e _ _ houtside he hmarkings hm htext =>
      rw [ofName?_getD] at he
      obtain ⟨name, hentity, he⟩ := Option.bind_eq_some_iff.mp he
      obtain rfl := Entity.ofName?_eq_some_iff.mp he
      cases v <;> cases htext
      exact ⟨e, ⟨hkind, houtside, hentity⟩, hmarkings, Marking.name_of_ofName? hm, hv⟩
  · rintro ⟨e, hleaf, hmarkings, hname, hv⟩
    refine ⟨hleaf.kind_eq, _, hv, ?_⟩
    have hm : Marking.ofName? m.name = some m := by cases m <;> rfl
    rw [contribution_of_entity hleaf.entity_eq, hleaf.outside, if_neg Bool.false_ne_true,
      if_pos hmarkings, readMarking, ← hname, hm]
    rfl

theorem reading?_eq_associate_iff {s : Stop} {identifier : String} :
    s.visit.reading? = some (.associate identifier) ↔
      s.isAssociated = true ∧ s.node.text? = some identifier := by
  have hassociate : s.associate? = some identifier ↔
      s.visit.reading? = some (.associate identifier) := by
    rw [associate?, Option.bind_eq_some_iff]
    constructor
    · rintro ⟨r, hr, hidentifier⟩
      cases r <;> cases hidentifier
      exact hr
    · exact fun h => ⟨_, h, rfl⟩
  rw [← hassociate, associate?_eq, Option.ite_none_right_eq_some]

/-- What a leaf meets is what its contribution comes to. -/
theorem reading?_eq_reading_iff {s : Stop} {f : Fate} :
    s.visit.reading? = some f.reading ↔ s.Meets f := by
  cases f with
  | written key v =>
    refine reading?_eq_write_iff.trans ⟨.written, ?_⟩
    rintro ⟨h⟩
    exact h
  | folded m txt =>
    refine reading?_eq_mark_iff.trans ⟨?_, ?_⟩
    · rintro ⟨e, hleaf, hmarkings, hname, hv⟩
      exact .folded hleaf hmarkings hname hv
    · rintro (_ | ⟨hleaf, hmarkings, hname, hv⟩)
      exact ⟨_, hleaf, hmarkings, hname, hv⟩
  | appended identifier =>
    refine reading?_eq_associate_iff.trans ⟨fun h => .appended h.1 h.2, ?_⟩
    rintro (_ | _ | ⟨hassociated, htext⟩)
    exact ⟨hassociated, htext⟩
  | reported x =>
    refine reading?_eq_contribution_iff.trans ⟨?_, ?_⟩
    · rintro ⟨hkind, v, hv, hread⟩
      exact .reported hkind hv (contribution_eq_skipped.mp hread)
    · rintro (_ | _ | _ | ⟨hkind, hv, hloses⟩)
      exact ⟨hkind, _, hv, contribution_eq_skipped.mpr hloses⟩

/-- A leaf meets one fate only. -/
theorem Meets.unique {s : Stop} {f f' : Fate} (h : s.Meets f) (h' : s.Meets f') : f = f' := by
  rw [← reading?_eq_reading_iff] at h h'
  exact Fate.reading_injective (Option.some.inj (h.symm.trans h'))

/-- A leaf that has a value and is not refused meets a fate. -/
theorem exists_meets {s : Stop} (hkind : s.node.kind = .leaf) (hvalue : s.node.value.isSome)
    (hrefusal : s.refusal? = none) : ∃ f, s.Meets f := by
  obtain ⟨v, hv⟩ := Option.isSome_iff_exists.mp hvalue
  have hreading : s.visit.reading? = some (contribution s.scope s.node.name v) :=
    reading?_eq_contribution_iff.mpr ⟨hkind, v, hv, rfl⟩
  rw [refusal?, hreading] at hrefusal
  obtain ⟨f, hf⟩ := Fate.exists_reading_eq hrefusal
  exact ⟨f, reading?_eq_reading_iff.mp (hf ▸ hreading)⟩

/-- The visit of a leaf does to a draft what the fate of the leaf says. -/
theorem Meets.visit_eq {s : Stop} {f : Fate} (h : s.Meets f) (mode : Narrowing) (d : Draft) :
    d.visit mode s.visit = f.outcome mode d := by
  obtain ⟨hkind, v, hv, hread⟩ := reading?_eq_contribution_iff.mp (reading?_eq_reading_iff.mpr h)
  rw [visit_of_leaf hkind, Draft.visit, hv]
  exact (congrArg (d.take mode) hread).trans (f.take_reading mode d)

end Stop

/-- Leaves and their fates, in order. -/
theorem exists_fates {stops : List Stop}
    (h : ∀ s ∈ stops, s.node.kind = .leaf → ∃ f, s.Meets f) :
    ∃ fates, List.Forall₂ Stop.Meets (stops.filter fun s => s.node.kind = .leaf) fates ∧
      readings (stops.map Stop.visit) = fates.map Fate.reading := by
  induction stops with
  | nil => exact ⟨[], .nil, rfl⟩
  | cons s rest ih =>
    obtain ⟨hs, hrest⟩ := List.forall_mem_cons.mp h
    obtain ⟨fates, hfates, hreadings⟩ := ih hrest
    by_cases hkind : s.node.kind = .leaf
    · obtain ⟨f, hf⟩ := hs hkind
      refine ⟨f :: fates, ?_, ?_⟩
      · rw [List.filter_cons_of_pos (by simpa using hkind)]
        exact .cons hf hfates
      · rw [List.map_cons, readings, List.filterMap_cons, Stop.reading?_eq_reading_iff.mpr hf]
        exact congrArg _ hreadings
    · refine ⟨fates, ?_, ?_⟩
      · rwa [List.filter_cons_of_neg (by simpa using hkind)]
      · have hnone : s.visit.reading? = none :=
          Option.eq_none_iff_forall_ne_some.mpr fun r hr => hkind (Stop.kind_of_reading? hr)
        rw [List.map_cons, readings, List.filterMap_cons, hnone]
        exact hreadings

/-! ## Reports of decoding -/

/-- The report of a leaf that is left out. -/
def Reading.report? : Reading → Option Entry
  | skipped x => some x
  | _ => none

theorem Fate.report?_reading (f : Fate) : f.reading.report? = f.report? := by
  cases f <;> rfl

theorem Draft.visit_entries (mode : Narrowing) (d : Draft) (v : Visit) :
    (d.visit mode v).entries = (readings [v]).filterMap Reading.report? := by
  cases v with
  | entity name inside => rfl
  | leaf n scope =>
    cases hvalue : n.value with
    | none => simp [visit, hvalue, readings, Visit.reading?]
    | some w =>
      have hreadings : readings [Visit.leaf n scope] = [contribution scope n.name w] := by
        simp [readings, Visit.reading?, hvalue]
      rw [hreadings]
      simp only [visit, hvalue]
      cases contribution scope n.name w <;> rfl

/-- A walk that no leaf ends reports the leaves that are left out. -/
theorem Draft.follow_entries {mode : Narrowing} {d d' : Draft} {vs : List Visit}
    (h : (d.follow mode vs).result = .ok d') :
    (d.follow mode vs).entries = (readings vs).filterMap Reading.report? := by
  induction vs generalizing d with
  | nil => rfl
  | cons v rest ih =>
    have hentries := visit_entries mode d v
    have hreadings : readings (v :: rest) = readings [v] ++ readings rest :=
      readings_append [v] rest
    rw [follow_cons] at h ⊢
    rcases hvisit : d.visit mode v with ⟨_ | d₁, entries⟩
    · rw [hvisit] at h
      cases h
    · rw [hvisit] at h hentries
      rw [hreadings, List.filterMap_append, ← hentries, ← ih h]

/-- Decoding reports the leaves that are left out, and then its record. -/
theorem decode_entries {g : Graph} {t : Topology} (ht : g.topology = .ok t) {fallback : String}
    {mode : Narrowing} {r : Record} (h : (decode fallback mode g).result = .ok r) :
    (decode fallback mode g).entries =
      (readings (visits t)).filterMap Reading.report? ++ [decodedReport r] := by
  rw [decode_of_topology ht] at h ⊢
  unfold conclude at h ⊢
  split at h
  · cases h
  · next d hd =>
    obtain rfl := Except.ok.inj h
    simp only [Draft.follow_entries hd]

/-- The events that tell of a leaf that is left out. -/
def lossEvents : List Event :=
  [.attributeUnhandled, .attributeKindMismatch, .enumerationUnknown, .dateInvalid]

/-- An entry tells of a leaf that is left out. -/
def TellsLoss (x : Entry) : Prop := x.event ∈ lossEvents.map Event.name

instance : DecidablePred TellsLoss := fun x =>
  inferInstanceAs (Decidable (x.event ∈ lossEvents.map Event.name))

/-- The entries that a session writes about leaves that are left out. -/
def lossesIn (s : Session) (es : List Entry) : List Entry :=
  (es.filter fun x => s.shows x.severity).filter fun x => TellsLoss x

theorem tellsLoss_unplaced (entity name : String) : TellsLoss (unplaced entity name) := by
  simp [TellsLoss, lossEvents, unplaced, Entry.detail]

theorem tellsLoss_wrongKind (e : Entity) (name : String) (k : Kind) (v : Graph.Value) :
    TellsLoss (wrongKind e name k v) := by
  simp [TellsLoss, lossEvents, wrongKind, kindReport, Entry.report]

theorem Mapping.Misses.tellsLoss {e : Entity} {m : Mapping} {v : Graph.Value} {x : Entry}
    (h : m.Misses e v x) : TellsLoss x := by
  cases h with
  | kind => exact tellsLoss_wrongKind _ _ _ _
  | member => simp [TellsLoss, lossEvents, unknownMember, Entry.report]
  | date => simp [TellsLoss, lossEvents, invalidDate, Entry.report]

theorem Loses.tellsLoss {scope : Scope} {name : String} {v : Graph.Value} {x : Entry}
    (h : Loses scope name v x) : TellsLoss x := by
  cases h with
  | field _ _ _ _ hmisses => exact hmisses.tellsLoss
  | unknown => exact tellsLoss_unplaced _ _
  | unrelated => exact tellsLoss_unplaced _ _
  | unmarked => exact tellsLoss_unplaced _ _
  | unmapped => exact tellsLoss_unplaced _ _
  | _ => exact tellsLoss_wrongKind _ _ _ _

theorem Stop.Meets.tellsLoss {s : Stop} {f : Fate} (h : s.Meets f) {x : Entry}
    (hx : f.report? = some x) : TellsLoss x := by
  cases h with
  | reported _ _ hloses => exact Option.some.inj hx ▸ hloses.tellsLoss
  | _ => cases hx

theorem shows_of_trace {s : Session} (h : s.shows .trace = true) (x : Journal.Severity) :
    s.shows x = true := by
  have hrank : s.minimum.rank ≤ 0 := by simpa [Session.shows, Journal.Severity.rank] using h
  simp [Session.shows, Nat.le_trans hrank]

/-- A session that shows everything writes the reports of leaves that are left out. -/
theorem lossesIn_reports {s : Session} (hs : s.shows .trace = true) {stops : List Stop}
    {fates : List Fate} (h : List.Forall₂ Stop.Meets stops fates) (r : Record) :
    lossesIn s (fates.filterMap Fate.report? ++ [decodedReport r]) =
      fates.filterMap Fate.report? := by
  have hshown : ∀ es : List Entry, (es.filter fun x => s.shows x.severity) = es := fun es =>
    List.filter_eq_self.mpr fun x _ => shows_of_trace hs x.severity
  have hlast : ¬ TellsLoss (decodedReport r) := by
    simp [TellsLoss, lossEvents, decodedReport, Entry.report, Event.name]
  have hreports : ∀ x ∈ fates.filterMap Fate.report?, TellsLoss x := by
    induction h with
    | nil => simp
    | @cons _ f _ rest hmeets _ ih =>
      intro x hx
      rw [List.filterMap_cons] at hx
      split at hx
      · exact ih x hx
      · next y hy =>
        rcases List.mem_cons.mp hx with rfl | hx
        · exact hmeets.tellsLoss hy
        · exact ih x hx
  rw [lossesIn, hshown, List.filter_append, List.filter_eq_self.mpr (by simpa using hreports),
    List.filter_cons_of_neg (by simpa using hlast), List.filter_nil, List.append_nil]

theorem node_mem_of_mem_preorder {g : Graph} (hv : g.Valid) {scope : Scope} {id : NodeId} {s : Stop}
    (hs : s ∈ preorder g hv scope id) : s.node ∈ g.nodes.toList := by
  obtain ⟨paths, hpaths⟩ := exists_enumerates hv scope id
  rw [hpaths.stops_eq] at hs
  obtain ⟨path, -, hpath⟩ := List.mem_filterMap.mp (List.mem_of_mem_filter hs)
  exact mem_of_stopAt? hpath

/-- Where decoding succeeds, every leaf that is visited meets a fate. -/
theorem exists_meets_of_decode {g : Graph} {t : Topology} (ht : g.topology = .ok t)
    {fallback : String} {mode : Narrowing} {r : Record}
    (h : (decode fallback mode g).result = .ok r) {stop : Stop}
    (hstop : stop ∈ preorder g (valid_of_topology_eq_ok ht) {} t.root)
    (hkind : stop.node.kind = .leaf) : ∃ f, stop.Meets f := by
  have hv := valid_of_topology_eq_ok ht
  have hvalue := hv.value_of_leaf _ (node_mem_of_mem_preorder hv hstop) hkind
  refine Stop.exists_meets hkind hvalue (Option.eq_none_iff_forall_ne_some.mpr fun err herr => ?_)
  obtain ⟨e, he, -⟩ := Stop.refusal?_eq_some_iff.mp herr
  exact (exists_decode_iff ht fallback mode).mp ⟨r, h⟩ stop hstop e he

/--
Every leaf that is visited while a graph is decoded meets one fate, and the visit does to the draft
what this fate says. The entries about leaves that are left out are, in order, those of the leaves
that meet this fate, and the four counts add up to the number of visits.
-/
theorem decode_fates {g : Graph} {t : Topology} (ht : g.topology = .ok t) {fallback : String}
    {mode : Narrowing} {r : Record} (h : (decode fallback mode g).result = .ok r) {s : Session}
    (hs : s.shows .trace = true) :
    let stops := preorder g (valid_of_topology_eq_ok ht) {} t.root
    let leaves := stops.filter fun stop => stop.node.kind = .leaf
    let losses := lossesIn s (decode fallback mode g).entries
    visits t = stops.map Stop.visit ∧
    (∀ stop ∈ leaves, ∃! f, stop.Meets f ∧ ∀ d, Draft.visit mode d stop.visit = f.outcome mode d) ∧
    ∃ fates, List.Forall₂ Stop.Meets leaves fates ∧ losses = fates.filterMap Fate.report? ∧
      leaves.length = fates.countP Fate.isWritten + fates.countP Fate.isFolded +
        fates.countP Fate.isAppended + losses.length := by
  intro stops leaves losses
  obtain ⟨fates, hfates, hreadings⟩ := exists_fates fun _ => exists_meets_of_decode ht h
  have hlosses : losses = fates.filterMap Fate.report? := by
    have hreports : (fates.map Fate.reading).filterMap Reading.report? =
        fates.filterMap Fate.report? := by
      rw [List.filterMap_map]
      exact List.filterMap_congr fun f _ => f.report?_reading
    show lossesIn s (decode fallback mode g).entries = _
    rw [decode_entries ht h, visits_eq_preorder ht, hreadings, hreports, lossesIn_reports hs hfates]
  refine ⟨visits_eq_preorder ht, fun stop hstop => ?_, fates, hfates, hlosses, ?_⟩
  · obtain ⟨hmem, hkind⟩ := List.mem_filter.mp hstop
    obtain ⟨f, hf⟩ := exists_meets_of_decode ht h hmem (of_decide_eq_true hkind)
    exact ⟨f, ⟨hf, hf.visit_eq mode⟩, fun f' hf' => hf'.1.unique hf⟩
  · rw [hfates.length_eq, hlosses]
    exact Fate.length_eq_add fates

/-- A card whose identifier is also below an association, a classification, and four leaves that are
left out: a status that is not in its table, a leaf in an annex, which the schema does not know, a
thirteenth month, and a number where a title is expected. -/
def assorted : Graph where
  nodes := #[⟨0, .root, "product", none⟩, ⟨1, .entity, "card", none⟩,
    ⟨2, .leaf, "identifier", some (.text "a")⟩, ⟨3, .leaf, "status", some (.text "LOST")⟩,
    ⟨4, .entity, "security", none⟩, ⟨5, .leaf, "classification", some (.text "S")⟩,
    ⟨6, .entity, "association", none⟩, ⟨7, .entity, "annex", none⟩,
    ⟨8, .leaf, "note", some (.bool true)⟩, ⟨9, .entity, "file", none⟩,
    ⟨10, .leaf, "dateTimeDeclared", some (.date ⟨2021, 13, 1, 0, 0, 0.0⟩)⟩,
    ⟨11, .leaf, "title", some (.int 5)⟩]
  edges := #[⟨0, 1⟩, ⟨1, 2⟩, ⟨1, 3⟩, ⟨0, 4⟩, ⟨4, 5⟩, ⟨0, 6⟩, ⟨6, 2⟩, ⟨0, 7⟩, ⟨7, 8⟩, ⟨0, 9⟩,
    ⟨9, 10⟩, ⟨9, 11⟩]

theorem decode_fates_assorted : ∃ t, ∃ ht : assorted.topology = .ok t,
    let s : Session := ⟨.trace, []⟩
    let leaves := (preorder assorted (valid_of_topology_eq_ok ht) {} t.root).filter
      fun stop => stop.node.kind = .leaf
    s.shows .trace = true ∧
    (decode "DATA" .legacy assorted).result = .ok
      { attributes := [("id", .text "a"), ("security.classification", .text "S")]
        associations := ["a"], contentType := some "DATA" } ∧
    (lossesIn s (decode "DATA" .legacy assorted).entries).map Entry.event =
      ["ENUMERATION_UNKNOWN", "ATTRIBUTE_UNHANDLED", "DATE_INVALID", "ATTRIBUTE_KIND_MISMATCH"] ∧
    ∃ fates, List.Forall₂ Stop.Meets leaves fates ∧
      leaves.length = fates.countP Fate.isWritten + fates.countP Fate.isFolded +
        fates.countP Fate.isAppended + 4 := by
  obtain ⟨t, ht⟩ : ∃ t, assorted.topology = .ok t := ⟨_, rfl⟩
  have hdecode : (decode "DATA" .legacy assorted).result = .ok
      { attributes := [("id", .text "a"), ("security.classification", .text "S")]
        associations := ["a"], contentType := some "DATA" } := by
    decide +kernel
  have hlosses : (lossesIn ⟨.trace, []⟩ (decode "DATA" .legacy assorted).entries).map Entry.event =
      ["ENUMERATION_UNKNOWN", "ATTRIBUTE_UNHANDLED", "DATE_INVALID",
        "ATTRIBUTE_KIND_MISMATCH"] := by
    decide +kernel
  obtain ⟨-, -, fates, hfates, -, hcount⟩ := decode_fates (s := ⟨.trace, []⟩) ht hdecode rfl
  have hlength := congrArg List.length hlosses
  rw [List.length_map] at hlength
  rw [hlength] at hcount
  exact ⟨t, ht, rfl, hdecode, hlosses, fates, hfates, hcount⟩

end Catalogue.Exchange
