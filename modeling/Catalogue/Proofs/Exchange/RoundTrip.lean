import Catalogue.Proofs.Exchange.Sections
import Catalogue.Proofs.Record.Sorted
import Mathlib.Data.List.Nodup

/-!
# A record there and back

Encoding a record and decoding its graph gives a record again, in a normal form: what no entity
holds is gone, the location is the box around it, and the markings are written plainly.

* `IsNormalForm` — the record that comes back, in terms of the one that went in.
* `IsNormalForm.unique` — there is one such record.
* `decode_encode` — it comes back.
-/

namespace Catalogue.Exchange

open Catalogue.Record (Attributes Product)
open Catalogue.Schema (Entity)

/-! ## The normal form -/

/-- The record that comes back, in terms of the one that went in. -/
structure IsNormalForm (fallback : String) (r r' : Record) : Prop where
  sorted : r'.attributes.Sorted
  field : ∀ e ∈ sectionsOf r, ∀ m ∈ mappings e, r'.get? m.key = (r.get? m.key).filter m.keeps
  location : ∀ wkt, locationText? r = some wkt → ∃ shape, Geometry.parse wkt = .ok shape ∧
    r'.get? locationKey = some (.geometry shape.envelope.toGeometry.text)
  no_location : locationText? r = none → r'.get? locationKey = none
  marking : ∀ m : Marking, r'.get? m.key = ((r.text? m.key).bind (plainMarking m)).map .text
  other : ∀ key, (∀ e ∈ sectionsOf r, ∀ m ∈ mappings e, m.key ≠ key) → locationKey ≠ key →
    (∀ m : Marking, m.key ≠ key) → r'.get? key = none
  associations_eq : r'.associations = r.associations
  product_eq : r'.product = keptProduct? r
  contentType_eq :
    r'.contentType = some (((keptProduct? r).map Product.contentTypeName).getD fallback)

/-- There is one normal form of a record. -/
theorem IsNormalForm.unique {fallback : String} {r r₁ r₂ : Record}
    (h₁ : IsNormalForm fallback r r₁) (h₂ : IsNormalForm fallback r r₂) : r₁ = r₂ := by
  have hget : ∀ key, r₁.get? key = r₂.get? key := by
    intro key
    by_cases hfield : ∃ e ∈ sectionsOf r, ∃ m ∈ mappings e, m.key = key
    · obtain ⟨e, he, m, hm, rfl⟩ := hfield
      rw [h₁.field e he m hm, h₂.field e he m hm]
    -- every key is that of a field, of the location, of a marking, or absent
    by_cases hlocation : locationKey = key
    · subst hlocation
      cases htext : locationText? r with
      | none => rw [h₁.no_location htext, h₂.no_location htext]
      | some wkt =>
        obtain ⟨shape, hparse, hshape⟩ := h₁.location wkt htext
        obtain ⟨shape', hparse', hshape'⟩ := h₂.location wkt htext
        obtain rfl := Except.ok.inj (hparse.symm.trans hparse')
        rw [hshape, hshape']
    by_cases hmarking : ∃ m : Marking, m.key = key
    · obtain ⟨m, rfl⟩ := hmarking
      rw [h₁.marking m, h₂.marking m]
    · have hnot : ∀ e ∈ sectionsOf r, ∀ m ∈ mappings e, m.key ≠ key :=
        fun e he m hm hkey => hfield ⟨e, he, m, hm, hkey⟩
      have hno : ∀ m : Marking, m.key ≠ key := fun m hm => hmarking ⟨m, hm⟩
      rw [h₁.other key hnot hlocation hno, h₂.other key hnot hlocation hno]
  have hattributes := h₁.sorted.ext h₂.sorted hget
  have hassociations := h₁.associations_eq.trans h₂.associations_eq.symm
  have hproduct := h₁.product_eq.trans h₂.product_eq.symm
  have hcontentType := h₁.contentType_eq.trans h₂.contentType_eq.symm
  obtain ⟨a, as, p, c⟩ := r₁
  obtain ⟨a', as', p', c'⟩ := r₂
  dsimp only at hattributes hassociations hproduct hcontentType
  rw [hattributes, hassociations, hproduct, hcontentType]

/-! ## The draft of a record -/

/-- The values that a record leaves behind. -/
def keptAll (r : Record) : List (String × Record.Value) := (sectionsOf r).flatMap (kept r)

/-- The draft after a walk through the graph of a record. -/
def draftOf (mode : Narrowing) (r : Record) : Draft where
  record :=
    { attributes := setAll [] (keptAll r)
      product := keptProduct? r
      contentType := (keptProduct? r).map Product.contentTypeName }
  associated := r.associations.toArray
  markings := (marks r).foldl (fun d m => d.fold mode m.1 m.2) {}

/-- The contributions that the graph of a record makes, values first. -/
def contributions (r : Record) (rs : List Reading) : List Reading :=
  rs ++ (marks r).map (fun m => .mark m.1 m.2) ++ r.associations.map .associate

section Contributions

variable {r : Record} {rs : List Reading}

theorem findSome?_refusal_contributions (h : Writes rs (keptAll r)) :
    (contributions r rs).findSome? Reading.refusal? = none := by
  rw [List.findSome?_eq_none_iff]
  intro x hx
  rw [contributions, List.mem_append, List.mem_append] at hx
  rcases hx with (hx | hx) | hx
  · exact (h.quiet x hx).2.2
  · obtain ⟨m, -, rfl⟩ := List.mem_map.mp hx
    rfl
  · obtain ⟨i, -, rfl⟩ := List.mem_map.mp hx
    rfl

theorem filterMap_write_contributions (h : Writes rs (keptAll r)) :
    (contributions r rs).filterMap Reading.write? = keptAll r := by
  have hmarks : ((marks r).map fun m => Reading.mark m.1 m.2).filterMap Reading.write? = [] := by
    simp [Reading.write?]
  have hassociates : (r.associations.map Reading.associate).filterMap Reading.write? = [] := by
    simp [Reading.write?]
  rw [contributions, List.filterMap_append, List.filterMap_append, h.write_eq, hmarks, hassociates,
    List.append_nil, List.append_nil]

theorem filterMap_mark_contributions (h : Writes rs (keptAll r)) :
    (contributions r rs).filterMap Reading.mark? = marks r := by
  have hvalues : rs.filterMap Reading.mark? = [] :=
    List.filterMap_eq_nil_iff.mpr fun x hx => (h.quiet x hx).1
  have hmarks :
      ((marks r).map fun m => Reading.mark m.1 m.2).filterMap Reading.mark? = marks r := by
    rw [List.filterMap_map]
    exact List.filterMap_some
  have hassociates : (r.associations.map Reading.associate).filterMap Reading.mark? = [] := by
    simp [Reading.mark?]
  rw [contributions, List.filterMap_append, List.filterMap_append, hvalues, hmarks, hassociates,
    List.append_nil, List.nil_append]

theorem filterMap_associate_contributions (h : Writes rs (keptAll r)) :
    (contributions r rs).filterMap Reading.associate? = r.associations := by
  have hvalues : rs.filterMap Reading.associate? = [] :=
    List.filterMap_eq_nil_iff.mpr fun x hx => (h.quiet x hx).2.1
  have hmarks :
      ((marks r).map fun m => Reading.mark m.1 m.2).filterMap Reading.associate? = [] := by
    simp [Reading.associate?]
  have hassociates :
      (r.associations.map Reading.associate).filterMap Reading.associate? = r.associations := by
    rw [List.filterMap_map]
    exact List.filterMap_some
  rw [contributions, List.filterMap_append, List.filterMap_append, hvalues, hmarks, hassociates,
    List.nil_append, List.nil_append]

theorem settle_contributions {mode : Narrowing} (h : Writes rs (keptAll r)) :
    ({} : Draft).settle mode (contributions r rs) (keptProduct? r).toList = draftOf mode r := by
  rw [Draft.settle, filterMap_write_contributions h, filterMap_mark_contributions h,
    filterMap_associate_contributions h, draftOf]
  cases keptProduct? r <;> simp

end Contributions

/-- The draft comes out of the graph of a record. -/
theorem decode_of_encode (fallback : String) (mode : Narrowing) {r : Record} {g : Graph}
    (h : (encode r).result = .ok g) (hsize : g.nodes.size ≤ 2 ^ 32) :
    (decode fallback mode g).result = .ok ((draftOf mode r).finish fallback) ∧
      NoneRefused r (sectionsOf r) := by
  obtain ⟨rfl, hnone⟩ := encode_ok h
  obtain ⟨t, htopology, hreadings, hproducts⟩ := assemble_spec hsize
  -- values come first, then the markings, then the associations
  have hwrites : Writes (((sectionsOf r).map (sectionOf r)).flatMap sectionReadings) (keptAll r) :=
    writes_sections hnone
  have hcontributions : readings (visits t) =
      contributions r (((sectionsOf r).map (sectionOf r)).flatMap sectionReadings) := by
    rw [hreadings, List.flatMap_append, List.flatMap_singleton, sectionReadings_security]
    rfl
  have hfollow : (Draft.follow mode {} (visits t)).result = .ok (draftOf mode r) := by
    rw [Draft.follow_result, hcontributions, hproducts, products_sections hnone,
      findSome?_refusal_contributions hwrites, settle_contributions hwrites]
  refine ⟨?_, hnone⟩
  simp only [decode, graphOf, htopology, hfollow]

/-! ## What is found in the draft -/

/-- A value that is left behind is that of a field, or the location. -/
theorem mem_keptAll {r : Record} {w : String × Record.Value} (h : w ∈ keptAll r) :
    (∃ e ∈ sectionsOf r, ∃ m ∈ mappings e,
      m.key = w.1 ∧ r.get? m.key = some w.2 ∧ m.keeps w.2 = true) ∨ keptLocation? r = some w := by
  obtain ⟨e, he, hw⟩ := List.mem_flatMap.mp h
  rw [kept, List.mem_append, List.mem_filterMap] at hw
  rcases hw with ⟨m, hm, hw⟩ | hw
  · obtain ⟨v, hv, hkept⟩ := Option.bind_eq_some_iff.mp hw
    rw [Mapping.kept?] at hkept
    split at hkept
    · next hkeeps =>
      obtain rfl := Option.some.inj hkept
      exact .inl ⟨e, he, m, hm, rfl, hv, hkeeps⟩
    · cases hkept
  · split at hw
    · exact .inr (Option.mem_toList.mp hw)
    · cases hw

theorem fst_of_keptLocation? {r : Record} {w : String × Record.Value}
    (h : keptLocation? r = some w) : w.1 = locationKey := by
  obtain ⟨v, -, rfl⟩ := Option.map_eq_some_iff.mp h
  rfl

/-- The fields that are looked at for a record are told apart by their keys. -/
theorem mapping_eq_of_key_eq {r : Record} {e e' : Entity} {m m' : Mapping} (he : e ∈ sectionsOf r)
    (hm : m ∈ mappings e) (he' : e' ∈ sectionsOf r) (hm' : m' ∈ mappings e')
    (h : m.key = m'.key) : m = m' :=
  List.inj_on_of_nodup_map (nodup_fieldKeys r.product) (List.mem_flatMap.mpr ⟨e, he, hm⟩)
    (List.mem_flatMap.mpr ⟨e', he', hm'⟩) h

/-- Under the key of a field stands its value, if it comes back. -/
theorem get?_keptAll_field {r : Record} {e : Entity} {m : Mapping} (he : e ∈ sectionsOf r)
    (hm : m ∈ mappings e) :
    (setAll [] (keptAll r)).get? m.key = (r.get? m.key).filter m.keeps := by
  -- whatever is written under this key comes from this field
  have hsame : ∀ w ∈ keptAll r, w.1 = m.key → r.get? m.key = some w.2 ∧ m.keeps w.2 = true := by
    intro w hw hkey
    rcases mem_keptAll hw with ⟨e', he', m', hm', hkey', hv, hkeeps⟩ | hlocation
    · obtain rfl := mapping_eq_of_key_eq he' hm' he hm (hkey'.trans hkey)
      exact ⟨hv, hkeeps⟩
    · have := (fst_of_keptLocation? hlocation).symm.trans hkey
      exact absurd this.symm (key_ne e m hm).1
  cases hfilter : (r.get? m.key).filter m.keeps with
  | none =>
    rw [get?_setAll_of_not_mem fun w hw hkey => ?_]
    · rfl
    · obtain ⟨hv, hkeeps⟩ := hsame w hw hkey
      rw [hv, Option.filter_some, if_pos hkeeps] at hfilter
      cases hfilter
  | some v =>
    obtain ⟨hv, hkeeps⟩ := Option.filter_eq_some_iff.mp hfilter
    refine get?_setAll_of_forall (List.mem_flatMap.mpr ⟨e, he, ?_⟩) fun w hw hkey => ?_
    · rw [kept, List.mem_append, List.mem_filterMap]
      exact .inl ⟨m, hm, by rw [hv]; exact kept?_of_keeps hkeeps⟩
    · exact (Option.some.inj (hv.symm.trans (hsame w hw hkey).1)).symm

/-- Under the key of the location stands the location that is left behind. -/
theorem get?_keptAll_location (r : Record) :
    (setAll [] (keptAll r)).get? locationKey = (keptLocation? r).map Prod.snd := by
  have hsame : ∀ w ∈ keptAll r, w.1 = locationKey → keptLocation? r = some w := by
    intro w hw hkey
    rcases mem_keptAll hw with ⟨e, he, m, hm, hkey', -, -⟩ | hlocation
    · exact absurd (hkey'.trans hkey) (key_ne e m hm).1
    · exact hlocation
  cases hlocation : keptLocation? r with
  | none =>
    rw [get?_setAll_of_not_mem fun w hw hkey => ?_]
    · rfl
    · have := hsame w hw hkey
      rw [hlocation] at this
      cases this
  | some w =>
    have hmem : w ∈ keptAll r := by
      refine List.mem_flatMap.mpr ⟨.coverage, by simp [sectionsOf, sections], ?_⟩
      rw [kept, List.mem_append, if_pos rfl, hlocation]
      exact .inr (by simp)
    refine get?_setAll_of_forall (by rw [← fst_of_keptLocation? hlocation]; exact hmem) ?_
    intro w' hw' hkey
    rw [Option.some.inj (hlocation.symm.trans (hsame w' hw' hkey))]

/-- Nothing stands under another key. -/
theorem get?_keptAll_other {r : Record} {key : String}
    (hfield : ∀ e ∈ sectionsOf r, ∀ m ∈ mappings e, m.key ≠ key) (hlocation : locationKey ≠ key) :
    (setAll [] (keptAll r)).get? key = none := by
  rw [get?_setAll_of_not_mem fun w hw hkey => ?_]
  · rfl
  · rcases mem_keptAll hw with ⟨e, he, m, hm, hkey', -, -⟩ | hw
    · exact hfield e he m hm (hkey'.trans hkey)
    · exact hlocation ((fst_of_keptLocation? hw).symm.trans hkey)

/-- Values that are set keep the keys sorted. -/
theorem sorted_setAll {a : Attributes} (h : a.Sorted) (ws : List (String × Record.Value)) :
    (setAll a ws).Sorted := by
  induction ws generalizing a with
  | nil => exact h
  | cons w rest ih => exact ih (h.set w.1 w.2)

/-- The text of a location that is not refused is a geometry. -/
theorem boxed?_of_noneRefused {r : Record} (h : NoneRefused r (sectionsOf r)) {wkt : String}
    (htext : locationText? r = some wkt) : ∃ shape, Geometry.parse wkt = .ok shape := by
  have hmem : (boxName, boxOf wkt) ∈ findings r .coverage := by
    refine List.mem_append_right _ ?_
    rw [if_pos rfl, locationFinding?_of_text htext]
    exact List.mem_singleton.mpr rfl
  have hnot := h .coverage (by simp [sectionsOf, sections]) _ hmem
  cases hparse : Geometry.parse wkt with
  | ok shape => exact ⟨shape, rfl⟩
  | error err => exact absurd (by rw [boxOf, hparse]) (hnot (.geometry err))

/-- The record of a draft, as far as its values go. -/
theorem get?_finish (fallback : String) (mode : Narrowing) (r : Record) (key : String) :
    ((draftOf mode r).finish fallback).get? key =
      ((draftOf mode r).markings.apply (draftOf mode r).record).get? key := rfl

/-- What comes out of the graph of a record is its normal form. -/
theorem isNormalForm_finish (fallback : String) (mode : Narrowing) {r : Record}
    (h : NoneRefused r (sectionsOf r)) :
    IsNormalForm fallback r ((draftOf mode r).finish fallback) := by
  -- markings are written last, and under keys of their own
  obtain ⟨ws, happly⟩ := (draftOf mode r).markings.apply_eq_setAll (draftOf mode r).record
  have hplain : ∀ key, (∀ m : Marking, m.key ≠ key) →
      ((draftOf mode r).finish fallback).get? key = (setAll [] (keptAll r)).get? key :=
    fun key hkey => Descriptor.get?_apply_of_ne _ _ fun m _ => hkey m
  have hlocation : ((draftOf mode r).finish fallback).get? locationKey =
      (keptLocation? r).map Prod.snd :=
    (hplain _ fun m => (locationKey_ne m).symm).trans (get?_keptAll_location r)
  constructor
  case sorted =>
    rw [Draft.finish, happly]
    exact sorted_setAll (sorted_setAll Attributes.sorted_nil _) ws
  case field =>
    intro e he m hm
    rw [hplain _ fun k => (marking_key_ne hm k).symm]
    exact get?_keptAll_field he hm
  case location =>
    intro wkt htext
    obtain ⟨shape, hparse⟩ := boxed?_of_noneRefused h htext
    refine ⟨shape, hparse, ?_⟩
    rw [hlocation, keptLocation?, htext, Option.bind_some, boxed?, hparse]
    rfl
  case no_location =>
    intro htext
    rw [hlocation, keptLocation?, htext]
    rfl
  case marking =>
    intro m
    have hnone : (draftOf mode r).record.get? m.key = none :=
      get?_keptAll_other (fun e _ n hn => marking_key_ne hn m) (locationKey_ne m)
    rw [get?_finish, Descriptor.get?_apply_key, hnone, Option.or_none, ← get_fold_marks mode r m]
    rfl
  case other =>
    intro key hfield hkey hmarking
    rw [hplain key hmarking]
    exact get?_keptAll_other hfield hkey
  case associations_eq => rfl
  case product_eq =>
    rw [Draft.finish, happly]
    rfl
  case contentType_eq =>
    rw [Draft.finish, happly]
    show ((keptProduct? r).map Product.contentTypeName).or (some fallback) = _
    cases keptProduct? r <;> rfl

/-- A record that is encoded comes back in its normal form, however markings are narrowed. -/
theorem decode_encode (fallback : String) (mode : Narrowing) (r : Record) (g : Graph)
    (h : (encode r).result = .ok g) (hsize : g.nodes.size < 2 ^ 32) :
    ∃ r', (decode fallback mode g).result = .ok r' ∧ IsNormalForm fallback r r' := by
  obtain ⟨hdecode, hnone⟩ := decode_of_encode fallback mode h hsize.le
  exact ⟨_, hdecode, isNormalForm_finish fallback mode hnone⟩

/-- An image with a title, a cloud cover and two associated records. -/
def image : Record where
  attributes := [("isr.cloud-cover", .integer 40), ("title", .text "Harbour")]
  associations := ["b", "a"]
  product := some .imagery

theorem decode_encode_image : ∃ g, (encode image).result = .ok g ∧ g.nodes.size = 12 ∧
    ∃ r', (decode "REPORT" .legacy g).result = .ok r' ∧ IsNormalForm "REPORT" image r' :=
  ⟨_, rfl, rfl, decode_encode "REPORT" .legacy image _ rfl (by decide +kernel)⟩

end Catalogue.Exchange
