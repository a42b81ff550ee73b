import Catalogue.Proofs.Exchange.Encoding
import Catalogue.Proofs.Exchange.Markings

/-!
# The sections of an encoded record

What the values that an entity holds leave behind, from the findings of the encoder to the readings
of the decoder.

* `Suited.writes` — the leaves of an entity contribute what its values leave behind.
* `graphOf` — the graph of a record.
* `encode_result` — the result of encoding a record is its graph, or the first refusal.
* `encode_ok`, `encode_of_noneRefused` — a record is encoded when none of its values is refused.
* `products_sections` — the type comes back when one of its own fields does.
-/

namespace Catalogue.Exchange

open Catalogue.Graph
open Catalogue.Record (Product)
open Catalogue.Schema (Entity)

/-! ## Values left behind -/

/-- Readings that are values for a record and nothing else. -/
structure Writes (rs : List Reading) (ws : List (String × Record.Value)) : Prop where
  write_eq : rs.filterMap Reading.write? = ws
  quiet : ∀ x ∈ rs, x.mark? = none ∧ x.associate? = none ∧ x.refusal? = none

theorem writes_nil : Writes [] [] := ⟨rfl, fun _ hx => absurd hx List.not_mem_nil⟩

theorem Writes.append {rs rs' : List Reading} {ws ws' : List (String × Record.Value)}
    (h : Writes rs ws) (h' : Writes rs' ws') : Writes (rs ++ rs') (ws ++ ws') := by
  refine ⟨by rw [List.filterMap_append, h.write_eq, h'.write_eq], fun x hx => ?_⟩
  rcases List.mem_append.mp hx with hx | hx
  · exact h.quiet x hx
  · exact h'.quiet x hx

theorem Reading.Yields.writes {x : Reading} {w : Option (String × Record.Value)}
    (h : x.Yields w) : Writes [x] w.toList := by
  cases h <;> refine ⟨rfl, fun y hy => ?_⟩ <;> obtain rfl := List.mem_singleton.mp hy <;>
    exact ⟨rfl, rfl, rfl⟩

/-- What becomes of values agrees with what they leave behind. -/
inductive Suited (scope : Scope) :
    List (String × Finding) → List (String × Record.Value) → Prop where
  | nil : Suited scope [] []
  | cons {name : String} {f : Finding} {w : Option (String × Record.Value)}
      {fs : List (String × Finding)} {ws : List (String × Record.Value)} :
      f.Suits (contribution scope name) w → Suited scope fs ws →
      Suited scope ((name, f) :: fs) (w.toList ++ ws)

theorem Suited.append {scope : Scope} {fs fs' : List (String × Finding)}
    {ws ws' : List (String × Record.Value)} (h : Suited scope fs ws) (h' : Suited scope fs' ws') :
    Suited scope (fs ++ fs') (ws ++ ws') := by
  induction h with
  | nil => exact h'
  | cons hsuits _ ih =>
    rw [List.append_assoc]
    exact .cons hsuits ih

/-- The leaves among findings, with their names. -/
def found (fs : List (String × Finding)) : List (String × Graph.Value) :=
  fs.filterMap fun f => f.2.leaf?.map (f.1, ·)

/-- The error of a refused finding. -/
def Finding.refusal? : Finding → Option ExchangeError
  | refused e => some e
  | _ => none

/-- The errors of the refused findings, in order. -/
def refusals (fs : List (String × Finding)) : List ExchangeError :=
  fs.filterMap fun f => f.2.refusal?

theorem refusals_append (fs gs : List (String × Finding)) :
    refusals (fs ++ gs) = refusals fs ++ refusals gs :=
  List.filterMap_append

theorem refusals_eq_nil_iff {fs : List (String × Finding)} :
    refusals fs = [] ↔ ∀ f ∈ fs, ∀ e, f.2 ≠ .refused e := by
  rw [refusals, List.filterMap_eq_nil_iff]
  refine forall₂_congr fun f _ => ?_
  cases f.2 <;> simp [Finding.refusal?]

/-- The leaves are the result, or the first refusal is. -/
theorem leaves_result (fs : List (String × Finding)) :
    (leaves fs).result =
      match refusals fs with
      | [] => .ok (found fs)
      | e :: _ => .error e := by
  induction fs with
  | nil => rfl
  | cons f rest ih =>
    obtain ⟨name, f⟩ := f
    cases f with
    | leaf v =>
      have hrefusals : refusals ((name, .leaf v) :: rest) = refusals rest := rfl
      simp only [leaves, ih, hrefusals]
      cases refusals rest <;> rfl
    | skipped e => exact ih
    | refused e => rfl

/-- The leaves of findings contribute what the values leave behind. -/
theorem Suited.writes {scope : Scope} {fs : List (String × Finding)}
    {ws : List (String × Record.Value)} (h : Suited scope fs ws)
    (hnone : ∀ f ∈ fs, ∀ e, f.2 ≠ .refused e) :
    Writes ((found fs).map fun l => contribution scope l.1 l.2) ws := by
  induction h with
  | nil => exact writes_nil
  | @cons name f w fs ws hsuits _ ih =>
    obtain ⟨hf, hfs⟩ := List.forall_mem_cons.mp hnone
    cases f with
    | leaf v => exact (Reading.Yields.writes hsuits).append (ih hfs)
    | skipped e =>
      obtain rfl : w = none := hsuits
      exact ih hfs
    | refused e => exact absurd rfl (hf e)

/-- What the values that an entity holds leave behind. -/
def kept (r : Record) (e : Entity) : List (String × Record.Value) :=
  (mappings e).filterMap (fun m => (r.get? m.key).bind m.kept?) ++
    if e = .coverage then (keptLocation? r).toList else []

theorem suited_fields (r : Record) {e : Entity} {ms : List Mapping}
    (hms : ∀ m ∈ ms, m ∈ mappings e) :
    Suited (inside e)
      (ms.filterMap fun m => (r.get? m.key).map fun v => (m.name, encodeField e m v))
      (ms.filterMap fun m => (r.get? m.key).bind m.kept?) := by
  induction ms with
  | nil => exact .nil
  | cons m rest ih =>
    have hrest := ih fun n hn => hms n (List.mem_cons_of_mem _ hn)
    cases hv : r.get? m.key with
    | none =>
      rw [List.filterMap_cons_none (by simp [hv]), List.filterMap_cons_none (by simp [hv])]
      exact hrest
    | some v =>
      have hsuits : (encodeField e m v).Suits (contribution (inside e) m.name) (m.kept? v) := by
        rw [funext (contribution_field (hms m List.mem_cons_self))]
        exact encodeField_suits e m v
      have hkept : (m :: rest).filterMap (fun m => (r.get? m.key).bind m.kept?) =
          (m.kept? v).toList ++ rest.filterMap fun m => (r.get? m.key).bind m.kept? := by
        cases h : m.kept? v <;> simp [hv, h]
      rw [List.filterMap_cons_some (by simp [hv]; rfl), hkept]
      exact .cons hsuits hrest

theorem suited_location (r : Record) :
    Suited (inside .coverage) ((locationFinding? r).toList.map (boxName, ·))
      (keptLocation? r).toList := by
  cases h : locationFinding? r with
  | none =>
    rw [keptLocation?_of_none h]
    exact .nil
  | some f =>
    have hsuits : f.Suits (contribution (inside .coverage) boxName) (keptLocation? r) := by
      rw [funext contribution_box]
      exact locationFinding?_suits h
    simpa using Suited.cons hsuits .nil

theorem suited_findings (r : Record) (e : Entity) :
    Suited (inside e) (findings r e) (kept r e) := by
  refine (suited_fields r fun m hm => hm).append ?_
  split
  · next h =>
    subst h
    exact suited_location r
  · exact .nil

/-! ## Sections of a record -/

/-- The section of an entity. -/
def sectionOf (r : Record) (e : Entity) : Section := (e, found (findings r e))

/-- No value of some entities is refused. -/
def NoneRefused (r : Record) (es : List Entity) : Prop :=
  ∀ e ∈ es, ∀ f ∈ findings r e, ∀ err, f.2 ≠ .refused err

theorem noneRefused_iff {r : Record} {es : List Entity} :
    refusals (es.flatMap (findings r)) = [] ↔ NoneRefused r es := by
  rw [refusals_eq_nil_iff, NoneRefused]
  simp only [List.mem_flatMap]
  exact ⟨fun h e he f hf => h f ⟨e, he, hf⟩, fun h f ⟨e, he, hf⟩ => h e he f hf⟩

/-- The sections are the result, or the first refusal is. -/
theorem gather_result (r : Record) (es : List Entity) :
    (gather r es).result =
      match refusals (es.flatMap (findings r)) with
      | [] => .ok (es.map (sectionOf r))
      | e :: _ => .error e := by
  induction es with
  | nil => rfl
  | cons e rest ih =>
    rw [List.flatMap_cons, refusals_append, gather]
    have hleaves := leaves_result (findings r e)
    cases hrefusals : refusals (findings r e) with
    | cons err _ =>
      rw [hrefusals] at hleaves
      simp only [hleaves]
      rfl
    | nil =>
      rw [hrefusals] at hleaves
      simp only [hleaves, ih]
      cases refusals (rest.flatMap (findings r)) <;> rfl

/-- The graph of a record has its sections, the markings and the associated records. -/
def graphOf (r : Record) : Graph :=
  assemble ((sectionsOf r).map (sectionOf r) ++ [(.security, markingLeaves r)]) r.associations

/-- The graph of a record is the result, or the first refusal is. -/
theorem encode_result (r : Record) :
    (encode r).result =
      match refusals ((sectionsOf r).flatMap (findings r)) with
      | [] => .ok (graphOf r)
      | e :: _ => .error e := by
  have hgather := gather_result r (sectionsOf r)
  rw [encode]
  cases hrefusals : refusals ((sectionsOf r).flatMap (findings r)) with
  | nil =>
    rw [hrefusals] at hgather
    simp only [hgather]
    rfl
  | cons e _ =>
    rw [hrefusals] at hgather
    simp only [hgather]

theorem encode_ok {r : Record} {g : Graph} (h : (encode r).result = .ok g) :
    g = graphOf r ∧ NoneRefused r (sectionsOf r) := by
  rw [encode_result] at h
  cases hrefusals : refusals ((sectionsOf r).flatMap (findings r)) with
  | nil =>
    rw [hrefusals] at h
    exact ⟨(Except.ok.inj h).symm, noneRefused_iff.mp hrefusals⟩
  | cons e _ =>
    rw [hrefusals] at h
    cases h

/-- A record without a refused value is encoded. -/
theorem encode_of_noneRefused {r : Record} (h : NoneRefused r (sectionsOf r)) :
    (encode r).result = .ok (graphOf r) := by
  rw [encode_result, noneRefused_iff.mpr h]

theorem writes_sections {r : Record} {es : List Entity} (h : NoneRefused r es) :
    Writes ((es.map (sectionOf r)).flatMap sectionReadings) (es.flatMap (kept r)) := by
  induction es with
  | nil => exact writes_nil
  | cons e rest ih =>
    obtain ⟨hnone, hrest⟩ := List.forall_mem_cons.mp h
    exact ((suited_findings r e).writes hnone).append (ih hrest)

theorem sectionReadings_security (r : Record) :
    sectionReadings (.security, markingLeaves r) = (marks r).map fun m => .mark m.1 m.2 := by
  rw [sectionReadings, markingLeaves, marks, List.map_filterMap, List.map_filterMap]
  refine List.filterMap_congr fun m _ => ?_
  cases r.text? m.key with
  | none => rfl
  | some s => exact congrArg some (contribution_marking m s)

/-! ## The type of a record -/

/-- The type of a record, if a field of its own comes back. -/
def keptProduct? (r : Record) : Option Product :=
  r.product.filter fun p => (mappings p.entity).any fun m => (r.get? m.key).any m.keeps

theorem ofEntity?_sections : ∀ e ∈ sections, Product.ofEntity? e = none := by
  decide

theorem ofEntity?_entity (p : Product) : Product.ofEntity? p.entity = some p := by
  cases p <;> rfl

/-- Fields that hold no date have a leaf when one of them comes back. -/
theorem found_fields_isEmpty {r : Record} {e : Entity} {ms : List Mapping}
    (hkind : ∀ m ∈ ms, m.kind ≠ .date)
    (hnot : ∀ m ∈ ms, ∀ v, r.get? m.key = some v → ∀ err, encodeField e m v ≠ .refused err) :
    (found (ms.filterMap fun m =>
        (r.get? m.key).map fun v => (m.name, encodeField e m v))).isEmpty =
      !ms.any fun m => (r.get? m.key).any m.keeps := by
  induction ms with
  | nil => rfl
  | cons m rest ih =>
    obtain ⟨hm, hrest⟩ := List.forall_mem_cons.mp hkind
    obtain ⟨hnot', hnotRest⟩ := List.forall_mem_cons.mp hnot
    have ih := ih hrest hnotRest
    rw [List.any_cons, Bool.not_or, ← ih]
    cases hv : r.get? m.key with
    | none =>
      rw [List.filterMap_cons_none (by simp [hv])]
      rfl
    | some v =>
      rw [List.filterMap_cons_some (by simp [hv]; rfl), found, List.filterMap_cons, Option.any_some,
        ← leaf?_isSome hm (hnot' v hv)]
      cases (encodeField e m v).leaf? <;> rfl

/-- The section of a type has leaves when a field of the type comes back. -/
theorem found_isEmpty {r : Record} {p : Product}
    (h : ∀ f ∈ findings r p.entity, ∀ err, f.2 ≠ .refused err) :
    (found (findings r p.entity)).isEmpty =
      !(mappings p.entity).any fun m => (r.get? m.key).any m.keeps := by
  have hfindings : findings r p.entity = fieldFindings r p.entity := by
    rw [findings, if_neg (by cases p <;> decide), List.append_nil]
  rw [hfindings] at h ⊢
  refine found_fields_isEmpty (kind_ne_date p) fun m hm v hv err => ?_
  exact h (m.name, encodeField p.entity m v) (List.mem_filterMap.mpr ⟨m, hm, by rw [hv]; rfl⟩) err

theorem sectionProduct?_entity {r : Record} {p : Product}
    (h : ∀ f ∈ findings r p.entity, ∀ err, f.2 ≠ .refused err) :
    sectionProduct? (sectionOf r p.entity) =
      if (mappings p.entity).any fun m => (r.get? m.key).any m.keeps then some p else none := by
  have hinside : (inside p.entity).inAssociation = false := by cases p <;> rfl
  rw [sectionProduct?, sectionOf, found_isEmpty h, hinside, Bool.or_false, ofEntity?_entity]
  cases (mappings p.entity).any fun m => (r.get? m.key).any m.keeps <;> rfl

theorem products_sections {r : Record} (h : NoneRefused r (sectionsOf r)) :
    ((sectionsOf r).map (sectionOf r) ++ [(Entity.security, markingLeaves r)]).filterMap
      sectionProduct? = (keptProduct? r).toList := by
  -- only the entity of the type sets a type
  have hsections : (sections.map (sectionOf r)).filterMap sectionProduct? = [] := by
    rw [List.filterMap_eq_nil_iff]
    intro s hs
    obtain ⟨e, he, rfl⟩ := List.mem_map.mp hs
    rw [sectionProduct?, sectionOf, ofEntity?_sections e he, ite_self]
  have hsecurity : sectionProduct? (Entity.security, markingLeaves r) = none := by
    rw [sectionProduct?]
    exact ite_self _
  rw [sectionsOf, List.map_append, List.filterMap_append, List.filterMap_append, hsections,
    List.filterMap_cons_none hsecurity, List.filterMap_nil, List.append_nil, List.nil_append,
    keptProduct?]
  cases hp : r.product with
  | none => rfl
  | some p =>
    -- its section is entered when it has a leaf
    have hnone := h p.entity (by simp [sectionsOf, hp])
    show [sectionOf r p.entity].filterMap sectionProduct? = _
    rw [Option.filter_some]
    have hproduct := sectionProduct?_entity hnone
    split
    · next hany =>
      rw [if_pos hany] at hproduct
      rw [List.filterMap_cons_some hproduct]
      rfl
    · next hany =>
      rw [if_neg hany] at hproduct
      rw [List.filterMap_cons_none hproduct]
      rfl

end Catalogue.Exchange
