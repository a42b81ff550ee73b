import Catalogue.Proofs.Exchange.Drafting

/-!
# What a leaf can contribute

What a leaf contributes depends on where it stands: below an association it can only name an
associated record, in an entity of markings it can only be a marking, and elsewhere it can only
write the value of a field or of the location.

* `Contributes` — what a leaf with a value can contribute in its scope.
* `contributes_contribution` — it contributes nothing else.
* `exists_contributes` — what is read on a walk is contributed by a leaf on it.
-/

namespace Catalogue.Exchange

open Catalogue.Schema (Entity)

/-! ## Names -/

theorem Marking.name_of_ofName? {s : String} {m : Marking} (h : Marking.ofName? s = some m) :
    m.name = s := by
  rw [Marking.ofName?] at h
  have hfound := List.find?_some h
  exact beq_iff_eq.mp hfound

/-! ## Contributions -/

/-- What a leaf with a value can contribute in its scope. -/
inductive Contributes (scope : Scope) (name : String) (v : Graph.Value) : Reading → Prop
  | skipped (e : Journal.Entry) : Contributes scope name v (.skipped e)
  | associate (identifier : String) : scope.inAssociation = true → name = identifierName →
    v.text? = some identifier → Contributes scope name v (.associate identifier)
  | mark (e : Entity) (m : Marking) (s : String) : scope.inAssociation = false →
    Entity.ofName? (scope.entity.getD "") = some e → e.holdsMarkings = true →
    Marking.ofName? name = some m → v.text? = some s → Contributes scope name v (.mark m s)
  | location (w : Record.Value) : scope.inAssociation = false →
    Contributes scope name v (.write locationKey w)
  | refused (e : ExchangeError) : scope.inAssociation = false →
    Contributes scope name v (.refused e)
  | field (e : Entity) (m : Mapping) (w : Record.Value) : scope.inAssociation = false →
    m ∈ mappings e → Contributes scope name v (.write m.key w)

/-- The value of a field is written under the key of the field, or skipped. -/
theorem decodeField_eq (e : Entity) (m : Mapping) (v : Graph.Value) :
    (∃ w, decodeField e m v = .write m.key w) ∨ ∃ entry, decodeField e m v = .skipped entry := by
  have hread {α : Type} {a : Option α} {f : α → Reading} {other : Journal.Entry}
      (hf : ∀ x, (∃ w, f x = .write m.key w) ∨ ∃ entry, f x = .skipped entry) :
      (∃ w, (a.map f).getD (.skipped other) = .write m.key w) ∨
        ∃ entry, (a.map f).getD (.skipped other) = .skipped entry := by
    cases a with
    | none => exact .inr ⟨other, rfl⟩
    | some x => exact hf x
  rw [decodeField]
  cases m.kind
  case text =>
    refine hread fun s => ?_
    rw [readText]
    split
    · exact .inl ⟨_, rfl⟩
    · split
      · exact .inl ⟨_, rfl⟩
      · exact .inr ⟨_, rfl⟩
  case date =>
    refine hread fun s => ?_
    rw [readDate]
    split
    · exact .inl ⟨_, rfl⟩
    · exact .inr ⟨_, rfl⟩
  case rectangle => exact .inr ⟨_, rfl⟩
  all_goals exact hread fun x => .inl ⟨_, rfl⟩

/-- A leaf contributes what it can and nothing else. -/
theorem contributes_contribution (scope : Scope) (name : String) (v : Graph.Value) :
    Contributes scope name v (contribution scope name v) := by
  rw [contribution]
  cases hentity : Entity.ofName? (scope.entity.getD "") with
  | none => exact .skipped _
  | some e =>
    cases hscope : scope.inAssociation with
    | true =>
      simp only [if_true, readAssociated]
      split
      · next hname =>
        split
        · next identifier htext => exact .associate identifier hscope hname htext
        · exact .skipped _
      · exact .skipped _
    | false =>
      simp only [Bool.false_eq_true, if_false]
      split
      · next hmarkings =>
        rw [readMarking]
        split
        · exact .skipped _
        · next s htext =>
          split
          · next m hm => exact .mark e m s hscope hentity hmarkings hm htext
          · exact .skipped _
      · split
        · cases v with
          | rectangle b => exact .location _ hscope
          | text wkt =>
            rw [readBox]
            split
            · exact .location _ hscope
            · exact .refused _ hscope
          | _ => exact .skipped _
        · split
          · next m hm =>
            have hmem : m ∈ mappings e := List.mem_of_find?_eq_some hm
            rcases decodeField_eq e m v with ⟨w, hw⟩ | ⟨entry, hentry⟩
            · rw [hw]
              exact .field e m w hscope hmem
            · rw [hentry]
              exact .skipped _
          · exact .skipped _

namespace Contributes

variable {scope : Scope} {name : String} {v : Graph.Value} {r : Reading}

/-- Below an association a leaf writes no value, is no marking and is not refused. -/
theorem inside (hr : Contributes scope name v r) (h : scope.inAssociation = true) :
    r.write? = none ∧ r.mark? = none ∧ r.refusal? = none := by
  cases hr with
  | skipped => exact ⟨rfl, rfl, rfl⟩
  | associate => exact ⟨rfl, rfl, rfl⟩
  | _ => simp_all

/-- Outside associations no leaf names an associated record. -/
theorem outside (hr : Contributes scope name v r) (h : scope.inAssociation = false) :
    r.associate? = none := by
  cases hr with
  | associate => simp_all
  | _ => rfl

end Contributes

/-- A reading of a walk is what a leaf on it contributes. -/
theorem exists_contribution {vs : List Visit} {r : Reading} (h : r ∈ readings vs) :
    ∃ n scope v, Visit.leaf n scope ∈ vs ∧ n.value = some v ∧ contribution scope n.name v = r := by
  obtain ⟨visit, hvisit, hread⟩ := List.mem_filterMap.mp h
  cases visit with
  | entity => cases hread
  | leaf n scope =>
    obtain ⟨v, hvalue, hv⟩ := Option.map_eq_some_iff.mp hread
    exact ⟨n, scope, v, hvisit, hvalue, hv⟩

/-- A reading of a walk is contributed by a leaf on it. -/
theorem exists_contributes {vs : List Visit} {r : Reading} (h : r ∈ readings vs) :
    ∃ n scope v, Visit.leaf n scope ∈ vs ∧ Contributes scope n.name v r := by
  obtain ⟨n, scope, v, hvisit, -, rfl⟩ := exists_contribution h
  exact ⟨n, scope, v, hvisit, contributes_contribution scope n.name v⟩

end Catalogue.Exchange
