import Catalogue.Proofs.Json.Shape
import Catalogue.Proofs.Query.Soundness
import Catalogue.Proofs.Time.Stamp

/-!
# Filters through their serialised form

The serialised form names the kind of every part of a filter, and its reader asks for the same
names. A value holds the members of its objects in the order of their keys, which puts some contents
before their names; nothing in them is unreadable, so they are read all the same.

* `Filter.ofJson?_toJson` — a filter with finite numbers is read back from its serialised form.
* `Filter.ofJson?_sorted` — a readable value is read the same with its members sorted.
* `compile_serialized` — every compiled filter is read back.
-/

namespace Catalogue

open Catalogue.Geometry
open Catalogue.Number

/-! ## Regions -/

namespace Geometry.Region

theorem ofJson?_toJson {r : Region} (h : ∀ x ∈ r.radius, x.isFinite = true) :
    ofJson? r.toJson = some r := by
  obtain ⟨wkt, radius⟩ := r
  cases radius with
  | none => rfl
  | some x =>
    have hx : x.isFinite = true := h x rfl
    rw [toJson]
    simp only [Json.ofFloat_of_isFinite hx]
    rfl

theorem isReadable_toJson (r : Region) : r.toJson.isReadable = true := by
  unfold toJson
  split
  · rfl
  · next x _ =>
    simp only [Json.isReadable, Json.membersReadable, Json.isReadable_ofFloat, Bool.and_self]

theorem ofJson?_sorted (v : Json) : ofJson? v.sorted = ofJson? v := by
  rw [ofJson?, ofJson?, Json.fields?_sorted]
  cases v.fields? ["wkt", "buffer_meters"] with
  | none => rfl
  | some fields =>
    match fields with
    | [wkt, buffer] =>
      have hwkt : ∀ w ∈ wkt, Json.string? w.sorted = Json.string? w :=
        fun w _ => Json.string?_sorted w
      have hbuffer : ∀ w ∈ buffer, Json.nullable? Json.float? w.sorted =
          Json.nullable? Json.float? w := fun w _ => Json.nullable?_sorted Json.float?_sorted w
      simp only [Option.map_some, List.map_cons, List.map_nil, Option.bind_eq_bind,
        Option.bind_some, Json.required?_sorted hwkt, Json.optional?_sorted hbuffer]
    | [] | [_] | _ :: _ :: _ :: _ => rfl

end Geometry.Region

namespace Filter

/-! ## Operators -/

namespace Operator

theorem tagged?_toJson (o : Operator) :
    o.toJson.tagged? "op" "meters" = some (o.name, o.meters?.map .ofFloat) := by
  unfold toJson
  split
  · next h => rw [Json.tagged?_single (by decide), h, Option.map_none]
  · next x h => rw [Json.tagged?_pair (by decide), h, Option.map_some]

theorem ofJson?_toJson {o : Operator} (h : ∀ x ∈ o.meters?, x.isFinite = true) :
    ofJson? o.toJson = some o := by
  rw [ofJson?, tagged?_toJson]
  cases o with
  | within x => exact congrArg (Option.map within) (Json.float?_ofFloat (h x rfl))
  | beyond x => exact congrArg (Option.map beyond) (Json.float?_ofFloat (h x rfl))
  | _ => rfl

theorem isReadable_toJson (o : Operator) : o.toJson.isReadable = true := by
  unfold toJson
  split
  · rfl
  · simp only [Json.isReadable, Json.membersReadable, Json.isReadable_ofFloat, Bool.and_self]

theorem ofName?_sorted (name : String) (content : Option Json) :
    ofName? name (content.map Json.sorted) = ofName? name content := by
  unfold ofName?
  rw [Json.content?_sorted Json.float?_sorted, Json.noContent?_sorted]

theorem ofJson?_sorted {v : Json} (h : v.isReadable = true) : ofJson? v.sorted = ofJson? v := by
  rw [ofJson?, ofJson?, Json.tagged?_sorted h]
  cases v.tagged? "op" "meters" with
  | none => rfl
  | some p => exact ofName?_sorted p.1 p.2

end Operator

/-! ## Values -/

namespace Value

theorem tagged?_toJson (v : Value) :
    v.toJson.tagged? "type" "value" = some (v.kind, v.content) := by
  unfold toJson
  split
  · next h => rw [Json.tagged?_single (by decide), h]
  · next c h => rw [Json.tagged?_pair (by decide), h]

theorem ofJson?_toJson {v : Value} (h : ∀ x ∈ v.numbers, x.isFinite = true) :
    ofJson? v.toJson = some v := by
  rw [ofJson?, tagged?_toJson]
  show ofKind? v.kind v.content = some v
  cases v with
  | text s => rfl
  | short n => exact congrArg (Option.map short) (Json.int16?_toInt n)
  | int n => exact congrArg (Option.map int) (Json.int32?_toInt n)
  | long n => exact congrArg (Option.map long) (Json.int64?_toInt n)
  | float x =>
    exact congrArg (Option.map float) (Json.single?_ofFloat (h x.value List.mem_cons_self))
  | double x => exact congrArg (Option.map double) (Json.float?_ofFloat (h x List.mem_cons_self))
  | date t =>
    simp only [kind, content, ofKind?, Json.content?_some, Json.string?, Option.bind_some,
      Time.stamp?_stamp, Option.map_some]
  | geometry r =>
    have hr : ∀ x ∈ r.radius, x.isFinite = true := fun x hx => h x (Option.mem_toList.mpr hx)
    exact congrArg (Option.map geometry) (Region.ofJson?_toJson hr)
  | null => rfl

theorem isReadable_content (v : Value) : v.content.all Json.isReadable = true := by
  cases v with
  | float x => exact Json.isReadable_ofFloat x.value
  | double x => exact Json.isReadable_ofFloat x
  | geometry r => exact r.isReadable_toJson
  | _ => rfl

theorem isReadable_toJson (v : Value) : v.toJson.isReadable = true := by
  have hcontent := v.isReadable_content
  unfold toJson
  split
  · rfl
  · next c h =>
    rw [h, Option.all_some] at hcontent
    simp only [Json.isReadable, Json.membersReadable, hcontent, Bool.and_self]

theorem ofKind?_sorted (kind : String) (content : Option Json) :
    ofKind? kind (content.map Json.sorted) = ofKind? kind content := by
  have hinteger {α : Type} (read : Int → Option α) (v : Json) :
      v.sorted.integer?.bind read = v.integer?.bind read := by
    rw [Json.integer?_sorted]
  have hdate (v : Json) : v.sorted.string?.bind Time.stamp? = v.string?.bind Time.stamp? := by
    rw [Json.string?_sorted]
  unfold ofKind?
  rw [Json.content?_sorted Json.string?_sorted, Json.content?_sorted (hinteger int16?),
    Json.content?_sorted (hinteger int32?), Json.content?_sorted (hinteger int64?),
    Json.content?_sorted Json.single?_sorted, Json.content?_sorted Json.float?_sorted,
    Json.content?_sorted hdate, Json.content?_sorted Region.ofJson?_sorted,
    Json.noContent?_sorted]

theorem ofJson?_sorted {v : Json} (h : v.isReadable = true) : ofJson? v.sorted = ofJson? v := by
  rw [ofJson?, ofJson?, Json.tagged?_sorted h]
  cases v.tagged? "type" "value" with
  | none => rfl
  | some p => exact ofKind?_sorted p.1 p.2

end Value

/-! ## Predicates -/

namespace Predicate

theorem fields?_toJson (p : Predicate) :
    p.toJson.fields? ["attribute", "operator", "value"] =
      some [some (.string p.subject), some p.operator.toJson, some p.value.toJson] := rfl

theorem ofJson?_toJson {p : Predicate} (h : ∀ x ∈ p.numbers, x.isFinite = true) :
    ofJson? p.toJson = some p := by
  have hoperator : ∀ x ∈ p.operator.meters?, x.isFinite = true := fun x hx =>
    h x (List.mem_append_left _ (Option.mem_toList.mpr hx))
  have hvalue : ∀ x ∈ p.value.numbers, x.isFinite = true := fun x hx =>
    h x (List.mem_append_right _ hx)
  simp only [ofJson?, fields?_toJson, Json.required?_some, Json.string?,
    Operator.ofJson?_toJson hoperator, Value.ofJson?_toJson hvalue, Option.bind_eq_bind,
    Option.bind_some, Option.pure_def]

theorem isReadable_toJson (p : Predicate) : p.toJson.isReadable = true := by
  rw [toJson, Json.isReadable, Json.membersReadable_iff]
  simp only [List.forall_mem_cons, Json.isReadable, p.operator.isReadable_toJson,
    p.value.isReadable_toJson, true_and]
  exact List.forall_mem_nil _

theorem ofJson?_sorted {v : Json} (h : v.isReadable = true) : ofJson? v.sorted = ofJson? v := by
  rw [ofJson?, ofJson?, Json.fields?_sorted]
  cases hfields : v.fields? ["attribute", "operator", "value"] with
  | none => rfl
  | some fields =>
    have hreadable := Json.isReadable_of_fields? h hfields
    match fields with
    | [subject, operator, value] =>
      have hsubject : ∀ w ∈ subject, Json.string? w.sorted = Json.string? w :=
        fun w _ => Json.string?_sorted w
      have hoperator : ∀ w ∈ operator, Operator.ofJson? w.sorted = Operator.ofJson? w := by
        rintro w rfl
        exact Operator.ofJson?_sorted (hreadable (some w) (by simp))
      have hvalue : ∀ w ∈ value, Value.ofJson? w.sorted = Value.ofJson? w := by
        rintro w rfl
        exact Value.ofJson?_sorted (hreadable (some w) (by simp))
      simp only [Option.map_some, List.map_cons, List.map_nil, Option.bind_eq_bind,
        Option.bind_some, Json.required?_sorted hsubject, Json.required?_sorted hoperator,
        Json.required?_sorted hvalue]
    | [] | [_] | [_, _] | _ :: _ :: _ :: _ :: _ => rfl

end Predicate

/-! ## Filters -/

theorem mem_numbers_of_mem {fs : List Filter} {f : Filter} (hf : f ∈ fs) {x : Float}
    (hx : x ∈ f.numbers) : x ∈ (predicatesAll fs).flatMap Predicate.numbers := by
  rw [Query.Machine.predicatesAll_eq, List.flatMap_assoc]
  exact List.mem_flatMap.mpr ⟨f, hf, hx⟩

/-- The serialised form is an object with one member. -/
theorem exists_member_toJson (f : Filter) :
    ∃ kind content, f.toJson = .object [(kind, content)] := by
  cases f <;> exact ⟨_, _, rfl⟩

mutual

/-- A filter with finite numbers is read back from its serialised form. -/
theorem ofJson?_toJson : ∀ (f : Filter), (∀ x ∈ f.numbers, x.isFinite = true) →
    ofJson? f.toJson = some f
  | .and children, h => by
    have hchildren := ofJsonAll?_toJson children fun f hf x hx => h x (mem_numbers_of_mem hf hx)
    exact congrArg (Option.map Filter.and) hchildren
  | .or children, h => by
    have hchildren := ofJsonAll?_toJson children fun f hf x hx => h x (mem_numbers_of_mem hf hx)
    exact congrArg (Option.map Filter.or) hchildren
  | .not child, h => by
    have hchild := ofJson?_toJson child h
    obtain ⟨kind, content, hobject⟩ := exists_member_toJson child
    rw [hobject] at hchild
    rw [toJson, hobject]
    exact congrArg (Option.map Filter.not) hchild
  | .predicate p, h => by
    have hp := Predicate.ofJson?_toJson (p := p) fun x hx => h x (by
      rwa [numbers, predicates, List.flatMap_singleton])
    exact congrArg (Option.map Filter.predicate) hp

theorem ofJsonAll?_toJson : ∀ (fs : List Filter), (∀ f ∈ fs, ∀ x ∈ f.numbers, x.isFinite = true) →
    ofJsonAll? (toJsonAll fs) = some fs
  | [], _ => rfl
  | f :: rest, h => by
    obtain ⟨hf, hrest⟩ := List.forall_mem_cons.mp h
    rw [toJsonAll, ofJsonAll?, ofJson?_toJson f hf, ofJsonAll?_toJson rest hrest]
    rfl

end

mutual

theorem isReadable_toJson : ∀ f : Filter, f.toJson.isReadable = true
  | .and children | .or children => by
    rw [toJson, Json.isReadable, Json.membersReadable, Json.isReadable, areReadable_toJsonAll]
    rfl
  | .not child => by
    rw [toJson, Json.isReadable, Json.membersReadable, isReadable_toJson child]
    rfl
  | .predicate p => by
    rw [toJson, Json.isReadable, Json.membersReadable, p.isReadable_toJson]
    rfl

theorem areReadable_toJsonAll : ∀ fs : List Filter, Json.areReadable (toJsonAll fs) = true
  | [] => rfl
  | f :: rest => by
    rw [toJsonAll, Json.areReadable, isReadable_toJson f, areReadable_toJsonAll rest]
    rfl

end

theorem ofJson?_of_ne_singleton {ms : List (String × Json)} (h : ∀ k v, ms ≠ [(k, v)]) :
    ofJson? (.object ms) = none := by
  unfold ofJson?
  split
  · next k v heq => exact absurd (Json.object.inj heq) (h k v)
  · rfl

/-- Only a predicate has another number of members than one. -/
theorem ofMember?_of_ne_singleton (kind : String) {ms : List (String × Json)}
    (h : ∀ k v, ms ≠ [(k, v)]) : ofMember? kind (.object ms) =
      if kind = "predicate" then (Predicate.ofJson? (.object ms)).map Filter.predicate
      else none := by
  unfold ofMember?
  split
  · split
    · next k v => exact absurd rfl (h k v)
    · rfl
  · rfl
  · next hne => rw [if_neg hne]

theorem ofJson?_sorted_of_ne_singleton {ms : List (String × Json)} (h : ∀ k v, ms ≠ [(k, v)]) :
    ofJson? (Json.object ms).sorted = ofJson? (.object ms) := by
  obtain ⟨ns, hsorted, hns⟩ := Json.exists_sorted_of_ne_singleton h
  rw [hsorted, ofJson?_of_ne_singleton hns, ofJson?_of_ne_singleton h]

theorem ofMember?_sorted_of_ne_singleton (kind : String) {ms : List (String × Json)}
    (hreadable : (Json.object ms).isReadable = true) (h : ∀ k v, ms ≠ [(k, v)]) :
    ofMember? kind (Json.object ms).sorted = ofMember? kind (.object ms) := by
  have hpredicate := Predicate.ofJson?_sorted hreadable
  obtain ⟨ns, hsorted, hns⟩ := Json.exists_sorted_of_ne_singleton h
  rw [hsorted] at hpredicate ⊢
  rw [ofMember?_of_ne_singleton kind hns, ofMember?_of_ne_singleton kind h, hpredicate]

mutual

/-- A readable value is read the same with its members sorted. -/
theorem ofJson?_sorted : ∀ v : Json, v.isReadable = true → ofJson? v.sorted = ofJson? v
  | .object members, h => by
    match members with
    | [(kind, content)] =>
      rw [Json.isReadable, Json.membersReadable, Bool.and_eq_true] at h
      rw [Json.sorted_singleton, ofJson?, ofJson?]
      exact ofMember?_sorted kind content h.1
    | [] => exact ofJson?_sorted_of_ne_singleton (by rintro _ _ ⟨⟩)
    | _ :: _ :: _ => exact ofJson?_sorted_of_ne_singleton (by rintro _ _ ⟨⟩)
  | .array _, _ | .null, _ | .bool _, _ | .integer _, _ | .float _, _ | .string _, _ => rfl

theorem ofMember?_sorted (kind : String) : ∀ v : Json, v.isReadable = true →
    ofMember? kind v.sorted = ofMember? kind v
  | .array items, h => by
    have hitems := ofJsonAll?_sorted items h
    have hpredicate := Predicate.ofJson?_sorted h
    rw [Json.sorted] at hpredicate ⊢
    unfold ofMember?
    rw [hitems, hpredicate]
  | .object members, h => by
    have hpredicate := Predicate.ofJson?_sorted h
    match members with
    | [(k, v)] =>
      rw [Json.isReadable, Json.membersReadable, Bool.and_eq_true] at h
      have hchild := ofMember?_sorted k v h.1
      rw [Json.sorted_singleton] at hpredicate ⊢
      rw [ofMember?.eq_def, ofMember?.eq_def kind (.object [(k, v)])]
      dsimp only
      rw [hchild, hpredicate]
    | [] => exact ofMember?_sorted_of_ne_singleton kind h (by rintro _ _ ⟨⟩)
    | _ :: _ :: _ => exact ofMember?_sorted_of_ne_singleton kind h (by rintro _ _ ⟨⟩)
  | .null, _ | .bool _, _ | .integer _, _ | .float _, _ | .string _, _ => rfl

theorem ofJsonAll?_sorted : ∀ vs : List Json, Json.areReadable vs = true →
    ofJsonAll? (Json.sortedItems vs) = ofJsonAll? vs
  | [], _ => rfl
  | v :: rest, h => by
    rw [Json.areReadable, Bool.and_eq_true] at h
    rw [Json.sortedItems, ofJsonAll?, ofJsonAll?, ofJson?_sorted v h.1, ofJsonAll?_sorted rest h.2]

end

end Filter

/-! ## Compiled filters -/

namespace Query

/-- The filter of a query is sound, whether the query follows the grammar or not. -/
theorem isSound_of_compile {o : Options} {tree : Node} {c : Compiled} {f : Filter}
    (h : compile o tree = .ok c) (hf : c.filter = some f) : f.IsSound := by
  rw [compile, compileMarked] at h
  split at h
  · obtain rfl := Except.ok.inj h
    exact (Machine.IsSound.run .empty tree.steps).result f hf
  · cases h

/--
The filter of a query is read back from its serialised form, with the members of every object in
the order of their keys and in the order that they are written in.
-/
theorem compile_serialized (o : Options) (tree : Node) (c : Compiled) (f : Filter)
    (h : compile o tree = .ok c) (hf : c.filter = some f) :
    Filter.ofJson? f.toJson.sorted = some f ∧ Filter.ofJson? f.toJson = some f := by
  have hback := Filter.ofJson?_toJson f (isSound_of_compile h hf).finite
  refine ⟨?_, hback⟩
  rw [Filter.ofJson?_sorted f.toJson f.isReadable_toJson, hback]

/-- A distance around a circle, a number and a negated date. -/
theorem compile_serialized_near :
    let circle := Build.circle (Build.coordinate "1" "2") (Build.distance "2" "METERS")
    let near := Build.relative "place" "WITHIN" (Build.distance "5" "KILOMETERS") circle
    let many := Build.primary "size" ">" (Build.number "70000")
    let before := Build.not (Build.factor (Build.primary "modified" "<" (Build.date "2020/01/02")))
    let tree := Build.query [Build.term [Build.factor near], Build.term [Build.factor many,
      Build.factor before]]
    ∃ c f, compile {} tree = .ok c ∧ c.filter = some f ∧ f.predicates.length = 3 ∧
      Filter.ofJson? f.toJson.sorted = some f ∧ Filter.ofJson? f.toJson = some f := by
  intro circle near many before tree
  have hcount : (((compileMarked (fun _ => 0) {} tree).toOption.bind Compiled.filter).map
      fun f => f.predicates.length) = some 3 := by decide +kernel
  obtain ⟨f, hf, hlength⟩ := Option.map_eq_some_iff.mp hcount
  obtain ⟨c, hc, hfilter⟩ := Option.bind_eq_some_iff.mp hf
  have hcompile : compile {} tree = .ok c := (compileMarked_congr rfl).trans (eq_ok_of_toOption hc)
  exact ⟨c, f, hcompile, hfilter, hlength, compile_serialized {} tree c f hcompile hfilter⟩

end Query

end Catalogue
