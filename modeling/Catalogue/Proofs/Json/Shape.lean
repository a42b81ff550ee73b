import Catalogue.Json.Shape
import Catalogue.Json.Writer
import Catalogue.Proofs.Number.Integer

/-!
# Typed reading of written values

A scalar is read back from the value that it was written as. The members of an object are found by
their keys, so a typed reader does not see their order: a value whose members have been sorted is
read the same.

* `float?_ofFloat`, `single?_ofFloat` — finite numbers come back.
* `fields?_sorted` — a record has the same fields, each of them sorted.
* `tagged?_sorted` — a readable value has the same name, and its content sorted.
-/

namespace Catalogue

namespace Number

/-- What binary32 holds is not changed by rounding to it. -/
theorem Single.ofFloat_value (x : Single) : Single.ofFloat x.value = x := by
  rw [ofFloat, ofNarrow, x.narrow_value, dif_pos x.narrow_value]

end Number

namespace Json

/-! ## Numbers -/

theorem int16?_toInt (n : Int16) : int16? (.integer n.toInt) = some n := by
  rw [int16?, integer?, Option.bind_some, Number.int16?_eq_some_iff]

theorem int32?_toInt (n : Int32) : int32? (.integer n.toInt) = some n := by
  rw [int32?, integer?, Option.bind_some, Number.int32?_eq_some_iff]

theorem int64?_toInt (n : Int64) : int64? (.integer n.toInt) = some n := by
  rw [int64?, integer?, Option.bind_some, Number.int64?_eq_some_iff]

theorem uint16?_toNat (n : UInt16) : uint16? (.integer n.toNat) = some n := by
  rw [uint16?, integer?, Option.bind_some, Number.uint16?_eq_some_iff]

theorem uint32?_toNat (n : UInt32) : uint32? (.integer n.toNat) = some n := by
  rw [uint32?, integer?, Option.bind_some, Number.uint32?_eq_some_iff]

theorem ofFloat_of_isFinite {x : Float} (h : x.isFinite = true) : ofFloat x = .float x := if_pos h

theorem float?_ofFloat {x : Float} (h : x.isFinite = true) : float? (ofFloat x) = some x := by
  rw [ofFloat_of_isFinite h, float?]

theorem single?_ofFloat {x : Number.Single} (h : x.value.isFinite = true) :
    single? (ofFloat x.value) = some x := by
  rw [ofFloat_of_isFinite h, single?, x.ofFloat_value]

theorem isReadable_ofFloat (x : Float) : (ofFloat x).isReadable = true := by
  unfold ofFloat
  split <;> rfl

/-! ## Readable containers -/

theorem areReadable_iff {vs : List Json} :
    areReadable vs = true ↔ ∀ v ∈ vs, v.isReadable = true := by
  induction vs with
  | nil => simp [areReadable]
  | cons v rest ih => rw [areReadable, Bool.and_eq_true, ih, List.forall_mem_cons]

theorem membersReadable_iff {ms : List (String × Json)} :
    membersReadable ms = true ↔ ∀ m ∈ ms, m.2.isReadable = true := by
  induction ms with
  | nil => simp [membersReadable]
  | cons m rest ih => rw [membersReadable, Bool.and_eq_true, ih, List.forall_mem_cons]

/-! ## Members by their keys -/

section Members

variable {ms ns : List (String × Json)}

/-- The order of the members does not matter. -/
theorem member?_perm (h : ms.Perm ns) (key : String) : member? ms key = member? ns key := by
  have hfilter := h.filter (fun m => m.1 == key)
  rw [member?, member?]
  generalize ms.filter (fun m => m.1 == key) = found at hfilter ⊢
  generalize ns.filter (fun m => m.1 == key) = found' at hfilter ⊢
  match found with
  | [] => rw [List.nil_perm.mp hfilter]
  | [m] => rw [List.singleton_perm.mp hfilter]
  | _ :: _ :: _ =>
    match found', hfilter.length_eq with
    | _ :: _ :: _, _ => rfl

/-- A function of the values does not touch the keys. -/
theorem member?_map (f : Json → Json) (ms : List (String × Json)) (key : String) :
    member? (ms.map fun m => (m.1, f m.2)) key = (member? ms key).map (Option.map f) := by
  have hsame : (fun m : String × Json => m.1 == key) ∘ (fun m : String × Json => (m.1, f m.2)) =
      fun m => m.1 == key := rfl
  rw [member?, member?, List.filter_map, hsame]
  generalize ms.filter (fun m => m.1 == key) = found
  rcases found with _ | ⟨m, _ | ⟨n, rest⟩⟩ <;> rfl

/-- What is found under a key is readable if every member is. -/
theorem isReadable_of_member? {key : String} {field : Option Json} (h : membersReadable ms = true)
    (hfield : member? ms key = some field) : field.all isReadable = true := by
  unfold member? at hfield
  split at hfield
  · obtain rfl := Option.some.inj hfield
    rfl
  · next m hone =>
    obtain rfl := Option.some.inj hfield
    have hm : m ∈ ms.filter (fun m => m.1 == key) := by
      rw [hone]
      exact List.mem_singleton_self m
    exact membersReadable_iff.mp h m ((List.mem_filter.mp hm).1)
  · cases hfield

end Members

/-! ## Written fields -/

section Written

variable {α : Type} (read : Json → Option α) (v : Json)

theorem required?_some : required? read (some v) = read v := by rw [required?, Option.bind_some]

theorem optional?_some (default : α) : optional? read default (some v) = read v := by rw [optional?]

theorem content?_some : content? read (some v) = read v := by rw [content?, Option.bind_some]

end Written

/-! ## Written items -/

theorem items?_map {α : Type} {read : Json → Option α} {write : α → Json} {as : List α}
    (h : ∀ a ∈ as, read (write a) = some a) : items? read (.array (as.map write)) = some as := by
  rw [items?]
  induction as with
  | nil => rfl
  | cons a rest ih =>
    obtain ⟨ha, hrest⟩ := List.forall_mem_cons.mp h
    rw [List.map_cons, List.mapM_cons, ha, ih hrest]
    rfl

/-! ## Written names -/

section Tagged

variable {tag key : String}

/-- A name with its content. -/
theorem tagged?_pair (h : tag ≠ key) (name : String) (content : Json) :
    tagged? tag key (.object [(tag, .string name), (key, content)]) =
      some (name, some content) := by
  have hne : (tag == key) = false := beq_eq_false_iff_ne.mpr h
  have hne' : (key == tag) = false := beq_eq_false_iff_ne.mpr h.symm
  simp [tagged?, member?, precedes, name?, hne, hne']

/-- A name without a content. -/
theorem tagged?_single (h : tag ≠ key) (name : String) :
    tagged? tag key (.object [(tag, .string name)]) = some (name, none) := by
  have hne : (tag == key) = false := beq_eq_false_iff_ne.mpr h
  simp [tagged?, member?, name?, hne]

end Tagged

/-! ## Sorted members -/

theorem sortedItems_eq_map (vs : List Json) : sortedItems vs = vs.map sorted := by
  induction vs with
  | nil => rfl
  | cons v rest ih => rw [sortedItems, ih, List.map_cons]

theorem sortedMembers_eq_map (ms : List (String × Json)) :
    sortedMembers ms = ms.map fun m => (m.1, m.2.sorted) := by
  induction ms with
  | nil => rfl
  | cons m rest ih => rw [sortedMembers, ih, List.map_cons]

/-- The members of an object, each of them sorted, in another order. -/
theorem exists_sorted_object (ms : List (String × Json)) :
    ∃ ns, sorted (.object ms) = .object ns ∧ ns.Perm (ms.map fun m => (m.1, m.2.sorted)) := by
  refine ⟨_, sorted.eq_2 ms, ?_⟩
  rw [sortedMembers_eq_map]
  exact List.mergeSort_perm _ _

theorem sorted_singleton (key : String) (v : Json) :
    sorted (.object [(key, v)]) = .object [(key, v.sorted)] := by
  obtain ⟨ns, hsorted, hperm⟩ := exists_sorted_object [(key, v)]
  rw [hsorted, List.perm_singleton.mp hperm]

/-- An object with any other number of members keeps that number. -/
theorem exists_sorted_of_ne_singleton {ms : List (String × Json)} (h : ∀ k v, ms ≠ [(k, v)]) :
    ∃ ns, sorted (.object ms) = .object ns ∧ ∀ k v, ns ≠ [(k, v)] := by
  obtain ⟨ns, hsorted, hperm⟩ := exists_sorted_object ms
  refine ⟨ns, hsorted, ?_⟩
  rintro k v rfl
  have hlength := hperm.length_eq
  rw [List.length_map, List.length_singleton] at hlength
  obtain ⟨m, rfl⟩ := List.length_eq_one_iff.mp hlength.symm
  exact h m.1 m.2 rfl

mutual

/-- Sorting makes nothing unreadable. -/
theorem isReadable_sorted : ∀ {v : Json}, v.isReadable = true → v.sorted.isReadable = true
  | .array items, h => by
    rw [sorted, isReadable, sortedItems_eq_map, areReadable_iff]
    exact List.forall_mem_map.mpr (itemsReadable_sorted h)
  | .object members, h => by
    obtain ⟨ns, hsorted, hperm⟩ := exists_sorted_object members
    rw [hsorted, isReadable, membersReadable_iff]
    intro m hm
    obtain ⟨m', hm', rfl⟩ := List.mem_map.mp (hperm.mem_iff.mp hm)
    exact membersReadable_sorted h m' hm'
  | .null, h | .bool _, h | .integer _, h | .float _, h | .string _, h => h

theorem itemsReadable_sorted : ∀ {vs : List Json}, areReadable vs = true →
    ∀ v ∈ vs, v.sorted.isReadable = true
  | [], _ => nofun
  | v :: rest, h => by
    rw [areReadable, Bool.and_eq_true] at h
    exact List.forall_mem_cons.mpr ⟨isReadable_sorted h.1, itemsReadable_sorted h.2⟩

theorem membersReadable_sorted : ∀ {ms : List (String × Json)}, membersReadable ms = true →
    ∀ m ∈ ms, m.2.sorted.isReadable = true
  | [], _ => nofun
  | (k, v) :: rest, h => by
    rw [membersReadable, Bool.and_eq_true] at h
    exact List.forall_mem_cons.mpr ⟨isReadable_sorted h.1, membersReadable_sorted h.2⟩

end

/-! ## Scalars -/

theorem string?_sorted (v : Json) : string? v.sorted = string? v := by cases v <;> rfl

theorem integer?_sorted (v : Json) : integer? v.sorted = integer? v := by cases v <;> rfl

theorem float?_sorted (v : Json) : float? v.sorted = float? v := by cases v <;> rfl

theorem single?_sorted (v : Json) : single? v.sorted = single? v := by cases v <;> rfl

theorem nullable?_sorted {α : Type} {read : Json → Option α} (h : ∀ v, read v.sorted = read v)
    (v : Json) : nullable? read v.sorted = nullable? read v := by
  have hv := h v
  cases v with
  | null => rfl
  | array items => exact congrArg (Option.map some) hv
  | object members => exact congrArg (Option.map some) hv
  | _ => rfl

theorem name?_of_ne_singleton {ms : List (String × Json)} (h : ∀ k v, ms ≠ [(k, v)]) :
    name? (.object ms) = none := by
  unfold name?
  split
  · next heq => cases heq
  · next k heq => exact absurd (object.inj heq) (h k .null)
  · rfl

theorem name?_sorted (v : Json) : name? v.sorted = name? v := by
  cases v with
  | object members =>
    by_cases hone : ∃ k w, members = [(k, w)]
    · obtain ⟨k, w, rfl⟩ := hone
      rw [sorted_singleton]
      cases w <;> rfl
    · simp only [not_exists] at hone
      obtain ⟨ns, hsorted, hns⟩ := exists_sorted_of_ne_singleton hone
      rw [hsorted, name?_of_ne_singleton hns, name?_of_ne_singleton hone]
  | _ => rfl

/-! ## Records -/

/-- Sorting sorts what is found under a key. -/
theorem member?_sorted {ms ns : List (String × Json)}
    (h : ns.Perm (ms.map fun m => (m.1, m.2.sorted))) (key : String) :
    member? ns key = (member? ms key).map (Option.map sorted) := by
  rw [member?_perm h, member?_map]

/-- A record has the same fields, each of them sorted. -/
theorem fields?_sorted (keys : List String) (v : Json) :
    fields? keys v.sorted = (fields? keys v).map (List.map (Option.map sorted)) := by
  cases v with
  | array items =>
    rw [sorted, sortedItems_eq_map, fields?, fields?, List.length_map]
    split
    · rfl
    · rw [Option.map_some, List.map_append, List.map_map, List.map_map, List.map_replicate]
      rfl
  | object members =>
    obtain ⟨ns, hsorted, hperm⟩ := exists_sorted_object members
    rw [hsorted, fields?, fields?]
    induction keys with
    | nil => rfl
    | cons key rest ih =>
      rw [List.mapM_cons, List.mapM_cons, member?_sorted hperm, ih]
      cases member? members key with
      | none => rfl
      | some field =>
        cases rest.mapM (member? members) with
        | none => rfl
        | some others => rfl
  | _ => rfl

/-- Every field of a readable record is readable. -/
theorem isReadable_of_fields? {keys : List String} {v : Json} (h : v.isReadable = true)
    {fields : List (Option Json)} (hfields : fields? keys v = some fields) :
    ∀ field ∈ fields, field.all isReadable = true := by
  cases v with
  | array items =>
    rw [fields?] at hfields
    split at hfields
    · cases hfields
    · obtain rfl := Option.some.inj hfields
      intro field hfield
      rcases List.mem_append.mp hfield with hitem | habsent
      · obtain ⟨w, hw, rfl⟩ := List.mem_map.mp hitem
        exact areReadable_iff.mp h w hw
      · rw [List.eq_of_mem_replicate habsent]
        rfl
  | object members =>
    rw [fields?] at hfields
    induction keys generalizing fields with
    | nil =>
      obtain rfl := Option.some.inj hfields
      nofun
    | cons key rest ih =>
      rw [List.mapM_cons] at hfields
      obtain ⟨field, hfield, hfields⟩ := Option.bind_eq_some_iff.mp hfields
      obtain ⟨others, hothers, hfields⟩ := Option.bind_eq_some_iff.mp hfields
      obtain rfl := Option.some.inj hfields
      exact List.forall_mem_cons.mpr ⟨isReadable_of_member? h hfield, ih hothers⟩
  | _ => cases hfields

/-- A content is not looked at before its name if all of the value is readable. -/
theorem tagged?_object {tag key : String} {ms : List (String × Json)}
    (h : membersReadable ms = true) : tagged? tag key (.object ms) =
      (member? ms tag).bind fun field => field.bind fun t => (name? t).bind fun name =>
        (member? ms key).bind fun content => some (name, content) := by
  have hread {content : Option Json} (hcontent : member? ms key = some content) :
      (precedes ms key tag && !content.all isReadable) = false := by
    rw [isReadable_of_member? h hcontent, Bool.not_true, Bool.and_false]
  simp only [tagged?, Option.bind_eq_bind, Option.pure_def]
  refine Option.bind_congr fun field _ => Option.bind_congr fun t _ =>
    Option.bind_congr fun name _ => Option.bind_congr fun content hcontent => ?_
  rw [hread hcontent, if_neg Bool.false_ne_true]

/-- A readable value has the same name, and its content sorted. -/
theorem tagged?_sorted {tag key : String} {v : Json} (h : v.isReadable = true) :
    tagged? tag key v.sorted = (tagged? tag key v).map fun p => (p.1, p.2.map sorted) := by
  cases v with
  | array items =>
    rw [sorted, sortedItems_eq_map]
    match items with
    | [] => rfl
    | [_] => rfl
    | [t, content] =>
      show ((string? t.sorted).map (·, some content.sorted)) = _
      rw [string?_sorted]
      cases ht : string? t with
      | none => simp [tagged?, ht]
      | some name => simp [tagged?, ht]
    | _ :: _ :: _ :: _ => rfl
  | object members =>
    obtain ⟨ns, hsorted, hperm⟩ := exists_sorted_object members
    have hns : membersReadable ns = true := by
      have hobject := isReadable_sorted h
      rwa [hsorted] at hobject
    rw [hsorted, tagged?_object h, tagged?_object hns, member?_sorted hperm, member?_sorted hperm]
    cases member? members tag with
    | none => rfl
    | some t =>
      cases t with
      | none => rfl
      | some t =>
        simp only [Option.map_some, Option.bind_some, name?_sorted]
        cases name? t with
        | none => rfl
        | some name =>
          cases member? members key with
          | none => rfl
          | some content => rfl
  | _ => rfl

/-! ## Fields and contents -/

section Fields

variable {α : Type} {read : Json → Option α} {field : Option Json}

theorem required?_sorted (h : ∀ v ∈ field, read v.sorted = read v) :
    required? read (field.map sorted) = required? read field := by
  cases field with
  | none => rfl
  | some v => exact h v rfl

theorem optional?_sorted (h : ∀ v ∈ field, read v.sorted = read v) (default : α) :
    optional? read default (field.map sorted) = optional? read default field := by
  cases field with
  | none => rfl
  | some v => exact h v rfl

theorem content?_sorted (h : ∀ v, read v.sorted = read v) (content : Option Json) :
    content? read (content.map sorted) = content? read content := required?_sorted fun v _ => h v

theorem noContent?_sorted (content : Option Json) :
    noContent? (content.map sorted) = noContent? content := by
  cases content with
  | none => rfl
  | some v => cases v <;> rfl

end Fields

end Json

end Catalogue
