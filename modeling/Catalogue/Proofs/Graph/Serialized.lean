import Catalogue.Graph.Basic
import Catalogue.Proofs.Json.Shape
import Catalogue.Proofs.Json.Text

/-!
# Graphs through their serialised form

Every part of a graph is written with the names of its fields and read by the same names. Only a
float that is not finite is lost, and so is the next number, which is no part of the graph's
equality.

* `Graph.floats` — the floats of a graph.
* `Graph.ofJson?_toJson` — a graph with finite floats is read back from its serialised form.
* `Graph.read?_write` — and from its text, where the floats are exact there.
-/

namespace Catalogue

open Catalogue.Geometry
open Catalogue.Number

/-! ## Boxes -/

namespace Geometry

def Coordinate.floats (c : Coordinate) : List Float := [c.lat, c.lon]

def Box.floats (b : Box) : List Float := b.upperLeft.floats ++ b.lowerRight.floats

theorem Coordinate.ofJson?_toJson {c : Coordinate} (h : ∀ x ∈ c.floats, x.isFinite = true) :
    ofJson? c.toJson = some c := by
  have hlat : c.lat.isFinite = true := h c.lat (by simp [floats])
  have hlon : c.lon.isFinite = true := h c.lon (by simp [floats])
  have hfields : c.toJson.fields? ["lat", "lon"] =
      some [some (.ofFloat c.lat), some (.ofFloat c.lon)] := rfl
  simp only [ofJson?, hfields, Json.required?_some, Json.float?_ofFloat hlat,
    Json.float?_ofFloat hlon, Option.bind_eq_bind, Option.bind_some, Option.pure_def]

theorem Box.ofJson?_toJson {b : Box} (h : ∀ x ∈ b.floats, x.isFinite = true) :
    ofJson? b.toJson = some b := by
  have hfields : b.toJson.fields? ["upper_left", "lower_right"] =
      some [some b.upperLeft.toJson, some b.lowerRight.toJson] := rfl
  obtain ⟨hupper, hlower⟩ := List.forall_mem_append.mp h
  simp only [ofJson?, hfields, Json.required?_some, Coordinate.ofJson?_toJson hupper,
    Coordinate.ofJson?_toJson hlower, Option.bind_eq_bind, Option.bind_some, Option.pure_def]

end Geometry

namespace Graph

/-! ## Values -/

theorem Timestamp.ofJson?_toJson {s : Timestamp} (h : s.second.isFinite = true) :
    ofJson? s.toJson = some s := by
  have hfields : s.toJson.fields? ["year", "month", "day", "hour", "minute", "second"] =
      some [some (.integer s.year.toInt), some (.integer s.month.toNat),
        some (.integer s.day.toNat), some (.integer s.hour.toNat), some (.integer s.minute.toNat),
        some (.ofFloat s.second)] := rfl
  simp only [ofJson?, hfields, Json.required?_some, Json.int32?_toInt, Json.uint32?_toNat,
    Json.float?_ofFloat h, Option.bind_eq_bind, Option.bind_some, Option.pure_def]

namespace Value

/-- The floats of a value. -/
def floats : Value → List Float
  | double x => [x]
  | date s => [s.second]
  | rectangle b => b.floats
  | _ => []

theorem tagged?_toJson (v : Value) :
    v.toJson.tagged? "type" "value" = some (v.kind.name, some v.content) :=
  Json.tagged?_pair (by decide) _ _

theorem ofName?_name (k : Schema.Kind) : Schema.Kind.ofName? k.name = some k := by
  cases k <;> decide

theorem ofJson?_toJson {v : Value} (h : ∀ x ∈ v.floats, x.isFinite = true) :
    ofJson? v.toJson = some v := by
  simp only [ofJson?, tagged?_toJson, ofName?_name, Option.bind_eq_bind, Option.bind_some]
  cases v with
  | text s => rfl
  | short n => rw [content, kind, ofKind?, Json.content?_some, Json.int16?_toInt, Option.map_some]
  | ushort n => rw [content, kind, ofKind?, Json.content?_some, Json.uint16?_toNat, Option.map_some]
  | int n => rw [content, kind, ofKind?, Json.content?_some, Json.int32?_toInt, Option.map_some]
  | uint n => rw [content, kind, ofKind?, Json.content?_some, Json.uint32?_toNat, Option.map_some]
  | long n => rw [content, kind, ofKind?, Json.content?_some, Json.int64?_toInt, Option.map_some]
  | double x =>
    have hx : x.isFinite = true := h x List.mem_cons_self
    rw [content, kind, ofKind?, Json.content?_some, Json.float?_ofFloat hx, Option.map_some]
  | bool b => rfl
  | date s =>
    have hs : s.second.isFinite = true := h s.second List.mem_cons_self
    rw [content, kind, ofKind?, Json.content?_some, s.ofJson?_toJson hs, Option.map_some]
  | rectangle b =>
    rw [content, kind, ofKind?, Json.content?_some, Box.ofJson?_toJson h, Option.map_some]

end Value

/-! ## Nodes and edges -/

namespace Node

/-- The floats of a node. -/
def floats (n : Node) : List Float := n.value.elim [] Value.floats

theorem ofName?_name (k : NodeRole) : NodeRole.ofName? k.name = some k := by
  cases k <;> decide

theorem ofJson?_of_fields {v : Json} {id kind name value : Option Json} {n : Node}
    (hfields : v.fields? ["id", "kind", "name", "value"] = some [id, kind, name, value])
    (hid : Json.required? Json.uint32? id = some n.id)
    (hkind : Json.required? NodeRole.ofJson? kind = some n.kind)
    (hname : Json.required? Json.string? name = some n.name)
    (hvalue : Json.optional? (Json.nullable? Value.ofJson?) none value = some n.value) :
    ofJson? v = some n := by
  simp only [ofJson?, hfields, hid, hkind, hname, hvalue, Option.bind_eq_bind, Option.bind_some,
    Option.pure_def]

theorem ofJson?_toJson {n : Node} (h : ∀ x ∈ n.floats, x.isFinite = true) :
    ofJson? n.toJson = some n := by
  obtain ⟨id, kind, name, value⟩ := n
  have hid : Json.required? Json.uint32? (some (.integer id.toNat)) = some id := by
    rw [Json.required?_some, Json.uint32?_toNat]
  have hkind : Json.required? NodeRole.ofJson? (some (.string kind.name)) = some kind :=
    ofName?_name kind
  cases value with
  | none => exact ofJson?_of_fields rfl hid hkind rfl rfl
  | some v =>
    have hvalue : Json.nullable? Value.ofJson? v.toJson = some (some v) :=
      congrArg (Option.map some) (Value.ofJson?_toJson h)
    exact ofJson?_of_fields rfl hid hkind rfl hvalue

end Node

theorem Edge.ofJson?_of_fields {v : Json} {parent child : Option Json} {e : Edge}
    (hfields : v.fields? ["parent", "child"] = some [parent, child])
    (hparent : Json.required? Json.uint32? parent = some e.parent)
    (hchild : Json.required? Json.uint32? child = some e.child) : ofJson? v = some e := by
  simp only [ofJson?, hfields, hparent, hchild, Option.bind_eq_bind, Option.bind_some,
    Option.pure_def]

theorem Edge.ofJson?_toJson (e : Edge) : ofJson? e.toJson = some e := by
  refine Edge.ofJson?_of_fields rfl ?_ ?_
  · rw [Json.required?_some, Json.uint32?_toNat]
  · rw [Json.required?_some, Json.uint32?_toNat]

/-! ## Graphs -/

/-- The floats of a graph. -/
def floats (g : Graph) : List Float := g.nodes.toList.flatMap Node.floats

/-- A graph with finite floats is read back from its serialised form, but for its next number. -/
theorem ofJson?_toJson {g : Graph} (h : ∀ x ∈ g.floats, x.isFinite = true) :
    ofJson? g.toJson = some { g with cursor := none } := by
  have hfields : g.toJson.fields? ["nodes", "edges"] =
      some [some (.array (g.nodes.toList.map Node.toJson)),
        some (.array (g.edges.toList.map Edge.toJson))] := rfl
  have hnodes : Json.items? Node.ofJson? (.array (g.nodes.toList.map Node.toJson)) =
      some g.nodes.toList := Json.items?_map fun n hn =>
    Node.ofJson?_toJson fun x hx => h x (List.mem_flatMap.mpr ⟨n, hn, hx⟩)
  have hedges : Json.items? Edge.ofJson? (.array (g.edges.toList.map Edge.toJson)) =
      some g.edges.toList := Json.items?_map fun e _ => e.ofJson?_toJson
  simp only [ofJson?, hfields, Json.optional?_some, hnodes, hedges, Option.bind_eq_bind,
    Option.bind_some, Option.pure_def, Array.toArray_toList]

/-! ## Texts -/

section Exact

theorem isExact_coordinate {c : Coordinate} (h : ∀ x ∈ c.floats, (Json.float x).IsExact) :
    c.toJson.IsExact :=
  ⟨Json.isExact_ofFloat (h c.lat (by simp [Coordinate.floats])),
    Json.isExact_ofFloat (h c.lon (by simp [Coordinate.floats])), trivial⟩

theorem isExact_box {b : Box} (h : ∀ x ∈ b.floats, (Json.float x).IsExact) :
    b.toJson.IsExact := by
  obtain ⟨hupper, hlower⟩ := List.forall_mem_append.mp h
  exact ⟨isExact_coordinate hupper, isExact_coordinate hlower, trivial⟩

theorem isExact_timestamp {s : Timestamp} (h : (Json.float s.second).IsExact) :
    s.toJson.IsExact :=
  ⟨Json.isExact_signed (le_trans (by decide) s.year.le_toInt)
      (lt_of_lt_of_le s.year.toInt_lt (by decide)), Json.isExact_uint32 s.month,
    Json.isExact_uint32 s.day, Json.isExact_uint32 s.hour, Json.isExact_uint32 s.minute,
    Json.isExact_ofFloat h, trivial⟩

theorem isExact_content {v : Value} (h : ∀ x ∈ v.floats, (Json.float x).IsExact) :
    v.content.IsExact := by
  cases v with
  | text s => trivial
  | short n =>
    exact Json.isExact_signed (le_trans (by decide) n.le_toInt)
      (lt_of_lt_of_le n.toInt_lt (by decide))
  | ushort n => exact Json.isExact_natCast (n.toNat_lt.le.trans (by decide))
  | int n =>
    exact Json.isExact_signed (le_trans (by decide) n.le_toInt)
      (lt_of_lt_of_le n.toInt_lt (by decide))
  | uint n => exact Json.isExact_uint32 n
  | long n => exact Json.isExact_signed n.le_toInt n.toInt_lt
  | double x => exact Json.isExact_ofFloat (h x List.mem_cons_self)
  | bool b => trivial
  | date s => exact isExact_timestamp (h s.second List.mem_cons_self)
  | rectangle b => exact isExact_box h

theorem isExact_value {v : Value} (h : ∀ x ∈ v.floats, (Json.float x).IsExact) :
    v.toJson.IsExact := ⟨trivial, isExact_content h, trivial⟩

theorem isExact_node {n : Node} (h : ∀ x ∈ n.floats, (Json.float x).IsExact) :
    n.toJson.IsExact := by
  obtain ⟨id, kind, name, value⟩ := n
  cases value with
  | none => exact ⟨Json.isExact_uint32 id, trivial, trivial, trivial⟩
  | some v => exact ⟨Json.isExact_uint32 id, trivial, trivial, isExact_value h, trivial⟩

theorem isExact_edge (e : Edge) : e.toJson.IsExact :=
  ⟨Json.isExact_uint32 e.parent, Json.isExact_uint32 e.child, trivial⟩

theorem isExact_toJson {g : Graph} (h : ∀ x ∈ g.floats, (Json.float x).IsExact) :
    g.toJson.IsExact := by
  have hnodes : ∀ n ∈ g.nodes.toList, n.toJson.IsExact := fun n hn =>
    isExact_node fun x hx => h x (List.mem_flatMap.mpr ⟨n, hn, hx⟩)
  have hedges : ∀ e ∈ g.edges.toList, e.toJson.IsExact := fun e _ => isExact_edge e
  exact ⟨Json.itemsExact_iff.mpr (List.forall_mem_map.mpr hnodes),
    Json.itemsExact_iff.mpr (List.forall_mem_map.mpr hedges), trivial⟩

end Exact

section Depth

theorem limit_coordinate (n : Nat) (c : Coordinate) :
    Json.limit (n + 1) c.toJson = c.toJson := by
  refine Json.limit_object ?_
  simp only [List.forall_mem_cons, Json.limit_ofFloat, true_and]
  exact List.forall_mem_nil _

theorem limit_box (n : Nat) (b : Box) : Json.limit (n + 2) b.toJson = b.toJson := by
  refine Json.limit_object ?_
  simp only [List.forall_mem_cons, limit_coordinate, true_and]
  exact List.forall_mem_nil _

theorem limit_timestamp (n : Nat) (s : Timestamp) : Json.limit (n + 1) s.toJson = s.toJson := by
  refine Json.limit_object ?_
  simp only [List.forall_mem_cons, Json.limit_ofFloat, Json.limit, true_and]
  exact List.forall_mem_nil _

theorem limit_content (n : Nat) (v : Value) : Json.limit (n + 2) v.content = v.content := by
  cases v with
  | double x => exact Json.limit_ofFloat _ x
  | date s => exact limit_timestamp (n + 1) s
  | rectangle b => exact limit_box n b
  | _ => rfl

theorem limit_value (n : Nat) (v : Value) : Json.limit (n + 3) v.toJson = v.toJson := by
  refine Json.limit_object ?_
  simp only [List.forall_mem_cons, Json.limit, limit_content, true_and]
  exact List.forall_mem_nil _

theorem limit_node (k : Nat) (n : Node) : Json.limit (k + 4) n.toJson = n.toJson := by
  obtain ⟨id, kind, name, value⟩ := n
  refine Json.limit_object ?_
  cases value with
  | none =>
    simp only [List.append_nil, List.forall_mem_cons, Json.limit, true_and]
    exact List.forall_mem_nil _
  | some v =>
    simp only [List.cons_append, List.nil_append, List.forall_mem_cons, Json.limit, limit_value,
      true_and]
    exact List.forall_mem_nil _

theorem limit_edge (n : Nat) (e : Edge) : Json.limit (n + 1) e.toJson = e.toJson := by
  refine Json.limit_object ?_
  simp only [List.forall_mem_cons, Json.limit, true_and]
  exact List.forall_mem_nil _

theorem limit_toJson (g : Graph) : Json.limit Json.levels g.toJson = g.toJson := by
  have hnodes : Json.limit 126 (.array (g.nodes.toList.map Node.toJson)) =
      .array (g.nodes.toList.map Node.toJson) :=
    Json.limit_array (List.forall_mem_map.mpr fun n _ => limit_node 121 n)
  have hedges : Json.limit 126 (.array (g.edges.toList.map Edge.toJson)) =
      .array (g.edges.toList.map Edge.toJson) :=
    Json.limit_array (List.forall_mem_map.mpr fun e _ => limit_edge 124 e)
  refine Json.limit_object (n := 126) ?_
  simp only [List.forall_mem_cons, hnodes, hedges, true_and]
  exact List.forall_mem_nil _

end Depth

/-- A graph is read back from its text. -/
theorem read?_write {g : Graph} (hfinite : ∀ x ∈ g.floats, x.isFinite = true)
    (hexact : ∀ x ∈ g.floats, (Json.float x).IsExact) :
    (Json.read? g.toJson.write).bind ofJson? = some { g with cursor := none } := by
  rw [Json.read?_write (isExact_toJson hexact) (limit_toJson g), Option.bind_some,
    ofJson?_toJson hfinite]

end Graph

end Catalogue
