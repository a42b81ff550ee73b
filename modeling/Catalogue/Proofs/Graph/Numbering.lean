import Catalogue.Graph.Basic
import Catalogue.Proofs.Lists.Distinct
import Mathlib.Algebra.Group.Nat.Defs

/-!
# The numbers of added nodes

Nodes added one after another get the numbers after the greatest one in use. When these run out,
the least number not in use is looked up once, and the numbers after it follow without a further
look. So the numbers are unused as long as the row that starts at the least unused number is.

* `Graph.numbers_addAll` — the numbers that a graph without a kept number hands out, in order.
* `RoomFor` — how many nodes can be added before a number is used twice.
* `fresh_iff_roomFor` — every node gets an unused number exactly when there is room.
-/

namespace Catalogue.Graph

open Catalogue.Lists

/-! ## Additions -/

/-- A node to add under a parent. -/
inductive Addition where
  | entity (parent : NodeId) (name : String)
  | record (parent : NodeId) (name : String)
  | leaf (parent : NodeId) (name : String) (value : Value)

/-- The graph with the node, and the number the node got. -/
def Addition.apply (g : Graph) : Addition → Graph × NodeId
  | entity parent name => g.addEntity parent name
  | record parent name => g.addRecord parent name
  | leaf parent name value => g.addLeaf parent name value

/-- The numbers of the nodes, in order. -/
def numbers (g : Graph) : List Nat := g.nodes.toList.map fun n => n.id.toNat

/-- The graph after some additions. -/
def addAll (g : Graph) (adds : List Addition) : Graph := adds.foldl (fun g a => (a.apply g).1) g

/-- Every addition gets a number that no node has before it. -/
def Fresh : Graph → List Addition → Prop
  | _, [] => True
  | g, a :: rest => (a.apply g).2.toNat ∉ numbers g ∧ Fresh (a.apply g).1 rest

/-- The number to be kept after a number was given to the node that made the count. -/
def cursorAfter (id : NodeId) (count : Nat) : Option (NodeId × Nat) :=
  if id.toNat < lastId then some (id + 1, count) else none

theorem snd_apply (g : Graph) (a : Addition) : (a.apply g).2 = g.nextId := by
  cases a <;> rfl

theorem cursor_apply (g : Graph) (a : Addition) :
    (a.apply g).1.cursor = cursorAfter g.nextId (g.nodes.size + 1) := by
  cases a <;> rfl

theorem size_apply (g : Graph) (a : Addition) : (a.apply g).1.nodes.size = g.nodes.size + 1 := by
  cases a <;> exact Array.size_push _

theorem numbers_apply (g : Graph) (a : Addition) :
    numbers (a.apply g).1 = numbers g ++ [g.nextId.toNat] := by
  cases a <;> simp [Addition.apply, addEntity, addRecord, addLeaf, add, push, numbers]

theorem length_numbers (g : Graph) : (numbers g).length = g.nodes.size := by simp [numbers]

theorem lt_of_mem_numbers {g : Graph} {n : Nat} (h : n ∈ numbers g) : n < 2 ^ 32 := by
  obtain ⟨node, -, rfl⟩ := List.mem_map.mp h
  exact node.id.toNat_lt

/-! ## Where the next number comes from -/

/-- The first number above all of a list. -/
def ceiling (used : List Nat) : Nat := (used.max?.map (· + 1)).getD 0

theorem lt_ceiling {used : List Nat} {n : Nat} (h : n ∈ used) : n < ceiling used := by
  cases hmax : used.max? with
  | none =>
    rw [List.max?_eq_none_iff] at hmax
    simp [hmax] at h
  | some greatest =>
    have hle := (List.max?_eq_some_iff.mp hmax).2 n h
    simp only [ceiling, hmax, Option.map_some, Option.getD_some]
    omega

/-- A number is not in a list, and every smaller one is. -/
def IsLeastUnused (used : List Nat) (n : Nat) : Prop := n ∉ used ∧ ∀ m < n, m ∈ used

/-- The least number that is not in a list. -/
def leastUnused (used : List Nat) : Nat :=
  ((List.range (used.length + 1)).find? (fun n => n ∉ used)).getD 0

theorem IsLeastUnused.le_length {used : List Nat} {n : Nat} (h : IsLeastUnused used n) :
    n ≤ used.length := le_length_of_forall_mem h.2

theorem IsLeastUnused.unique {used : List Nat} {m n : Nat} (hm : IsLeastUnused used m)
    (hn : IsLeastUnused used n) : m = n := by
  rcases Nat.lt_trichotomy m n with h | h | h
  · exact absurd (hn.2 m h) hm.1
  · exact h
  · exact absurd (hm.2 n h) hn.1

/-- Among more numbers than a list has, the first one not in the list is the least unused one. -/
theorem exists_find?_range {used : List Nat} {b : Nat} (h : used.length < b) :
    ∃ n, (List.range b).find? (fun n => n ∉ used) = some n ∧ IsLeastUnused used n := by
  cases hf : (List.range b).find? (fun n => n ∉ used) with
  | none =>
    have hall : ∀ n < b, n ∈ used := by simpa using hf
    have := le_length_of_forall_mem hall
    omega
  | some n =>
    obtain ⟨hn, -, hless⟩ := List.find?_range_eq_some.mp hf
    exact ⟨n, rfl, by simpa using hn, fun m hm => by simpa using hless m hm⟩

theorem isLeastUnused_leastUnused (used : List Nat) : IsLeastUnused used (leastUnused used) := by
  obtain ⟨n, hf, hn⟩ := exists_find?_range (Nat.lt_succ_self used.length)
  rw [leastUnused, hf]
  exact hn

/-- The number after the greatest one, while there is one. -/
theorem toNat_nextId_of_lt {g : Graph} (hc : g.cursor = none)
    (h : ceiling (numbers g) < 2 ^ 32) : g.nextId.toNat = ceiling (numbers g) := by
  have hnext : g.nextId = freeId g.nodes.toList := by rw [nextId, hc]
  rw [hnext, freeId, ← numbers]
  rw [ceiling] at h ⊢
  cases hmax : (numbers g).max? with
  | none => rfl
  | some greatest =>
    rw [hmax] at h
    have hlt : greatest + 1 < 2 ^ 32 := h
    show (if greatest < lastId then _ else _ : NodeId).toNat = greatest + 1
    rw [if_pos (by unfold lastId; omega), UInt32.toNat_ofNat_of_lt' hlt]

/-- The least number not in use, when the greatest number there is has been given away. -/
theorem toNat_nextId_of_le {g : Graph} (hc : g.cursor = none)
    (h : 2 ^ 32 ≤ ceiling (numbers g)) (hsize : g.nodes.size + 1 < 2 ^ 32) :
    g.nextId.toNat = leastUnused (numbers g) := by
  have hnext : g.nextId = freeId g.nodes.toList := by rw [nextId, hc]
  rw [hnext, freeId, ← numbers]
  rw [ceiling] at h
  cases hmax : (numbers g).max? with
  | none =>
    rw [hmax] at h
    exact absurd h (by decide)
  | some greatest =>
    rw [hmax] at h
    have hle : 2 ^ 32 ≤ greatest + 1 := h
    show (if greatest < lastId then _ else UInt32.ofNat ((gap? (numbers g)).getD lastId)).toNat = _
    rw [if_neg (by unfold lastId; omega)]
    have hlen : (numbers g).length < min ((numbers g).length + 1) lastId := by
      rw [length_numbers]
      unfold lastId
      omega
    obtain ⟨n, hf, hn⟩ := exists_find?_range hlen
    have hbound := hn.le_length
    rw [length_numbers] at hbound
    have hlt : n < 2 ^ 32 := by omega
    rw [gap?, hf, Option.getD_some, UInt32.toNat_ofNat_of_lt' hlt]
    exact hn.unique (isLeastUnused_leastUnused _)

/-! ## Rows of numbers -/

/-- A kept number and the ones after it are handed out, as far as numbers go. -/
theorem numbers_addAll_of_cursor : ∀ (adds : List Addition) {g : Graph} {next : NodeId},
    g.cursor = some (next, g.nodes.size) → next.toNat + adds.length ≤ 2 ^ 32 →
    numbers (addAll g adds) = numbers g ++ List.range' next.toNat adds.length ∧
      (next.toNat + adds.length = 2 ^ 32 → (addAll g adds).cursor = none)
  | [], g, next, _, _ => by
    refine ⟨by simp [addAll], fun hfull => ?_⟩
    have := next.toNat_lt
    simp only [List.length_nil] at hfull
    omega
  | a :: rest, g, next, hc, hroom => by
    have hnext : g.nextId = next := by rw [nextId, hc]; exact if_pos rfl
    have hcursor := cursor_apply g a
    have hnumbers := numbers_apply g a
    rw [hnext] at hcursor hnumbers
    rw [List.length_cons] at hroom ⊢
    show numbers (addAll (a.apply g).1 rest) = _ ∧ (_ → (addAll (a.apply g).1 rest).cursor = none)
    by_cases hlast : next.toNat < lastId
    · have hsucc : (next + 1).toNat = next.toNat + 1 := by
        unfold lastId at hlast
        rw [UInt32.toNat_add, UInt32.toNat_one, Nat.mod_eq_of_lt (by omega)]
      rw [cursorAfter, if_pos hlast, ← size_apply g a] at hcursor
      obtain ⟨hrest, hfull⟩ := numbers_addAll_of_cursor rest hcursor (by omega)
      rw [hrest, hnumbers, hsucc, List.append_assoc, List.range'_succ]
      exact ⟨rfl, fun h => hfull (by omega)⟩
    · rw [cursorAfter, if_neg hlast] at hcursor
      have hnil : rest = [] := by
        rw [← List.length_eq_zero_iff]
        unfold lastId at hlast
        omega
      subst hnil
      exact ⟨hnumbers, fun _ => hcursor⟩

/-- An addition goes as if the number it takes had been kept. -/
theorem apply_keeping (g : Graph) (a : Addition) :
    a.apply g = a.apply { g with cursor := some (g.nextId, g.nodes.size) } := by
  have hnext : ({ g with cursor := some (g.nextId, g.nodes.size) } : Graph).nextId = g.nextId :=
    if_pos rfl
  cases a <;> simp only [Addition.apply, addEntity, addRecord, addLeaf, add, push, hnext]

theorem numbers_addAll_of_cursor_none {g : Graph} (hc : g.cursor = none) (adds : List Addition)
    (hroom : g.nextId.toNat + adds.length ≤ 2 ^ 32) :
    numbers (addAll g adds) = numbers g ++ List.range' g.nextId.toNat adds.length ∧
      (g.nextId.toNat + adds.length = 2 ^ 32 → (addAll g adds).cursor = none) := by
  cases adds with
  | nil => exact ⟨by simp [addAll], fun _ => hc⟩
  | cons a rest =>
    have hsame : addAll g (a :: rest) =
        addAll { g with cursor := some (g.nextId, g.nodes.size) } (a :: rest) := by
      rw [addAll, List.foldl_cons, apply_keeping]
      rfl
    rw [hsame]
    exact numbers_addAll_of_cursor (a :: rest) rfl hroom

/-! ## All numbers handed out -/

/-- The numbers for some new nodes: first those above the ones in use, then the row from the least
unused one on. -/
def offered (used : List Nat) (count : Nat) : List Nat :=
  let above := 2 ^ 32 - ceiling used
  List.range' (ceiling used) (min count above) ++
    List.range' (leastUnused used) (count - above)

/-- No number in the row from the least unused one on is in use, as far as the row is needed. -/
def RoomFor (used : List Nat) (count : Nat) : Prop :=
  ∀ i < count - (2 ^ 32 - ceiling used), leastUnused used + i ∉ used

instance (used : List Nat) (count : Nat) : Decidable (RoomFor used count) :=
  inferInstanceAs (Decidable (∀ i < _, _))

theorem ceiling_le {used : List Nat} {b : Nat} (h : ∀ n ∈ used, n < b) : ceiling used ≤ b := by
  cases hmax : used.max? with
  | none => simp [ceiling, hmax]
  | some greatest =>
    have := h greatest (List.max?_mem hmax)
    simp only [ceiling, hmax, Option.map_some, Option.getD_some]
    omega

/-- Distinct numbers are at most as many as the numbers below a bound on them. -/
theorem leastUnused_lt_ceiling {used : List Nat} (h : used.length < ceiling used) :
    leastUnused used < ceiling used :=
  Nat.lt_of_le_of_lt (isLeastUnused_leastUnused used).le_length h

/-- Numbers above all others leave the least unused number as it is. -/
theorem leastUnused_append_range' {used : List Nat} {count : Nat}
    (h : used.length < ceiling used) :
    leastUnused (used ++ List.range' (ceiling used) count) = leastUnused used := by
  obtain ⟨hnot, hless⟩ := isLeastUnused_leastUnused used
  have hlt := leastUnused_lt_ceiling h
  refine (isLeastUnused_leastUnused _).unique ⟨?_, fun m hm => ?_⟩
  · rw [List.mem_append, List.mem_range'_1]
    rintro (hmem | ⟨hle, -⟩)
    · exact hnot hmem
    · omega
  · exact List.mem_append_left _ (hless m hm)

/-- The numbers of a graph without a kept number, after some additions. -/
theorem numbers_addAll {g : Graph} (hc : g.cursor = none) (adds : List Addition)
    (hsize : g.nodes.size + adds.length < 2 ^ 32) :
    numbers (addAll g adds) = numbers g ++ offered (numbers g) adds.length := by
  have hceil : ceiling (numbers g) ≤ 2 ^ 32 := ceiling_le fun n => lt_of_mem_numbers
  by_cases hfit : adds.length ≤ 2 ^ 32 - ceiling (numbers g)
  · rw [offered, Nat.min_eq_left hfit, Nat.sub_eq_zero_of_le hfit, List.range'_zero,
      List.append_nil]
    rcases Nat.lt_or_ge (ceiling (numbers g)) (2 ^ 32) with hlt | hge
    · have hnext := toNat_nextId_of_lt hc hlt
      rw [← hnext]
      exact (numbers_addAll_of_cursor_none hc adds (by omega)).1
    · have hnil : adds = [] := by
        rw [← List.length_eq_zero_iff]
        omega
      simp [hnil, addAll]
  · -- the additions that take the numbers above, and the others
    generalize habove : 2 ^ 32 - ceiling (numbers g) = above at hfit
    have htake : (adds.take above).length = above := by
      rw [List.length_take]
      omega
    have hfirst : numbers (addAll g (adds.take above)) =
        numbers g ++ List.range' (ceiling (numbers g)) above ∧
          (addAll g (adds.take above)).cursor = none := by
      rcases Nat.lt_or_ge (ceiling (numbers g)) (2 ^ 32) with hlt | hge
      · have hnext := toNat_nextId_of_lt hc hlt
        obtain ⟨hnumbers, hcursor⟩ :=
          numbers_addAll_of_cursor_none hc (adds.take above) (by omega)
        rw [hnext, htake] at hnumbers hcursor
        exact ⟨hnumbers, hcursor (by omega)⟩
      · have hzero : above = 0 := by omega
        simpa [hzero, addAll] using hc
    obtain ⟨hnumbers, hcursor⟩ := hfirst
    -- after the first part the number is found in a gap, and the row goes on from there
    have hsplit : addAll g adds = addAll (addAll g (adds.take above)) (adds.drop above) := by
      rw [addAll, addAll, addAll, ← List.foldl_append, List.take_append_drop]
    have hgap : (numbers g).length < ceiling (numbers g) := by
      rw [length_numbers]
      omega
    have hsize' : (addAll g (adds.take above)).nodes.size = g.nodes.size + above := by
      rw [← length_numbers, hnumbers, List.length_append, length_numbers, List.length_range']
    have hfull : 2 ^ 32 ≤ ceiling (numbers (addAll g (adds.take above))) := by
      rw [hnumbers]
      rcases Nat.eq_zero_or_pos above with hzero | hpos
      · rw [hzero, List.range'_zero, List.append_nil]
        omega
      · have hlast : 2 ^ 32 - 1 ∈ numbers g ++ List.range' (ceiling (numbers g)) above := by
          rw [List.mem_append, List.mem_range'_1]
          omega
        have := lt_ceiling hlast
        omega
    have hnext : (addAll g (adds.take above)).nextId.toNat = leastUnused (numbers g) := by
      rw [toNat_nextId_of_le hcursor hfull (by omega), hnumbers, leastUnused_append_range' hgap]
    have hbound := (isLeastUnused_leastUnused (numbers g)).le_length
    rw [length_numbers] at hbound
    have hrest := (numbers_addAll_of_cursor_none hcursor (adds.drop above)
      (by rw [hnext, List.length_drop]; omega)).1
    rw [hsplit, hrest, hnumbers, hnext, List.length_drop, offered, habove,
      Nat.min_eq_right (by omega), List.append_assoc]

/-! ## Distinct numbers -/

/-- Offered numbers are new and distinct exactly when there is room for them. -/
theorem nodup_append_offered {used : List Nat} (hnodup : used.Nodup)
    (hlt : ∀ n ∈ used, n < 2 ^ 32) {count : Nat} (hsize : used.length + count < 2 ^ 32) :
    (used ++ offered used count).Nodup ↔ RoomFor used count := by
  have hceil := ceiling_le hlt
  have hbound := (isLeastUnused_leastUnused used).le_length
  generalize habove : 2 ^ 32 - ceiling used = above
  have hmem : ∀ n, n ∈ offered used count ↔
      (ceiling used ≤ n ∧ n < ceiling used + min count above) ∨
        (leastUnused used ≤ n ∧ n < leastUnused used + (count - above)) := by
    intro n
    rw [offered, habove, List.mem_append, List.mem_range'_1, List.mem_range'_1]
  have hoffered : (offered used count).Nodup := by
    rw [offered, habove, List.nodup_append]
    refine ⟨List.nodup_range', List.nodup_range', fun m hm n hn => ?_⟩
    rw [List.mem_range'_1] at hm hn
    omega
  rw [List.nodup_append, RoomFor, habove]
  constructor
  · rintro ⟨-, -, hdiff⟩ i hi hused
    exact hdiff _ hused _ ((hmem _).mpr (.inr ⟨by omega, by omega⟩)) rfl
  · intro hroom
    refine ⟨hnodup, hoffered, fun m hm n hn heq => ?_⟩
    subst heq
    rcases (hmem m).mp hn with ⟨hle, -⟩ | ⟨hle, hlt'⟩
    · have := lt_ceiling hm
      omega
    · have hrow := hroom (m - leastUnused used) (by omega)
      rw [Nat.add_sub_cancel' hle] at hrow
      exact hrow hm

/-- The numbers in use stay in use. -/
theorem numbers_prefix_addAll (g : Graph) (adds : List Addition) :
    numbers g <+: numbers (addAll g adds) := by
  induction adds generalizing g with
  | nil => exact List.prefix_rfl
  | cons a rest ih =>
    have hfirst : numbers g <+: numbers (a.apply g).1 := by
      rw [numbers_apply]
      exact List.prefix_append _ _
    exact hfirst.trans (ih (a.apply g).1)

/-- The numbers stay distinct with a node that gets an unused number, and only then. -/
theorem nodup_numbers_apply {g : Graph} (hids : (numbers g).Nodup) (a : Addition) :
    (numbers (a.apply g).1).Nodup ↔ (a.apply g).2.toNat ∉ numbers g := by
  rw [numbers_apply, snd_apply, List.nodup_append]
  constructor
  · rintro ⟨-, -, hdiff⟩ hmem
    exact hdiff _ hmem _ (List.mem_singleton_self _) rfl
  · intro hnot
    refine ⟨hids, by simp, fun m hm n hn heq => hnot ?_⟩
    rw [← List.mem_singleton.mp hn, ← heq]
    exact hm

/-- Every addition gets an unused number exactly when all numbers are distinct in the end. -/
theorem fresh_iff_nodup {g : Graph} (hids : (numbers g).Nodup) (adds : List Addition) :
    Fresh g adds ↔ (numbers (addAll g adds)).Nodup := by
  induction adds generalizing g with
  | nil => exact ⟨fun _ => hids, fun _ => trivial⟩
  | cons a rest ih =>
    constructor
    · rintro ⟨hnew, hrest⟩
      exact (ih ((nodup_numbers_apply hids a).mpr hnew)).mp hrest
    · intro hall
      have hone := hall.sublist (numbers_prefix_addAll (a.apply g).1 rest).sublist
      exact ⟨(nodup_numbers_apply hids a).mp hone, (ih hone).mpr hall⟩

/-- A graph that was read keeps no number. -/
theorem cursor_of_ofJson? {v : Json} {g : Graph} (h : Graph.ofJson? v = some g) :
    g.cursor = none := by
  simp only [Graph.ofJson?, bind, Option.bind_eq_some_iff] at h
  obtain ⟨fields, -, h⟩ := h
  split at h
  · simp only [Option.bind_eq_some_iff] at h
    obtain ⟨nodes, -, edges, -, h⟩ := h
    cases h
    rfl
  · cases h

/-- Additions to a graph that was read get unused numbers exactly when there is room for them. -/
theorem fresh_iff_roomFor {v : Json} {g : Graph} (hread : Graph.ofJson? v = some g)
    (hids : (numbers g).Nodup) (adds : List Addition)
    (hsize : g.nodes.size + adds.length < 2 ^ 32) :
    numbers (addAll g adds) = numbers g ++ offered (numbers g) adds.length ∧
      (Fresh g adds ↔ RoomFor (numbers g) adds.length) ∧
      ((∀ made, made <+: adds → (numbers (addAll g made)).Nodup) ↔
        RoomFor (numbers g) adds.length) := by
  have hnumbers := numbers_addAll (cursor_of_ofJson? hread) adds hsize
  have hall : (numbers (addAll g adds)).Nodup ↔ RoomFor (numbers g) adds.length := by
    rw [hnumbers]
    exact nodup_append_offered hids (fun n => lt_of_mem_numbers) (by rwa [length_numbers])
  refine ⟨hnumbers, (fresh_iff_nodup hids adds).trans hall, fun hmade => ?_, fun hroom => ?_⟩
  · exact hall.mp (hmade adds List.prefix_rfl)
  · rintro made ⟨rest, rfl⟩
    have hend := hall.mpr hroom
    rw [addAll, List.foldl_append] at hend
    exact hend.sublist (numbers_prefix_addAll (addAll g made) rest).sublist

/-- The form of a graph that is a root and two entities. -/
def threeNodes (root first second : Int) : Json :=
  .object [("nodes", .array [
    .object [("id", .integer root), ("kind", .string "root"), ("name", .string "r")],
    .object [("id", .integer first), ("kind", .string "entity"), ("name", .string "card")],
    .object [("id", .integer second), ("kind", .string "entity"), ("name", .string "file")]])]

theorem fresh_after_row : ∃ g, Graph.ofJson? (threeNodes 0 1 4294967295) = some g ∧
    (numbers g).Nodup ∧ g.nodes.size + 2 < 2 ^ 32 ∧
    Fresh g [.entity 0 "common", .record 0 "part"] := by
  refine ⟨_, rfl, by decide, by decide, ?_⟩
  exact (fresh_iff_roomFor (v := threeNodes 0 1 4294967295) rfl (by decide)
    [.entity 0 "common", .record 0 "part"] (by decide)).2.1.mpr (by decide)

/-- A number after the least unused one may be in use. -/
theorem not_fresh_before_used : ∃ g, Graph.ofJson? (threeNodes 0 2 4294967295) = some g ∧
    (numbers g).Nodup ∧ g.nodes.size + 2 < 2 ^ 32 ∧
    ¬ Fresh g [.entity 0 "common", .entity 0 "part"] ∧
    ¬ (numbers (addAll g [.entity 0 "common", .entity 0 "part"])).Nodup := by
  refine ⟨_, rfl, by decide, by decide, ?_, by decide⟩
  rintro ⟨-, hused, -⟩
  exact hused (by decide)

end Catalogue.Graph
