import Catalogue.Schema.Attribute

/-!
# Breadth-first search along relationships

The entities that relationships lead to from a root, the nearest first. Entities at the same
distance come in the order in which they are found, and each comes once, also where relationships
form a cycle.

## Termination

What is found for the first time is pending once. So every round takes one entity out of those that
are pending or not found yet, and these are finitely many.
-/

namespace Catalogue.Schema

/-- A search for the entities that relationships lead to. -/
structure Search where
  /-- The entities found so far, in the order in which they were found. -/
  found : List Entity
  /-- The entities found whose relationships have not been crossed. -/
  pending : List Entity
  /-- The relationships crossed so far. -/
  crossed : List Relationship
  deriving DecidableEq, Repr

namespace Search

/-- The search that has found its root. -/
def start (root : Entity) : Search := ⟨[root], [root], []⟩

/-- Crosses a relationship; what it leads to is found unless it was found before. -/
def cross (s : Search) (r : Relationship) : Search :=
  let s := { s with crossed := s.crossed ++ [r] }
  if r.child ∈ s.found then s
  else { s with found := s.found ++ [r.child], pending := s.pending ++ [r.child] }

/-- Crosses the relationships of the first pending entity, in the order of declaration. -/
def round (rels : List Relationship) (s : Search) : Search :=
  match s.pending with
  | [] => s
  | e :: rest => (rels.filter (fun r => r.parent == e)).foldl cross { s with pending := rest }

/-! ## The measure of a search -/

theorem countP_lt {α : Type} {p q : α → Bool} {l : List α} (h : ∀ a, p a = true → q a = true)
    {a : α} (ha : a ∈ l) (hq : q a = true) (hp : p a = false) : l.countP p < l.countP q := by
  induction l with
  | nil => simp at ha
  | cons b rest ih =>
    have hle : rest.countP p ≤ rest.countP q := List.countP_mono_left (fun x _ => h x)
    rw [List.countP_cons, List.countP_cons]
    rcases List.mem_cons.1 ha with rfl | hr
    · simp [hq, hp]; omega
    · have := ih hr
      by_cases hb : p b = true
      · simp [hb, h b hb]; omega
      · simp [hb]; split <;> omega

/-- How many entities are not found yet. -/
def missing (found : List Entity) : Nat := Entity.all.countP (fun e => e ∉ found)

theorem missing_lt {found : List Entity} {e : Entity} (h : e ∉ found) :
    missing (found ++ [e]) < missing found := by
  refine countP_lt (a := e) ?_ (Entity.mem_all e) (by simpa using h) (by simp)
  intro a
  simp only [List.mem_append, List.mem_singleton, decide_eq_true_eq, not_or]
  exact fun h => h.1

/-- How many rounds a search may still have. -/
def size (s : Search) : Nat := missing s.found + s.pending.length

theorem size_cross_le (s : Search) (r : Relationship) : (s.cross r).size ≤ s.size := by
  unfold cross size
  by_cases h : r.child ∈ s.found
  · simp [h]
  · have := missing_lt h
    simp only [h, if_false, List.length_append, List.length_singleton]
    omega

theorem size_foldl_cross_le (s : Search) (rs : List Relationship) :
    (rs.foldl cross s).size ≤ s.size := by
  induction rs generalizing s with
  | nil => exact Nat.le_refl _
  | cons r rest ih => exact Nat.le_trans (ih _) (size_cross_le s r)

theorem size_round_lt {s : Search} (rels : List Relationship) (h : s.pending ≠ []) :
    (s.round rels).size < s.size := by
  obtain ⟨found, pending, crossed⟩ := s
  cases pending with
  | nil => exact absurd rfl h
  | cons e rest =>
    exact Nat.lt_of_le_of_lt (size_foldl_cross_le _ _) (Nat.lt_succ_self _)

/-- Goes on until nothing is pending. -/
def run (rels : List Relationship) (s : Search) : Search :=
  if s.pending = [] then s else run rels (s.round rels)
termination_by s.size
decreasing_by exact size_round_lt rels (by assumption)

end Search

end Catalogue.Schema
