/-!
# Tables with sorted keys

A table has values under keys. The keys are kept sorted, whatever the order in which they come, and
each has one value.

* `get?_set_self`, `get?_set_of_ne` — what was set is what is found, and nothing else changes.
-/

namespace Catalogue.Schema

/-- Values under sorted keys. -/
abbrev Table (κ α : Type) := List (κ × α)

namespace Table

variable {κ α : Type} [DecidableEq κ] [LT κ] [DecidableLT κ]

/-- The keys, in order. -/
def keys (t : Table κ α) : List κ := t.map Prod.fst

def get? (t : Table κ α) (key : κ) : Option α :=
  match t with
  | [] => none
  | (k, a) :: rest => if k = key then some a else get? rest key

/-- Puts a value under a key, in place of the value that was there. -/
def set (t : Table κ α) (key : κ) (value : α) : Table κ α :=
  match t with
  | [] => [(key, value)]
  | (k, a) :: rest =>
    if k = key then (key, value) :: rest
    else if key < k then (key, value) :: (k, a) :: rest
    else (k, a) :: set rest key value

/-- The table of some values, put under their keys one after the other. -/
def ofList (l : List (κ × α)) : Table κ α := l.foldl (fun t m => t.set m.1 m.2) []

theorem get?_set_self (t : Table κ α) (key : κ) (value : α) :
    (t.set key value).get? key = some value := by
  induction t with
  | nil => simp [set, get?]
  | cons m rest ih =>
    rw [set]
    split
    · simp [get?]
    · split
      · simp [get?]
      · next h _ => simp [get?, h, ih]

theorem get?_set_of_ne (t : Table κ α) {key other : κ} (value : α) (h : key ≠ other) :
    (t.set key value).get? other = t.get? other := by
  induction t with
  | nil => simp [set, get?, h]
  | cons m rest ih =>
    rw [set]
    split
    · next hk => simp_all [get?]
    · split
      · simp [get?, h]
      · simp [get?, ih]

end Table

end Catalogue.Schema
