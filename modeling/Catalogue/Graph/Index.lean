import Catalogue.Graph.Error

/-!
# Tables from node numbers

A table is a binary tree over the bits of a number, the highest bit first, with the entries at the
ends of the paths.

* `get?_update_self`, `get?_update_of_ne` — an update changes the entry of its own number only.
* `measure_le_total` — no entry measures more than all of them together.
-/

namespace Catalogue.Graph

/-- A table from node numbers. -/
inductive Index (α : Type) where
  | empty
  | entry (a : α)
  | fork (zero one : Index α)

namespace Index

variable {α : Type}

/-! ## Paths -/

/-- The bits of a number, the highest first. -/
def path (id : NodeId) : List Bool := (List.range 32).map fun i => id.toNat.testBit (31 - i)

theorem length_path (id : NodeId) : (path id).length = 32 := by simp [path]

theorem path_injective {a b : NodeId} (h : path a = path b) : a = b := by
  apply UInt32.toNat.inj
  apply Nat.eq_of_testBit_eq
  intro i
  by_cases hi : i < 32
  · have hbit := congrArg (fun l : List Bool => l[31 - i]?) h
    have hback : 31 - (31 - i) = i := by omega
    have hlt : 31 - i < 32 := by omega
    simpa [path, hback, hlt] using hbit
  · have hpow : 2 ^ 32 ≤ 2 ^ i := Nat.pow_le_pow_right (by omega) (by omega)
    rw [Nat.testBit_lt_two_pow (Nat.lt_of_lt_of_le a.toNat_lt hpow),
      Nat.testBit_lt_two_pow (Nat.lt_of_lt_of_le b.toNat_lt hpow)]

/-- The entry at the end of a path. -/
def follow? : Index α → List Bool → Option α
  | .entry a, [] => some a
  | .fork zero one, b :: bs => if b then one.follow? bs else zero.follow? bs
  | _, _ => none

/-- The two sides of a table. -/
def sides : Index α → Index α × Index α
  | .fork zero one => (zero, one)
  | _ => (.empty, .empty)

/-- Changes the entry at the end of a path, or puts one there. -/
def graft (t : Index α) (f : Option α → α) : List Bool → Index α
  | [] => .entry (f (t.follow? []))
  | b :: bs =>
    if b then .fork t.sides.1 (t.sides.2.graft f bs) else .fork (t.sides.1.graft f bs) t.sides.2

theorem follow?_empty (bs : List Bool) : (empty : Index α).follow? bs = none := by
  simp [follow?]

theorem follow?_cons (t : Index α) (b : Bool) (bs : List Bool) :
    t.follow? (b :: bs) = if b then t.sides.2.follow? bs else t.sides.1.follow? bs := by
  cases t <;> simp [follow?, sides]

theorem follow?_graft_self (t : Index α) (f : Option α → α) (bs : List Bool) :
    (t.graft f bs).follow? bs = some (f (t.follow? bs)) := by
  induction bs generalizing t with
  | nil => simp [graft, follow?]
  | cons b bs ih =>
    rw [follow?_cons t]
    cases b <;> simp [graft, follow?, ih]

theorem follow?_graft_of_ne (t : Index α) (f : Option α → α) {bs cs : List Bool}
    (hlen : bs.length = cs.length) (hne : bs ≠ cs) : (t.graft f bs).follow? cs = t.follow? cs := by
  induction bs generalizing t cs with
  | nil => exact absurd (List.length_eq_zero_iff.mp hlen.symm).symm hne
  | cons b bs ih =>
    cases cs with
    | nil => simp at hlen
    | cons c cs =>
      have hlen' : bs.length = cs.length := by simpa using hlen
      rw [follow?_cons t]
      cases b <;> cases c <;> simp [graft, follow?]
      · exact ih _ hlen' (by simpa using hne)
      · exact ih _ hlen' (by simpa using hne)

/-! ## Entries -/

/-- The entry of a number. -/
def get? (t : Index α) (id : NodeId) : Option α := t.follow? (path id)

/-- Changes the entry of a number, or gives it one. -/
def update (t : Index α) (id : NodeId) (f : Option α → α) : Index α := t.graft f (path id)

theorem get?_empty (id : NodeId) : (empty : Index α).get? id = none := follow?_empty _

theorem get?_update_self (t : Index α) (id : NodeId) (f : Option α → α) :
    (t.update id f).get? id = some (f (t.get? id)) := follow?_graft_self t f _

theorem get?_update_of_ne (t : Index α) {id other : NodeId} (f : Option α → α) (h : id ≠ other) :
    (t.update id f).get? other = t.get? other :=
  follow?_graft_of_ne t f (by simp [length_path]) fun hp => h (path_injective hp)

/-! ## Measures -/

/-- What all entries measure together. -/
def total (measure : α → Nat) : Index α → Nat
  | .empty => 0
  | .entry a => measure a
  | .fork zero one => zero.total measure + one.total measure

theorem measure_le_total (measure : α → Nat) (t : Index α) {bs : List Bool} {a : α}
    (h : t.follow? bs = some a) : measure a ≤ t.total measure := by
  induction t generalizing bs with
  | empty => simp [follow?_empty] at h
  | entry b =>
    cases bs with
    | nil => simp_all [follow?, total]
    | cons c cs => simp [follow?] at h
  | fork zero one ihz iho =>
    cases bs with
    | nil => simp [follow?] at h
    | cons c cs =>
      rw [total]
      cases c
      · have hzero : zero.follow? cs = some a := by simpa [follow?] using h
        have := ihz hzero
        omega
      · have hone : one.follow? cs = some a := by simpa [follow?] using h
        have := iho hone
        omega

end Index

end Catalogue.Graph
