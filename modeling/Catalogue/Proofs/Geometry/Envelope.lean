import Catalogue.Geometry.Wkt
import Catalogue.Proofs.Number.Order

/-!
# Boxes around geometries

The box around the positions of a geometry has its corners in order, and the box around the
geometry of such a box is that box again. This needs numbers that are equal when neither is less:
no ordinate may be undefined or the negative zero.

* `Box.Proper` — a box with its corners in order; `proper_envelope`.
* `Box.envelope_toGeometry` — the geometry of a box has that box around it.
-/

namespace Catalogue.Geometry

open Catalogue.Number

/-! ## The lesser and the greater number -/

/-- A number that is neither undefined nor the negative zero. -/
def Plain (x : Float) : Prop := x.isNaN = false ∧ x ≠ -0.0

section Plain

variable {a b c : Float}

theorem lesser_eq_or (a b : Float) : lesser a b = a ∨ lesser a b = b := by
  unfold lesser
  split
  · exact .inl rfl
  · exact .inr rfl

theorem greater_eq_or (a b : Float) : greater a b = a ∨ greater a b = b := by
  unfold greater
  split
  · exact .inl rfl
  · exact .inr rfl

@[simp] theorem lesser_self (a : Float) : lesser a a = a := (lesser_eq_or a a).elim id id

@[simp] theorem greater_self (a : Float) : greater a a = a := (greater_eq_or a a).elim id id

theorem lesser_of_plain (hb : Plain b) (a : Float) : lesser a b = if a < b then a else b := by
  simp only [lesser, hb.1, Bool.or_false, decide_eq_true_eq]

theorem greater_of_plain (hb : Plain b) (a : Float) : greater a b = if b < a then a else b := by
  simp only [greater, hb.1, Bool.or_false, decide_eq_true_eq]

theorem Plain.eq_of_not_lt (ha : Plain a) (hb : Plain b) (hlt : ¬ a < b) (hgt : ¬ b < a) : a = b :=
  Number.eq_of_not_lt ha.1 hb.1 ha.2 hb.2 hlt hgt

theorem lesser_eq_left (ha : Plain a) (hb : Plain b) (h : ¬ b < a) : lesser a b = a := by
  rw [lesser_of_plain hb]
  split
  · rfl
  · next hlt => exact (ha.eq_of_not_lt hb hlt h).symm

theorem lesser_eq_right (hb : Plain b) (h : ¬ a < b) : lesser a b = b := by
  rw [lesser_of_plain hb, if_neg h]

theorem greater_eq_left (ha : Plain a) (hb : Plain b) (h : ¬ a < b) : greater a b = a := by
  rw [greater_of_plain hb]
  split
  · rfl
  · next hgt => exact (ha.eq_of_not_lt hb h hgt).symm

theorem greater_eq_right (hb : Plain b) (h : ¬ b < a) : greater a b = b := by
  rw [greater_of_plain hb, if_neg h]

/-- Widening two numbers in order by a third keeps them in order. -/
theorem not_greater_lt_lesser (hc : Plain c) (h : ¬ b < a) : ¬ greater b c < lesser a c := by
  rw [greater_of_plain hc, lesser_of_plain hc]
  by_cases hb : c < b <;> by_cases ha : a < c <;> simp only [hb, ha, if_true, if_false]
  · exact h
  · exact lt_asymm hb
  · exact lt_asymm ha
  · exact lt_irrefl c

end Plain

/-! ## Ordinates -/

/-- Both ordinates have a property. -/
def Coordinate.All (P : Float → Prop) (c : Coordinate) : Prop := P c.lat ∧ P c.lon

instance {P : Float → Prop} [DecidablePred P] : DecidablePred (Coordinate.All P) := fun c =>
  inferInstanceAs (Decidable (P c.lat ∧ P c.lon))

/-- All ordinates of both corners have a property. -/
def Box.All (P : Float → Prop) (b : Box) : Prop := b.upperLeft.All P ∧ b.lowerRight.All P

section All

variable {P : Float → Prop} {b : Box} {g : Geometry}

theorem Box.All.include (hb : b.All P) {c : Coordinate} (hc : c.All P) : (b.include c).All P := by
  have hlesser : ∀ {x y : Float}, P x → P y → P (lesser x y) := by
    intro x y hx hy
    rcases lesser_eq_or x y with h | h <;> rw [h] <;> assumption
  have hgreater : ∀ {x y : Float}, P x → P y → P (greater x y) := by
    intro x y hx hy
    rcases greater_eq_or x y with h | h <;> rw [h] <;> assumption
  obtain ⟨⟨hn, hw⟩, hs, he⟩ := hb
  exact ⟨⟨hgreater hn hc.1, hlesser hw hc.2⟩, hlesser hs hc.1, hgreater he hc.2⟩

/-- What is true of a single position and kept by widening is true of the box. -/
theorem envelope_induction {Q : Box → Prop} {R : Coordinate → Prop} (start : ∀ c, R c → Q ⟨c, c⟩)
    (widen : ∀ b c, Q b → R c → Q (b.include c)) (h : ∀ c ∈ g.positions, R c) : Q g.envelope := by
  have hfold : ∀ (cs : List Coordinate) (b : Box), Q b → (∀ c ∈ cs, R c) →
      Q (cs.foldl Box.include b) := by
    intro cs
    induction cs with
    | nil => exact fun b hb _ => hb
    | cons c rest ih =>
      intro b hb hcs
      obtain ⟨hc, hrest⟩ := List.forall_mem_cons.mp hcs
      exact ih _ (widen b c hb hc) hrest
  cases g with
  | point c => exact start c (h c List.mem_cons_self)
  | lineString first rest =>
    obtain ⟨hfirst, hrest⟩ := List.forall_mem_cons.mp h
    exact hfold rest _ (start first hfirst) hrest
  | polygon first rest =>
    obtain ⟨hfirst, hrest⟩ := List.forall_mem_cons.mp h
    exact hfold rest _ (start first hfirst) hrest

/-- The ordinates of the box are ordinates of the positions. -/
theorem all_envelope (h : ∀ c ∈ g.positions, c.All P) : g.envelope.All P :=
  envelope_induction (fun _ hc => ⟨hc, hc⟩) (fun _ _ hb hc => hb.include hc) h

/-- The ordinates of a box are those of the positions of its geometry. -/
theorem all_positions_toGeometry (h : b.All P) : ∀ c ∈ b.toGeometry.positions, c.All P := by
  obtain ⟨⟨hn, hw⟩, hs, he⟩ := h
  rw [Box.toGeometry]
  split
  · simp [positions, Coordinate.All, hn, hw]
  · simp [positions, Box.ring, Coordinate.All, hn, hw, hs, he]

end All

/-! ## Boxes with their corners in order -/

/-- A box whose upper left corner is not below or right of the lower right one. -/
structure Box.Proper (b : Box) : Prop where
  plain : b.All Plain
  lat_not_lt : ¬ b.upperLeft.lat < b.lowerRight.lat
  lon_not_lt : ¬ b.lowerRight.lon < b.upperLeft.lon

theorem Box.Proper.include {b : Box} (h : b.Proper) {c : Coordinate} (hc : c.All Plain) :
    (b.include c).Proper where
  plain := h.plain.include hc
  lat_not_lt := not_greater_lt_lesser hc.1 h.lat_not_lt
  lon_not_lt := not_greater_lt_lesser hc.2 h.lon_not_lt

/-- The box around plain positions has its corners in order. -/
theorem proper_envelope {g : Geometry} (h : ∀ c ∈ g.positions, c.All Plain) :
    g.envelope.Proper :=
  envelope_induction (fun _ hc => ⟨⟨hc, hc⟩, lt_irrefl _, lt_irrefl _⟩)
    (fun _ _ hb hc => hb.include hc) h

/-- The geometry of a box has that box around it. -/
theorem Box.envelope_toGeometry {b : Box} (h : b.Proper) : b.toGeometry.envelope = b := by
  obtain ⟨⟨⟨hn, hw⟩, hs, he⟩, hlat, hlon⟩ := h
  obtain ⟨⟨n, w⟩, ⟨s, e⟩⟩ := b
  dsimp only at hn hw hs he hlat hlon
  rw [toGeometry]
  split
  · next hpoint =>
    rw [isPoint, Coordinate.same, Bool.and_eq_true] at hpoint
    obtain rfl : n = s := eq_of_beq hpoint.1 hn.2 hs.2
    obtain rfl : w = e := eq_of_beq hpoint.2 hw.2 he.2
    rfl
  -- from the upper left corner on, the ring reaches each side once and then stays inside
  · simp [ring, envelope, Box.include, greater_eq_left hn hs hlat, lesser_eq_right hs hlat,
      lesser_eq_left hw he hlon, greater_eq_right he hlon, lesser_eq_left hs hn hlat,
      greater_eq_left he hw hlon]

end Catalogue.Geometry
