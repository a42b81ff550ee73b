import Catalogue.Proofs.Geometry.Finite

/-!
# The least box around a geometry

The box around a geometry that is read from a text holds all its positions, and each side of the box
passes through one of them, so no smaller box does. Numbers are compared as numbers: the two zeros
are equal.

* `Box.Holds`, `Box.Bounds` — a box that holds a position, and the least one that holds some.
* `Box.Bounds.include`, `bounds_envelope` — a widened box bounds one position more; the box around a
  geometry bounds its positions.
* `Box.Bounds.same` — there is one least box.
* `envelope_bounds` — the box around a geometry that is read, and around the geometry of that box.
-/

namespace Catalogue.Geometry

open Catalogue.Number

/-! ## The lesser and the greater number -/

section Numbers

variable {a b : Float}

theorem lesser_le (ha : a.isNaN = false) (hb : b.isNaN = false) :
    lesser a b ≤ a ∧ lesser a b ≤ b := by
  unfold lesser
  by_cases h : a < b
  · rw [if_pos (by simp [h])]
    exact ⟨Number.le_refl ha, Number.le_of_lt h⟩
  · rw [hb, if_neg (by simp [h])]
    exact ⟨Number.le_of_not_lt hb ha h, Number.le_refl hb⟩

theorem le_greater (ha : a.isNaN = false) (hb : b.isNaN = false) :
    a ≤ greater a b ∧ b ≤ greater a b := by
  unfold greater
  by_cases h : b < a
  · rw [if_pos (by simp [h])]
    exact ⟨Number.le_refl ha, Number.le_of_lt h⟩
  · rw [hb, if_neg (by simp [h])]
    exact ⟨Number.le_of_not_lt ha hb h, Number.le_refl hb⟩

end Numbers

/-! ## Boxes that hold positions -/

/-- The position lies in the box, perhaps on a side of it. -/
structure Box.Holds (b : Box) (c : Coordinate) : Prop where
  lat_le : c.lat ≤ b.upperLeft.lat
  le_lat : b.lowerRight.lat ≤ c.lat
  le_lon : b.upperLeft.lon ≤ c.lon
  lon_le : c.lon ≤ b.lowerRight.lon

/-- The box holds every position, and each of its sides passes through one. -/
structure Box.Bounds (b : Box) (cs : List Coordinate) : Prop where
  holds : ∀ c ∈ cs, b.Holds c
  north : ∃ c ∈ cs, c.lat = b.upperLeft.lat
  south : ∃ c ∈ cs, c.lat = b.lowerRight.lat
  west : ∃ c ∈ cs, c.lon = b.upperLeft.lon
  east : ∃ c ∈ cs, c.lon = b.lowerRight.lon

namespace Box

variable {b b' : Box} {c : Coordinate} {cs : List Coordinate}

/-- The box widened by a position holds it and what the box held before. -/
theorem holds_include (hb : b.Finite) (hc : c.Finite) :
    (b.include c).Holds c ∧ ∀ d, b.Holds d → (b.include c).Holds d := by
  obtain ⟨hlat, hlon⟩ := hc
  obtain ⟨⟨hn, hw⟩, hs, he⟩ := hb
  have hnorth := le_greater (isNaN_of_isFinite hn) (isNaN_of_isFinite hlat)
  have hsouth := lesser_le (isNaN_of_isFinite hs) (isNaN_of_isFinite hlat)
  have hwest := lesser_le (isNaN_of_isFinite hw) (isNaN_of_isFinite hlon)
  have heast := le_greater (isNaN_of_isFinite he) (isNaN_of_isFinite hlon)
  refine ⟨⟨hnorth.2, hsouth.2, hwest.2, heast.2⟩, fun d hd => ⟨?_, ?_, ?_, ?_⟩⟩
  · exact Number.le_trans hd.lat_le hnorth.1
  · exact Number.le_trans hsouth.1 hd.le_lat
  · exact Number.le_trans hwest.1 hd.le_lon
  · exact Number.le_trans hd.lon_le heast.1

/-- The ordinates of the least box are ordinates of the positions. -/
theorem Bounds.all {P : Float → Prop} (h : b.Bounds cs) (hcs : ∀ c ∈ cs, c.All P) : b.All P := by
  obtain ⟨n, hn, hnorth⟩ := h.north
  obtain ⟨s, hs, hsouth⟩ := h.south
  obtain ⟨w, hw, hwest⟩ := h.west
  obtain ⟨e, he, heast⟩ := h.east
  exact ⟨⟨hnorth ▸ (hcs n hn).1, hwest ▸ (hcs w hw).2⟩, hsouth ▸ (hcs s hs).1, heast ▸ (hcs e he).2⟩

theorem Bounds.singleton (hc : c.Finite) : Bounds ⟨c, c⟩ [c] := by
  have hlat := Number.le_refl (isNaN_of_isFinite hc.1)
  have hlon := Number.le_refl (isNaN_of_isFinite hc.2)
  refine ⟨?_, ?_, ?_, ?_, ?_⟩
  · exact List.forall_mem_singleton.mpr ⟨hlat, hlat, hlon, hlon⟩
  all_goals exact ⟨c, List.mem_singleton_self c, rfl⟩

/-- An ordinate of one of the positions, or of one more. -/
theorem exists_ordinate_append {f : Coordinate → Float} {x y z : Float} (h : ∃ d ∈ cs, f d = x)
    (hy : f c = y) (hz : z = x ∨ z = y) : ∃ d ∈ cs ++ [c], f d = z := by
  rcases hz with rfl | rfl
  · obtain ⟨d, hd, hfd⟩ := h
    exact ⟨d, List.mem_append_left _ hd, hfd⟩
  · exact ⟨c, List.mem_append_right _ (List.mem_singleton_self c), hy⟩

/-- A box widened by a position bounds one position more. -/
theorem Bounds.include (h : b.Bounds cs) (hcs : ∀ d ∈ cs, d.Finite) (hc : c.Finite) :
    (b.include c).Bounds (cs ++ [c]) := by
  obtain ⟨hin, hkept⟩ := holds_include (h.all hcs) hc
  refine ⟨fun d hd => ?_, ?_, ?_, ?_, ?_⟩
  · rcases List.mem_append.mp hd with hd | hd
    · exact hkept d (h.holds d hd)
    · rwa [List.mem_singleton.mp hd]
  · exact exists_ordinate_append h.north rfl (greater_eq_or _ _)
  · exact exists_ordinate_append h.south rfl (lesser_eq_or _ _)
  · exact exists_ordinate_append h.west rfl (lesser_eq_or _ _)
  · exact exists_ordinate_append h.east rfl (greater_eq_or _ _)

/-- A box widened by positions one after another bounds them all. -/
theorem Bounds.foldl (h : b.Bounds cs) (hcs : ∀ d ∈ cs, d.Finite) {rest : List Coordinate}
    (hrest : ∀ d ∈ rest, d.Finite) : (rest.foldl Box.include b).Bounds (cs ++ rest) := by
  induction rest generalizing b cs with
  | nil => rwa [List.append_nil]
  | cons c rest ih =>
    obtain ⟨hc, hrest⟩ := List.forall_mem_cons.mp hrest
    have hstep := ih (h.include hcs hc)
      (List.forall_mem_append.mpr ⟨hcs, List.forall_mem_singleton.mpr hc⟩) hrest
    rwa [List.append_assoc, List.singleton_append] at hstep

/-- Every box that holds the positions reaches as far as the least one on each side. -/
theorem Bounds.le_of_holds (h : b.Bounds cs) (h' : ∀ c ∈ cs, b'.Holds c) :
    (b.upperLeft.lat ≤ b'.upperLeft.lat ∧ b'.upperLeft.lon ≤ b.upperLeft.lon) ∧
      b'.lowerRight.lat ≤ b.lowerRight.lat ∧ b.lowerRight.lon ≤ b'.lowerRight.lon := by
  obtain ⟨n, hn, hnorth⟩ := h.north
  obtain ⟨s, hs, hsouth⟩ := h.south
  obtain ⟨w, hw, hwest⟩ := h.west
  obtain ⟨e, he, heast⟩ := h.east
  rw [← hnorth, ← hsouth, ← hwest, ← heast]
  exact ⟨⟨(h' n hn).lat_le, (h' w hw).le_lon⟩, (h' s hs).le_lat, (h' e he).lon_le⟩

/-- Positions have one least box. -/
theorem Bounds.same (h : b.Bounds cs) (h' : b'.Bounds cs) : b.same b' = true := by
  obtain ⟨⟨hn, hw⟩, hs, he⟩ := h.le_of_holds h'.holds
  obtain ⟨⟨hn', hw'⟩, hs', he'⟩ := h'.le_of_holds h.holds
  simp only [Box.same, Coordinate.same, Bool.and_eq_true, beq_iff_le_and_le]
  exact ⟨⟨⟨hn, hn'⟩, hw', hw⟩, ⟨hs', hs⟩, he, he'⟩

/-- The corners of the least box are the same when the positions are. -/
theorem Bounds.isPoint_iff (h : b.Bounds cs) :
    b.isPoint = true ↔ ∀ c ∈ cs, ∀ d ∈ cs, c.same d = true := by
  simp only [isPoint, Coordinate.same, Bool.and_eq_true, beq_iff_le_and_le]
  constructor
  · rintro ⟨⟨hns, -⟩, -, hew⟩
    -- between corners that are the same every ordinate is at most every other one
    have hle : ∀ c ∈ cs, ∀ d ∈ cs, c.lat ≤ d.lat ∧ c.lon ≤ d.lon := by
      intro c hc d hd
      have hlat := Number.le_trans (h.holds c hc).lat_le hns
      have hlon := Number.le_trans (h.holds c hc).lon_le hew
      exact ⟨Number.le_trans hlat (h.holds d hd).le_lat, Number.le_trans hlon (h.holds d hd).le_lon⟩
    intro c hc d hd
    exact ⟨⟨(hle c hc d hd).1, (hle d hd c hc).1⟩, (hle c hc d hd).2, (hle d hd c hc).2⟩
  · intro hall
    obtain ⟨n, hn, hnorth⟩ := h.north
    obtain ⟨s, hs, hsouth⟩ := h.south
    obtain ⟨w, hw, hwest⟩ := h.west
    obtain ⟨e, he, heast⟩ := h.east
    rw [← hnorth, ← hsouth, ← hwest, ← heast]
    exact ⟨(hall n hn s hs).1, (hall w hw e he).2⟩

/-! ## The geometry of a box -/

/-- The least box around positions is the least one around its own corners. -/
theorem Bounds.ring (h : b.Bounds cs) : b.Bounds b.ring := by
  obtain ⟨n, hn, hnorth⟩ := h.north
  obtain ⟨s, hs, hsouth⟩ := h.south
  obtain ⟨w, hw, hwest⟩ := h.west
  obtain ⟨e, he, heast⟩ := h.east
  have hnn : b.upperLeft.lat ≤ b.upperLeft.lat := hnorth ▸ (h.holds n hn).lat_le
  have hsn : b.lowerRight.lat ≤ b.upperLeft.lat := hnorth ▸ (h.holds n hn).le_lat
  have hss : b.lowerRight.lat ≤ b.lowerRight.lat := hsouth ▸ (h.holds s hs).le_lat
  have hww : b.upperLeft.lon ≤ b.upperLeft.lon := hwest ▸ (h.holds w hw).le_lon
  have hwe : b.upperLeft.lon ≤ b.lowerRight.lon := hwest ▸ (h.holds w hw).lon_le
  have hee : b.lowerRight.lon ≤ b.lowerRight.lon := heast ▸ (h.holds e he).lon_le
  refine ⟨?_, ⟨b.upperLeft, ?_, rfl⟩, ⟨b.lowerRight, ?_, rfl⟩, ⟨b.upperLeft, ?_, rfl⟩,
    ⟨b.lowerRight, ?_, rfl⟩⟩
  · simp only [Box.ring, List.forall_mem_cons]
    exact ⟨⟨hnn, hsn, hww, hwe⟩, ⟨hnn, hsn, hwe, hee⟩, ⟨hsn, hss, hwe, hee⟩, ⟨hsn, hss, hww, hwe⟩,
      ⟨hnn, hsn, hww, hwe⟩, List.forall_mem_nil _⟩
  all_goals simp [Box.ring]

end Box

/-- The box around a geometry bounds its positions. -/
theorem bounds_envelope {g : Geometry} (h : ∀ c ∈ g.positions, c.Finite) :
    g.envelope.Bounds g.positions := by
  have hfold : ∀ first rest, (∀ c ∈ first :: rest, c.Finite) →
      (rest.foldl Box.include ⟨first, first⟩).Bounds (first :: rest) := by
    intro first rest h
    obtain ⟨hfirst, hrest⟩ := List.forall_mem_cons.mp h
    exact (Box.Bounds.singleton hfirst).foldl (List.forall_mem_singleton.mpr hfirst) hrest
  cases g with
  | point c => exact hfold c [] h
  | lineString first rest => exact hfold first rest h
  | polygon first rest => exact hfold first rest h

theorem exists_toGeometry_eq_point_iff {b : Box} :
    (∃ c, b.toGeometry = .point c) ↔ b.isPoint = true := by
  rw [Box.toGeometry]
  split <;> simp_all

/-- The geometry of a least box has the same box around it. -/
theorem Box.Bounds.same_toGeometry {b : Box} {cs : List Coordinate} (h : b.Bounds cs)
    (hcs : ∀ c ∈ cs, c.Finite) : b.toGeometry.envelope.same b = true := by
  have hpositions : ∀ c ∈ b.toGeometry.positions, c.Finite := all_positions_toGeometry (h.all hcs)
  have hbounds := bounds_envelope hpositions
  by_cases hpoint : b.isPoint = true
  · have hself := h.same h
    rw [Box.toGeometry, if_pos hpoint]
    rw [Box.same, Bool.and_eq_true] at hself ⊢
    exact ⟨hself.1, hpoint⟩
  · have hring : b.toGeometry.positions = b.ring := by
      rw [Box.toGeometry, if_neg hpoint]
      rfl
    rw [hring] at hbounds
    exact hbounds.same h.ring

/-! ## Geometries that are read -/

/--
A geometry that is read from a text has a first position, and its box is that position widened by
the others. The box holds every position, and each side of it passes through one. The geometry of
the box has the same box around it; it is a point exactly when all positions are the same.
-/
theorem envelope_bounds {s : String} {g : Geometry} (h : parse s = .ok g) :
    (∃ first, g.positions[0]? = some first ∧
      g.envelope = (g.positions.drop 1).foldl Box.include ⟨first, first⟩) ∧
    g.envelope.Bounds g.positions ∧
    g.envelope.toGeometry.envelope.same g.envelope = true ∧
    ((∃ c, g.envelope.toGeometry = .point c) ↔
      ∀ c ∈ g.positions, ∀ d ∈ g.positions, c.same d = true) := by
  have hfinite := finite_of_parse h
  have hbounds := bounds_envelope hfinite
  refine ⟨?_, hbounds, hbounds.same_toGeometry hfinite, ?_⟩
  · cases g <;> exact ⟨_, rfl, rfl⟩
  · rw [exists_toGeometry_eq_point_iff, hbounds.isPoint_iff]

/-- Zeros of either sign are one position. -/
theorem envelope_bounds_zeros : ∃ g, parse "LINESTRING(0 -0, -0 0 7)" = .ok g ∧
    g.positions = [⟨-0.0, 0.0⟩, ⟨0.0, -0.0⟩] ∧ g.envelope.Bounds g.positions ∧
    ∃ c, g.envelope.toGeometry = .point c := by
  have hread : parse "LINESTRING(0 -0, -0 0 7)" = .ok (.lineString ⟨-0.0, 0.0⟩ [⟨0.0, -0.0⟩]) := by
    decide +kernel
  obtain ⟨-, hbounds, -, hpoint⟩ := envelope_bounds hread
  exact ⟨_, hread, rfl, hbounds, hpoint.mpr (by decide +kernel)⟩

end Catalogue.Geometry
