import Catalogue.Geometry.Shape
import Catalogue.Proofs.Geometry.Reading

/-!
# Shapes read as geometries

A shape is drawn part by part. The text of the finished shape is read as a geometry whose positions
are the coordinates of the shape, and those of the closed ring for a rectangle. A polygon of three
coordinates is finished, too, but its text is not read: a ring has at least four positions there.

* `Part`, `Draft.push` — the parts of a shape and how one is added.
* `coordinates_draw` — a draft has the coordinates among its parts, in their order.
* `Finished` — the text of a finished shape other than an ellipse.
* `parse_finish` — what the text of a finished shape is read as.
-/

namespace Catalogue.Geometry

/-! ## Parts -/

/-- A part of a shape. -/
inductive Part where
  | coordinate (c : Coordinate)
  /-- A radius or the length of an axis in meters. -/
  | distance (meters : Float)
  /-- A bearing in degrees. -/
  | angle (degrees : Float)

/-- The coordinates among the parts, in order. -/
def coordinatesIn : List Part → List Coordinate
  | [] => []
  | .coordinate c :: rest => c :: coordinatesIn rest
  | .distance _ :: rest => coordinatesIn rest
  | .angle _ :: rest => coordinatesIn rest

theorem coordinatesIn_cons (p : Part) (parts : List Part) :
    coordinatesIn (p :: parts) = coordinatesIn [p] ++ coordinatesIn parts := by
  cases p <;> rfl

namespace Draft

/-- Adds one part. -/
def push (d : Draft) (p : Part) : Draft :=
  match p with
  | .coordinate c => d.addCoordinate c
  | .distance meters => d.addDistance meters
  | .angle degrees => d.withAngle degrees

/-- A shape with the given parts, added one after another. -/
def draw (kind : Shape) (vertices : Nat) (parts : List Part) : Draft :=
  parts.foldl push (start kind vertices)

theorem kind_push (d : Draft) (p : Part) : (d.push p).kind = d.kind := by
  cases p <;> rfl

/-- A part adds its coordinate at the end, if it is one. -/
theorem coordinates_push (d : Draft) (p : Part) :
    (d.push p).coordinates = d.coordinates ++ coordinatesIn [p] := by
  cases p with
  | coordinate c => rfl
  | distance meters => exact (List.append_nil _).symm
  | angle degrees => exact (List.append_nil _).symm

theorem kind_foldl_push (parts : List Part) (d : Draft) : (parts.foldl push d).kind = d.kind := by
  induction parts generalizing d with
  | nil => rfl
  | cons p rest ih => rw [List.foldl_cons, ih, kind_push]

theorem coordinates_foldl_push (parts : List Part) (d : Draft) :
    (parts.foldl push d).coordinates = d.coordinates ++ coordinatesIn parts := by
  induction parts generalizing d with
  | nil => exact (List.append_nil _).symm
  | cons p rest ih =>
    rw [List.foldl_cons, ih, coordinates_push, List.append_assoc, ← coordinatesIn_cons]

theorem kind_draw (kind : Shape) (vertices : Nat) (parts : List Part) :
    (draw kind vertices parts).kind = kind :=
  kind_foldl_push parts _

/-- A draft has the coordinates among its parts, in their order. -/
theorem coordinates_draw (kind : Shape) (vertices : Nat) (parts : List Part) :
    (draw kind vertices parts).coordinates = coordinatesIn parts :=
  coordinates_foldl_push parts _

end Draft

/-! ## Finished shapes -/

/-- The kind, the coordinates and the text of a finished shape other than an ellipse. -/
inductive Finished : Shape → List Coordinate → String → Prop
  | point (c : Coordinate) : Finished .point [c] (pointText c)
  | circle (c : Coordinate) : Finished .circle [c] (pointText c)
  | line {cs : List Coordinate} : 2 ≤ cs.length → Finished .line cs (lineText cs)
  | polygon {cs : List Coordinate} : 3 ≤ cs.length → Finished .polygon cs (polygonText cs)
  | rectangle (a b : Coordinate) : Finished .rectangle [a, b] (polygonText (Box.ring ⟨a, b⟩))

theorem finished_of_finish {d : Draft} {r : Region} (hkind : d.kind ≠ .ellipse)
    (h : d.finish = .ok r) : Finished d.kind d.coordinates r.wkt := by
  unfold Draft.finish at h
  split at h
  · next heq =>
    unfold Draft.finishPoint at h
    split at h
    · next c hcoordinates _ =>
      obtain rfl := Except.ok.inj h
      rw [heq, hcoordinates]
      exact .point c
    · cases h
    · cases h
  · next heq =>
    unfold Draft.finishLine at h
    split at h
    · cases h
    · next hlength =>
      obtain rfl := Except.ok.inj h
      rw [heq]
      exact .line (Nat.le_of_not_lt hlength)
  · next heq =>
    unfold Draft.finishPolygon at h
    split at h
    · cases h
    · next hlength =>
      obtain rfl := Except.ok.inj h
      rw [heq]
      exact .polygon (Nat.le_of_not_lt hlength)
  · next heq =>
    unfold Draft.finishRectangle at h
    split at h
    · next a b hcoordinates _ =>
      obtain rfl := Except.ok.inj h
      rw [heq, hcoordinates]
      exact .rectangle a b
    · cases h
    · cases h
  · next heq =>
    unfold Draft.finishCircle at h
    split at h
    · next c radius hcoordinates _ =>
      obtain rfl := Except.ok.inj h
      rw [heq, hcoordinates]
      exact .circle c
    · cases h
    · cases h
  · next heq => exact absurd heq hkind

/-- The positions of a shape with these coordinates: those of the closed ring for a rectangle. -/
def Shape.outline : Shape → List Coordinate → List Coordinate
  | rectangle, [a, b] => Box.ring ⟨a, b⟩
  | _, cs => cs

/-- A polygon of three coordinates. -/
def Shape.IsShort (kind : Shape) (cs : List Coordinate) : Prop :=
  kind = .polygon ∧ cs.length = 3

/-! ## Reading -/

theorem legible_ring {a b : Coordinate} (ha : Legible a) (hb : Legible b) :
    ∀ c ∈ Box.ring ⟨a, b⟩, Legible c := by
  intro c hc
  simp only [Box.ring, List.mem_cons, List.not_mem_nil, or_false] at hc
  rcases hc with rfl | rfl | rfl | rfl | rfl
  · exact ha
  · exact ⟨ha.1, hb.2⟩
  · exact hb
  · exact ⟨hb.1, ha.2⟩
  · exact ha

/-- A text is read as a geometry with the positions. -/
def ReadsPositions (wkt : String) (cs : List Coordinate) : Prop :=
  ∃ g, parse wkt = .ok g ∧ g.positions = cs

theorem readsPositions_text {g : Geometry} (hcomplete : g.Complete)
    (hlegible : ∀ c ∈ g.positions, Legible c) : ReadsPositions g.text g.positions :=
  ⟨g, parse_text hcomplete hlegible, rfl⟩

/-- A finished shape is read, unless it is a polygon of three coordinates. -/
theorem readsPositions_finished {kind : Shape} {cs : List Coordinate} {wkt : String}
    (h : Finished kind cs wkt) (hlegible : ∀ c ∈ cs, Legible c) (hshort : ¬ kind.IsShort cs) :
    ReadsPositions wkt (kind.outline cs) := by
  cases h with
  | point c => exact readsPositions_text (g := .point c) trivial hlegible
  | circle c => exact readsPositions_text (g := .point c) trivial hlegible
  | line hlength =>
    rcases cs with _ | ⟨first, rest⟩
    · simp at hlength
    · exact readsPositions_text (g := .lineString first rest) (Nat.le_of_succ_le_succ hlength)
        hlegible
  | polygon hlength =>
    rcases cs with _ | ⟨first, rest⟩
    · simp at hlength
    · have hcomplete : 3 ≤ rest.length := by
        have hne : rest.length + 1 ≠ 3 := fun heq => hshort ⟨rfl, heq⟩
        rw [List.length_cons] at hlength
        omega
      exact readsPositions_text (g := .polygon first rest) hcomplete hlegible
  | rectangle a b =>
    obtain ⟨ha, hb⟩ : Legible a ∧ Legible b := by simpa using hlegible
    exact readsPositions_text (g := .polygon a (Box.ring ⟨a, b⟩).tail) (Nat.le_succ 3)
      (legible_ring ha hb)

/-- The text of a polygon of three coordinates is an error. -/
theorem parse_short {cs : List Coordinate} (hlegible : ∀ c ∈ cs, Legible c)
    (hlength : cs.length = 3) :
    parse (polygonText cs) = .error (.wrongArity "POLYGON" "at least 4 positions" 3) := by
  rcases cs with _ | ⟨first, _ | ⟨second, _ | ⟨third, _ | ⟨fourth, rest⟩⟩⟩⟩
  all_goals try simp at hlength
  have hlist : positionList (positionsText [first, second, third]).toList =
      .ok [first, second, third] :=
    positionList_positionsText (f := id) fun c hc => (hlegible c hc).readsAs
  rw [parse_polygonText, ofRingBody, hlist]
  rfl

/--
The text of a finished shape whose coordinates come back from their texts is read as a geometry with
the positions of the shape exactly when it is no polygon of three coordinates, and the text of such
a polygon is an error.
-/
theorem parse_finish {kind : Shape} (hkind : kind ≠ .ellipse) {vertices : Nat} {parts : List Part}
    (hlegible : ∀ c ∈ coordinatesIn parts, Legible c) {r : Region}
    (h : (Draft.draw kind vertices parts).finish = .ok r) :
    (ReadsPositions r.wkt (kind.outline (coordinatesIn parts)) ↔
      ¬ kind.IsShort (coordinatesIn parts)) ∧
    (kind.IsShort (coordinatesIn parts) →
      parse r.wkt = .error (.wrongArity "POLYGON" "at least 4 positions" 3)) := by
  have hfinished : Finished kind (coordinatesIn parts) r.wkt := by
    have := finished_of_finish (by rwa [Draft.kind_draw]) h
    rwa [Draft.kind_draw, Draft.coordinates_draw] at this
  have herror : kind.IsShort (coordinatesIn parts) →
      parse r.wkt = .error (.wrongArity "POLYGON" "at least 4 positions" 3) := by
    rintro ⟨rfl, hlength⟩
    generalize r.wkt = wkt at hfinished
    cases hfinished
    exact parse_short hlegible hlength
  refine ⟨⟨?_, readsPositions_finished hfinished hlegible⟩, herror⟩
  rintro ⟨g, hg, -⟩ hshort
  rw [herror hshort] at hg
  cases hg

/-- Two corners, and a bearing that a rectangle has no use for. -/
def cornerParts : List Part :=
  [.coordinate ⟨10.0, -5.0⟩, .angle 30.0, .coordinate ⟨-10.0, 5.0⟩]

theorem parse_finish_rectangle :
    ∃ r, (Draft.draw .rectangle 30 cornerParts).finish = .ok r ∧
      ReadsPositions r.wkt (Box.ring ⟨⟨10.0, -5.0⟩, ⟨-10.0, 5.0⟩⟩) := by
  have hlegible : ∀ c ∈ coordinatesIn cornerParts, Legible c := by decide +kernel
  have hfinish : (Draft.draw .rectangle 30 cornerParts).finish =
      .ok { wkt := polygonText (Box.ring ⟨⟨10.0, -5.0⟩, ⟨-10.0, 5.0⟩⟩) } := rfl
  have hshort : ¬ Shape.rectangle.IsShort (coordinatesIn cornerParts) := by
    rintro ⟨hkind, -⟩
    cases hkind
  exact ⟨_, hfinish, (parse_finish (by decide) hlegible hfinish).1.mpr hshort⟩

def triangleParts : List Part :=
  [.coordinate ⟨1.0, 2.0⟩, .coordinate ⟨3.0, 4.0⟩, .coordinate ⟨5.0, 6.0⟩]

/-- A polygon of three coordinates is finished, and its text is not read. -/
theorem not_parse_triangle :
    (Draft.draw .polygon 30 triangleParts).finish = .ok { wkt := "POLYGON((2 1, 4 3, 6 5))" } ∧
      ∀ g, parse "POLYGON((2 1, 4 3, 6 5))" ≠ .ok g := by
  have hparse : parse "POLYGON((2 1, 4 3, 6 5))" =
      .error (.wrongArity "POLYGON" "at least 4 positions" 3) := by decide +kernel
  refine ⟨by decide +kernel, fun g => ?_⟩
  rw [hparse]
  exact fun h => by cases h

end Catalogue.Geometry
