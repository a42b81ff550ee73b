import Catalogue.Proofs.Geometry.Envelope
import Catalogue.Proofs.Geometry.Frame

/-!
# Geometries read from their texts

The text of a geometry is read as that geometry, when the texts of its ordinates are read as these
numbers.

* `Coordinate.ReadsAs` — a coordinate and what its ordinates are read as from their texts.
* `Legible` — a coordinate whose ordinates come back from their texts.
* `positionList_positionsText` — positions with commas between them are read one by one.
* `parse_text_of_readsAs` — the text of a geometry is read as a geometry of that kind.
* `parse_text` — it is read as the geometry itself, when its positions are legible.
* `parse_envelope` — so is the text of the box around it, which is then the box around itself.
-/

namespace Catalogue.Geometry

open Catalogue.Number Catalogue.Text

/-! ## Positions -/

/-- The text of the first number is read as the second one. -/
def ReadsAs (x y : Float) : Prop := finite? (Number.text x) = some y

theorem ReadsAs.isWord {x y : Float} (h : ReadsAs x y) : IsWord (Number.text x) := by
  have hempty : finite? "" = none := by decide +kernel
  refine ⟨fun heq => ?_, fun c hc => (unbroken_text x c hc).isBlank⟩
  rw [ReadsAs, heq, hempty] at h
  cases h

theorem ReadsAs.degrees {x y : Float} (h : ReadsAs x y) : degrees (Number.text x) = .ok y := by
  rw [Geometry.degrees, trim_of_isWord h.isWord, h]

/-- The number comes back from its text. -/
def ReadsBack (x : Float) : Prop := finite? (Number.text x) = some x

instance : DecidablePred ReadsBack := fun x =>
  inferInstanceAs (Decidable (finite? (Number.text x) = some x))

theorem ReadsBack.isNaN {x : Float} (h : ReadsBack x) : x.isNaN = false := by
  have hfinite : x.isFinite = true := (Option.filter_eq_some_iff.mp h).2
  rw [Float.isNaN_eq_decide_eq_nan, decide_eq_false_iff_not]
  rintro rfl
  have hnan : Float.nan.isFinite = false := by decide +kernel
  rw [hnan] at hfinite
  cases hfinite

/-- Both ordinates of the coordinate come back from their texts. -/
def Legible (c : Coordinate) : Prop := c.All ReadsBack

instance : DecidablePred Legible := fun c => inferInstanceAs (Decidable (c.All ReadsBack))

/-- The ordinates of the first coordinate are read from their texts as those of the second one. -/
def Coordinate.ReadsAs (c d : Coordinate) : Prop :=
  Geometry.ReadsAs c.lat d.lat ∧ Geometry.ReadsAs c.lon d.lon

theorem Legible.readsAs {c : Coordinate} (h : Legible c) : c.ReadsAs c := h

/-- A text with the two words of a position is read as what that position is read as. -/
theorem position_of_words {c d : Coordinate} (h : c.ReadsAs d) {s : String}
    (hs : words s = words c.position) : position s = .ok d := by
  have hunwords : c.position = unwords [Number.text c.lon, Number.text c.lat] := rfl
  rw [hunwords, words_unwords (by simp [h.1.isWord, h.2.isWord])] at hs
  rw [position, hs]
  simp only [Coordinate.ofTexts, h.1.degrees, h.2.degrees]
  rfl

/-! ## Lists of positions -/

theorem mapM_position {write : Coordinate → String} {f : Coordinate → Coordinate}
    {cs : List Coordinate} (h : ∀ c ∈ cs, position (write c) = .ok (f c)) :
    (cs.map write).mapM position = .ok (cs.map f) := by
  induction cs with
  | nil => rfl
  | cons c rest ih =>
    obtain ⟨hc, hrest⟩ := List.forall_mem_cons.mp h
    rw [List.map_cons, List.mapM_cons, hc, ih hrest]
    rfl

/-- A position is written without commas and brackets. -/
theorem not_mem_position {d : Char} (hd : d.toNat < 45) (hspace : d ≠ ' ') (c : Coordinate) :
    d ∉ c.position.toList := by
  intro hmem
  rw [Coordinate.position, String.toList_append, String.toList_append, List.mem_append,
    List.mem_append] at hmem
  rcases hmem with (hmem | hmem) | hmem
  · exact (unbroken_text _ d hmem).ne hd rfl
  · exact hspace (List.mem_singleton.mp hmem)
  · exact (unbroken_text _ d hmem).ne hd rfl

/-- Positions with commas between them are cut into these positions, with a blank in front of each
but the first. -/
theorem fields_positionsText (c : Coordinate) (cs : List Coordinate) :
    (fields (· == ',') (positionsText (c :: cs)).toList).map String.ofList =
      c.position :: cs.map fun d => " " ++ d.position := by
  have htexts : (positionsText (c :: cs)).toList =
      List.intercalate [',', ' '] ((c :: cs).map fun d => d.position.toList) := by
    rw [positionsText, String.toList_intercalate, List.map_map]
    rfl
  have hcomma : ∀ f ∈ (c :: cs).map (fun d => d.position.toList), ∀ x ∈ f, (x == ',') = false := by
    intro f hf x hx
    obtain ⟨d, -, rfl⟩ := List.mem_map.mp hf
    rw [beq_eq_false_iff_ne]
    rintro rfl
    exact not_mem_position (by decide) (by decide) d hx
  rw [htexts, List.map_cons, fields_intercalate_cons rfl (by simp) hcomma, List.map_cons,
    List.map_map, List.map_map, String.ofList_toList]
  refine congrArg _ (List.map_congr_left fun d _ => ?_)
  rw [Function.comp_apply, Function.comp_apply, String.ofList_append, String.ofList_toList]

/-- Positions with commas between them are read one by one. -/
theorem positionList_positionsText {f : Coordinate → Coordinate} {c : Coordinate}
    {cs : List Coordinate} (h : ∀ d ∈ c :: cs, d.ReadsAs (f d)) :
    positionList (positionsText (c :: cs)).toList = .ok (f c :: cs.map f) := by
  obtain ⟨hc, hcs⟩ := List.forall_mem_cons.mp h
  have hrest : (cs.map fun d => " " ++ d.position).mapM position = .ok (cs.map f) :=
    mapM_position fun d hd => position_of_words (hcs d hd) (words_blank_append _)
  rw [positionList, fields_positionsText, List.mapM_cons, position_of_words hc rfl, hrest]
  rfl

/-- Positions are written without brackets. -/
theorem not_bracket_positionsText (cs : List Coordinate) :
    ∀ x ∈ (positionsText cs).toList, IsInner x := by
  have hposition : ∀ c : Coordinate, ∀ x ∈ c.position.toList, IsInner x := by
    intro c x hx
    constructor <;> rintro rfl <;> exact not_mem_position (by decide) (by decide) c hx
  intro x hx
  rw [positionsText, String.toList_intercalate] at hx
  induction cs with
  | nil => cases hx
  | cons c rest ih =>
    cases rest with
    | nil =>
      rw [List.map_singleton, List.map_singleton, List.intercalate_singleton] at hx
      exact hposition c x hx
    | cons d rest =>
      rw [List.map_cons, List.map_cons, List.map_cons, List.map_cons, List.intercalate_cons_cons,
        List.mem_append, List.mem_append] at hx
      rcases hx with (hx | hx) | hx
      · exact hposition c x hx
      · rcases List.mem_cons.mp hx with rfl | hx
        · exact ⟨by decide, by decide⟩
        · rw [List.mem_singleton.mp hx]
          exact ⟨by decide, by decide⟩
      · exact ih hx

/-! ## Geometries -/

/-- The geometry has as many positions as its text must have. -/
def Complete : Geometry → Prop
  | point _ => True
  | lineString _ rest => 1 ≤ rest.length
  | polygon _ rest => 3 ≤ rest.length

/-- A geometry with other positions. -/
def map (f : Coordinate → Coordinate) : Geometry → Geometry
  | point c => point (f c)
  | lineString first rest => lineString (f first) (rest.map f)
  | polygon first rest => polygon (f first) (rest.map f)

theorem map_id (g : Geometry) : g.map id = g := by
  cases g <;> simp [map]

theorem toList_pointText (c : Coordinate) :
    (pointText c).toList = "POINT".toList ++ '(' :: ((positionsText [c]).toList ++ [')']) := by
  simp [pointText, positionsText, String.toList_append]

theorem toList_lineText (cs : List Coordinate) :
    (lineText cs).toList = "LINESTRING".toList ++ '(' :: ((positionsText cs).toList ++ [')']) := by
  simp [lineText, String.toList_append]

theorem toList_polygonText (cs : List Coordinate) :
    (polygonText cs).toList = "POLYGON".toList ++
      '(' :: ('(' :: ((positionsText cs).toList ++ [')']) ++ [')']) := by
  simp [polygonText, String.toList_append]

/-- A name in front of a bracketed body. -/
theorem framed_text {name : String} (hname : upper name = name) {cs body : List Char}
    (h : cs = name.toList ++ '(' :: (body ++ [')'])) : Framed name cs body := by
  refine ⟨[], name.toList, [], [], blanks_nil, blanks_nil, blanks_nil, ?_, h⟩
  rw [String.ofList_toList, hname]

theorem parse_pointText (c : Coordinate) :
    parse (pointText c) = ofPointBody (positionsText [c]).toList :=
  parse_point (framed_text (by decide +kernel) (toList_pointText c))

theorem parse_lineText (cs : List Coordinate) :
    parse (lineText cs) = ofLineBody (positionsText cs).toList :=
  parse_lineString (framed_text (by decide +kernel) (toList_lineText cs))

theorem parse_polygonText (cs : List Coordinate) :
    parse (polygonText cs) = ofRingBody (positionsText cs).toList := by
  have hring : firstRing? ('(' :: ((positionsText cs).toList ++ [')'])) =
      some (positionsText cs).toList :=
    firstRing?_eq_some_iff.mpr ⟨not_bracket_positionsText _, [], [], blanks_nil, rfl⟩
  exact parse_polygon (framed_text (by decide +kernel) (toList_polygonText cs)) hring

/-- The text of a geometry is read as a geometry of that kind, position by position. -/
theorem parse_text_of_readsAs {g : Geometry} {f : Coordinate → Coordinate}
    (hcomplete : g.Complete) (h : ∀ c ∈ g.positions, c.ReadsAs (f c)) :
    parse g.text = .ok (g.map f) := by
  cases g with
  | point c =>
    have hlist : positionList (positionsText [c]).toList = .ok [f c] := positionList_positionsText h
    rw [text, parse_pointText, ofPointBody, hlist]
    rfl
  | lineString first rest =>
    have hlength : 1 ≤ rest.length := hcomplete
    rw [text, parse_lineText, ofLineBody, positionList_positionsText h]
    rcases rest with _ | ⟨second, rest⟩
    · simp at hlength
    · rfl
  | polygon first rest =>
    have hlength : 3 ≤ rest.length := hcomplete
    rw [text, parse_polygonText, ofRingBody, positionList_positionsText h]
    rcases rest with _ | ⟨second, _ | ⟨third, _ | ⟨fourth, rest⟩⟩⟩
    · simp at hlength
    · simp at hlength
    · simp at hlength
    · rfl

/-- The text of a geometry is read as the geometry. -/
theorem parse_text {g : Geometry} (hcomplete : g.Complete) (h : ∀ c ∈ g.positions, Legible c) :
    parse g.text = .ok g := by
  conv_rhs => rw [← map_id g]
  exact parse_text_of_readsAs hcomplete fun c hc => (h c hc).readsAs

/-! ## Boxes -/

theorem complete_toGeometry (b : Box) : b.toGeometry.Complete := by
  rw [Box.toGeometry]
  split
  · trivial
  · exact Nat.le_succ 3

/-- The box around a geometry is read from its text as a geometry with the same box around it. -/
theorem parse_envelope {g : Geometry} (hzero : ∀ c ∈ g.positions, c.All (· ≠ -0.0))
    (hlegible : ∀ c ∈ g.positions, Legible c) :
    parse g.envelope.toGeometry.text = .ok g.envelope.toGeometry ∧
      g.envelope.toGeometry.envelope = g.envelope := by
  have hplain : ∀ c ∈ g.positions, c.All Plain := by
    intro c hc
    obtain ⟨hlat, hlon⟩ := hlegible c hc
    exact ⟨⟨hlat.isNaN, (hzero c hc).1⟩, hlon.isNaN, (hzero c hc).2⟩
  exact ⟨parse_text (complete_toGeometry _) (all_positions_toGeometry (all_envelope hlegible)),
    Box.envelope_toGeometry (proper_envelope hplain)⟩

end Catalogue.Geometry
