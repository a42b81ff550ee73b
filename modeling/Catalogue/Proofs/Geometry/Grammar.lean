import Catalogue.Proofs.Geometry.Finite

/-!
# The grammar of geometries

A geometry is a name in any letter case and bracketed positions, with blanks around every token; a
polygon has rings of positions. A position is two finite numbers, or three.

The reader does not look at a third ordinate, nor at what follows the first ring of a polygon. What
it reads are the texts of the grammar in which any word may stand for the third ordinate and any
text after the first ring, and these two places decide whether a text that is read is grammatical.

* `Spells` — a text and the geometry in it, with the third ordinates and what follows the first
  ring.
* `Grammatical` — the third ordinates are numbers, and rings follow the first ring.
* `spells_of_parse`, `Spells.parse_eq` — the reader reads what is spelled, and nothing else.
* `parse_grammatical` — which of the texts that are read are grammatical.
-/

namespace Catalogue.Geometry

open Catalogue.Lists Catalogue.Number Catalogue.Text

/-! ## Productions -/

/-- The characters are a numeral of the finite number. -/
def Numeral (w : List Char) (x : Float) : Prop := finite? (String.ofList w) = some x

instance (w : List Char) (x : Float) : Decidable (Numeral w x) :=
  inferInstanceAs (Decidable (finite? (String.ofList w) = some x))

def IsNumeral (w : List Char) : Prop := ∃ x, Numeral w x

/-- A longitude and a latitude with blanks between and around them, and perhaps one more word, the
height. -/
def Position (cs : List Char) (c : Coordinate) (heights : List (List Char)) : Prop :=
  ∃ lon lat, Spaced (lon :: lat :: heights) cs ∧ Numeral lon c.lon ∧ Numeral lat c.lat ∧
    heights.length ≤ 1 ∧ ∀ z ∈ heights, ',' ∉ z

/-- Positions with commas between them, and their heights. -/
inductive Positions : List Char → List Coordinate → List (List Char) → Prop
  | last {cs : List Char} {c : Coordinate} {heights : List (List Char)} :
    Position cs c heights → Positions cs [c] heights
  | cons {cs rest : List Char} {c : Coordinate} {ds : List Coordinate}
      {heights others : List (List Char)} :
    Position cs c heights → Positions rest ds others →
      Positions (cs ++ ',' :: rest) (c :: ds) (heights ++ others)

/-- Rings of at least two positions, with a comma in front of each, and blanks. -/
inductive FurtherRings : List Char → Prop
  | nil {a : List Char} : Blanks a → FurtherRings a
  | cons {a b ring rest : List Char} {first second : Coordinate} {others : List Coordinate}
      {heights : List (List Char)} :
    Blanks a → Blanks b → Positions ring (first :: second :: others) heights →
      (∀ z ∈ heights, IsNumeral z) → FurtherRings rest →
        FurtherRings (a ++ ',' :: (b ++ '(' :: (ring ++ ')' :: rest)))

/-- The geometry that a text spells, its heights, and what follows the first ring of a polygon. -/
inductive Spells (cs : List Char) : Geometry → List (List Char) → List Char → Prop
  | point {body : List Char} {c : Coordinate} {heights : List (List Char)} :
    Framed "POINT" cs body → Positions body [c] heights → Spells cs (.point c) heights []
  | lineString {body : List Char} {first second : Coordinate} {rest : List Coordinate}
      {heights : List (List Char)} :
    Framed "LINESTRING" cs body → Positions body (first :: second :: rest) heights →
      Spells cs (.lineString first (second :: rest)) heights []
  | polygon {a ring after : List Char} {first second third fourth : Coordinate}
      {rest : List Coordinate} {heights : List (List Char)} :
    Framed "POLYGON" cs (a ++ '(' :: (ring ++ ')' :: after)) → Blanks a →
      (∀ c ∈ ring, IsInner c) →
        Positions ring (first :: second :: third :: fourth :: rest) heights →
          Spells cs (.polygon first (second :: third :: fourth :: rest)) heights after

/-- The text spells a geometry, its heights are numbers, and rings follow the first ring. -/
def Grammatical (cs : List Char) : Prop :=
  ∃ g heights after, Spells cs g heights after ∧ (∀ z ∈ heights, IsNumeral z) ∧ FurtherRings after

/-! ## Positions -/

theorem degrees_eq_ok_iff {w : List Char} (hw : Solid w) {x : Float} :
    degrees (String.ofList w) = .ok x ↔ Numeral w x := by
  rw [degrees, trim_of_isWord hw.isWord, Numeral]
  cases finite? (String.ofList w) <;> simp

theorem ofTexts_eq_ok_iff {lat lon : String} {c : Coordinate} :
    Coordinate.ofTexts lat lon = .ok c ↔ degrees lat = .ok c.lat ∧ degrees lon = .ok c.lon := by
  constructor
  · intro h
    obtain ⟨x, hx, h⟩ := exists_of_bind h
    obtain ⟨y, hy, h⟩ := exists_of_bind h
    obtain rfl := Except.ok.inj h
    exact ⟨hx, hy⟩
  · rintro ⟨hlat, hlon⟩
    rw [Coordinate.ofTexts, hlat, hlon]
    rfl

section Positions

variable {cs body : List Char} {c : Coordinate} {ds : List Coordinate} {heights : List (List Char)}

theorem Position.position_eq (h : Position cs c heights) : position (String.ofList cs) = .ok c := by
  obtain ⟨lon, lat, hspaced, hlon, hlat, hlength, -⟩ := h
  have hsolid := hspaced.solid
  have hcoordinate : Coordinate.ofTexts (String.ofList lat) (String.ofList lon) = .ok c :=
    ofTexts_eq_ok_iff.mpr ⟨(degrees_eq_ok_iff (hsolid lat (by simp))).mpr hlat,
      (degrees_eq_ok_iff (hsolid lon (by simp))).mpr hlon⟩
  rw [position, words, String.toList_ofList, hspaced.wordChars_eq]
  rcases heights with _ | ⟨z, _ | ⟨_, _⟩⟩
  · exact hcoordinate
  · exact hcoordinate
  · simp at hlength

theorem position_of_position_eq (hcomma : ',' ∉ cs) (h : position (String.ofList cs) = .ok c) :
    ∃ heights, Position cs c heights := by
  have hspaced := spaced_wordChars cs
  have hwords : ∀ z ∈ wordChars cs, ',' ∉ z := fun z hz hmem =>
    hcomma ((hspaced.mem_iff (by decide)).mpr ⟨z, hz, hmem⟩)
  have hsolid := hspaced.solid
  rw [position, words, String.toList_ofList] at h
  rcases hcs : wordChars cs with _ | ⟨lon, _ | ⟨lat, heights⟩⟩
  all_goals rw [hcs] at h hspaced hwords hsolid
  · cases h
  · cases h
  · have hlength : heights.length ≤ 1 ∧
        Coordinate.ofTexts (String.ofList lat) (String.ofList lon) = .ok c := by
      rcases heights with _ | ⟨z, _ | ⟨_, _⟩⟩
      · exact ⟨Nat.zero_le 1, h⟩
      · exact ⟨Nat.le_refl 1, h⟩
      · cases h
    obtain ⟨hlat, hlon⟩ := ofTexts_eq_ok_iff.mp hlength.2
    exact ⟨heights, lon, lat, hspaced, (degrees_eq_ok_iff (hsolid lon (by simp))).mp hlon,
      (degrees_eq_ok_iff (hsolid lat (by simp))).mp hlat, hlength.1,
      fun z hz => hwords z (by simp [hz])⟩

theorem Numeral.inNumeral {w : List Char} {x : Float} (h : Numeral w x) :
    ∀ c ∈ w, InNumeral c := by
  simpa using inNumeral_of_finite? h

/-- A character of a position is a blank, or it stands in a numeral or in the height. -/
theorem Position.cases_mem (h : Position cs c heights) {d : Char} (hd : d ∈ cs) :
    isBlank d = true ∨ InNumeral d ∨ ∃ z ∈ heights, d ∈ z := by
  obtain ⟨lon, lat, hspaced, hlon, hlat, -⟩ := h
  by_cases hblank : isBlank d = true
  · exact .inl hblank
  · obtain ⟨w, hw, hmem⟩ := (hspaced.mem_iff (by simpa using hblank)).mp hd
    rcases List.mem_cons.mp hw with rfl | hw
    · exact .inr (.inl (hlon.inNumeral d hmem))
    rcases List.mem_cons.mp hw with rfl | hw
    · exact .inr (.inl (hlat.inNumeral d hmem))
    · exact .inr (.inr ⟨w, hw, hmem⟩)

theorem Position.not_comma (h : Position cs c heights) : ',' ∉ cs := by
  intro hmem
  rcases h.cases_mem hmem with hblank | hnumeral | ⟨z, hz, hmem⟩
  · exact absurd hblank (by decide)
  · exact hnumeral.ne (by decide) (by decide) rfl
  · obtain ⟨lon, lat, -, -, -, -, hcomma⟩ := h
    exact hcomma z hz hmem

theorem forall_beq_comma {cs : List Char} : (∀ x ∈ cs, (x == ',') = false) ↔ ',' ∉ cs := by
  constructor
  · intro h hmem
    simpa using h ',' hmem
  · intro h x hx
    rw [beq_eq_false_iff_ne]
    rintro rfl
    exact h hx

theorem Positions.positionList_eq (h : Positions body ds heights) :
    positionList body = .ok ds := by
  induction h with
  | last hposition =>
    rw [positionList, fields_of_forall (forall_beq_comma.mpr hposition.not_comma)]
    simp only [List.map_singleton, List.mapM_cons, hposition.position_eq]
    rfl
  | cons hposition _ ih =>
    rw [positionList] at ih ⊢
    rw [fields_append_cons (forall_beq_comma.mpr hposition.not_comma) rfl, List.map_cons,
      List.mapM_cons, hposition.position_eq, ih]
    rfl

theorem positions_of_positionList_eq (h : positionList body = .ok ds) :
    ∃ heights, Positions body ds heights := by
  rw [positionList] at h
  induction body using pieces_induction (p := (· == ',')) generalizing ds with
  | last f hf =>
    rw [fields_of_forall hf, List.map_singleton, List.mapM_cons] at h
    obtain ⟨c, hc, h⟩ := exists_of_bind h
    obtain rfl := Except.ok.inj h
    obtain ⟨heights, hposition⟩ := position_of_position_eq (forall_beq_comma.mp hf) hc
    exact ⟨heights, .last hposition⟩
  | more f sep rest hf hsep ih =>
    rw [fields_append_cons hf hsep, List.map_cons, List.mapM_cons] at h
    obtain ⟨c, hc, h⟩ := exists_of_bind h
    obtain ⟨others, hothers, h⟩ := exists_of_bind h
    obtain rfl := Except.ok.inj h
    obtain rfl := beq_iff_eq.mp hsep
    obtain ⟨heights, hposition⟩ := position_of_position_eq (forall_beq_comma.mp hf) hc
    obtain ⟨heights', hpositions⟩ := ih hothers
    exact ⟨heights ++ heights', .cons hposition hpositions⟩

/-- No bracket stands among positions without heights. -/
theorem Positions.isInner (h : Positions body ds []) : ∀ d ∈ body, IsInner d := by
  have hposition : ∀ {cs : List Char} {c : Coordinate}, Position cs c [] → ∀ d ∈ cs, IsInner d := by
    intro cs c h d hd
    rcases h.cases_mem hd with hblank | hnumeral | ⟨z, hz, -⟩
    · constructor <;> rintro rfl <;> exact absurd hblank (by decide)
    · exact ⟨hnumeral.ne (by decide) (by decide), hnumeral.ne (by decide) (by decide)⟩
    · exact absurd hz List.not_mem_nil
  generalize hempty : ([] : List (List Char)) = heights at h
  induction h with
  | last h =>
    subst hempty
    exact hposition h
  | cons h _ ih =>
    obtain ⟨rfl, rfl⟩ := List.append_eq_nil_iff.mp hempty.symm
    refine List.forall_mem_append.mpr ⟨hposition h, ?_⟩
    exact List.forall_mem_cons.mpr ⟨⟨by decide, by decide⟩, ih rfl⟩

/-- The words behind the first two of each piece. -/
def heightsIn (body : List Char) : List (List Char) :=
  (fields (· == ',') body).flatMap fun f => (wordChars f).drop 2

theorem Position.heights_eq (h : Position cs c heights) : (wordChars cs).drop 2 = heights := by
  obtain ⟨lon, lat, hspaced, -⟩ := h
  rw [hspaced.wordChars_eq]
  rfl

theorem Positions.heights_eq (h : Positions body ds heights) : heightsIn body = heights := by
  induction h with
  | last hposition =>
    rw [heightsIn, fields_of_forall (forall_beq_comma.mpr hposition.not_comma),
      List.flatMap_singleton, hposition.heights_eq]
  | cons hposition _ ih =>
    rw [heightsIn] at ih ⊢
    rw [fields_append_cons (forall_beq_comma.mpr hposition.not_comma) rfl, List.flatMap_cons,
      hposition.heights_eq, ih]

end Positions

/-! ## Geometries -/

section Bodies

variable {cs body : List Char} {g : Geometry}

theorem spells_of_ofPointBody (hframe : Framed "POINT" cs body) (h : ofPointBody body = .ok g) :
    ∃ heights after, Spells cs g heights after := by
  obtain ⟨ds, hds, h⟩ := exists_of_bind h
  obtain ⟨heights, hpositions⟩ := positions_of_positionList_eq hds
  split at h
  · obtain rfl := Except.ok.inj h
    exact ⟨heights, [], .point hframe hpositions⟩
  · cases h

theorem spells_of_ofLineBody (hframe : Framed "LINESTRING" cs body) (h : ofLineBody body = .ok g) :
    ∃ heights after, Spells cs g heights after := by
  obtain ⟨ds, hds, h⟩ := exists_of_bind h
  obtain ⟨heights, hpositions⟩ := positions_of_positionList_eq hds
  split at h
  · obtain rfl := Except.ok.inj h
    exact ⟨heights, [], .lineString hframe hpositions⟩
  · cases h

theorem spells_of_ofRingBody {ring : List Char} (hframe : Framed "POLYGON" cs body)
    (hring : firstRing? body = some ring) (h : ofRingBody ring = .ok g) :
    ∃ heights after, Spells cs g heights after := by
  obtain ⟨hinner, a, after, ha, rfl⟩ := firstRing?_eq_some_iff.mp hring
  obtain ⟨ds, hds, h⟩ := exists_of_bind h
  obtain ⟨heights, hpositions⟩ := positions_of_positionList_eq hds
  split at h
  · obtain rfl := Except.ok.inj h
    exact ⟨heights, after, .polygon hframe ha hinner hpositions⟩
  · cases h

end Bodies

/-- What is read is spelled. -/
theorem spells_of_parse {s : String} {g : Geometry} (h : parse s = .ok g) :
    ∃ heights after, Spells s.toList g heights after := by
  unfold parse at h
  split at h
  · cases h
  next keyword body hframed =>
  split at h
  · next hupper =>
    exact spells_of_ofPointBody ((framed_iff (by decide)).mpr ⟨keyword, hframed, hupper⟩) h
  · next hupper =>
    exact spells_of_ofLineBody ((framed_iff (by decide)).mpr ⟨keyword, hframed, hupper⟩) h
  · next hupper =>
    split at h
    · next ring hring =>
      exact spells_of_ofRingBody ((framed_iff (by decide)).mpr ⟨keyword, hframed, hupper⟩) hring h
    · cases h
  · cases h

/-- What is spelled is read. -/
theorem Spells.parse_eq {s : String} {g : Geometry} {heights : List (List Char)} {after : List Char}
    (h : Spells s.toList g heights after) : parse s = .ok g := by
  cases h with
  | point hframe hpositions =>
    rw [parse_point hframe, ofPointBody, hpositions.positionList_eq]
    rfl
  | lineString hframe hpositions =>
    rw [parse_lineString hframe, ofLineBody, hpositions.positionList_eq]
    rfl
  | @polygon a ring _ _ _ _ _ _ _ hframe ha hinner hpositions =>
    have hring : firstRing? (a ++ '(' :: (ring ++ ')' :: after)) = some ring :=
      firstRing?_eq_some_iff.mpr ⟨hinner, a, after, ha, rfl⟩
    rw [parse_polygon hframe hring, ofRingBody, hpositions.positionList_eq]
    rfl

/-- A text is framed by one name, around one body. -/
theorem Framed.unique {name name' : String} {cs body body' : List Char} (hname : IsName name)
    (hname' : IsName name') (h : Framed name cs body) (h' : Framed name' cs body') :
    name = name' ∧ body = body' := by
  obtain ⟨keyword, hframed, hupper⟩ := (framed_iff hname).mp h
  obtain ⟨keyword', hframed', hupper'⟩ := (framed_iff hname').mp h'
  obtain ⟨rfl, rfl⟩ := Prod.mk.inj (Option.some.inj (hframed.symm.trans hframed'))
  exact ⟨hupper.symm.trans hupper', rfl⟩

/-- No text is framed by two names. -/
theorem Framed.disjoint {name name' : String} {cs body body' : List Char} (h : Framed name cs body)
    (h' : Framed name' cs body') (hname : IsName name) (hname' : IsName name')
    (hne : name ≠ name') : False :=
  hne (h.unique hname hname' h').1

/-- The first ring of a body and what follows it are told by the brackets. -/
theorem ring_unique {a a' ring ring' after after' : List Char} (ha : Blanks a) (ha' : Blanks a')
    (hring : ∀ c ∈ ring, IsInner c) (hring' : ∀ c ∈ ring', IsInner c)
    (h : a ++ '(' :: (ring ++ ')' :: after) = a' ++ '(' :: (ring' ++ ')' :: after')) :
    ring = ring' ∧ after = after' := by
  obtain ⟨-, -, hinside⟩ := append_cons_inj (p := isBlank) ha (by decide) ha' (by decide) h
  have hclass : ∀ {cs : List Char}, (∀ c ∈ cs, IsInner c) → ∀ c ∈ cs, (c != ')') = true := by
    intro cs hcs c hc
    simpa using (hcs c hc).2
  obtain ⟨hrings, -, hafters⟩ := append_cons_inj (p := (· != ')')) (hclass hring) (by decide)
    (hclass hring') (by decide) hinside
  exact ⟨hrings, hafters⟩

/-- The heights of a text and what follows its first ring do not depend on how it is read. -/
theorem Spells.unique {cs : List Char} {g g' : Geometry} {heights heights' : List (List Char)}
    {after after' : List Char} (h : Spells cs g heights after)
    (h' : Spells cs g' heights' after') : heights = heights' ∧ after = after' := by
  cases h with
  | point hframe hpositions =>
    cases h' with
    | point hframe' hpositions' =>
      obtain ⟨-, rfl⟩ := hframe.unique (by decide) (by decide) hframe'
      exact ⟨hpositions.heights_eq.symm.trans hpositions'.heights_eq, rfl⟩
    | lineString hframe' => exact (hframe.disjoint hframe' (by decide) (by decide) (by decide)).elim
    | polygon hframe' => exact (hframe.disjoint hframe' (by decide) (by decide) (by decide)).elim
  | lineString hframe hpositions =>
    cases h' with
    | point hframe' => exact (hframe.disjoint hframe' (by decide) (by decide) (by decide)).elim
    | lineString hframe' hpositions' =>
      obtain ⟨-, rfl⟩ := hframe.unique (by decide) (by decide) hframe'
      exact ⟨hpositions.heights_eq.symm.trans hpositions'.heights_eq, rfl⟩
    | polygon hframe' => exact (hframe.disjoint hframe' (by decide) (by decide) (by decide)).elim
  | polygon hframe ha hinner hpositions =>
    cases h' with
    | point hframe' => exact (hframe.disjoint hframe' (by decide) (by decide) (by decide)).elim
    | lineString hframe' => exact (hframe.disjoint hframe' (by decide) (by decide) (by decide)).elim
    | polygon hframe' ha' hinner' hpositions' =>
      obtain ⟨-, hbody⟩ := hframe.unique (by decide) (by decide) hframe'
      obtain ⟨rfl, rfl⟩ := ring_unique ha ha' hinner hinner' hbody
      exact ⟨hpositions.heights_eq.symm.trans hpositions'.heights_eq, rfl⟩

/-- A text that spells a geometry is grammatical when its heights are numbers and rings follow its
first ring. -/
theorem Spells.grammatical_iff {cs : List Char} {g : Geometry} {heights : List (List Char)}
    {after : List Char} (h : Spells cs g heights after) :
    Grammatical cs ↔ (∀ z ∈ heights, IsNumeral z) ∧ FurtherRings after := by
  constructor
  · rintro ⟨g', heights', after', h', hnumerals, hrings⟩
    obtain ⟨rfl, rfl⟩ := h.unique h'
    exact ⟨hnumerals, hrings⟩
  · rintro ⟨hnumerals, hrings⟩
    exact ⟨g, heights, after, h, hnumerals, hrings⟩

theorem FurtherRings.blanks_or_comma {cs : List Char} (h : FurtherRings cs) :
    Blanks cs ∨ ',' ∈ cs := by
  cases h with
  | nil ha => exact .inl ha
  | cons => exact .inr (by simp)

theorem Positions.of_positionList {body : List Char} {ds : List Coordinate}
    (h : positionList body = .ok ds) : Positions body ds (heightsIn body) := by
  obtain ⟨heights, hpositions⟩ := positions_of_positionList_eq h
  rwa [hpositions.heights_eq]

theorem Spells.of_ring {s : String} {ring after : List Char}
    {first second third fourth : Coordinate} {rest : List Coordinate}
    (hframe : Framed "POLYGON" s.toList ('(' :: (ring ++ ')' :: after)))
    (h : positionList ring = .ok (first :: second :: third :: fourth :: rest))
    (hheights : heightsIn ring = []) :
    Spells s.toList (.polygon first (second :: third :: fourth :: rest)) [] after := by
  have hpositions := Positions.of_positionList h
  rw [hheights] at hpositions
  exact .polygon (a := []) hframe blanks_nil hpositions.isInner hpositions

/--
A text is read as the geometry that it spells, and every other text is an error. A text that is read
is grammatical when its heights are numbers and nothing but rings and blanks follows the first ring
of a polygon; the reader looks at neither.
-/
theorem parse_grammatical (s : String) :
    (∀ g, parse s = .ok g ↔ ∃ heights after, Spells s.toList g heights after) ∧
      ∀ g heights after, Spells s.toList g heights after →
        (Grammatical s.toList ↔ (∀ z ∈ heights, IsNumeral z) ∧ FurtherRings after) := by
  refine ⟨fun g => ⟨spells_of_parse, fun ⟨_, _, hspells⟩ => hspells.parse_eq⟩, ?_⟩
  intro g heights after hspells
  exact hspells.grammatical_iff

/-! ## Texts inside and outside the grammar -/

def squareRing : List Char := "0 0, 1 0, 1 1, 0 0".toList

def square : Geometry := .polygon ⟨0.0, 0.0⟩ [⟨0.0, 1.0⟩, ⟨1.0, 1.0⟩, ⟨0.0, 0.0⟩]

/-- A ring with a hole behind it. -/
def holedText : String := "Polygon((0 0, 1 0, 1 1, 0 0), (2 2, 3 3 -1))"

/-- A ring with a word behind it. -/
def strayText : String := "POLYGON((0 0, 1 0, 1 1, 0 0) garbage)"

theorem positionList_squareRing :
    positionList squareRing = .ok [⟨0.0, 0.0⟩, ⟨0.0, 1.0⟩, ⟨1.0, 1.0⟩, ⟨0.0, 0.0⟩] := by
  decide +kernel

theorem heightsIn_squareRing : heightsIn squareRing = [] := by
  decide +kernel

theorem spells_holedText : Spells holedText.toList square [] ", (2 2, 3 3 -1)".toList := by
  refine .of_ring ?_ positionList_squareRing heightsIn_squareRing
  refine ⟨[], "Polygon".toList, [], [], blanks_nil, blanks_nil, blanks_nil, ?_, ?_⟩
  · decide +kernel
  · decide +kernel

theorem spells_strayText : Spells strayText.toList square [] " garbage".toList := by
  refine .of_ring (framed_text ?_ ?_) positionList_squareRing heightsIn_squareRing
  · decide +kernel
  · decide +kernel

theorem furtherRings_holedText : FurtherRings ", (2 2, 3 3 -1)".toList := by
  have hsplit : ", (2 2, 3 3 -1)".toList =
      [] ++ ',' :: ([' '] ++ '(' :: ("2 2, 3 3 -1".toList ++ ')' :: [])) := by
    decide +kernel
  have hpositions : positionList "2 2, 3 3 -1".toList = .ok [⟨2.0, 2.0⟩, ⟨3.0, 3.0⟩] := by
    decide +kernel
  have hheights : heightsIn "2 2, 3 3 -1".toList = ["-1".toList] := by
    decide +kernel
  rw [hsplit]
  refine .cons blanks_nil (by decide) (.of_positionList hpositions) ?_ (.nil blanks_nil)
  rw [hheights]
  exact List.forall_mem_singleton.mpr ⟨-1.0, by decide +kernel⟩

theorem parse_grammatical_holed :
    parse holedText = .ok square ∧ Grammatical holedText.toList := by
  obtain ⟨hparse, hgrammatical⟩ := parse_grammatical holedText
  refine ⟨(hparse square).mpr ⟨_, _, spells_holedText⟩, ?_⟩
  exact (hgrammatical square _ _ spells_holedText).mpr
    ⟨List.forall_mem_nil _, furtherRings_holedText⟩

/-- A text with a word behind the ring is read, and it is not grammatical. -/
theorem parse_ungrammatical :
    parse strayText = .ok square ∧ ¬ Grammatical strayText.toList := by
  refine ⟨spells_strayText.parse_eq, fun hgrammatical => ?_⟩
  obtain ⟨-, hrings⟩ := spells_strayText.grammatical_iff.mp hgrammatical
  rcases hrings.blanks_or_comma with hblanks | hcomma
  · exact absurd (hblanks 'g' (by decide)) (by decide)
  · exact absurd hcomma (by decide)

end Catalogue.Geometry
