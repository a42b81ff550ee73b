import Catalogue.Proofs.Geometry.Grammar

/-!
# Variants of a geometry's text

The text of a geometry can be written with letters in another case and with blanks in front of it,
behind it and around each bracket and comma. It is still read as the geometry.

* `Varies` — letters in another case, and blanks around brackets and commas.
* `Varies.brackets`, `Varies.positions` — a variant of a bracketed text and of positions.
* `Varies.spells` — a variant of the text of a geometry spells the geometry.
* `parse_variant` — every variant of the text of a geometry is read as the geometry.
-/

namespace Catalogue.Geometry

open Catalogue.Number Catalogue.Text

/-! ## Variants -/

/-- Brackets and commas. -/
def isMark (c : Char) : Bool := c == '(' || c == ')' || c == ','

/-- The second text has the letters of the first one in either case, and any blanks around its
brackets and commas. -/
inductive Varies : List Char → List Char → Prop
  | nil : Varies [] []
  | letter {c d : Char} {xs ys : List Char} :
    d.toUpper = c.toUpper → Varies xs ys → Varies (c :: xs) (d :: ys)
  | mark {c : Char} {a b xs ys : List Char} :
    isMark c = true → Blanks a → Blanks b → Varies xs ys →
      Varies (c :: xs) (a ++ c :: (b ++ ys))

/-- A variant of a text, with any blanks in front and at the end. -/
def Variant (s t : String) : Prop :=
  ∃ a cs b, Blanks a ∧ Varies s.toList cs ∧ Blanks b ∧ t.toList = a ++ (cs ++ b)

/-- Characters other than letters have no other case. -/
theorem eq_of_toUpper_eq {c d : Char} (hc : c.isAlpha = false) (h : d.toUpper = c.toUpper) :
    d = c := by
  have hkeep : ∀ {e : Char}, e.isAlpha = false → e.toUpper = e := by
    intro e he
    rw [Char.isAlpha, Bool.or_eq_false_iff] at he
    exact Char.toUpper_eq_of_not_isLower (by simp [he.2])
  have hd : d.isAlpha = false := by
    rw [← Char.isAlpha_toUpper_eq_isAlpha, h, Char.isAlpha_toUpper_eq_isAlpha, hc]
  rw [← hkeep hd, h, hkeep hc]

theorem isAlpha_of_isMark {c : Char} (h : isMark c = true) : c.isAlpha = false := by
  rw [isMark, Bool.or_eq_true, Bool.or_eq_true, beq_iff_eq, beq_iff_eq, beq_iff_eq] at h
  rcases h with (rfl | rfl) | rfl <;> decide

theorem isMark_of_le {c : Char} (h : 'A' ≤ c) : isMark c = false := by
  by_contra hmark
  rw [Bool.not_eq_false, isMark, Bool.or_eq_true, Bool.or_eq_true, beq_iff_eq, beq_iff_eq,
    beq_iff_eq] at hmark
  rcases hmark with (rfl | rfl) | rfl <;> exact absurd h (by decide)

/-- A text varies in the case of its letters. -/
theorem varies_of_map_toUpper {xs ys : List Char} (h : ys.map Char.toUpper = xs.map Char.toUpper) :
    Varies xs ys := by
  induction xs generalizing ys with
  | nil =>
    rw [List.map_nil, List.map_eq_nil_iff] at h
    rw [h]
    exact .nil
  | cons x xs ih =>
    cases ys with
    | nil => cases h
    | cons y ys =>
      rw [List.map_cons, List.map_cons, List.cons.injEq] at h
      exact .letter h.1 (ih h.2)

theorem Varies.append {xs ys ds es : List Char} (hxs : Varies xs ds) (hys : Varies ys es) :
    Varies (xs ++ ys) (ds ++ es) := by
  induction hxs with
  | nil => exact hys
  | letter hcase _ ih => exact .letter hcase ih
  | mark hmark ha hb _ ih => simpa using Varies.mark hmark ha hb ih

/-- A text in two parts varies part by part. -/
theorem Varies.split {xs ys cs : List Char} (h : Varies (xs ++ ys) cs) :
    ∃ ds es, cs = ds ++ es ∧ Varies xs ds ∧ Varies ys es := by
  induction xs generalizing cs with
  | nil => exact ⟨[], cs, rfl, .nil, h⟩
  | cons x xs ih =>
    rw [List.cons_append] at h
    cases h with
    | @letter _ d _ rest hcase hrest =>
      obtain ⟨ds, es, rfl, hds, hes⟩ := ih hrest
      exact ⟨d :: ds, es, rfl, .letter hcase hds, hes⟩
    | @mark _ a b _ rest hmark ha hb hrest =>
      obtain ⟨ds, es, rfl, hds, hes⟩ := ih hrest
      exact ⟨a ++ x :: (b ++ ds), es, by simp, .mark hmark ha hb hds, hes⟩

/-- A bracket or a comma gets blanks around it. -/
theorem Varies.mark_cons {c : Char} {xs cs : List Char} (hc : isMark c = true)
    (h : Varies (c :: xs) cs) :
    ∃ a b ys, Blanks a ∧ Blanks b ∧ Varies xs ys ∧ cs = a ++ c :: (b ++ ys) := by
  cases h with
  | @letter _ d _ ys hcase hys =>
    obtain rfl := eq_of_toUpper_eq (isAlpha_of_isMark hc) hcase
    exact ⟨[], [], ys, blanks_nil, blanks_nil, hys, rfl⟩
  | @mark _ a b _ ys hmark ha hb hys => exact ⟨a, b, ys, ha, hb, hys, rfl⟩

/-- A text with neither letters nor brackets and commas has no other variant. -/
theorem Varies.eq {xs ys : List Char} (h : Varies xs ys)
    (hxs : ∀ c ∈ xs, isMark c = false ∧ c.isAlpha = false) : ys = xs := by
  induction h with
  | nil => rfl
  | letter hcase _ ih =>
    obtain ⟨⟨-, hc⟩, hxs⟩ := List.forall_mem_cons.mp hxs
    rw [eq_of_toUpper_eq hc hcase, ih hxs]
  | mark hmark =>
    rw [(hxs _ List.mem_cons_self).1] at hmark
    cases hmark

/-- A name varies in the case of its letters. -/
theorem Varies.upper_eq {xs ys : List Char} (h : Varies xs ys)
    (hxs : ∀ c ∈ xs, isMark c = false) : upper (String.ofList ys) = upper (String.ofList xs) := by
  have hmap : ys.map Char.toUpper = xs.map Char.toUpper := by
    induction h with
    | nil => rfl
    | letter hcase _ ih =>
      rw [List.map_cons, List.map_cons, hcase, ih (List.forall_mem_cons.mp hxs).2]
    | mark hmark =>
      rw [hxs _ List.mem_cons_self] at hmark
      cases hmark
  rw [← String.toList_inj, upper, upper, String.toList_map, String.toList_map, String.toList_ofList,
    String.toList_ofList, hmap]

/-- A text in brackets varies in its inside, with blanks around both brackets. -/
theorem Varies.brackets {body cs : List Char} (h : Varies ('(' :: (body ++ [')'])) cs) :
    ∃ a b body' a' b', Blanks a ∧ Blanks b ∧ Blanks a' ∧ Blanks b' ∧ Varies body body' ∧
      cs = a ++ '(' :: ((b ++ (body' ++ a')) ++ ')' :: b') := by
  obtain ⟨a, b, inside, ha, hb, hinside, rfl⟩ := h.mark_cons rfl
  obtain ⟨body', last, rfl, hbody, hlast⟩ := hinside.split
  obtain ⟨a', b', rest, ha', hb', hrest, rfl⟩ := hlast.mark_cons rfl
  cases hrest
  exact ⟨a, b, body', a', b', ha, hb, ha', hb', hbody, by simp⟩

/-! ## Positions -/

theorem isAlpha_of_isDigit {c : Char} (h : c.isDigit = true) : c.isAlpha = false := by
  simp only [Char.isDigit, Bool.and_eq_true, decide_eq_true_eq, UInt32.le_iff_toNat_le,
    ge_iff_le] at h
  have hnine : '9'.val.toNat = 57 := rfl
  rw [Char.isAlpha, Char.isUpper, Char.isLower]
  simp only [UInt32.le_iff_toNat_le, ge_iff_le, Bool.or_eq_false_iff, Bool.and_eq_false_iff,
    decide_eq_false_iff_not]
  have hupper : 'A'.val.toNat = 65 := rfl
  have hlower : 'a'.val.toNat = 97 := rfl
  omega

/-- The text of a finite number has no letters and no brackets and commas. -/
theorem fixed_of_mem_text {x : Float} (hx : x.isFinite = true) {c : Char}
    (hc : c ∈ (Number.text x).toList) : isMark c = false ∧ c.isAlpha = false := by
  have hlow := (unbroken_text x c hc).1
  refine ⟨?_, ?_⟩
  · have hne : ∀ d : Char, d.toNat < 45 → (c == d) = false := by
      intro d hd
      exact beq_eq_false_iff_ne.mpr ((unbroken_text x c hc).ne hd)
    rw [isMark, hne _ (by decide), hne _ (by decide), hne _ (by decide)]
    rfl
  · rcases mem_text_of_isFinite hx hc with rfl | rfl | hdigit
    · decide
    · decide
    · exact isAlpha_of_isDigit hdigit

theorem ReadsBack.isFinite {x : Float} (h : ReadsBack x) : x.isFinite = true :=
  (Option.filter_eq_some_iff.mp h).2

theorem ReadsBack.solid {x : Float} (h : ReadsBack x) : Solid (Number.text x).toList := by
  obtain ⟨hne, hblank⟩ := ReadsAs.isWord h
  exact ⟨by simpa using hne, hblank⟩

theorem toList_position (c : Coordinate) :
    c.position.toList = (Number.text c.lon).toList ++ ' ' :: (Number.text c.lat).toList := by
  simp [Coordinate.position, String.toList_append]

/-- The text of a position is a position, also with blanks around it. -/
theorem position_of_legible {c : Coordinate} (h : Legible c) {a b : List Char} (ha : Blanks a)
    (hb : Blanks b) : Position (a ++ (c.position.toList ++ b)) c [] := by
  obtain ⟨hlat, hlon⟩ := h
  have hspaced : Spaced [(Number.text c.lon).toList, (Number.text c.lat).toList]
      (a ++ ((Number.text c.lon).toList ++ ' ' :: ([] ++ ((Number.text c.lat).toList ++ b)))) :=
    .cons ha hlon.solid rfl (.last blanks_nil hlat.solid hb)
  have hnumeral : ∀ {x : Float}, ReadsBack x → Numeral (Number.text x).toList x := by
    intro x hx
    rw [Numeral, String.ofList_toList]
    exact hx
  refine ⟨_, _, ?_, hnumeral hlon, hnumeral hlat, Nat.zero_le 1, List.forall_mem_nil _⟩
  simpa [toList_position] using hspaced

theorem fixed_of_mem_position {c : Coordinate} (h : Legible c) :
    ∀ d ∈ c.position.toList, isMark d = false ∧ d.isAlpha = false := by
  intro d hd
  rw [toList_position, List.mem_append, List.mem_cons] at hd
  rcases hd with hd | rfl | hd
  · exact fixed_of_mem_text h.2.isFinite hd
  · decide
  · exact fixed_of_mem_text h.1.isFinite hd

theorem toList_positionsText_cons_cons (c d : Coordinate) (cs : List Coordinate) :
    (positionsText (c :: d :: cs)).toList =
      c.position.toList ++ ',' :: ([' '] ++ (positionsText (d :: cs)).toList) := by
  simp [positionsText, String.toList_intercalate]

/-- A variant of the text of positions is these positions, also with blanks around it. -/
theorem Varies.positions {c : Coordinate} {cs : List Coordinate} {ys : List Char}
    (h : Varies (positionsText (c :: cs)).toList ys) (hlegible : ∀ d ∈ c :: cs, Legible d)
    {a b : List Char} (ha : Blanks a) (hb : Blanks b) :
    Positions (a ++ (ys ++ b)) (c :: cs) [] := by
  induction cs generalizing c ys a with
  | nil =>
    obtain ⟨hc, -⟩ := List.forall_mem_cons.mp hlegible
    have htext : (positionsText [c]).toList = c.position.toList := by
      simp [positionsText]
    rw [htext] at h
    rw [h.eq (fixed_of_mem_position hc)]
    exact .last (position_of_legible hc ha hb)
  | cons d cs ih =>
    obtain ⟨hc, hlegible⟩ := List.forall_mem_cons.mp hlegible
    rw [toList_positionsText_cons_cons] at h
    obtain ⟨front, rest, rfl, hfront, hrest⟩ := h.split
    obtain rfl := hfront.eq (fixed_of_mem_position hc)
    obtain ⟨a', b', inside, ha', hb', hinside, rfl⟩ := hrest.mark_cons rfl
    obtain ⟨space, ds, rfl, hspace, hds⟩ := hinside.split
    obtain rfl := hspace.eq (List.forall_mem_singleton.mpr (by decide))
    have hblank : Blanks (b' ++ [' ']) := hb'.append (by decide)
    have hpositions := Positions.cons (position_of_legible hc ha ha') (ih hds hlegible hblank)
    simpa using hpositions

/-! ## Geometries -/

/-- A variant of a framed text is framed by the same name. -/
theorem Varies.framed {name : String} (hname : IsName name) (hupper : upper name = name)
    {body cs : List Char}
    (h : Varies (name.toList ++ '(' :: (body ++ [')'])) cs) {a b : List Char} (ha : Blanks a)
    (hb : Blanks b) :
    ∃ a' body' b', Blanks a' ∧ Blanks b' ∧ Varies body body' ∧
      Framed name (a ++ (cs ++ b)) (a' ++ (body' ++ b')) := by
  obtain ⟨keyword, rest, rfl, hkeyword, hrest⟩ := h.split
  obtain ⟨c, a', body', b', d, hc, ha', hb', hd, hbody, rfl⟩ := hrest.brackets
  have hmarks : ∀ c ∈ name.toList, isMark c = false := fun c hc =>
    isMark_of_le (hname.2 c hc).1
  refine ⟨a', body', b', ha', hb', hbody, a, keyword, c, d ++ b, ha, hc, hd.append hb, ?_, by simp⟩
  rw [hkeyword.upper_eq hmarks, String.ofList_toList, hupper]

/-- A variant of the text of a geometry spells the geometry, without heights. -/
theorem Varies.spells {g : Geometry} (hcomplete : g.Complete)
    (hlegible : ∀ c ∈ g.positions, Legible c) {cs : List Char} (h : Varies g.text.toList cs)
    {a b : List Char} (ha : Blanks a) (hb : Blanks b) :
    ∃ after, Spells (a ++ (cs ++ b)) g [] after := by
  cases g with
  | point c =>
    rw [text, toList_pointText] at h
    obtain ⟨a', body, b', ha', hb', hbody, hframed⟩ :=
      h.framed (by decide) (by decide +kernel) ha hb
    exact ⟨[], .point hframed (hbody.positions hlegible ha' hb')⟩
  | lineString first rest =>
    rw [text, toList_lineText] at h
    obtain ⟨a', body, b', ha', hb', hbody, hframed⟩ :=
      h.framed (by decide) (by decide +kernel) ha hb
    have hlength : 1 ≤ rest.length := hcomplete
    rcases rest with _ | ⟨second, rest⟩
    · simp at hlength
    · exact ⟨[], .lineString hframed (hbody.positions hlegible ha' hb')⟩
  | polygon first rest =>
    rw [text, toList_polygonText] at h
    obtain ⟨a', body, b', ha', hb', hbody, hframed⟩ :=
      h.framed (by decide) (by decide +kernel) ha hb
    obtain ⟨c, d, ring, c', d', hc, hd, hc', hd', hring, rfl⟩ := hbody.brackets
    have hbodies : a' ++ (c ++ '(' :: ((d ++ (ring ++ c')) ++ ')' :: d') ++ b') =
        (a' ++ c) ++ '(' :: ((d ++ (ring ++ c')) ++ ')' :: (d' ++ b')) := by
      simp
    have hpositions := hring.positions hlegible hd hc'
    rw [hbodies] at hframed
    have hlength : 3 ≤ rest.length := hcomplete
    rcases rest with _ | ⟨second, _ | ⟨third, _ | ⟨fourth, rest⟩⟩⟩
    · simp at hlength
    · simp at hlength
    · simp at hlength
    · exact ⟨d' ++ b', .polygon hframed (ha'.append hc) hpositions.isInner hpositions⟩

/--
The text of a geometry whose numbers come back from their texts is read as the geometry, and so is
every variant of it.
-/
theorem parse_variant {g : Geometry} (hcomplete : g.Complete)
    (hlegible : ∀ c ∈ g.positions, Legible c) :
    parse g.text = .ok g ∧ ∀ t, Variant g.text t → parse t = .ok g := by
  refine ⟨parse_text hcomplete hlegible, ?_⟩
  rintro t ⟨a, cs, b, ha, hvaries, hb, ht⟩
  obtain ⟨after, hspells⟩ := hvaries.spells hcomplete hlegible ha hb
  rw [← ht] at hspells
  exact hspells.parse_eq

/-! ## A variant -/

def track : Geometry := .lineString ⟨2.5, -1.0⟩ [⟨0.5, 3.0⟩]

def trackText : String := " LineString ( -1 2.5 ,\t 3 0.5 )\n"

theorem variant_trackText : Variant track.text trackText := by
  have htext : track.text.toList = "LINESTRING".toList ++
      '(' :: ("-1 2.5".toList ++ ',' :: (" 3 0.5".toList ++ [')'])) := by
    decide +kernel
  have hvariant : trackText.toList = [' '] ++ (("LineString".toList ++ ([' '] ++ '(' :: ([' '] ++
      ("-1 2.5".toList ++ ([' '] ++ ',' :: (['\t'] ++ (" 3 0.5".toList ++
        ([' '] ++ ')' :: ([] ++ []))))))))) ++ ['\n']) := by
    decide +kernel
  have hkeyword : Varies "LINESTRING".toList "LineString".toList :=
    varies_of_map_toUpper (by decide +kernel)
  have hspace : Blanks [' '] := by decide
  refine ⟨[' '], _, ['\n'], hspace, ?_, by decide, hvariant⟩
  rw [htext]
  refine hkeyword.append (.mark rfl hspace hspace ?_)
  refine (varies_of_map_toUpper rfl).append (.mark rfl hspace (by decide) ?_)
  exact (varies_of_map_toUpper rfl).append (.mark rfl hspace blanks_nil .nil)

theorem parse_variant_track : parse track.text = .ok track ∧ parse trackText = .ok track := by
  have hcomplete : track.Complete := Nat.le_refl 1
  have hlegible : ∀ c ∈ track.positions, Legible c := by decide +kernel
  obtain ⟨htext, hvariants⟩ := parse_variant hcomplete hlegible
  exact ⟨htext, hvariants trackText variant_trackText⟩

end Catalogue.Geometry
