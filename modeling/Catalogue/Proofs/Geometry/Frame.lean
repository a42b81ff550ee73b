import Catalogue.Geometry.Wkt
import Catalogue.Proofs.Number.Notation
import Catalogue.Proofs.Text.Layout

/-!
# Keywords and brackets

How the text of a geometry is taken apart: into a keyword and a bracketed body, and the body of a
polygon into its first ring and what follows.

* `Framed` — a name in any letter case and a bracketed body.
* `framed_iff` — the name and the body that are taken from a text.
* `firstRing?_eq_some_iff` — the first ring of a polygon's body.
* `parse_point`, `parse_lineString`, `parse_polygon` — the name decides how the body is read.
-/

namespace Catalogue.Geometry

open Catalogue.Lists Catalogue.Number Catalogue.Text

/-! ## Keywords -/

theorem isBlank_of_isKeywordLetter {c : Char} (h : isKeywordLetter c = true) :
    isBlank c = false := by
  have hletter : ∀ {a z : Char}, 45 ≤ a.toNat → z.toNat ≤ 122 → a ≤ c → c ≤ z → InNumber c := by
    intro a z ha hz hac hcz
    have hlow : a.toNat ≤ c.toNat := hac
    have hhigh : c.toNat ≤ z.toNat := hcz
    exact ⟨ha.trans hlow, hhigh.trans hz⟩
  simp only [isKeywordLetter, Bool.or_eq_true, Bool.and_eq_true, decide_eq_true_eq,
    beq_iff_eq] at h
  rcases h with ((⟨hlow, hhigh⟩ | ⟨hlow, hhigh⟩) | rfl) | rfl
  · exact (hletter (by decide) (by decide) hlow hhigh).isBlank
  · exact (hletter (by decide) (by decide) hlow hhigh).isBlank
  · decide
  · decide

/-- A letter in either case may stand in a keyword. -/
theorem isKeywordLetter_of_toUpper {c : Char} (h : 'A' ≤ c.toUpper ∧ c.toUpper ≤ 'Z') :
    isKeywordLetter c = true := by
  unfold Char.toUpper at h
  split at h
  · next hlower =>
    have hletter : 'a' ≤ c ∧ c ≤ 'z' := hlower
    simp [isKeywordLetter, hletter]
  · simp [isKeywordLetter, h]

/-- Letters of ASCII in upper case, at least one. -/
def IsName (name : String) : Prop := name ≠ "" ∧ ∀ c ∈ name.toList, 'A' ≤ c ∧ c ≤ 'Z'

instance : DecidablePred IsName := fun name =>
  @instDecidableAnd _ _ instDecidableNot
    (List.decidableBAll (fun c => 'A' ≤ c ∧ c ≤ 'Z') name.toList)

/-- A name in any letter case is read as a keyword. -/
theorem IsName.isKeywordLetter {keyword : List Char}
    (h : IsName (upper (String.ofList keyword))) :
    keyword ≠ [] ∧ ∀ c ∈ keyword, isKeywordLetter c = true := by
  refine ⟨?_, fun c hc => isKeywordLetter_of_toUpper (h.2 _ ?_)⟩
  · rintro rfl
    exact h.1 (by decide +kernel)
  · rw [upper, String.toList_map, String.toList_ofList]
    exact List.mem_map_of_mem hc

/-! ## Frames -/

theorem closed?_eq_some_iff {cs body : List Char} :
    closed? cs = some body ↔ ∃ b, Blanks b ∧ cs = body ++ ')' :: b := by
  have hconcat : closed? cs = some body ↔ trimEnd cs = body ++ [')'] := by
    unfold closed?
    split
    · next h =>
      obtain ⟨front, hfront⟩ := List.getLast?_eq_some_iff.mp h
      rw [hfront]
      simp
    · next h =>
      refine iff_of_false (by simp) fun heq => ?_
      exact h (by rw [heq, List.getLast?_concat])
  rw [hconcat, trimEnd_eq_concat_iff]
  exact and_iff_right (by decide)

/-- A keyword with a bracketed body is taken apart, with blanks around the keyword and at the
end. -/
theorem framed?_append {a keyword b body d : List Char} (ha : Blanks a) (hne : keyword ≠ [])
    (hkeyword : ∀ c ∈ keyword, isKeywordLetter c = true) (hb : Blanks b) (hd : Blanks d) :
    framed? (a ++ (keyword ++ (b ++ '(' :: (body ++ ')' :: d)))) = some (keyword, body) := by
  have hblank : ∀ c, isBlank c = true → isKeywordLetter c = false := by
    intro c hc
    by_contra hletter
    rw [isBlank_of_isKeywordLetter (Bool.not_eq_false _ ▸ hletter)] at hc
    cases hc
  -- the keyword ends at a blank or at the bracket
  obtain ⟨next, rest, hnext, hrest⟩ : ∃ next rest, isKeywordLetter next = false ∧
      b ++ '(' :: (body ++ ')' :: d) = next :: rest := by
    cases b with
    | nil => exact ⟨'(', _, by decide, rfl⟩
    | cons c b => exact ⟨c, _, hblank c (hb c List.mem_cons_self), rfl⟩
  have hstart : trimStart (a ++ (keyword ++ next :: rest)) = keyword ++ next :: rest := by
    obtain ⟨c, letters, rfl⟩ := List.exists_cons_of_ne_nil hne
    have hc := isBlank_of_isKeywordLetter (hkeyword c List.mem_cons_self)
    exact trimStart_eq_cons_iff.mpr ⟨hc, a, ha, rfl⟩
  have htake : (keyword ++ next :: rest).takeWhile isKeywordLetter = keyword :=
    takeWhile_append_cons hkeyword hnext
  have hdrop : (keyword ++ next :: rest).dropWhile isKeywordLetter = next :: rest :=
    dropWhile_eq_cons_iff.mpr ⟨hnext, keyword, hkeyword, rfl⟩
  have hbracket : trimStart (next :: rest) = '(' :: (body ++ ')' :: d) :=
    trimStart_eq_cons_iff.mpr ⟨by decide, b, hb, hrest.symm⟩
  have hclosed : closed? (body ++ ')' :: d) = some body := closed?_eq_some_iff.mpr ⟨d, hd, rfl⟩
  rw [hrest]
  simp [framed?, hstart, htake, hdrop, hbracket, hclosed, hne]

theorem framed?_eq_some_iff {cs keyword body : List Char} :
    framed? cs = some (keyword, body) ↔
      keyword ≠ [] ∧ (∀ c ∈ keyword, isKeywordLetter c = true) ∧
        ∃ a b d, Blanks a ∧ Blanks b ∧ Blanks d ∧
          cs = a ++ (keyword ++ (b ++ '(' :: (body ++ ')' :: d))) := by
  constructor
  · intro h
    unfold framed? at h
    dsimp only at h
    split at h
    · cases h
    · next hne =>
      split at h
      · next rest hbracket =>
        obtain ⟨closed, hclosed, heq⟩ := Option.map_eq_some_iff.mp h
        obtain ⟨rfl, rfl⟩ := Prod.mk.inj heq
        obtain ⟨d, hd, rfl⟩ := closed?_eq_some_iff.mp hclosed
        obtain ⟨-, b, hb, hrest⟩ := trimStart_eq_cons_iff.mp hbracket
        refine ⟨by simpa using hne, fun c hc => List.mem_takeWhile_imp hc, cs.takeWhile isBlank,
          b, d, fun c hc => List.mem_takeWhile_imp hc, hb, hd, ?_⟩
        rw [← hrest, List.takeWhile_append_dropWhile, trimStart, List.takeWhile_append_dropWhile]
      · cases h
  · rintro ⟨hne, hkeyword, a, b, d, ha, hb, hd, rfl⟩
    exact framed?_append ha hne hkeyword hb hd

/-- A name in any letter case and a bracketed body, with blanks around the name and at the end. -/
def Framed (name : String) (cs body : List Char) : Prop :=
  ∃ a keyword b d, Blanks a ∧ Blanks b ∧ Blanks d ∧ upper (String.ofList keyword) = name ∧
    cs = a ++ (keyword ++ (b ++ '(' :: (body ++ ')' :: d)))

theorem framed_iff {name : String} (hname : IsName name) {cs body : List Char} :
    Framed name cs body ↔
      ∃ keyword, framed? cs = some (keyword, body) ∧ upper (String.ofList keyword) = name := by
  constructor
  · rintro ⟨a, keyword, b, d, ha, hb, hd, rfl, rfl⟩
    obtain ⟨hne, hkeyword⟩ := hname.isKeywordLetter
    exact ⟨keyword, framed?_append ha hne hkeyword hb hd, rfl⟩
  · rintro ⟨keyword, hframed, hupper⟩
    obtain ⟨-, -, a, b, d, ha, hb, hd, hcs⟩ := framed?_eq_some_iff.mp hframed
    exact ⟨a, keyword, b, d, ha, hb, hd, hupper, hcs⟩

/-! ## Rings -/

/-- A character that is no bracket. -/
def IsInner (c : Char) : Prop := c ≠ '(' ∧ c ≠ ')'

instance : DecidablePred IsInner := fun c => inferInstanceAs (Decidable (c ≠ '(' ∧ c ≠ ')'))

/-- The first ring reaches from the first bracket to the next one, whatever follows. -/
theorem firstRing?_eq_some_iff {body ring : List Char} :
    firstRing? body = some ring ↔
      (∀ c ∈ ring, IsInner c) ∧ ∃ a rest, Blanks a ∧ body = a ++ '(' :: (ring ++ ')' :: rest) := by
  have hinner : ∀ {cs : List Char}, (∀ c ∈ cs, IsInner c) ↔
      ∀ c ∈ cs, (c != '(' && c != ')') = true := by
    intro cs
    simp [IsInner]
  constructor
  · intro h
    unfold firstRing? at h
    split at h
    · next inside hbracket =>
      obtain ⟨-, a, ha, rfl⟩ := trimStart_eq_cons_iff.mp hbracket
      split at h
      · next rest hdrop =>
        obtain rfl := Option.some.inj h
        refine ⟨fun c hc => ?_, a, rest, ha, ?_⟩
        · have hclass := List.mem_takeWhile_imp hc
          simpa [IsInner] using hclass
        · rw [← hdrop, List.takeWhile_append_dropWhile]
      · cases h
    · cases h
  · rintro ⟨hring, a, rest, ha, rfl⟩
    have hbracket : trimStart (a ++ '(' :: (ring ++ ')' :: rest)) = '(' :: (ring ++ ')' :: rest) :=
      trimStart_eq_cons_iff.mpr ⟨by decide, a, ha, rfl⟩
    have hdrop : (ring ++ ')' :: rest).dropWhile (fun c => c != '(' && c != ')') = ')' :: rest :=
      dropWhile_eq_cons_iff.mpr ⟨by decide, ring, hinner.mp hring, rfl⟩
    have htake : (ring ++ ')' :: rest).takeWhile (fun c => c != '(' && c != ')') = ring :=
      takeWhile_append_cons (hinner.mp hring) (by decide)
    simp only [firstRing?, hbracket, hdrop, htake]

/-! ## Bodies -/

section Bodies

variable {s : String} {body : List Char}

theorem parse_point (h : Framed "POINT" s.toList body) : parse s = ofPointBody body := by
  obtain ⟨keyword, hframed, hupper⟩ := (framed_iff (by decide)).mp h
  simp only [parse, hframed, hupper]

theorem parse_lineString (h : Framed "LINESTRING" s.toList body) : parse s = ofLineBody body := by
  obtain ⟨keyword, hframed, hupper⟩ := (framed_iff (by decide)).mp h
  simp only [parse, hframed, hupper]

theorem parse_polygon (h : Framed "POLYGON" s.toList body) {ring : List Char}
    (hring : firstRing? body = some ring) : parse s = ofRingBody ring := by
  obtain ⟨keyword, hframed, hupper⟩ := (framed_iff (by decide)).mp h
  simp only [parse, hframed, hupper, hring]

end Bodies

end Catalogue.Geometry
