import Catalogue.Proofs.Lists.Parts
import Catalogue.Proofs.Text.Words

/-!
# The layout of texts

What trimming and cutting find in a text, told by how the text is put together.

* `trimStart_eq_cons_iff`, `trimEnd_eq_concat_iff` — the first and the last character that is no
  blank.
* `Spaced` — words with blanks between neighbours and perhaps around them.
* `Spaced.wordChars_eq`, `spaced_wordChars` — the words of a text are the ones that it is spaced
  into.
-/

namespace Catalogue.Text

open Catalogue.Lists

/-! ## Blanks -/

/-- Characters that are all blank. -/
def Blanks (cs : List Char) : Prop := ∀ c ∈ cs, isBlank c = true

instance : DecidablePred Blanks := fun cs => List.decidableBAll (isBlank · = true) cs

theorem blanks_nil : Blanks [] := List.forall_mem_nil _

theorem Blanks.append {a b : List Char} (ha : Blanks a) (hb : Blanks b) : Blanks (a ++ b) :=
  List.forall_mem_append.mpr ⟨ha, hb⟩

theorem trimStart_eq_cons_iff {cs rest : List Char} {c : Char} :
    trimStart cs = c :: rest ↔ isBlank c = false ∧ ∃ a, Blanks a ∧ cs = a ++ c :: rest :=
  dropWhile_eq_cons_iff

/-- The last character that is no blank stands in front of blanks. -/
theorem trimEnd_eq_concat_iff {cs front : List Char} {c : Char} :
    trimEnd cs = front ++ [c] ↔ isBlank c = false ∧ ∃ b, Blanks b ∧ cs = front ++ c :: b := by
  have hreverse :
      trimEnd cs = front ++ [c] ↔ cs.reverse.dropWhile isBlank = c :: front.reverse := by
    rw [trimEnd, List.reverse_eq_iff, List.reverse_append, List.reverse_singleton,
      List.singleton_append]
  rw [hreverse, dropWhile_eq_cons_iff]
  refine and_congr_right fun hc => ⟨?_, ?_⟩
  · rintro ⟨b, hb, h⟩
    refine ⟨b.reverse, fun x hx => hb x (List.mem_reverse.mp hx), ?_⟩
    rw [List.reverse_eq_iff] at h
    simpa using h
  · rintro ⟨b, hb, rfl⟩
    exact ⟨b.reverse, fun x hx => hb x (List.mem_reverse.mp hx), by simp⟩

/-! ## Words -/

/-- Characters in a row that are not blank. -/
def Solid (w : List Char) : Prop := w ≠ [] ∧ ∀ c ∈ w, isBlank c = false

theorem Solid.isWord {w : List Char} (hw : Solid w) : IsWord (String.ofList w) := by
  refine ⟨fun hempty => hw.1 ?_, by simpa using hw.2⟩
  simpa using congrArg String.toList hempty

/-- The words with blanks between neighbours, and perhaps in front of and behind all of them. -/
inductive Spaced : List (List Char) → List Char → Prop
  | nil {a : List Char} : Blanks a → Spaced [] a
  | last {a w b : List Char} : Blanks a → Solid w → Blanks b → Spaced [w] (a ++ (w ++ b))
  | cons {a w v rest : List Char} {ws : List (List Char)} {sep : Char} :
    Blanks a → Solid w → isBlank sep = true → Spaced (v :: ws) rest →
      Spaced (w :: v :: ws) (a ++ (w ++ sep :: rest))

theorem Spaced.solid {ws : List (List Char)} {cs : List Char} (h : Spaced ws cs) :
    ∀ w ∈ ws, Solid w := by
  induction h with
  | nil ha => exact List.forall_mem_nil _
  | last ha hw hb => exact List.forall_mem_singleton.mpr hw
  | cons ha hw hsep _ ih => exact List.forall_mem_cons.mpr ⟨hw, ih⟩

/-- Every character that is no blank stands in one of the words. -/
theorem Spaced.mem_iff {ws : List (List Char)} {cs : List Char} (h : Spaced ws cs) {c : Char}
    (hc : isBlank c = false) : c ∈ cs ↔ ∃ w ∈ ws, c ∈ w := by
  have hblanks : ∀ {a : List Char}, Blanks a → c ∉ a := by
    intro a ha hmem
    rw [ha c hmem] at hc
    cases hc
  induction h with
  | nil ha => simp [hblanks ha]
  | last ha hw hb => simp [hblanks ha, hblanks hb]
  | @cons a w v rest ws sep ha hw hsep hrest ih =>
    have hne : c ≠ sep := by
      rintro rfl
      rw [hsep] at hc
      cases hc
    simp [hblanks ha, hne, ih]

/-- Blanks in front belong to no word. -/
theorem wordChars_blanks_append {a : List Char} (ha : Blanks a) (rest : List Char) :
    wordChars (a ++ rest) = wordChars rest := by
  induction a with
  | nil => rfl
  | cons c a ih =>
    obtain ⟨hc, ha⟩ := List.forall_mem_cons.mp ha
    rw [List.cons_append, wordChars_blank_cons hc, ih ha]

theorem wordChars_blanks {a : List Char} (ha : Blanks a) : wordChars a = [] := by
  rw [← List.append_nil a, wordChars_blanks_append ha]
  rfl

theorem wordChars_solid {w : List Char} (hw : Solid w) : wordChars w = [w] := by
  rw [wordChars, fields_of_forall hw.2, List.filter_cons_of_pos (by simp [hw.1])]
  rfl

/-- A word ends at the first blank behind it. -/
theorem wordChars_solid_append {w : List Char} (hw : Solid w) {sep : Char}
    (hsep : isBlank sep = true) (rest : List Char) :
    wordChars (w ++ sep :: rest) = w :: wordChars rest := by
  rw [wordChars, fields_append_cons hw.2 hsep, List.filter_cons_of_pos (by simp [hw.1])]
  rfl

theorem Spaced.wordChars_eq {ws : List (List Char)} {cs : List Char} (h : Spaced ws cs) :
    wordChars cs = ws := by
  induction h with
  | nil ha => exact wordChars_blanks ha
  | @last a w b ha hw hb =>
    rw [wordChars_blanks_append ha]
    cases b with
    | nil => rw [List.append_nil, wordChars_solid hw]
    | cons sep b =>
      obtain ⟨hsep, hb⟩ := List.forall_mem_cons.mp hb
      rw [wordChars_solid_append hw hsep, wordChars_blanks hb]
  | cons ha hw hsep _ ih => rw [wordChars_blanks_append ha, wordChars_solid_append hw hsep, ih]

/-- A blank in front leaves the words as they are. -/
theorem Spaced.blank_cons {ws : List (List Char)} {cs : List Char} (h : Spaced ws cs) {c : Char}
    (hc : isBlank c = true) : Spaced ws (c :: cs) := by
  have hcons : ∀ {a : List Char}, Blanks a → Blanks (c :: a) := fun ha =>
    List.forall_mem_cons.mpr ⟨hc, ha⟩
  cases h with
  | nil ha => exact .nil (hcons ha)
  | last ha hw hb => exact .last (hcons ha) hw hb
  | cons ha hw hsep hrest => exact .cons (hcons ha) hw hsep hrest

theorem spaced_wordChars (cs : List Char) : Spaced (wordChars cs) cs := by
  induction cs using pieces_induction (p := isBlank) with
  | last f hf =>
    by_cases hempty : f = []
    · subst hempty
      exact .nil blanks_nil
    · have hsolid : Solid f := ⟨hempty, hf⟩
      rw [wordChars_solid hsolid]
      simpa using Spaced.last blanks_nil hsolid blanks_nil
  | more f sep rest hf hsep ih =>
    by_cases hempty : f = []
    · subst hempty
      rw [List.nil_append, wordChars_blank_cons hsep]
      exact ih.blank_cons hsep
    · have hsolid : Solid f := ⟨hempty, hf⟩
      rw [wordChars_solid_append hsolid hsep]
      cases hwords : wordChars rest with
      | nil =>
        rw [hwords] at ih
        cases ih with
        | nil hrest => exact .last blanks_nil hsolid (List.forall_mem_cons.mpr ⟨hsep, hrest⟩)
      | cons v ws =>
        rw [hwords] at ih
        exact .cons blanks_nil hsolid hsep ih

end Catalogue.Text
