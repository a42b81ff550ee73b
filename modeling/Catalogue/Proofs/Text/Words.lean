import Catalogue.Text.Blank
import Mathlib.Data.List.DropRight

/-!
# Words and texts

Words are what a text is cut into at its blanks, and cutting at blanks undoes writing words with
spaces between them.

* `isWord_of_mem_words` — the words of a text are words.
* `words_unwords` — the words of words written out are the same words.
-/

namespace Catalogue.Text

/-! ## Cutting -/

section Fields

variable {p : Char → Bool}

theorem fields_of_forall {cs : List Char} (h : ∀ c ∈ cs, p c = false) : fields p cs = [cs] := by
  induction cs with
  | nil => rfl
  | cons c rest ih =>
    rw [fields, h c List.mem_cons_self, ih fun d hd => h d (List.mem_cons_of_mem _ hd)]
    rfl

/-- The first cut is made at the first character of the class. -/
theorem fields_append_cons {cs : List Char} (h : ∀ c ∈ cs, p c = false) {c : Char}
    (hc : p c = true) (rest : List Char) : fields p (cs ++ c :: rest) = cs :: fields p rest := by
  induction cs with
  | nil => rw [List.nil_append, fields, if_pos hc]
  | cons d cs ih =>
    rw [List.cons_append, fields, h d List.mem_cons_self,
      ih fun e he => h e (List.mem_cons_of_mem _ he)]
    rfl

/-- No piece has a character of the class. -/
theorem not_of_mem_fields {cs f : List Char} (hf : f ∈ fields p cs) : ∀ c ∈ f, p c = false := by
  induction cs generalizing f with
  | nil =>
    rw [fields, List.mem_singleton] at hf
    rw [hf]
    exact fun c hc => absurd hc List.not_mem_nil
  | cons d rest ih =>
    rw [fields] at hf
    split at hf
    · rcases List.mem_cons.mp hf with rfl | hf
      · exact fun c hc => absurd hc List.not_mem_nil
      · exact ih hf
    · next hd =>
      split at hf
      · next hnil => exact absurd hnil (fields_ne_nil p rest)
      · next first others hcons =>
        rcases List.mem_cons.mp hf with rfl | hf
        · intro c hc
          rcases List.mem_cons.mp hc with rfl | hc
          · simpa using hd
          · exact ih (by rw [hcons]; exact List.mem_cons_self) c hc
        · exact ih (by rw [hcons]; exact List.mem_cons_of_mem _ hf)

/-- Characters outside the class go to the first piece. -/
theorem fields_append_of_forall {cs rest f : List Char} {fs : List (List Char)}
    (h : ∀ c ∈ cs, p c = false) (hrest : fields p rest = f :: fs) :
    fields p (cs ++ rest) = (cs ++ f) :: fs := by
  induction cs with
  | nil => exact hrest
  | cons c cs ih =>
    obtain ⟨hc, hcs⟩ := List.forall_mem_cons.mp h
    rw [List.cons_append, fields, hc, ih hcs]
    rfl

/-- Cutting at a separator leaves what is written after it at the front of the next piece. -/
theorem fields_intercalate_cons {sep : Char} {pad : List Char} (hsep : p sep = true)
    (hpad : ∀ c ∈ pad, p c = false) {f : List Char} {fs : List (List Char)}
    (h : ∀ g ∈ f :: fs, ∀ c ∈ g, p c = false) :
    fields p (List.intercalate (sep :: pad) (f :: fs)) = f :: fs.map (pad ++ ·) := by
  induction fs generalizing f with
  | nil =>
    rw [List.intercalate_singleton]
    exact fields_of_forall (h f List.mem_cons_self)
  | cons g gs ih =>
    obtain ⟨hf, hgs⟩ := List.forall_mem_cons.mp h
    rw [List.intercalate_cons_cons, List.append_assoc, List.cons_append,
      fields_append_cons hf hsep, fields_append_of_forall hpad (ih hgs), List.map_cons]

/-- Cutting undoes writing pieces with a separator between them. -/
theorem fields_intercalate {sep : Char} (hsep : p sep = true) {fs : List (List Char)}
    (hne : fs ≠ []) (h : ∀ f ∈ fs, ∀ c ∈ f, p c = false) :
    fields p (List.intercalate [sep] fs) = fs := by
  cases fs with
  | nil => exact absurd rfl hne
  | cons f fs =>
    have hpieces := fields_intercalate_cons hsep (List.forall_mem_nil fun c => p c = false) h
    simpa using hpieces

end Fields

/-! ## Words -/

/-- A text that is not empty and has no blanks. -/
def IsWord (s : String) : Prop := s ≠ "" ∧ ∀ c ∈ s.toList, isBlank c = false

/-- The words of a text are words. -/
theorem isWord_of_mem_words {s w : String} (h : w ∈ words s) : IsWord w := by
  obtain ⟨cs, hcs, rfl⟩ := List.mem_map.mp h
  obtain ⟨hmem, hne⟩ := List.mem_filter.mp hcs
  refine ⟨fun hempty => ?_, ?_⟩
  · have : cs = [] := by simpa using congrArg String.toList hempty
    simp [this] at hne
  · rw [String.toList_ofList]
    exact not_of_mem_fields hmem

/-- The words of words written out are the same words. -/
theorem words_unwords {ws : List String} (h : ∀ w ∈ ws, IsWord w) : words (unwords ws) = ws := by
  cases ws with
  | nil => rfl
  | cons w rest =>
    have hfields : fields isBlank (unwords (w :: rest)).toList = (w :: rest).map String.toList := by
      rw [unwords, String.toList_intercalate]
      refine fields_intercalate rfl (by simp) fun f hf => ?_
      obtain ⟨v, hv, rfl⟩ := List.mem_map.mp hf
      exact (h v hv).2
    have hkept : ((w :: rest).map String.toList).filter (fun f => !f.isEmpty) =
        (w :: rest).map String.toList := by
      refine List.filter_eq_self.mpr fun f hf => ?_
      obtain ⟨v, hv, rfl⟩ := List.mem_map.mp hf
      simpa using (h v hv).1
    rw [words, wordChars, hfields, hkept, List.map_map]
    simp

/-- A word is the only word of itself. -/
theorem words_of_isWord {w : String} (h : IsWord w) : words w = [w] := by
  have hself : unwords [w] = w := by simp [unwords]
  calc words w = words (unwords [w]) := by rw [hself]
    _ = [w] := words_unwords fun v hv => by rwa [List.mem_singleton.mp hv]

/-- A blank in front of a text belongs to no word. -/
theorem wordChars_blank_cons {c : Char} (hc : isBlank c = true) (rest : List Char) :
    wordChars (c :: rest) = wordChars rest := by
  rw [wordChars, fields, if_pos hc, List.filter_cons_of_neg (by simp)]
  rfl

theorem words_blank_append (s : String) : words (" " ++ s) = words s := by
  rw [words, String.toList_append]
  show (wordChars (' ' :: s.toList)).map String.ofList = _
  rw [wordChars_blank_cons rfl]
  rfl

/-- Nothing is trimmed from a word. -/
theorem trim_of_isWord {w : String} (h : IsWord w) : trim w = w := by
  have hkeep : ∀ cs : List Char, (∀ c ∈ cs, isBlank c = false) → cs.dropWhile isBlank = cs := by
    intro cs hcs
    cases cs with
    | nil => rfl
    | cons c rest => exact List.dropWhile_cons_of_neg (by simp [hcs c List.mem_cons_self])
  rw [trim, trimChars, trimStart, hkeep _ h.2, trimEnd, hkeep _ fun c hc =>
    h.2 c (List.mem_reverse.mp hc), List.reverse_reverse, String.ofList_toList]

/-- Blanks that are dropped at the end uncover none in front. -/
theorem trimStart_trimEnd {cs : List Char} (h : trimStart cs = cs) :
    trimStart (trimEnd cs) = trimEnd cs := by
  obtain ⟨dropped, hcs⟩ : trimEnd cs <+: cs := List.rdropWhile_prefix isBlank cs
  cases hkept : trimEnd cs with
  | nil => rfl
  | cons c rest =>
    rw [hkept] at hcs
    have hblank : isBlank c = false := by
      by_contra hc
      rw [trimStart, ← hcs, List.cons_append,
        List.dropWhile_cons_of_pos (Bool.not_eq_false _ ▸ hc)] at h
      have hlength := congrArg List.length h
      have hle := (List.dropWhile_suffix isBlank (l := rest ++ dropped)).length_le
      simp only [List.length_cons] at hlength
      omega
    exact List.dropWhile_cons_of_neg (by simp [hblank])

/-- A trimmed text has nothing to trim. -/
theorem trim_trim (s : String) : trim (trim s) = trim s := by
  have hstart : trimStart (trimStart s.toList) = trimStart s.toList := by
    rw [trimStart, trimStart, List.dropWhile_idempotent]
  have hend : trimEnd (trimEnd (trimStart s.toList)) = trimEnd (trimStart s.toList) := by
    rw [trimEnd, trimEnd, List.reverse_reverse, List.dropWhile_idempotent]
  rw [trim, trim, String.toList_ofList, trimChars, trimChars, trimStart_trimEnd hstart, hend]

end Catalogue.Text
