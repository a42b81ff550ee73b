import Catalogue.Number.Shortest
import Mathlib.Data.List.TakeWhile

/-!
# The characters of a float's text

A float is written with digits, a point and a minus sign, or as one of two words; no blank, comma
or bracket is among the characters.

* `unbroken_text` — there is nothing in a float's text that ends a number.
* `inNumeral_of_finite?` — nor in any text that is read as a number.
-/

namespace Catalogue.Number

open Catalogue.Text

/-- A character from the minus sign up to the last letter. -/
def InNumber (c : Char) : Prop := 45 ≤ c.toNat ∧ c.toNat ≤ 122

instance : DecidablePred InNumber := fun c =>
  inferInstanceAs (Decidable (45 ≤ c.toNat ∧ c.toNat ≤ 122))

/-- A text with such characters only. -/
def Unbroken (s : String) : Prop := ∀ c ∈ s.toList, InNumber c

instance : DecidablePred Unbroken := fun s => List.decidableBAll InNumber s.toList

theorem InNumber.isBlank {c : Char} (h : InNumber c) : isBlank c = false := by
  obtain ⟨hlow, hhigh⟩ := h
  simp only [Text.isBlank, Bool.or_eq_false_iff, Bool.and_eq_false_iff, decide_eq_false_iff_not,
    beq_eq_false_iff_ne]
  omega

theorem InNumber.ne {c d : Char} (h : InNumber c) (hd : d.toNat < 45) : c ≠ d := by
  rintro rfl
  exact absurd h.1 (by omega)

theorem inNumber_of_isDigit {c : Char} (h : c.isDigit = true) : InNumber c := by
  simp only [Char.isDigit, Bool.and_eq_true, decide_eq_true_eq] at h
  have hlow : '0'.val.toNat ≤ c.val.toNat := UInt32.le_iff_toNat_le.mp h.1
  have hhigh : c.val.toNat ≤ '9'.val.toNat := UInt32.le_iff_toNat_le.mp h.2
  have hzero : '0'.val.toNat = 48 := rfl
  have hnine : '9'.val.toNat = 57 := rfl
  exact ⟨by show 45 ≤ c.val.toNat; omega, by show c.val.toNat ≤ 122; omega⟩

/-! ## Texts -/

theorem unbroken_append {s t : String} (hs : Unbroken s) (ht : Unbroken t) : Unbroken (s ++ t) := by
  intro c hc
  rw [String.toList_append, List.mem_append] at hc
  exact hc.elim (hs c) (ht c)

/-- Positional notation has digits and a point. -/
theorem mem_positional {digits : Nat} {exponent : Int} {c : Char}
    (hc : c ∈ (positional digits exponent).toList) : c = '.' ∨ c.isDigit = true := by
  have hdigits : ∀ c ∈ (Nat.repr digits).toList, c.isDigit = true := by
    intro c hc
    rw [Nat.toList_repr] at hc
    exact Nat.isDigit_of_mem_toDigits (by decide) (by decide) hc
  have hzeros : ∀ n, ∀ c ∈ List.replicate n '0', c.isDigit = true := by
    intro n c hc
    rw [List.eq_of_mem_replicate hc]
    decide
  unfold positional at hc
  dsimp only at hc
  split at hc
  · rw [String.toList_ofList, List.mem_append] at hc
    exact .inr (hc.elim (hdigits c) (hzeros _ c))
  · have hpadded : ∀ n, ∀ c ∈ List.replicate n '0' ++ (Nat.repr digits).toList,
        c.isDigit = true := fun n => List.forall_mem_append.mpr ⟨hzeros n, hdigits⟩
    rw [String.toList_ofList, List.mem_append, List.mem_cons] at hc
    rcases hc with hc | rfl | hc
    · exact .inr (hpadded _ c (List.mem_of_mem_take hc))
    · exact .inl rfl
    · exact .inr (hpadded _ c (List.mem_of_mem_drop hc))

theorem unbroken_positional (digits : Nat) (exponent : Int) :
    Unbroken (positional digits exponent) := by
  intro c hc
  rcases mem_positional hc with rfl | hdigit
  · decide
  · exact inNumber_of_isDigit hdigit

theorem unbroken_signed {negative : Bool} {s : String} (h : Unbroken s) :
    Unbroken (signed negative s) := by
  rw [signed]
  split
  · exact unbroken_append (by decide) h
  · exact h

/-- No blank, comma or bracket stands in the text of a float. -/
theorem unbroken_text (x : Float) : Unbroken (text x) := by
  rw [text, textBy]
  split
  · decide
  · exact unbroken_signed (by decide)
  · exact unbroken_signed (unbroken_positional _ _)

/-! ## Numerals -/

/-- A character of a numeral: one of a float's text, or the plus sign. -/
def InNumeral (c : Char) : Prop := c = '+' ∨ InNumber c

theorem InNumeral.ne {c d : Char} (h : InNumeral c) (hd : d.toNat < 45) (hplus : d ≠ '+') :
    c ≠ d := by
  rcases h with rfl | h
  · exact hplus.symm
  · exact h.ne hd

theorem inNumber_of_toLower {c : Char} (h : InNumber c.toLower) : InNumber c := by
  unfold Char.toLower at h
  split at h
  · next hupper =>
    obtain ⟨hlow, hhigh⟩ := hupper
    have hlow : 65 ≤ c.toNat := hlow
    have hhigh : c.toNat ≤ 90 := hhigh
    exact ⟨by omega, by omega⟩
  · exact h

theorem inNumeral_of_natural? {cs : List Char} {n : Nat} (h : natural? cs = some n) :
    ∀ c ∈ cs, InNumeral c := by
  intro c hc
  unfold natural? at h
  split at h
  · next hdigits =>
    rw [Bool.and_eq_true, List.all_eq_true] at hdigits
    exact .inr (inNumber_of_isDigit (hdigits.2 c hc))
  · cases h

theorem inNumeral_of_integerChars? {cs : List Char} {n : Int} (h : integerChars? cs = some n) :
    ∀ c ∈ cs, InNumeral c := by
  unfold integerChars? at h
  split at h
  · obtain ⟨_, hm, -⟩ := Option.map_eq_some_iff.mp h
    obtain ⟨m, hm, -⟩ := Option.bind_eq_some_iff.mp hm
    exact List.forall_mem_cons.mpr ⟨.inr (by decide), inNumeral_of_natural? hm⟩
  · obtain ⟨m, hm, -⟩ := Option.map_eq_some_iff.mp h
    exact List.forall_mem_cons.mpr ⟨.inl rfl, inNumeral_of_natural? hm⟩
  · obtain ⟨m, hm, -⟩ := Option.map_eq_some_iff.mp h
    exact inNumeral_of_natural? hm

theorem inNumeral_of_exponent? {cs : List Char} {e : Int} (h : exponent? cs = some e) :
    ∀ c ∈ cs, InNumeral c := by
  unfold exponent? at h
  split at h
  · exact List.forall_mem_nil _
  · next mark rest =>
    split at h
    · next hmark =>
      refine List.forall_mem_cons.mpr ⟨.inr ?_, inNumeral_of_integerChars? h⟩
      rw [Bool.or_eq_true, beq_iff_eq, beq_iff_eq] at hmark
      rcases hmark with rfl | rfl <;> decide
    · cases h

theorem inNumeral_of_unsigned? {negative : Bool} {cs : List Char} {d : Decimal}
    (h : unsigned? negative cs = some d) : ∀ c ∈ cs, InNumeral c := by
  have hword : ∀ w : String, Unbroken w → lower (String.ofList cs) = w →
      ∀ c ∈ cs, InNumeral c := by
    rintro _ hw rfl c hc
    refine .inr (inNumber_of_toLower (hw _ ?_))
    rw [lower, String.toList_map, String.toList_ofList]
    exact List.mem_map_of_mem hc
  have hdigits : ∀ ds : List Char, ∀ c ∈ ds.takeWhile isDigit, InNumeral c := by
    intro ds c hc
    exact .inr (inNumber_of_isDigit (List.mem_takeWhile_imp hc))
  unfold unsigned? at h
  dsimp only at h
  split at h
  · next hinfinite =>
    rw [Bool.or_eq_true, beq_iff_eq, beq_iff_eq] at hinfinite
    rcases hinfinite with hinf | hinf
    · exact hword _ (by decide) hinf
    · exact hword _ (by decide) hinf
  split at h
  · next hnan => exact hword _ (by decide) (beq_iff_eq.mp hnan)
  rw [← List.takeWhile_append_dropWhile (p := isDigit) (l := cs)]
  refine List.forall_mem_append.mpr ⟨hdigits cs, ?_⟩
  -- behind the digits stands a fraction or nothing, and then the exponent
  split at h
  · next fraction hrest =>
    split at h
    · cases h
    obtain ⟨e, he, -⟩ := Option.map_eq_some_iff.mp h
    rw [hrest, ← List.takeWhile_append_dropWhile (p := isDigit) (l := fraction)]
    have hfraction := List.forall_mem_append.mpr ⟨hdigits fraction, inNumeral_of_exponent? he⟩
    exact List.forall_mem_cons.mpr ⟨.inr (by decide), hfraction⟩
  · split at h
    · cases h
    obtain ⟨e, he, -⟩ := Option.map_eq_some_iff.mp h
    exact inNumeral_of_exponent? he

/-- No blank, comma or bracket stands in a text that is read as a decimal. -/
theorem inNumeral_of_decimal? {s : String} {d : Decimal} (h : decimal? s = some d) :
    ∀ c ∈ s.toList, InNumeral c := by
  unfold decimal? at h
  split at h
  · next hs =>
    rw [hs]
    exact List.forall_mem_cons.mpr ⟨.inr (by decide), inNumeral_of_unsigned? h⟩
  · next hs =>
    rw [hs]
    exact List.forall_mem_cons.mpr ⟨.inl rfl, inNumeral_of_unsigned? h⟩
  · exact inNumeral_of_unsigned? h

theorem inNumeral_of_finite? {s : String} {x : Float} (h : finite? s = some x) :
    ∀ c ∈ s.toList, InNumeral c := by
  obtain ⟨d, hd, -⟩ := Option.map_eq_some_iff.mp (Option.filter_eq_some_iff.mp h).1
  exact inNumeral_of_decimal? hd

end Catalogue.Number
