import Catalogue.Proofs.Text.Words
import Catalogue.Text.Quoted
import Mathlib.Algebra.GroupWithZero.Nat

/-!
# Reading quoted texts back

A text that is written between quotes, with the quotes inside it doubled, is read back as it was,
however many quotes stand in it and next to the ones around it. The quotes are cut off by offsets in
bytes; both offsets are between two characters, so the cut can always be made.

* `undouble_double` — pairs of quotes are read as the quotes they were written for.
* `between?_eq_some_iff` — a text between quotes.
* `unquote_quoteWith` — a quoted text is read back.
* `unquoteBytes?_eq` — reading a quoted text never cuts through a character.
-/

namespace Catalogue.Text

/-! ## Doubled quotes -/

theorem undouble_cons_of_ne {q c : Char} (h : c ≠ q) (cs : List Char) :
    undouble q (c :: cs) = c :: undouble q cs := by
  cases cs with
  | nil => rfl
  | cons d rest => rw [undouble, if_neg (by simp [h])]

/-- A run of doubled quotes is read in pairs from its first quote on. -/
theorem undouble_double (q : Char) (cs : List Char) : undouble q (double q cs) = cs := by
  induction cs with
  | nil => rfl
  | cons c rest ih =>
    rw [double]
    by_cases h : c = q
    · subst h
      rw [if_pos (by simp), undouble, if_pos (by simp), ih]
    · rw [if_neg (by simp [h]), undouble_cons_of_ne h, ih]

/-! ## Quotes around a text -/

/-- The characters that a text may be quoted with. -/
def quoteMarks : List Char := ['\'', '"']

theorem between?_eq_some_iff {q : Char} {cs inner : List Char} :
    between? q cs = some inner ↔ cs = q :: (inner ++ [q]) := by
  constructor
  · intro h
    match cs with
    | [] => cases h
    | [_] => cases h
    | c :: d :: rest =>
      rw [between?, Option.ite_none_right_eq_some, Bool.and_eq_true, beq_iff_eq, beq_iff_eq,
        Option.some.injEq] at h
      obtain ⟨⟨rfl, hlast⟩, rfl⟩ := h
      obtain ⟨front, hfront⟩ := List.getLast?_eq_some_iff.mp hlast
      rw [hfront, List.dropLast_concat]
  · rintro rfl
    cases hrest : inner ++ [q] with
    | nil => exact absurd hrest (by simp)
    | cons d rest =>
      have hlast : (d :: rest).getLast? = some q := by rw [← hrest, List.getLast?_concat]
      rw [between?, if_pos (by simp [hlast]), ← hrest, List.dropLast_concat]

/-- Nothing is trimmed from a text between characters that are no blanks. -/
theorem trimChars_quoted {q : Char} (hq : isBlank q = false) (cs : List Char) :
    trimChars (q :: (cs ++ [q])) = q :: (cs ++ [q]) := by
  have hstart : trimStart (q :: (cs ++ [q])) = q :: (cs ++ [q]) :=
    List.dropWhile_cons_of_neg (by simp [hq])
  have hreverse : (q :: (cs ++ [q])).reverse = q :: (cs.reverse ++ [q]) := by simp
  rw [trimChars, hstart, trimEnd, hreverse, List.dropWhile_cons_of_neg (by simp [hq]), ← hreverse,
    List.reverse_reverse]

/-- A quoted text is read back. -/
theorem unquote_quoteWith {q : Char} (hq : q ∈ quoteMarks) (s : String) :
    unquote (quoteWith q s) = s := by
  have hblank : isBlank q = false := by rcases List.mem_pair.mp hq with rfl | rfl <;> rfl
  have hinner : between? q (q :: (double q s.toList ++ [q])) = some (double q s.toList) :=
    between?_eq_some_iff.mpr rfl
  rw [unquote, quoteWith, String.toList_ofList, trimChars_quoted hblank]
  rcases List.mem_pair.mp hq with rfl | rfl
  · simp only [hinner, undouble_double, String.ofList_toList]
  · -- a text between double quotes does not begin with a single one
    have hsingle : between? '\'' ('"' :: (double '"' s.toList ++ ['"'])) = none := by
      rw [Option.eq_none_iff_forall_ne_some]
      intro inner h
      cases between?_eq_some_iff.mp h
    simp only [hsingle, hinner, undouble_double, String.ofList_toList]

/-- Different texts are quoted differently. -/
theorem quoteWith_injective {q : Char} (hq : q ∈ quoteMarks) : Function.Injective (quoteWith q) :=
  Function.LeftInverse.injective (unquote_quoteWith hq)

/-- Blanks around the quotes do not matter. -/
theorem unquote_trim (s : String) : unquote (trim s) = unquote s := by
  have htoList : ∀ s, (trim s).toList = trimChars s.toList := fun s => String.toList_ofList
  have htrim : trimChars (trim s).toList = trimChars s.toList := by
    rw [← htoList, ← htoList, trim_trim]
  rw [unquote, unquote, htrim]

/-! ## Offsets in bytes -/

/-- How many bytes characters take in UTF-8. -/
def byteSize (cs : List Char) : Nat := (cs.map Char.utf8Size).sum

/-- The characters in front of an offset in bytes and those behind it, unless the offset lies inside
a character or past the end. -/
def splitBytes? : Nat → List Char → Option (List Char × List Char)
  | 0, cs => some ([], cs)
  | _ + 1, [] => none
  | n + 1, c :: rest =>
    if c.utf8Size ≤ n + 1 then
      (splitBytes? (n + 1 - c.utf8Size) rest).map fun (front, back) => (c :: front, back)
    else none

/-- The characters between two offsets in bytes. -/
def slice? (start stop : Nat) (cs : List Char) : Option (List Char) :=
  if start ≤ stop then do
    let (front, _) ← splitBytes? stop cs
    let (_, part) ← splitBytes? start front
    return part
  else none

/-- Whether a text of more than one byte begins and ends with a character. -/
def isQuotedBy (cs : List Char) (q : Char) : Bool :=
  2 ≤ byteSize cs && cs.head? == some q && cs.getLast? == some q

/-- Reads a quoted text by cutting off its first and its last byte, if that can be done. -/
def unquoteBytes? (s : String) : Option String :=
  let cs := trimChars s.toList
  match quoteMarks.find? (isQuotedBy cs) with
  | some q => (slice? 1 (byteSize cs - 1) cs).map fun inner => String.ofList (undouble q inner)
  | none => some (String.ofList cs)

theorem byteSize_cons (c : Char) (cs : List Char) :
    byteSize (c :: cs) = c.utf8Size + byteSize cs := List.sum_cons

theorem byteSize_append (front back : List Char) :
    byteSize (front ++ back) = byteSize front + byteSize back := by
  rw [byteSize, List.map_append, List.sum_append, byteSize, byteSize]

theorem splitBytes?_append (front back : List Char) :
    splitBytes? (byteSize front) (front ++ back) = some (front, back) := by
  induction front with
  | nil => rw [List.nil_append, byteSize, List.map_nil, List.sum_nil, splitBytes?]
  | cons c front ih =>
    obtain ⟨n, hn⟩ : ∃ n, byteSize (c :: front) = n + 1 := by
      refine Nat.exists_eq_succ_of_ne_zero ?_
      have hpos := c.utf8Size_pos
      rw [byteSize_cons]
      omega
    have hrest : n + 1 - c.utf8Size = byteSize front := by
      rw [← hn, byteSize_cons, Nat.add_sub_cancel_left]
    have hle : c.utf8Size ≤ n + 1 := by
      rw [← hn, byteSize_cons]
      exact Nat.le_add_right _ _
    rw [List.cons_append, hn, splitBytes?, if_pos hle, hrest, ih, Option.map_some]

section Marks

variable {q : Char} {cs inner : List Char}

theorem utf8Size_of_mem_quoteMarks (hq : q ∈ quoteMarks) : q.utf8Size = 1 := by
  rcases List.mem_pair.mp hq with rfl | rfl <;> rfl

/-- Without its first and its last byte a quoted text is what stands between the quotes. -/
theorem slice?_quoted (hq : q ∈ quoteMarks) (inner : List Char) :
    slice? 1 (byteSize (q :: (inner ++ [q])) - 1) (q :: (inner ++ [q])) = some inner := by
  have hsize := utf8Size_of_mem_quoteMarks hq
  have hstart : byteSize [q] = 1 := by rw [byteSize_cons, hsize]; rfl
  have hstop : byteSize (q :: (inner ++ [q])) - 1 = byteSize (q :: inner) := by
    rw [← List.cons_append, byteSize_append, hstart, Nat.add_sub_cancel]
  have hle : 1 ≤ byteSize (q :: inner) := by
    rw [byteSize_cons, hsize]
    exact Nat.le_add_right _ _
  have hfront : splitBytes? (byteSize (q :: inner)) (q :: (inner ++ [q])) =
      some (q :: inner, [q]) := splitBytes?_append (q :: inner) [q]
  have hpart : splitBytes? 1 (q :: inner) = some ([q], inner) :=
    hstart ▸ splitBytes?_append [q] inner
  simp only [slice?, hstop, if_pos hle, hfront, Option.bind_eq_bind, Option.bind_some, hpart]
  rfl

/-- A text of more than one byte begins and ends with a quote when it stands between quotes. -/
theorem isQuotedBy_iff (hq : q ∈ quoteMarks) :
    isQuotedBy cs q = true ↔ ∃ inner, between? q cs = some inner := by
  simp only [isQuotedBy, between?_eq_some_iff, Bool.and_eq_true, decide_eq_true_eq, beq_iff_eq]
  constructor
  · rintro ⟨⟨hsize, hhead⟩, hlast⟩
    obtain ⟨rest, rfl⟩ := List.head?_eq_some_iff.mp hhead
    rcases rest.eq_nil_or_concat with rfl | ⟨inner, c, rfl⟩
    · -- a single quote has one byte
      rw [byteSize_cons, utf8Size_of_mem_quoteMarks hq] at hsize
      exact absurd hsize (by decide)
    · rw [List.concat_eq_append, ← List.cons_append, List.getLast?_concat,
        Option.some.injEq] at hlast
      exact ⟨inner, by rw [List.concat_eq_append, hlast]⟩
  · rintro ⟨inner, rfl⟩
    refine ⟨⟨?_, rfl⟩, by rw [← List.cons_append, List.getLast?_concat]⟩
    rw [← List.cons_append, byteSize_append, byteSize_cons, byteSize_cons,
      utf8Size_of_mem_quoteMarks hq]
    omega

end Marks

/-- Reading a quoted text never cuts through a character. -/
theorem unquoteBytes?_eq (s : String) : unquoteBytes? s = some (unquote s) := by
  rw [unquoteBytes?, unquote]
  generalize trimChars s.toList = cs
  have hquoted : ∀ q ∈ quoteMarks, ∀ inner, between? q cs = some inner →
      isQuotedBy cs q = true ∧ slice? 1 (byteSize cs - 1) cs = some inner := by
    intro q hq inner h
    refine ⟨(isQuotedBy_iff hq).mpr ⟨inner, h⟩, ?_⟩
    rw [between?_eq_some_iff.mp h]
    exact slice?_quoted hq inner
  have hbare : ∀ q ∈ quoteMarks, between? q cs = none → isQuotedBy cs q = false := by
    intro q hq h
    rw [← Bool.not_eq_true, isQuotedBy_iff hq, h]
    exact fun ⟨_, hinner⟩ => nomatch hinner
  cases hsingle : between? '\'' cs with
  | some inner =>
    obtain ⟨hfind, hslice⟩ := hquoted _ (by decide) inner hsingle
    simp [quoteMarks, hfind, hslice]
  | none =>
    have hfind := hbare _ (by decide) hsingle
    cases hdouble : between? '"' cs with
    | some inner =>
      obtain ⟨hfind', hslice⟩ := hquoted _ (by decide) inner hdouble
      simp [quoteMarks, hfind, hfind', hslice]
    | none => simp [quoteMarks, hfind, hbare _ (by decide) hdouble]

end Catalogue.Text
