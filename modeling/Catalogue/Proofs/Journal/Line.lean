import Catalogue.Journal.Line
import Catalogue.Proofs.Json.Text
import Catalogue.Proofs.Lists.Parts
import Mathlib.Data.String.Basic

/-!
# Entries read back from their lines

Every character of an entry is written so that it is scanned back on its own, and no control
character is left as it is. A line is therefore one object to its reader, whatever the event, the
keys and the values hold.

* `Entry.not_isControl_of_mem` — the text of an entry has no control characters.
* `StablySorted` — fields in the order of their keys; there is one such order only.
* `Entry.completes_textChars` — the text of an entry is its object.
* `Entry.line_reads` — a line ends with its only newline, and it is read as what was reported.
-/

namespace Catalogue.Journal

open Catalogue.Json
open Catalogue.Lists
open Catalogue.Text

/-! ## Characters -/

theorem toNat_lt_of_isControl {c : Char} (h : isControl c = true) : c.toNat < 0xA0 := by
  simp only [isControl, Bool.or_eq_true, Bool.and_eq_true, decide_eq_true_eq] at h
  omega

theorem le_toNat_of_not_isControl {c : Char} (h : ¬isControl c = true) : 0x20 ≤ c.toNat := by
  simp only [isControl, Bool.or_eq_true, Bool.and_eq_true, decide_eq_true_eq] at h
  omega

/-- A character of a string is scanned back. -/
theorem spells_escapeChar (c : Char) : Spells (escapeChar c) c := by
  unfold escapeChar
  split
  · exact spells_letter (by decide) rfl
  · exact spells_letter (by decide) rfl
  · exact spells_letter (by decide) rfl
  · exact spells_letter (by decide) rfl
  · exact spells_letter (by decide) rfl
  · next hquote hslash _ _ _ =>
    split
    · next h => exact spells_escapeCode ((toNat_lt_of_isControl h).trans (by decide))
    · next h => exact spells_self (le_toNat_of_not_isControl h) hquote hslash

theorem quotes_stringChars (s : String) : Quotes (stringChars s) s :=
  quotes_flatMap spells_escapeChar s

/-! ## Control characters -/

theorem not_isControl_hexDigit : ∀ n < 16, isControl (hexDigit n) = false := by
  decide

theorem not_isControl_escapeCode (n : Nat) : ∀ d ∈ escapeCode n, isControl d = false := by
  have hdigit (k : Nat) : isControl (hexDigit (k % 16)) = false :=
    not_isControl_hexDigit _ (Nat.mod_lt k (by decide))
  simp only [escapeCode, List.forall_mem_cons, hdigit, true_and]
  exact ⟨by decide, by decide, List.forall_mem_nil _⟩

/-- No control character is left as it is. -/
theorem not_isControl_escapeChar (c : Char) : ∀ d ∈ escapeChar c, isControl d = false := by
  have hletter (d : Char) (h : isControl d = false) : ∀ e ∈ ['\\', d], isControl e = false :=
    List.forall_mem_cons.mpr ⟨by decide, List.forall_mem_singleton.mpr h⟩
  unfold escapeChar
  split
  · exact hletter _ (by decide)
  · exact hletter _ (by decide)
  · exact hletter _ (by decide)
  · exact hletter _ (by decide)
  · exact hletter _ (by decide)
  · split
    · exact not_isControl_escapeCode _
    · next h => exact List.forall_mem_singleton.mpr (Bool.not_eq_true _ ▸ h)

theorem not_isControl_stringChars (s : String) : ∀ c ∈ stringChars s, isControl c = false := by
  have hescaped : ∀ c ∈ s.toList.flatMap escapeChar, isControl c = false := by
    intro d hd
    obtain ⟨c, -, hc⟩ := List.mem_flatMap.mp hd
    exact not_isControl_escapeChar c d hc
  refine List.forall_mem_cons.mpr ⟨by decide, List.forall_mem_append.mpr ⟨hescaped, ?_⟩⟩
  exact List.forall_mem_singleton.mpr (by decide)

theorem not_isControl_memberChars (m : String × String) :
    ∀ c ∈ memberChars m, isControl c = false :=
  List.forall_mem_append.mpr ⟨not_isControl_stringChars m.1,
    List.forall_mem_cons.mpr ⟨by decide, not_isControl_stringChars m.2⟩⟩

theorem not_isControl_tailChars (ms : List (String × String)) :
    ∀ c ∈ tailChars ms, isControl c = false := by
  induction ms with
  | nil => exact List.forall_mem_nil _
  | cons m rest ih =>
    exact List.forall_mem_cons.mpr ⟨by decide,
      List.forall_mem_append.mpr ⟨not_isControl_memberChars m, ih⟩⟩

/-- The text of an entry has no control characters. -/
theorem Entry.not_isControl_of_mem (e : Entry) : ∀ c ∈ e.textChars, isControl c = false := by
  rw [textChars, List.append_assoc]
  refine List.forall_mem_cons.mpr ⟨by decide,
    List.forall_mem_append.mpr ⟨not_isControl_memberChars _,
      List.forall_mem_append.mpr ⟨not_isControl_tailChars _, ?_⟩⟩⟩
  exact List.forall_mem_singleton.mpr (by decide)

theorem Entry.newline_not_mem (e : Entry) : '\n' ∉ e.textChars := by
  intro h
  have hcontrol := e.not_isControl_of_mem _ h
  exact absurd hcontrol (by decide)

/-! ## The order of the fields -/

/-- Fields in the order of their keys, those of one key in the order they were given. -/
structure StablySorted (given sorted : List (String × String)) : Prop where
  perm : sorted.Perm given
  ordered : sorted.Pairwise fun a b => a.1 ≤ b.1
  stable : ∀ key, sorted.filter (fun m => m.1 == key) = given.filter (fun m => m.1 == key)

theorem StablySorted.unique {given as bs : List (String × String)} (has : StablySorted given as)
    (hbs : StablySorted given bs) : as = bs :=
  eq_of_filter_key_eq has.ordered hbs.ordered fun key =>
    (has.stable key).trans (hbs.stable key).symm

theorem not_later_iff {a b : String × String} : (!decide (b.1 < a.1)) = true ↔ a.1 ≤ b.1 := by
  rw [Bool.not_eq_true', decide_eq_false_iff_not, not_lt]

/-- The fields of an entry are written in their stable order. -/
theorem Entry.stablySorted (e : Entry) : StablySorted e.fields e.sortedFields := by
  have htrans : ∀ a b c : String × String, (!decide (b.1 < a.1)) = true →
      (!decide (c.1 < b.1)) = true → (!decide (c.1 < a.1)) = true := by
    intro a b c
    rw [not_later_iff, not_later_iff, not_later_iff]
    exact le_trans
  have htotal : ∀ a b : String × String,
      ((!decide (b.1 < a.1)) || (!decide (a.1 < b.1))) = true := by
    intro a b
    rw [Bool.or_eq_true, not_later_iff, not_later_iff]
    exact le_total _ _
  have hperm : e.sortedFields.Perm e.fields := List.mergeSort_perm _ _
  refine ⟨hperm, (List.pairwise_mergeSort htrans htotal _).imp not_later_iff.mp, fun key => ?_⟩
  -- the fields of one key are in order as they were given, so sorting keeps them as a row
  have hsame : (e.fields.filter fun m => m.1 == key).Pairwise
      fun a b => (!decide (b.1 < a.1)) = true := by
    refine List.pairwise_of_forall_mem_list fun a ha b hb => not_later_iff.mpr (le_of_eq ?_)
    exact (beq_iff_eq.mp (List.mem_filter.mp ha).2).trans
      (beq_iff_eq.mp (List.mem_filter.mp hb).2).symm
  have hsublist := (List.sublist_mergeSort htrans htotal hsame List.filter_sublist).filter
    (fun m => m.1 == key)
  simp only [List.filter_filter, Bool.and_self] at hsublist
  exact (hsublist.eq_of_length (hperm.filter _).length_eq.symm).symm

/-! ## Lines -/

theorem Severity.name_injective : Function.Injective Severity.name := by
  intro a b h
  cases a <;> cases b <;> first | rfl | exact absurd h (by decide)

theorem completesMember_memberChars (m : String × String) :
    CompletesMember (m.1, .string m.2) (memberChars m) :=
  completesMember (quotes_stringChars m.1) (completes_string (quotes_stringChars m.2))

theorem tailChars_eq_tailText (ms : List (String × String)) :
    tailChars ms = tailText memberChars ms := by
  induction ms with
  | nil => rfl
  | cons m rest ih => rw [tailChars, ih, tailText_cons]

namespace Entry

/-- What a reader is to find in the line of an entry, with the fields in the given order. -/
def object (e : Entry) (fields : List (String × String)) : Json :=
  .object (("event", .string e.event) :: ("severity", .string e.severity.name) ::
    fields.map fun m => (m.1, .string m.2))

/-- The text of an entry is its object. -/
theorem completes_textChars (e : Entry) : (e.object e.sortedFields).Completes e.textChars := by
  have hmembers : (Json.object (e.members.map fun m => (m.1, .string m.2))).Completes _ :=
    completes_members fun m _ => completesMember_memberChars m
  rw [textChars, tailChars_eq_tailText]
  exact hmembers

theorem limit_object (e : Entry) (fields : List (String × String)) :
    limit levels (e.object fields) = e.object fields := by
  refine Json.limit_object (n := 126) fun m hm => ?_
  simp only [List.mem_cons, List.mem_map] at hm
  rcases hm with rfl | rfl | ⟨field, -, rfl⟩ <;> rfl

theorem read?_line (e : Entry) : read? e.line = some (e.object e.sortedFields) := by
  have hdeep : readDeep? (String.ofList (e.textChars ++ ['\n'])) =
      some (e.object e.sortedFields) :=
    readDeep?_of_completes e.completes_textChars (List.forall_mem_singleton.mpr (by decide))
      (endsNumber_cons (by decide) [])
  rw [line, read?, hdeep, Option.map_some, limit_object]

/-- Entries that report different things have different lines. -/
theorem eq_of_line_eq {e e' : Entry} (h : e.line = e'.line) :
    e.event = e'.event ∧ e.severity = e'.severity ∧ e.sortedFields = e'.sortedFields := by
  have hobject : e.object e.sortedFields = e'.object e'.sortedFields :=
    Option.some.inj (by rw [← read?_line, ← read?_line, h])
  simp only [object, Json.object.injEq, List.cons.injEq, Prod.mk.injEq, Json.string.injEq,
    true_and] at hobject
  obtain ⟨hevent, hseverity, hfields⟩ := hobject
  refine ⟨hevent, Severity.name_injective hseverity, ?_⟩
  refine List.map_injective_iff.mpr (fun m n hmn => ?_) hfields
  simpa [Prod.ext_iff] using hmn

/--
The only newline of a line is its last character, and the line is read as the object with the event,
the severity and then the fields stably sorted by their keys, all strings as they were reported.
Lines are equal only if all of this is.
-/
theorem line_reads (e : Entry) :
    (∃ text, e.line.toList = text ++ ['\n'] ∧ '\n' ∉ text) ∧
      (∃! fields, StablySorted e.fields fields) ∧
      (∀ fields, StablySorted e.fields fields → read? e.line = some (.object
        (("event", .string e.event) :: ("severity", .string e.severity.name) ::
          fields.map fun m => (m.1, .string m.2)))) ∧
      ∀ e' : Entry, e'.line = e.line → e'.event = e.event ∧ e'.severity = e.severity ∧
        ∀ fields, StablySorted e'.fields fields ↔ StablySorted e.fields fields := by
  refine ⟨⟨e.textChars, String.toList_ofList, e.newline_not_mem⟩,
    ⟨_, e.stablySorted, fun _ h => h.unique e.stablySorted⟩, fun fields h => ?_, fun e' h => ?_⟩
  · rw [h.unique e.stablySorted]
    exact e.read?_line
  · obtain ⟨hevent, hseverity, hfields⟩ := eq_of_line_eq h
    refine ⟨hevent, hseverity, fun fields => ?_⟩
    have hiff (d : Entry) : StablySorted d.fields fields ↔ fields = d.sortedFields :=
      ⟨fun h => h.unique d.stablySorted, fun h => h ▸ d.stablySorted⟩
    rw [hiff, hiff, hfields]

end Entry

end Catalogue.Journal
