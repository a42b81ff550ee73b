import Catalogue.Record.Basic
import Mathlib.Data.String.Basic

/-!
# Sorted attributes

The keys of attributes increase strictly, and setting a value keeps this. Sorted attributes are
told by their look-ups.

* `Attributes.Sorted.set` — setting keeps the keys sorted.
* `Attributes.Sorted.ext` — equal look-ups, equal attributes.
-/

namespace Catalogue.Record

namespace Attributes

/-- The keys increase strictly. -/
def Sorted (a : Attributes) : Prop := a.Pairwise (fun m n => m.1 < n.1)

theorem sorted_nil : Sorted [] := List.Pairwise.nil

/-- A key that is set is the new one or an old one. -/
theorem key_mem_set {a : Attributes} {key : String} {value : Value} {m : String × Value}
    (h : m ∈ a.set key value) : m.1 = key ∨ m ∈ a := by
  induction a with
  | nil =>
    obtain rfl := List.mem_singleton.mp h
    exact .inl rfl
  | cons n rest ih =>
    rw [set] at h
    split at h
    · rcases List.mem_cons.mp h with rfl | h
      · exact .inl rfl
      · exact .inr (List.mem_cons_of_mem _ h)
    · split at h
      · rcases List.mem_cons.mp h with rfl | h
        · exact .inl rfl
        · exact .inr h
      · rcases List.mem_cons.mp h with rfl | h
        · exact .inr List.mem_cons_self
        · exact (ih h).imp id (List.mem_cons_of_mem _)

/-- Setting a value keeps the keys sorted. -/
theorem Sorted.set {a : Attributes} (h : a.Sorted) (key : String) (value : Value) :
    (a.set key value).Sorted := by
  induction a with
  | nil => exact List.pairwise_singleton _ _
  | cons m rest ih =>
    obtain ⟨hm, hrest⟩ := List.pairwise_cons.mp h
    rw [Attributes.set]
    split
    · next heq =>
      rw [beq_iff_eq] at heq
      exact List.pairwise_cons.mpr ⟨fun n hn => heq ▸ hm n hn, hrest⟩
    · next hne =>
      rw [beq_iff_eq] at hne
      split
      · next hlt =>
        refine List.pairwise_cons.mpr ⟨fun n hn => ?_, h⟩
        rcases List.mem_cons.mp hn with rfl | hn
        · exact hlt
        · exact lt_trans hlt (hm n hn)
      · next hnot =>
        have hgt : m.1 < key := lt_of_le_of_ne (not_lt.mp hnot) hne
        refine List.pairwise_cons.mpr ⟨fun n hn => ?_, ih hrest⟩
        rcases key_mem_set hn with hkey | hn
        · exact hkey ▸ hgt
        · exact hm n hn

/-- A key below all keys is not found. -/
theorem get?_eq_none_of_lt {a : Attributes} {key : String} (h : ∀ m ∈ a, key < m.1) :
    a.get? key = none := by
  induction a with
  | nil => rfl
  | cons m rest ih =>
    have hne : (m.1 == key) = false := by
      simpa using (h m List.mem_cons_self).ne'
    rw [get?, hne]
    exact ih fun n hn => h n (List.mem_cons_of_mem _ hn)

theorem get?_cons_self (key : String) (value : Value) (rest : Attributes) :
    get? ((key, value) :: rest) key = some value := by
  rw [get?, beq_self_eq_true]
  rfl

theorem get?_cons_of_ne {key other : String} (value : Value) (rest : Attributes)
    (h : key ≠ other) : get? ((key, value) :: rest) other = get? rest other := by
  rw [get?, if_neg (by simpa using h)]

/-- A key below the first of sorted keys is not found. -/
theorem Sorted.get?_eq_none {key k : String} {v : Value} {rest : Attributes}
    (h : Sorted ((k, v) :: rest)) (hlt : key < k) : get? ((k, v) :: rest) key = none := by
  refine get?_eq_none_of_lt fun m hm => ?_
  rcases List.mem_cons.mp hm with rfl | hm
  · exact hlt
  · exact lt_trans hlt ((List.pairwise_cons.mp h).1 m hm)

/-- A key of sorted attributes stands for one value. -/
theorem Sorted.get?_of_mem {a : Attributes} (h : a.Sorted) {key : String} {value : Value}
    (hmem : (key, value) ∈ a) : a.get? key = some value := by
  induction a with
  | nil => cases hmem
  | cons m rest ih =>
    obtain ⟨hm, hrest⟩ := List.pairwise_cons.mp h
    rcases List.mem_cons.mp hmem with rfl | hmem
    · exact get?_cons_self key value rest
    · rw [show m = (m.1, m.2) from rfl, get?_cons_of_ne _ _ (hm _ hmem).ne]
      exact ih hrest hmem

/-- Sorted attributes with the same values under all keys are equal. -/
theorem Sorted.ext {a b : Attributes} (ha : a.Sorted) (hb : b.Sorted)
    (h : ∀ key, a.get? key = b.get? key) : a = b := by
  induction a generalizing b with
  | nil =>
    cases b with
    | nil => rfl
    | cons n bs =>
      have := h n.1
      rw [get?_cons_self] at this
      cases this
  | cons m as ih =>
    cases b with
    | nil =>
      have := h m.1
      rw [get?_cons_self] at this
      cases this
    | cons n bs =>
      obtain ⟨k, v⟩ := m
      obtain ⟨l, w⟩ := n
      obtain ⟨hm, has⟩ := List.pairwise_cons.mp ha
      obtain ⟨hn, hbs⟩ := List.pairwise_cons.mp hb
      -- The lesser of the two first keys would be found on one side only.
      rcases lt_trichotomy k l with hlt | rfl | hlt
      · have := h k
        rw [get?_cons_self, hb.get?_eq_none hlt] at this
        cases this
      · have hvalue := h k
        rw [get?_cons_self, get?_cons_self, Option.some.injEq] at hvalue
        have hrest : as = bs := by
          refine ih has hbs fun key => ?_
          by_cases hkey : k = key
          · subst hkey
            rw [get?_eq_none_of_lt hm, get?_eq_none_of_lt hn]
          · have := h key
            rwa [get?_cons_of_ne _ _ hkey, get?_cons_of_ne _ _ hkey] at this
        rw [hvalue, hrest]
      · have := h l
        rw [get?_cons_self, ha.get?_eq_none hlt] at this
        cases this

end Attributes

end Catalogue.Record
