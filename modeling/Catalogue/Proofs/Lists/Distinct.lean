import Mathlib.Data.List.Dedup
import Mathlib.Data.List.Induction

/-!
# Items once each

The items of a list once each, in the order in which they first occur. One more item changes this
only when it is a new one, and then it comes last.

* `FirstOccurrences` — the items once each; `FirstOccurrences.concat_of_mem` and
  `FirstOccurrences.concat_of_notMem` — with one more item.
* `firstOccurrences_eraseDups` — erasing duplicates leaves the first occurrences.
* `eraseDups_append_left`, `eraseDups_append_right` — it may be done to the parts before.
* `nodup_map_filterMap_iff` — what is collected under different keys.
-/

namespace Catalogue.Lists

variable {α : Type}

/-! ## First occurrences -/

/-- The items of a list once each, in the order in which they first occur. -/
structure FirstOccurrences [BEq α] (all ts : List α) : Prop where
  nodup : ts.Nodup
  mem_iff : ∀ t, t ∈ ts ↔ t ∈ all
  ordered : ts.Pairwise fun a b => all.idxOf a < all.idxOf b

namespace FirstOccurrences

variable [BEq α] {all ts : List α} {a : α}

theorem nil : FirstOccurrences ([] : List α) [] :=
  ⟨List.nodup_nil, fun _ => Iff.rfl, .nil⟩

theorem singleton (a : α) : FirstOccurrences [a] [a] :=
  ⟨List.nodup_singleton a, fun _ => Iff.rfl, List.pairwise_singleton _ _⟩

variable [LawfulBEq α]

/-- What occurs before one more item stays where it is. -/
theorem ordered_concat (h : FirstOccurrences all ts) (a : α) :
    ts.Pairwise fun b c => (all ++ [a]).idxOf b < (all ++ [a]).idxOf c := by
  refine h.ordered.imp_of_mem ?_
  intro b c hb hc hlt
  rwa [List.idxOf_append_of_mem ((h.mem_iff b).mp hb),
    List.idxOf_append_of_mem ((h.mem_iff c).mp hc)]

/-- An item that occurs before adds nothing. -/
theorem concat_of_mem (h : FirstOccurrences all ts) (ha : a ∈ all) :
    FirstOccurrences (all ++ [a]) ts := by
  refine ⟨h.nodup, ?_, h.ordered_concat a⟩
  intro b
  rw [h.mem_iff, List.mem_append, List.mem_singleton]
  constructor
  · exact .inl
  · rintro (hb | rfl)
    · exact hb
    · exact ha

/-- An item that is new comes last. -/
theorem concat_of_notMem (h : FirstOccurrences all ts) (ha : a ∉ all) :
    FirstOccurrences (all ++ [a]) (ts ++ [a]) := by
  refine ⟨?_, ?_, ?_⟩
  · refine List.nodup_append.mpr ⟨h.nodup, List.nodup_singleton a, ?_⟩
    intro b hb c hc
    rw [List.mem_singleton.mp hc]
    rintro rfl
    exact ha ((h.mem_iff b).mp hb)
  · intro b
    rw [List.mem_append, List.mem_append, h.mem_iff]
  · refine List.pairwise_append.mpr ⟨h.ordered_concat a, List.pairwise_singleton _ _, ?_⟩
    intro b hb c hc
    have hold : b ∈ all := (h.mem_iff b).mp hb
    rw [List.mem_singleton.mp hc, List.idxOf_append_of_mem hold, List.idxOf_append_of_notMem ha]
    exact Nat.lt_add_right _ (List.idxOf_lt_length_of_mem hold)

/-- The first item comes first. -/
theorem head?_eq {rest : List α} (h : FirstOccurrences (a :: rest) ts) : ts.head? = some a := by
  have ha : a ∈ ts := (h.mem_iff a).mpr List.mem_cons_self
  have hordered := h.ordered
  cases ts with
  | nil => cases ha
  | cons b ts =>
    rcases List.mem_cons.mp ha with rfl | ha
    · rfl
    · have hlt := List.rel_of_pairwise_cons hordered ha
      rw [List.idxOf_cons_self] at hlt
      exact absurd hlt (Nat.not_lt_zero _)

end FirstOccurrences

/-! ## Erasing duplicates -/

section EraseDups

variable [BEq α] [LawfulBEq α]

theorem eraseDups_concat (ts : List α) (t : α) :
    (ts ++ [t]).eraseDups = if t ∈ ts then ts.eraseDups else ts.eraseDups ++ [t] := by
  rw [List.eraseDups_append, List.removeAll]
  by_cases h : t ∈ ts <;> simp [h, List.eraseDups_cons]

theorem firstOccurrences_eraseDups (ts : List α) : FirstOccurrences ts ts.eraseDups := by
  induction ts using List.reverseRecOn with
  | nil => exact .nil
  | append_singleton ts t ih =>
    rw [eraseDups_concat]
    by_cases h : t ∈ ts
    · rw [if_pos h]
      exact ih.concat_of_mem h
    · rw [if_neg h]
      exact ih.concat_of_notMem h

/-- Items once each stay as they are. -/
theorem eraseDups_of_nodup {ts : List α} (h : ts.Nodup) : ts.eraseDups = ts := by
  induction ts using List.reverseRecOn with
  | nil => rfl
  | append_singleton ts t ih =>
    obtain ⟨hts, -, hnew⟩ := List.nodup_append.mp h
    have ht : t ∉ ts := fun hmem => hnew t hmem t (List.mem_singleton_self t) rfl
    rw [eraseDups_concat, if_neg ht, ih hts]

theorem eraseDups_eraseDups (ts : List α) : ts.eraseDups.eraseDups = ts.eraseDups :=
  eraseDups_of_nodup (firstOccurrences_eraseDups ts).nodup

theorem eraseDups_eq_nil_iff {as : List α} : as.eraseDups = [] ↔ as = [] := by
  simp only [List.eq_nil_iff_forall_not_mem, List.mem_eraseDups]

theorem filter_eraseDups (p : α → Bool) (ts : List α) :
    ts.eraseDups.filter p = (ts.filter p).eraseDups := by
  induction ts using List.reverseRecOn with
  | nil => rfl
  | append_singleton ts t ih =>
    rw [eraseDups_concat, List.filter_append]
    cases hp : p t with
    | false => split <;> simp [ih, hp]
    | true =>
      rw [List.filter_singleton, hp, cond_true, eraseDups_concat]
      split <;> simp_all

theorem eraseDups_append_left (as bs : List α) :
    (as.eraseDups ++ bs).eraseDups = (as ++ bs).eraseDups := by
  have hmem : bs.removeAll as.eraseDups = bs.removeAll as := by
    simp [List.removeAll]
  rw [List.eraseDups_append, List.eraseDups_append, eraseDups_eraseDups, hmem]

theorem eraseDups_append_right (as bs : List α) :
    (as ++ bs.eraseDups).eraseDups = (as ++ bs).eraseDups := by
  rw [List.eraseDups_append, List.eraseDups_append, List.removeAll, filter_eraseDups,
    eraseDups_eraseDups, List.removeAll]

/-- Items that all occur before add nothing. -/
theorem eraseDups_append_of_subset {as bs : List α} (h : ∀ b ∈ bs, b ∈ as) :
    (as ++ bs).eraseDups = as.eraseDups := by
  have hnone : bs.removeAll as = [] := by
    rw [List.removeAll, List.filter_eq_nil_iff]
    simpa using h
  rw [List.eraseDups_append, hnone, List.eraseDups_nil, List.append_nil]

end EraseDups

/-! ## Different items -/

/-- A list that has all numbers below a bound is at least that long. -/
theorem le_length_of_forall_mem {ns : List Nat} {b : Nat} (h : ∀ n < b, n ∈ ns) :
    b ≤ ns.length := by
  have hsub : List.range b ⊆ ns := fun n hn => h n (List.mem_range.mp hn)
  have hlen := List.nodup_range.length_le_of_subset hsub
  rwa [List.length_range] at hlen

/-- What is collected under different keys has at no place a key that came before. -/
theorem nodup_map_filterMap_iff {β κ : Type} {f : α → Option β} {key : β → κ} {l : List α} :
    ((l.filterMap f).map key).Nodup ↔ ∀ before x after, l = before ++ x :: after →
      ∀ b, f x = some b → key b ∉ (before.filterMap f).map key := by
  constructor
  · rintro h before x after rfl b hx hmem
    rw [List.filterMap_append, List.filterMap_cons_some hx, List.map_append, List.nodup_append] at h
    exact h.2.2 _ hmem _ List.mem_cons_self rfl
  · induction l using List.reverseRecOn with
    | nil => exact fun _ => List.nodup_nil
    | append_singleton l x ih =>
      intro h
      have hl := ih fun before y after hsplit => h before y (after ++ [x]) (by simp [hsplit])
      rw [List.filterMap_append, List.map_append, List.nodup_append]
      cases hx : f x with
      | none => simpa [hx] using hl
      | some b =>
        refine ⟨hl, by simp [hx], fun k hk k' hk' heq => h l x [] rfl b hx ?_⟩
        rw [List.filterMap_cons_some hx, List.filterMap_nil, List.map_singleton,
          List.mem_singleton] at hk'
        rwa [← hk', ← heq]

/-- What different items become, of which at most one counts, is what that one becomes. -/
theorem filterMap_eq_of_unique {β : Type} {f : α → Option β} {as : List α} (hnodup : as.Nodup)
    {a : α} (ha : a ∈ as) (hf : ∀ b ∈ as, b ≠ a → f b = none) :
    as.filterMap f = (f a).toList := by
  induction as with
  | nil => cases ha
  | cons b rest ih =>
    obtain ⟨hb, hrest⟩ := List.nodup_cons.mp hnodup
    rcases List.mem_cons.mp ha with rfl | ha
    · have hnone : rest.filterMap f = [] := by
        rw [List.filterMap_eq_nil_iff]
        exact fun c hc => hf c (List.mem_cons_of_mem _ hc) fun heq => hb (heq ▸ hc)
      rw [List.filterMap_cons, hnone]
      cases f a <;> rfl
    · rw [List.filterMap_cons_none (hf b List.mem_cons_self fun heq => hb (heq ▸ ha))]
      exact ih hrest ha fun c hc => hf c (List.mem_cons_of_mem _ hc)

end Catalogue.Lists
