import Mathlib.Data.List.Nodup
import Mathlib.Data.List.TakeWhile
import Mathlib.Order.Basic

/-!
# Parts of lists

A list has rows of items with one key, pieces between separators, and what becomes of its items.

* `mapM_eq_none_iff`, `length_filterMap_le_length`, `map_filterMap_sublist` — what items become.
* `eq_of_filter_key_eq`, `flatMap_filter_key_perm` — a list is known by its rows, and put together
  again from them.
* `dropWhile_eq_cons_iff`, `append_cons_inj` — the first item outside a class.
* `pieces_induction` — a list is taken apart at its separators.
-/

namespace Catalogue.Lists

variable {α β : Type}

/-! ## What becomes of items -/

theorem mapM_eq_none_iff {f : α → Option β} {as : List α} :
    as.mapM f = none ↔ ∃ a ∈ as, f a = none := by
  induction as with
  | nil => simp
  | cons a rest ih =>
    simp only [List.mapM_cons, List.mem_cons, exists_eq_or_imp, ← ih]
    cases f a with
    | none => simp
    | some b => cases rest.mapM f <;> simp

/-- Where more items become something there is more in the end. -/
theorem length_filterMap_le_length {f g : α → Option β} {as : List α}
    (h : ∀ a ∈ as, (f a).isSome = true → (g a).isSome = true) :
    (as.filterMap f).length ≤ (as.filterMap g).length := by
  induction as with
  | nil => exact Nat.le_refl 0
  | cons a rest ih =>
    obtain ⟨ha, hrest⟩ := List.forall_mem_cons.mp h
    have := ih hrest
    cases hf : f a with
    | none =>
      rw [List.filterMap_cons_none hf]
      exact Nat.le_trans this (List.Sublist.filterMap g (List.sublist_cons_self a rest)).length_le
    | some b =>
      obtain ⟨c, hc⟩ := Option.isSome_iff_exists.mp (ha (by rw [hf]; rfl))
      rw [List.filterMap_cons_some hf, List.filterMap_cons_some hc]
      exact Nat.succ_le_succ this

/-- What some items become keeps their names, in order. -/
theorem map_filterMap_sublist {κ : Type} {f : α → Option β} {key : β → κ} {name : α → κ}
    (h : ∀ a b, f a = some b → key b = name a) (as : List α) :
    ((as.filterMap f).map key).Sublist (as.map name) := by
  induction as with
  | nil => exact .slnil
  | cons a rest ih =>
    cases hf : f a with
    | none =>
      rw [List.filterMap_cons_none hf, List.map_cons]
      exact ih.cons _
    | some b =>
      rw [List.filterMap_cons_some hf, List.map_cons, List.map_cons, h a b hf]
      exact ih.cons_cons _

/-! ## Rows of one key -/

section Keys

variable {κ : Type} {key : α → κ} {as bs : List α}

/-- The first key is not greater than any other. -/
theorem key_le_of_mem [Preorder κ] {a b : α} (h : ∀ c ∈ as, key a ≤ key c) (hb : b ∈ a :: as) :
    key a ≤ key b := by
  rcases List.mem_cons.mp hb with rfl | hb
  · exact le_rfl
  · exact h b hb

variable [BEq κ] [LawfulBEq κ]

theorem mem_of_filter_key_eq
    (h : ∀ k, as.filter (fun a => key a == k) = bs.filter (fun a => key a == k)) {a : α}
    (ha : a ∈ as) : a ∈ bs := by
  have hrow : a ∈ as.filter (fun b => key b == key a) :=
    List.mem_filter.mpr ⟨ha, beq_self_eq_true _⟩
  rw [h] at hrow
  exact List.mem_of_mem_filter hrow

/-- Lists in the order of their keys that have the same rows are the same. -/
theorem eq_of_filter_key_eq [PartialOrder κ] (has : as.Pairwise fun a b => key a ≤ key b)
    (hbs : bs.Pairwise fun a b => key a ≤ key b)
    (h : ∀ k, as.filter (fun a => key a == k) = bs.filter (fun a => key a == k)) : as = bs := by
  induction as generalizing bs with
  | nil =>
    rw [eq_comm, List.eq_nil_iff_forall_not_mem]
    exact fun a ha => List.not_mem_nil (mem_of_filter_key_eq (fun k => (h k).symm) ha)
  | cons a as ih =>
    cases bs with
    | nil => exact absurd (mem_of_filter_key_eq h List.mem_cons_self) List.not_mem_nil
    | cons b bs =>
      obtain ⟨ha, has⟩ := List.pairwise_cons.mp has
      obtain ⟨hb, hrest⟩ := List.pairwise_cons.mp hbs
      -- each list has the first item of the other, so neither of the two keys is less
      have hkeys : key a = key b :=
        le_antisymm
          (key_le_of_mem ha (mem_of_filter_key_eq (fun k => (h k).symm) List.mem_cons_self))
          (key_le_of_mem hb (mem_of_filter_key_eq h List.mem_cons_self))
      obtain rfl : a = b := by
        have hrow := h (key a)
        rw [List.filter_cons_of_pos (by simp), List.filter_cons_of_pos (by simp [hkeys])] at hrow
        exact (List.cons.inj hrow).1
      rw [ih has hrest fun k => ?_]
      have hrow := h k
      rw [List.filter_cons, List.filter_cons] at hrow
      split at hrow
      · exact (List.cons.inj hrow).2
      · exact hrow

/-- Every item is in the row of its key, and in no other row. -/
theorem flatMap_filter_key_perm {keys : List κ} (hkeys : keys.Nodup)
    (h : ∀ a ∈ as, key a ∈ keys) :
    (keys.flatMap fun k => as.filter fun a => key a == k).Perm as := by
  induction keys generalizing as with
  | nil =>
    rw [List.eq_nil_iff_forall_not_mem.mpr fun a ha => List.not_mem_nil (h a ha)]
    exact .nil
  | cons k rest ih =>
    obtain ⟨hk, hrest⟩ := List.nodup_cons.mp hkeys
    -- the rows of the other keys lose nothing when the items of this one are taken away
    have hothers : (rest.flatMap fun other => as.filter fun a => key a == other) =
        rest.flatMap fun other =>
          (as.filter fun a => !(key a == k)).filter fun a => key a == other := by
      refine List.flatMap_congr fun other hother => ?_
      rw [List.filter_filter]
      refine List.filter_congr fun a _ => ?_
      by_cases hkey : key a = other
      · have hne : other ≠ k := fun heq => hk (heq ▸ hother)
        simp [hkey, hne]
      · simp [hkey]
    have hleft : ∀ a ∈ as.filter fun a => !(key a == k), key a ∈ rest := by
      intro a ha
      obtain ⟨hmem, hne⟩ := List.mem_filter.mp ha
      exact (List.mem_cons.mp (h a hmem)).resolve_left (by simpa using hne)
    rw [List.flatMap_cons, hothers]
    exact ((ih hrest hleft).append_left _).trans (List.filter_append_perm _ _)

end Keys

/-! ## The first item outside a class -/

section Classes

variable {p : α → Bool}

/-- The first item outside a class stands behind items of the class. -/
theorem dropWhile_eq_cons_iff {as rest : List α} {a : α} :
    as.dropWhile p = a :: rest ↔
      p a = false ∧ ∃ front, (∀ x ∈ front, p x = true) ∧ as = front ++ a :: rest := by
  constructor
  · intro h
    refine ⟨?_, as.takeWhile p, fun x hx => List.mem_takeWhile_imp hx, ?_⟩
    · have hne : as.dropWhile p ≠ [] := by simp [h]
      have hhead := List.head_dropWhile_not p hne
      simpa [h] using hhead
    · rw [← h, List.takeWhile_append_dropWhile]
  · rintro ⟨ha, front, hfront, rfl⟩
    rw [List.dropWhile_append_of_pos hfront, List.dropWhile_cons_of_neg (by simp [ha])]

theorem takeWhile_append_cons {front rest : List α} {a : α} (hfront : ∀ x ∈ front, p x = true)
    (ha : p a = false) : (front ++ a :: rest).takeWhile p = front := by
  rw [List.takeWhile_append_of_pos hfront, List.takeWhile_cons_of_neg (by simp [ha]),
    List.append_nil]

/-- There is one place where the items of a class end for the first time. -/
theorem append_cons_inj {front front' rest rest' : List α} {a a' : α}
    (hfront : ∀ x ∈ front, p x = true) (ha : p a = false) (hfront' : ∀ x ∈ front', p x = true)
    (ha' : p a' = false) (h : front ++ a :: rest = front' ++ a' :: rest') :
    front = front' ∧ a = a' ∧ rest = rest' := by
  have hfronts : front = front' := by
    calc front = (front ++ a :: rest).takeWhile p := (takeWhile_append_cons hfront ha).symm
      _ = (front' ++ a' :: rest').takeWhile p := by rw [h]
      _ = front' := takeWhile_append_cons hfront' ha'
  rw [hfronts, List.append_cancel_left_eq, List.cons.injEq] at h
  exact ⟨hfronts, h⟩

/-- A list is one piece without separators, or such a piece, a separator and a list. -/
theorem pieces_induction {motive : List α → Prop}
    (last : ∀ f, (∀ a ∈ f, p a = false) → motive f)
    (more : ∀ f sep rest, (∀ a ∈ f, p a = false) → p sep = true → motive rest →
      motive (f ++ sep :: rest)) (as : List α) : motive as := by
  induction hn : as.length using Nat.strongRecOn generalizing as with
  | _ n ih =>
    subst hn
    cases hrest : as.dropWhile (fun a => !p a) with
    | nil =>
      refine last as fun a ha => ?_
      simpa using List.dropWhile_eq_nil_iff.mp hrest a ha
    | cons sep rest =>
      obtain ⟨hsep, front, hfront, rfl⟩ := dropWhile_eq_cons_iff.mp hrest
      refine more front sep rest (fun a ha => by simpa using hfront a ha) (by simpa using hsep) ?_
      exact ih _ (by simp; omega) rest rfl

end Classes

end Catalogue.Lists
