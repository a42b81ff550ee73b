import Catalogue.Schema.Basic
import Mathlib.Data.List.Induction
import Mathlib.Data.List.Sort

/-!
# What a table holds

The keys of a table increase strictly, in whatever order its values were put there. Under keys that
are all different it holds the values that were put under them, and nothing else.

* `Sorted.set`, `sorted_ofList` — the keys of a table are sorted.
* `get?_ofList_iff` — the values of a table.
* `keys_ofList_eq_filter` — the keys of a table of entities.
-/

namespace Catalogue.Schema

namespace Table

variable {κ α : Type} [DecidableEq κ] [LT κ] [DecidableLT κ]

/-! ## Keys -/

theorem mem_keys_set {t : Table κ α} {key k : κ} {value : α} :
    k ∈ (t.set key value).keys ↔ k = key ∨ k ∈ t.keys := by
  induction t with
  | nil => simp [set, keys]
  | cons m rest ih =>
    rw [set]
    split
    · next h => simp [keys, h]
    · split
      · simp [keys]
      · simp only [keys, List.map_cons, List.mem_cons] at ih ⊢
        rw [ih]
        exact or_left_comm

/-- Putting a value keeps the keys sorted. -/
theorem Sorted.set [IsStrictTotalOrder κ (· < ·)] {t : Table κ α}
    (h : t.keys.Pairwise (· < ·)) (key : κ) (value : α) :
    (t.set key value).keys.Pairwise (· < ·) := by
  induction t with
  | nil => exact List.pairwise_singleton _ _
  | cons m rest ih =>
    obtain ⟨hm, hrest⟩ := List.pairwise_cons.mp h
    rw [Table.set]
    split
    · next heq => exact List.pairwise_cons.mpr ⟨fun k hk => heq ▸ hm k hk, hrest⟩
    · next hne =>
      split
      · next hlt =>
        refine List.pairwise_cons.mpr ⟨fun k hk => ?_, h⟩
        rcases List.mem_cons.mp hk with rfl | hk
        · exact hlt
        · exact IsTrans.trans _ _ _ hlt (hm k hk)
      · next hnot =>
        have hgt : m.1 < key :=
          (trichotomous_of (· < ·) m.1 key).resolve_right fun h => h.elim hne hnot
        refine List.pairwise_cons.mpr ⟨fun k hk => ?_, ih hrest⟩
        rcases mem_keys_set.mp hk with rfl | hk
        · exact hgt
        · exact hm k hk

theorem ofList_concat (l : List (κ × α)) (m : κ × α) :
    (ofList (l ++ [m]) : Table κ α) = (ofList l : Table κ α).set m.1 m.2 :=
  List.foldl_append

theorem mem_keys_ofList {l : List (κ × α)} {k : κ} :
    k ∈ (ofList l : Table κ α).keys ↔ k ∈ l.map Prod.fst := by
  induction l using List.reverseRecOn with
  | nil => exact Iff.rfl
  | append_singleton l m ih =>
    rw [ofList_concat, mem_keys_set, ih, List.map_append, List.mem_append, List.map_singleton,
      List.mem_singleton, or_comm]

theorem sorted_ofList [IsStrictTotalOrder κ (· < ·)] (l : List (κ × α)) :
    (ofList l : Table κ α).keys.Pairwise (· < ·) := by
  induction l using List.reverseRecOn with
  | nil => exact List.Pairwise.nil
  | append_singleton l m ih =>
    rw [ofList_concat]
    exact Sorted.set ih _ _

/-! ## Values -/

/-- Under different keys a table holds what was put under them. -/
theorem get?_ofList_iff {l : List (κ × α)} (h : (l.map Prod.fst).Nodup) {k : κ} {a : α} :
    (ofList l : Table κ α).get? k = some a ↔ (k, a) ∈ l := by
  induction l using List.reverseRecOn with
  | nil => simp [ofList, get?]
  | append_singleton l m ih =>
    rw [List.map_append, List.nodup_append] at h
    obtain ⟨hnodup, -, hnew⟩ := h
    rw [ofList_concat, List.mem_append, List.mem_singleton]
    by_cases hk : m.1 = k
    · subst hk
      have hnot : (m.1, a) ∉ l := fun hmem =>
        hnew m.1 (List.mem_map.mpr ⟨_, hmem, rfl⟩) m.1 (by simp) rfl
      rw [get?_set_self, Option.some_inj]
      exact ⟨fun ha => .inr (Prod.ext rfl ha.symm),
        fun hmem => (congrArg Prod.snd (hmem.resolve_left hnot)).symm⟩
    · rw [get?_set_of_ne _ _ hk, ih hnodup]
      exact ⟨.inl, fun hmem => hmem.resolve_right fun heq => hk (congrArg Prod.fst heq).symm⟩

end Table

/-! ## Tables of entities -/

namespace Entity

theorem place_injective : Function.Injective place :=
  fun d _ h => (List.idxOf_inj (mem_all d)).mp h

theorem pairwise_all : all.Pairwise (· < ·) := by decide

end Entity

instance : IsStrictTotalOrder Entity (· < ·) where
  irrefl e := Nat.lt_irrefl e.place
  trans _ _ _ := Nat.lt_trans
  trichotomous d e hde hed := Entity.place_injective (by
    have : ¬ d.place < e.place := hde
    have : ¬ e.place < d.place := hed
    omega)

/-- The keys of a table of entities are in the order in which entities are listed. -/
theorem Table.keys_ofList_eq_filter {α : Type} (l : List (Entity × α)) :
    (ofList l : Table Entity α).keys = Entity.all.filter (· ∈ l.map Prod.fst) := by
  refine (sorted_ofList l).eq_of_mem_iff (Entity.pairwise_all.filter _) fun e => ?_
  rw [mem_keys_ofList, List.mem_filter, decide_eq_true_eq, and_iff_right (Entity.mem_all e)]

end Catalogue.Schema
