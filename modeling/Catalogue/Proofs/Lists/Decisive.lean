import Mathlib.Data.List.Nodup

/-!
# What decides among many

Where each of several items may give a value, either the first of them that does decides, or the
last.

* `FirstOf` and `LastOf` — the value that the first, or the last, item to give one gives.
* `findSome?_eq_some_iff_firstOf`, `findSome?_reverse_eq_some_iff_lastOf` — a search comes to what
  the first gives, and backwards to what the last gives.
* `find?_key_eq_some_iff` — where keys differ, a search for a key comes to the only item with it.
-/

namespace Catalogue.Lists

variable {α β : Type} {Gives : α → β → Prop} {items : List α} {f : α → Option β}

/-- The first of the items that give a value gives this one. -/
def FirstOf (Gives : α → β → Prop) (items : List α) (b : β) : Prop :=
  ∃ before x after, items = before ++ x :: after ∧ Gives x b ∧ ∀ y ∈ before, ∀ c, ¬ Gives y c

/-- The last of the items that give a value gives this one. -/
def LastOf (Gives : α → β → Prop) (items : List α) (b : β) : Prop :=
  ∃ before x after, items = before ++ x :: after ∧ Gives x b ∧ ∀ y ∈ after, ∀ c, ¬ Gives y c

/-- Backwards the first is the last. -/
theorem firstOf_reverse {b : β} : FirstOf Gives items.reverse b ↔ LastOf Gives items b := by
  constructor
  · rintro ⟨after, x, before, hitems, hx, hafter⟩
    refine ⟨before.reverse, x, after.reverse, ?_, hx, fun y hy => hafter y (List.mem_reverse.mp hy)⟩
    have := congrArg List.reverse hitems
    simpa using this
  · rintro ⟨before, x, after, rfl, hx, hafter⟩
    exact ⟨after.reverse, x, before.reverse, by simp, hx,
      fun y hy => hafter y (List.mem_reverse.mp hy)⟩

/-- What is made of the values of items is made of the one that the first gives. -/
theorem firstOf_map {γ : Type} {g : β → γ} {c : γ} :
    FirstOf (fun x c => ∃ b, Gives x b ∧ g b = c) items c ↔
      ∃ b, FirstOf Gives items b ∧ g b = c := by
  constructor
  · rintro ⟨before, x, after, rfl, ⟨b, hx, rfl⟩, hbefore⟩
    exact ⟨b, ⟨before, x, after, rfl, hx, fun y hy c hc => hbefore y hy (g c) ⟨c, hc, rfl⟩⟩, rfl⟩
  · rintro ⟨b, ⟨before, x, after, rfl, hx, hbefore⟩, rfl⟩
    refine ⟨before, x, after, rfl, ⟨b, hx, rfl⟩, ?_⟩
    rintro y hy _ ⟨c, hc, rfl⟩
    exact hbefore y hy c hc

/-- An item that gives no value is one for which there is none. -/
theorem eq_none_iff_forall_not {x : α} (h : ∀ b, f x = some b ↔ Gives x b) :
    f x = none ↔ ∀ b, ¬ Gives x b := by
  rw [Option.eq_none_iff_forall_ne_some]
  exact forall_congr' fun b => not_congr (h b)

/-- A search that gives what each item gives finds what the first one gives. -/
theorem findSome?_eq_some_iff_firstOf (h : ∀ x ∈ items, ∀ b, f x = some b ↔ Gives x b) {b : β} :
    items.findSome? f = some b ↔ FirstOf Gives items b := by
  rw [List.findSome?_eq_some_iff]
  constructor
  · rintro ⟨before, x, after, rfl, hx, hbefore⟩
    refine ⟨before, x, after, rfl, (h x (by simp) b).mp hx, fun y hy => ?_⟩
    exact (eq_none_iff_forall_not (h y (List.mem_append_left _ hy))).mp (hbefore y hy)
  · rintro ⟨before, x, after, rfl, hx, hbefore⟩
    refine ⟨before, x, after, rfl, (h x (by simp) b).mpr hx, fun y hy => ?_⟩
    exact (eq_none_iff_forall_not (h y (List.mem_append_left _ hy))).mpr (hbefore y hy)

/-- Backwards the search finds what the last one gives. -/
theorem findSome?_reverse_eq_some_iff_lastOf (h : ∀ x ∈ items, ∀ b, f x = some b ↔ Gives x b)
    {b : β} : items.reverse.findSome? f = some b ↔ LastOf Gives items b := by
  rw [← firstOf_reverse]
  exact findSome?_eq_some_iff_firstOf fun x hx => h x (List.mem_reverse.mp hx)

/-- The search finds nothing when no item gives a value. -/
theorem findSome?_eq_none_iff_forall (h : ∀ x ∈ items, ∀ b, f x = some b ↔ Gives x b) :
    items.findSome? f = none ↔ ∀ x ∈ items, ∀ b, ¬ Gives x b := by
  rw [List.findSome?_eq_none_iff]
  exact forall₂_congr fun x hx => eq_none_iff_forall_not (h x hx)

/-- Among items with different keys, a search for a key finds the item with that key. -/
theorem find?_key_eq_some_iff {κ : Type} [BEq κ] [LawfulBEq κ] {key : α → κ}
    (h : (items.map key).Nodup) {k : κ} {a : α} :
    items.find? (fun b => key b == k) = some a ↔ a ∈ items ∧ key a = k := by
  constructor
  · intro hfind
    have hkey := List.find?_some hfind
    exact ⟨List.mem_of_find?_eq_some hfind, beq_iff_eq.mp hkey⟩
  · rintro ⟨hmem, rfl⟩
    have hsome : (items.find? (fun b => key b == key a)).isSome :=
      List.find?_isSome.mpr ⟨a, hmem, beq_self_eq_true _⟩
    obtain ⟨b, hb⟩ := Option.isSome_iff_exists.mp hsome
    have hkey := List.find?_some hb
    rw [hb, List.inj_on_of_nodup_map h (List.mem_of_find?_eq_some hb) hmem (beq_iff_eq.mp hkey)]

end Catalogue.Lists
