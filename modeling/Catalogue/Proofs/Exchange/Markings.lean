import Catalogue.Exchange.Security
import Catalogue.Proofs.Lists.Distinct
import Catalogue.Proofs.Text.Words

/-!
# Markings

A single marking of each kind, folded into a descriptor and written into a record.

* `union_eq` — the items of a list once each, in the order in which they first occur.
* `Descriptor.get?_apply_key` and `get?_apply_of_ne` — what a descriptor writes.
* `plainMarking` — what one marking of a kind amounts to; `plainMarking_plain` — no more is done to
  it.
-/

namespace Catalogue.Exchange

open Catalogue.Lists
open Catalogue.Text

/-! ## Merging -/

/-- The known items, and then every other item once. -/
theorem union_eq (known ts : List String) :
    union known ts = known ++ (ts.filter (· ∉ known)).eraseDups := by
  induction ts generalizing known with
  | nil => simp [union]
  | cons t rest ih =>
    rw [union]
    split
    · next hmem => rw [ih, List.filter_cons_of_neg (by simpa using hmem)]
    · next hnot =>
      rw [ih, List.filter_cons_of_pos (by simpa using hnot), List.eraseDups_cons,
        List.filter_filter, List.append_assoc, List.singleton_append]
      congr 3
      refine List.filter_congr fun s _ => ?_
      rw [Bool.eq_iff_iff]
      simp [and_comm]

/-- The items of a list once each, in the order in which they first occur. -/
theorem union_nil (ts : List String) : union [] ts = ts.eraseDups := by
  rw [union_eq]
  simp

/-! ## Writing a descriptor -/

theorem Marking.key_inj {m n : Marking} (h : m.key = n.key) : m = n := by
  cases m <;> cases n <;> first | rfl | exact absurd h (by decide)

namespace Descriptor

/-- Writes one marking, if it has a value. -/
def write (d : Descriptor) (r : Record) (m : Marking) : Record :=
  match d.get m with
  | some s => r.set m.key (.text s)
  | none => r

theorem apply_eq (d : Descriptor) (r : Record) :
    d.apply r = d.write (d.write (d.write r .classification) .policy) .releasability := rfl

/-- A written marking is found under its key, and other keys keep their values. -/
theorem get?_write (d : Descriptor) (r : Record) (m : Marking) (key : String) :
    (d.write r m).get? key =
      if m.key = key then ((d.get m).map .text).or (r.get? key) else r.get? key := by
  rw [write]
  cases d.get m with
  | none => simp
  | some s =>
    show (r.set m.key (.text s)).get? key = _
    by_cases h : m.key = key
    · subst h
      rw [if_pos rfl]
      exact Record.Attributes.get?_set_self _ _ _
    · rw [if_neg h]
      exact Record.Attributes.get?_set_of_ne _ _ h

theorem get?_apply_key (d : Descriptor) (r : Record) (m : Marking) :
    (d.apply r).get? m.key = ((d.get m).map .text).or (r.get? m.key) := by
  have hkey : ∀ n : Marking, (n.key = m.key) = (n = m) := fun n =>
    propext ⟨Marking.key_inj, congrArg Marking.key⟩
  simp only [apply_eq, get?_write, hkey]
  cases m <;> rfl

theorem get?_apply_of_ne (d : Descriptor) (r : Record) {key : String}
    (h : ∀ m ∈ Marking.all, m.key ≠ key) : (d.apply r).get? key = r.get? key := by
  have hne : ∀ m : Marking, m.key ≠ key := fun m => h m (by cases m <;> decide)
  rw [apply_eq, get?_write, if_neg (hne _), get?_write, if_neg (hne _), get?_write, if_neg (hne _)]

/-- A value is the text of a marking or stood there before. -/
theorem text_or_of_get?_apply {d : Descriptor} {r : Record} {key : String} {v : Record.Value}
    (h : (d.apply r).get? key = some v) :
    (∃ m ∈ Marking.all, m.key = key ∧ ∃ s, v = .text s) ∨ r.get? key = some v := by
  by_cases hkey : ∀ m ∈ Marking.all, m.key ≠ key
  · rw [get?_apply_of_ne d r hkey] at h
    exact .inr h
  · push Not at hkey
    obtain ⟨m, hm, rfl⟩ := hkey
    rw [get?_apply_key, Option.or_eq_some_iff, Option.map_eq_some_iff] at h
    rcases h with ⟨s, -, rfl⟩ | ⟨-, h⟩
    · exact .inl ⟨m, hm, rfl, s, rfl⟩
    · exact .inr h

/-- A descriptor writes values only. -/
theorem apply_eq_setAll (d : Descriptor) (r : Record) :
    ∃ ws : List (String × Record.Value), d.apply r =
      { r with attributes := ws.foldl (fun a w => a.set w.1 w.2) r.attributes } := by
  have hwrite : ∀ (r : Record) (m : Marking), ∃ ws : List (String × Record.Value), d.write r m =
      { r with attributes := ws.foldl (fun a w => a.set w.1 w.2) r.attributes } := by
    intro r m
    rw [write]
    cases d.get m with
    | none => exact ⟨[], rfl⟩
    | some s => exact ⟨[(m.key, .text s)], rfl⟩
  obtain ⟨ws₁, h₁⟩ := hwrite r .classification
  obtain ⟨ws₂, h₂⟩ := hwrite (d.write r .classification) .policy
  obtain ⟨ws₃, h₃⟩ := hwrite (d.write (d.write r .classification) .policy) .releasability
  refine ⟨ws₁ ++ ws₂ ++ ws₃, ?_⟩
  rw [apply_eq, h₃, h₂, h₁, List.foldl_append, List.foldl_append]

end Descriptor

/-! ## The markings of a record -/

/-- The markings of a record. -/
def marks (r : Record) : List (Marking × String) :=
  Marking.all.filterMap fun m => (r.text? m.key).map (m, ·)

/-- What one marking of a kind amounts to. -/
def plainMarking (m : Marking) (s : String) : Option String :=
  match m with
  | .classification => some s
  | .policy => tokensText (words s).eraseDups
  | .releasability => tokensText (words s)

/-- The words of tokens written out are these tokens. -/
theorem words_of_tokensText {ws : List String} {t : String} (hws : ∀ w ∈ ws, IsWord w)
    (h : tokensText ws = some t) : words t = ws := by
  rw [tokensText] at h
  split at h
  · cases h
  · obtain rfl := Option.some.inj h
    exact words_unwords hws

/-- A plain marking amounts to itself. -/
theorem plainMarking_plain {m : Marking} {s t : String} (h : plainMarking m s = some t) :
    plainMarking m t = some t := by
  have hwords : ∀ w ∈ words s, IsWord w := fun w hw => isWord_of_mem_words hw
  cases m with
  | classification => rfl
  | policy =>
    have htokens : words t = (words s).eraseDups :=
      words_of_tokensText (fun w hw => hwords w (List.mem_eraseDups.mp hw)) h
    rw [plainMarking, htokens, eraseDups_eraseDups]
    exact h
  | releasability =>
    rw [plainMarking, words_of_tokensText hwords h]
    exact h

/-- The markings of a record amount to one plain marking of each kind. -/
theorem get_fold_marks (mode : Narrowing) (r : Record) (m : Marking) :
    ((marks r).foldl (fun d m => d.fold mode m.1 m.2) ({} : Descriptor)).get m =
      (r.text? m.key).bind (plainMarking m) := by
  simp only [marks, Marking.all, List.filterMap_cons, List.filterMap_nil]
  cases hc : r.text? Marking.classification.key <;> cases hp : r.text? Marking.policy.key <;>
    cases hr : r.text? Marking.releasability.key <;> cases m <;>
    simp [Descriptor.fold, Descriptor.get, hc, hp, hr, plainMarking, stricterClassification,
      unitePolicies, narrowReleasability, union_nil]

end Catalogue.Exchange
