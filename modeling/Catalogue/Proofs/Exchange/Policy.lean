import Catalogue.Proofs.Exchange.Releasability

/-!
# Every policy token once

A policy is a set of tokens written as a text. Merging policies keeps every token that occurs, once,
in the order in which the tokens first occur; it is associative, and a policy merged with itself is
only tidied up.

* `tokens_unitePolicies` — the tokens of two policies merged.
* `policy_foldl` — the policy after markings of all kinds.
* `decode_policy` — the policy of a decoded record.
* `fold_policies` — what the policy of a descriptor lists, and which policies change it.
-/

namespace Catalogue.Exchange

open Catalogue.Lists
open Catalogue.Text

/-! ## Merging -/

theorem isWord_of_mem_tokens {a : Option String} {t : String} (h : t ∈ tokens a) : IsWord t := by
  cases a with
  | none => cases h
  | some s => exact isWord_of_mem_words h

theorem tokens_tokensText_eraseDups {ts : List String} (h : ∀ t ∈ ts, IsWord t) :
    tokens (tokensText ts.eraseDups) = ts.eraseDups :=
  tokens_tokensText fun t ht => h t (List.mem_eraseDups.mp ht)

theorem unitePolicies_eq (a b : Option String) :
    unitePolicies a b = tokensText (tokens a ++ tokens b).eraseDups :=
  congrArg tokensText (union_nil _)

/-- Merging keeps every token of both policies once. -/
theorem tokens_unitePolicies (a b : Option String) :
    tokens (unitePolicies a b) = (tokens a ++ tokens b).eraseDups := by
  rw [unitePolicies_eq]
  refine tokens_tokensText_eraseDups fun t ht => ?_
  exact (List.mem_append.mp ht).elim isWord_of_mem_tokens isWord_of_mem_tokens

/-- A policy with each of its tokens once. -/
def tidied (a : Option String) : Option String := tokensText (tokens a).eraseDups

theorem unitePolicies_none (a : Option String) : unitePolicies a none = tidied a := by
  rw [unitePolicies_eq, tidied]
  exact congrArg (fun ts => tokensText ts.eraseDups) (List.append_nil _)

/-- A policy that says nothing new only tidies up. -/
theorem unitePolicies_of_subset {a b : Option String} (h : ∀ t ∈ tokens b, t ∈ tokens a) :
    unitePolicies a b = tidied a := by
  rw [unitePolicies_eq, eraseDups_append_of_subset h, tidied]

/-- Merged policies are tidy. -/
theorem tidied_unitePolicies (a b : Option String) :
    tidied (unitePolicies a b) = unitePolicies a b := by
  rw [tidied, tokens_unitePolicies, eraseDups_eraseDups, unitePolicies_eq]

/-- Grouping does not matter. -/
theorem unitePolicies_assoc (a b c : Option String) :
    unitePolicies (unitePolicies a b) c = unitePolicies a (unitePolicies b c) := by
  rw [unitePolicies_eq _ c, tokens_unitePolicies, eraseDups_append_left, List.append_assoc,
    unitePolicies_eq a, tokens_unitePolicies, eraseDups_append_right]

/-! ## Many markings -/

/-- The policies among markings, in order. -/
def policies (ms : List (Marking × String)) : List String := ms.filterMap (textOf? .policy)

/-- What markings amount to that are taken in one after another. -/
def Descriptor.ofMarkings (mode : Narrowing) (ms : List (Marking × String)) : Descriptor :=
  ms.foldl (fun d m => d.fold mode m.1 m.2) {}

variable {mode : Narrowing}

/-- Markings of other kinds leave the policy alone; each policy is merged into it. -/
theorem policy_foldl (d : Descriptor) (ms : List (Marking × String)) :
    (ms.foldl (fun d m => d.fold mode m.1 m.2) d).policy =
      (policies ms).foldl (fun running v => unitePolicies running (some v)) d.policy := by
  induction ms generalizing d with
  | nil => rfl
  | cons m rest ih =>
    obtain ⟨m, s⟩ := m
    rw [List.foldl_cons, ih]
    cases m <;> rfl

theorem tokens_tokensText_flatMap (vs : List String) :
    tokens (tokensText (vs.flatMap words).eraseDups) = (vs.flatMap words).eraseDups := by
  refine tokens_tokensText_eraseDups fun t ht => ?_
  obtain ⟨v, -, ht⟩ := List.mem_flatMap.mp ht
  exact isWord_of_mem_words ht

/-- Policies merged from left to right have the tokens of all of them once each. -/
theorem foldl_unitePolicies (vs : List String) :
    vs.foldl (fun running v => unitePolicies running (some v)) none =
      tokensText (vs.flatMap words).eraseDups := by
  induction vs using List.reverseRecOn with
  | nil => rfl
  | append_singleton vs v ih =>
    rw [List.foldl_concat, ih, unitePolicies_eq, tokens_tokensText_flatMap, eraseDups_append_left,
      List.flatMap_append, List.flatMap_singleton]
    rfl

theorem policy_ofMarkings (ms : List (Marking × String)) :
    (Descriptor.ofMarkings mode ms).policy =
      tokensText ((policies ms).flatMap words).eraseDups :=
  (policy_foldl {} ms).trans (foldl_unitePolicies _)

theorem tokens_policy_ofMarkings (ms : List (Marking × String)) :
    tokens (Descriptor.ofMarkings mode ms).policy = ((policies ms).flatMap words).eraseDups := by
  rw [policy_ofMarkings, tokens_tokensText_flatMap]

/-- The policy of a descriptor is tidy. -/
theorem tidied_policy_ofMarkings (ms : List (Marking × String)) :
    tidied (Descriptor.ofMarkings mode ms).policy = (Descriptor.ofMarkings mode ms).policy := by
  rw [tidied, tokens_policy_ofMarkings, eraseDups_eraseDups, policy_ofMarkings]

/-- A policy whose tokens are all there changes nothing. -/
theorem fold_policy_of_subset {ms : List (Marking × String)} {v : String}
    (h : ∀ t ∈ words v, t ∈ tokens (Descriptor.ofMarkings mode ms).policy) :
    (Descriptor.ofMarkings mode ms).fold mode .policy v = Descriptor.ofMarkings mode ms := by
  have hsubset : ∀ t ∈ tokens (some v), t ∈ tokens (Descriptor.ofMarkings mode ms).policy := h
  rw [Descriptor.fold, unitePolicies_of_subset hsubset, tidied_policy_ofMarkings]

theorem tokensText_eq_none_iff {ts : List String} : tokensText ts = none ↔ ts = [] := by
  rw [tokensText, ← List.isEmpty_iff]
  split <;> simp [*]

/-- The policy of a decoded record has the tokens of the policies on its walk. -/
theorem decode_policy {g : Graph} {t : Graph.Topology} (ht : g.topology = .ok t)
    {fallback : String} {r : Record} (h : (decode fallback mode g).result = .ok r) :
    r.text? Marking.policy.key =
      tokensText (((visits t).filterMap (Visit.marked? .policy)).flatMap words).eraseDups := by
  obtain ⟨d, hfollow, htext⟩ := marking_of_decode ht h .policy
  have hpolicy : d.markings.policy =
      (Descriptor.ofMarkings mode ((readings (visits t)).filterMap Reading.mark?)).policy :=
    congrArg Descriptor.policy (markings_of_follow hfollow).1
  rw [htext, ← filterMap_mark?_textOf?, ← policies]
  exact hpolicy.trans (policy_ofMarkings _)

/--
The policy of a descriptor that markings have been folded into: the tokens of the policies once
each, in the order in which they first occur, with one space between neighbours, and no policy when
there is no token. A policy with no new token leaves the descriptor as it is, and the policies in
another order have the same tokens. Merging is associative, and a policy merged with itself is that
policy with each of its tokens once.
-/
theorem fold_policies (mode : Narrowing) (ms : List (Marking × String)) :
    (∃ ts, FirstOccurrences ((policies ms).flatMap words) ts ∧
      (Descriptor.ofMarkings mode ms).policy = tokensText ts ∧
      tokens (Descriptor.ofMarkings mode ms).policy = ts) ∧
    ((Descriptor.ofMarkings mode ms).policy = none ↔ ∀ v ∈ policies ms, words v = []) ∧
    (∀ v, (∀ t ∈ words v, t ∈ tokens (Descriptor.ofMarkings mode ms).policy) →
      (Descriptor.ofMarkings mode ms).fold mode .policy v = Descriptor.ofMarkings mode ms) ∧
    (∀ mode' ms', (policies ms').Perm (policies ms) → ∀ t,
      t ∈ tokens (Descriptor.ofMarkings mode' ms').policy ↔
        t ∈ tokens (Descriptor.ofMarkings mode ms).policy) ∧
    (∀ a b c, unitePolicies (unitePolicies a b) c = unitePolicies a (unitePolicies b c)) ∧
    ∀ a, unitePolicies a a = tidied a ∧ tidied (tidied a) = tidied a ∧
      FirstOccurrences (tokens a) (tokens (tidied a)) := by
  refine ⟨⟨_, firstOccurrences_eraseDups _, policy_ofMarkings ms, tokens_policy_ofMarkings ms⟩, ?_,
    fun v => fold_policy_of_subset, fun mode' ms' hperm t => ?_, unitePolicies_assoc,
    fun a => ?_⟩
  · rw [policy_ofMarkings, tokensText_eq_none_iff, eraseDups_eq_nil_iff, List.flatMap_eq_nil_iff]
  · rw [tokens_policy_ofMarkings, tokens_policy_ofMarkings, List.mem_eraseDups, List.mem_eraseDups]
    exact (hperm.flatMap_right words).mem_iff
  · refine ⟨unitePolicies_of_subset fun _ => id, ?_, ?_⟩
    · rw [← unitePolicies_none a, tidied_unitePolicies]
    · rw [tidied, tokens_tokensText_eraseDups fun _ => isWord_of_mem_tokens]
      exact firstOccurrences_eraseDups _

/-- Policies with blanks of several kinds, one without a token, next to other markings. -/
def spaced : List (Marking × String) :=
  [(.policy, "\u2003NATO\u00a0EU  NATO"), (.classification, "S"), (.policy, " \t"),
    (.releasability, "UK"), (.policy, "EU\nFVEY")]

theorem fold_policies_spaced :
    (Descriptor.ofMarkings .legacy spaced).policy = some "NATO EU FVEY" ∧
    FirstOccurrences ["NATO", "EU", "NATO", "EU", "FVEY"] ["NATO", "EU", "FVEY"] ∧
    (∀ t ∈ words "FVEY\u2028NATO", t ∈ tokens (Descriptor.ofMarkings .legacy spaced).policy) ∧
    (Descriptor.ofMarkings .legacy spaced).fold .legacy .policy "FVEY\u2028NATO" =
      Descriptor.ofMarkings .legacy spaced ∧
    ∀ t, t ∈ tokens (Descriptor.ofMarkings .intersection spaced.reverse).policy ↔
      t ∈ tokens (Descriptor.ofMarkings .legacy spaced).policy := by
  have hwords : (policies spaced).flatMap words = ["NATO", "EU", "NATO", "EU", "FVEY"] := by
    decide +kernel
  have hpolicy : (Descriptor.ofMarkings .legacy spaced).policy = some "NATO EU FVEY" := by
    decide +kernel
  obtain ⟨⟨ts, hfirst, -, htokens⟩, -, hcovered, horder, -⟩ := fold_policies .legacy spaced
  have hts : ts = ["NATO", "EU", "FVEY"] := by
    rw [← htokens, hpolicy]
    decide +kernel
  have hknown : ∀ t ∈ words "FVEY\u2028NATO",
      t ∈ tokens (Descriptor.ofMarkings .legacy spaced).policy := by
    decide +kernel
  rw [hwords, hts] at hfirst
  refine ⟨hpolicy, hfirst, hknown, hcovered _ hknown, horder .intersection spaced.reverse ?_⟩
  exact (List.reverse_perm spaced).filterMap _

end Catalogue.Exchange
