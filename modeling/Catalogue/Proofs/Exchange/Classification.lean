import Catalogue.Proofs.Exchange.Marked
import Mathlib.Order.WithBot

/-!
# The strictest classification

Classifications have levels, and one that is not ranked is below every ranked one. Of the
classifications on a walk the first of the greatest level is kept. Merging two of them is
associative and an absent one is its unit, so neither the order nor the grouping of classifications
changes the level that comes out.

* `IsStrictest` — the first of the greatest level.
* `isStrictest_strictest` — merging from left to right keeps it.
* `Grouping.merged_eq` — so does every other grouping.
* `decode_classification` — the classification of a decoded record.
-/

namespace Catalogue.Exchange

/-! ## Levels -/

/-- The level of a classification; one that is not ranked is below every ranked one. -/
def level (s : String) : WithBot ℕ :=
  match classificationLevel s with
  | some n => (n : WithBot ℕ)
  | none => ⊥

/-- A further classification replaces the running one exactly when its level is greater. -/
theorem outranks_iff (running new : String) :
    outranks running new = true ↔ level running < level new := by
  rw [outranks, level, level]
  cases classificationLevel running <;> cases classificationLevel new <;> simp

theorem stricterClassification_some (running new : String) :
    stricterClassification (some running) (some new) =
      some (if level running < level new then new else running) := by
  simp only [stricterClassification, outranks_iff]

/-- Grouping does not matter. -/
theorem stricterClassification_assoc (a b c : Option String) :
    stricterClassification (stricterClassification a b) c =
      stricterClassification a (stricterClassification b c) := by
  rcases a with _ | a
  · cases b <;> cases c <;> rfl
  rcases b with _ | b
  · cases c <;> rfl
  rcases c with _ | c
  · rfl
  simp only [stricterClassification_some]
  -- the one that is left over is compared with the last one in both groupings
  by_cases hab : level a < level b
  · by_cases hbc : level b < level c
    · simp [hab, hbc, hab.trans hbc]
    · simp [hab, hbc]
  · by_cases hbc : level b < level c
    · simp [hab, hbc]
    · simp [hab, hbc, not_lt.mpr ((not_lt.mp hbc).trans (not_lt.mp hab))]

theorem none_stricterClassification (a : Option String) : stricterClassification none a = a := rfl

theorem stricterClassification_none (a : Option String) : stricterClassification a none = a := by
  cases a <;> rfl

/-! ## Many classifications -/

/-- The first of the classifications with the greatest level. -/
def IsStrictest (v : String) (vs : List String) : Prop :=
  ∃ before after, vs = before ++ v :: after ∧ (∀ u ∈ before, level u < level v) ∧
    ∀ u ∈ after, level u ≤ level v

theorem IsStrictest.mem {v : String} {vs : List String} (h : IsStrictest v vs) : v ∈ vs := by
  obtain ⟨before, after, rfl, -⟩ := h
  exact List.mem_append_right _ List.mem_cons_self

theorem IsStrictest.level_le {v : String} {vs : List String} (h : IsStrictest v vs) :
    ∀ u ∈ vs, level u ≤ level v := by
  obtain ⟨before, after, rfl, hbefore, hafter⟩ := h
  intro u hu
  rcases List.mem_append.mp hu with hu | hu
  · exact (hbefore u hu).le
  · rcases List.mem_cons.mp hu with rfl | hu
    · exact le_rfl
    · exact hafter u hu

/-- The strictest of the same classifications in another order has the same level. -/
theorem IsStrictest.level_eq {v w : String} {vs ws : List String} (hv : IsStrictest v vs)
    (hw : IsStrictest w ws) (h : vs.Perm ws) : level v = level w :=
  le_antisymm (hw.level_le v (h.subset hv.mem)) (hv.level_le w (h.symm.subset hw.mem))

/-- The classifications merged from left to right. -/
def strictest (vs : List String) : Option String :=
  vs.foldl (fun running v => stricterClassification running (some v)) none

theorem strictest_concat (vs : List String) (v : String) :
    strictest (vs ++ [v]) = stricterClassification (strictest vs) (some v) :=
  List.foldl_concat _ _ _ _

/-- A further classification is the strictest when its level is greater than all before. -/
theorem IsStrictest.concat {v : String} {vs : List String} (h : IsStrictest v vs) (n : String) :
    IsStrictest (if level v < level n then n else v) (vs ++ [n]) := by
  split
  · next hlt =>
    exact ⟨vs, [], rfl, fun u hu => (h.level_le u hu).trans_lt hlt, nofun⟩
  · next hnot =>
    obtain ⟨before, after, rfl, hbefore, hafter⟩ := h
    refine ⟨before, after ++ [n], by simp, hbefore, fun u hu => ?_⟩
    rcases List.mem_append.mp hu with hu | hu
    · exact hafter u hu
    · rw [List.mem_singleton.mp hu]
      exact not_lt.mp hnot

/-- Merging classifications from left to right keeps the first of the greatest level. -/
theorem isStrictest_strictest {vs : List String} (h : vs ≠ []) :
    ∃ v, strictest vs = some v ∧ IsStrictest v vs := by
  induction vs using List.reverseRecOn with
  | nil => exact absurd rfl h
  | append_singleton vs n ih =>
    rw [strictest_concat]
    by_cases hvs : vs = []
    · subst hvs
      exact ⟨n, rfl, [], [], rfl, nofun, nofun⟩
    · obtain ⟨v, hv, hstrictest⟩ := ih hvs
      exact ⟨_, by rw [hv, stricterClassification_some], hstrictest.concat n⟩

theorem strictest_append (vs ws : List String) :
    strictest (vs ++ ws) = stricterClassification (strictest vs) (strictest ws) := by
  induction ws using List.reverseRecOn with
  | nil => rw [List.append_nil, strictest, strictest, List.foldl_nil, stricterClassification_none]
  | append_singleton ws n ih =>
    rw [← List.append_assoc, strictest_concat, strictest_concat, ih, stricterClassification_assoc]

/-! ## Groupings -/

/-- Classifications, some of them absent, with brackets around the ones that are merged first. -/
inductive Grouping where
  | one (v : Option String)
  | pair (a b : Grouping)

namespace Grouping

/-- The classifications that are there, in order. -/
def values : Grouping → List String
  | one v => v.toList
  | pair a b => a.values ++ b.values

/-- The classifications merged as they are grouped. -/
def merged : Grouping → Option String
  | one v => v
  | pair a b => stricterClassification a.merged b.merged

/-- However they are grouped, classifications are merged as from left to right. -/
theorem merged_eq (c : Grouping) : c.merged = strictest c.values := by
  induction c with
  | one v => cases v <;> rfl
  | pair a b iha ihb => rw [merged, values, iha, ihb, strictest_append]

end Grouping

/-! ## Walks -/

/-- The classifications that are read on a walk, in order. -/
def classifications (vs : List Visit) : List String :=
  vs.filterMap (Visit.marked? .classification)

theorem classification_foldl (mode : Narrowing) (d : Descriptor) (ms : List (Marking × String)) :
    (ms.foldl (fun d m => d.fold mode m.1 m.2) d).classification =
      (ms.filterMap (textOf? .classification)).foldl
        (fun running v => stricterClassification running (some v)) d.classification := by
  induction ms generalizing d with
  | nil => rfl
  | cons m rest ih =>
    obtain ⟨m, s⟩ := m
    rw [List.foldl_cons, ih]
    cases m <;> rfl

/-- The classification of a draft is the strictest on its walk. -/
theorem classification_of_follow {mode : Narrowing} {vs : List Visit} {d : Draft}
    (h : (Draft.follow mode {} vs).result = .ok d) :
    d.markings.classification = strictest (classifications vs) := by
  rw [(markings_of_follow h).1, classification_foldl, filterMap_mark?_textOf?]
  rfl

/--
The classification of a decoded record, where the walk reads at least one: it is the first of the
greatest level. The same classifications have that level in every order, also read from another
graph, and in every grouping. A walk that goes on never lowers the level.
-/
theorem decode_classification {g : Graph} {t : Graph.Topology} (h : g.topology = .ok t)
    (fallback : String) (mode : Narrowing) :
    (∀ r, (decode fallback mode g).result = .ok r → classifications (visits t) ≠ [] →
      ∃ v, r.text? Marking.classification.key = some v ∧
        IsStrictest v (classifications (visits t)) ∧
        (∀ g' t' fallback' mode' r', g'.topology = .ok t' →
          (decode fallback' mode' g').result = .ok r' →
          (classifications (visits t')).Perm (classifications (visits t)) →
          ∃ w, r'.text? Marking.classification.key = some w ∧ level w = level v) ∧
        ∀ c : Grouping, c.values.Perm (classifications (visits t)) →
          ∃ w, c.merged = some w ∧ level w = level v) ∧
    (∀ a b c, stricterClassification (stricterClassification a b) c =
      stricterClassification a (stricterClassification b c)) ∧
    (∀ a, stricterClassification none a = a ∧ stricterClassification a none = a) ∧
    ∀ us ws d d' v, (Draft.follow mode {} us).result = .ok d →
      (Draft.follow mode {} (us ++ ws)).result = .ok d' → d.markings.classification = some v →
      ∃ w, d'.markings.classification = some w ∧ level v ≤ level w := by
  -- the same classifications in another order have a strictest one of the same level
  have hperm : ∀ {v : String} {vs ws : List String}, IsStrictest v vs → ws.Perm vs →
      ∃ w, strictest ws = some w ∧ level w = level v := by
    intro v vs ws hv hws
    have hne : ws ≠ [] := by
      rintro rfl
      exact absurd (hws.nil_eq ▸ hv.mem) List.not_mem_nil
    obtain ⟨w, hw, hstrictest⟩ := isStrictest_strictest hne
    exact ⟨w, hw, hstrictest.level_eq hv hws⟩
  refine ⟨fun r hr hne => ?_, stricterClassification_assoc, fun a => ?_, ?_⟩
  · obtain ⟨d, hfollow, htext⟩ := marking_of_decode h hr .classification
    obtain ⟨v, hv, hstrictest⟩ := isStrictest_strictest hne
    refine ⟨v, htext.trans ((classification_of_follow hfollow).trans hv), hstrictest, ?_, ?_⟩
    · intro g' t' fallback' mode' r' h' hr' hsame
      obtain ⟨d', hfollow', htext'⟩ := marking_of_decode h' hr' .classification
      obtain ⟨w, hw, hlevel⟩ := hperm hstrictest hsame
      exact ⟨w, htext'.trans ((classification_of_follow hfollow').trans hw), hlevel⟩
    · intro c hsame
      rw [c.merged_eq]
      exact hperm hstrictest hsame
  · exact ⟨none_stricterClassification a, stricterClassification_none a⟩
  · intro us ws d d' v hd hd' hv
    have hus := classification_of_follow hd
    have hall := classification_of_follow hd'
    rw [classifications, List.filterMap_append, ← classifications, ← classifications,
      strictest_append, ← hus, hv] at hall
    rw [hall]
    cases strictest (classifications ws) with
    | none => exact ⟨v, rfl, le_rfl⟩
    | some n =>
      refine ⟨_, stricterClassification_some v n, ?_⟩
      split
      · next hlt => exact hlt.le
      · exact le_rfl

/-- Classifications in both entities that hold them, one not ranked, and one below an
association. -/
def classified : Graph where
  nodes := #[⟨0, .root, "product", none⟩, ⟨1, .entity, "security", none⟩,
    ⟨2, .leaf, "classification", some (.text "NATO COSMIC")⟩,
    ⟨3, .leaf, "classification", some (.text " secret")⟩,
    ⟨4, .entity, "metadataSecurity", none⟩, ⟨5, .leaf, "classification", some (.text "S")⟩,
    ⟨6, .entity, "association", none⟩, ⟨7, .entity, "security", none⟩,
    ⟨8, .leaf, "classification", some (.text "TS")⟩]
  edges := #[⟨0, 1⟩, ⟨1, 2⟩, ⟨1, 3⟩, ⟨0, 4⟩, ⟨4, 5⟩, ⟨0, 6⟩, ⟨6, 7⟩, ⟨7, 8⟩]

theorem decode_classification_classified : ∃ t, classified.topology = .ok t ∧
    classifications (visits t) = ["NATO COSMIC", " secret", "S"] ∧
    ∃ r, (decode "REPORT" .legacy classified).result = .ok r ∧
      r.text? Marking.classification.key = some " secret" ∧
      IsStrictest " secret" (classifications (visits t)) := by
  have hread : classified.topology.map (fun t => classifications (visits t)) =
      .ok ["NATO COSMIC", " secret", "S"] := by
    decide +kernel
  obtain ⟨t, ht⟩ : ∃ t, classified.topology = .ok t := ⟨_, rfl⟩
  rw [ht] at hread
  have hvisits : classifications (visits t) = ["NATO COSMIC", " secret", "S"] :=
    Except.ok.inj hread
  have hdecode : (decode "REPORT" .legacy classified).result = .ok
      { attributes := [("security.classification", .text " secret")]
        contentType := some "REPORT" } := by
    decide +kernel
  obtain ⟨v, hv, hstrictest, -⟩ := (decode_classification ht "REPORT" .legacy).1 _ hdecode
    (by rw [hvisits]; exact List.cons_ne_nil _ _)
  obtain rfl : " secret" = v := Option.some.inj hv
  exact ⟨t, ht, hvisits, _, hdecode, rfl, hstrictest⟩

end Catalogue.Exchange
