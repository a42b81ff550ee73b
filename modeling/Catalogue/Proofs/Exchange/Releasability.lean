import Catalogue.Proofs.Exchange.Marked
import Catalogue.Proofs.Text.Words

/-!
# Releasability narrows

A releasability is a set of tokens written as a text. What a record is released to is never more
than each of the markings says, and it only shrinks as further markings are read.

* `of_mem_tokens_narrowed` — one marking narrows the tokens, in either mode.
* `mem_tokens_intersection` — by intersection, exactly the tokens stay that the marking has too.
* `decode_releasability` — the tokens of a decoded record, and after every part of a walk.
-/

namespace Catalogue.Exchange

open Catalogue.Text

/-! ## Tokens -/

/-- The tokens of a value; a value that is absent has none. -/
def tokens (s : Option String) : List String := (s.map words).getD []

theorem tokens_tokensText {ts : List String} (h : ∀ t ∈ ts, IsWord t) :
    tokens (tokensText ts) = ts := by
  rw [tokensText]
  split
  · next hempty => rw [List.isEmpty_iff.mp hempty]; rfl
  · exact words_unwords h

theorem tokens_tokensText_words (s : String) : tokens (tokensText (words s)) = words s :=
  tokens_tokensText fun _ => isWord_of_mem_words

/-! ## One step -/

/-- A running releasability narrowed by a further one; nothing stays nothing. -/
def narrowed (mode : Narrowing) (running : Option String) (s : String) : Option String :=
  running.bind fun r => narrowReleasability mode (some r) (some s)

variable {mode : Narrowing}

theorem mem_tokens_narrowed {r s token : String} :
    token ∈ tokens (narrowed mode (some r) s) ↔
      token ∈ words r ∧ stays mode r (words s) token = true := by
  have hwords : ∀ t ∈ ((words r).filter (stays mode r (words s))).eraseDups, IsWord t := by
    intro t ht
    exact isWord_of_mem_words (List.mem_filter.mp (List.mem_eraseDups.mp ht)).1
  rw [narrowed, Option.bind_some, narrowReleasability, union_nil, tokens_tokensText hwords,
    List.mem_eraseDups, List.mem_filter]

/-- Narrowing leaves tokens that were there and that the new marking has. -/
theorem of_mem_tokens_narrowed {running : Option String} {s token : String}
    (h : token ∈ tokens (narrowed mode running s)) : token ∈ tokens running ∧ token ∈ words s := by
  cases running with
  | none => cases h
  | some r =>
    obtain ⟨htoken, hstays⟩ := mem_tokens_narrowed.mp h
    refine ⟨htoken, ?_⟩
    cases mode with
    | intersection => exact List.contains_iff_mem.mp hstays
    | legacy =>
      -- the whole running value is a token of the new marking, and so a token of itself alone
      have hr : r ∈ words s := List.contains_iff_mem.mp hstays
      rw [words_of_isWord (isWord_of_mem_words hr)] at htoken
      rwa [List.mem_singleton.mp htoken]

/-- By intersection exactly the tokens stay that the new marking has too. -/
theorem mem_tokens_intersection {running : Option String} {s token : String} :
    token ∈ tokens (narrowed .intersection running s) ↔
      token ∈ tokens running ∧ token ∈ words s := by
  refine ⟨of_mem_tokens_narrowed, fun ⟨htoken, hs⟩ => ?_⟩
  cases running with
  | none => cases htoken
  | some r => exact mem_tokens_narrowed.mpr ⟨htoken, List.contains_iff_mem.mpr hs⟩

/-! ## All steps -/

theorem of_mem_tokens_foldl {running : Option String} {vs : List String} {token : String}
    (h : token ∈ tokens (vs.foldl (narrowed mode) running)) :
    token ∈ tokens running ∧ ∀ v ∈ vs, token ∈ words v := by
  induction vs generalizing running with
  | nil => exact ⟨h, fun v hv => absurd hv List.not_mem_nil⟩
  | cons v rest ih =>
    obtain ⟨hstep, hrest⟩ := ih h
    obtain ⟨hrunning, hv⟩ := of_mem_tokens_narrowed hstep
    exact ⟨hrunning, List.forall_mem_cons.mpr ⟨hv, hrest⟩⟩

theorem mem_tokens_foldl_intersection {running : Option String} {vs : List String}
    {token : String} : token ∈ tokens (vs.foldl (narrowed .intersection) running) ↔
      token ∈ tokens running ∧ ∀ v ∈ vs, token ∈ words v := by
  refine ⟨of_mem_tokens_foldl, ?_⟩
  induction vs generalizing running with
  | nil => exact fun h => h.1
  | cons v rest ih =>
    rintro ⟨hrunning, hall⟩
    obtain ⟨hv, hrest⟩ := List.forall_mem_cons.mp hall
    exact ih ⟨mem_tokens_intersection.mpr ⟨hrunning, hv⟩, hrest⟩

/-- What releasabilities amount to: the first one, narrowed by the others in turn. -/
def narrowedAll (mode : Narrowing) : List String → Option String
  | [] => none
  | v :: rest => rest.foldl (narrowed mode) (tokensText (words v))

theorem narrowedAll_append {us : List String} (h : us ≠ []) (ws : List String) :
    narrowedAll mode (us ++ ws) = ws.foldl (narrowed mode) (narrowedAll mode us) := by
  cases us with
  | nil => exact absurd rfl h
  | cons u rest => exact List.foldl_append

theorem of_mem_tokens_narrowedAll {vs : List String} {token : String}
    (h : token ∈ tokens (narrowedAll mode vs)) : ∀ v ∈ vs, token ∈ words v := by
  cases vs with
  | nil => exact fun v hv => absurd hv List.not_mem_nil
  | cons v rest =>
    obtain ⟨hv, hrest⟩ := of_mem_tokens_foldl h
    rw [tokens_tokensText_words] at hv
    exact List.forall_mem_cons.mpr ⟨hv, hrest⟩

theorem mem_tokens_narrowedAll_intersection {vs : List String} (hne : vs ≠ []) {token : String} :
    token ∈ tokens (narrowedAll .intersection vs) ↔ ∀ v ∈ vs, token ∈ words v := by
  cases vs with
  | nil => exact absurd rfl hne
  | cons v rest =>
    rw [narrowedAll, mem_tokens_foldl_intersection, tokens_tokensText_words,
      List.forall_mem_cons]

/-! ## Descriptors -/

theorem releasability_foldl_of_narrowed {d : Descriptor} (hd : d.narrowed = true)
    (ms : List (Marking × String)) :
    (ms.foldl (fun d m => d.fold mode m.1 m.2) d).releasability =
      (ms.filterMap (textOf? .releasability)).foldl (narrowed mode) d.releasability := by
  induction ms generalizing d with
  | nil => rfl
  | cons m rest ih =>
    obtain ⟨m, s⟩ := m
    cases m with
    | classification => exact ih (d := d.fold mode .classification s) hd
    | policy => exact ih (d := d.fold mode .policy s) hd
    | releasability =>
      have hstep : (d.fold mode .releasability s).releasability =
          narrowed mode d.releasability s := by
        rw [Descriptor.fold, hd]
        rfl
      rw [List.foldl_cons, ih (d := d.fold mode .releasability s) rfl, hstep]
      rfl

/-- Into an empty descriptor markings of releasability are taken as what they amount to. -/
theorem releasability_foldl {d : Descriptor} (hd : d.narrowed = false)
    (hnone : d.releasability = none) (ms : List (Marking × String)) :
    (ms.foldl (fun d m => d.fold mode m.1 m.2) d).releasability =
      narrowedAll mode (ms.filterMap (textOf? .releasability)) := by
  induction ms generalizing d with
  | nil => exact hnone
  | cons m rest ih =>
    obtain ⟨m, s⟩ := m
    cases m with
    | classification => exact ih (d := d.fold mode .classification s) hd hnone
    | policy => exact ih (d := d.fold mode .policy s) hd hnone
    | releasability =>
      have hstep : (d.fold mode .releasability s).releasability = tokensText (words s) := by
        rw [Descriptor.fold, hd]
        rfl
      rw [List.foldl_cons, releasability_foldl_of_narrowed rfl, hstep]
      rfl

/-! ## Walks -/

/-- The releasabilities that are read on a walk, in order. -/
def releasabilities (vs : List Visit) : List String :=
  vs.filterMap (Visit.marked? .releasability)

theorem releasabilities_append (us ws : List Visit) :
    releasabilities (us ++ ws) = releasabilities us ++ releasabilities ws :=
  List.filterMap_append

/-- The releasability of a draft is what the releasabilities on its walk amount to. -/
theorem releasability_of_follow {vs : List Visit} {d : Draft}
    (h : (Draft.follow mode {} vs).result = .ok d) :
    d.markings.releasability = narrowedAll mode (releasabilities vs) := by
  rw [(markings_of_follow h).1, releasabilities, ← filterMap_mark?_textOf?]
  exact releasability_foldl rfl rfl _

/-- The releasability of a decoded record. -/
theorem text?_of_decode {g : Graph} {t : Graph.Topology} (ht : g.topology = .ok t)
    {fallback : String} {r : Record} (h : (decode fallback mode g).result = .ok r) :
    r.text? Marking.releasability.key = narrowedAll mode (releasabilities (visits t)) := by
  obtain ⟨d, hfollow, htext⟩ := marking_of_decode ht h .releasability
  exact htext.trans (releasability_of_follow hfollow)

/--
The tokens of the releasability of a decoded record, where the walk reads at least one: in either
mode every releasability has them, and by intersection there are no others that every one has. A
walk that goes on after it has read a releasability leaves tokens that were there before.
-/
theorem decode_releasability {g : Graph} {t : Graph.Topology} (h : g.topology = .ok t)
    (fallback : String) (mode : Narrowing) :
    (∀ r, (decode fallback mode g).result = .ok r → releasabilities (visits t) ≠ [] →
      (∀ token ∈ tokens (r.text? Marking.releasability.key),
        ∀ v ∈ releasabilities (visits t), token ∈ words v) ∧
      (mode = .intersection → ∀ token, (∀ v ∈ releasabilities (visits t), token ∈ words v) →
        token ∈ tokens (r.text? Marking.releasability.key))) ∧
    ∀ us ws d d', releasabilities us ≠ [] → (Draft.follow mode {} us).result = .ok d →
      (Draft.follow mode {} (us ++ ws)).result = .ok d' →
      tokens d'.markings.releasability ⊆ tokens d.markings.releasability ∧
        (tokens d.markings.releasability = [] → tokens d'.markings.releasability = []) := by
  refine ⟨fun r hr hne => ?_, fun us ws d d' hne hd hd' => ?_⟩
  · rw [text?_of_decode h hr]
    refine ⟨fun token => of_mem_tokens_narrowedAll, ?_⟩
    rintro rfl token hall
    exact (mem_tokens_narrowedAll_intersection hne).mpr hall
  · have hsubset : tokens d'.markings.releasability ⊆ tokens d.markings.releasability := by
      rw [releasability_of_follow hd', releasability_of_follow hd, releasabilities_append,
        narrowedAll_append hne]
      exact fun token htoken => (of_mem_tokens_foldl htoken).1
    refine ⟨hsubset, fun hempty => ?_⟩
    rw [hempty] at hsubset
    exact List.subset_nil.mp hsubset

/-- Two markings of releasability, next to one below an association. -/
def marked : Graph where
  nodes := #[⟨0, .root, "product", none⟩, ⟨1, .entity, "security", none⟩,
    ⟨2, .leaf, "releasability", some (.text "NATO  EU US")⟩,
    ⟨3, .entity, "metadataSecurity", none⟩,
    ⟨4, .leaf, "releasability", some (.text "US NATO UK")⟩, ⟨5, .entity, "association", none⟩,
    ⟨6, .entity, "security", none⟩, ⟨7, .leaf, "releasability", some (.text "UK")⟩]
  edges := #[⟨0, 1⟩, ⟨1, 2⟩, ⟨0, 3⟩, ⟨3, 4⟩, ⟨0, 5⟩, ⟨5, 6⟩, ⟨6, 7⟩]

theorem decode_releasability_marked : ∃ t, marked.topology = .ok t ∧
    releasabilities (visits t) = ["NATO  EU US", "US NATO UK"] ∧
    ∃ r, (decode "REPORT" .intersection marked).result = .ok r ∧
      r.text? Marking.releasability.key = some "NATO US" ∧
      ∀ token, token ∈ words "NATO US" ↔ ∀ v ∈ releasabilities (visits t), token ∈ words v := by
  have hread : marked.topology.map visits = .ok [
      .entity "security" { entity := some "security" },
      .leaf ⟨2, .leaf, "releasability", some (.text "NATO  EU US")⟩ { entity := some "security" },
      .entity "metadataSecurity" { entity := some "metadataSecurity" },
      .leaf ⟨4, .leaf, "releasability", some (.text "US NATO UK")⟩
        { entity := some "metadataSecurity" },
      .entity "association" { entity := some "association", inAssociation := true },
      .entity "security" { entity := some "security", inAssociation := true },
      .leaf ⟨7, .leaf, "releasability", some (.text "UK")⟩
        { entity := some "security", inAssociation := true }] := by
    cbv
  obtain ⟨t, ht⟩ : ∃ t, marked.topology = .ok t := ⟨_, rfl⟩
  rw [ht] at hread
  have hvisits : releasabilities (visits t) = ["NATO  EU US", "US NATO UK"] := by
    rw [Except.ok.inj hread]
    rfl
  have hdecode : (decode "REPORT" .intersection marked).result = .ok
      { attributes := [("security.releasability", .text "NATO US")]
        contentType := some "REPORT" } := by
    cbv
  obtain ⟨hall, hback⟩ := (decode_releasability ht "REPORT" .intersection).1 _ hdecode
    (by rw [hvisits]; exact List.cons_ne_nil _ _)
  exact ⟨t, ht, hvisits, _, hdecode, rfl, fun token => ⟨hall token, hback rfl token⟩⟩

end Catalogue.Exchange
