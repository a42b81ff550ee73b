import Catalogue.Proofs.Lists.Distinct
import Catalogue.Schema.Traversal
import Mathlib.Order.Lattice.Nat
import Mathlib.Logic.Function.Iterate

/-!
# Breadth-first search finds the nearest first

A search that starts at a root finds what paths of relationships lead to, and nothing else. What
was found is first what is done, then what is pending. Every path from the root to an entity that is
not done passes a pending one, so the first pending entity is as near as any of them, and what it
leads to is no farther than one step behind it.

* `Path`, `distance` — paths of relationships, and the length of the shortest one.
* `Progress` — what holds of a search between two rounds.
* `progress_round` — a round keeps it, and makes one more entity done.
* `run_spec` — a search ends after one round for each entity found.
-/

namespace Catalogue.Schema

open Catalogue.Lists

/-! ## Paths -/

/-- A path of so many relationships. -/
inductive Path (rels : List Relationship) (root : Entity) : Nat → Entity → Prop
  | here : Path rels root 0 root
  | step {n : Nat} {r : Relationship} (hr : r ∈ rels) (h : Path rels root n r.parent) :
      Path rels root (n + 1) r.child

/-- The length of the shortest path to an entity. -/
noncomputable def distance (rels : List Relationship) (root e : Entity) : Nat :=
  sInf {n | Path rels root n e}

/-- Some path to the first entity is no longer than a path to the second. -/
def NoFarther (rels : List Relationship) (root a b : Entity) : Prop :=
  ∀ n, Path rels root n b → ∃ m ≤ n, Path rels root m a

section Paths

variable {rels : List Relationship} {root a b : Entity}

theorem NoFarther.refl : NoFarther rels root a a := fun n h => ⟨n, Nat.le_refl n, h⟩

/-- What is no farther is at no greater distance. -/
theorem NoFarther.distance_le (h : NoFarther rels root a b) {n : Nat} (hb : Path rels root n b) :
    distance rels root a ≤ distance rels root b := by
  have hshortest : Path rels root (distance rels root b) b :=
    Nat.sInf_mem (⟨n, hb⟩ : {n | Path rels root n b}.Nonempty)
  obtain ⟨m, hm, ha⟩ := h _ hshortest
  exact Nat.le_trans (Nat.sInf_le ha) hm

end Paths

/-! ## One round -/

/-- The relationships from an entity, in the order of declaration. -/
def outgoing (rels : List Relationship) (e : Entity) : List Relationship :=
  rels.filter (fun r => r.parent == e)

theorem mem_outgoing {rels : List Relationship} {e : Entity} {r : Relationship} :
    r ∈ outgoing rels e ↔ r ∈ rels ∧ r.parent = e := by
  rw [outgoing, List.mem_filter, beq_iff_eq]

namespace Search

/-- The row of everything that was come upon: the root, and what each relationship leads to. -/
def trail (root : Entity) (crossed : List Relationship) : List Entity :=
  root :: crossed.map Relationship.child

theorem trail_concat (root : Entity) (crossed : List Relationship) (r : Relationship) :
    trail root (crossed ++ [r]) = trail root crossed ++ [r.child] := by
  simp [trail]

/-- What a relationship leads to is found in the order in which it is first met. -/
theorem firstOccurrences_cross {root : Entity} {s : Search}
    (h : FirstOccurrences (trail root s.crossed) s.found) (r : Relationship) :
    FirstOccurrences (trail root (s.cross r).crossed) (s.cross r).found := by
  unfold cross
  by_cases hc : r.child ∈ s.found
  · rw [if_pos hc, trail_concat]
    exact h.concat_of_mem ((h.mem_iff _).mp hc)
  · rw [if_neg hc, trail_concat]
    exact h.concat_of_notMem fun hmem => hc ((h.mem_iff _).mpr hmem)

theorem firstOccurrences_foldl_cross {root : Entity} {s : Search}
    (h : FirstOccurrences (trail root s.crossed) s.found) (rs : List Relationship) :
    FirstOccurrences (trail root (rs.foldl cross s).crossed) (rs.foldl cross s).found := by
  induction rs generalizing s with
  | nil => exact h
  | cons r rest ih => exact ih (firstOccurrences_cross h r)

/-- Crossing relationships finds some of what they lead to, and that is pending then. -/
theorem foldl_cross_eq (rs : List Relationship) (s : Search) :
    ∃ new, rs.foldl cross s = ⟨s.found ++ new, s.pending ++ new, s.crossed ++ rs⟩ ∧
      ∀ c ∈ new, c ∉ s.found ∧ ∃ r ∈ rs, r.child = c := by
  induction rs generalizing s with
  | nil => exact ⟨[], by simp, by simp⟩
  | cons r rest ih =>
    obtain ⟨new, heq, hnew⟩ := ih (s.cross r)
    rw [List.foldl_cons, heq]
    unfold cross at hnew ⊢
    by_cases hc : r.child ∈ s.found
    · rw [if_pos hc] at hnew ⊢
      refine ⟨new, by simp, fun c hmem => ?_⟩
      obtain ⟨hfound, r', hr', hchild⟩ := hnew c hmem
      exact ⟨hfound, r', List.mem_cons_of_mem _ hr', hchild⟩
    · rw [if_neg hc] at hnew ⊢
      refine ⟨r.child :: new, by simp, fun c hmem => ?_⟩
      rcases List.mem_cons.mp hmem with rfl | hmem
      · exact ⟨hc, r, List.mem_cons_self, rfl⟩
      · obtain ⟨hfound, r', hr', hchild⟩ := hnew c hmem
        exact ⟨fun h => hfound (List.mem_append_left _ h), r', List.mem_cons_of_mem _ hr', hchild⟩

/-! ## What a search keeps -/

/-- What holds of a search between two rounds, when the relationships of some entities are
crossed. -/
structure Progress (rels : List Relationship) (root : Entity) (done : List Entity) (s : Search) :
    Prop where
  /-- What was found is what was come upon, each once, in the order in which it was first met. -/
  orderly : FirstOccurrences (trail root s.crossed) s.found
  found_eq : s.found = done ++ s.pending
  crossed_eq : s.crossed = done.flatMap (outgoing rels)
  reached : ∀ e ∈ s.found, ∃ n, Path rels root n e
  nearest : s.found.Pairwise (NoFarther rels root)
  /-- What was found is at most one step farther than the first pending entity. -/
  near : ∀ e ∈ s.pending.head?, ∀ a ∈ s.found, ∀ n, Path rels root n e →
    ∃ m ≤ n + 1, Path rels root m a

theorem progress_start (rels : List Relationship) (root : Entity) :
    Progress rels root [] (start root) where
  orderly := .singleton root
  found_eq := rfl
  crossed_eq := rfl
  reached := by
    intro e he
    obtain rfl := List.mem_singleton.mp he
    exact ⟨0, .here⟩
  nearest := List.pairwise_singleton _ _
  near := by
    intro e he a ha n h
    obtain rfl := Option.mem_some.mp he
    obtain rfl := List.mem_singleton.mp ha
    exact ⟨n, Nat.le_succ n, h⟩

section Progress

variable {rels : List Relationship} {root : Entity} {done : List Entity} {s : Search}

theorem Progress.root_mem (h : Progress rels root done s) : root ∈ s.found :=
  (h.orderly.mem_iff root).mpr List.mem_cons_self

/-- What the relationships of an entity that is done lead to was found. -/
theorem Progress.child_mem (h : Progress rels root done s) {r : Relationship} (hr : r ∈ rels)
    (hdone : r.parent ∈ done) : r.child ∈ s.found := by
  rw [h.orderly.mem_iff, h.crossed_eq]
  refine List.mem_cons_of_mem _ (List.mem_map_of_mem ?_)
  exact List.mem_flatMap.mpr ⟨r.parent, hdone, mem_outgoing.mpr ⟨hr, rfl⟩⟩

/-- A path to an entity that is not done passes a pending one, and ends later when the entity was
not found. -/
theorem Progress.exists_pending (h : Progress rels root done s) {n : Nat} {e : Entity}
    (hpath : Path rels root n e) (he : e ∉ done) :
    ∃ q ∈ s.pending, ∃ m ≤ n, Path rels root m q ∧ (e ∉ s.found → m < n) := by
  have hpending : ∀ e ∈ s.found, e ∉ done → e ∈ s.pending := by
    intro e hfound hdone
    rw [h.found_eq, List.mem_append] at hfound
    exact hfound.resolve_left hdone
  induction hpath with
  | here =>
    exact ⟨root, hpending root h.root_mem he, 0, Nat.le_refl 0, .here,
      fun hnot => absurd h.root_mem hnot⟩
  | @step n r hr hpath ih =>
    by_cases hparent : r.parent ∈ done
    · have hfound : r.child ∈ s.found := h.child_mem hr hparent
      exact ⟨r.child, hpending _ hfound he, n + 1, Nat.le_refl _, .step hr hpath,
        fun hnot => absurd hfound hnot⟩
    · obtain ⟨q, hq, m, hm, hpathq, -⟩ := ih hparent
      exact ⟨q, hq, m, Nat.le_succ_of_le hm, hpathq, fun _ => Nat.lt_succ_of_le hm⟩

/-- A path to what was not found is longer than some path to the first pending entity. -/
theorem Progress.exists_shorter (h : Progress rels root done s) {e : Entity} {rest : List Entity}
    (hpending : s.pending = e :: rest) {c : Entity} (hc : c ∉ s.found) {n : Nat}
    (hpath : Path rels root n c) : ∃ m < n, Path rels root m e := by
  have hdone : c ∉ done := fun hmem => hc (h.found_eq ▸ List.mem_append_left _ hmem)
  obtain ⟨q, hq, m, -, hpathq, hlt⟩ := h.exists_pending hpath hdone
  have hnear : NoFarther rels root e q := by
    have hfound : s.found = done ++ e :: rest := by rw [h.found_eq, hpending]
    rw [hpending] at hq
    rcases List.mem_cons.mp hq with rfl | hq
    · exact .refl
    · have hpair := (List.pairwise_append.mp (hfound ▸ h.nearest)).2.1
      exact List.rel_of_pairwise_cons hpair hq
  obtain ⟨k, hk, hpathe⟩ := hnear m hpathq
  exact ⟨k, Nat.lt_of_le_of_lt hk (hlt hc), hpathe⟩

/-- A round makes the first pending entity one that is done. -/
theorem progress_round (h : Progress rels root done s) {e : Entity} {rest : List Entity}
    (hpending : s.pending = e :: rest) :
    Progress rels root (done ++ [e]) (s.round rels) := by
  obtain ⟨new, heq, hnew⟩ := foldl_cross_eq (outgoing rels e) { s with pending := rest }
  have hround : s.round rels = ⟨s.found ++ new, rest ++ new, s.crossed ++ outgoing rels e⟩ := by
    rw [← heq, round, hpending]
    rfl
  have horderly : FirstOccurrences (trail root (s.round rels).crossed) (s.round rels).found := by
    rw [round, hpending]
    exact firstOccurrences_foldl_cross (s := { s with pending := rest }) h.orderly _
  have hfound : s.found = done ++ e :: rest := by rw [h.found_eq, hpending]
  have hhead : e ∈ s.pending.head? := by rw [hpending]; rfl
  -- what is found in this round is one step behind the entity
  have hstep : ∀ c ∈ new, ∀ n, Path rels root n e → Path rels root (n + 1) c := by
    intro c hc n hpath
    obtain ⟨-, r, hr, rfl⟩ := hnew c hc
    obtain ⟨hmem, rfl⟩ := mem_outgoing.mp hr
    exact .step hmem hpath
  have hnearest : (s.found ++ new).Pairwise (NoFarther rels root) := by
    refine List.pairwise_append.mpr ⟨h.nearest, List.pairwise_of_forall_mem_list ?_, ?_⟩
    · intro c hc c' hc' n hpath
      obtain ⟨m, hm, hpathe⟩ := h.exists_shorter hpending (hnew c' hc').1 hpath
      exact ⟨m + 1, hm, hstep c hc m hpathe⟩
    · intro a ha c hc n hpath
      obtain ⟨m, hm, hpathe⟩ := h.exists_shorter hpending (hnew c hc).1 hpath
      obtain ⟨k, hk, hpatha⟩ := h.near e hhead a ha m hpathe
      exact ⟨k, Nat.le_trans hk hm, hpatha⟩
  rw [hround] at horderly ⊢
  refine ⟨horderly, ?_, ?_, ?_, hnearest, ?_⟩
  · simp [hfound]
  · simp [h.crossed_eq, outgoing]
  · intro a ha
    rcases List.mem_append.mp ha with ha | ha
    · exact h.reached a ha
    · obtain ⟨n, hpath⟩ := h.reached e (hfound ▸ by simp)
      exact ⟨n + 1, hstep a ha n hpath⟩
  -- the next pending entity is no nearer than this one, and what was found is at most one step
  -- farther than this one
  · intro q hq a ha n hpath
    have hnear : NoFarther rels root e q := by
      have hsplit : s.found ++ new = done ++ e :: (rest ++ new) := by simp [hfound]
      have hpair := (List.pairwise_append.mp (hsplit ▸ hnearest)).2.1
      exact List.rel_of_pairwise_cons hpair (List.mem_of_mem_head? hq)
    obtain ⟨m, hm, hpathe⟩ := hnear n hpath
    rcases List.mem_append.mp ha with ha | ha
    · obtain ⟨k, hk, hpatha⟩ := h.near e hhead a ha m hpathe
      exact ⟨k, Nat.le_trans hk (Nat.succ_le_succ hm), hpatha⟩
    · exact ⟨m + 1, Nat.succ_le_succ hm, hstep a ha m hpathe⟩

end Progress

/-! ## Whole searches -/

/-- A search ends with nothing pending, after one round for each entity that was not done. -/
theorem Progress.run {rels : List Relationship} {root : Entity} {done : List Entity} {s : Search}
    (h : Progress rels root done s) :
    ∃ k, s.run rels = (Search.round rels)^[k] s ∧ (s.run rels).pending = [] ∧
      (s.run rels).found.length = done.length + k ∧
      Progress rels root (s.run rels).found (s.run rels) := by
  induction s using Search.run.induct rels generalizing done with
  | case1 s hpending =>
    rw [Search.run, if_pos hpending]
    have hfound : s.found = done := by rw [h.found_eq, hpending, List.append_nil]
    exact ⟨0, rfl, hpending, by rw [hfound, Nat.add_zero], hfound ▸ h⟩
  | case2 s hpending ih =>
    obtain ⟨e, rest, hcons⟩ := List.exists_cons_of_ne_nil hpending
    obtain ⟨k, hrun, hnone, hlength, hprogress⟩ := ih (progress_round h hcons)
    rw [Search.run, if_neg hpending]
    refine ⟨k + 1, hrun, hnone, ?_, hprogress⟩
    rw [hlength, List.length_append, List.length_singleton, Nat.add_assoc, Nat.add_comm 1]

/-- A search ends after one round for each entity found, with nothing pending. -/
theorem run_spec (rels : List Relationship) (root : Entity) :
    (Search.round rels)^[((start root).run rels).found.length] (start root) =
        (start root).run rels ∧
      ((start root).run rels).pending = [] ∧
      Progress rels root ((start root).run rels).found ((start root).run rels) := by
  obtain ⟨k, hrun, hnone, hlength, hprogress⟩ := (progress_start rels root).run
  refine ⟨?_, hnone, hprogress⟩
  rw [hlength, List.length_nil, Nat.zero_add]
  exact hrun.symm

/-- An entity is found exactly when a path leads to it. -/
theorem mem_found_run_iff {rels : List Relationship} {root e : Entity} :
    e ∈ ((start root).run rels).found ↔ ∃ n, Path rels root n e := by
  obtain ⟨-, hnone, hprogress⟩ := run_spec rels root
  refine ⟨hprogress.reached e, fun ⟨n, hpath⟩ => ?_⟩
  by_contra hnot
  obtain ⟨q, hq, -⟩ := hprogress.exists_pending hpath hnot
  rw [hnone] at hq
  cases hq

end Search

end Catalogue.Schema
