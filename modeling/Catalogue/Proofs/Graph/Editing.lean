import Catalogue.Proofs.Graph.Numbering
import Mathlib.Data.List.Induction

/-!
# Additions among edits

The row of nodes may also be changed by hand between additions. The number that is kept for the
next node is trusted whenever the count of nodes is the one that the latest addition left behind.
So an addition takes a number in use exactly when edits have brought back that count and have given
some node the number after the latest one handed out.

* `Move` — an addition, or an edit of the nodes.
* `Expects` — the number that the next addition is to get, and for which count of nodes.
* `Misled` — the count is right and the number is in use.
* `additions_among_edits` — additions that are misled are those that take a number in use, and
  without them the numbers stay distinct.
-/

namespace Catalogue.Graph

/-! ## Moves -/

/-- A change of the row of nodes by hand. -/
inductive Edit where
  | push (n : Node)
  | remove (place : Nat)
  | replace (place : Nat) (n : Node)
  | renumber (place : Nat) (id : NodeId)

/-- The nodes after an edit. -/
def Edit.apply (nodes : Array Node) : Edit → Array Node
  | push n => nodes.push n
  | remove place => (nodes.toList.eraseIdx place).toArray
  | replace place n => nodes.setIfInBounds place n
  | renumber place id => nodes.modify place fun n => { n with id }

inductive Move where
  | add (a : Addition)
  | edit (e : Edit)

/-- The graph after a move; an edit does not touch the number that is kept. -/
def Move.apply (g : Graph) : Move → Graph
  | add a => (a.apply g).1
  | edit e => { g with nodes := e.apply g.nodes }

/-- The graph after some moves. -/
def afterMoves (g : Graph) (moves : List Move) : Graph := moves.foldl Move.apply g

theorem afterMoves_append (g : Graph) (before after : List Move) :
    afterMoves g (before ++ after) = afterMoves (afterMoves g before) after :=
  List.foldl_append

theorem size_moved_le (g : Graph) (m : Move) : (m.apply g).nodes.size ≤ g.nodes.size + 1 := by
  cases m with
  | add a => exact Nat.le_of_eq (size_apply g a)
  | edit e =>
    show (e.apply g.nodes).size ≤ _
    cases e with
    | push n => simp [Edit.apply]
    | remove place =>
      have hle := List.length_eraseIdx_le g.nodes.toList place
      rw [Array.length_toList] at hle
      exact Nat.le_succ_of_le hle
    | replace place n => simp [Edit.apply]
    | renumber place id => simp [Edit.apply]

theorem size_afterMoves_le (g : Graph) (moves : List Move) :
    (afterMoves g moves).nodes.size ≤ g.nodes.size + moves.length := by
  induction moves generalizing g with
  | nil => exact Nat.le_refl _
  | cons m rest ih =>
    have hstep := size_moved_le g m
    have hrest := ih (m.apply g)
    rw [List.length_cons]
    show (afterMoves (m.apply g) rest).nodes.size ≤ _
    omega

/-! ## The number that is kept -/

/-- Before an addition, the number that it is to get if the nodes are as many as the count: the one
after the latest number handed out, and before any addition the one that the graph kept. -/
inductive Expects (g : Graph) : List Move → Nat → Nat → Prop
  | kept {next : NodeId} {count : Nat} (h : g.cursor = some (next, count)) (edits : List Edit) :
      Expects g (edits.map .edit) next.toNat count
  | given (before : List Move) (a : Addition) (edits : List Edit) :
      Expects g (before ++ .add a :: edits.map .edit)
        ((a.apply (afterMoves g before)).2.toNat + 1) ((afterMoves g before).nodes.size + 1)

theorem Expects.edit {g : Graph} {moves : List Move} {next count : Nat}
    (h : Expects g moves next count) (e : Edit) : Expects g (moves ++ [.edit e]) next count := by
  cases h with
  | kept hcursor edits =>
    have hmap : edits.map Move.edit ++ [.edit e] = (edits ++ [e]).map Move.edit := by simp
    rw [hmap]
    exact .kept hcursor _
  | given before a edits =>
    have hmap : before ++ .add a :: edits.map Move.edit ++ [.edit e] =
        before ++ .add a :: (edits ++ [e]).map Move.edit := by simp
    rw [hmap]
    exact .given before a _

theorem cursor_edits (g : Graph) (edits : List Edit) :
    (afterMoves g (edits.map .edit)).cursor = g.cursor := by
  induction edits generalizing g with
  | nil => rfl
  | cons e rest ih => exact ih ((Move.edit e).apply g)

theorem toNat_add_one_of_lt {id : NodeId} (h : id.toNat < lastId) :
    (id + 1).toNat = id.toNat + 1 := by
  unfold lastId at h
  rw [UInt32.toNat_add, UInt32.toNat_one, Nat.mod_eq_of_lt (by omega)]

/-- A number is kept after an addition unless the number handed out was the last one. -/
theorem cursorAfter_eq_some_iff {id next : NodeId} {size count : Nat} :
    cursorAfter id size = some (next, count) ↔ next.toNat = id.toNat + 1 ∧ count = size := by
  have hlt := next.toNat_lt
  unfold cursorAfter
  split
  · next hlast =>
    rw [Option.some_inj, Prod.mk.injEq, ← UInt32.toNat_inj, toNat_add_one_of_lt hlast]
    exact and_congr eq_comm eq_comm
  · next hlast =>
    unfold lastId at hlast
    constructor
    · intro h
      cases h
    · rintro ⟨h, -⟩
      omega

/-- What a graph keeps after some moves is what the next addition is to get. -/
theorem cursor_afterMoves_iff {g : Graph} {moves : List Move} {next : NodeId} {count : Nat} :
    (afterMoves g moves).cursor = some (next, count) ↔ Expects g moves next.toNat count := by
  constructor
  · intro h
    induction moves using List.reverseRecOn with
    | nil => exact .kept h []
    | append_singleton moves m ih =>
      rw [afterMoves_append] at h
      cases m with
      | edit e => exact (ih h).edit e
      | add a =>
        change (a.apply (afterMoves g moves)).1.cursor = _ at h
        rw [cursor_apply, ← snd_apply _ a, cursorAfter_eq_some_iff] at h
        rw [h.1, h.2]
        exact .given moves a []
  · intro h
    generalize hnext : next.toNat = n at h
    cases h with
    | kept hcursor edits =>
      rw [cursor_edits, hcursor, UInt32.toNat_inj.mp hnext]
    | given before a edits =>
      have hcons : afterMoves g (before ++ .add a :: edits.map .edit) =
          afterMoves (a.apply (afterMoves g before)).1 (edits.map .edit) :=
        afterMoves_append _ _ _
      rw [hcons, cursor_edits, cursor_apply, ← snd_apply _ a, cursorAfter_eq_some_iff]
      exact ⟨hnext, rfl⟩

/-! ## Numbers in use -/

/-- A number that is looked up is not in use. -/
theorem freeId_notMem {g : Graph} (hsize : g.nodes.size + 1 < 2 ^ 32) :
    (freeId g.nodes.toList).toNat ∉ numbers g := by
  -- the number of the next node in the same graph without a kept number
  have hbare : (freeId g.nodes.toList) = ({ g with cursor := none } : Graph).nextId := rfl
  rcases Nat.lt_or_ge (ceiling (numbers g)) (2 ^ 32) with hlt | hge
  · rw [hbare, toNat_nextId_of_lt (g := { g with cursor := none }) rfl hlt]
    intro hmem
    exact Nat.lt_irrefl _ (lt_ceiling hmem)
  · rw [hbare, toNat_nextId_of_le (g := { g with cursor := none }) rfl hge hsize]
    exact (isLeastUnused_leastUnused _).1

/-- The next node gets a number in use only when that number was kept. -/
theorem nextId_mem_iff {g : Graph} (hsize : g.nodes.size + 1 < 2 ^ 32) :
    g.nextId.toNat ∈ numbers g ↔
      ∃ next, g.cursor = some (next, g.nodes.size) ∧ next.toNat ∈ numbers g := by
  have hfree := freeId_notMem hsize
  unfold nextId
  cases hcursor : g.cursor with
  | none => simpa using hfree
  | some kept =>
    obtain ⟨next, count⟩ := kept
    by_cases hcount : count = g.nodes.size
    · simp [hcount]
    · simpa [hcount] using hfree

/-- The count of nodes is the one for which a number is expected, and the number is in use. -/
def Misled (g : Graph) (moves : List Move) : Prop :=
  ∃ next, Expects g moves next (afterMoves g moves).nodes.size ∧
    next ∈ numbers (afterMoves g moves)

/-- An addition takes a number in use exactly when it is misled. -/
theorem number_mem_iff {g : Graph} {moves : List Move}
    (hsize : (afterMoves g moves).nodes.size + 1 < 2 ^ 32) (a : Addition) :
    (a.apply (afterMoves g moves)).2.toNat ∈ numbers (afterMoves g moves) ↔ Misled g moves := by
  rw [snd_apply, nextId_mem_iff hsize, Misled]
  constructor
  · rintro ⟨next, hcursor, hmem⟩
    exact ⟨next.toNat, cursor_afterMoves_iff.mp hcursor, hmem⟩
  · rintro ⟨next, hexpects, hmem⟩
    have hnext : (UInt32.ofNat next).toNat = next :=
      UInt32.toNat_ofNat_of_lt' (lt_of_mem_numbers hmem)
    rw [← hnext] at hexpects hmem
    exact ⟨UInt32.ofNat next, cursor_afterMoves_iff.mpr hexpects, hmem⟩

/-! ## Interleavings -/

/-- Every edit leaves distinct numbers, and brings in none but small ones. -/
def EditsKeep (g : Graph) : List Move → Prop
  | [] => True
  | .add a :: rest => EditsKeep (a.apply g).1 rest
  | .edit e :: rest =>
    (numbers ((Move.edit e).apply g)).Nodup ∧
      (∀ n ∈ numbers ((Move.edit e).apply g), n ∈ numbers g ∨ n < 2 ^ 31) ∧
      EditsKeep ((Move.edit e).apply g) rest

theorem EditsKeep.nodup {g : Graph} {before after : List Move} {e : Edit}
    (h : EditsKeep g (before ++ .edit e :: after)) :
    (numbers (afterMoves g (before ++ [.edit e]))).Nodup := by
  induction before generalizing g with
  | nil => exact h.1
  | cons m rest ih =>
    cases m with
    | add a => exact ih h
    | edit e' => exact ih h.2.2

/-- Fewer than `2 ^ 31` moves from distinct numbers below `2 ^ 31`, with edits that keep them so. -/
structure Proper (g : Graph) (moves : List Move) : Prop where
  nodup : (numbers g).Nodup
  below : ∀ n ∈ numbers g, n < 2 ^ 31
  short : moves.length < 2 ^ 31
  edits : EditsKeep g moves

/-- There are never so many nodes that no number is left for another one. -/
theorem Proper.size_lt {g : Graph} {before after : List Move} {m : Move}
    (h : Proper g (before ++ m :: after)) : (afterMoves g before).nodes.size + 1 < 2 ^ 32 := by
  have hsub : numbers g ⊆ List.range (2 ^ 31) := fun n hn => List.mem_range.mpr (h.below n hn)
  have hlength := h.nodup.length_le_of_subset hsub
  rw [length_numbers, List.length_range] at hlength
  have hsize := size_afterMoves_le g before
  have hshort := h.short
  rw [List.length_append, List.length_cons] at hshort
  omega

/-- Among additions and edits, an addition takes a number in use exactly when it is misled; and the
numbers are distinct after every move exactly when no addition is. -/
theorem additions_among_edits {g : Graph} {moves : List Move} (h : Proper g moves) :
    (∀ before a after, moves = before ++ .add a :: after →
      ((a.apply (afterMoves g before)).2.toNat ∈ numbers (afterMoves g before) ↔
        Misled g before)) ∧
    ((∀ before after, moves = before ++ after → (numbers (afterMoves g before)).Nodup) ↔
      ∀ before a after, moves = before ++ .add a :: after → ¬ Misled g before) := by
  have hmem : ∀ before a after, moves = before ++ .add a :: after →
      ((a.apply (afterMoves g before)).2.toNat ∈ numbers (afterMoves g before) ↔
        Misled g before) := by
    rintro before a after rfl
    exact number_mem_iff h.size_lt a
  refine ⟨hmem, fun hnodup before a after hsplit => ?_, fun hnone before => ?_⟩
  · have hthen := hnodup (before ++ [.add a]) after (by simp [hsplit])
    rw [afterMoves_append] at hthen
    rw [← hmem before a after hsplit]
    exact (nodup_numbers_apply (hnodup before _ hsplit) a).mp hthen
  · induction before using List.reverseRecOn with
    | nil => exact fun _ _ => h.nodup
    | append_singleton before m ih =>
      intro after hsplit
      have hsplit' : moves = before ++ m :: after := by simp [hsplit]
      cases m with
      | edit e => exact (hsplit' ▸ h.edits).nodup
      | add a =>
        have hnew := (hmem before a after hsplit').not.mpr (hnone before a after hsplit')
        rw [afterMoves_append]
        exact (nodup_numbers_apply (ih _ hsplit') a).mpr hnew

/-- A card is added below the root, and by hand a file with another number is put in its place. -/
def exchanged (id : NodeId) : List Move :=
  [.add (.entity 0 "card"), .edit (.remove 1), .edit (.push ⟨id, .entity, "file", none⟩)]

/-- The card becomes a file, and a record follows. -/
theorem proper_exchanged {id : NodeId} (hpos : 0 < id.toNat) (hlt : id.toNat < 2 ^ 31) :
    Proper (Graph.ofRoot "r").1 (exchanged id ++ [.add (.record 0 "part")]) := by
  refine ⟨by decide, by decide, by simp [exchanged], ?_⟩
  show [0].Nodup ∧ (∀ n ∈ [0], n ∈ [0, 1] ∨ n < 2 ^ 31) ∧ [0, id.toNat].Nodup ∧
    (∀ n ∈ [0, id.toNat], n ∈ [0] ∨ n < 2 ^ 31) ∧ True
  refine ⟨by decide, by decide, ?_, ?_, trivial⟩
  · simp only [List.nodup_cons, List.mem_singleton, List.not_mem_nil, not_false_eq_true,
      List.nodup_nil, and_true]
    omega
  · intro n hn
    simp only [List.mem_cons, List.not_mem_nil, or_false] at hn ⊢
    omega

theorem additions_among_edits_exchanged :
    Proper (Graph.ofRoot "r").1 (exchanged 9 ++ [.add (.record 0 "part")]) ∧
      ¬ Misled (Graph.ofRoot "r").1 (exchanged 9) := by
  have hproper : Proper (Graph.ofRoot "r").1 (exchanged 9 ++ [.add (.record 0 "part")]) :=
    proper_exchanged (by decide) (by decide)
  have hcall := (additions_among_edits hproper).1 (exchanged 9) (.record 0 "part") [] rfl
  exact ⟨hproper, hcall.not.mp (by decide)⟩

/-- The number after the latest one handed out may be in use. -/
theorem used_after_exchange :
    Proper (Graph.ofRoot "r").1 (exchanged 2 ++ [.add (.record 0 "part")]) ∧
      ((Addition.record 0 "part").apply (afterMoves (Graph.ofRoot "r").1 (exchanged 2))).2.toNat ∈
        numbers (afterMoves (Graph.ofRoot "r").1 (exchanged 2)) :=
  ⟨proper_exchanged (by decide) (by decide), by decide⟩

end Catalogue.Graph
