import Catalogue.Proofs.Query.Grammar
import Catalogue.Query.Compile

/-!
# What a part of a walk can change

A part of a walk without comparisons and spatial relations pushes operators, changes the term that
is open and makes reports. What it does depends on the rule above it and the open term only: groups,
result and the operators below stay as they are. So a comparison or a spatial relation turns into a
filter, or into none, by its own subtree.

* `Machine.steps_confined` — a tree without comparisons and spatial relations has one effect.
* `Machine.run_primary` — the machine after a comparison or a spatial relation.
-/

namespace Catalogue.Query

open Catalogue.Journal (Entry)
open Catalogue.Text

/-! ## Effects -/

/-- What a part of a walk pushes, the open term after it, and what it reports. -/
structure Effect where
  slots : List Slot
  term : OpenTerm
  entries : List Entry

namespace Effect

/-- The machine after an effect. -/
def on (e : Effect) (m : Machine) : Machine :=
  { m with slots := e.slots ++ m.slots, term := e.term, entries := m.entries ++ e.entries }

/-- One effect after another. -/
def andThen (e f : Effect) : Effect where
  slots := f.slots ++ e.slots
  term := f.term
  entries := e.entries ++ f.entries

theorem on_on (e f : Effect) (m : Machine) : f.on (e.on m) = (e.andThen f).on m := by
  simp [on, andThen]

end Effect

/--
A change of machines is confined when it is one effect on all machines with the same rule on top of
their ancestors and the same open term, and pushes at most so many operators.
-/
def Confined (change : Machine → Machine) (parent : Option Rule) (t : OpenTerm) (pushed : Nat) :
    Prop :=
  ∃ e : Effect, e.slots.length ≤ pushed ∧
    ∀ m : Machine, m.ancestors.head? = parent → m.term = t → change m = e.on m

namespace Confined

variable {parent : Option Rule} {t : OpenTerm}

theorem mono {change : Machine → Machine} {k l : Nat} (h : Confined change parent t k)
    (hkl : k ≤ l) : Confined change parent t l := by
  obtain ⟨e, he, hon⟩ := h
  exact ⟨e, Nat.le_trans he hkl, hon⟩

theorem pushSlot (s : Slot) : Confined (·.pushSlot s) parent t 1 := by
  refine ⟨⟨[s], t, []⟩, Nat.le_refl 1, ?_⟩
  rintro m - rfl
  simp [Machine.pushSlot, Effect.on]

theorem setTerm {change : Machine → Machine} (t' : OpenTerm)
    (h : ∀ m : Machine, m.term = t → change m = { m with term := t' }) :
    Confined change parent t 0 := by
  refine ⟨⟨[], t', []⟩, Nat.le_refl 0, ?_⟩
  intro m _ ht
  rw [h m ht]
  simp [Effect.on]

theorem fail (cause : DropCause) : Confined (·.fail cause) parent t 0 :=
  setTerm (t.fail cause) (by rintro m rfl; rfl)

theorem report (e : Entry) : Confined (·.report e) parent t 0 := by
  refine ⟨⟨[], t, [e]⟩, Nat.le_refl 0, ?_⟩
  rintro m - rfl
  simp [Machine.report, Effect.on]

theorem id : Confined (fun m => m) parent t 0 := setTerm t (by rintro m rfl; rfl)

/-- One confined change after another. -/
theorem comp {f g : Machine → Machine} {k l : Nat} (hf : Confined f parent t k)
    (hg : ∀ t, Confined g parent t l) : Confined (fun m => g (f m)) parent t (k + l) := by
  obtain ⟨e, he, hon⟩ := hf
  obtain ⟨e', he', hon'⟩ := hg e.term
  refine ⟨e.andThen e', ?_, ?_⟩
  · simp only [Effect.andThen, List.length_append]
    omega
  · intro m hp ht
    show g (f m) = _
    rw [hon m hp ht, hon' (e.on m) hp rfl, Effect.on_on]

end Confined

namespace Machine

variable (o : Options) (mark : String → UInt64)

/-- Hands a filter on, if there is one. -/
def settle (m : Machine) : Option Filter → Machine
  | some f => m.deliver f
  | none => m

/-! ## Runs -/

theorem run_append (m : Machine) (s t : List Step) :
    run o mark m (s ++ t) = run o mark (run o mark m s) t := List.foldl_append

/-- A tree is entered, its children are walked, and it is left. -/
theorem run_steps (m : Machine) (rule : Rule) (text : String) (children : List Node) :
    run o mark m (Node.steps ⟨rule, text, children⟩) =
      (run o mark (m.enter o mark ⟨rule, text, children⟩) (Node.stepsAll children)).leave o mark
        ⟨rule, text, children⟩ := by
  rw [Node.steps]
  show run o mark _ (Node.stepsAll children ++ [.leave _]) = _
  rw [run_append]
  rfl

/-! ## Single steps -/

/-- The angle of a shape concerns the open term only. -/
theorem readAngle_confined (text : String) (parent : Option Rule) (t : OpenTerm) :
    Confined (·.readAngle text) parent t 0 := by
  cases hx : Number.finite? text with
  | none =>
    refine Confined.setTerm (t.fail (.unreadableAngle text)) ?_
    rintro m rfl
    simp only [readAngle, hx]
    rfl
  | some degrees =>
    cases hd : t.draft with
    | none =>
      refine Confined.setTerm (t.fail (.unreadableAngle text)) ?_
      rintro m rfl
      simp only [readAngle, hx, hd]
      rfl
    | some d =>
      refine Confined.setTerm { t with draft := some (d.withAngle degrees) } ?_
      rintro m rfl
      simp only [readAngle, hx, hd]

/-- A leaf pushes at most one operator, and only if it is an operator. -/
theorem takeLeaf_confined (n : Node) (above : Option Rule) (parent : Option Rule) (t : OpenTerm) :
    Confined (·.takeLeaf n above) parent t n.rule.isOperator.toNat := by
  cases hr : n.rule
  all_goals simp only [takeLeaf, hr]
  case subject =>
    exact Confined.setTerm { t with subject := some (trim n.text) } (by rintro m rfl; rfl)
  case comparisonOp =>
    cases Filter.Operator.comparison? (trim n.text) with
    | some op => exact Confined.pushSlot _
    | none => exact (Confined.fail _).mono (Nat.zero_le _)
  case geoOp =>
    cases Filter.Operator.spatial? (trim n.text) with
    | some op => exact Confined.pushSlot _
    | none => exact (Confined.fail _).mono (Nat.zero_le _)
  case relativeGeoOp =>
    cases Filter.Relation.ofToken? (trim n.text) with
    | some r => exact Confined.pushSlot _
    | none => exact (Confined.fail _).mono (Nat.zero_le _)
  case number =>
    split
    · exact Confined.setTerm { t with literal := some (.number (trim n.text)) }
        (by rintro m rfl; rfl)
    · exact Confined.setTerm { t with numbers := t.numbers ++ [trim n.text] }
        (by rintro m rfl; rfl)
  case date =>
    exact Confined.setTerm { t with literal := some (.date (unquote (trim n.text))) }
      (by rintro m rfl; rfl)
  case quotedString =>
    exact Confined.setTerm { t with literal := some (.text (unquote (trim n.text))) }
      (by rintro m rfl; rfl)
  case unit =>
    exact Confined.setTerm { t with unit := some (trim n.text) } (by rintro m rfl; rfl)
  case angle => exact readAngle_confined _ parent t
  case dmsCoordinate => exact (Confined.report _).comp fun _ => Confined.fail _
  all_goals exact Confined.id

/-- Entering a node that opens no group and no term has one effect, apart from the ancestors. -/
theorem exists_enter {n : Node} (hg : connective? n.rule = none) (hp : n.rule.isPrimary = false)
    (parent : Option Rule) (t : OpenTerm) :
    ∃ e : Effect, e.slots.length ≤ n.rule.isOperator.toNat ∧
      ∀ m : Machine, m.ancestors.head? = parent → m.term = t →
        m.enter o mark n = { e.on m with ancestors := n.rule :: m.ancestors } := by
  have hprim : ¬(n.rule = .primary ∨ n.rule = .geoPrimary) := by
    rw [← Rule.isPrimary_iff, hp]
    exact Bool.false_ne_true
  cases hs : shapeOf? n.rule with
  | some kind =>
    refine ⟨⟨[], { t with draft := some (.start kind o.vertices) }, []⟩, Nat.zero_le _, ?_⟩
    rintro m - rfl
    simp [enter, hg, hprim, hs, Effect.on]
  | none =>
    cases hl : n.isLeaf with
    | false =>
      refine ⟨⟨[], t, []⟩, Nat.zero_le _, ?_⟩
      rintro m - rfl
      simp [enter, hg, hprim, hs, hl, Effect.on]
    | true =>
      -- the leaf is read below its own rule, but what it is told is the rule above it
      obtain ⟨e, he, hon⟩ := takeLeaf_confined n parent (some n.rule) t
      refine ⟨e, he, ?_⟩
      rintro m rfl rfl
      simp only [enter, hg, hprim, hs, hl, if_true, if_false]
      exact hon { m with ancestors := n.rule :: m.ancestors } rfl rfl

/-- The open term after a node that closes no group and no term is left. -/
def afterLeaving (rule : Rule) (parent : Option Rule) (t : OpenTerm) : OpenTerm :=
  match rule with
  | .coordinate => t.endCoordinate
  | .distance => t.endDistance (parent.any Rule.isShape)
  | rule => if rule.isShape then t.endShape else t

/-- Leaving a node that closes no group and no term changes the open term only. -/
theorem leave_eq {n : Node} (hg : connective? n.rule = none) (hp : n.rule.isPrimary = false)
    (m : Machine) :
    m.leave o mark n =
      { m with
        ancestors := m.ancestors.tail
        term := afterLeaving n.rule m.ancestors.tail.head? m.term } := by
  cases hr : n.rule
  all_goals first
    | (rw [hr] at hg; exact absurd hg (by decide))
    | (rw [hr] at hp; exact absurd hp (by decide))
    | simp [leave, hr, afterLeaving, Rule.isShape]

/-- Leaving a node that opened a group ends the innermost group. -/
theorem leave_eq_endGroup {n : Node} {c : Connective} (hg : connective? n.rule = some c)
    (m : Machine) :
    m.leave o mark n = { m with ancestors := m.ancestors.tail }.endGroup mark n := by
  cases hr : n.rule <;> first | (simp only [leave, hr]; done) | (rw [hr] at hg; cases hg)

/-- Leaving the node that opened the innermost group hands on what the group amounts to. -/
theorem leave_group {rule : Rule} {c : Connective} (hg : connective? rule = some c) (text : String)
    (children : List Node) (m : Machine) {fs : List Filter} {gs : List Group}
    (h : m.groups = ⟨mark text, c, fs⟩ :: gs) :
    m.leave o mark ⟨rule, text, children⟩ =
      settle { m with ancestors := m.ancestors.tail, groups := gs }
        (Group.combine ⟨mark text, c, fs⟩) := by
  cases rule <;> cases hg <;> simp only [leave, endGroup, h, beq_self_eq_true, if_true] <;> rfl

/-- A group that nothing was handed to amounts to no filter. -/
theorem combine_empty (key : UInt64) (c : Connective) : Group.combine ⟨key, c, []⟩ = none := by
  cases c <;> rfl

/-! ## Trees without comparisons and spatial relations -/

mutual

/-- A tree without comparisons and spatial relations has one effect. -/
theorem steps_confined : ∀ (n : Node), n.isPrimaryFree = true → ∀ (parent : Option Rule)
    (t : OpenTerm), Confined (fun m => run o mark m n.steps) parent t n.operators
  | ⟨rule, text, children⟩, h, parent, t => by
    rw [Node.isPrimaryFree, Bool.and_eq_true, Bool.not_eq_true'] at h
    obtain ⟨hp, hfree⟩ := h
    cases hg : connective? rule with
    | some c =>
      -- a group of such parts gets no filter and leaves nothing
      obtain ⟨e, he, hon⟩ := stepsAll_confined children hfree (some rule) t
      refine ⟨e, Nat.le_trans he (Nat.le_add_left _ _), ?_⟩
      rintro m - rfl
      have hin : m.enter o mark ⟨rule, text, children⟩ =
          { m with
            ancestors := rule :: m.ancestors
            groups := ⟨mark text, c, []⟩ :: m.groups } := by
        simp [enter, hg]
      have hbody : run o mark (m.enter o mark ⟨rule, text, children⟩) (Node.stepsAll children) =
          e.on (m.enter o mark ⟨rule, text, children⟩) := hon _ (by rw [hin]; rfl) (by rw [hin])
      show run o mark m _ = _
      rw [run_steps, hbody, hin]
      rw [leave_group o mark hg text children _ rfl, combine_empty]
      rfl
    | none =>
      obtain ⟨e, he, hon⟩ := exists_enter o mark (n := ⟨rule, text, children⟩) hg hp parent t
      obtain ⟨f, hf, hon'⟩ := stepsAll_confined children hfree (some rule) e.term
      -- the effects of entering, of the parts and of leaving are put together
      refine ⟨⟨f.slots ++ e.slots, afterLeaving rule parent f.term, e.entries ++ f.entries⟩, ?_, ?_⟩
      · show (f.slots ++ e.slots).length ≤ rule.isOperator.toNat + Node.operatorsAll children
        rw [List.length_append]
        exact Nat.add_comm _ _ ▸ Nat.add_le_add he hf
      · intro m hm ht
        have hin := hon m hm ht
        have hbody : run o mark (m.enter o mark ⟨rule, text, children⟩) (Node.stepsAll children) =
            f.on (m.enter o mark ⟨rule, text, children⟩) :=
          hon' _ (by rw [hin]; rfl) (by rw [hin]; rfl)
        show run o mark m _ = _
        rw [run_steps, hbody, hin, leave_eq o mark hg hp]
        subst hm
        simp [Effect.on]

theorem stepsAll_confined : ∀ (ns : List Node), Node.primaryFreeAll ns = true →
    ∀ (parent : Option Rule) (t : OpenTerm),
      Confined (fun m => run o mark m (Node.stepsAll ns)) parent t (Node.operatorsAll ns)
  | [], _, _, _ => Confined.id
  | n :: rest, h, parent, t => by
    rw [Node.primaryFreeAll, Bool.and_eq_true] at h
    have hrest := stepsAll_confined rest h.2 parent
    simp only [Node.stepsAll, run_append]
    exact (steps_confined n h.1 parent t).comp hrest

end

/-! ## Comparisons and spatial relations -/

/-- What the open term becomes at the end of a comparison or a spatial relation. -/
def outcome (rule : Rule) (slot : Option Slot) (t : OpenTerm) : Except DropCause Filter :=
  match rule with
  | .primary => OpenTerm.comparison o.order slot t
  | _ => OpenTerm.spatial slot t

/-- A comparison or a spatial relation starts with nothing read. -/
theorem enter_primary {n : Node} (hr : n.rule.isPrimary = true) (m : Machine) :
    m.enter o mark n = { m with ancestors := n.rule :: m.ancestors, term := {} } := by
  rcases Rule.isPrimary_iff.mp hr with h | h <;> simp [enter, h, connective?]

/-- Leaving a comparison or a spatial relation ends a term. -/
theorem leave_primary (m : Machine) {n : Node} (h : n.rule.isPrimary = true) :
    m.leave o mark n =
      { m with ancestors := m.ancestors.tail }.endTerm (outcome o n.rule) := by
  rcases Rule.isPrimary_iff.mp h with hr | hr <;> simp only [leave, hr] <;> rfl

/--
A comparison or a spatial relation ends its term with what its own subtree has pushed and read, with
every machine that enters it.
-/
theorem run_primary {n : Node} (hr : n.rule.isPrimary = true)
    (hfree : Node.primaryFreeAll n.children = true) :
    ∃ e : Effect, e.slots.length ≤ Node.operatorsAll n.children ∧
      ∀ m : Machine, run o mark m n.steps = (e.on m).endTerm (outcome o n.rule) := by
  obtain ⟨rule, text, children⟩ := n
  obtain ⟨e, he, hon⟩ := stepsAll_confined o mark children hfree (some rule) {}
  refine ⟨e, he, fun m => ?_⟩
  have hin := enter_primary o mark hr m
  have hbody : run o mark (m.enter o mark ⟨rule, text, children⟩) (Node.stepsAll children) =
      e.on (m.enter o mark ⟨rule, text, children⟩) := hon _ (by rw [hin]; rfl) (by rw [hin])
  rw [run_steps, hbody, hin, leave_primary o mark _ hr]
  rfl

end Machine

end Catalogue.Query
