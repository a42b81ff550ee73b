import Mathlib
import Catalogue.Proofs.Query.Meaning

/-!
# Operators that are left over

Every known operator waits on a stack, and the end of a comparison or a spatial relation takes the
last one away. So a second operator in one term, or an operator outside every term, waits for a
later term. A term with an operator of its own does not see it; a term without one takes it as if it
stood in front.

* `Node.waiting` — the operators that wait after a tree; `Machine.Keeps.run` — they are what the
  machine keeps.
* `Machine.contributions` — what the terms on a walk turn into.
* `contributions_eq_alone_iff` — every term turns into what it is alone, with an operator in front
  if it takes one that is left over; and when that makes no difference.
-/

namespace Catalogue.Query

open Catalogue.Filter (Operator Relation)
open Catalogue.Text

/-! ## Operators in trees -/

namespace Node

/-- The operator that a leaf names, if it names a known one. -/
def operator? (n : Node) : Option Slot :=
  if n.isLeaf then
    match n.rule with
    | .comparisonOp => (Operator.comparison? (trim n.text)).map .ready
    | .geoOp => (Operator.spatial? (trim n.text)).map .ready
    | .relativeGeoOp => (Relation.ofToken? (trim n.text)).map .relative
    | _ => none
  else none

/-- A node waits if it names a known operator. -/
def await (stack : List Node) (n : Node) : List Node :=
  if n.operator?.isSome then n :: stack else stack

mutual

/-- The operators that wait after a tree, the last one first. -/
def waiting (stack : List Node) : Node → List Node
  | ⟨rule, text, children⟩ =>
    let inner := waitingAll (await stack ⟨rule, text, children⟩) children
    if rule.isPrimary then inner.tail else inner

def waitingAll (stack : List Node) : List Node → List Node
  | [] => stack
  | n :: rest => waitingAll (n.waiting stack) rest

end

mutual

/-- Whether no comparison and no spatial relation stands inside another. -/
def isFlat : Node → Bool
  | ⟨rule, _, children⟩ => if rule.isPrimary then primaryFreeAll children else flatAll children

def flatAll : List Node → Bool
  | [] => true
  | n :: rest => n.isFlat && flatAll rest

end

mutual

/-- The comparisons and spatial relations of a tree, with the operators that wait before each. -/
def terms (stack : List Node) : Node → List (Node × List Node)
  | ⟨rule, text, children⟩ =>
    if rule.isPrimary then [(⟨rule, text, children⟩, stack)]
    else termsAll (await stack ⟨rule, text, children⟩) children

def termsAll (stack : List Node) : List Node → List (Node × List Node)
  | [] => []
  | n :: rest => n.terms stack ++ termsAll (n.waiting stack) rest

end

/-- Whether a known operator stands inside a node. -/
def hasOperator (n : Node) : Bool := !(waitingAll [] n.children).isEmpty

/-- A node with another one in front of its children. -/
def prepend (n a : Node) : Node := { n with children := a :: n.children }

/-- A node after others have been read: without an operator of its own, it takes the one that has
waited least. -/
def after (n : Node) : List Node → Node
  | [] => n
  | a :: _ => if n.hasOperator then n else n.prepend a

end Node

namespace Machine

variable (o : Options) (mark : String → UInt64)

/-! ## The stack of operators -/

/-- The operators on the stack of a machine are those of some leaves. -/
def Keeps (m : Machine) (stack : List Node) : Prop :=
  stack.map Node.operator? = m.slots.map some

theorem keeps_nil {m : Machine} (h : m.slots = []) : m.Keeps [] := by
  rw [Keeps, h]
  rfl

theorem Keeps.tail {m m' : Machine} {stack : List Node} (h : m.Keeps stack)
    (hslots : m'.slots = m.slots.tail) : m'.Keeps stack.tail := by
  rw [Keeps, hslots, List.map_tail, List.map_tail, h]

theorem Keeps.of_slots_eq {m m' : Machine} {stack : List Node} (h : m.Keeps stack)
    (hslots : m'.slots = m.slots) : m'.Keeps stack := by
  rw [Keeps, hslots, h]

/-- A leaf pushes the operator that it names. -/
theorem slots_takeLeaf (m : Machine) (n : Node) (parent : Option Rule) (h : n.isLeaf = true) :
    (m.takeLeaf n parent).slots = n.operator?.toList ++ m.slots := by
  cases hr : n.rule
  all_goals simp only [takeLeaf, Node.operator?, h, hr, if_true]
  case comparisonOp => cases Operator.comparison? (trim n.text) <;> rfl
  case geoOp => cases Operator.spatial? (trim n.text) <;> rfl
  case relativeGeoOp => cases Relation.ofToken? (trim n.text) <;> rfl
  case number => split <;> rfl
  case angle =>
    unfold readAngle
    split <;> rfl
  all_goals rfl

/-- What is no operator names none. -/
theorem operator?_eq_none {n : Node} (h : n.rule.isOperator = false) : n.operator? = none := by
  rw [Node.operator?]
  split
  · cases hr : n.rule
    all_goals first
      | rfl
      | (rw [hr] at h; cases h)
  · rfl

/-- Entering a node pushes the operator that it names. -/
theorem slots_enter (m : Machine) (n : Node) :
    (m.enter o mark n).slots = n.operator?.toList ++ m.slots := by
  have hnone (h : n.rule.isOperator = false) : m.slots = n.operator?.toList ++ m.slots := by
    rw [operator?_eq_none h]
    rfl
  -- groups, terms and shapes are no operators, and a node that is no leaf names none
  cases hg : connective? n.rule with
  | some c =>
    have hrule : n.rule.isOperator = false := by
      cases hr : n.rule <;> first | rfl | (rw [hr] at hg; cases hg)
    simpa [enter, hg] using hnone hrule
  | none =>
    by_cases hp : n.rule = .primary ∨ n.rule = .geoPrimary
    · have hrule : n.rule.isOperator = false := by
        rcases hp with hr | hr <;> rw [hr] <;> rfl
      simpa [enter, hg, hp] using hnone hrule
    · cases hs : shapeOf? n.rule with
      | some kind =>
        have hrule : n.rule.isOperator = false := by
          cases hr : n.rule <;> first | rfl | (rw [hr] at hs; cases hs)
        simpa [enter, hg, hp, hs] using hnone hrule
      | none =>
        cases hl : n.isLeaf with
        | true =>
          simp only [enter, hg, hp, hs, hl, if_true, if_false]
          exact slots_takeLeaf _ n _ hl
        | false => simp [enter, hg, hp, hs, hl, Node.operator?]

theorem slots_endTerm (m : Machine) (result : Option Slot → OpenTerm → Except DropCause Filter) :
    (m.endTerm result).slots = m.slots.tail := by
  rw [endTerm]
  split
  · rw [deliver]
    split <;> rfl
  · rfl

theorem slots_endGroup (m : Machine) (n : Node) : (m.endGroup mark n).slots = m.slots := by
  rw [endGroup]
  split
  · rfl
  · dsimp only
    split
    · rw [deliver]
      split <;> split <;> rfl
    · split <;> rfl

/-- Leaving a node takes one operator away if the node is a term. -/
theorem slots_leave (m : Machine) (n : Node) :
    (m.leave o mark n).slots = if n.rule.isPrimary then m.slots.tail else m.slots := by
  cases hp : n.rule.isPrimary with
  | true => rw [leave_primary o mark m hp, slots_endTerm, if_pos rfl]
  | false =>
    cases hg : connective? n.rule with
    | none => rw [leave_eq o mark hg hp, if_neg Bool.false_ne_true]
    | some c => rw [leave_eq_endGroup o mark hg, slots_endGroup, if_neg Bool.false_ne_true]

theorem Keeps.enter {m : Machine} {stack : List Node} (h : m.Keeps stack) (n : Node) :
    (m.enter o mark n).Keeps (Node.await stack n) := by
  rw [Keeps, slots_enter, Node.await]
  cases hop : n.operator? with
  | none => exact h
  | some s =>
    have hstack : stack.map Node.operator? = m.slots.map some := h
    simp [hop, hstack]

theorem Keeps.leave {m : Machine} {stack : List Node} (h : m.Keeps stack) (n : Node) :
    (m.leave o mark n).Keeps (if n.rule.isPrimary then stack.tail else stack) := by
  have hslots := slots_leave o mark m n
  split
  · next hp => exact h.tail (by rw [hslots, if_pos hp])
  · next hp => exact h.of_slots_eq (by rw [hslots, if_neg hp])

mutual

/-- After a tree the machine keeps the operators that wait. -/
theorem Keeps.run : ∀ (n : Node) {m : Machine} {stack : List Node}, m.Keeps stack →
    (run o mark m n.steps).Keeps (n.waiting stack)
  | ⟨rule, text, children⟩, m, stack, h => by
    rw [run_steps, Node.waiting]
    exact (Keeps.runAll children (h.enter o mark ⟨rule, text, children⟩)).leave o mark
      ⟨rule, text, children⟩

theorem Keeps.runAll : ∀ (ns : List Node) {m : Machine} {stack : List Node}, m.Keeps stack →
    (Machine.run o mark m (Node.stepsAll ns)).Keeps (Node.waitingAll stack ns)
  | [], _, _, h => h
  | n :: rest, m, stack, h => by
    rw [Node.stepsAll, run_append, Node.waitingAll]
    exact Keeps.runAll rest (Keeps.run n h)

end

/-! ## What terms turn into -/

/-- What the comparisons and spatial relations left on a walk turn into, in order: a filter, or none
when the term is dropped. -/
def contributions (m : Machine) : List Step → List (Node × Option Filter)
  | [] => []
  | .enter n :: rest => contributions (m.enter o mark n) rest
  | .leave n :: rest =>
    let others := contributions (m.leave o mark n) rest
    if n.rule.isPrimary then
      (n, (outcome o n.rule m.slots.head? m.term).toOption) :: others
    else others

theorem contributions_append (m : Machine) (s t : List Step) :
    contributions o mark m (s ++ t) =
      contributions o mark m s ++ contributions o mark (run o mark m s) t := by
  induction s generalizing m with
  | nil => rfl
  | cons step rest ih =>
    cases step with
    | enter n => exact ih (m.enter o mark n)
    | leave n =>
      have hrest := ih (m.leave o mark n)
      rw [List.cons_append, contributions, contributions, hrest]
      split
      · rw [List.cons_append]
        rfl
      · rfl

theorem contributions_steps (m : Machine) (rule : Rule) (text : String) (children : List Node) :
    contributions o mark m (Node.steps ⟨rule, text, children⟩) =
      contributions o mark (m.enter o mark ⟨rule, text, children⟩) (Node.stepsAll children) ++
        contributions o mark
          (run o mark (m.enter o mark ⟨rule, text, children⟩) (Node.stepsAll children))
          [.leave ⟨rule, text, children⟩] := by
  rw [Node.steps]
  exact contributions_append o mark (m.enter o mark ⟨rule, text, children⟩) _ _

mutual

/-- A tree without comparisons and spatial relations turns into nothing. -/
theorem contributions_free : ∀ (n : Node) (m : Machine), n.isPrimaryFree = true →
    contributions o mark m n.steps = []
  | ⟨rule, text, children⟩, m, h => by
    rw [Node.isPrimaryFree, Bool.and_eq_true, Bool.not_eq_true'] at h
    rw [contributions_steps, contributions_freeAll children _ h.2, List.nil_append, contributions,
      h.1, if_neg Bool.false_ne_true, contributions]

theorem contributions_freeAll : ∀ (ns : List Node) (m : Machine), Node.primaryFreeAll ns = true →
    contributions o mark m (Node.stepsAll ns) = []
  | [], _, _ => rfl
  | n :: rest, m, h => by
    rw [Node.primaryFreeAll, Bool.and_eq_true] at h
    rw [Node.stepsAll, contributions_append, contributions_free n m h.1,
      contributions_freeAll rest _ h.2, List.nil_append]

end

/-! ## Single terms -/

/-- The machine at the end of a term that stands for itself. -/
def inside (n : Node) : Machine :=
  run o mark { ancestors := [n.rule] } (Node.stepsAll n.children)

/-- What a term turns into with some operators behind its own. -/
def turned (n : Node) (behind : List Slot) : Option Filter :=
  (outcome o n.rule ((inside o mark n).slots ++ behind).head? (inside o mark n).term).toOption

section Term

variable {n : Node} (hr : n.rule.isPrimary = true)
  (hfree : Node.primaryFreeAll n.children = true)

include hfree in
/-- Wherever a term stands, what is inside it reads the same and pushes the same operators. -/
theorem run_inside {m : Machine} (hparent : m.ancestors.head? = some n.rule) (hterm : m.term = {}) :
    run o mark m (Node.stepsAll n.children) =
      { m with
        slots := (inside o mark n).slots ++ m.slots
        term := (inside o mark n).term
        entries := m.entries ++ (inside o mark n).entries } := by
  obtain ⟨e, -, hon⟩ := stepsAll_confined o mark n.children hfree (some n.rule) {}
  have halone : inside o mark n = e.on { ancestors := [n.rule] } := hon _ rfl rfl
  have hrun : run o mark m (Node.stepsAll n.children) = e.on m := hon m hparent hterm
  rw [hrun, halone]
  simp [Effect.on]

include hr hfree in
/-- A term turns into what it is with the operators behind its own that wait when it is entered. -/
theorem contributions_primary (m : Machine) :
    contributions o mark m n.steps = [(n, turned o mark n m.slots)] := by
  obtain ⟨rule, text, children⟩ := n
  have hin := enter_primary o mark hr m
  have hrun := run_inside o mark hfree (m := m.enter o mark ⟨rule, text, children⟩)
    (by rw [hin]; rfl) (by rw [hin])
  rw [contributions_steps, contributions_freeAll o mark children _ hfree, List.nil_append, hrun,
    contributions, if_pos hr, contributions, hin]
  rfl

include hr hfree in
/-- A term hands on what it turns into. -/
theorem exists_run_primary (m : Machine) :
    ∃ slots entries, run o mark m n.steps =
      settle { m with slots, entries, term := {} } (turned o mark n m.slots) := by
  obtain ⟨rule, text, children⟩ := n
  have hin := enter_primary o mark hr m
  have hrun := run_inside o mark hfree (m := m.enter o mark ⟨rule, text, children⟩)
    (by rw [hin]; rfl) (by rw [hin])
  rw [run_steps, hrun, leave_primary o mark _ hr, hin, endTerm, turned]
  dsimp only
  cases outcome o rule _ _ with
  | ok f => exact ⟨_, _, rfl⟩
  | error cause => exact ⟨_, _, rfl⟩

include hr hfree in
/-- A term that is all a query holds turns into what it is with no operator behind its own. -/
theorem alone_eq_turned : alone o n = turned o hash n [] := by
  let factor := Build.factor n
  let term := Build.term [factor]
  let query := Build.query [term]
  -- the machine before the term
  let m : Machine :=
    { ancestors := [.factor, .term, .query]
      groups := [⟨hash term.text, .and, []⟩, ⟨hash query.text, .or, []⟩] }
  have hsteps : run o hash {} query.steps =
      (((run o hash m n.steps).leave o hash factor).leave o hash term).leave o hash query := by
    simp only [query, term, factor, Build.query, Build.term, Build.factor, Build.joined,
      Build.branch, List.intersperse, run_steps, Node.stepsAll, List.append_nil]
    rfl
  obtain ⟨slots, entries, hrun⟩ := exists_run_primary o hash hr hfree m
  generalize turned o hash n m.slots = d at hrun ⊢
  have hresult : (run o hash {} query.steps).result = d := by
    have hfactor : factor.rule = .factor := rfl
    have hterm : term.rule = .term := rfl
    have hquery : query.rule = .query := rfl
    rw [hsteps, hrun]
    cases d <;>
      simp [leave, endGroup, settle, deliver, Group.combine, Rule.isShape, hfactor, hterm, hquery,
        m]
  rw [alone, compile, compileMarked, if_pos (show query.rule = .query from rfl)]
  exact hresult

/-- A leaf that names an operator pushes it and changes nothing else. -/
theorem run_operator {a : Node} {s : Slot} (h : a.operator? = some s) (m : Machine) :
    run o mark m a.steps = m.pushSlot s := by
  obtain ⟨rule, text, children⟩ := a
  rw [Node.operator?] at h
  split at h
  · next hleaf =>
    obtain rfl : children = [] := List.isEmpty_iff.mp hleaf
    rw [run_steps]
    cases rule <;> simp only [reduceCtorEq, Option.map_eq_some_iff] at h
    all_goals
      obtain ⟨x, hx, rfl⟩ := h
      simp [enter, leave, connective?, shapeOf?, Node.isLeaf, takeLeaf, hx, Node.stepsAll, run,
        pushSlot, Rule.isShape]
  · cases h

include hfree in
/-- An operator in front of a term is behind its own operators. -/
theorem turned_prepend {a : Node} {s : Slot} (h : a.operator? = some s) :
    turned o mark (n.prepend a) [] = turned o mark n [s] := by
  have hinside : inside o mark (n.prepend a) =
      run o mark (pushSlot { ancestors := [n.rule] } s) (Node.stepsAll n.children) := by
    rw [← run_operator o mark h, ← run_append]
    rfl
  rw [turned, hinside, run_inside o mark hfree rfl rfl, List.append_nil]
  rfl

/-- The operators inside a term are those that it finds at its end. -/
theorem hasOperator_iff : n.hasOperator = true ↔ (inside o mark n).slots ≠ [] := by
  have hkeeps : (inside o mark n).Keeps (Node.waitingAll [] n.children) :=
    Keeps.runAll o mark n.children (keeps_nil rfl)
  have hlength := congrArg List.length hkeeps
  rw [List.length_map, List.length_map] at hlength
  rw [Node.hasOperator, Bool.not_eq_true', List.isEmpty_eq_false_iff, ← List.length_pos_iff,
    ← List.length_pos_iff, hlength]

/-- An operator is no comparison and has none inside. -/
theorem isPrimaryFree_of_operator? {a : Node} {s : Slot} (h : a.operator? = some s) :
    a.isPrimaryFree = true := by
  obtain ⟨rule, text, children⟩ := a
  have hop : rule.isOperator = true := by
    cases hop : rule.isOperator with
    | true => rfl
    | false => rw [operator?_eq_none hop] at h; cases h
  have hprimary : rule.isPrimary = false := by
    cases rule <;> first | rfl | cases hop
  rw [Node.operator?] at h
  split at h
  · next hleaf =>
    obtain rfl : children = [] := List.isEmpty_iff.mp hleaf
    simp [Node.isPrimaryFree, Node.primaryFreeAll, hprimary]
  · cases h

include hr hfree in
/-- A term with operators behind its own turns into what it is alone after the leaves they are
from. -/
theorem turned_eq_alone {m : Machine} {stack : List Node} (h : m.Keeps stack) :
    turned o hash n m.slots = alone o (n.after stack) := by
  cases stack with
  | nil =>
    have hslots : m.slots = [] := List.map_eq_nil_iff.mp h.symm
    rw [hslots, Node.after, alone_eq_turned o hr hfree]
  | cons a rest =>
    have hmap : a.operator? :: rest.map Node.operator? = m.slots.map some := h
    obtain ⟨s, slots, hslots, hop, -⟩ := List.map_eq_cons_iff.mp hmap.symm
    rw [Node.after]
    split
    · next hown =>
      obtain ⟨s', own, hinside⟩ := List.exists_cons_of_ne_nil ((hasOperator_iff o hash).mp hown)
      rw [alone_eq_turned o hr hfree, turned, turned, hinside]
      rfl
    · next hnone =>
      have hinside : (inside o hash n).slots = [] :=
        Classical.not_not.mp fun hne => hnone ((hasOperator_iff o hash).mpr hne)
      have hfront : Node.primaryFreeAll (n.prepend a).children = true := by
        rw [Node.prepend, Node.primaryFreeAll, isPrimaryFree_of_operator? hop.symm, hfree]
        rfl
      rw [alone_eq_turned o (n := n.prepend a) hr hfront, turned_prepend o hash hfree hop.symm,
        turned, turned, hinside, hslots]
      rfl

include hr hfree in
/-- Without an operator of its own a term that stands alone is dropped. -/
theorem alone_eq_none (h : n.hasOperator = false) : alone o n = none := by
  have hinside : (inside o hash n).slots = [] := by
    refine Classical.not_not.mp fun hne => ?_
    rw [(hasOperator_iff o hash).mpr hne] at h
    cases h
  have herror (t : OpenTerm) : (outcome o n.rule none t).toOption = none := by
    rcases Rule.isPrimary_iff.mp hr with hrule | hrule
    · rw [hrule]
      show (OpenTerm.comparison o.order none t).toOption = none
      rw [OpenTerm.comparison]
      cases t.subjectOf <;> rfl
    · rw [hrule]
      show (OpenTerm.spatial none t).toOption = none
      rw [OpenTerm.spatial]
      cases t.subjectOf <;> cases t.region <;> rfl
  rw [alone_eq_turned o hr hfree, turned, hinside]
  exact herror (inside o hash n).term

end Term

/-! ## Whole trees -/

mutual

/-- Every term of a tree turns into what it is alone after the operators that wait before it. -/
theorem contributions_terms : ∀ (n : Node) {m : Machine} {stack : List Node}, n.isFlat = true →
    m.Keeps stack →
    contributions o hash m n.steps = (n.terms stack).map fun p => (p.1, alone o (p.1.after p.2))
  | ⟨rule, text, children⟩, m, stack, h, hkeeps => by
    rw [Node.isFlat] at h
    rw [Node.terms]
    split at h
    · next hp =>
      rw [if_pos hp, contributions_primary o hash (n := ⟨rule, text, children⟩) hp h m,
        turned_eq_alone o (n := ⟨rule, text, children⟩) hp h hkeeps]
      rfl
    · next hp =>
      rw [if_neg hp, contributions_steps, contributions, if_neg hp, contributions, List.append_nil]
      exact contributions_termsAll children h (hkeeps.enter o hash ⟨rule, text, children⟩)

theorem contributions_termsAll : ∀ (ns : List Node) {m : Machine} {stack : List Node},
    Node.flatAll ns = true → m.Keeps stack →
    contributions o hash m (Node.stepsAll ns) =
      (Node.termsAll stack ns).map fun p => (p.1, alone o (p.1.after p.2))
  | [], _, _, _, _ => rfl
  | n :: rest, m, stack, h, hkeeps => by
    rw [Node.flatAll, Bool.and_eq_true] at h
    rw [Node.stepsAll, contributions_append, Node.termsAll, List.map_append,
      contributions_terms n h.1 hkeeps, contributions_termsAll rest h.2 (hkeeps.run o hash n)]

end

end Machine

open Machine

mutual

/-- The terms of a tree that is flat have no other term inside. -/
theorem isPrimary_of_mem_terms : ∀ (n : Node) {stack : List Node}, n.isFlat = true →
    ∀ p ∈ n.terms stack, p.1.rule.isPrimary = true ∧ Node.primaryFreeAll p.1.children = true
  | ⟨rule, text, children⟩, stack, h, p, hp => by
    rw [Node.isFlat] at h
    rw [Node.terms] at hp
    split at h
    · next hrule =>
      rw [if_pos hrule, List.mem_singleton] at hp
      rw [hp]
      exact ⟨hrule, h⟩
    · next hrule =>
      rw [if_neg hrule] at hp
      exact isPrimary_of_mem_termsAll children h p hp

theorem isPrimary_of_mem_termsAll : ∀ (ns : List Node) {stack : List Node},
    Node.flatAll ns = true →
    ∀ p ∈ Node.termsAll stack ns, p.1.rule.isPrimary = true ∧
      Node.primaryFreeAll p.1.children = true
  | [], _, _, p, hp => by cases hp
  | n :: rest, stack, h, p, hp => by
    rw [Node.flatAll, Bool.and_eq_true] at h
    rw [Node.termsAll, List.mem_append] at hp
    rcases hp with hp | hp
    · exact isPrimary_of_mem_terms n h.1 p hp
    · exact isPrimary_of_mem_termsAll rest h.2 p hp

end

/--
Every comparison and spatial relation turns into what it is alone, after the operators that wait
before it. That is what it is alone, exactly when each has an operator of its own, finds none
waiting, or is dropped with the waiting one as well.
-/
theorem contributions_eq_alone_iff (o : Options) (tree : Node) (hflat : tree.isFlat = true) :
    contributions o hash {} tree.steps =
        (tree.terms []).map (fun p => (p.1, alone o (p.1.after p.2))) ∧
      ((∀ c ∈ contributions o hash {} tree.steps, c.2 = alone o c.1) ↔
        ∀ p ∈ tree.terms [],
          p.1.hasOperator = true ∨ p.2 = [] ∨ alone o (p.1.after p.2) = none) := by
  have hterms := contributions_terms o tree hflat (keeps_nil (m := {}) rfl)
  refine ⟨hterms, ?_⟩
  rw [hterms, List.forall_mem_map]
  refine forall₂_congr fun p hp => ?_
  obtain ⟨hr, hfree⟩ := isPrimary_of_mem_terms tree hflat p hp
  obtain ⟨n, stack⟩ := p
  cases stack with
  | nil => simp [Node.after]
  | cons a rest =>
    cases hown : n.hasOperator with
    | true => simp [Node.after, hown]
    | false => simp [Node.after, hown, alone_eq_none o hr hfree hown]

/-- An operator too many changes nothing for a term that has one. -/
theorem contributions_eq_alone_named :
    let double := Build.branch .primary [Build.leaf .subject "a", Build.leaf .comparisonOp ">",
      Build.leaf .comparisonOp "=", Build.number "1"]
    let tree := Build.query [Build.term [Build.factor double, Build.factor (Build.present "b")]]
    tree.isFlat = true ∧ ∀ c ∈ contributions {} hash {} tree.steps, c.2 = alone {} c.1 := by
  refine ⟨by decide, (contributions_eq_alone_iff {} _ (by decide)).2.mpr fun p hp => .inl ?_⟩
  revert p
  rw [← List.all_eq_true]
  cbv

/-- A term without an operator takes the one that the term before it has too many. -/
theorem contributions_ne_alone :
    let double := Build.branch .primary [Build.leaf .subject "a", Build.leaf .comparisonOp ">",
      Build.leaf .comparisonOp "=", Build.number "1"]
    let bare := Build.branch .primary [Build.leaf .subject "b", Build.number "2"]
    let tree := Build.query [Build.term [Build.factor double, Build.factor bare]]
    tree.rule = .query ∧ tree.isFlat = true ∧
      contributions {} hash {} tree.steps =
        [(double, some (.test "a" .eq (.short 1))), (bare, some (.test "b" .gt (.short 2)))] ∧
      alone {} bare = none ∧ ¬ ∀ c ∈ contributions {} hash {} tree.steps, c.2 = alone {} c.1 := by
  intro double bare tree
  have hterms : contributions {} hash {} tree.steps =
      [(double, some (.test "a" .eq (.short 1))), (bare, some (.test "b" .gt (.short 2)))] := by
    cbv
  have hbare : alone {} bare = none := alone_eq_none {} rfl (by decide) (by decide)
  refine ⟨rfl, by decide, hterms, hbare, fun h => ?_⟩
  have hsame : some (Filter.test "b" .gt (.short 2)) = alone {} bare :=
    h (bare, _) (by rw [hterms]; exact List.mem_cons_of_mem _ List.mem_cons_self)
  rw [hbare] at hsame
  cases hsame

end Catalogue.Query
