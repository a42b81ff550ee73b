import Catalogue.Proofs.Query.Account

/-!
# Groups nest like nodes

A group is opened where a query, a term or a negation is entered, with a mark of its text, and the
mark is compared where a group is closed. The comparison never fails: what lies on top of the stack
when a node is left is the group that was put there when that node was entered. So the marks, and
the texts they are made of, have no influence on a compilation. All this holds of every tree,
whether it follows the grammar or not.

* `Node.outline` — a tree without the texts of its inner nodes.
* `Machine.exists_run_group` — the group that a node opens is the one that it closes.
* `Machine.unmarked_run` — a walk without marks and inner texts does the same.
* `Machine.WellNested` — the stacks of a machine on its walk through a tree.
* `compile_outline` — marks and inner texts do not matter, and every walk is well nested.
-/

namespace Catalogue.Query

open Catalogue.Journal

/-! ## Outlines -/

namespace Node

mutual

/-- The tree without the texts of its inner nodes. Rules, children and the texts of leaves stay. -/
def outline : Node → Node
  | ⟨rule, text, children⟩ => ⟨rule, if children.isEmpty then text else "", outlineAll children⟩

def outlineAll : List Node → List Node
  | [] => []
  | n :: rest => n.outline :: outlineAll rest

end

@[simp] theorem rule_outline (n : Node) : n.outline.rule = n.rule := by
  obtain ⟨rule, text, children⟩ := n
  rfl

@[simp] theorem isLeaf_outline (n : Node) : n.outline.isLeaf = n.isLeaf := by
  obtain ⟨rule, text, children⟩ := n
  cases children <;> rfl

theorem outline_of_isLeaf {n : Node} (h : n.isLeaf = true) : n.outline = n := by
  obtain ⟨rule, text, children⟩ := n
  obtain rfl : children = [] := List.isEmpty_iff.mp h
  rfl

mutual

/-- A node is left right after the walk through its children, which started where it was entered. -/
theorem exists_enter_of_leave : ∀ (tree : Node) {pre post : List Step} {n : Node},
    tree.steps = pre ++ .leave n :: post →
    ∃ before, pre = before ++ .enter n :: stepsAll n.children
  | ⟨rule, text, children⟩, pre, post, n, h => by
    rw [steps] at h
    cases pre with
    | nil => cases h
    | cons s pre =>
      obtain ⟨rfl, hwalk⟩ := List.cons.inj h
      rcases List.append_eq_append_iff.mp hwalk with ⟨between, rfl, hend⟩ | ⟨between, hin, hend⟩
      · cases between with
        | nil =>
          obtain ⟨hn, -⟩ := List.cons.inj hend
          obtain rfl := Step.leave.inj hn
          exact ⟨[], by rw [List.append_nil, List.nil_append]⟩
        | cons _ between => simp at hend
      · cases between with
        | nil =>
          obtain ⟨hn, -⟩ := List.cons.inj hend
          obtain rfl := Step.leave.inj hn
          refine ⟨[], ?_⟩
          rw [List.nil_append, hin, List.append_nil]
        | cons _ between =>
          obtain ⟨rfl, -⟩ := List.cons.inj hend
          obtain ⟨before, hbefore⟩ := exists_enter_of_leaveAll children hin
          exact ⟨.enter ⟨rule, text, children⟩ :: before, by rw [hbefore, List.cons_append]⟩

theorem exists_enter_of_leaveAll : ∀ (ns : List Node) {pre post : List Step} {n : Node},
    stepsAll ns = pre ++ .leave n :: post →
    ∃ before, pre = before ++ .enter n :: stepsAll n.children
  | [], pre, _, _, h => by
    rw [stepsAll] at h
    cases pre <;> cases h
  | first :: rest, pre, post, n, h => by
    rw [stepsAll] at h
    rcases List.append_eq_append_iff.mp h with ⟨between, rfl, hrest⟩ | ⟨between, hfirst, hend⟩
    · obtain ⟨before, hbefore⟩ := exists_enter_of_leaveAll rest hrest
      exact ⟨first.steps ++ before, by rw [hbefore, List.append_assoc]⟩
    · cases between with
      | nil =>
        -- no walk starts with leaving a node
        have hrest : stepsAll rest = [] ++ .leave n :: post := hend.symm
        obtain ⟨before, hbefore⟩ := exists_enter_of_leaveAll rest hrest
        simp at hbefore
      | cons _ between =>
        obtain ⟨rfl, -⟩ := List.cons.inj hend
        exact exists_enter_of_leave first hfirst

end

end Node

namespace Machine

variable (o : Options) (mark : String → UInt64)

/-! ## Groups -/

/-- Entering a node that opens a group puts the group on the stack. -/
theorem enter_group {n : Node} {c : Connective} (hg : connective? n.rule = some c) (m : Machine) :
    m.enter o mark n =
      { m with
        ancestors := n.rule :: m.ancestors
        groups := ⟨mark n.text, c, []⟩ :: m.groups } := by
  simp [enter, hg]

/-- The group that a node opens is on top when the node is left, and is closed without a report. -/
theorem exists_run_group {rule : Rule} {c : Connective} (hg : connective? rule = some c)
    (text : String) (children : List Node) (m : Machine) :
    let inner := run o mark (m.enter o mark ⟨rule, text, children⟩) (Node.stepsAll children)
    ∃ fs, inner.groups = ⟨mark text, c, fs⟩ :: m.groups ∧
      run o mark m (Node.steps ⟨rule, text, children⟩) =
        settle { inner with ancestors := inner.ancestors.tail, groups := m.groups }
          (Group.combine ⟨mark text, c, fs⟩) := by
  intro inner
  have hopen : (m.enter o mark ⟨rule, text, children⟩).groups =
      ⟨mark text, c, []⟩ :: m.groups := by
    rw [enter_group o mark (n := ⟨rule, text, children⟩) hg]
  obtain ⟨fs, hgroups, -⟩ := collectsAll children _ ⟨mark text, c, []⟩ m.groups hopen
  refine ⟨fs, hgroups, ?_⟩
  rw [run_steps, leave_group o mark hg text children _ hgroups]
  rfl

/-- Entering a node that opens no group leaves the groups as they are. -/
theorem groups_enter {n : Node} (hg : connective? n.rule = none) (m : Machine) :
    (m.enter o mark n).groups = m.groups := by
  cases hp : n.rule.isPrimary with
  | true => rw [enter_primary o mark hp]
  | false =>
    obtain ⟨e, -, hon⟩ := exists_enter o mark hg hp m.ancestors.head? m.term
    rw [hon m rfl rfl]
    rfl

/-- The end of a term hands on at most one filter, and reports a dropped term otherwise. -/
theorem endTerm_eq (m : Machine) (result : Option Slot → OpenTerm → Except DropCause Filter) :
    ∃ d es, (∀ e ∈ es, e.event = Event.termDropped.name) ∧ m.endTerm result =
      settle { m with slots := m.slots.tail, term := {}, entries := m.entries ++ es } d := by
  unfold endTerm
  dsimp only
  split
  · next f _ =>
    refine ⟨some f, [], nofun, ?_⟩
    rw [List.append_nil]
    rfl
  · next cause _ =>
    refine ⟨none, [dropped m.term.subject cause], fun e he => ?_, rfl⟩
    rw [List.mem_singleton.mp he]
    rfl

/-! ## What a walk leaves behind -/

@[simp] theorem ancestors_settle (m : Machine) (d : Option Filter) :
    (m.settle d).ancestors = m.ancestors := by
  cases d with
  | none => rfl
  | some f =>
    simp only [settle, deliver]
    split <;> rfl

@[simp] theorem entries_settle (m : Machine) (d : Option Filter) :
    (m.settle d).entries = m.entries := by
  cases d with
  | none => rfl
  | some f => exact entries_deliver m f

/-- Without an open group a filter becomes the result. -/
theorem groups_settle_of_nil {m : Machine} (h : m.groups = []) (d : Option Filter) :
    (m.settle d).groups = [] := by
  cases d with
  | none => exact h
  | some f => simp only [settle, deliver, h]

theorem ancestors_enter (m : Machine) (n : Node) :
    (m.enter o mark n).ancestors = n.rule :: m.ancestors := by
  cases hg : connective? n.rule with
  | some c => rw [enter_group o mark hg]
  | none =>
    cases hp : n.rule.isPrimary with
    | true => rw [enter_primary o mark hp]
    | false =>
      obtain ⟨e, -, hon⟩ := exists_enter o mark hg hp m.ancestors.head? m.term
      rw [hon m rfl rfl]

theorem ancestors_leave (m : Machine) {n : Node} (hg : connective? n.rule = none) :
    (m.leave o mark n).ancestors = m.ancestors.tail := by
  cases hp : n.rule.isPrimary with
  | false => rw [leave_eq o mark hg hp]
  | true =>
    obtain ⟨d, es, -, hend⟩ :=
      endTerm_eq { m with ancestors := m.ancestors.tail } (outcome o n.rule)
    rw [leave_primary o mark m hp, hend, ancestors_settle]

mutual

/-- After a tree the ancestors are those before it. -/
theorem ancestors_run : ∀ (n : Node) (m : Machine), (run o mark m n.steps).ancestors = m.ancestors
  | ⟨rule, text, children⟩, m => by
    have hinner : (run o mark (m.enter o mark ⟨rule, text, children⟩)
        (Node.stepsAll children)).ancestors = rule :: m.ancestors := by
      rw [ancestors_runAll children, ancestors_enter]
    cases hg : connective? rule with
    | none => rw [run_steps, ancestors_leave o mark _ hg, hinner, List.tail_cons]
    | some c =>
      obtain ⟨fs, -, hrun⟩ := exists_run_group o mark hg text children m
      rw [hrun, ancestors_settle]
      exact congrArg List.tail hinner

theorem ancestors_runAll : ∀ (ns : List Node) (m : Machine),
    (run o mark m (Node.stepsAll ns)).ancestors = m.ancestors
  | [], _ => rfl
  | n :: rest, m => by
    rw [Node.stepsAll, run_append, ancestors_runAll rest, ancestors_run n]

end

mutual

/-- A tree that is walked with no open group leaves none open. -/
theorem groups_run_of_nil : ∀ (n : Node) {m : Machine}, m.groups = [] →
    (run o mark m n.steps).groups = []
  | ⟨rule, text, children⟩, m, h => by
    cases hg : connective? rule with
    | some c =>
      obtain ⟨fs, -, hrun⟩ := exists_run_group o mark hg text children m
      rw [hrun]
      apply groups_settle_of_nil
      exact h
    | none =>
      have hinner : (run o mark (m.enter o mark ⟨rule, text, children⟩)
          (Node.stepsAll children)).groups = [] :=
        groups_runAll_of_nil children (by rw [groups_enter o mark hg, h])
      rw [run_steps]
      cases hp : rule.isPrimary with
      | false =>
        rw [leave_eq o mark hg hp]
        exact hinner
      | true =>
        rw [leave_primary o mark _ hp]
        obtain ⟨d, es, -, hend⟩ := endTerm_eq _ (outcome o rule)
        rw [hend]
        apply groups_settle_of_nil
        exact hinner

theorem groups_runAll_of_nil : ∀ (ns : List Node) {m : Machine}, m.groups = [] →
    (run o mark m (Node.stepsAll ns)).groups = []
  | [], _, h => h
  | n :: rest, m, h => by
    rw [Node.stepsAll, run_append]
    exact groups_runAll_of_nil rest (groups_run_of_nil n h)

end

/-! ## Reports -/

/-- A change that reports no group that does not nest. -/
def Nests (m m' : Machine) : Prop :=
  ∃ es, m'.entries = m.entries ++ es ∧ ∀ e ∈ es, e.event ≠ Event.groupMismatch.name

namespace Nests

variable {m m' m'' : Machine}

theorem of_eq (h : m'.entries = m.entries) : Nests m m' := ⟨[], by rw [h, List.append_nil], nofun⟩

theorem trans (h : Nests m m') (h' : Nests m' m'') : Nests m m'' := by
  obtain ⟨es, hes, hnone⟩ := h
  obtain ⟨es', hes', hnone'⟩ := h'
  refine ⟨es ++ es', ?_, List.forall_mem_append.mpr ⟨hnone, hnone'⟩⟩
  rw [hes', hes, List.append_assoc]

end Nests

theorem nests_takeLeaf (m : Machine) (n : Node) (parent : Option Rule) :
    Nests m (m.takeLeaf n parent) := by
  cases hr : n.rule
  all_goals simp only [takeLeaf, hr]
  case dmsCoordinate =>
    refine ⟨_, rfl, fun e he => ?_⟩
    rw [List.mem_singleton.mp he]
    show Event.sexagesimalUnsupported.name ≠ Event.groupMismatch.name
    decide
  case angle =>
    unfold readAngle
    split <;> exact .of_eq rfl
  all_goals first
    | exact .of_eq rfl
    | (split <;> exact .of_eq rfl)

theorem nests_enter (m : Machine) (n : Node) : Nests m (m.enter o mark n) := by
  unfold enter
  dsimp only
  split
  · exact .of_eq rfl
  · split
    · exact .of_eq rfl
    · split
      · exact .of_eq rfl
      · split
        · exact nests_takeLeaf _ n _
        · exact .of_eq rfl

mutual

/-- A walk through a tree closes every group with the mark that it was opened with. -/
theorem nests_run : ∀ (n : Node) (m : Machine), Nests m (run o mark m n.steps)
  | ⟨rule, text, children⟩, m => by
    have hinner := (nests_enter o mark m ⟨rule, text, children⟩).trans (nests_runAll children _)
    cases hg : connective? rule with
    | some c =>
      obtain ⟨fs, -, hrun⟩ := exists_run_group o mark hg text children m
      rw [hrun]
      exact hinner.trans (.of_eq (entries_settle _ _))
    | none =>
      rw [run_steps]
      refine hinner.trans ?_
      cases hp : rule.isPrimary with
      | false =>
        rw [leave_eq o mark hg hp]
        exact .of_eq rfl
      | true =>
        rw [leave_primary o mark _ hp]
        obtain ⟨d, es, hdrop, hend⟩ := endTerm_eq _ (outcome o rule)
        rw [hend]
        refine ⟨es, entries_settle _ d, fun e he => ?_⟩
        rw [hdrop e he]
        decide

theorem nests_runAll : ∀ (ns : List Node) (m : Machine),
    Nests m (run o mark m (Node.stepsAll ns))
  | [], _ => .of_eq rfl
  | n :: rest, m => by
    rw [Node.stepsAll, run_append]
    exact (nests_run n m).trans (nests_runAll rest _)

end

end Machine

/-! ## Walks without marks -/

/-- The group without its mark. -/
def Group.unmarked (g : Group) : Group := { g with mark := 0 }

namespace Machine

/-- The machine without the marks of its groups. -/
def unmarked (m : Machine) : Machine := { m with groups := m.groups.map Group.unmarked }

theorem result_unmarked (m : Machine) : m.unmarked.result = m.result := rfl

theorem entries_unmarked (m : Machine) : m.unmarked.entries = m.entries := rfl

theorem unmarked_deliver (m : Machine) (f : Filter) :
    (m.deliver f).unmarked = m.unmarked.deliver f := by
  cases hgroups : m.groups <;> simp [deliver, unmarked, hgroups, Group.unmarked]

theorem unmarked_settle (m : Machine) (d : Option Filter) :
    (m.settle d).unmarked = m.unmarked.settle d := by
  cases d with
  | none => rfl
  | some f => exact unmarked_deliver m f

theorem unmarked_endTerm (m : Machine) (result : Option Slot → OpenTerm → Except DropCause Filter) :
    (m.endTerm result).unmarked = m.unmarked.endTerm result := by
  show _ = endTerm { m with groups := m.groups.map Group.unmarked } result
  unfold endTerm
  dsimp only
  split
  · exact unmarked_deliver _ _
  · rfl

theorem unmarked_takeLeaf (m : Machine) (n : Node) (parent : Option Rule) :
    (m.takeLeaf n parent).unmarked = m.unmarked.takeLeaf n parent := by
  show _ = takeLeaf { m with groups := m.groups.map Group.unmarked } n parent
  cases hr : n.rule
  all_goals simp only [takeLeaf, hr]
  case angle =>
    unfold readAngle
    dsimp only
    split <;> rfl
  all_goals first
    | rfl
    | (split <;> rfl)

/-- Entering a node changes the groups by their marks only, and needs no text of an inner node. -/
theorem unmarked_enter (m : Machine) (n : Node) :
    (m.enter o mark n).unmarked = m.unmarked.enter o (fun _ => 0) n.outline := by
  unfold enter
  simp only [Node.rule_outline, Node.isLeaf_outline]
  split
  · rfl
  · split
    · rfl
    · split
      · rfl
      · split
        · next hleaf =>
          rw [Node.outline_of_isLeaf hleaf]
          exact unmarked_takeLeaf _ n _
        · rfl

mutual

/-- Without marks and inner texts a walk does the same. -/
theorem unmarked_run : ∀ (n : Node) (m : Machine),
    (run o mark m n.steps).unmarked = run o (fun _ => 0) m.unmarked n.outline.steps
  | ⟨rule, text, children⟩, m => by
    have hinner : (run o mark (m.enter o mark ⟨rule, text, children⟩)
        (Node.stepsAll children)).unmarked =
          run o (fun _ => 0) (m.unmarked.enter o (fun _ => 0) (Node.outline ⟨rule, text, children⟩))
            (Node.stepsAll (Node.outlineAll children)) := by
      rw [unmarked_runAll children, unmarked_enter]
    rw [Node.outline] at hinner ⊢
    cases hg : connective? rule with
    | some c =>
      obtain ⟨fs, hgroups, hrun⟩ := exists_run_group o mark hg text children m
      obtain ⟨fs', hgroups', hrun'⟩ := exists_run_group o (fun _ => 0) hg
        (if children.isEmpty then text else "") (Node.outlineAll children) m.unmarked
      rw [← hinner] at hgroups' hrun'
      -- both walks have collected the same filters in the group
      have hsame : fs = fs' := by
        rw [unmarked, hgroups, List.map_cons] at hgroups'
        exact congrArg Group.filters (List.cons.inj hgroups').1
      rw [hrun, hrun', unmarked_settle, hsame]
      rfl
    | none =>
      rw [run_steps, run_steps, ← hinner]
      cases hp : rule.isPrimary with
      | false =>
        rw [leave_eq o mark hg hp, leave_eq o (fun _ => 0) hg hp]
        rfl
      | true =>
        rw [leave_primary o mark _ hp, leave_primary o (fun _ => 0) _ hp, unmarked_endTerm]
        rfl

theorem unmarked_runAll : ∀ (ns : List Node) (m : Machine),
    (run o mark m (Node.stepsAll ns)).unmarked =
      run o (fun _ => 0) m.unmarked (Node.stepsAll (Node.outlineAll ns))
  | [], _ => rfl
  | n :: rest, m => by
    rw [Node.outlineAll, Node.stepsAll, Node.stepsAll, run_append, run_append,
      unmarked_runAll rest, unmarked_run n]

end

/-! ## Open groups -/

/-- The group is on the stack above those groups; it may have collected filters meanwhile. -/
def HasOpen (g : Group) (below : List Group) (m : Machine) : Prop :=
  ∃ inner fs, m.groups = inner ++ { g with filters := fs } :: below

theorem hasOpen_of_groups_eq {g : Group} {below : List Group} {m : Machine}
    (h : m.groups = g :: below) : HasOpen g below m := ⟨[], g.filters, h⟩

/-- What is kept above a group that is kept leaves it on the stack. -/
theorem HasOpen.below {g g' : Group} {gs : List Group} {m : Machine} (h : HasOpen g' (g :: gs) m) :
    HasOpen g gs m := by
  obtain ⟨inner, fs, hm⟩ := h
  exact ⟨inner ++ [{ g' with filters := fs }], g.filters, by rw [hm, List.append_assoc]; rfl⟩

mutual

/-- The group on top stays on the stack all the way through a tree. -/
theorem hasOpen_run : ∀ (n : Node) {m : Machine} {g : Group} {gs : List Group}, m.groups = g :: gs →
    ∀ {walked : List Step}, walked <+: n.steps → HasOpen g gs (run o mark m walked)
  | ⟨rule, text, children⟩, m, g, gs, h, walked, hwalked => by
    cases walked with
    | nil => exact hasOpen_of_groups_eq h
    | cons s walked =>
      rw [Node.steps] at hwalked
      obtain ⟨rfl, hrest⟩ := List.cons_prefix_cons.mp hwalked
      rcases List.prefix_concat_iff.mp hrest with rfl | hin
      · have hcollects : Collects o mark (Node.steps ⟨rule, text, children⟩) := collects _
        obtain ⟨fs, hfs, -⟩ := hcollects m g gs h
        rw [Node.steps] at hfs
        exact ⟨[], g.filters ++ fs, hfs⟩
      · show HasOpen g gs (run o mark (m.enter o mark ⟨rule, text, children⟩) walked)
        cases hg : connective? rule with
        | none => exact hasOpen_runAll children (by rw [groups_enter o mark hg, h]) hin
        | some c =>
          have hopened : (m.enter o mark ⟨rule, text, children⟩).groups =
              ⟨mark text, c, []⟩ :: g :: gs := by
            rw [enter_group o mark hg, h]
          exact (hasOpen_runAll children hopened hin).below

theorem hasOpen_runAll : ∀ (ns : List Node) {m : Machine} {g : Group} {gs : List Group},
    m.groups = g :: gs → ∀ {walked : List Step}, walked <+: Node.stepsAll ns →
      HasOpen g gs (run o mark m walked)
  | [], m, g, gs, h, walked, hwalked => by
    rw [List.prefix_nil.mp hwalked]
    exact hasOpen_of_groups_eq h
  | n :: rest, m, g, gs, h, walked, hwalked => by
    obtain ⟨ahead, hahead⟩ := hwalked
    rw [Node.stepsAll] at hahead
    rcases List.append_eq_append_iff.mp hahead with ⟨left, hin, -⟩ | ⟨walked, rfl, hrest⟩
    · exact hasOpen_run n h ⟨left, hin.symm⟩
    · have hcollects : Collects o mark n.steps := collects n
      obtain ⟨fs, hfs, -⟩ := hcollects m g gs h
      rw [run_append]
      -- the group that the rest starts with is the same but for its filters
      exact hasOpen_runAll rest hfs ⟨ahead, hrest.symm⟩

end

/-! ## Whole walks -/

/--
The stacks on a walk through a tree. No group is closed with the mark of another node, and in the
end no group is open and no node is being walked. Where a node that opens a group is left, the walk
has entered this node before, and the group that it put on the stack then has stayed there, is on
top now, and is what is taken off.
-/
structure WellNested (o : Options) (mark : String → UInt64) (tree : Node) : Prop where
  no_mismatch : ∀ e ∈ (run o mark {} tree.steps).entries, e.event ≠ Event.groupMismatch.name
  groups_eq : (run o mark {} tree.steps).groups = []
  ancestors_eq : (run o mark {} tree.steps).ancestors = []
  closes_own : ∀ (pre post : List Step) (n : Node) (c : Connective),
    tree.steps = pre ++ .leave n :: post → connective? n.rule = some c →
      ∃ before, pre = before ++ .enter n :: Node.stepsAll n.children ∧
        (run o mark {} (before ++ [.enter n])).groups =
          ⟨mark n.text, c, []⟩ :: (run o mark {} before).groups ∧
        (∀ walked, walked <+: Node.stepsAll n.children →
          HasOpen ⟨mark n.text, c, []⟩ (run o mark {} before).groups
            (run o mark {} (before ++ .enter n :: walked))) ∧
        ∃ fs, (run o mark {} pre).groups = ⟨mark n.text, c, fs⟩ :: (run o mark {} before).groups ∧
          run o mark {} (pre ++ [.leave n]) =
            settle { run o mark {} pre with
              ancestors := (run o mark {} pre).ancestors.tail
              groups := (run o mark {} before).groups } (Group.combine ⟨mark n.text, c, fs⟩)

theorem run_enter (before walked : List Step) (n : Node) :
    run o mark {} (before ++ .enter n :: walked) =
      run o mark ((run o mark {} before).enter o mark n) walked := by
  rw [run_append]
  rfl

theorem wellNested (tree : Node) : WellNested o mark tree where
  no_mismatch := by
    obtain ⟨es, hes, hnone⟩ := nests_run o mark tree {}
    intro e he
    rw [hes] at he
    exact hnone e he
  groups_eq := groups_run_of_nil o mark tree rfl
  ancestors_eq := ancestors_run o mark tree {}
  closes_own := by
    rintro pre post n c hsteps hg
    obtain ⟨before, rfl⟩ := Node.exists_enter_of_leave tree hsteps
    have hopen : ((run o mark {} before).enter o mark n).groups =
        ⟨mark n.text, c, []⟩ :: (run o mark {} before).groups := by
      rw [enter_group o mark hg]
    refine ⟨before, rfl, ?_, ?_, ?_⟩
    · rw [run_enter]
      exact hopen
    · intro walked hwalked
      rw [run_enter]
      exact hasOpen_runAll n.children hopen hwalked
    · obtain ⟨rule, text, children⟩ := n
      obtain ⟨fs, hgroups, hrun⟩ := exists_run_group o mark hg text children (run o mark {} before)
      rw [List.append_assoc, List.cons_append, run_enter, ← run_enter, run_enter]
      refine ⟨fs, hgroups, ?_⟩
      rw [← hrun, run_append, Node.steps]

end Machine

/-! ## Compilation -/

open Machine

theorem compileMarked_congr {o : Options} {mark mark' : String → UInt64} {tree tree' : Node}
    (h : tree'.outline = tree.outline) :
    compileMarked mark' o tree' = compileMarked mark o tree := by
  have hrule : tree'.rule = tree.rule := by rw [← Node.rule_outline tree', h, Node.rule_outline]
  have hrun : (run o mark' {} tree'.steps).unmarked = (run o mark {} tree.steps).unmarked := by
    rw [unmarked_run, unmarked_run, h]
  -- result and reports are as they are in the machines without marks
  have hresult : (run o mark' {} tree'.steps).result = (run o mark {} tree.steps).result := by
    rw [← result_unmarked, hrun, result_unmarked]
  have hentries : (run o mark' {} tree'.steps).entries = (run o mark {} tree.steps).entries := by
    rw [← entries_unmarked, hrun, entries_unmarked]
  simp only [compileMarked, hrule, hresult, hentries]

/-- No report of a compilation is about a group that does not nest. -/
theorem ne_groupMismatch_of_compileMarked {o : Options} {mark : String → UInt64} {tree : Node}
    {c : Compiled} (h : compileMarked mark o tree = .ok c) :
    ∀ e ∈ c.entries, e.event ≠ Event.groupMismatch.name := by
  rw [compileMarked] at h
  split at h
  · obtain rfl := Except.ok.inj h
    refine List.forall_mem_append.mpr ⟨(wellNested tree).no_mismatch, fun e he => ?_⟩
    rw [List.mem_singleton.mp he]
    show Event.queryCompiled.name ≠ Event.groupMismatch.name
    decide
  · cases h

/--
Trees that differ in the texts of inner nodes only compile to the same result with the same reports.
The marks of groups, equal or not, do not matter either: every walk is well nested, and no report
is about a group that does not nest.
-/
theorem compile_outline (o : Options) (tree : Node) :
    (∀ tree' : Node, tree'.outline = tree.outline → compile o tree' = compile o tree) ∧
      ∀ mark : String → UInt64, compileMarked mark o tree = compile o tree ∧
        WellNested o mark tree ∧
        ∀ c, compileMarked mark o tree = .ok c →
          ∀ e ∈ c.entries, e.event ≠ Event.groupMismatch.name :=
  ⟨fun _ h => compileMarked_congr h, fun _ =>
    ⟨compileMarked_congr rfl, wellNested tree, fun _ => ne_groupMismatch_of_compileMarked⟩⟩

/-- A negation below a comparison, with and without the texts of the inner nodes. -/
theorem compile_outline_misplaced :
    let inner := Build.not (Build.factor (Build.present "b"))
    let tree := Build.query [Build.term [Build.branch .primary [Build.leaf .subject "a", inner]]]
    tree.outline.text ≠ tree.text ∧ tree.outline.outline = tree.outline ∧
      compile {} tree.outline = compile {} tree := by
  intro inner tree
  have houtline : tree.outline.outline = tree.outline := rfl
  exact ⟨by decide, houtline, (compile_outline {} tree).1 tree.outline houtline⟩

end Catalogue.Query
