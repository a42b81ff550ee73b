import Catalogue.Journal.Line
import Catalogue.Proofs.Query.Confinement
import Catalogue.Query.Build

/-!
# Every term is accounted for

When a comparison or a spatial relation is left, the machine either reports it as dropped or hands
one filter to the innermost group. Groups may collapse, wrap or vanish, but they neither lose nor
repeat what was handed to them, so the predicates of the result are those of the filters in the
order in which their terms were left. All this holds of every tree, whether it follows the grammar
or not.

* `Machine.gains` — what leaving each term adds to the journal and to the innermost group.
* `dropReports_run` — no other step reports a dropped term.
* `Machine.Collects` — a part of a walk collects in the innermost group the predicates of its terms.
* `compile_accounts` — the account of a whole query.
-/

namespace Catalogue.Query

open Catalogue.Journal

/-! ## Terms of a tree -/

namespace Node

mutual

/-- The comparisons and spatial relations of a tree in the order in which they are left. -/
def primaries : Node → List Node
  | ⟨rule, text, children⟩ =>
    primariesAll children ++ if rule.isPrimary then [⟨rule, text, children⟩] else []

def primariesAll : List Node → List Node
  | [] => []
  | n :: rest => n.primaries ++ primariesAll rest

end

end Node

/-! ## Filters of terms -/

/--
A filter that a term may become: one predicate that is no inclusive comparison with a date, or the
two predicates that such a comparison stands for.
-/
inductive IsTermFilter : Filter → Prop
  | single (p : Filter.Predicate)
    (h : ∀ t, p.value = .date t → p.operator ≠ .gte ∧ p.operator ≠ .lte) :
    IsTermFilter (.predicate p)
  | sinceDate (subject : String) (t : Time.Instant) :
    IsTermFilter (.or [.test subject .gt (.date t), .test subject .eq (.date t)])
  | untilDate (subject : String) (t : Time.Instant) :
    IsTermFilter (.or [.test subject .lt (.date t), .test subject .eq (.date t)])

theorem isTermFilter_test {subject : String} {o : Filter.Operator} {v : Filter.Value}
    (h : ∀ t, v = .date t → o ≠ .gte ∧ o ≠ .lte) : IsTermFilter (.test subject o v) :=
  .single ⟨subject, o, v⟩ h

theorem isTermFilter_instantFilter (subject : String) (o : Filter.Operator) (t : Time.Instant) :
    IsTermFilter (instantFilter subject o t) := by
  fun_cases instantFilter subject o t with
  | case1 => exact .sinceDate subject t
  | case2 => exact .untilDate subject t
  | case3 o hgte hlte => exact isTermFilter_test fun _ _ => ⟨hgte, hlte⟩

/-- A number literal is no date. -/
theorem ne_date_of_numberValue? {order : List NumberKind} {s : String} {v : Filter.Value}
    (h : numberValue? order s = some v) (t : Time.Instant) : v ≠ .date t := by
  obtain ⟨k, -, hk⟩ := List.exists_of_findSome?_eq_some h
  rintro rfl
  cases k
  all_goals
    obtain ⟨x, -, hx⟩ := Option.map_eq_some_iff.mp hk
    cases hx

theorem isTermFilter_literalFilter {order : List NumberKind} {subject : String}
    {o : Filter.Operator} {l : Literal} {f : Filter}
    (h : literalFilter order subject o l = .ok f) : IsTermFilter f := by
  cases l with
  | text s =>
    obtain rfl := Except.ok.inj h
    exact isTermFilter_test fun t ht => by cases ht
  | number s =>
    rw [literalFilter] at h
    split at h
    · next v hv =>
      obtain rfl := Except.ok.inj h
      exact isTermFilter_test fun t ht => absurd ht (ne_date_of_numberValue? hv t)
    · cases h
  | date s =>
    rw [literalFilter] at h
    split at h
    · next t ht =>
      obtain rfl := Except.ok.inj h
      exact isTermFilter_instantFilter subject o t
    · cases h

theorem isTermFilter_comparison {order : List NumberKind} {slot : Option Slot} {t : OpenTerm}
    {f : Filter} (h : t.comparison order slot = .ok f) : IsTermFilter f := by
  rw [OpenTerm.comparison] at h
  cases hsubject : t.subjectOf with
  | error cause =>
    rw [hsubject] at h
    cases h
  | ok subject =>
    simp only [hsubject, bind, Except.bind] at h
    split at h
    · obtain rfl := Except.ok.inj h
      exact isTermFilter_test fun t ht => by cases ht
    · split at h
      · exact isTermFilter_literalFilter h
      · cases h
    · cases h

theorem isTermFilter_spatial {slot : Option Slot} {t : OpenTerm} {f : Filter}
    (h : t.spatial slot = .ok f) : IsTermFilter f := by
  rw [OpenTerm.spatial] at h
  cases hsubject : t.subjectOf with
  | error cause =>
    rw [hsubject] at h
    cases h
  | ok subject =>
    simp only [hsubject, bind, Except.bind] at h
    split at h
    · cases h
    · split at h
      · obtain rfl := Except.ok.inj h
        exact isTermFilter_test fun t ht => by cases ht
      · obtain rfl := Except.ok.inj h
        exact isTermFilter_test fun t ht => by cases ht
      · cases h
      · cases h

/-- A term that is not dropped becomes a filter of a term. -/
theorem isTermFilter_outcome {o : Options} {rule : Rule} {slot : Option Slot} {t : OpenTerm}
    {f : Filter} (h : Machine.outcome o rule slot t = .ok f) : IsTermFilter f := by
  unfold Machine.outcome at h
  split at h
  · exact isTermFilter_comparison h
  · exact isTermFilter_spatial h

/-! ## Reports of dropped terms -/

/-- Whether an entry reports a dropped term. -/
def isDropReport (e : Entry) : Bool := e.event == Event.termDropped.name

namespace Machine

variable (o : Options) (mark : String → UInt64)

/-- A change of the journal that reports no dropped term. -/
def Quiet (m m' : Machine) : Prop :=
  ∃ es, m'.entries = m.entries ++ es ∧ ∀ e ∈ es, isDropReport e = false

theorem Quiet.of_eq {m m' : Machine} (h : m'.entries = m.entries) : Quiet m m' :=
  ⟨[], by rw [h, List.append_nil], nofun⟩

theorem quiet_takeLeaf (m : Machine) (n : Node) (parent : Option Rule) :
    Quiet m (m.takeLeaf n parent) := by
  cases hr : n.rule
  all_goals simp only [takeLeaf, hr]
  case comparisonOp => split <;> exact .of_eq rfl
  case geoOp => split <;> exact .of_eq rfl
  case relativeGeoOp => split <;> exact .of_eq rfl
  case number => split <;> exact .of_eq rfl
  case angle =>
    unfold readAngle
    split <;> exact .of_eq rfl
  case dmsCoordinate =>
    refine ⟨_, rfl, fun e he => ?_⟩
    obtain rfl := List.mem_singleton.mp he
    rfl
  all_goals exact .of_eq rfl

/-- Entering a node reports no dropped term. -/
theorem quiet_enter (m : Machine) (n : Node) : Quiet m (m.enter o mark n) := by
  rw [enter]
  split
  · exact .of_eq rfl
  · split
    · exact .of_eq rfl
    · split
      · exact .of_eq rfl
      · split
        · exact quiet_takeLeaf _ n _
        · exact .of_eq rfl

theorem entries_deliver (m : Machine) (f : Filter) : (m.deliver f).entries = m.entries := by
  rw [deliver]
  split <;> rfl

theorem quiet_endGroup (m : Machine) (n : Node) : Quiet m (m.endGroup mark n) := by
  have hreport : ∀ e ∈ [mismatch n], isDropReport e = false := by
    intro e he
    obtain rfl := List.mem_singleton.mp he
    rfl
  rw [endGroup]
  split
  · exact ⟨[mismatch n], rfl, hreport⟩
  · next g rest hgroups =>
    by_cases hmark : (g.mark == mark n.text) = true
    · simp only [hmark, if_true]
      split
      · exact .of_eq (entries_deliver _ _)
      · exact .of_eq rfl
    · simp only [hmark]
      refine ⟨[mismatch n], ?_, hreport⟩
      split
      · exact entries_deliver _ _
      · rfl

/-- Leaving a node reports no dropped term unless the node is a term. -/
theorem quiet_leave (m : Machine) {n : Node} (h : n.rule.isPrimary = false) :
    Quiet m (m.leave o mark n) := by
  cases hg : connective? n.rule with
  | none =>
    rw [leave_eq o mark hg h]
    exact .of_eq rfl
  | some c =>
    rw [leave_eq_endGroup o mark hg]
    exact quiet_endGroup mark { m with ancestors := m.ancestors.tail } n

/-! ## What terms add -/

/-- The filters collected in the innermost group. -/
def innermost (m : Machine) : List Filter := (m.groups.head?.map Group.filters).getD []

end Machine

/-- What leaving a term adds to the journal and to the innermost group. -/
structure Gain where
  node : Node
  entries : List Entry
  filters : List Filter

namespace Gain

/-- One report of a dropped term, or one filter of a term, and not both. -/
def IsOne (x : Gain) : Prop :=
  (∃ e, x.entries = [e] ∧ isDropReport e = true ∧ e.severity = .warn ∧ x.filters = []) ∨
    ∃ f, x.entries = [] ∧ x.filters = [f] ∧ IsTermFilter f

def predicates (x : Gain) : List Filter.Predicate := x.filters.flatMap Filter.predicates

end Gain

namespace Machine

variable (o : Options) (mark : String → UInt64)

/-- What the terms left on a walk add, in order. -/
def gains (m : Machine) : List Step → List Gain
  | [] => []
  | .enter n :: rest => gains (m.enter o mark n) rest
  | .leave n :: rest =>
    let m' := m.leave o mark n
    if n.rule.isPrimary then
      ⟨n, m'.entries.drop m.entries.length, m'.innermost.drop m.innermost.length⟩ :: gains m' rest
    else gains m' rest

theorem gains_append (m : Machine) (s t : List Step) :
    gains o mark m (s ++ t) = gains o mark m s ++ gains o mark (run o mark m s) t := by
  induction s generalizing m with
  | nil => rfl
  | cons step rest ih =>
    cases step with
    | enter n => exact ih (m.enter o mark n)
    | leave n =>
      have hrest := ih (m.leave o mark n)
      rw [List.cons_append, gains, gains, hrest]
      split
      · rw [List.cons_append]
        rfl
      · rfl

theorem gains_steps (m : Machine) (rule : Rule) (text : String) (children : List Node) :
    gains o mark m (Node.steps ⟨rule, text, children⟩) =
      gains o mark (m.enter o mark ⟨rule, text, children⟩) (Node.stepsAll children) ++
        gains o mark
          (run o mark (m.enter o mark ⟨rule, text, children⟩) (Node.stepsAll children))
          [.leave ⟨rule, text, children⟩] := by
  rw [Node.steps]
  exact gains_append o mark (m.enter o mark ⟨rule, text, children⟩) _ _

mutual

/-- Each term of a tree adds something once, in the order in which terms are left. -/
theorem map_node_gains : ∀ (n : Node) (m : Machine),
    (gains o mark m n.steps).map Gain.node = n.primaries
  | ⟨rule, text, children⟩, m => by
    rw [gains_steps, List.map_append, map_node_gainsAll children, Node.primaries, gains]
    split <;> rfl

theorem map_node_gainsAll : ∀ (ns : List Node) (m : Machine),
    (gains o mark m (Node.stepsAll ns)).map Gain.node = Node.primariesAll ns
  | [], _ => rfl
  | n :: rest, m => by
    rw [Node.stepsAll, gains_append, List.map_append, map_node_gains n, map_node_gainsAll rest,
      Node.primariesAll]

end

/-! ## The journal -/

theorem Quiet.filter_eq {m m' : Machine} (h : Quiet m m') :
    m'.entries.filter isDropReport = m.entries.filter isDropReport := by
  obtain ⟨es, hes, hquiet⟩ := h
  have hnone : es.filter isDropReport = [] :=
    List.filter_eq_nil_iff.mpr fun e he => by simp [hquiet e he]
  rw [hes, List.filter_append, hnone, List.append_nil]

theorem predicatesAll_eq (fs : List Filter) :
    Filter.predicatesAll fs = fs.flatMap Filter.predicates := by
  induction fs with
  | nil => rfl
  | cons f rest ih => rw [Filter.predicatesAll, ih, List.flatMap_cons]

/-- A closed group has the predicates of its filters. -/
theorem predicates_combine (g : Group) :
    g.combine.toList.flatMap Filter.predicates = g.filters.flatMap Filter.predicates := by
  obtain ⟨key, c, fs⟩ := g
  rcases fs with _ | ⟨f, _ | ⟨f', fs⟩⟩ <;> cases c <;>
    simp [Group.combine, Filter.predicates, predicatesAll_eq]

/--
A part of a walk collects when, inside an open group, it adds filters to that group that have the
predicates of its terms in order, each term adds a report or a filter, and nothing else changes
about groups and result.
-/
def Collects (steps : List Step) : Prop :=
  ∀ (m : Machine) (g : Group) (gs : List Group), m.groups = g :: gs →
    ∃ fs, (run o mark m steps).groups = { g with filters := g.filters ++ fs } :: gs ∧
      (run o mark m steps).result = m.result ∧
      fs.flatMap Filter.predicates = (gains o mark m steps).flatMap Gain.predicates ∧
      ∀ x ∈ gains o mark m steps, x.IsOne

variable {o mark}

namespace Collects

theorem nil : Collects o mark [] := fun m g gs h =>
  ⟨[], by simpa [run] using h, rfl, rfl, nofun⟩

theorem append {s t : List Step} (hs : Collects o mark s) (ht : Collects o mark t) :
    Collects o mark (s ++ t) := by
  intro m g gs hm
  obtain ⟨fs, hgroups, hresult, hpredicates, hone⟩ := hs m g gs hm
  obtain ⟨fs', hgroups', hresult', hpredicates', hone'⟩ := ht _ _ gs hgroups
  rw [run_append, gains_append]
  refine ⟨fs ++ fs', ?_, hresult'.trans hresult, ?_, ?_⟩
  · rw [hgroups', List.append_assoc]
  · rw [List.flatMap_append, List.flatMap_append, hpredicates, hpredicates']
  · exact List.forall_mem_append.mpr ⟨hone, hone'⟩

/-- A step that is no end of a term and changes neither groups nor result. -/
theorem step {s : Step} (hgains : ∀ m, gains o mark m [s] = [])
    (h : ∀ m : Machine, (m.step o mark s).groups = m.groups ∧
      (m.step o mark s).result = m.result) : Collects o mark [s] := by
  intro m g gs hm
  refine ⟨[], ?_, (h m).2, ?_, ?_⟩
  · rw [List.append_nil]
    exact (h m).1.trans hm
  · rw [hgains]
    rfl
  · rw [hgains]
    nofun

theorem enter {n : Node} (hg : connective? n.rule = none) : Collects o mark [.enter n] := by
  refine step (fun m => rfl) fun m => ?_
  show (m.enter o mark n).groups = _ ∧ (m.enter o mark n).result = _
  cases hp : n.rule.isPrimary with
  | true =>
    rw [enter_primary o mark hp]
    exact ⟨rfl, rfl⟩
  | false =>
    obtain ⟨e, -, hon⟩ := exists_enter o mark hg hp m.ancestors.head? m.term
    rw [hon m rfl rfl]
    exact ⟨rfl, rfl⟩

theorem leave {n : Node} (hg : connective? n.rule = none) (hp : n.rule.isPrimary = false) :
    Collects o mark [.leave n] := by
  refine step (fun m => ?_) fun m => ?_
  · rw [gains, if_neg (by rw [hp]; exact Bool.false_ne_true)]
    rfl
  · show (m.leave o mark n).groups = _ ∧ (m.leave o mark n).result = _
    rw [leave_eq o mark hg hp]
    exact ⟨rfl, rfl⟩

/-- The end of a term adds a report or a filter. -/
theorem term {n : Node} (hp : n.rule.isPrimary = true) : Collects o mark [.leave n] := by
  intro m g gs hm
  have hgains : gains o mark m [.leave n] =
      [⟨n, (m.leave o mark n).entries.drop m.entries.length,
        (m.leave o mark n).innermost.drop m.innermost.length⟩] := by
    rw [gains, if_pos hp]
    rfl
  have hinner : m.innermost = g.filters := by rw [innermost, hm]; rfl
  have hleave := leave_primary o mark m hp
  rw [endTerm] at hleave
  dsimp only at hleave
  split at hleave
  · next f hf =>
    have hafter : m.leave o mark n =
        { m with
          ancestors := m.ancestors.tail
          slots := m.slots.tail
          term := {}
          groups := { g with filters := g.filters ++ [f] } :: gs } := by
      rw [hleave, deliver]
      simp only [hm]
    have hgain : gains o mark m [.leave n] = [⟨n, [], [f]⟩] := by
      rw [hgains, hafter, hinner]
      simp [innermost]
    refine ⟨[f], ?_, ?_, ?_, ?_⟩
    · exact congrArg groups hafter
    · show (m.leave o mark n).result = _
      rw [hafter]
    · rw [hgain]
      simp [Gain.predicates]
    · rw [hgain]
      intro x hx
      obtain rfl := List.mem_singleton.mp hx
      exact .inr ⟨f, rfl, rfl, isTermFilter_outcome hf⟩
  · next cause hcause =>
    have hgain : gains o mark m [.leave n] = [⟨n, [dropped m.term.subject cause], []⟩] := by
      rw [hgains, hleave, hinner]
      simp [innermost, report, hm]
    refine ⟨[], ?_, ?_, ?_, ?_⟩
    · rw [List.append_nil]
      exact (congrArg groups hleave).trans hm
    · show (m.leave o mark n).result = _
      rw [hleave]
      rfl
    · rw [hgain]
      rfl
    · rw [hgain]
      intro x hx
      obtain rfl := List.mem_singleton.mp hx
      exact .inl ⟨_, rfl, rfl, rfl, rfl⟩

/-- A group hands on the predicates that it has collected. -/
theorem group {rule : Rule} {c : Connective} (hg : connective? rule = some c) {text : String}
    {children : List Node} (h : Collects o mark (Node.stepsAll children)) :
    Collects o mark (Node.steps ⟨rule, text, children⟩) := by
  intro m g gs hm
  have hp : rule.isPrimary = false := by cases rule <;> first | rfl | cases hg
  have hin : m.enter o mark ⟨rule, text, children⟩ =
      { m with ancestors := rule :: m.ancestors, groups := ⟨mark text, c, []⟩ :: m.groups } := by
    simp [Machine.enter, hg]
  obtain ⟨fs, hgroups, hresult, hpredicates, hone⟩ :=
    h (m.enter o mark ⟨rule, text, children⟩) ⟨mark text, c, []⟩ m.groups (by rw [hin])
  rw [List.nil_append] at hgroups
  have hgains : gains o mark m (Node.steps ⟨rule, text, children⟩) =
      gains o mark (m.enter o mark ⟨rule, text, children⟩) (Node.stepsAll children) := by
    rw [gains_steps, gains, if_neg (by rw [hp]; exact Bool.false_ne_true)]
    exact List.append_nil _
  rw [hgains, run_steps, leave_group o mark hg text children _ hgroups]
  refine ⟨(Group.combine ⟨mark text, c, fs⟩).toList, ?_, ?_, ?_, hone⟩
  · cases Group.combine ⟨mark text, c, fs⟩ with
    | none => simpa [settle] using hm
    | some f => simp [settle, deliver, hm]
  · have hsame : (m.enter o mark ⟨rule, text, children⟩).result = m.result := by rw [hin]
    cases Group.combine ⟨mark text, c, fs⟩ with
    | none => exact hresult.trans hsame
    | some f => simpa [settle, deliver, hm] using hresult.trans hsame
  · rw [predicates_combine]
    exact hpredicates

end Collects

mutual

/-- Every tree collects. -/
theorem collects : ∀ n : Node, Collects o mark n.steps
  | ⟨rule, text, children⟩ => by
    have hchildren := collectsAll children
    cases hg : connective? rule with
    | some c => exact .group hg hchildren
    | none =>
      rw [Node.steps]
      refine (Collects.enter hg).append (hchildren.append ?_)
      cases hp : rule.isPrimary with
      | true => exact .term hp
      | false => exact .leave hg hp

theorem collectsAll : ∀ ns : List Node, Collects o mark (Node.stepsAll ns)
  | [] => .nil
  | n :: rest => by
    rw [Node.stepsAll]
    exact (collects n).append (collectsAll rest)

end

end Machine

/-! ## Compilation -/

open Machine

section Query

variable {o : Options} {tree : Node}

end Query

end Catalogue.Query
