import Catalogue.Proofs.Query.Confinement
import Catalogue.Query.Build

/-!
# The meaning of a query

What a tree stands for, by recursion on the tree: a comparison or a spatial relation stands for the
filter it has alone in a query, a negation for the negation of its factor, a term and a query for
the conjunction and the disjunction of their parts. Parts that were dropped are left out, and a
single part is not wrapped.

The machine computes this meaning. It keeps two things in step with the recursion: no operator is
left over between terms, and what a subtree stands for is handed to the innermost open group, or
becomes the result.

* `meaning` — the filter that a tree stands for, if any.
* `Machine.Settles` — a part of a walk hands on these filters and changes nothing else.
* `compile_eq_meaning` — a tree that follows the grammar is compiled to what it stands for.
-/

namespace Catalogue.Query

/-! ## Meanings -/

/-- Filters under one connective: none for no filter, and a single one as it is. -/
def joined (connect : List Filter → Filter) (parts : List (Option Filter)) : Option Filter :=
  match parts.filterMap id with
  | [] => none
  | [f] => some f
  | fs => some (connect fs)

/-- What the only part stands for. -/
def single : List (Option Filter) → Option Filter
  | [d] => d
  | _ => none

/-- What a node is compiled to when it is all that a query holds. -/
def alone (o : Options) (n : Node) : Option Filter :=
  match compile o (Build.query [Build.term [Build.factor n]]) with
  | .ok c => c.filter
  | .error _ => none

mutual

/-- The filter that a tree stands for; keywords and brackets do not count. -/
def meaning (o : Options) : Node → Option Filter
  | ⟨rule, text, children⟩ =>
    match rule with
    | .query => joined .or (meanings o children)
    | .term => joined .and (meanings o children)
    | .factor => single (meanings o children)
    | .not => (single (meanings o children)).map .not
    | .primary => alone o ⟨.primary, text, children⟩
    | .geoPrimary => alone o ⟨.geoPrimary, text, children⟩
    | _ => none

def meanings (o : Options) : List Node → List (Option Filter)
  | [] => []
  | n :: rest =>
    if n.rule = .punctuation then meanings o rest else meaning o n :: meanings o rest

end

namespace Machine

/-! ## Handing filters on -/

/-- Machines that differ in the open term and the reports only. -/
structure Agrees (m m' : Machine) : Prop where
  ancestors : m.ancestors = m'.ancestors
  slots : m.slots = m'.slots
  groups : m.groups = m'.groups
  result : m.result = m'.result

theorem Agrees.refl (m : Machine) : m.Agrees m := ⟨rfl, rfl, rfl, rfl⟩

theorem Agrees.trans {a b c : Machine} (h : a.Agrees b) (h' : b.Agrees c) : a.Agrees c :=
  ⟨h.ancestors.trans h'.ancestors, h.slots.trans h'.slots, h.groups.trans h'.groups,
    h.result.trans h'.result⟩

@[simp] theorem slots_settle (m : Machine) (d : Option Filter) : (m.settle d).slots = m.slots := by
  cases d with
  | none => rfl
  | some f =>
    simp only [settle, deliver]
    split <;> rfl

theorem slots_foldl_settle (ds : List (Option Filter)) (m : Machine) :
    (ds.foldl settle m).slots = m.slots := by
  induction ds generalizing m with
  | nil => rfl
  | cons d ds ih => rw [List.foldl_cons, ih, slots_settle]

theorem Agrees.settle {m m' : Machine} (h : m.Agrees m') (d : Option Filter) :
    (m.settle d).Agrees (m'.settle d) := by
  cases d with
  | none => exact h
  | some f =>
    simp only [Machine.settle, deliver, ← h.groups]
    split
    · exact ⟨h.ancestors, h.slots, rfl, h.result⟩
    · exact ⟨h.ancestors, h.slots, rfl, rfl⟩

theorem Agrees.foldl_settle (ds : List (Option Filter)) {m m' : Machine} (h : m.Agrees m') :
    (ds.foldl Machine.settle m).Agrees (ds.foldl Machine.settle m') := by
  induction ds generalizing m m' with
  | nil => exact h
  | cons d ds ih => exact ih (h.settle d)

theorem settle_ancestors (m : Machine) (a : List Rule) (d : Option Filter) :
    settle { m with ancestors := a } d = { m.settle d with ancestors := a } := by
  cases d with
  | none => rfl
  | some f =>
    simp only [settle, deliver]
    split <;> rfl

/-- What is handed on does not depend on the ancestors. -/
theorem foldl_settle_ancestors (ds : List (Option Filter)) (m : Machine) (a : List Rule) :
    ds.foldl settle { m with ancestors := a } = { ds.foldl settle m with ancestors := a } := by
  induction ds generalizing m with
  | nil => rfl
  | cons d ds ih => rw [List.foldl_cons, settle_ancestors, ih, List.foldl_cons]

theorem ancestors_foldl_settle (ds : List (Option Filter)) (m : Machine) :
    (ds.foldl settle m).ancestors = m.ancestors := by
  have h := congrArg ancestors (foldl_settle_ancestors ds m m.ancestors)
  exact h

/-- An open group collects the filters that are handed on. -/
theorem foldl_settle_group (ds : List (Option Filter)) {m : Machine} {g : Group} {gs : List Group}
    (h : m.groups = g :: gs) :
    ds.foldl settle m =
      { m with groups := { g with filters := g.filters ++ ds.filterMap id } :: gs } := by
  induction ds generalizing m g with
  | nil => simp [← h]
  | cons d ds ih =>
    cases d with
    | none => exact ih h
    | some f =>
      have hstep : m.settle (some f) =
          { m with groups := { g with filters := g.filters ++ [f] } :: gs } := by
        simp only [settle, deliver, h]
      rw [List.foldl_cons, ih (show (m.settle (some f)).groups = _ by rw [hstep]), hstep]
      simp

/-! ## Parts of a walk -/

variable (o : Options) (mark : String → UInt64)

/--
A part of a walk settles filters when every machine without operators hands them on in order, and is
otherwise as before.
-/
def Settles (steps : List Step) (ds : List (Option Filter)) : Prop :=
  ∀ m : Machine, m.slots = [] → (run o mark m steps).Agrees (ds.foldl settle m)

variable {o mark}

namespace Settles

theorem nil : Settles o mark [] [] := fun m _ => Agrees.refl m

theorem append {s t : List Step} {ds es : List (Option Filter)} (hs : Settles o mark s ds)
    (ht : Settles o mark t es) : Settles o mark (s ++ t) (ds ++ es) := by
  intro m hm
  have hfirst := hs m hm
  have hslots : (run o mark m s).slots = [] := by
    rw [hfirst.slots, slots_foldl_settle, hm]
  rw [run_append, List.foldl_append]
  exact (ht _ hslots).trans (hfirst.foldl_settle es)

/-- An only child. -/
theorem only {n : Node} {ds : List (Option Filter)} (h : Settles o mark n.steps ds) :
    Settles o mark (Node.stepsAll [n]) ds := by
  have hn := h.append nil
  rw [List.append_nil ds] at hn
  exact hn

/-- A keyword or a bracket hands on nothing. -/
theorem punctuation (text : String) : Settles o mark (Node.steps ⟨.punctuation, text, []⟩) [] := by
  intro m _
  rw [run_steps]
  exact Agrees.refl m

/-- A factor hands on what its children do. -/
theorem factor {text : String} {children : List Node} {ds : List (Option Filter)}
    (h : Settles o mark (Node.stepsAll children) ds) :
    Settles o mark (Node.steps ⟨.factor, text, children⟩) ds := by
  intro m hm
  have hin : m.enter o mark ⟨.factor, text, children⟩ =
      { m with ancestors := .factor :: m.ancestors } := by
    simp [enter, connective?, shapeOf?, takeLeaf]
  obtain ⟨ha, hs, hg, hr⟩ := h _ (show (m.enter o mark ⟨.factor, text, children⟩).slots = [] by
    rw [hin]; exact hm)
  rw [hin, foldl_settle_ancestors] at ha hs hg hr
  rw [run_steps, hin]
  refine ⟨?_, hs, hg, hr⟩
  show (run o mark _ _).ancestors.tail = _
  rw [ha]
  exact (ancestors_foldl_settle ds m).symm

/-- A group hands on what its parts amount to under its connective. -/
theorem group {rule : Rule} {c : Connective} (hg : connective? rule = some c) {text : String}
    {children : List Node} {ds : List (Option Filter)}
    (h : Settles o mark (Node.stepsAll children) ds) :
    Settles o mark (Node.steps ⟨rule, text, children⟩)
      [Group.combine ⟨mark text, c, ds.filterMap id⟩] := by
  intro m hm
  have hin : m.enter o mark ⟨rule, text, children⟩ =
      { m with ancestors := rule :: m.ancestors, groups := ⟨mark text, c, []⟩ :: m.groups } := by
    simp [enter, hg]
  have hbody := h (m.enter o mark ⟨rule, text, children⟩) (by rw [hin]; exact hm)
  rw [foldl_settle_group ds (show (m.enter o mark ⟨rule, text, children⟩).groups = _ by rw [hin]),
    List.nil_append] at hbody
  rw [run_steps, leave_group o mark hg text children _ hbody.groups]
  have hback : Agrees
      { run o mark (m.enter o mark ⟨rule, text, children⟩) (Node.stepsAll children) with
        ancestors := (run o mark (m.enter o mark ⟨rule, text, children⟩)
          (Node.stepsAll children)).ancestors.tail
        groups := m.groups } m := by
    rw [hin] at hbody ⊢
    exact ⟨congrArg List.tail hbody.ancestors, hbody.slots, rfl, hbody.result⟩
  exact hback.settle _

/--
A comparison or a spatial relation with one operator hands on the same filter, or none, wherever it
stands.
-/
theorem exists_primary {n : Node} (hr : n.rule.isPrimary = true)
    (hfree : Node.primaryFreeAll n.children = true) (hops : Node.operatorsAll n.children = 1) :
    ∃ d, Settles o mark n.steps [d] := by
  obtain ⟨e, he, hrun⟩ := run_primary o mark hr hfree
  rw [hops] at he
  have htail : e.slots.tail = [] := by
    rw [← List.length_eq_zero_iff, List.length_tail]
    omega
  -- on an empty stack the one operator is the only slot
  have hslots : ∀ m : Machine, m.slots = [] → (e.on m).slots = e.slots := by
    intro m hm
    simp [Effect.on, hm]
  refine ⟨(outcome o n.rule e.slots.head? e.term).toOption, fun m hm => ?_⟩
  have hcleared : Agrees { e.on m with slots := e.slots.tail, term := {} } m :=
    ⟨rfl, htail.trans hm.symm, rfl, rfl⟩
  have hterm : ∀ m : Machine, (e.on m).term = e.term := fun _ => rfl
  rw [hrun, endTerm, hslots m hm, hterm m]
  cases outcome o n.rule e.slots.head? e.term with
  | ok f => exact hcleared.settle (some f)
  | error cause => exact ⟨rfl, htail.trans hm.symm, rfl, rfl⟩

end Settles

end Machine

/-! ## Compilation -/

section

open Machine

variable {o : Options}

/-- A query that hands on one filter, or none, is compiled to it. -/
theorem filter_compile {tree : Node} {d : Option Filter} (hr : tree.rule = .query)
    (h : Settles o hash tree.steps [d]) : (compile o tree).map Compiled.filter = .ok d := by
  have hresult : (run o hash {} tree.steps).result = d := by
    rw [(h {} rfl).result]
    cases d <;> rfl
  rw [compile, compileMarked, if_pos hr]
  exact congrArg Except.ok hresult

theorem combine_and (key : UInt64) (ds : List (Option Filter)) :
    Group.combine ⟨key, .and, ds.filterMap id⟩ = joined .and ds := by
  rw [joined]
  generalize ds.filterMap id = fs
  rcases fs with _ | ⟨f, _ | ⟨g, fs⟩⟩ <;> rfl

theorem combine_or (key : UInt64) (ds : List (Option Filter)) :
    Group.combine ⟨key, .or, ds.filterMap id⟩ = joined .or ds := by
  rw [joined]
  generalize ds.filterMap id = fs
  rcases fs with _ | ⟨f, _ | ⟨g, fs⟩⟩ <;> rfl

theorem combine_not (key : UInt64) (d : Option Filter) :
    Group.combine ⟨key, .not, [d].filterMap id⟩ = d.map .not := by
  cases d <;> rfl

theorem joined_single (connect : List Filter → Filter) (d : Option Filter) :
    joined connect [d] = d := by
  cases d <;> rfl

/-- A node that hands on one filter, or none, is compiled to it when it stands alone. -/
theorem alone_eq {n : Node} {d : Option Filter} (h : Settles o hash n.steps [d]) :
    alone o n = d := by
  have hfactor : Settles o hash (Build.factor n).steps [d] := h.only.factor
  have hterm : Settles o hash (Build.term [Build.factor n]).steps [d] := by
    rw [← joined_single .and d, ← combine_and (hash (Build.term [Build.factor n]).text)]
    exact hfactor.only.group rfl
  have hquery : Settles o hash (Build.query [Build.term [Build.factor n]]).steps [d] := by
    rw [← joined_single .or d,
      ← combine_or (hash (Build.query [Build.term [Build.factor n]]).text)]
    exact hterm.only.group rfl
  have hcompile : (compile o (Build.query [Build.term [Build.factor n]])).map Compiled.filter =
      .ok d := filter_compile rfl hquery
  unfold alone
  cases hc : compile o (Build.query [Build.term [Build.factor n]]) with
  | ok c =>
    rw [hc] at hcompile
    exact Except.ok.inj hcompile
  | error e =>
    rw [hc] at hcompile
    cases hcompile

/-- A term with one operator is compiled, when it stands alone, to what comes of walking it. -/
theorem alone_eq_result {n : Node} (hr : n.rule.isPrimary = true)
    (hfree : Node.primaryFreeAll n.children = true) (hops : Node.operatorsAll n.children = 1) :
    alone o n = (run o hash {} n.steps).result := by
  obtain ⟨d, hd⟩ : ∃ d, Settles o hash n.steps [d] := Settles.exists_primary hr hfree hops
  rw [alone_eq hd, (hd {} rfl).result]
  cases d <;> rfl

/-! ## Trees that follow the grammar -/

/-- Whether nodes of the rule stand for filters. -/
def Rule.isMeaningful : Rule → Bool
  | .query => true
  | .term => true
  | .factor => true
  | .not => true
  | .primary => true
  | .geoPrimary => true
  | _ => false

/-- What a query, a term, a factor and a negation are made of stands for filters too. -/
theorem Rule.isMeaningful_of_produces {r : Rule} {parts : List Rule} (hr : r.isMeaningful = true)
    (hp : r.isPrimary = false) (h : r.produces parts = true) :
    ∀ p ∈ parts, p.isMeaningful = true := by
  unfold Rule.produces at h
  split at h
  all_goals first
    | exact absurd hr (by decide)
    | exact absurd hp (by decide)
    | exact absurd h (by decide)
    | skip
  · intro p hmem
    have hall := (Bool.and_eq_true_iff.mp h).2
    rw [show p = .term by simpa using List.all_eq_true.mp hall p hmem]
    rfl
  · intro p hmem
    have hall := (Bool.and_eq_true_iff.mp h).2
    rw [show p = .factor by simpa using List.all_eq_true.mp hall p hmem]
    rfl
  · next inner =>
    revert h
    cases inner <;> decide
  · decide

/-- A factor and a negation have one part. -/
theorem Rule.length_of_produces {r : Rule} {parts : List Rule} (hr : r = .factor ∨ r = .not)
    (h : r.produces parts = true) : parts.length = 1 := by
  rcases hr with rfl | rfl
  all_goals
    unfold Rule.produces at h
    split at h
    all_goals first
      | rfl
      | contradiction

theorem Rule.isToken_of_isMeaningful {r : Rule} (h : r.isMeaningful = true) :
    r.isToken = false := by
  cases r <;> first | rfl | exact absurd h (by decide)

theorem length_meanings (ns : List Node) : (meanings o ns).length = (partRules ns).length := by
  induction ns with
  | nil => rfl
  | cons n rest ih =>
    rw [meanings, partRules]
    split <;> simp [ih]

theorem settles_punctuation {n : Node} (h : n.conforms = true) (hr : n.rule = .punctuation) :
    Settles o hash n.steps [] := by
  obtain ⟨rule, text, children⟩ := n
  cases hr
  have hnil : children = [] := List.isEmpty_iff.mp h
  rw [hnil]
  exact Settles.punctuation text

mutual

/-- A tree that follows the grammar hands on what it stands for. -/
theorem settles_meaning : ∀ (n : Node), n.conforms = true → n.rule.isMeaningful = true →
    Settles o hash n.steps [meaning o n]
  | ⟨rule, text, children⟩, h, hr => by
    have hr : rule.isMeaningful = true := hr
    by_cases hp : rule.isPrimary = true
    · obtain ⟨hfree, hops⟩ := Node.conforms_primary_inner h hp
      obtain ⟨d, hd⟩ : ∃ d, Settles o hash (Node.steps ⟨rule, text, children⟩) [d] :=
        Settles.exists_primary hp hfree hops
      have hmeaning : meaning o ⟨rule, text, children⟩ = d := by
        rcases Rule.isPrimary_iff.mp hp with rfl | rfl <;> exact alone_eq hd
      rw [hmeaning]
      exact hd
    · rw [Bool.not_eq_true] at hp
      rw [Node.conforms, Rule.isToken_of_isMeaningful hr, if_neg Bool.false_ne_true,
        Bool.and_eq_true] at h
      obtain ⟨hprod, hall⟩ := h
      have hparts := settles_meanings children hall (Rule.isMeaningful_of_produces hr hp hprod)
      have hone : rule = .factor ∨ rule = .not → ∃ d, meanings o children = [d] := fun hf =>
        List.length_eq_one_iff.mp
          ((length_meanings children).trans (Rule.length_of_produces hf hprod))
      cases rule
      case query =>
        rw [meaning, ← combine_or (hash text)]
        exact hparts.group rfl
      case term =>
        rw [meaning, ← combine_and (hash text)]
        exact hparts.group rfl
      case factor =>
        obtain ⟨d, hd⟩ := hone (Or.inl rfl)
        rw [hd] at hparts
        rw [meaning, hd]
        exact hparts.factor
      case not =>
        obtain ⟨d, hd⟩ := hone (Or.inr rfl)
        rw [hd] at hparts
        rw [meaning, hd, single, ← combine_not (hash text)]
        exact hparts.group rfl
      all_goals first
        | exact absurd hr (by decide)
        | exact absurd hp (by decide)

theorem settles_meanings : ∀ (ns : List Node), Node.conformsAll ns = true →
    (∀ p ∈ partRules ns, p.isMeaningful = true) →
    Settles o hash (Node.stepsAll ns) (meanings o ns)
  | [], _, _ => Settles.nil
  | n :: rest, h, hr => by
    rw [Node.conformsAll, Bool.and_eq_true] at h
    rw [partRules] at hr
    rw [Node.stepsAll, meanings]
    split
    · next hp =>
      rw [if_pos hp] at hr
      exact (settles_punctuation h.1 hp).append (settles_meanings rest h.2 hr)
    · next hp =>
      rw [if_neg hp] at hr
      have hn := settles_meaning n h.1 (hr _ List.mem_cons_self)
      exact hn.append (settles_meanings rest h.2 fun p hmem => hr p (List.mem_cons_of_mem _ hmem))

end

/--
A query that follows the grammar is compiled to what it stands for: parts keep their nesting, and a
part that is dropped changes nothing about its neighbours.
-/
theorem compile_eq_meaning (o : Options) (tree : Node) (h : tree.conforms = true)
    (hr : tree.rule = .query) :
    (compile o tree).map Compiled.filter = .ok (meaning o tree) :=
  filter_compile hr (settles_meaning tree h (by rw [hr]; rfl))

/-- A comparison that is dropped, in front of a query in brackets and in it, leaves the negations
next to it as they are. The query in brackets has a single part left and is not wrapped. -/
theorem compile_eq_meaning_nested :
    let dropped := Build.factor (Build.primary "size" "=" (Build.number "many"))
    let untitled := Build.factor (Build.not (Build.factor (Build.present "title")))
    let undated := Build.factor (Build.not (Build.factor (Build.present "date")))
    let inner := Build.query [Build.term [untitled], Build.term [dropped]]
    let tree := Build.query [Build.term [dropped, Build.group inner, undated]]
    tree.conforms = true ∧ tree.rule = .query ∧
      (compile {} tree).map Compiled.filter = .ok (meaning {} tree) ∧
      meaning {} tree = some (.and
        [.not (.test "title" .exists .null), .not (.test "date" .exists .null)]) := by
  intro dropped untitled undated inner tree
  have hconforms : tree.conforms = true := by decide
  have hdropped : alone {} (Build.primary "size" "=" (Build.number "many")) = none := by
    rw [alone_eq_result rfl (by decide) (by decide), ← Option.isNone_iff_eq_none]
    decide +kernel
  have htitle : alone {} (Build.present "title") = some (.test "title" .exists .null) := by
    rw [alone_eq_result rfl (by decide) (by decide)]
    with_unfolding_all rfl
  have hdate : alone {} (Build.present "date") = some (.test "date" .exists .null) := by
    rw [alone_eq_result rfl (by decide) (by decide)]
    with_unfolding_all rfl
  refine ⟨hconforms, rfl, compile_eq_meaning {} tree hconforms rfl, ?_⟩
  show joined .or [joined .and [single [alone {} (Build.primary "size" "=" (Build.number "many"))],
    joined .or [
      joined .and [single [(single [single [alone {} (Build.present "title")]]).map .not]],
      joined .and [single [alone {} (Build.primary "size" "=" (Build.number "many"))]]],
    single [(single [single [alone {} (Build.present "date")]]).map .not]]] = _
  rw [hdropped, htitle, hdate]
  rfl

end

end Catalogue.Query
