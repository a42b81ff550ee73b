import Catalogue.Proofs.Query.Spatial
import Catalogue.Proofs.Text.Quoted
import Catalogue.Query.Build

/-!
# Comparisons

A comparison stands for what its attribute, its operator and its literal decide: for one predicate,
for two when it includes a date, or for nothing when one of its texts cannot be read.

* `Comparison` — the parts of a comparison; `Comparison.filter?` — what they stand for.
* `Comparison.IsUnreadable` — why they stand for nothing.
* `compile_comparison` — a query of one comparison is compiled to what the comparison stands for.
* `compile_quotation` — a quoted text is compared with as it is.
-/

namespace Catalogue.Query

open Catalogue.Filter (Operator)
open Catalogue.Text

/-! ## Parts -/

/-- The parts of a comparison. -/
structure Comparison where
  subject : Node
  operator : Node
  /-- What the attribute is compared with, if there is anything. -/
  literal : Option Node

/-- What the comparison of an attribute with a literal stands for. -/
def Node.compared? (o : Options) (subject : String) (op : Operator) (l : Node) : Option Filter :=
  match l.rule with
  | .quotedString => some (.test subject op (.text (unquote l.text)))
  | .number => (numberValue? o.order l.text).map fun v => .test subject op v
  | .date => (Time.literal? (unquote l.text)).map fun t =>
    match op with
    | .gte => .or [.test subject .gt (.date t), .test subject .eq (.date t)]
    | .lte => .or [.test subject .lt (.date t), .test subject .eq (.date t)]
    | op => .test subject op (.date t)
  | _ => none

/-- Whether a literal has no value: it is a number of no kind, or it is no date. -/
def Node.IsIllegible (o : Options) (l : Node) : Prop :=
  l.rule = .number ∧ numberValue? o.order l.text = none ∨
    l.rule = .date ∧ Time.literal? (unquote l.text) = none

namespace Comparison

/-- What a comparison stands for; the test for presence looks at no literal. -/
def filter? (o : Options) (k : Comparison) : Option Filter := do
  let op ← Operator.comparison? k.operator.text
  if op = .exists then return .test (trim k.subject.text) .exists .null
  (← k.literal).compared? o (trim k.subject.text) op

/-- Why a comparison stands for nothing. -/
inductive IsUnreadable (o : Options) (k : Comparison) : Prop
  | operator (h : Operator.comparison? k.operator.text = none)
  | missing (op : Operator) (hop : Operator.comparison? k.operator.text = some op)
    (hne : op ≠ .exists) (h : k.literal = none)
  | literal (op : Operator) (hop : Operator.comparison? k.operator.text = some op)
    (hne : op ≠ .exists) (l : Node) (hl : k.literal = some l) (h : l.IsIllegible o)

/-- Whether a comparison with a date includes the date. -/
def isInclusive (k : Comparison) : Bool :=
  k.literal.any (·.rule = .date) &&
    (Operator.comparison? k.operator.text).any fun op => op = .gte || op = .lte

/-- The parts of a comparison that follow the grammar. -/
structure Conforms (k : Comparison) : Prop where
  conforms_subject : k.subject.conforms = true
  rule_subject : k.subject.rule = .subject
  conforms_operator : k.operator.conforms = true
  rule_operator : k.operator.rule = .comparisonOp
  conforms_literal : ∀ l ∈ k.literal, l.conforms = true
  isLiteral_literal : ∀ l ∈ k.literal, l.rule.isLiteral = true

/-- The parts in order. -/
def nodes (k : Comparison) : List Node := k.subject :: k.operator :: k.literal.toList

variable {o : Options} {k : Comparison} {op : Operator} {l : Node}

theorem filter?_of_exists (h : Operator.comparison? k.operator.text = some .exists) :
    k.filter? o = some (.test (trim k.subject.text) .exists .null) := by
  rw [filter?, h]
  rfl

theorem filter?_of_ne (h : Operator.comparison? k.operator.text = some op) (hne : op ≠ .exists) :
    k.filter? o = k.literal.bind (Node.compared? o (trim k.subject.text) op) := by
  rw [filter?, h]
  simp [hne]

/-- The parts of a comparison that is put together from its texts and a literal. -/
def built (subject token : String) (l : Node) : Comparison :=
  ⟨Build.leaf .subject subject, Build.leaf .comparisonOp token, some l⟩

theorem filter?_built {subject token : String} (hop : Operator.comparison? token = some op)
    (hne : op ≠ .exists) :
    (built subject token l).filter? o = l.compared? o (trim subject) op :=
  filter?_of_ne (k := built subject token l) hop hne

end Comparison

/-- A literal stands for nothing when it has no value. -/
theorem Node.compared?_eq_none_iff {o : Options} {subject : String} {op : Operator} {l : Node}
    (h : l.rule.isLiteral = true) : l.compared? o subject op = none ↔ l.IsIllegible o := by
  rw [compared?, IsIllegible]
  cases hr : l.rule
  case quotedString => simp
  case number => simp
  case date => simp
  all_goals
    rw [hr] at h
    cases h

/-- A comparison stands for nothing when something in it cannot be read. -/
theorem Comparison.filter?_eq_none_iff {o : Options} {k : Comparison} (hk : k.Conforms) :
    k.filter? o = none ↔ k.IsUnreadable o := by
  constructor
  · intro h
    cases hop : Operator.comparison? k.operator.text with
    | none => exact .operator hop
    | some op =>
      by_cases hne : op = .exists
      · subst hne
        rw [filter?_of_exists hop] at h
        cases h
      · rw [filter?_of_ne hop hne] at h
        cases hl : k.literal with
        | none => exact .missing op hop hne hl
        | some l =>
          rw [hl, Option.bind_some, Node.compared?_eq_none_iff (hk.isLiteral_literal l hl)] at h
          exact .literal op hop hne l hl h
  · intro h
    cases h with
    | operator h => rw [filter?, h]; rfl
    | missing op hop hne h => rw [filter?_of_ne hop hne, h]; rfl
    | literal op hop hne l hl h =>
      rw [filter?_of_ne hop hne, hl]
      exact (Node.compared?_eq_none_iff (hk.isLiteral_literal l hl)).mpr h

theorem Node.length_predicates {o : Options} {subject : String} {op : Operator} {l : Node}
    {f : Filter} (h : l.compared? o subject op = some f) :
    f.predicates.length = if l.rule = .date ∧ (op = .gte ∨ op = .lte) then 2 else 1 := by
  rw [compared?] at h
  split at h
  · next hr =>
    obtain rfl := Option.some.inj h
    simp [hr, Filter.test, Filter.predicates]
  · next hr =>
    obtain ⟨v, -, rfl⟩ := Option.map_eq_some_iff.mp h
    simp [hr, Filter.test, Filter.predicates]
  · next hr =>
    obtain ⟨t, -, rfl⟩ := Option.map_eq_some_iff.mp h
    cases op <;> simp [hr, Filter.test, Filter.predicates, Filter.predicatesAll]
  · cases h

/-- A comparison stands for one predicate, or for two when it includes a date. -/
theorem Comparison.length_predicates {o : Options} {k : Comparison} {f : Filter}
    (h : k.filter? o = some f) : f.predicates.length = if k.isInclusive then 2 else 1 := by
  cases hop : Operator.comparison? k.operator.text with
  | none =>
    rw [filter?, hop] at h
    cases h
  | some op =>
    by_cases hne : op = .exists
    · subst hne
      obtain rfl := Option.some.inj ((filter?_of_exists hop).symm.trans h)
      simp [isInclusive, hop, Filter.test, Filter.predicates]
    · rw [filter?_of_ne hop hne, Option.bind_eq_some_iff] at h
      obtain ⟨l, hl, hcompared⟩ := h
      rw [Node.length_predicates hcompared]
      simp [isInclusive, hop, hl]

/-- The parts of a comparison: an attribute, an operator, and a literal if there is one. -/
def Node.comparison? (n : Node) : Option Comparison :=
  match n.parts with
  | [subject, operator] => some ⟨subject, operator, none⟩
  | [subject, operator, literal] => some ⟨subject, operator, some literal⟩
  | _ => none

/-- A comparison that follows the grammar has one of two productions. -/
theorem Rule.produces_primary {parts : List Rule} (h : primary.produces parts = true) :
    parts = [subject, comparisonOp] ∨
      ∃ r, r.isLiteral = true ∧ parts = [subject, comparisonOp, r] := by
  unfold produces at h
  split at h
  all_goals first
    | exact .inl rfl
    | exact .inr ⟨_, h, rfl⟩
    | contradiction

/-- A comparison that follows the grammar has its parts. -/
theorem exists_comparison {n : Node} (h : n.conforms = true) (hr : n.rule = .primary) :
    ∃ k, n.comparison? = some k ∧ k.Conforms ∧ n.parts = k.nodes := by
  obtain ⟨hproduces, hconforms⟩ := Node.produces_parts h (by rw [hr]; rfl)
  rw [hr] at hproduces
  rcases Rule.produces_primary hproduces with hrules | ⟨r, hliteral, hrules⟩
  all_goals simp only [List.map_eq_cons_iff, List.map_eq_nil_iff] at hrules
  · obtain ⟨subject, -, hparts, hsubject, operator, -, rfl, hoperator, rfl⟩ := hrules
    rw [hparts] at hconforms
    refine ⟨⟨subject, operator, none⟩, ?_, ?_, hparts⟩
    · rw [Node.comparison?, hparts]
    · constructor <;> simp_all
  · obtain ⟨subject, -, hparts, hsubject, operator, -, rfl, hoperator, literal, -, rfl, rfl, rfl⟩ :=
      hrules
    rw [hparts] at hconforms
    refine ⟨⟨subject, operator, some literal⟩, ?_, ?_, hparts⟩
    · rw [Node.comparison?, hparts]
    · constructor <;> simp_all

/-! ## Reading -/

/-- A literal as it is read. -/
def Node.literal? (l : Node) : Option Literal :=
  match l.rule with
  | .number => some (.number (trim l.text))
  | .date => some (.date (unquote l.text))
  | .quotedString => some (.text (unquote l.text))
  | _ => none

theorem Node.exists_literal {l : Node} (h : l.rule.isLiteral = true) :
    ∃ read, l.literal? = some read := by
  rw [literal?]
  cases hr : l.rule
  case number => exact ⟨_, rfl⟩
  case date => exact ⟨_, rfl⟩
  case quotedString => exact ⟨_, rfl⟩
  all_goals
    rw [hr] at h
    cases h

theorem comparison?_trim (token : String) :
    Operator.comparison? (trim token) = Operator.comparison? token := by
  unfold Operator.comparison?
  rw [trim_trim]

theorem numberValue?_trim (order : List NumberKind) (s : String) :
    numberValue? order (trim s) = numberValue? order s := by
  rw [numberValue?, trim_trim, numberValue?]

/-- What is read of a literal is compared as the literal. -/
theorem toOption_literalFilter {o : Options} {subject : String} {op : Operator} {l : Node}
    {read : Literal} (h : l.literal? = some read) :
    (literalFilter o.order subject op read).toOption = l.compared? o subject op := by
  rw [Node.literal?] at h
  rw [Node.compared?]
  cases hr : l.rule
  all_goals
    simp only [hr, reduceCtorEq, Option.some.injEq] at h
  case number =>
    subst h
    simp only [literalFilter, numberValue?_trim]
    cases numberValue? o.order l.text <;> rfl
  case date =>
    subst h
    simp only [literalFilter]
    cases Time.literal? (unquote l.text) with
    | none => rfl
    | some t => cases op <;> rfl
  case quotedString =>
    subst h
    rfl

namespace OpenTerm

variable {order : List NumberKind} {t : OpenTerm}

/-- A term that has failed becomes no predicate. -/
theorem Fails.comparison {subject : Option String} (h : t.Fails subject) (slot : Option Slot) :
    (t.comparison order slot).toOption = none := by
  obtain ⟨cause, hcause⟩ := Option.isSome_iff_exists.mp h.2
  rw [OpenTerm.comparison, subjectOf, hcause]
  rfl

/-- With its operator a comparison becomes what its literal is compared as. -/
theorem toOption_comparison (subject : String) (op : Operator) (l : Option Literal) :
    (OpenTerm.comparison order (some (.ready op))
      { subject := some subject, literal := l }).toOption =
    if op = .exists then some (.test subject .exists .null)
    else l.bind fun l => (literalFilter order subject op l).toOption := by
  cases op <;> cases l <;> rfl

end OpenTerm

namespace Machine.Reads

variable {o : Options} {mark : String → UInt64} {t : OpenTerm}

theorem literal {l : Node} {read : Literal} (h : l.conforms = true) (hl : l.literal? = some read) :
    Reads o mark l.steps (some .primary) t [] (· = { t with literal := some read }) := by
  have hread (htoken : l.rule.isToken = true) (htake : ∀ m : Machine,
      m.takeLeaf l (some .primary) = { m with term := { m.term with literal := some read } }) :
      Reads o mark l.steps (some .primary) t [] (· = { t with literal := some read }) := by
    refine token h htoken (e := ⟨[], _, []⟩) ?_ rfl
    rintro m - rfl
    rw [htake]
    simp [Effect.on]
  rw [Node.literal?] at hl
  cases hr : l.rule
  all_goals
    simp only [hr, reduceCtorEq, Option.some.injEq] at hl
  case number =>
    subst hl
    exact hread (by rw [hr]; rfl) fun m => by simp only [takeLeaf, hr, if_pos]
  case date =>
    subst hl
    exact hread (by rw [hr]; rfl) fun m => by simp only [takeLeaf, hr, unquote_trim]
  case quotedString =>
    subst hl
    exact hread (by rw [hr]; rfl) fun m => by simp only [takeLeaf, hr, unquote_trim]

end Machine.Reads

section Comparison

variable {o : Options} {mark : String → UInt64} {k : Comparison}

/-- The literal of a comparison is read, if there is one. -/
theorem reads_literal (hk : k.Conforms) (t : OpenTerm) :
    Machine.Reads o mark (Node.stepsAll k.literal.toList) (some .primary) t []
      (· = { t with literal := (k.literal.bind Node.literal?).or t.literal }) := by
  cases hl : k.literal with
  | none => exact .nil rfl
  | some l =>
    obtain ⟨read, hread⟩ := Node.exists_literal (hk.isLiteral_literal l hl)
    rw [Option.bind_some, hread]
    exact (Machine.Reads.literal (hk.conforms_literal l hl) hread).only

/-- The operator of a comparison is known by its token. -/
theorem Comparison.operator?_operator (hk : k.Conforms) :
    k.operator.operator? = (Operator.comparison? k.operator.text).map .ready := by
  have hleaf : k.operator.isLeaf = true := by
    rw [Node.isLeaf, Node.children_of_token hk.conforms_operator (by rw [hk.rule_operator]; rfl)]
    rfl
  rw [Node.operator?, if_pos hleaf, hk.rule_operator, comparison?_trim]

/-- A comparison ends as what it stands for. -/
theorem reads_comparison (hk : k.Conforms) :
    ∃ slots, Machine.Reads o mark (Node.stepsAll k.nodes) (some .primary) {} slots fun t =>
      (t.comparison o.order slots.head?).toOption = k.filter? o := by
  have hsubject : Machine.Reads o mark k.subject.steps (some .primary) {} []
      (· = { subject := some (trim k.subject.text) }) :=
    .subject hk.conforms_subject hk.rule_subject
  have hslot := Comparison.operator?_operator hk
  cases hop : Operator.comparison? k.operator.text with
  | none =>
    rw [hop] at hslot
    have hoperator : k.operator.rule.isOperator = true := by rw [hk.rule_operator]; rfl
    refine ⟨[], hsubject.cons_nil ?_⟩
    rintro - rfl
    refine (Machine.Reads.unknown hk.conforms_operator hoperator hslot).cons fun t ht => ?_
    refine (reads_literal hk t).mono ?_
    rintro - rfl
    have hfails : OpenTerm.Fails (some (trim k.subject.text))
      { t with literal := (k.literal.bind Node.literal?).or t.literal } := ht
    rw [hfails.comparison, Comparison.filter?, hop]
    rfl
  | some op =>
    rw [hop] at hslot
    refine ⟨[.ready op], hsubject.cons_nil ?_⟩
    rintro - rfl
    refine (Machine.Reads.operator hslot).cons ?_
    rintro - rfl
    refine (reads_literal hk _).mono ?_
    rintro - rfl
    rw [Option.or_none, List.head?_cons, OpenTerm.toOption_comparison]
    split
    · next hexists => rw [Comparison.filter?_of_exists (hexists ▸ hop)]
    · next hne =>
      rw [Comparison.filter?_of_ne hop hne]
      cases hl : k.literal with
      | none => rfl
      | some l =>
        obtain ⟨read, hread⟩ := Node.exists_literal (hk.isLiteral_literal l hl)
        rw [Option.bind_some, hread]
        exact toOption_literalFilter hread

/-- A query of one comparison is compiled to what the comparison stands for. -/
theorem filter_compile_comparison {n : Node} (h : n.conforms = true) (hr : n.rule = .primary)
    (o : Options) (query term factor : String) :
    ∃ k c, n.comparison? = some k ∧ k.Conforms ∧ compile o (n.inQuery query term factor) = .ok c ∧
      c.filter = k.filter? o := by
  obtain ⟨k, hcomparison, hk, hnodes⟩ := exists_comparison h hr
  obtain ⟨slots, e, rfl, hfilter, hon⟩ : ∃ slots, Machine.Reads o hash (Node.stepsAll k.nodes)
      (some .primary) {} slots fun t =>
        (t.comparison o.order slots.head?).toOption = k.filter? o := reads_comparison hk
  have hchildren : ∀ m : Machine, m.ancestors.head? = some n.rule → m.term = {} →
      Machine.run o hash m (Node.stepsAll n.children) = e.on m := by
    intro m hparent hterm
    rw [Machine.run_parts (Node.conforms_children h)]
    show Machine.run o hash m (Node.stepsAll n.parts) = _
    rw [hnodes]
    exact hon m (by rw [hparent, hr]) hterm
  obtain ⟨report, -, hcompile⟩ :=
    compile_inQuery (by rw [hr]; rfl) hchildren query term factor
  rw [hr] at hcompile
  exact ⟨k, _, hcomparison, hk, hcompile, hfilter⟩

/--
A query of one comparison that follows the grammar is compiled to what the comparison stands for.
That is nothing exactly when its operator is unknown, or when it is no test for presence and has no
literal or one without a value. Otherwise it is one predicate, or two for a date that is included.
-/
theorem compile_comparison (o : Options) (n : Node) (h : n.conforms = true) (hr : n.rule = .primary)
    (query term factor : String) :
    ∃ k c, n.comparison? = some k ∧ compile o (n.inQuery query term factor) = .ok c ∧
      c.filter = k.filter? o ∧ (c.filter = none ↔ k.IsUnreadable o) ∧
      ∀ f, c.filter = some f → f.predicates.length = if k.isInclusive then 2 else 1 := by
  obtain ⟨k, c, hcomparison, hk, hcompile, hfilter⟩ :=
    filter_compile_comparison h hr o query term factor
  refine ⟨k, c, hcomparison, hcompile, hfilter, ?_, fun f hf => ?_⟩
  · rw [hfilter, Comparison.filter?_eq_none_iff hk]
  · exact Comparison.length_predicates (hfilter ▸ hf)

/-- A date that is included, with blanks around the texts. -/
theorem compile_comparison_since :
    let since := Build.primary " when " " >= " (Build.leaf .date " '2016/03/14 06:58:31' ")
    since.conforms = true ∧ since.rule = .primary ∧
      ∃ c t, compile {} (since.inQuery "q" "t" "f") = .ok c ∧
        Time.literal? "2016/03/14 06:58:31" = some t ∧
        c.filter = some (.or [.test "when" .gt (.date t), .test "when" .eq (.date t)]) := by
  intro since
  have hconforms : since.conforms = true := by decide
  obtain ⟨k, c, hk, hcompile, hfilter, -, -⟩ :=
    compile_comparison {} since hconforms rfl "q" "t" "f"
  obtain rfl : Comparison.built " when " " >= " (Build.leaf .date " '2016/03/14 06:58:31' ") = k :=
    Option.some.inj hk
  have hop : Operator.comparison? " >= " = some .gte := by decide +kernel
  have hsubject : trim " when " = "when" := by decide +kernel
  have hunquote : unquote " '2016/03/14 06:58:31' " = "2016/03/14 06:58:31" := by decide +kernel
  have hdate : (Time.literal? "2016/03/14 06:58:31").isSome = true := by decide +kernel
  obtain ⟨t, ht⟩ := Option.isSome_iff_exists.mp hdate
  refine ⟨hconforms, rfl, c, t, hcompile, ht, ?_⟩
  rw [hfilter, Comparison.filter?_built hop nofun]
  simp only [Build.leaf, Node.compared?, hunquote, ht, hsubject, Option.map_some]

/-! ## Quoted texts -/

/-- The literal of a text between two quotes. -/
def quotation (q : Char) (s : String) : Node := Build.leaf .quotedString (quoteWith q s)

/--
A text that is quoted in a query, with either quote, is read back and compared with as it is;
different texts are quoted differently. So is the text of an operand read back, and no text makes
reading fail.
-/
theorem compile_quotation (s : String) :
    (∀ q ∈ quoteMarks, unquote (quotation q s).text = s ∧
      (∀ s', (quotation q s').text = (quotation q s).text → s' = s) ∧
      ∀ (o : Options) (subject token : String) (op : Operator),
        Operator.comparison? token = some op → op ≠ .exists →
        ∀ query term factor : String, (compile o ((Build.primary subject token
          (quotation q s)).inQuery query term factor)).map Compiled.filter =
            .ok (some (.test (trim subject) op (.text s)))) ∧
    Build.quoted s = quotation '\'' s ∧ unquote (Filter.Value.text s).display = s ∧
    unquoteBytes? s = some (unquote s) := by
  refine ⟨fun q hq => ⟨unquote_quoteWith hq s, fun s' h => quoteWith_injective hq h, ?_⟩, rfl,
    unquote_quoteWith (by decide) s, unquoteBytes?_eq s⟩
  intro o subject token op hop hne query term factor
  obtain ⟨k, c, hk, -, hcompile, hfilter⟩ :=
    filter_compile_comparison (n := Build.primary subject token (quotation q s)) rfl rfl o
      query term factor
  obtain rfl : Comparison.built subject token (quotation q s) = k := Option.some.inj hk
  rw [hcompile, Except.map, hfilter, Comparison.filter?_built hop hne]
  simp only [quotation, Build.leaf, Node.compared?, unquote_quoteWith hq]

/-- Quotes at the ends of a text and a blank in front of it. -/
theorem compile_quotation_quotes :
    (quotation '\'' " 'tis\"'").text = "' ''tis\"'''" ∧
      Operator.comparison? "<>" = some .neq ∧
      (compile {} ((Build.primary "title" "<>" (Build.quoted " 'tis\"'")).inQuery "q" "t" "f")).map
        Compiled.filter = .ok (some (.test "title" .neq (.text " 'tis\"'"))) := by
  obtain ⟨hquotation, hquoted, -, -⟩ := compile_quotation " 'tis\"'"
  obtain ⟨-, -, hcompile⟩ := hquotation '\'' (by decide)
  have hop : Operator.comparison? "<>" = some .neq := by decide +kernel
  have hsubject : trim "title" = "title" := by decide +kernel
  have hfilter := hcompile {} "title" "<>" .neq hop nofun "q" "t" "f"
  rw [hsubject, ← hquoted] at hfilter
  exact ⟨by decide +kernel, hop, hfilter⟩

end Comparison

end Catalogue.Query
