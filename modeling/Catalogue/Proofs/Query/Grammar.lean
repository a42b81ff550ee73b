import Catalogue.Query.Tree

/-!
# Trees that follow the grammar

A tree follows the grammar when the rules of the children of every node, keywords and brackets set
aside, are a production of the node's rule. The texts of the nodes do not matter, and keywords and
brackets may stand anywhere between the children.

* `Node.conforms` — the whole tree follows the grammar.
* `Node.isPrimaryFree`, `Node.operators` — whether a comparison or a spatial relation stands in a
  tree, and how many operators do.
* `conforms_primary_inner` — a comparison or a spatial relation that follows the grammar has no
  other one inside, and one operator.
-/

namespace Catalogue.Query

/-! ## Productions -/

namespace Rule

/-- Whether nodes of the rule are single tokens. -/
def isToken : Rule → Bool
  | subject => true
  | comparisonOp => true
  | geoOp => true
  | relativeGeoOp => true
  | number => true
  | date => true
  | quotedString => true
  | unit => true
  | angle => true
  | dmsCoordinate => true
  | punctuation => true
  | _ => false

/-- Whether the rule is that of a literal. -/
def isLiteral : Rule → Bool
  | number => true
  | date => true
  | quotedString => true
  | _ => false

/-- Whether nodes of the rule are filters of their own: comparisons and spatial relations. -/
def isPrimary : Rule → Bool
  | primary => true
  | geoPrimary => true
  | _ => false

/-- Whether the rule is that of an operator. -/
def isOperator : Rule → Bool
  | comparisonOp => true
  | geoOp => true
  | relativeGeoOp => true
  | _ => false

/-- Whether nodes of the rule may be what a factor is about. -/
def isFactor : Rule → Bool
  | primary => true
  | geoPrimary => true
  | not => true
  | query => true
  | _ => false

/-- Whether nodes of the rule are corners of shapes; one in degrees may stand without a node. -/
def isCorner : Rule → Bool
  | coordinate => true
  | dmsCoordinate => true
  | _ => false

/--
Whether nodes with these rules in a row are a production of the rule. A point, a polygon, a
rectangle and a line have any number of corners.
-/
def produces : Rule → List Rule → Bool
  | query, parts => !parts.isEmpty && parts.all (· = term)
  | term, parts => !parts.isEmpty && parts.all (· = factor)
  | factor, [r] => r.isFactor
  | not, [factor] => true
  | primary, [subject, comparisonOp] => true
  | primary, [subject, comparisonOp, r] => r.isLiteral
  | geoPrimary, [subject, geoOp, r] => r.isShape
  | geoPrimary, [subject, relativeGeoOp, distance, r] => r.isShape
  | distance, [number, unit] => true
  | circle, [r, distance] => r.isCorner
  | ellipse, [r, distance, distance, angle] => r.isCorner
  | point, parts => parts.all isCorner
  | polygon, parts => parts.all isCorner
  | rectangle, parts => parts.all isCorner
  | line, parts => parts.all isCorner
  | coordinate, [number, number] => true
  | coordinate, [dmsCoordinate] => true
  | _, _ => false

end Rule

/-! ## Conforming trees -/

/-- The rules of nodes in a row, keywords and brackets set aside. -/
def partRules : List Node → List Rule
  | [] => []
  | n :: rest => if n.rule = .punctuation then partRules rest else n.rule :: partRules rest

namespace Node

mutual

/-- Whether a tree follows the grammar. -/
def conforms : Node → Bool
  | ⟨rule, _, children⟩ =>
    if rule.isToken then children.isEmpty
    else rule.produces (partRules children) && conformsAll children

def conformsAll : List Node → Bool
  | [] => true
  | n :: rest => n.conforms && conformsAll rest

end

mutual

/-- Whether no comparison and no spatial relation stands in a tree. -/
def isPrimaryFree : Node → Bool
  | ⟨rule, _, children⟩ => !rule.isPrimary && primaryFreeAll children

def primaryFreeAll : List Node → Bool
  | [] => true
  | n :: rest => n.isPrimaryFree && primaryFreeAll rest

end

mutual

/-- How many operators stand in a tree. -/
def operators : Node → Nat
  | ⟨rule, _, children⟩ => rule.isOperator.toNat + operatorsAll children

def operatorsAll : List Node → Nat
  | [] => 0
  | n :: rest => n.operators + operatorsAll rest

end

end Node

/-! ## Inside a comparison or a spatial relation -/

/-- Whether nodes of the rule stand inside comparisons and spatial relations only. -/
def Rule.isDetail (r : Rule) : Bool := r.isToken || r.isShape || r = .distance || r = .coordinate

theorem Rule.isPrimary_iff {r : Rule} : r.isPrimary = true ↔ r = .primary ∨ r = .geoPrimary := by
  cases r <;> decide

theorem Rule.isPrimary_of_isDetail {r : Rule} (h : r.isDetail = true) : r.isPrimary = false := by
  cases r <;> first | rfl | exact absurd h (by decide)

theorem Rule.isDetail_of_isCorner {r : Rule} (h : r.isCorner = true) :
    r.isDetail = true ∧ r.isOperator = false := by
  cases r <;> first | decide | exact absurd h (by decide)

/-- What a detail is made of are details, and none of them is an operator. -/
theorem Rule.isDetail_of_produces {r : Rule} {parts : List Rule} (hr : r.isDetail = true)
    (h : r.produces parts = true) : ∀ p ∈ parts, p.isDetail = true ∧ p.isOperator = false := by
  unfold Rule.produces at h
  split at h
  all_goals first
    | exact absurd hr (by decide)
    | exact absurd h (by decide)
    | decide
    | exact fun p hp => isDetail_of_isCorner (List.all_eq_true.mp h p hp)
    | skip
  all_goals
    next corner =>
    revert h
    cases corner <;> decide

theorem Rule.isToken_of_isPrimary {r : Rule} (h : r.isPrimary = true) : r.isToken = false := by
  cases r <;> first | rfl | exact absurd h (by decide)

/-- A comparison or a spatial relation is made of details, one of them an operator. -/
theorem Rule.inner_of_produces {r : Rule} {parts : List Rule} (hr : r.isPrimary = true)
    (h : r.produces parts = true) :
    (∀ p ∈ parts, p.isDetail = true) ∧ parts.countP Rule.isOperator = 1 := by
  unfold Rule.produces at h
  split at h
  all_goals first
    | exact absurd hr (by decide)
    | exact absurd h (by decide)
    | decide
    | skip
  all_goals
    next last =>
    revert h
    cases last <;> decide

theorem mem_partRules {n : Node} : ∀ {ns : List Node}, n ∈ ns →
    n.rule = .punctuation ∨ n.rule ∈ partRules ns
  | m :: rest, h => by
    rw [partRules]
    rcases List.mem_cons.mp h with rfl | h
    · split <;> simp_all
    · rcases mem_partRules h with hp | hp
      · exact Or.inl hp
      · split <;> simp [hp]

/-- The rules of nodes that are details or keywords are details. -/
theorem isDetail_of_partRules {ns : List Node}
    (h : ∀ p ∈ partRules ns, p.isDetail = true) : ∀ n ∈ ns, n.rule.isDetail = true := by
  intro n hn
  rcases mem_partRules hn with hp | hp
  · rw [hp]; rfl
  · exact h _ hp

namespace Node

mutual

/-- A detail that follows the grammar holds no comparison and at most itself for an operator. -/
theorem conforms_detail : ∀ (n : Node), n.conforms = true → n.rule.isDetail = true →
    n.isPrimaryFree = true ∧ n.operators = n.rule.isOperator.toNat
  | ⟨rule, text, children⟩, h, hr => by
    have hp : rule.isPrimary = false := Rule.isPrimary_of_isDetail hr
    rw [conforms] at h
    split at h
    · have hnil : children = [] := List.isEmpty_iff.mp h
      subst hnil
      simp [isPrimaryFree, primaryFreeAll, operators, operatorsAll, hp]
    · obtain ⟨hprod, hall⟩ := Bool.and_eq_true_iff.mp h
      have hparts := Rule.isDetail_of_produces hr hprod
      have hdetail := isDetail_of_partRules fun p hp => (hparts p hp).1
      obtain ⟨hfree, hops⟩ := conforms_details children hall hdetail
      have hzero : (partRules children).countP Rule.isOperator = 0 :=
        List.countP_eq_zero.mpr fun p hp => by simp [(hparts p hp).2]
      refine ⟨?_, ?_⟩
      · rw [isPrimaryFree, hp, hfree]; rfl
      · rw [operators, hops, hzero, Nat.add_zero]

theorem conforms_details : ∀ (ns : List Node), conformsAll ns = true →
    (∀ n ∈ ns, n.rule.isDetail = true) →
    primaryFreeAll ns = true ∧ operatorsAll ns = (partRules ns).countP Rule.isOperator
  | [], _, _ => ⟨rfl, rfl⟩
  | n :: rest, h, hd => by
    rw [conformsAll, Bool.and_eq_true_iff] at h
    obtain ⟨hfree, hops⟩ := conforms_detail n h.1 (hd n List.mem_cons_self)
    obtain ⟨hfrees, hopss⟩ := conforms_details rest h.2 fun m hm => hd m (List.mem_cons_of_mem _ hm)
    refine ⟨?_, ?_⟩
    · rw [primaryFreeAll, hfree, hfrees]; rfl
    · rw [operatorsAll, hops, hopss, partRules]
      split
      · next hp => rw [hp]; exact Nat.zero_add _
      · rw [List.countP_cons, Nat.add_comm]
        cases n.rule.isOperator <;> rfl

end

/-- A comparison or a spatial relation has one operator, and no other such node inside. -/
theorem conforms_primary_inner {n : Node} (h : n.conforms = true) (hr : n.rule.isPrimary = true) :
    primaryFreeAll n.children = true ∧ operatorsAll n.children = 1 := by
  obtain ⟨rule, text, children⟩ := n
  rw [conforms, Rule.isToken_of_isPrimary hr, if_neg Bool.false_ne_true, Bool.and_eq_true_iff] at h
  obtain ⟨hdetail, hops⟩ := Rule.inner_of_produces hr h.1
  obtain ⟨hfree, hcount⟩ := conforms_details children h.2 (isDetail_of_partRules hdetail)
  exact ⟨hfree, hcount.trans hops⟩

end Node

end Catalogue.Query
