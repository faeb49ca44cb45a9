import Lineage.Dialect.Grammar
import Lineage.Proofs.Tree.Links
import Lineage.View.Queries

/-!
# Where the operators of queries stand

The first operator between the arms of a query ends the level of its first arm, and no other node
ends a level that it did not open. This file says which nodes do (`Dialect.closesArm`), that a query
has at most one of them among its parts, and what the dialects have in common for this to hold
(`Dialect.Regular`).

## Key results

- `Dialect.closesArm_of_parent`: below anything but a query no node ends a level
- `Dialect.pairwise_queryParts`: at most one part of a query ends a level
-/

namespace Lineage

namespace Dialect

/-- The tags of the nodes whose children a rule visits in their place. -/
def holders (dialect : Dialect) : List String :=
  let tags := dialect.vocabulary
  [tags.declarations.defaultValue, tags.calls.argument, tags.inserts.values] ++
    tags.calls.arguments ++ tags.inserts.valuesPath ++ tags.queries.withEntry.toList ++
    tags.queries.element.toList ++ tags.statements.loopHeader.toList

/-- What the dialects have in common: no node that a rule looks through is a query, there is one
    operator, and it is neither of the clauses that a query understands first. -/
class Regular (dialect : Dialect) : Prop where
  holder : ∀ tag ∈ dialect.holders, dialect.rule? tag ≠ some .select
  operator : ∀ first ∈ dialect.rules, ∀ second ∈ dialect.rules, first.2 = .setOperation →
    second.2 = .setOperation → first.1 = second.1
  withClause : dialect.rule? dialect.vocabulary.queries.withClause ≠ some .setOperation
  fromClause : dialect.rule? dialect.vocabulary.queries.fromClause ≠ some .setOperation

instance : plsql.Regular :=
  ⟨by decide, by decide, by decide, by decide⟩

instance : pmd.Regular :=
  ⟨by decide, by decide, by decide, by decide⟩

instance (grammar : Grammar) : grammar.dialect.Regular := by
  cases grammar
  · exact inferInstanceAs plsql.Regular
  · exact inferInstanceAs pmd.Regular

variable {tree : Tree} {dialect : Dialect}

/-- A tag with a rule is listed with it. -/
theorem mem_rules_of_rule? {tag : String} {rule : Rule} (h : dialect.rule? tag = some rule) :
    (tag, rule) ∈ dialect.rules := by
  unfold rule? at h
  obtain ⟨front, back, heq, _⟩ := List.lookup_eq_some_iff.mp h
  rw [heq]
  simp

/-- The tags of a rule are those that have it. -/
theorem mem_tagsOf {tag : String} {rule : Rule} :
    tag ∈ dialect.tagsOf rule ↔ dialect.rule? tag = some rule := by
  have hlisted : tag ∈ dialect.tagsOf rule ↔ (tag, rule) ∈ dialect.rules := by simp [tagsOf]
  refine hlisted.trans ⟨fun hmem => ?_, mem_rules_of_rule?⟩
  obtain ⟨front, back, hrules⟩ := List.append_of_mem hmem
  refine List.lookup_eq_some_iff.mpr ⟨front, back, hrules, fun pair hpair => ?_⟩
  -- The tag does not stand further to the front.
  have hnodup := dialect.nodup
  rw [hrules, List.map_append, List.nodup_append] at hnodup
  have hne := hnodup.2.2 pair.1 (List.mem_map_of_mem hpair) tag (by simp)
  simpa using hne.symm

/-- There is one operator. -/
theorem operator_eq [dialect.Regular] {first second : String}
    (hfirst : dialect.rule? first = some .setOperation)
    (hsecond : dialect.rule? second = some .setOperation) : first = second :=
  Regular.operator _ (mem_rules_of_rule? hfirst) _ (mem_rules_of_rule? hsecond) rfl rfl

end Dialect

/-- The query of an insert is no operator. -/
theorem Grammar.insertQuery_ne (grammar : Grammar) :
    grammar.dialect.rule? grammar.dialect.vocabulary.inserts.query ≠ some .setOperation := by
  cases grammar <;> decide

namespace Dialect

variable {tree : Tree} {dialect : Dialect} {node : Node tree}

/-! ### Nodes that end a level -/

/-- The node is the first operator between the arms of a query and so ends the level of
    the first arm. -/
def closesArm (dialect : Dialect) (node : Node tree) : Bool :=
  dialect.binds node .setOperation && dialect.standsBetweenArms node &&
    (node.earlierTagged node.tag).isEmpty

/-- At most one of the nodes ends a level. -/
abbrev AtMostOneCloses (dialect : Dialect) (nodes : List (Node tree)) : Prop :=
  nodes.Pairwise fun first second =>
    ¬(dialect.closesArm first = true ∧ dialect.closesArm second = true)

theorem standsBetweenArms_of_closesArm (h : dialect.closesArm node = true) :
    dialect.standsBetweenArms node = true := by
  simp only [closesArm, Bool.and_eq_true] at h
  exact h.1.2

/-- Below anything but a query no node ends a level. -/
theorem closesArm_of_parent (h : dialect.binds node.parent .select = false) :
    dialect.closesArm node = false := by
  simp [closesArm, standsBetweenArms, h]

/-- Only an operator ends a level. -/
theorem closesArm_of_rule (h : dialect.rule? node.tag ≠ some .setOperation) :
    dialect.closesArm node = false := by
  simp [closesArm, binds, h]

/-- Neither of the clauses that a query understands first ends a level. -/
theorem closesArm_child (query : Node tree) {tag : String}
    (h : dialect.rule? tag ≠ some .setOperation) : dialect.closesArm (query.child tag) = false := by
  rcases Node.child_cases query tag with habsent | ⟨_, hhas⟩
  · rw [habsent]
    rfl
  · exact closesArm_of_rule (by rwa [Node.tag_of_has hhas])

/-- A node whose rule is another one is no query. -/
theorem binds_of_rule {rule : Rule} (h : dialect.rule? node.tag ≠ some rule) :
    dialect.binds node rule = false := by
  simp [binds, h]

/-- A node that a rule looks through is no query. -/
theorem binds_of_has [dialect.Regular] {tag : String} (htag : tag ∈ dialect.holders)
    (h : node.has tag = true) : dialect.binds node .select = false :=
  binds_of_rule (by rw [Node.tag_of_has h]; exact Regular.holder tag htag)

/-- Of two children of one node, not both are the first operator: the tags would be the same. -/
theorem pairwise_children (dialect : Dialect) [dialect.Regular] (query : Node tree) :
    dialect.AtMostOneCloses query.children := by
  refine List.pairwise_iff_forall_sublist.mpr fun {first second} hsub ⟨hfirst, hsecond⟩ => ?_
  -- The second one stands after the first one, so the first one is among its earlier siblings.
  obtain ⟨front, back, heq, hfront⟩ : ∃ front back, query.children = front ++ second :: back ∧
      first ∈ front := by
    obtain ⟨front, back, heq, hmem, hback⟩ := List.cons_sublist_iff.mp hsub
    obtain ⟨left, right, rfl⟩ := List.append_of_mem (List.singleton_sublist.mp hback)
    exact ⟨front ++ left, right, by simp [heq], by simp [hmem]⟩
  have hearlier : second.earlier = front := Node.earlier_of_children_eq heq
  simp only [closesArm, binds, Bool.and_eq_true, beq_iff_eq] at hfirst hsecond
  have htag : first.tag = second.tag := operator_eq hfirst.1.1.2 hsecond.1.1.2
  have hmem : first ∈ second.earlierTagged second.tag := by
    refine List.mem_filter.mpr ⟨by rwa [hearlier], ?_⟩
    simp [Node.has, hfirst.1.1.1, htag]
  have hnil := List.isEmpty_iff.mp hsecond.2
  simp [hnil] at hmem

/-- At most one part of a query ends a level. -/
theorem pairwise_queryParts [dialect.Regular] (query : Node tree) :
    dialect.AtMostOneCloses (dialect.queryParts query) := by
  have hwith : dialect.closesArm (query.child dialect.vocabulary.queries.withClause) = false :=
    closesArm_child query Regular.withClause
  have hfrom : dialect.closesArm (query.child dialect.vocabulary.queries.fromClause) = false :=
    closesArm_child query Regular.fromClause
  have hbody := (pairwise_children dialect query).filter fun child =>
    !(child.has dialect.vocabulary.queries.withClause || child.has
      dialect.vocabulary.queries.fromClause || child.has dialect.vocabulary.queries.intoClause)
  simp only [queryParts, List.pairwise_cons]
  exact ⟨fun _ _ h => by simp [hwith] at h, fun _ _ h => by simp [hfrom] at h, hbody⟩

end Dialect

end Lineage
