import Lineage.Proofs.Walk.Levels

/-!
# The nodes that a rule visits

A rule visits nodes that come after its own, and except for the rule of a query none of them is part
of a query, so none ends a level. This holds for every rule.

## Key results

- `Script.uses_ofRule`: what the rules visit
- `Script.uses_nodeScript`, `visits_nodeScript`: what the steps of a node visit
-/

namespace Lineage.Walk

variable {tree : Tree} {dialect : Dialect} {node : Node tree}

/-- A node that comes after the given one, or nothing, and is no part of a query. -/
structure Plain (dialect : Dialect) (node below : Node tree) : Prop where
  beneath : node.Beneath below
  parent : dialect.binds below.parent .select = false

/-- Parts of a query, all after the given node, of which at most one ends a level. -/
structure Arms (dialect : Dialect) (node : Node tree) (parts : List (Node tree)) : Prop where
  beneath : ∀ part ∈ parts, node.Beneath part
  pairwise : dialect.AtMostOneCloses parts

/-- A node that a rule may look through: the node itself or one after it, and no query. -/
structure Holds (dialect : Dialect) (node holder : Node tree) : Prop where
  beneath : holder = node ∨ node.Beneath holder
  noQuery : dialect.binds holder .select = false

theorem Plain.absent (node : Node tree) : Plain dialect node .absent :=
  ⟨.absent node, rfl⟩

/-- What is no part of a query ends no level. -/
theorem Plain.stays {below : Node tree} (h : Plain dialect node below) :
    dialect.closesArm below = false :=
  Dialect.closesArm_of_parent h.parent

/-- The children of a node that a rule may look through are no parts of a query. -/
theorem Holds.plain {holder below : Node tree} (h : Holds dialect node holder)
    (hbelow : below ∈ holder.children) : Plain dialect node below where
  beneath := by
    rcases h.beneath with rfl | hbeneath
    · exact Node.beneath_of_mem_children hbelow
    · exact hbeneath.children hbelow
  parent := by
    rw [Node.parent_of_mem_children hbelow]
    exact h.noQuery

/-- A node whose rule is not that of a query may be looked through. -/
theorem holds_self (h : dialect.rule? node.tag ≠ some .select) : Holds dialect node node :=
  ⟨.inl rfl, Dialect.binds_of_rule h⟩

/-- The first operator between the arms of a query is no query. -/
theorem holds_of_closesArm (h : dialect.closesArm node = true) : Holds dialect node node := by
  refine holds_self ?_
  simp only [Dialect.closesArm, Dialect.binds, Bool.and_eq_true, beq_iff_eq] at h
  simp [h.1.1.2]

namespace Holds

variable {node holder : Node tree}

/-- A child with one of the tags that rules look through. -/
theorem of_has [dialect.Regular] (h : Holds dialect node holder) {below : Node tree} {tag : String}
    (htag : tag ∈ dialect.holders) (hbelow : below ∈ holder.children)
    (hhas : below.has tag = true) : Holds dialect node below :=
  ⟨.inr (h.plain hbelow).beneath, Dialect.binds_of_has htag hhas⟩

theorem child [dialect.Regular] (h : Holds dialect node holder) {tag : String}
    (htag : tag ∈ dialect.holders) : Holds dialect node (holder.child tag) := by
  rcases Node.child_cases holder tag with habsent | ⟨hmem, hhas⟩
  · rw [habsent]
    exact ⟨.inr (.absent node), rfl⟩
  · exact h.of_has htag hmem hhas

theorem path [dialect.Regular] {tags : List String}
    (htags : ∀ tag ∈ tags, tag ∈ dialect.holders) (h : Holds dialect node holder) :
    Holds dialect node (holder.path tags) := by
  induction tags generalizing holder with
  | nil => exact h
  | cons tag rest ih =>
    exact ih (fun other hother => htags other (List.mem_cons_of_mem _ hother))
      (h.child (htags tag List.mem_cons_self))

theorem plain_child (h : Holds dialect node holder) (tag : String) :
    Plain dialect node (holder.child tag) := by
  rcases Node.child_cases holder tag with habsent | ⟨hmem, _⟩
  · rw [habsent]
    exact .absent node
  · exact h.plain hmem

theorem plain_childAt (h : Holds dialect node holder) (place : Nat) :
    Plain dialect node (holder.childAt place) := by
  rcases Node.childAt_cases holder place with habsent | hmem
  · rw [habsent]
    exact .absent node
  · exact h.plain hmem

/-- The later siblings of a child. -/
theorem plain_later (h : Holds dialect node holder) {first other : Node tree}
    (hfirst : first = .absent ∨ first ∈ holder.children) (hother : other ∈ first.later) :
    Plain dialect node other := by
  have hmem := Node.mem_children_of_mem_later hother
  rcases hfirst with rfl | hfirst
  · simp [Node.parent_absent, Node.children_absent] at hmem
  · rw [Node.parent_of_mem_children hfirst] at hmem
    exact h.plain hmem

end Holds

/-! ### What the rules visit -/

namespace Script

variable {allowed : Node tree → Prop} {arms : List (Node tree) → Prop} {listed : Bool}

/-- What a script uses, it may visit. -/
theorem Uses.visits {α : Type} {reached : Node tree → Prop}
    (hallowed : ∀ node, allowed node → reached node)
    (harms : ∀ parts, arms parts → ∀ part ∈ parts, reached part) {script : Script tree α}
    (huses : script.Uses allowed arms listed) : script.Visits reached := by
  induction script generalizing listed with
  | visits nodes => exact fun node hnode => hallowed node (huses node hnode)
  | query parts => exact harms parts huses
  | within frame body ih => exact ih huses
  | andThen first next ihfirst ihnext =>
    exact ⟨ihfirst huses.1, fun value => ihnext value (huses.2 value)⟩
  | _ => trivial

theorem uses_forEach {ι : Type} {items : List ι} {steps : ι → Script tree Unit}
    (h : ∀ item ∈ items, (steps item).Uses allowed arms listed) :
    (forEach items steps).Uses allowed arms listed := by
  induction items with
  | nil => trivial
  | cons item rest ih =>
    exact ⟨h item List.mem_cons_self, fun _ => ih fun other hother =>
      h other (List.mem_cons_of_mem _ hother)⟩

theorem uses_insertValues {values : List (Node tree)} {columns : List BindingId} {table : String}
    (h : ∀ value ∈ values, allowed value) :
    (insertValues values columns table).Uses allowed arms listed := by
  unfold insertValues
  split
  · refine uses_forEach fun item hitem => ?_
    intro below hbelow
    rw [List.mem_singleton.mp hbelow]
    exact h _ (List.of_mem_zip hitem).1
  · trivial

theorem uses_identifier (node : Node tree) :
    (identifier dialect node).Uses allowed arms listed := by
  unfold identifier
  split
  · trivial
  · exact ⟨trivial, fun _ => trivial⟩

theorem uses_tableName (node : Node tree) : (tableName dialect node).Uses allowed arms listed := by
  simp only [tableName]
  split
  · refine ⟨trivial, fun _ => ⟨trivial, fun _ => ?_⟩⟩
    simp only
    split <;> trivial
  · trivial

/-- An operator that is not the first one between the arms of a query. -/
theorem uses_setOperation {node : Node tree} (hchildren : ∀ below ∈ node.children, allowed below)
    (h : (dialect.standsBetweenArms node && (node.earlierTagged node.tag).isEmpty) = false) :
    (setOperation dialect node).Uses allowed arms listed := by
  simp only [setOperation]
  cases hbetween : dialect.standsBetweenArms node with
  | false => exact ⟨trivial, fun _ => hchildren⟩
  | true =>
    rw [hbetween, Bool.true_and] at h
    rw [h]
    exact ⟨trivial, fun _ => hchildren⟩

variable {node : Node tree} (hself : Holds dialect node node)

include hself

theorem plain_children : ∀ below ∈ node.children, Plain dialect node below :=
  fun _ hbelow => hself.plain hbelow

theorem uses_package : (package dialect node).Uses (Plain dialect node) arms false := by
  refine ⟨trivial, fun _ => ⟨trivial, fun _ => ⟨trivial, fun _ => ?_⟩⟩⟩
  intro below hbelow
  simp only [Dialect.packageBody, List.mem_filter] at hbelow
  obtain ⟨hmem, _⟩ := hbelow
  split at hmem
  · refine hself.plain_later ?_ hmem
    exact (Node.child_cases node _).imp_right And.left
  · exact hself.plain hmem

theorem uses_routine : (routine dialect node).Uses (Plain dialect node) arms false :=
  ⟨trivial, fun _ => ⟨trivial, fun _ => ⟨trivial, fun _ _ hbelow =>
    hself.plain (List.mem_filter.mp hbelow).1⟩⟩⟩

theorem uses_cursor : (cursor dialect node).Uses (Plain dialect node) arms false := by
  refine ⟨trivial, fun _ => ⟨trivial, fun _ => ⟨trivial, fun _ => ⟨trivial, fun _ => ?_⟩⟩⟩⟩
  intro below hbelow
  rw [List.mem_singleton.mp hbelow]
  exact hself.plain_child _

theorem uses_fieldSuffix : (fieldSuffix dialect node).Uses (Plain dialect node) arms false := by
  simp only [fieldSuffix]
  split
  · exact ⟨trivial, fun _ => trivial⟩
  · exact plain_children hself

theorem uses_conditional : (conditional node).Uses (Plain dialect node) arms false := by
  refine ⟨?_, fun _ => ?_⟩
  · intro below hbelow
    rw [List.mem_singleton.mp hbelow]
    exact hself.plain_childAt 0
  · exact fun below hbelow => hself.plain_later (Node.childAt_cases node 0) hbelow

variable [dialect.Regular]

theorem uses_varDeclaration :
    (varDeclaration dialect node).Uses (Plain dialect node) arms false := by
  refine ⟨trivial, fun _ => ⟨trivial, fun id => ?_⟩⟩
  simp only
  split
  · have hvalue : Holds dialect node (dialect.defaultValue node) :=
      hself.child (by simp [Dialect.holders])
    exact fun below hbelow => hvalue.plain hbelow
  · trivial

/-- The arguments of a call, and what they are made of. -/
theorem holds_arguments : Holds dialect node (node.path dialect.vocabulary.calls.arguments) :=
  hself.path fun tag htag => by simp [Dialect.holders, htag]

theorem uses_argument {call : Option BindingId} {argument : Node tree} {position : Nat}
    (hargument : argument ∈ dialect.argumentsOf node) :
    (Script.argument dialect call argument position).Uses (Plain dialect node) arms false := by
  refine ⟨trivial, fun _ => ⟨trivial, fun _ below hbelow => ?_⟩⟩
  obtain ⟨hmem, hhas⟩ := List.mem_filter.mp hargument
  have hholds := (holds_arguments hself).of_has
    (by simp [Dialect.holders]) hmem hhas
  exact hholds.plain (List.mem_filter.mp hbelow).1

theorem uses_call (statement : Bool) :
    (call dialect statement node).Uses (Plain dialect node) arms false := by
  refine ⟨trivial, fun name => ⟨trivial, fun found => ?_⟩⟩
  cases found with
  | some routine =>
    have harguments : ∀ call, (forEach (dialect.argumentsOf node).zipIdx fun item =>
        Script.argument dialect call item.1 item.2).Uses (Plain dialect node) arms false :=
      fun _ => uses_forEach fun item hitem =>
        uses_argument hself (List.fst_mem_of_mem_zipIdx hitem)
    cases statement
    · exact ⟨trivial, fun call => ⟨trivial, fun _ => harguments call⟩⟩
    · exact ⟨⟨trivial, fun _ => trivial⟩, fun call => ⟨trivial, fun _ => harguments call⟩⟩
  | none =>
    cases statement
    · exact fun below hbelow => (holds_arguments hself).plain (List.mem_filter.mp hbelow).1
    · trivial

theorem uses_loop : (loop dialect node).Uses (Plain dialect node) arms false := by
  simp only [loop, Uses, Dialect.loopParts]
  -- The iterator stands below a header in one dialect, and beside the body in the other.
  cases hheader : dialect.vocabulary.statements.loopHeader with
  | some tag =>
    have hholds : Holds dialect node (node.child tag) :=
      hself.child (by simp [Dialect.holders, hheader])
    simp only
    split
    · next hparts =>
      split at hparts
      · cases hparts
      · cases hparts
        exact plain_children hself
    · next hparts =>
      split at hparts
      · cases hparts
        split
        · refine ⟨trivial, fun _ => ⟨?_, fun _ => ?_⟩⟩
          · exact fun below hbelow => hholds.plain_later (Node.childAt_cases _ 0) hbelow
          · refine fun below hbelow => hself.plain_later ?_ hbelow
            exact (Node.child_cases node _).imp_right And.left
        · trivial
      · cases hparts
  | none =>
    simp only
    split
    · refine ⟨trivial, fun _ => ⟨?_, fun _ => ?_⟩⟩
      · intro below hbelow
        rw [List.mem_singleton.mp hbelow]
        exact hself.plain_childAt 1
      · exact fun below hbelow => hself.plain_later (Node.childAt_cases node 1) hbelow
    · trivial

/-- The bodies of named subqueries. -/
theorem plain_namedQuery {query : Dialect.NamedQuery tree}
    (hquery : query ∈ dialect.namedQueries node) :
    ∀ below ∈ query.body, Plain dialect node below := by
  simp only [Dialect.namedQueries] at hquery
  cases hentry : dialect.vocabulary.queries.withEntry with
  | some tag =>
    rw [hentry] at hquery
    obtain ⟨entry, hmem, rfl⟩ := List.mem_map.mp hquery
    obtain ⟨hchild, hhas⟩ := List.mem_filter.mp hmem
    have hholds : Holds dialect node entry :=
      -- An entry is a node that the rule looks through, so what it holds is still plain.
      hself.of_has (by simp [Dialect.holders, hentry]) hchild hhas
    exact fun below hbelow => hholds.plain (List.mem_filter.mp hbelow).1
  | none =>
    rw [hentry] at hquery
    obtain ⟨name, hmem, rfl⟩ := List.mem_map.mp hquery
    intro below hbelow
    rw [List.mem_singleton.mp hbelow]
    have hparent := Node.parent_of_mem_children (Node.mem_children_of_mem_childrenTagged hmem)
    rcases Node.next_cases name with habsent | hnext
    · rw [habsent]
      exact .absent node
    · rw [hparent] at hnext
      exact hself.plain hnext

theorem uses_namedQuery {query : Dialect.NamedQuery tree}
    (hquery : query ∈ dialect.namedQueries node) :
    (namedQuery dialect query).Uses (Plain dialect node) arms listed := by
  have hbody := plain_namedQuery hself hquery
  unfold namedQuery
  split
  · exact ⟨trivial, fun _ => ⟨hbody, fun _ => trivial⟩⟩
  · trivial

theorem uses_namedQueries :
    (forEach (dialect.namedQueries node) (namedQuery dialect)).Uses (Plain dialect node)
      arms listed :=
  uses_forEach fun _ hquery => uses_namedQuery hself hquery

/-- The expressions of a select list. -/
theorem plain_expression {item : Dialect.Element tree} (hitem : item ∈ dialect.elements node) :
    ∀ below ∈ item.expression, Plain dialect node below := by
  simp only [Dialect.elements] at hitem
  cases helement : dialect.vocabulary.queries.element with
  | some tag =>
    rw [helement] at hitem
    obtain ⟨element, hmem, rfl⟩ := List.mem_map.mp hitem
    obtain ⟨hchild, hhas⟩ := List.mem_filter.mp hmem
    have hholds : Holds dialect node element :=
      hself.of_has (by simp [Dialect.holders, helement]) hchild hhas
    exact fun below hbelow => hholds.plain (List.mem_filter.mp hbelow).1
  | none =>
    rw [helement] at hitem
    obtain ⟨expression, hmem, rfl⟩ := List.mem_map.mp hitem
    intro below hbelow
    rw [List.mem_singleton.mp hbelow]
    exact hself.plain (List.mem_filter.mp hmem).1

theorem uses_gather {item : Dialect.Element tree} (hitem : item ∈ dialect.elements node) :
    (gather dialect item).Uses (Plain dialect node) arms listed := by
  have hplain := plain_expression hself hitem
  unfold gather
  split
  · exact ⟨trivial, fun _ => ⟨trivial, fun _ => hplain⟩⟩
  · exact hplain

theorem uses_selectList : (selectList dialect node).Uses (Plain dialect node) arms false := by
  refine uses_forEach fun item hitem => ?_
  exact ⟨uses_gather hself (List.fst_mem_of_mem_zipIdx hitem), fun _ => rfl⟩

/-- The values of an insert are no parts of a query. -/
theorem plain_values {values : List (Node tree)}
    (hvalues : (dialect.insertParts node).values = some values) :
    ∀ value ∈ values, Plain dialect node value := by
  intro value hvalue
  simp only [Dialect.insertParts, Option.ite_none_right_eq_some, Option.some.injEq] at hvalues
  rw [← hvalues.2] at hvalue
  have hclause : Holds dialect node (node.child dialect.vocabulary.inserts.values) :=
    hself.child (by simp [Dialect.holders])
  have hholder : Holds dialect node ((node.child dialect.vocabulary.inserts.values).path
      dialect.vocabulary.inserts.valuesPath) :=
    hclause.path fun tag htag => by simp [Dialect.holders, htag]
  exact hholder.plain (List.mem_filter.mp hvalue).1

theorem uses_insert : (insert dialect node).Uses (Plain dialect node) arms false := by
  have hquery : Plain dialect node (dialect.insertParts node).query := hself.plain_child _
  simp only [insert]
  split
  · refine ⟨trivial, fun table => ⟨trivial, fun columns => ?_⟩⟩
    split
    · next values hlisted => exact uses_insertValues (plain_values hself hlisted)
    · split
      · intro below hbelow
        rw [List.mem_singleton.mp hbelow]
        exact hquery
      · trivial
  · trivial

end Script

namespace Script

variable [dialect.Regular] {arms : List (Node tree) → Prop} {node : Node tree}

/-- The parts of a query. -/
theorem arms_queryParts : Arms dialect node (dialect.queryParts node) where
  beneath part hpart := by
    simp only [Dialect.queryParts, List.mem_cons] at hpart
    rcases hpart with rfl | rfl | hbody
    · exact Node.beneath_child node _
    · exact Node.beneath_child node _
    · exact Node.beneath_of_mem_children (List.mem_filter.mp hbody).1
  pairwise := Dialect.pairwise_queryParts node

/-- A rule visits nodes that are no parts of a query, and the parts of its own query. -/
theorem uses_ofRule {rule : Rule} (hrule : dialect.rule? node.tag = some rule)
    (hpresent : node.isPresent = true) (hcloses : dialect.closesArm node = false)
    (harms : arms (dialect.queryParts node)) :
    (ofRule dialect node rule).Uses (Plain dialect node) arms false := by
  by_cases hselect : rule = .select
  -- Only a query hands its parts on as arms; all other rules visit what their node holds.
  · subst hselect
    refine ⟨trivial, fun claimed => ?_⟩
    cases claimed with
    | none => exact harms
    | some clause => exact ⟨trivial, fun _ => harms⟩
  have hself : Holds dialect node node := holds_self (by simpa [hrule] using hselect)
  have hchildren := plain_children hself
  cases rule with
  | select => exact absurd rfl hselect
  | package => exact uses_package hself
  | routine => exact uses_routine hself
  | varDeclaration => exact uses_varDeclaration hself
  | cursor => exact uses_cursor hself
  | callStatement => exact uses_call hself true
  | functionCall => exact uses_call hself false
  | fieldSuffix => exact uses_fieldSuffix hself
  | conditional => exact uses_conditional hself
  | loop => exact uses_loop hself
  | withClause => exact uses_namedQueries hself
  | selectList => exact uses_selectList hself
  | insert => exact uses_insert hself
  | skip => trivial
  | reference => exact ⟨trivial, fun _ => trivial⟩
  | fetch => trivial
  | fieldChain => exact hchildren
  | returnStatement => exact ⟨trivial, fun _ => hchildren⟩
  | assignment => exact hchildren
  | effect => exact hchildren
  | identifier => exact uses_identifier node
  | tableName => exact uses_tableName node
  | setOperation =>
    refine uses_setOperation hchildren ?_
    simpa [Dialect.closesArm, Dialect.binds, hpresent, hrule] using hcloses

/-- The steps of a node that ends no level visit nodes that are no parts of a query, and the parts
    of its own query. -/
theorem uses_nodeScript (hpresent : node.isPresent = true)
    (hcloses : dialect.closesArm node = false) (harms : arms (dialect.queryParts node)) :
    (nodeScript dialect node).Uses (Plain dialect node) arms false := by
  unfold nodeScript
  cases hrule : dialect.rule? node.tag with
  | some rule => exact uses_ofRule hrule hpresent hcloses harms
  | none => exact plain_children (holds_self (by simp [hrule]))

end Script

/-- The steps of the first operator between the arms of a query. -/
theorem nodeScript_of_closesArm (h : dialect.closesArm node = true) :
    nodeScript dialect node = (do
      .closeArm
      .nextArm 0
      .visits node.children) := by
  simp only [Dialect.closesArm, Dialect.binds, Bool.and_eq_true, beq_iff_eq] at h
  obtain ⟨⟨⟨_, hrule⟩, hbetween⟩, hfirst⟩ := h
  simp only [nodeScript, hrule, Script.ofRule, Script.setOperation, hbetween, hfirst, if_true]

/-- The steps of any other operator. -/
theorem nodeScript_of_operator (hoperator : dialect.binds node .setOperation = true)
    (hstays : dialect.closesArm node = false) :
    nodeScript dialect node = (do
      .nextArm (if dialect.standsBetweenArms node then 0 else 1)
      .visits node.children) := by
  have hrule : dialect.rule? node.tag = some .setOperation := by
    simp only [Dialect.binds, Bool.and_eq_true, beq_iff_eq] at hoperator
    exact hoperator.2
  simp only [Dialect.closesArm, hoperator, Bool.true_and] at hstays
  simp only [nodeScript, hrule, Script.ofRule, Script.setOperation]
  cases hbetween : dialect.standsBetweenArms node with
  | false => rfl
  | true =>
    rw [hbetween, Bool.true_and] at hstays
    simp only [hstays]
    rfl

/-- The steps of a node visit nodes that come after it. -/
theorem visits_nodeScript [dialect.Regular] (hpresent : node.isPresent = true) :
    (nodeScript dialect node).Visits node.Beneath := by
  cases hcloses : dialect.closesArm node with
  | false =>
    have harms : Arms dialect node (dialect.queryParts node) := Script.arms_queryParts
    exact (Script.uses_nodeScript hpresent hcloses harms).visits (fun _ h => h.beneath)
      fun _ h => h.beneath
  | true =>
    rw [nodeScript_of_closesArm hcloses]
    exact ⟨trivial, fun _ => ⟨trivial, fun _ below hbelow => Node.beneath_of_mem_children hbelow⟩⟩

end Lineage.Walk
