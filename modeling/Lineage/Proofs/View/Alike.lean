import Lineage.Proofs.Tree.Alike
import Lineage.View.Declarations
import Lineage.View.Queries
import Lineage.View.Statements

/-!
# Views of trees that read alike

Where a dialect looks for names, parts and clauses depends on shape and tags alone, and the names
that it finds are folded. So in trees that read alike every view of a node shows nodes that stand
for each other, and the same names.

## Key results

- `declaredName?_across`, `nameOf_across`, `calledName?_across`: the names are the same
- `routinesOf_across`, `queryParts_across`, `elements_across`, `insertParts_across`, …: the parts
  stand for each other
-/

namespace Lineage.Tree.Alike

variable {tree other : Tree} (h : tree.Alike other) (dialect : Dialect)
  (node declaration : Node tree)

/-! ### Names -/

@[simp] theorem binds_across (rule : Rule) :
    dialect.binds (h.across node) rule = dialect.binds node rule := by
  simp [Dialect.binds]

theorem declaredPart_across :
    dialect.declaredPart (h.across node) = h.across (dialect.declaredPart node) := by
  simp only [Dialect.declaredPart]
  cases dialect.vocabulary.names.holder <;> simp

@[simp] theorem declaredName?_across :
    dialect.declaredName? (h.across node) = dialect.declaredName? node := by
  simp [Dialect.declaredName?, declaredPart_across]

@[simp] theorem nameOf_across : dialect.nameOf (h.across node) = dialect.nameOf node := by
  simp only [Dialect.nameOf, has_across, text_across, find_across]
  cases node.find dialect.vocabulary.names.part with
  | nil => rfl
  | cons part parts =>
    have htexts : ((part :: parts).map h.across).map Node.text = (part :: parts).map Node.text := by
      rw [List.map_map]
      exact List.map_congr_left fun part _ => h.text_across part
    simp only [List.map_cons] at htexts ⊢
    rw [htexts]

@[simp] theorem qualifies_across : dialect.qualifies (h.across node) = dialect.qualifies node := by
  simp [Dialect.qualifies]

@[simp] theorem qualifiersOf_across :
    dialect.qualifiersOf (h.across node) = (dialect.qualifiersOf node).map h.across := by
  have hqualifies : dialect.qualifies ∘ h.across = dialect.qualifies :=
    funext fun sibling => h.qualifies_across dialect sibling
  simp [Dialect.qualifiersOf, ← List.map_reverse, List.takeWhile_map, hqualifies]

/-! ### Declarations -/

@[simp] theorem packageBody_across (package : Node tree) :
    dialect.packageBody (h.across package) = (dialect.packageBody package).map h.across := by
  simp only [Dialect.packageBody, child_across, isPresent_across, later_across, children_across]
  split <;> exact h.filter_across fun child => by rw [has_across]

theorem insideRoutine_across (package node : Node tree) :
    dialect.insideRoutine (h.across package) (h.across node) =
      dialect.insideRoutine package node := by
  simp [Dialect.insideRoutine, List.takeWhile_map, Function.comp_def]

@[simp] theorem routinesOf_across (package : Node tree) :
    dialect.routinesOf (h.across package) = (dialect.routinesOf package).map h.across := by
  rw [Dialect.routinesOf, descendants_across]
  exact h.filter_across fun node => by rw [binds_across, insideRoutine_across]

@[simp] theorem routineBody_across (routine : Node tree) :
    dialect.routineBody (h.across routine) = (dialect.routineBody routine).map h.across := by
  rw [Dialect.routineBody, children_across]
  exact h.filter_across fun child => by simp

theorem parameterHolder_across :
    dialect.parameterHolder (h.across declaration) =
      h.across (dialect.parameterHolder declaration) := by
  simp only [Dialect.parameterHolder]
  cases dialect.vocabulary.declarations.parameterList with
  | none => rfl
  | some tag =>
    -- The lists among the children of the children stand for each other too.
    have hinner : (((declaration.children.map h.across).map (·.child tag)).filter Node.isPresent) =
        ((declaration.children.map (·.child tag)).filter Node.isPresent).map h.across := by
      rw [List.map_map, ← h.filter_across h.isPresent_across, List.map_map]
      congr 1
      exact List.map_congr_left fun child _ => h.child_across child tag
    simp only [child_across, isPresent_across, children_across, hinner, first_across]
    split <;> rfl

@[simp] theorem parametersOf_across (tag : String) :
    dialect.parametersOf (h.across declaration) tag =
      (dialect.parametersOf declaration tag).map h.across := by
  rw [Dialect.parametersOf, parameterHolder_across, childrenTagged_across, Dialect.parametersOf]

@[simp] theorem defaultValue_across :
    dialect.defaultValue (h.across declaration) = h.across (dialect.defaultValue declaration) :=
  h.child_across declaration _

@[simp] theorem cursorQuery_across :
    dialect.cursorQuery (h.across declaration) = h.across (dialect.cursorQuery declaration) :=
  h.child_across declaration _

/-! ### Calls and loops -/

@[simp] theorem calledName?_across (call : Node tree) :
    dialect.calledName? (h.across call) = dialect.calledName? call := by
  have htexts : Node.text ∘ h.across = Node.text := funext h.text_across
  simp only [Dialect.calledName?, child_across, find_across, List.map_map, htexts]

@[simp] theorem argumentsOf_across (call : Node tree) :
    dialect.argumentsOf (h.across call) = (dialect.argumentsOf call).map h.across := by
  rw [Dialect.argumentsOf, path_across, childrenTagged_across, Dialect.argumentsOf]

@[simp] theorem argumentName_across (argument : Node tree) :
    dialect.argumentName (h.across argument) = h.across (dialect.argumentName argument) :=
  h.child_across argument _

@[simp] theorem argumentValue_across (argument : Node tree) :
    dialect.argumentValue (h.across argument) = (dialect.argumentValue argument).map h.across := by
  rw [Dialect.argumentValue, children_across, argumentName_across]
  exact h.filter_across fun child => by simp

/-- The parts of a loop that stand for the given ones. -/
def acrossLoop : Dialect.LoopParts tree → Dialect.LoopParts other
  | .plain body => .plain (body.map h.across)
  | .overRows record sources body =>
    .overRows (h.across record) (sources.map h.across) (body.map h.across)

theorem loopParts_across (loop : Node tree) :
    dialect.loopParts (h.across loop) = h.acrossLoop (dialect.loopParts loop) := by
  simp only [Dialect.loopParts]
  cases dialect.vocabulary.statements.loopHeader with
  | none => simp [acrossLoop]
  | some tag =>
    simp only [child_across, isPresent_across, childAt_across, later_across, children_across]
    split <;> rfl

/-! ### Queries and inserts -/

@[simp] theorem intoClause_across (query : Node tree) :
    dialect.intoClause (h.across query) = h.across (dialect.intoClause query) := by
  simp only [Dialect.intoClause, child_across, isPresent_across, findFirst_across]
  split <;> rfl

@[simp] theorem intoTargets_across (clause : Node tree) :
    dialect.intoTargets (h.across clause) = (dialect.intoTargets clause).map h.across :=
  h.childrenTagged_across clause _

@[simp] theorem queryParts_across (query : Node tree) :
    dialect.queryParts (h.across query) = (dialect.queryParts query).map h.across := by
  have hbody : dialect.queryBody (h.across query) = (dialect.queryBody query).map h.across := by
    rw [Dialect.queryBody, children_across]
    exact h.filter_across fun child => by simp
  simp [Dialect.queryParts, hbody]

/-- The named subquery that stands for the given one. -/
def acrossNamed (query : Dialect.NamedQuery tree) : Dialect.NamedQuery other :=
  ⟨h.across query.name, query.body.map h.across⟩

theorem namedQueries_across (clause : Node tree) :
    dialect.namedQueries (h.across clause) = (dialect.namedQueries clause).map h.acrossNamed := by
  simp only [Dialect.namedQueries]
  cases dialect.vocabulary.queries.withEntry with
  | none => simp [acrossNamed]
  | some tag =>
    simp only [childrenTagged_across, List.map_map]
    apply List.map_congr_left
    intro entry _
    simp only [Function.comp, acrossNamed, child_across, children_across]
    congr 1
    exact h.filter_across fun child => by simp

/-- The element that stands for the given one. -/
def acrossElement (element : Dialect.Element tree) : Dialect.Element other :=
  ⟨element.expression.map h.across, h.across element.aliasNode⟩

theorem elements_across (selectList : Node tree) :
    dialect.elements (h.across selectList) = (dialect.elements selectList).map h.acrossElement := by
  simp only [Dialect.elements]
  cases dialect.vocabulary.queries.element with
  | none =>
    simp only [children_across]
    rw [h.filter_across fun child => by rw [has_across], List.map_map, List.map_map]
    apply List.map_congr_left
    intro expression _
    simp [acrossElement]
  | some tag =>
    simp only [childrenTagged_across, List.map_map]
    apply List.map_congr_left
    intro element _
    simp only [Function.comp, acrossElement, child_across, children_across]
    congr 1
    exact h.filter_across fun child => by simp

@[simp] theorem arity_across (query : Node tree) :
    dialect.arity (h.across query) = dialect.arity query := by
  simp only [Dialect.arity, descendants_across]
  rw [h.filter_across fun node => h.binds_across dialect node .selectList]
  simp [elements_across]

@[simp] theorem tableAlias_across (table : Node tree) :
    dialect.tableAlias (h.across table) = h.across (dialect.tableAlias table) := by
  simp [Dialect.tableAlias]

@[simp] theorem isSourceName_across (table : Node tree) :
    dialect.isSourceName (h.across table) = dialect.isSourceName table := by
  simp [Dialect.isSourceName]

@[simp] theorem standsBetweenArms_across (operator : Node tree) :
    dialect.standsBetweenArms (h.across operator) = dialect.standsBetweenArms operator := by
  simp [Dialect.standsBetweenArms]

/-- The parts of an insert that stand for the given ones. -/
def acrossInsert (parts : Dialect.InsertParts tree) : Dialect.InsertParts other where
  table := h.across parts.table
  columns := parts.columns.map h.across
  values := parts.values.map (List.map h.across)
  query := h.across parts.query

theorem insertParts_across (insert : Node tree) :
    dialect.insertParts (h.across insert) = h.acrossInsert (dialect.insertParts insert) := by
  simp only [Dialect.insertParts, acrossInsert, child_across, findFirst_across, find_across,
    isPresent_across, path_across, childrenTagged_across, Dialect.InsertParts.mk.injEq,
    true_and, and_true]
  split <;> rfl

end Lineage.Tree.Alike
