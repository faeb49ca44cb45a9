import Lineage.Proofs.Walk.Alike
import Lineage.Proofs.Walk.Script

/-!
# The steps of the rules

What a rule does besides visiting nodes and sending bindings outward is made of few kinds of steps,
and most of them belong to some rules only. `StepsOf` lists them, each with the rules that take it.
A property that all steps of a rule have is then proved by going through this list, and not by going
through the rules once more.

## Key results

- `StepsOf`: the steps, and the rules that take them
- `Script.stepsOf_ofRule`: every rule is made of the steps listed for it
-/

namespace Lineage

/-- The kinds of the bindings that a rule adds and does not declare. -/
def Rule.addedKinds : Rule → List Binding.Kind
  | package | routine | cursor => [.parameter]
  | callStatement | functionCall => [.call, .argument]
  | returnStatement => [.result]
  | withClause => [.record]
  | _ => []

/-- The kinds of the bindings that a rule adds and declares at once. -/
def Rule.declaredKinds : Rule → List Binding.Kind
  | package => [.package, .routine]
  | routine => [.routine]
  | varDeclaration => [.var]
  | cursor => [.cursor]
  | loop => [.record]
  | selectList => [.aliased]
  | _ => []

namespace Walk

variable {tree : Tree} {α : Type}

/-- The rule of the node looks up the name, which must have been declared before. -/
inductive LooksUp (dialect : Dialect) (node : Node tree) : Rule → Node tree → Prop where
  | reference : LooksUp dialect node .reference node
  | cursor : LooksUp dialect node .fetch (node.child dialect.vocabulary.statements.fetchCursor)
  | target {name : Node tree} (h : name ∈ node.find dialect.vocabulary.statements.fetchTarget) :
      LooksUp dialect node .fetch name
  | into {clause name : Node tree} (h : name ∈ dialect.intoTargets clause) : LooksUp dialect
      node .select name

/-- The walk is made of steps that the rule takes at the node. -/
inductive StepsOf (dialect : Dialect) (node : Node tree) (rule : Rule) :
    {α : Type} → Walk α → Prop where
  | pure {α : Type} (value : α) : StepsOf dialect node rule (Pure.pure value)
  | bind {α β : Type} {first : Walk α} {next : α → Walk β}
      (hfirst : StepsOf dialect node rule first)
      (hnext : ∀ value, StepsOf dialect node rule (next value)) : StepsOf dialect node rule
      (first >>= next)
  | read {α : Type} (look : Session → α) : StepsOf dialect node rule (Walk.read look)
  | fail {α : Type} (error : Error) (h : error.isUnplaced = true) :
      StepsOf dialect node rule (Walk.fail error : Walk α)
  /-- A name is looked up and not found. -/
  | missing {α : Type} {name : Node tree} (hpresent : name.isPresent = true)
      (h : LooksUp dialect node rule name) :
      StepsOf dialect node rule (Walk.fail
        (.unresolved (QualifiedName.parse (dialect.nameOf name)).restricted.display
          name.location) : Walk α)
  | add (binding : Binding) (h : binding.kind ∈ rule.addedKinds) : StepsOf dialect node rule
      (Walk.add binding)
  | declare (name : String) {kind : Binding.Kind} (h : kind ∈ rule.declaredKinds) :
      StepsOf dialect node rule (Walk.declare (.ofName name kind))
  /-- Parameters are declared in the body of their owner. -/
  | declareAll (ids : List BindingId) (h : rule = .routine ∨ rule = .cursor) :
      StepsOf dialect node rule (Walk.declareAll ids)
  /-- A named subquery is declared after its body. -/
  | declareQuery (id : BindingId) (h : rule = .withClause) :
      StepsOf dialect node rule (changeScope (·.declare id))
  | addChild (parent child : BindingId) : StepsOf dialect node rule
      (changeScope (·.addChild parent child))
  | addOutput (source target : BindingId) : StepsOf dialect node rule
      (changeScope (·.addOutput source target))
  | dottedReference (qualifiers : List String) (name : String) :
      StepsOf dialect node rule (onScope (·.dottedReference qualifiers name))
  | memberAccess (name : String) : StepsOf dialect node rule (onScope fun scope =>
      match chainHead? scope with
      | some head => scope.childOrInsert head name .field
      | none => scope.add (.ofName name .field))
  | table (name : String) : StepsOf dialect node rule (onScope (·.table name))
  | insertTarget (name : String) : StepsOf dialect node rule (onScope (·.insertTarget name))
  | columnsNamed (table : BindingId) (names : List String) :
      StepsOf dialect node rule (onScope (Scope.columnsNamed table names))
  | renameSource (relation : BindingId) (name : Option String) :
      StepsOf dialect node rule (changeScope fun scope =>
        (scope.renameSource? relation name).getD scope)
  /-- A routine is kept that was declared ahead of its body. -/
  | keepHoisted (routine : Node tree) (id : BindingId) (h : rule = .package) :
      StepsOf dialect node rule (change fun session =>
        { session with hoisted := (routine.index?.map fun index => (index, id)).toList ++
          session.hoisted })
  | takeHoisted (h : rule = .routine) : StepsOf dialect node rule (Walk.takeHoisted node)
  | claimInto (h : rule = .select) : StepsOf dialect node rule (Walk.claimInto dialect node)

namespace StepsOf

variable {dialect : Dialect} {node : Node tree} {rule : Rule} {ι : Type}

theorem require (found : Option α) {error : Error}
    (h : StepsOf dialect node rule (Walk.fail error : Walk α)) :
    StepsOf dialect node rule (Walk.require found error) := by
  cases found with
  | none => exact h
  | some value => exact .pure value

theorem mapM {items : List ι} {step : ι → Walk α}
    (h : ∀ item ∈ items, StepsOf dialect node rule (step item)) :
    StepsOf dialect node rule (items.mapM step) := by
  induction items with
  | nil => exact .pure []
  | cons item rest ih =>
    rw [List.mapM_cons]
    exact .bind (h item List.mem_cons_self) fun _ =>
      .bind (ih fun other hother => h other (List.mem_cons_of_mem _ hother)) fun _ => .pure _

theorem forM {items : List ι} {step : ι → Walk Unit}
    (h : ∀ item ∈ items, StepsOf dialect node rule (step item)) :
    StepsOf dialect node rule (items.forM step) := by
  induction items with
  | nil => exact .pure ()
  | cons item rest ih =>
    exact .bind (h item List.mem_cons_self) fun _ => ih fun other hother =>
      h other (List.mem_cons_of_mem _ hother)

/-! ### The quiet parts of the rules -/

theorem declaredName (declaration : Node tree) :
    StepsOf dialect node rule (Walk.declaredName dialect declaration) :=
  .require _ (.fail _ rfl)

theorem parameters (h : .parameter ∈ rule.addedKinds) (owner : BindingId) (declaration : Node tree)
    (tag : String) : StepsOf dialect node rule (Walk.parameters dialect owner declaration tag) := by
  refine .bind (.read _) fun known => ?_
  split
  -- Parameters are added unless the owner has some already.
  · exact .mapM fun item _ => .bind (declaredName item.1) fun _ => .bind (.add _ h) fun id =>
      .bind (.addChild owner id) fun _ => .pure _
  · exact .pure _

theorem hoistAll : StepsOf dialect node .package (Walk.hoistAll dialect node) :=
  .forM fun routine _ => .bind (declaredName routine) fun _ =>
    .bind (.declare _ (by decide)) fun id =>
    .bind (parameters (by decide) id routine _) fun _ => .keepHoisted routine id rfl

theorem routineId : StepsOf dialect node .routine (Walk.routineId dialect node) := by
  refine .bind (.takeHoisted rfl) fun hoisted => ?_
  -- A routine that was declared ahead is not declared again.
  cases hoisted with
  | some id => exact .pure id
  | none => exact .bind (declaredName node) fun _ => .declare _ (by decide)

theorem existing {name : Node tree} (h : LooksUp dialect node rule name) :
    StepsOf dialect node rule (Walk.existing dialect name) := by
  unfold Walk.existing
  split
  -- Only a name that is there can be missing; the lack of one is an error of the shape.
  · next hpresent => exact .bind (.read _) fun found => .require found (.missing hpresent h)
  · exact .fail _ rfl

theorem fetch : StepsOf dialect node .fetch (Walk.fetch dialect node) :=
  .bind (existing .cursor) fun cursor => .forM fun _ htarget =>
    .bind (existing (.target htarget)) fun target => .addOutput cursor target

theorem insertColumns (parts : Dialect.InsertParts tree) (table : BindingId) :
    StepsOf dialect node rule (Walk.insertColumns dialect parts table) := by
  -- Listed columns are looked up, and so are the made up ones where none are known.
  unfold Walk.insertColumns
  split
  · refine .bind (.read _) fun known => ?_
    split
    · exact .columnsNamed table _
    · exact .pure known
  · exact .columnsNamed table _

end StepsOf

/-! ### Scripts -/

namespace Script

variable {dialect : Dialect} {node : Node tree} {rule : Rule} {ι : Type}

/-- The script is made of steps that the rule takes at the node. Only one rule ends the elements of
    a list, only one sends operators, and none opens the level of a query by itself. -/
def StepsOf (dialect : Dialect) (node : Node tree) (rule : Rule) : {α : Type} → Script tree α → Prop
  | _, quiet walk _ => Walk.StepsOf dialect node rule walk
  | _, flush _ => rule = .selectList
  | _, closeArm => rule = .setOperation
  | _, nextArm _ => rule = .setOperation
  | _, within frame body => frame.isSelect = false ∧ body.StepsOf dialect node rule
  | _, andThen first next =>
    first.StepsOf dialect node rule ∧ ∀ value, (next value).StepsOf dialect node rule
  | _, send _ | _, visits _ | _, query _ => True

theorem stepsOf_forEach {items : List ι} {steps : ι → Script tree Unit}
    (h : ∀ item, (steps item).StepsOf dialect node rule) :
    (forEach items steps).StepsOf dialect node rule := by
  -- A loop over items is a bind for each of them, with a `pure` at its end.
  induction items with
  | nil => exact .pure ()
  | cons item rest ih => exact ⟨h item, fun _ => ih⟩

theorem stepsOf_package : (package dialect node).StepsOf dialect node .package :=
  ⟨.declaredName node, fun _ =>
    ⟨.declare _ (by decide), fun _ => ⟨rfl, .hoistAll, fun _ => trivial⟩⟩⟩

theorem stepsOf_routine : (routine dialect node).StepsOf dialect node .routine :=
  ⟨.routineId, fun id =>
    ⟨.parameters (by decide) id node _, fun ids => ⟨rfl, .declareAll ids (.inl rfl),
    fun _ => trivial⟩⟩⟩

theorem stepsOf_varDeclaration :
    (varDeclaration dialect node).StepsOf dialect node .varDeclaration := by
  refine ⟨.declaredName node, fun name => ⟨.declare name (by decide), fun _ => ?_⟩⟩
  dsimp only
  split
  · exact ⟨rfl, trivial⟩
  · exact .pure ()

theorem stepsOf_cursor : (cursor dialect node).StepsOf dialect node .cursor :=
  ⟨.declaredName node, fun name =>
    ⟨.declare name (by decide), fun id => ⟨.parameters (by decide) id node _,
    fun ids => ⟨rfl, .declareAll ids (.inr rfl), fun _ => ⟨rfl, trivial⟩⟩⟩⟩⟩

theorem stepsOf_argument (h : .argument ∈ rule.addedKinds) (call : Option BindingId)
    (argument : Node tree) (position : Nat) :
    (Script.argument dialect call argument position).StepsOf dialect node rule := by
  have hkind : (argumentBinding dialect argument position).kind = .argument := by
    unfold argumentBinding
    dsimp only
    split <;> rfl
  refine ⟨.add _ (hkind ▸ h), fun id => ⟨?_, fun _ => ⟨rfl, trivial⟩⟩⟩
  -- Only a call with a binding of its own gets its arguments for members.
  cases call with
  | none => exact .pure ()
  | some call => exact .addChild call id

/-- Both rules of calls. -/
theorem stepsOf_call (h : rule.addedKinds = [.call, .argument]) (statement : Bool) :
    (call dialect statement node).StepsOf dialect node rule := by
  have harguments (call : Option BindingId) : (forEach (dialect.argumentsOf node).zipIdx fun item =>
      argument dialect call item.1 item.2).StepsOf dialect node rule :=
    stepsOf_forEach fun item => stepsOf_argument (by simp [h]) call item.1 item.2
  refine ⟨.require _ (.fail _ rfl), fun name => ⟨.read _, fun found => ?_⟩⟩
  cases found with
  | some routine =>
    -- A statement adds a binding for the call, an expression sends the routine itself.
    have hcall : .call ∈ rule.addedKinds := by simp [h]
    refine ⟨rfl, ?_⟩
    cases statement with
    | true =>
      exact ⟨⟨.add _ hcall, fun _ => .pure _⟩, fun call => ⟨trivial, fun _ => harguments call⟩⟩
    | false => exact ⟨.pure _, fun call => ⟨trivial, fun _ => harguments call⟩⟩
  | none =>
    cases statement with
    | true => exact .fail _ rfl
    | false => trivial

theorem stepsOf_identifier : (identifier dialect node).StepsOf dialect node .identifier := by
  unfold identifier
  split
  · exact .pure ()
  · exact ⟨.dottedReference _ _, fun _ => trivial⟩

theorem stepsOf_fieldSuffix : (fieldSuffix dialect node).StepsOf dialect node .fieldSuffix := by
  unfold fieldSuffix
  dsimp only
  split
  · exact ⟨.memberAccess _, fun _ => trivial⟩
  · trivial

theorem stepsOf_loop : (loop dialect node).StepsOf dialect node .loop := by
  -- The level of a loop is that of a body, so the levels of queries are left to queries.
  refine ⟨rfl, ?_⟩
  split
  · trivial
  · split
    · exact ⟨.declare _ (by decide), fun _ => ⟨⟨rfl, trivial⟩, fun _ => trivial⟩⟩
    · exact .fail _ rfl

theorem stepsOf_select : (select dialect node).StepsOf dialect node .select := by
  refine ⟨.claimInto rfl, fun claimed => ?_⟩
  cases claimed with
  | none => trivial
  | some clause => exact ⟨.mapM fun _ htarget => .existing (.into htarget), fun _ => ⟨rfl, trivial⟩⟩

theorem stepsOf_namedQuery (query : Dialect.NamedQuery tree) :
    (namedQuery dialect query).StepsOf dialect node .withClause := by
  -- The record is added first and declared after its body, so these are two steps.
  unfold namedQuery
  split
  · exact ⟨.add _ (show Binding.Kind.record ∈ _ by decide), fun id =>
      ⟨⟨rfl, trivial⟩, fun _ => .declareQuery id rfl⟩⟩
  · exact .fail _ rfl

theorem stepsOf_element (item : Dialect.Element tree) (position : Nat) :
    (element dialect item position).StepsOf dialect node .selectList := by
  refine ⟨?_, fun _ => rfl⟩
  unfold gather
  split
  · exact ⟨.declare _ (by decide), fun _ => ⟨trivial, fun _ => ⟨rfl, trivial⟩⟩⟩
  · trivial

theorem stepsOf_tableName : (tableName dialect node).StepsOf dialect node .tableName := by
  unfold tableName
  split
  · refine ⟨.table _, fun relation => ⟨trivial, fun _ => ?_⟩⟩
    dsimp only
    split
    · exact .renameSource relation _
    · exact .pure ()
  · exact .pure ()

theorem stepsOf_setOperation : (setOperation dialect node).StepsOf dialect node .setOperation := by
  unfold setOperation
  dsimp only
  split
  -- Whether the level of the first arm ends or not, an operator is sent.
  · split
    · exact ⟨rfl, fun _ => ⟨rfl, fun _ => trivial⟩⟩
    · exact ⟨rfl, fun _ => trivial⟩
  · exact ⟨rfl, fun _ => trivial⟩

theorem stepsOf_insertValues (values : List (Node tree)) (columns : List BindingId)
    (table : String) : (insertValues values columns table).StepsOf dialect node .insert := by
  unfold insertValues
  split
  · exact stepsOf_forEach fun _ => ⟨rfl, trivial⟩
  · exact .fail _ rfl

theorem stepsOf_insert : (insert dialect node).StepsOf dialect node .insert := by
  unfold insert
  dsimp only
  split
  · refine ⟨.insertTarget _, fun table => ⟨.insertColumns _ table, fun columns => ?_⟩⟩
    split
    · exact stepsOf_insertValues _ columns _
    · split
      · exact ⟨rfl, trivial⟩
      · exact .fail _ rfl
  · exact .fail _ rfl

/-- Every rule is made of the steps that are listed for it. -/
theorem stepsOf_ofRule (dialect : Dialect) (node : Node tree) (rule : Rule) :
    (ofRule dialect node rule).StepsOf dialect node rule := by
  -- Short rules are read off here, each of the others has a lemma above.
  cases rule with
  | skip => exact .pure ()
  | package => exact stepsOf_package
  | routine => exact stepsOf_routine
  | varDeclaration => exact stepsOf_varDeclaration
  | cursor => exact stepsOf_cursor
  | callStatement => exact stepsOf_call rfl true
  | functionCall => exact stepsOf_call rfl false
  | identifier => exact stepsOf_identifier
  | reference => exact ⟨.existing .reference, fun _ => trivial⟩
  | fieldSuffix => exact stepsOf_fieldSuffix
  | returnStatement =>
    exact ⟨.add _ (show Binding.Kind.result ∈ _ by decide), fun _ => ⟨rfl, trivial⟩⟩
  | fetch => exact .fetch
  | conditional => exact ⟨⟨rfl, trivial⟩, fun _ => trivial⟩
  | loop => exact stepsOf_loop
  | select => exact stepsOf_select
  | withClause => exact stepsOf_forEach stepsOf_namedQuery
  | selectList => exact ⟨rfl, stepsOf_forEach fun item => stepsOf_element item.1 item.2⟩
  | insert => exact stepsOf_insert
  | tableName => exact stepsOf_tableName
  | setOperation => exact stepsOf_setOperation
  | fieldChain | assignment | effect => exact ⟨rfl, trivial⟩

end Script

end Walk

end Lineage
