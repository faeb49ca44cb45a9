import Lineage.Analyze
import Lineage.Proofs.Tree.Links
import Lineage.Proofs.View.Alike
import Lineage.Proofs.Walk.Quiet

/-!
# Inputs that read alike are analyzed alike

A walk sees of a tree its shape, its tags and its folded texts, and of a schema its folded names. So
walks over trees that read alike go through the same states, and if one of them fails, the other one
fails for the same reason. Only the line and the column that an error is given come from elsewhere.
They would matter if they decided where an error is placed; they do not, because an error is first
placed at a node whose rule raised it, and such a node has a tag.

## Key results

- `Alike`: two walks go through the same states, and give the same value or errors that match
- `placed_visit`: an error that leaves a visit is placed
- `alike_ofRule`, `alike_visit`: rules and visits over trees that read alike
- `analyze_alike`: the analyses of inputs that read alike
-/

namespace Lineage

/-! ### Errors but for their numbers -/

/-- The location without its line and column. -/
def Location.unnumbered (location : Location) : Location :=
  ⟨location.tag, none, none⟩

namespace Error

/-- The error without the line and column of its location. -/
def unnumbered : Error → Error
  | unresolved name location => unresolved name location.unnumbered
  | pairing fault location => pairing fault location.unnumbered
  | shape fault location => shape fault location.unnumbered
  | other => other

/-- The error still takes a location. -/
def isUnplaced : Error → Bool
  | unresolved _ location | pairing _ location | shape _ location => location.isUnknown
  | unknownDialect _ | unreadable _ => false

/-- The errors are the same but for lines and columns, and take a location or not. -/
structure Matches (error other : Error) : Prop where
  unnumbered : other.unnumbered = error.unnumbered
  isUnplaced : other.isUnplaced = error.isUnplaced

theorem Matches.refl (error : Error) : error.Matches error :=
  ⟨rfl, rfl⟩

/-- A location is given only once. -/
theorem atLocation_of_placed {error : Error} (h : error.isUnplaced = false) (place : Location) :
    error.atLocation place = error := by
  cases error <;> simp_all [atLocation, isUnplaced]

theorem isUnknown_of_tag {location : Location} (h : location.tag ≠ "") :
    location.isUnknown = false := by
  simp [Location.isUnknown, h]

/-- Once placed at a node with a tag, an error takes no further location. -/
theorem placed_atLocation (error : Error) {place : Location} (h : place.tag ≠ "") :
    (error.atLocation place).isUnplaced = false := by
  have hplace := isUnknown_of_tag h
  cases error <;> simp only [atLocation, isUnplaced] <;> split <;> simp_all

/-- Errors that match still do when they are placed at locations with the same tag,
    unless it is empty. -/
theorem Matches.atLocation {error other : Error} (h : error.Matches other) {place place' : Location}
    (htag : place'.tag = place.tag) (hplace : place.tag ≠ "") :
    (error.atLocation place).Matches (other.atLocation place') := by
  constructor
  · have hnumbers : place'.unnumbered = place.unnumbered := by
      rw [Location.unnumbered, htag, Location.unnumbered]
    obtain ⟨hsame, hunplaced⟩ := h
    -- Errors of different kinds do not match; those of one kind agree on what they take.
    cases error <;> cases other <;>
      simp_all [Error.unnumbered, Error.isUnplaced, Error.atLocation] <;>
      split <;> simp_all
  · rw [placed_atLocation error hplace, placed_atLocation other (htag ▸ hplace)]

end Error

/-- The tags of nodes with a rule, and of names that must have been declared, are not empty. -/
structure Dialect.Tagged (dialect : Dialect) : Prop where
  rule : dialect.rule? "" = none
  intoTarget : dialect.vocabulary.queries.intoTarget ≠ ""
  fetchCursor : dialect.vocabulary.statements.fetchCursor ≠ ""
  fetchTarget : dialect.vocabulary.statements.fetchTarget ≠ ""

theorem Grammar.tagged (grammar : Grammar) : grammar.dialect.Tagged := by
  cases grammar <;> constructor <;> decide

@[simp] theorem Node.tag_location {tree : Tree} (node : Node tree) :
    node.location.tag = node.tag := by
  cases node <;> rfl

namespace Walk

variable {α β ι κ : Type}

/-! ### Walks that go the same way -/

/-- The same value, or errors that match. -/
inductive SameResult : Except Error α → Except Error α → Prop
  | ok (value : α) : SameResult (.ok value) (.ok value)
  | error {error other : Error} (h : error.Matches other) : SameResult (.error error) (.error other)

/-- From every state both walks come to the same state, with the same value or with
    errors that match. -/
def Alike (walk other : Walk α) : Prop :=
  ∀ session, SameResult (walk session).1 (other session).1 ∧ (other session).2 = (walk session).2

namespace Alike

theorem refl (walk : Walk α) : Alike walk walk := by
  intro session
  rcases walk session with ⟨error | value, after⟩
  · exact ⟨.error (.refl error), rfl⟩
  · exact ⟨.ok value, rfl⟩

/-- Failures with errors that match. -/
theorem fail {error other : Error} (h : error.Matches other) :
    Alike (Walk.fail error : Walk α) (Walk.fail other) :=
  fun _ => ⟨.error h, rfl⟩

/-- Two walks in a row go the same way if both do, the second after every value of the first. -/
theorem bind {first first' : Walk α} {next next' : α → Walk β} (hfirst : Alike first first')
    (hnext : ∀ value, Alike (next value) (next' value)) :
    Alike (first >>= next) (first' >>= next') := by
  intro session
  obtain ⟨hresult, hstate⟩ := hfirst session
  rcases hrun : first session with ⟨result, after⟩
  rcases hrun' : first' session with ⟨result', after'⟩
  rw [hrun, hrun'] at hresult hstate
  obtain rfl : after' = after := hstate
  cases hresult with
  | ok value =>
    -- Both first walks gave the same value in the same state.
    rw [Stateful.bind_ok hrun, Stateful.bind_ok hrun']
    exact hnext value after'
  | error hmatch =>
    rw [Stateful.bind_error hrun, Stateful.bind_error hrun']
    exact ⟨.error hmatch, rfl⟩

/-- After the same steps. -/
theorem after (first : Walk α) {next next' : α → Walk β}
    (hnext : ∀ value, Alike (next value) (next' value)) :
    Alike (first >>= next) (first >>= next') :=
  (refl first).bind hnext

/-- A test that is the same for both walks. -/
theorem ite {p : Prop} [Decidable p] {walk walk' other other' : Walk α} (hthen : Alike walk walk')
    (helse : Alike other other') :
    Alike (if p then walk else other) (if p then walk' else other') := by
  split
  · exact hthen
  · exact helse

/-- One loop over some items, the other over what stands for them. -/
theorem forM {items : List ι} {place : ι → κ} {walk : ι → Walk Unit} {walk' : κ → Walk Unit}
    (h : ∀ item ∈ items, Alike (walk item) (walk' (place item))) :
    Alike (items.forM walk) ((items.map place).forM walk') := by
  induction items with
  | nil => exact refl _
  | cons item rest ih =>
    exact (h item List.mem_cons_self).bind fun _ => ih fun other hother =>
      h other (List.mem_cons_of_mem _ hother)

/-- As `forM`, for loops that collect their values. -/
theorem mapM {items : List ι} {place : ι → κ} {walk : ι → Walk α} {walk' : κ → Walk α}
    (h : ∀ item ∈ items, Alike (walk item) (walk' (place item))) :
    Alike (items.mapM walk) ((items.map place).mapM walk') := by
  induction items with
  | nil => exact refl _
  | cons item rest ih =>
    rw [List.map_cons, List.mapM_cons, List.mapM_cons]
    exact (h item List.mem_cons_self).bind fun value =>
      (ih fun other hother => h other (List.mem_cons_of_mem _ hother)).bind fun _ => refl _

/-- Walks on a level of their own, which is closed or dropped in both or in neither. -/
theorem within (frame : Frame) {walk other : Walk Unit} (h : Alike walk other) :
    Alike (within frame walk) (Walk.within frame other) := by
  intro session
  obtain ⟨hresult, hstate⟩ := h { session with scope := session.scope.push frame }
  simp only [Walk.within]
  rcases hrun : walk { session with scope := session.scope.push frame } with ⟨result, after⟩
  rcases hrun' : other { session with scope := session.scope.push frame } with ⟨result', after'⟩
  rw [hrun, hrun'] at hresult hstate
  obtain rfl : after' = after := hstate
  cases hresult with
  | ok value => exact refl (attempt _) after'
  | error hmatch => exact ⟨.error hmatch, rfl⟩

/-- Walks whose errors are placed at nodes with the same tag. -/
theorem located {place place' : Location} (htag : place'.tag = place.tag) (hplace : place.tag ≠ "")
    {walk other : Walk α} (h : Alike walk other) :
    Alike (located place walk) (Walk.located place' other) := by
  intro session
  obtain ⟨hresult, hstate⟩ := h session
  simp only [Walk.located]
  rcases hrun : walk session with ⟨result, after⟩
  rcases hrun' : other session with ⟨result', after'⟩
  rw [hrun, hrun'] at hresult hstate
  cases hresult with
  | ok value => exact ⟨.ok value, hstate⟩
  | error hmatch => exact ⟨.error (hmatch.atLocation htag hplace), hstate⟩

end Alike

/-! ### Steps that look at no location -/

section

variable {tree other : Tree} (h : tree.Alike other) (dialect : Dialect) (node : Node tree)

/-- A declared name is folded, so the spelling of its text is lost. -/
@[simp] theorem declaredName_across :
    declaredName dialect (h.across node) = declaredName dialect node := by
  simp [declaredName]

/-- Parameters are added in the same order, under the same names. -/
@[simp] theorem parameters_across (owner : BindingId) (node : Node tree) (tag : String) :
    parameters dialect owner (h.across node) tag = parameters dialect owner node tag := by
  have hadd : ∀ (parameter : Node tree) (position : Nat),
      addParameter dialect owner (h.across parameter) position =
        addParameter dialect owner parameter position := by
    intro parameter position
    simp [addParameter]
  simp [parameters, List.zipIdx_map, List.mapM_map, Function.comp_def, hadd]

/-- The same routines of a package are declared ahead. -/
@[simp] theorem hoistAll_across (package : Node tree) :
    hoistAll dialect (h.across package) = hoistAll dialect package := by
  have hhoist : ∀ routine : Node tree, hoist dialect (h.across routine) =
      hoist dialect routine := by
    intro routine
    simp [hoist]
  simp [hoistAll, List.forM_map, hhoist]

/-- Nodes that stand for each other have the same index, so the same routine was kept for them. -/
@[simp] theorem routineId_across : routineId dialect (h.across node) = routineId dialect node := by
  have htake : takeHoisted (h.across node) = takeHoisted node := by
    funext session
    simp [takeHoisted]
  simp [routineId, htake]

@[simp] theorem argumentBinding_across (argument : Node tree) (position : Nat) :
    argumentBinding dialect (h.across argument) position =
      argumentBinding dialect argument position := by
  simp [argumentBinding]

/-- An identifier reads the names around it, which are folded. -/
theorem identifier_across : identifier dialect (h.across node) = identifier dialect node := by
  have hnames : dialect.nameOf ∘ h.across = dialect.nameOf := funext (h.nameOf_across dialect)
  simp [identifier, hnames]

theorem tableName_across : tableName dialect (h.across node) = tableName dialect node := by
  simp [tableName]

/-- The clauses that are claimed stand for each other. -/
theorem claimInto_across :
    claimInto dialect (h.across node) = Option.map h.across <$> claimInto dialect node := by
  funext session
  simp only [claimInto, Tree.Alike.intoClause_across, Tree.Alike.index?_across, Functor.map]
  cases (dialect.intoClause node).index? with
  | none => rfl
  | some index =>
    dsimp only
    split <;> rfl

/-- Columns are looked up by their folded names. -/
theorem insertColumns_across (parts : Dialect.InsertParts tree) (table : BindingId) :
    insertColumns dialect (h.acrossInsert parts) table = insertColumns dialect parts table := by
  have hnames : (fun column => Text.lastSegment (dialect.nameOf column)) ∘ h.across =
      fun column => Text.lastSegment (dialect.nameOf column) := by
    funext column
    simp
  obtain ⟨name, columns, values, query⟩ := parts
  cases values <;> simp [insertColumns, Tree.Alike.acrossInsert, hnames]

end

/-! ### Rules -/

section

variable {tree other : Tree} {h : tree.Alike other} {dialect : Dialect}
  {walk : Node tree → Walk Unit} {walk' : Node other → Walk Unit} {node : Node tree}

/-- A name that must have been declared. If it is missing, the error is placed at the name itself,
    and then counts as placed in both walks, if the name has a tag. -/
theorem alike_existing (htag : node.isPresent = true → node.tag ≠ "") :
    Alike (existing dialect node) (existing dialect (h.across node)) := by
  simp only [existing, Tree.Alike.isPresent_across, Tree.Alike.nameOf_across]
  by_cases hpresent : node.isPresent = true
  · rw [if_pos hpresent, if_pos hpresent]
    refine .after _ fun found => ?_
    cases found with
    | some id => exact .refl _
    | none =>
      refine .fail ⟨?_, ?_⟩
      · simp [Error.unnumbered, Location.unnumbered]
      -- A location with a tag is known, whatever its numbers are.
      · show (h.across node).location.isUnknown = node.location.isUnknown
        rw [Error.isUnknown_of_tag, Error.isUnknown_of_tag]
        · simpa using htag hpresent
        · simpa using htag hpresent
  · rw [if_neg hpresent, if_neg hpresent]
    exact .refl _

theorem alike_existing_of_has {tag : String} (hhas : node.has tag = true) (htag : tag ≠ "") :
    Alike (existing dialect node) (existing dialect (h.across node)) :=
  alike_existing fun _ => Node.tag_of_has hhas ▸ htag

/-- As `alike_existing`, for a child that is found by its tag or absent from both trees. -/
theorem alike_existing_child {tag : String} (htag : tag ≠ "") :
    Alike (existing dialect (node.child tag)) (existing dialect ((h.across node).child tag)) := by
  rw [Tree.Alike.child_across]
  rcases node.child_cases tag with habsent | ⟨-, hhas⟩
  · rw [habsent]
    exact .refl _
  · exact alike_existing_of_has hhas htag

/-- A fetch looks for the cursor and for each target. -/
theorem alike_fetch (htagged : dialect.Tagged) :
    Alike (fetch dialect node) (fetch dialect (h.across node)) := by
  refine (alike_existing_child htagged.fetchCursor).bind fun cursor => ?_
  rw [Tree.Alike.find_across]
  refine .forM fun target htarget => ?_
  exact (alike_existing_of_has (List.mem_filter.mp htarget).2 htagged.fetchTarget).bind
    fun _ => .refl _

section

variable (hwalk : ∀ below, Alike (walk below) (walk' (h.across below)))

include hwalk

/-- Nodes in order, and those that stand for them. -/
theorem alike_nodes (nodes : List (Node tree)) :
    Alike (nodes.forM walk) ((nodes.map h.across).forM walk') :=
  .forM fun below _ => hwalk below

theorem alike_children : Alike (node.children.forM walk) ((h.across node).children.forM walk') := by
  rw [Tree.Alike.children_across]
  exact alike_nodes hwalk _

/-- A package declares its routines ahead, and then its body is visited. -/
theorem alike_package :
    Alike (package dialect walk node) (package dialect walk' (h.across node)) := by
  simp only [package, declaredName_across, hoistAll_across, Tree.Alike.packageBody_across]
  exact .after _ fun _ => .after _ fun _ => .within _ (.after _ fun _ => alike_nodes hwalk _)

/-- A routine declares its parameters in its body. -/
theorem alike_routine :
    Alike (routine dialect walk node) (routine dialect walk' (h.across node)) := by
  simp only [routine, routineId_across, parameters_across, Tree.Alike.routineBody_across]
  exact .after _ fun _ => .after _ fun _ => .within _ (.after _ fun _ => alike_nodes hwalk _)

/-- A variable, with a default value or without one. -/
theorem alike_varDeclaration :
    Alike (varDeclaration dialect walk node) (varDeclaration dialect walk' (h.across node)) := by
  simp only [varDeclaration, declaredName_across, Tree.Alike.defaultValue_across,
    Tree.Alike.isPresent_across]
  exact .after _ fun _ => .after _ fun _ => .ite (.within _ (alike_children hwalk)) (.refl _)

/-- A cursor is a body with a query inside. -/
theorem alike_cursor : Alike (cursor dialect walk node) (cursor dialect walk' (h.across node)) := by
  simp only [cursor, declaredName_across, parameters_across, Tree.Alike.cursorQuery_across]
  exact .after _ fun _ => .after _ fun _ => .after _ fun _ =>
    .within _ (.after _ fun _ => .within _ (hwalk _))

/-- An argument becomes a member of the call if this has a binding. -/
theorem alike_argument (call : Option BindingId) (position : Nat) :
    Alike (argument dialect walk call node position)
      (argument dialect walk' call (h.across node) position) := by
  simp only [argument, argumentBinding_across, Tree.Alike.argumentValue_across]
  refine .after _ fun _ => ?_
  cases call with
  | none => exact .within _ (alike_nodes hwalk _)
  | some call => exact .after _ fun _ => .within _ (alike_nodes hwalk _)

theorem alike_arguments (call : Option BindingId) :
    Alike (arguments dialect walk call node) (arguments dialect walk' call (h.across node)) := by
  simp only [arguments, Tree.Alike.argumentsOf_across, List.zipIdx_map]
  exact .forM fun item _ => alike_argument hwalk call item.2

/-- A call of a known routine, or of an unknown one, which a statement rejects. -/
theorem alike_call (statement : Bool) :
    Alike (call dialect walk statement node) (call dialect walk' statement (h.across node)) := by
  simp only [call, callOf, Tree.Alike.calledName?_across]
  refine .after _ fun name => .after _ fun found => ?_
  cases found with
  | some routine =>
    apply Alike.within
    exact .ite (.after _ fun _ => .after _ fun _ => alike_arguments hwalk _)
      (.after _ fun _ => .after _ fun _ => alike_arguments hwalk _)
  | none =>
    rw [Tree.Alike.argumentsOf_across]
    exact .ite (.refl _) (alike_nodes hwalk _)

/-- A member access, or a suffix whose parts are visited. -/
theorem alike_fieldSuffix :
    Alike (fieldSuffix dialect walk node) (fieldSuffix dialect walk' (h.across node)) := by
  simp only [fieldSuffix, Tree.Alike.child_across, Tree.Alike.isPresent_across,
    Tree.Alike.nameOf_across]
  exact .ite (.refl _) (alike_children hwalk)

theorem alike_conditional : Alike (conditional walk node) (conditional walk' (h.across node)) := by
  simp only [conditional, Tree.Alike.childAt_across, Tree.Alike.later_across]
  exact (Alike.within _ (hwalk _)).bind fun _ => alike_nodes hwalk _

/-- A loop, over rows or not. -/
theorem alike_loop : Alike (loop dialect walk node) (loop dialect walk' (h.across node)) := by
  simp only [loop, Tree.Alike.loopParts_across]
  apply Alike.within
  cases dialect.loopParts node with
  | plain body => exact alike_nodes hwalk body
  | overRows record sources body =>
    simp only [Tree.Alike.acrossLoop, Tree.Alike.isPresent_across, Tree.Alike.nameOf_across]
    exact .ite
      (.after _ fun _ => (Alike.within _ (alike_nodes hwalk _)).bind fun _ => alike_nodes hwalk _)
      (.refl _)

theorem alike_queryLevel :
    Alike (queryLevel dialect walk node) (queryLevel dialect walk' (h.across node)) := by
  simp only [queryLevel, Tree.Alike.queryParts_across]
  exact .within _ (alike_nodes hwalk _)

/-- A query, with targets of its own or without. -/
theorem alike_select (htagged : dialect.Tagged) :
    Alike (select dialect walk node) (select dialect walk' (h.across node)) := by
  -- The clause is moved to the other tree after it is claimed and not before.
  rw [select, select, claimInto_across, bind_map_left]
  refine .after _ fun claimed => ?_
  cases claimed with
  | none => exact alike_queryLevel hwalk
  | some clause =>
    simp only [Option.map_some, Tree.Alike.intoTargets_across]
    have htargets : Alike ((dialect.intoTargets clause).mapM (existing dialect))
        (((dialect.intoTargets clause).map h.across).mapM (existing dialect)) :=
      .mapM fun target htarget =>
        alike_existing_of_has (List.mem_filter.mp htarget).2 htagged.intoTarget
    exact htargets.bind fun _ => .within _ (alike_queryLevel hwalk)

/-- Named subqueries, each declared after its body. -/
theorem alike_withClause :
    Alike (withClause dialect walk node) (withClause dialect walk' (h.across node)) := by
  simp only [withClause, Tree.Alike.namedQueries_across]
  refine .forM fun query _ => ?_
  simp only [namedQuery, Tree.Alike.acrossNamed, Tree.Alike.isPresent_across,
    Tree.Alike.nameOf_across]
  exact .ite
    (.after _ fun _ => (Alike.within _ (alike_nodes hwalk _)).bind fun _ => .refl _) (.refl _)

/-- An element of a select list, with an alias or without one. -/
theorem alike_element (item : Dialect.Element tree) (position : Nat) :
    Alike (element dialect walk item position)
      (element dialect walk' (h.acrossElement item) position) := by
  simp only [element, Tree.Alike.acrossElement, Tree.Alike.isPresent_across,
    Tree.Alike.nameOf_across]
  split
  · exact .after _ fun _ => .after _ fun _ =>
      (Alike.within _ (alike_nodes hwalk _)).bind fun _ => .refl _
  · exact (alike_nodes hwalk _).bind fun _ => .refl _

theorem alike_selectList :
    Alike (selectList dialect walk node) (selectList dialect walk' (h.across node)) := by
  simp only [selectList, Tree.Alike.elements_across, List.zipIdx_map]
  exact .within _ (.forM fun item _ => alike_element hwalk item.1 item.2)

/-- An operator counts the operators before it by their tags. -/
theorem alike_setOperation :
    Alike (setOperation dialect walk node) (setOperation dialect walk' (h.across node)) := by
  simp only [setOperation, Tree.Alike.standsBetweenArms_across, Tree.Alike.tag_across,
    Tree.Alike.earlierTagged_across, List.isEmpty_map]
  split
  · split
    · exact .after _ fun _ => .after _ fun _ => alike_children hwalk
    · exact .after _ fun _ => alike_children hwalk
  · exact .after _ fun _ => alike_children hwalk

/-- Values are paired with columns by position. -/
theorem alike_insertValues (values : List (Node tree)) (columns : List BindingId) (table : String) :
    Alike (insertValues walk values columns table)
      (insertValues walk' (values.map h.across) columns table) := by
  simp only [insertValues, List.length_map]
  refine .ite ?_ (.refl _)
  -- Only the values are moved to the other tree, so the pairs are a map of pairs.
  rw [← List.map_id columns, List.zip_map, List.map_id]
  exact .forM fun item _ => .within _ (hwalk item.1)

/-- An insert of values, or of the rows of a query. -/
theorem alike_insert : Alike (insert dialect walk node) (insert dialect walk' (h.across node)) := by
  simp only [insert, Tree.Alike.insertParts_across, insertColumns_across]
  simp only [Tree.Alike.acrossInsert, Tree.Alike.isPresent_across, Tree.Alike.nameOf_across]
  refine .ite (.after _ fun table => .after _ fun columns => ?_) (.refl _)
  cases (dialect.insertParts node).values with
  | some values => exact alike_insertValues hwalk values columns _
  | none => exact .ite (.within _ (hwalk _)) (.refl _)

/-- A rule does the same with nodes that stand for each other, if so do the visits below. -/
theorem alike_ofRule (htagged : dialect.Tagged) {rule : Rule}
    (hrule : dialect.rule? node.tag = some rule) :
    Alike (apply dialect walk node rule) (apply dialect walk' (h.across node) rule) := by
  cases rule with
  | skip => exact .refl _
  | package => exact alike_package hwalk
  | routine => exact alike_routine hwalk
  | varDeclaration => exact alike_varDeclaration hwalk
  | cursor => exact alike_cursor hwalk
  | callStatement => exact alike_call hwalk true
  | functionCall => exact alike_call hwalk false
  | identifier =>
    rw [apply, apply, identifier_across]
    exact .refl _
  | reference =>
    refine (alike_existing fun _ hempty => ?_).bind fun _ => .refl _
    rw [hempty, htagged.rule] at hrule
    -- The node has a rule, so its tag is not empty.
    cases hrule
  | fieldChain => exact .within _ (alike_children hwalk)
  | fieldSuffix => exact alike_fieldSuffix hwalk
  | returnStatement => exact .after _ fun _ => .within _ (alike_children hwalk)
  | assignment => exact .within _ (alike_children hwalk)
  | fetch => exact alike_fetch htagged
  | conditional => exact alike_conditional hwalk
  | loop => exact alike_loop hwalk
  | select => exact alike_select hwalk htagged
  | withClause => exact alike_withClause hwalk
  | selectList => exact alike_selectList hwalk
  | insert => exact alike_insert hwalk
  | tableName =>
    rw [apply, apply, tableName_across]
    exact .refl _
  | effect => exact .within _ (alike_children hwalk)
  | setOperation => exact alike_setOperation hwalk

end

end

/-! ### Visits -/

/-- Whatever error the walk ends with takes no further location. -/
def Placed (walk : Walk α) : Prop :=
  ∀ session error, (walk session).1 = .error error → error.isUnplaced = false

/-- A walk whose errors are placed does not heed a further location. -/
theorem located_of_placed {walk : Walk α} (h : Placed walk) (place : Location) :
    located place walk = walk := by
  funext session
  simp only [located]
  rcases hrun : walk session with ⟨error | value, after⟩
  · show (Except.error (error.atLocation place), after) = (.error error, after)
    rw [Error.atLocation_of_placed (h session error (by rw [hrun]))]
  · rfl

/-- A walk that places its errors at a node with a tag. -/
theorem placed_located (walk : Walk α) {place : Location} (h : place.tag ≠ "") :
    Placed (located place walk) := by
  intro session error herror
  simp only [located] at herror
  rcases hrun : walk session with ⟨cause | value, after⟩
  · rw [hrun] at herror
    obtain rfl : cause.atLocation place = error := Except.error.inj herror
    exact cause.placed_atLocation h
  · rw [hrun] at herror
    cases herror

section

variable {tree other : Tree} {dialect : Dialect}

/-- A node with a rule has a tag. -/
theorem tag_ne_empty (htagged : dialect.Tagged) {node : Node tree} {rule : Rule}
    (hrule : dialect.rule? node.tag = some rule) : node.location.tag ≠ "" := by
  rw [Node.tag_location]
  intro hempty
  rw [hempty, htagged.rule] at hrule
  cases hrule

/-- What visits the children of a node without a rule ends with errors that are placed, if
    the visits do. -/
theorem placed_children {walk : Node tree → Walk Unit} (h : ∀ node, Placed (walk node))
    (nodes : List (Node tree)) (note : Session → Session) :
    Placed (change note >>= fun _ => nodes.forM walk) :=
  Fails.bind (Fails.of_ok fun _ => ⟨(), rfl⟩) fun _ => Fails.forM fun node _ => h node

/-- An error that leaves a visit is placed. -/
theorem placed_visit (htagged : dialect.Tagged) (levels : Nat) (node : Node tree) :
    Placed (visit dialect levels node) := by
  induction levels generalizing node with
  | zero =>
    intro session error herror
    cases herror
  | succ levels ih =>
    cases node with
    | absent =>
      intro session error herror
      cases herror
    | present index =>
      rw [visit]
      cases hrule : dialect.rule? (Node.present index).tag with
      | some rule => exact placed_located _ (tag_ne_empty htagged hrule)
      | none =>
        -- No rule raises an error here, and those from below are placed already.
        have hchildren := placed_children ih (Node.present index).children
          (fun session => { session with visited := index :: session.visited })
        rw [located_of_placed hchildren]
        exact hchildren

/-- Visits of nodes that stand for each other. -/
theorem alike_visit (h : tree.Alike other) (htagged : dialect.Tagged) (levels : Nat)
    (node : Node tree) :
    Alike (visit dialect levels node) (visit dialect levels (h.across node)) := by
  induction levels generalizing node with
  | zero => exact .refl _
  | succ levels ih =>
    cases node with
    | absent => exact .refl _
    | present index =>
      have htag := h.tag_across (.present index)
      show Alike (visit dialect (levels + 1) (.present index))
        (visit dialect (levels + 1) (.present (index.cast h.size_eq)))
      rw [visit, visit]
      change (Node.present (index.cast h.size_eq)).tag = _ at htag
      rw [htag]
      cases hrule : dialect.rule? (Node.present index).tag with
      | some rule =>
        refine .located ?_ (tag_ne_empty htagged hrule)
          (.after _ fun _ => alike_ofRule ih htagged hrule)
        rw [Node.tag_location, Node.tag_location, htag]
      | none =>
        -- A node without a rule raises no error of its own, and those of its children are placed.
        have hplaced {tree : Tree} (node : Node tree) : Placed (visit dialect levels node) :=
          placed_visit htagged levels node
        rw [located_of_placed (placed_children hplaced _ _),
          located_of_placed (placed_children hplaced _ _)]
        have hchildren : Alike ((Node.present index).children.forM (visit dialect levels))
            ((h.across (.present index)).children.forM (visit dialect levels)) := alike_children ih
        exact .after _ fun _ => hchildren

end

end Walk

/-! ### Schemas -/

/-- The columns are the same but for the case of ASCII letters in their names. -/
structure Column.Alike (column other : Column) : Prop where
  name : Text.SameLetters other.name column.name
  comment : other.comment = column.comment

/-- The relations are the same but for the case of ASCII letters in their names and those of
    their columns. -/
structure Relation.Alike (relation other : Relation) : Prop where
  name : Text.SameLetters other.name relation.name
  type : other.type = relation.type
  comment : other.comment = relation.comment
  columns : List.Forall₂ Column.Alike relation.columns other.columns

/-- A schema keeps folded names, so relations that read alike become the same. -/
theorem Relation.Alike.folded_eq {relation other : Relation} (h : relation.Alike other) :
    other.folded = relation.folded := by
  have hcolumns : ∀ {columns others : List Column}, List.Forall₂ Column.Alike columns others →
      (others.map fun column => { column with name := fold column.name }) =
        columns.map fun column => { column with name := fold column.name } := by
    intro columns others hcolumns
    induction hcolumns with
    | nil => rfl
    | cons hhead _ ih =>
      rw [List.map_cons, List.map_cons, fold_eq_of_sameLetters hhead.name, hhead.comment, ih]
  simp only [Relation.folded, hcolumns h.columns, fold_eq_of_sameLetters h.name, h.type, h.comment]

/-- Relations that read alike make up the same schema. -/
theorem Schema.ofRelations_of_alike {relations others : List Relation}
    (h : List.Forall₂ Relation.Alike relations others) :
    ofRelations others = ofRelations relations := by
  have hfold : ∀ known : Schema, others.foldl add known = relations.foldl add known := by
    induction h with
    | nil => exact fun _ => rfl
    | cons hhead _ ih =>
      intro known
      rw [List.foldl_cons, List.foldl_cons, ih, add, add]
      simp only [hhead.folded_eq]
  exact hfold empty

/-! ### Analyses -/

/-- Documents that read alike are analyzed alike against relations that do: both analyses succeed
    with the same bindings and the same roots, or both fail with errors that differ at most in
    line and column. -/
theorem analyze_alike {document other : Document} {relations others : List Relation}
    (hdocument : document.Alike other) (hrelations : List.Forall₂ Relation.Alike relations others)
    (grammar : Grammar) :
    (analyze (.ofDocument other) grammar.dialect (.ofRelations others)).mapError Error.unnumbered =
      (analyze (.ofDocument document) grammar.dialect (.ofRelations relations)).mapError
        Error.unnumbered := by
  have htree := Tree.alike_ofDocument hdocument
  have hvisit := Walk.alike_visit htree grammar.tagged (Tree.ofDocument document).size
    (Tree.ofDocument document).root (.ofSchema (.ofRelations relations))
  rw [htree.root_across] at hvisit
  simp only [analyze, Walk.visitTree, Schema.ofRelations_of_alike hrelations]
  rw [← htree.size_eq]
  obtain ⟨hresult, hstate⟩ := hvisit
  -- From here on only the two outcomes matter, and no longer how they came about.
  generalize Walk.visit grammar.dialect _ (Tree.ofDocument document).root _ =
    run at hresult hstate ⊢
  generalize Walk.visit grammar.dialect _ (Tree.ofDocument other).root _ = run' at hresult hstate ⊢
  obtain ⟨result, after⟩ := run
  obtain ⟨result', after'⟩ := run'
  obtain rfl : after' = after := hstate
  cases hresult with
  | ok value => rfl
  | error hmatch => exact congrArg Except.error hmatch.unnumbered

/-- An insert into a table, on a line. -/
def stored (table : String) (line : Nat) : Document :=
  .node ⟨"single_table_insert", none, some line, none⟩
    [.inner "insert_into_clause"
       [.inner "tableview_name" [.node ⟨"id_expression", some table, none, some line⟩ []]],
     .inner "values_clause" [.inner "expressions" [.inner "expression" []]]]

/-- Two inserts, the one on the line after the other. -/
def storedTwice (first second : String) (line : Nat) : Document :=
  .inner "sql_script" [stored first line, stored second (line + 1)]

/-- Inserts in capitals and in small letters, on different lines, into a table of the schema. -/
theorem analyze_alike_storedTwice :
    let shouted := analyze (.ofDocument (storedTwice "W" " w" 1)) .plsql
      (.ofRelations [⟨"W", .table, none, [⟨"X", none⟩]⟩])
    let spoken := analyze (.ofDocument (storedTwice "w" " W" 7)) .plsql
      (.ofRelations [⟨"w", .table, none, [⟨"x", none⟩]⟩])
    (storedTwice "W" " w" 1).Alike (storedTwice "w" " W" 7) ∧
      Relation.Alike ⟨"W", .table, none, [⟨"X", none⟩]⟩ ⟨"w", .table, none, [⟨"x", none⟩]⟩ ∧
      (shouted.toOption.map fun analysis => analysis.graph.ids.map analysis.graph.name) =
        some ["w", "x"] ∧
      spoken.mapError Error.unnumbered = shouted.mapError Error.unnumbered := by
  have hdocument : (storedTwice "W" " w" 1).Alike (storedTwice "w" " W" 7) := by
    have hstored : ∀ {table table' : String} (line line' : Nat), Text.SameLetters table' table →
        (stored table line).Alike (stored table' line') := fun _ _ htable =>
      .node ⟨rfl, rfl⟩
        (.cons (.node ⟨rfl, rfl⟩
          (.cons (.node ⟨rfl, rfl⟩ (.cons (.node ⟨rfl, htable⟩ .nil) .nil)) .nil))
          (.cons (.node ⟨rfl, rfl⟩
            (.cons (.node ⟨rfl, rfl⟩ (.cons (.node ⟨rfl, rfl⟩ .nil) .nil)) .nil)) .nil))
    exact .node ⟨rfl, rfl⟩ (.cons (hstored 1 7 (by decide)) (.cons (hstored 2 8 (by decide)) .nil))
  have hrelation : Relation.Alike ⟨"W", .table, none, [⟨"X", none⟩]⟩
      ⟨"w", .table, none, [⟨"x", none⟩]⟩ :=
    ⟨by decide, rfl, rfl, .cons ⟨by decide, rfl⟩ .nil⟩
  exact ⟨hdocument, hrelation, by decide +kernel,
    analyze_alike hdocument (.cons hrelation .nil) .plsql⟩

end Lineage
