import Lineage.Proofs.Scope.Tables
import Lineage.Proofs.Walk.Discipline
import Lineage.Proofs.Walk.Invariants
import Lineage.Proofs.Walk.Steps

/-!
# One table for each name in every run

Whatever a document refers to and in whatever order, no name ever stands for two global tables. Most
steps do not touch the outermost level or declare something that is no table there, and references
look for a table of the name first. Two rules declare a record without looking: that of a loop,
which does so in a body of its own, and that of a clause with named subqueries. The latter stands in
a query, whose level takes the record.

## Key results

- `upholds_keepsTables`: scripts whose quiet steps keep the tables of one name the same
- `tables_visitMoments`: all moments of a visit
- `tables_are_shared`: at most one global table has a name, it stays, and references give it
-/

namespace Lineage

/-- At the outermost level all tables of one name are the same. -/
def Session.Tables (session : Session) : Prop :=
  session.scope.Tables

/-! ### Clauses with named subqueries -/

namespace Dialect

variable {tree : Tree} {dialect : Dialect}

/-- Clauses with named subqueries stand in queries only. -/
def WithInQueries (dialect : Dialect) (tree : Tree) : Prop :=
  ∀ node : Node tree, dialect.binds node .withClause = true →
    dialect.binds node.parent .select = true

instance : Decidable (dialect.WithInQueries tree) :=
  inferInstanceAs (Decidable (∀ _, _))

/-- Clauses with named subqueries have one tag, and clauses with sources another one. -/
structure NamesSubqueries (dialect : Dialect) : Prop where
  tag : ∀ tag, dialect.rule? tag = some .withClause → tag = dialect.vocabulary.queries.withClause
  sources : dialect.vocabulary.queries.fromClause ≠ dialect.vocabulary.queries.withClause

/-- A query visits just one clause with named subqueries. -/
theorem NamesSubqueries.binds_part (h : dialect.NamesSubqueries) {query part : Node tree}
    (hpart : part ∈ query.child dialect.vocabulary.queries.fromClause :: dialect.queryBody query) :
    dialect.binds part .withClause = false := by
  rw [← Bool.not_eq_true]
  intro hclause
  simp only [binds, Bool.and_eq_true, beq_iff_eq] at hclause
  have htag := h.tag part.tag hclause.2
  -- The clause with sources has another tag, and the rest of the query leaves this tag out.
  rcases List.mem_cons.mp hpart with rfl | hbody
  · rcases Node.child_cases query dialect.vocabulary.queries.fromClause with habsent | ⟨_, hhas⟩
    · simp [habsent, Node.isPresent] at hclause
    · exact h.sources ((Node.tag_of_has hhas).symm.trans htag)
  · have hhas : part.has dialect.vocabulary.queries.withClause = true := by
      simp [Node.has, hclause.1, htag]
    simp [queryBody, hhas] at hbody

end Dialect

theorem Grammar.namesSubqueries (grammar : Grammar) : grammar.dialect.NamesSubqueries := by
  have hlisted : ∀ entry ∈ grammar.dialect.rules, entry.2 = .withClause →
      entry.1 = grammar.dialect.vocabulary.queries.withClause := by cases grammar <;> decide
  exact ⟨fun tag hrule => hlisted _ (Dialect.mem_rules_of_rule? hrule) rfl,
    by cases grammar <;> decide⟩

/-! ### Levels that take declarations -/

/-- The innermost level is a body or a query, which takes all declarations that are not global. -/
def Scope.Sheltered (scope : Scope) : Prop :=
  scope.words.head? = some "lexical" ∨ scope.words.head? = some "select"

namespace Scope

variable {scope : Scope} {id : BindingId}

theorem words_declare (scope : Scope) (id : BindingId) :
    (scope.declare id).words = scope.words := by
  rw [← map_role_cores, ← map_role_cores, cores_declare]

/-- What the innermost level takes does not reach the root. -/
theorem Sheltered.root_declare (h : scope.Sheltered)
    (hkind : (scope.graph.kind id).isGlobal = false) : (scope.declare id).root = scope.root := by
  obtain ⟨frame, rest, hframes⟩ : ∃ frame rest, scope.frames = frame :: rest := by
    cases hframes : scope.frames with
    | nil => simp [Sheltered, words, hframes] at h
    | cons frame rest => exact ⟨frame, rest, rfl⟩
  -- A declaration goes outward until a level takes it, and here the first one does.
  have htaken : (frame.declare? scope.graph id).isSome = true := by
    simp only [Sheltered, words, hframes, List.map_cons, List.head?_cons, Option.some.injEq] at h
    cases frame with
    | lexical catalog owner =>
      simp only [Frame.declare?, hkind, Bool.false_eq_true, if_false]
      split
      · split <;> rfl
      · rfl
    | select query => simp [Frame.declare?, hkind]
    | _ => simp [Frame.role] at h
  obtain ⟨declared, hdeclared⟩ := Option.isSome_iff_exists.mp htaken
  simp only [declare, hframes, declareAmong?, hdeclared]

theorem Sheltered.of_words {after : Scope} (h : scope.Sheltered)
    (hwords : after.words = scope.words) : after.Sheltered := by
  rwa [Sheltered, hwords]

theorem Sheltered.root_declareNew {binding : Binding} (h : scope.Sheltered)
    (hkind : binding.kind.isGlobal = false) : (scope.declareNew binding).2.root = scope.root := by
  have hadded : (scope.add binding).2.Sheltered := h
  refine hadded.root_declare ?_
  rwa [kind_add]

/-- Parameters are declared where the innermost level takes them. -/
theorem Sheltered.root_declareAll {ids : List BindingId} (h : scope.Sheltered)
    (hids : ∀ id ∈ ids, scope.graph.contains id = true ∧ scope.graph.kind id = .parameter) :
    (ids.foldl Scope.declare scope).root = scope.root := by
  induction ids generalizing scope with
  | nil => rfl
  | cons id rest ih =>
    -- Declaring one parameter leaves the level on top and the kinds of the others.
    have hgrows := scope.grows_declare id
    refine (ih (h.of_words (scope.words_declare id)) fun other hother => ?_).trans
      (h.root_declare ?_)
    · obtain ⟨hcontains, hkind⟩ := hids other (List.mem_cons_of_mem _ hother)
      exact ⟨hgrows.contains hcontains, (hgrows.kind hcontains).trans hkind⟩
    · rw [(hids id List.mem_cons_self).2]
      rfl

end Scope

namespace Walk

variable {α β ι : Type}

/-! ### Walks that keep the tables of one name the same -/

/-- Where all tables of one name are the same, they are so after the walk. -/
def KeepsTables (walk : Walk α) : Prop :=
  ∀ session : Session, session.scope.Tables → (walk session).2.scope.Tables

namespace KeepsTables

theorem pure (value : α) : KeepsTables (Pure.pure value) := fun _ h => h

theorem fail (error : Error) : KeepsTables (Walk.fail error : Walk α) := fun _ h => h

theorem read (look : Session → α) : KeepsTables (Walk.read look) := fun _ h => h

theorem require (found : Option α) (error : Error) : KeepsTables (Walk.require found error) := by
  cases found with
  | none => exact fail error
  | some value => exact pure value

theorem onScope {step : Scope → α × Scope}
    (h : ∀ scope : Scope, scope.Tables → (step scope).2.Tables) : KeepsTables (Walk.onScope step) :=
  fun session htables => h session.scope htables

theorem changeScope {step : Scope → Scope}
    (h : ∀ scope : Scope, scope.Tables → (step scope).Tables) :
    KeepsTables (Walk.changeScope step) := fun session htables => h session.scope htables

theorem bind {first : Walk α} {next : α → Walk β} (hfirst : KeepsTables first)
    (hnext : ∀ value, KeepsTables (next value)) : KeepsTables (first >>= next) :=
  fun session htables =>
  Stateful.state_bind (fun after : Session => after.scope.Tables) (hfirst session htables)
    (fun _ h => h) hnext

end KeepsTables

theorem keepsTables_add (binding : Binding) : KeepsTables (add binding) :=
  .onScope fun _ htables => htables.add binding

theorem keepsTables_declare {binding : Binding} (hkind : binding.kind.isSource = false) :
    KeepsTables (declare binding) :=
  .onScope fun _ htables => htables.declareNew hkind

variable {tree : Tree} {dialect : Dialect} {node : Node tree} {rule : Rule}

/-- Most rules keep the tables with each of their steps; four declare something without looking for
    a table first. -/
theorem StepsOf.keepsTables {walk : Walk α} (h : StepsOf dialect node rule walk)
    (hrule : rule ∉ [.routine, .cursor, .loop, .withClause]) : KeepsTables walk := by
  induction h with
  | pure value => exact .pure value
  | bind _ _ ihfirst ihnext => exact .bind ihfirst ihnext
  | read look => exact .read look
  | fail | missing => exact .fail _
  | add binding => exact keepsTables_add binding
  | declare name hkind =>
    have hkinds : ∀ kind ∈ rule.declaredKinds, kind.isSource = false := by
      cases rule <;> simp at hrule <;> decide
    exact keepsTables_declare (hkinds _ hkind)
  | declareAll _ howner => rcases howner with rfl | rfl <;> simp at hrule
  | declareQuery _ hclause => simp [hclause] at hrule
  | addChild parent child =>
    exact .changeScope fun _ htables => htables.of_root (.addChild parent child .refl) rfl
  | addOutput source target =>
    exact .changeScope fun _ htables => htables.of_root (.addOutput source target .refl) rfl
  | dottedReference qualifiers name =>
    exact .onScope fun _ htables => htables.dottedReference qualifiers name
  | memberAccess name =>
    refine .onScope fun scope htables => ?_
    cases chainHead? scope with
    | none => exact htables.add _
    | some head => exact htables.childOrInsert head name .field
  | table name => exact .onScope fun _ htables => htables.table name
  | insertTarget name => exact .onScope fun _ htables => htables.insertTarget name
  | columnsNamed table names => exact .onScope fun _ htables => htables.columnsNamed table names
  | renameSource relation name =>
    refine .changeScope fun scope htables =>
      htables.of_root ?_ (scope.root_renameSource? relation name)
    rw [Scope.graph_renameSource?]
    exact .refl
  | keepHoisted => exact fun _ htables => htables
  | takeHoisted hroutine => simp [hroutine] at hrule
  | claimInto =>
    intro session htables
    simp only [Walk.claimInto]
    split
    · exact htables
    · split <;> exact htables

variable (dialect) {session after : Session}

theorem keepsTables_declaredName (node : Node tree) : KeepsTables (declaredName dialect node) :=
  .require _ _

theorem keepsTables_parameters (owner : BindingId) (node : Node tree) (tag : String) :
    KeepsTables (parameters dialect owner node tag) := by
  -- The rule of packages adds parameters too, and it keeps the tables.
  have hsteps : StepsOf dialect node .package (parameters dialect owner node tag) :=
    .parameters (by decide) owner node tag
  exact hsteps.keepsTables (by decide)

theorem keepsTables_routineId (node : Node tree) : KeepsTables (routineId dialect node) := by
  have htake : KeepsTables (takeHoisted node) := by
    intro session htables
    unfold takeHoisted
    split <;> exact htables
  refine htake.bind fun hoisted => ?_
  cases hoisted with
  | some id => exact .pure id
  | none => exact (keepsTables_declaredName dialect node).bind fun _ => keepsTables_declare rfl

/-- All of the ids are those of parameters. -/
def Parameters (ids : List BindingId) (session : Session) : Prop :=
  ∀ id ∈ ids, session.scope.graph.contains id = true ∧ session.scope.graph.kind id = .parameter

theorem Parameters.grow {ids : List BindingId} (h : Parameters ids session)
    (hgrows : session.scope.graph.Grows after.scope.graph) : Parameters ids after := by
  intro id hid
  obtain ⟨hcontains, hkind⟩ := h id hid
  exact ⟨hgrows.contains hcontains, (hgrows.kind hcontains).trans hkind⟩

theorem parameters_addParameter {owner id : BindingId} {parameter : Node tree} {position : Nat}
    (h : addParameter dialect owner parameter position session = (.ok id, after)) :
    Parameters [id] after := by
  obtain ⟨name, named, _, hrest⟩ := Stateful.exists_of_bind h
  obtain ⟨new, added, hadd, hrest⟩ := Stateful.exists_of_bind hrest
  obtain ⟨⟨⟩, linked, hlink, hrest⟩ := Stateful.exists_of_bind hrest
  cases hadd
  cases hlink
  cases hrest
  have hnew : Parameters [named.scope.graph.nextId]
      { named with scope := (named.scope.add
        ((Binding.ofName name .parameter).withPosition position)).2 } := by
    intro id hid
    rw [List.mem_singleton.mp hid]
    exact ⟨named.scope.graph.contains_push_nextId _, Scope.kind_add _ _⟩
  exact hnew.grow (.addChild owner _ .refl)

/-- The parameters of a routine or cursor are parameters, whether it has them already or
    gets them now. -/
theorem parameters_parameters {owner : BindingId} {tag : String} {ids : List BindingId}
    (h : parameters dialect owner node tag session = (.ok ids, after)) : Parameters ids after := by
  have hadded : ∀ (items : List (Node tree × Nat)) ids session after,
      items.mapM (fun item => addParameter dialect owner item.1 item.2) session = (.ok ids, after) →
        Parameters ids after := by
    intro items
    induction items with
    | nil =>
      intro ids session after hrun
      cases hrun
      simp [Parameters]
    | cons item rest ih =>
      intro ids session after hrun
      rw [List.mapM_cons] at hrun
      obtain ⟨id, first, hfirst, hrun⟩ := Stateful.exists_of_bind hrun
      obtain ⟨others, last, hothers, hrun⟩ := Stateful.exists_of_bind hrun
      cases hrun
      -- The first parameter is still one after the others are added.
      have hgrows : first.scope.graph.Grows after.scope.graph := by
        have hquiet := Quiet.mapM rest fun item => quiet_addParameter dialect owner item.1 item.2
        have hlearns := (hquiet.learns first).grows
        rwa [hothers] at hlearns
      have hid := (parameters_addParameter dialect hfirst).grow hgrows
      exact List.forall_mem_cons.mpr ⟨hid id (List.mem_singleton_self id),
        ih others first after hothers⟩
  obtain ⟨known, middle, hread, hrest⟩ := Stateful.exists_of_bind h
  cases hread
  split at hrest
  · exact hadded _ ids session after hrest
  · cases hrest
    intro id hid
    obtain ⟨_, hkind⟩ := List.mem_filter.mp hid
    refine ⟨?_, eq_of_beq hkind⟩
    -- What does not exist counts as a field.
    by_contra hnot
    rw [Graph.kind, Graph.get_of_not_contains (by simpa using hnot)] at hkind
    simp [Binding.blank] at hkind

/-! ### Scripts -/

namespace Script

variable {dialect}

/-- All quiet steps of the script keep the tables of one name the same. -/
def KeepsTables : {α : Type} → Script tree α → Prop
  | _, quiet walk _ => Walk.KeepsTables walk
  | _, within _ body => body.KeepsTables
  | _, andThen first next => first.KeepsTables ∧ ∀ value, (next value).KeepsTables
  | _, _ => True

theorem StepsOf.keepsTables {script : Script tree α} (h : script.StepsOf dialect node rule)
    (hrule : rule ∉ [.routine, .cursor, .loop, .withClause]) : script.KeepsTables := by
  induction script with
  | quiet walk _ => exact Walk.StepsOf.keepsTables h hrule
  | within frame body ih => exact ih h.2
  | andThen first next ihfirst ihnext => exact ⟨ihfirst h.1, fun value => ihnext value (h.2 value)⟩
  | _ => trivial

/-- The rules that do not declare a table without looking for it. -/
theorem keepsTables_ofRule (node : Node tree) (h : rule ∉ [.routine, .cursor, .loop, .withClause]) :
    (ofRule dialect node rule).KeepsTables :=
  (stepsOf_ofRule dialect node rule).keepsTables h

/-! ### Moments -/

/-- The record exists, and the innermost level takes it. -/
structure Declarable (id : BindingId) (session : Session) : Prop where
  sheltered : session.scope.Sheltered
  contains : session.scope.graph.contains id = true
  kind : session.scope.graph.kind id = .record

theorem Declarable.keep {id : BindingId} {session after : Session} (h : Declarable id session)
    (hwords : after.scope.words = session.scope.words)
    (hgrows : session.scope.graph.Grows after.scope.graph) : Declarable id after :=
  ⟨h.sheltered.of_words hwords, hgrows.contains h.contains, (hgrows.kind h.contains).trans h.kind⟩

section

variable {levels : Nat} {node : Node tree} {pre : Session → Prop}

theorem tables_unwind (height : Nat) (finish : Bool) (session : Session) (h : session.Tables) :
    { session with scope := (session.scope.unwind height finish).2 }.Tables :=
  Scope.Tables.of_root h (session.scope.grows_unwind height finish)
    (session.scope.root_unwind height finish)

theorem tables_push (frame : Frame) (session : Session) (h : session.Tables) :
    { session with scope := session.scope.push frame }.Tables :=
  Scope.Tables.of_root h .refl rfl

theorem upholds_quiet {walk : Walk α} {hquiet : Quiet walk} (h : Walk.KeepsTables walk) :
    (Script.quiet walk hquiet : Script tree α).Upholds dialect levels Session.Tables pre
      fun _ _ => True :=
  .of_step (fun _ => rfl) (fun session htables _ => h session htables) fun _ _ _ _ _ _ => trivial

theorem upholds_parameters (owner : BindingId) (node : Node tree) (tag : String) :
    (Script.quiet _ (quiet_parameters dialect owner node tag) : Script tree _).Upholds dialect
      levels Session.Tables pre Parameters :=
  .of_step (fun _ => rfl) (fun session h _ =>
    keepsTables_parameters dialect owner node tag session h)
    fun _ _ _ _ _ hrun => parameters_parameters dialect hrun

theorem upholds_closeArm :
    (Script.closeArm : Script tree Unit).Upholds dialect levels Session.Tables pre
    fun _ _ => True :=
  .of_step (fun _ => rfl)
    (fun session h _ => Scope.Tables.of_root h (grows_closeArm session) (root_closeArm session))
    fun _ _ _ _ _ _ => trivial

theorem upholds_nextArm (queries : Nat) :
    (Script.nextArm queries : Script tree Unit).Upholds dialect levels
    Session.Tables pre fun _ _ => True := by
  refine .of_step (fun _ => rfl) (fun session h _ => ?_) fun _ _ _ _ _ _ => trivial
  have hgraph := graph_nextArm queries session
  exact Scope.Tables.of_root h (hgraph ▸ .refl) (root_nextArm queries session)

/-- Parameters are declared in the body of their owner. -/
theorem upholds_declareParameters {owner : Option BindingId} {ids : List BindingId}
    {rest : Script tree Unit}
    (hrest : rest.Upholds dialect levels Session.Tables (fun _ => True) fun _ _ => True) :
    (Script.within (.body owner) (do
      Script.quiet _ (quiet_declareAll ids)
      rest)).Upholds dialect levels Session.Tables (Parameters ids) fun _ _ => True := by
  refine .within (fun session => session.scope.Sheltered ∧ Parameters ids session)
    tables_unwind ?_ ?_ fun _ _ _ _ _ _ => trivial
  · exact fun session h hids => ⟨tables_push _ session h, .inl rfl, hids⟩
  · -- Nothing is visited between opening the body and declaring, so the body takes the parameters.
    refine .bind (.of_step (fun _ => rfl) (fun session h hpre => ?_) fun _ _ _ _ _ _ => trivial)
      fun _ => hrest
    exact Scope.Tables.of_root h (session.scope.learns_declareAll ids).grows
      (hpre.1.root_declareAll hpre.2)

variable (hbelow : ∀ below : Node tree, Plain dialect node below → ∀ session : Session,
  session.Tables → ∀ moment ∈ visitMoments dialect levels below session, moment.Tables)

include hbelow

theorem upholds_visits {nodes : List (Node tree)}
    (hnodes : ∀ below ∈ nodes, Plain dialect node below) :
    (Script.visits nodes).Upholds dialect levels Session.Tables pre fun _ _ => True := by
  have hvisits : (Script.visits nodes).Upholds dialect levels Session.Tables (fun _ => True)
      fun _ _ => True :=
    Upholds.visits (fun below hmem session h _ => hbelow below (hnodes below hmem) session h)
      fun _ _ _ _ _ _ _ => trivial
  exact hvisits.imp (fun _ _ => trivial) fun _ _ _ => trivial

/-- A script whose quiet steps keep the tables of one name the same does so at all its moments. -/
theorem upholds_keepsTables {arms : List (Node tree) → Prop}
    (harms : ∀ parts, arms parts →
      (Script.query parts).Upholds dialect levels Session.Tables (fun _ => True) fun _ _ => True)
    {script : Script tree α} {listed : Bool} (huses : script.Uses (Plain dialect node) arms listed)
    (hkeeps : script.KeepsTables) :
    script.Upholds dialect levels Session.Tables (fun _ => True) fun _ _ => True := by
  induction script generalizing listed with
  | quiet walk _ => exact upholds_quiet hkeeps
  | send id =>
    refine .of_step (fun _ => rfl) (fun session h _ => ?_) fun _ _ _ _ _ _ => trivial
    exact Scope.Tables.of_root h (Scope.grows_receiveAll [id] session.scope)
      (Scope.root_receiveAll [id] session.scope)
  | flush position =>
    refine .of_step (fun _ => rfl) (fun session h _ => ?_) fun _ _ _ _ _ _ => trivial
    exact Scope.Tables.of_root h (session.scope.grows_flushElement position)
      (session.scope.root_flushElement position)
  | closeArm => exact upholds_closeArm
  | nextArm queries => exact upholds_nextArm queries
  | visits nodes => exact upholds_visits hbelow huses
  | query parts => exact harms parts huses
  | within frame body ih =>
    exact .within (fun _ => True) tables_unwind
      (fun session h _ => ⟨tables_push frame session h, trivial⟩) (ih huses hkeeps)
      fun _ _ _ _ _ _ => trivial
  | andThen first next ihfirst ihnext =>
    exact .bind (ihfirst huses.1 hkeeps.1) fun value =>
      ihnext value (huses.2 value) (hkeeps.2 value)

/-- A routine declares its parameters in its own body. -/
theorem upholds_routine {arms : List (Node tree) → Prop}
    (huses : (routine dialect node).Uses (Plain dialect node) arms false) :
    (routine dialect node).Upholds dialect levels Session.Tables (fun _ => True) fun _ _ => True :=
  .bind (upholds_quiet (keepsTables_routineId dialect node)) fun id =>
    .bind (upholds_parameters id node _) fun ids =>
      upholds_declareParameters (upholds_visits hbelow (((huses.2 id).2 ids).2 ()))

theorem upholds_cursor
    (huses : (cursor dialect node).Uses (Plain dialect node) (fun _ => False) false) :
    (cursor dialect node).Upholds dialect levels Session.Tables (fun _ => True) fun _ _ => True :=
  .bind (upholds_quiet (keepsTables_declaredName dialect node)) fun name =>
    .bind (upholds_quiet (keepsTables_declare rfl)) fun id =>
      .bind (upholds_parameters id node _) fun ids =>
      upholds_declareParameters (upholds_keepsTables hbelow (fun _ h => h.elim)
        ((((huses.2 name).2 id).2 ids).2 ()) trivial)

/-- A loop declares its record in its own body. -/
theorem upholds_loop
    (huses : (loop dialect node).Uses (Plain dialect node) (fun _ => False) false) :
    (loop dialect node).Upholds dialect levels Session.Tables (fun _ => True) fun _ _ => True := by
  refine .within (fun session => session.scope.Sheltered) tables_unwind ?_ ?_
    fun _ _ _ _ _ _ => trivial
  · exact fun session h _ => ⟨tables_push _ session h, .inl rfl⟩
  · simp only [loop, Uses] at huses
    generalize dialect.loopParts node = parts at huses ⊢
    cases parts with
    | plain body => exact upholds_visits hbelow huses
    | overRows record sources body =>
      simp only at huses ⊢
      split at huses
      · next hrecord =>
        rw [if_pos hrecord]
        -- The record is declared before anything is visited, while the body is still on top.
        refine .bind
          (.of_step (fun _ => rfl) (fun session h hinside => ?_) fun _ _ _ _ _ _ => trivial)
          fun id =>
            upholds_keepsTables hbelow (fun _ h => h.elim) (huses.2 id) ⟨trivial, fun _ => trivial⟩
        exact Scope.Tables.of_root h (session.scope.learns_declareNew _).grows
          (hinside.root_declareNew rfl)
      · next hrecord =>
        rw [if_neg hrecord]
        exact upholds_quiet (.fail _)

omit hbelow in
/-- Steps that visit no part of a query leave the words of all levels. -/
theorem words_of_uses [dialect.Regular] (levels : Nat) {script : Script tree α}
    (huses : script.Uses (Plain dialect node) (fun _ => False) false) (session : Session) :
    (script.run (visit dialect levels) session).2.scope.words = session.scope.words := by
  have hdisciplined := disciplined_visit dialect tree levels
  have hrun := run_script (fun below hplain => hdisciplined.stays below hplain.stays)
    (fun _ h => h.elim) script huses session (by simp)
  rw [hrun.words, rtake_eq_self (Scope.length_words _)]

/-- A named subquery is declared at the level around it. -/
theorem upholds_namedQuery [dialect.Regular] {query : Dialect.NamedQuery tree}
    (hbody : ∀ below ∈ query.body, Plain dialect node below) :
    (namedQuery dialect query).Upholds dialect levels Session.Tables
      (fun session => session.scope.Sheltered) fun _ session => session.scope.Sheltered := by
  unfold namedQuery
  split
  · have hadd : (Script.quiet _ (quiet_add (.ofName (dialect.nameOf query.name) .record)) :
        Script tree _).Upholds
        dialect levels Session.Tables (fun session => session.scope.Sheltered) Declarable := by
      refine .of_step (fun _ => rfl) (fun session h _ => keepsTables_add _ session h) ?_
      intro session _ hpre id after hrun
      cases hrun
      exact ⟨hpre, session.scope.graph.contains_push_nextId _, Scope.kind_add _ _⟩
    refine .bind hadd fun id => ?_
    -- Visiting the body leaves the words of the levels, so the level that takes the record is on
    -- top again.
    have hinner : (Script.within (.members id false) (.visits query.body)).Upholds dialect levels
        Session.Tables (Declarable id) fun _ => Declarable id := by
      refine .within (fun _ => True) tables_unwind
        (fun session h _ => ⟨tables_push _ session h, trivial⟩) (upholds_visits hbelow hbody)
        fun session _ hpre value after hrun => ?_
      have huses : (Script.within (.members id false) (.visits query.body)).Uses
          (Plain dialect node) (fun _ => False) false := hbody
      have hwords := words_of_uses levels huses session
      have hgrows := ((Script.within (.members id false) (.visits query.body)).trail
        (trail_visit dialect levels) session).grows
      rw [hrun] at hwords hgrows
      exact hpre.keep hwords hgrows
    refine hinner.bind fun _ => .of_step (fun _ => rfl) (fun session h hpre => ?_)
      fun session _ hpre value after hrun => ?_
    · refine Scope.Tables.of_root h (session.scope.grows_declare id)
        (hpre.sheltered.root_declare ?_)
      rw [hpre.kind]
      rfl
    · cases hrun
      exact hpre.sheltered.of_words (session.scope.words_declare id)
  · exact .of_step (fun _ => rfl) (fun _ h _ => h) fun _ _ _ _ _ hrun => by cases hrun

end

/-- The clause with named subqueries is visited first, on the level of the query. -/
theorem upholds_queryParts {levels : Nat}
    (hfirst : ∀ session : Session, session.Tables → session.scope.Sheltered →
      ∀ moment ∈ visitMoments dialect levels (node.child dialect.vocabulary.queries.withClause)
        session, moment.Tables)
    (hrest : ∀ part ∈ node.child dialect.vocabulary.queries.fromClause :: dialect.queryBody node,
      ∀ session : Session, session.Tables → ∀ moment ∈ visitMoments dialect levels part session,
        moment.Tables) :
    (Script.query (dialect.queryParts node)).Upholds dialect levels Session.Tables (fun _ => True)
      fun _ _ => True := by
  refine upholds_query (.within (fun session => session.scope.Sheltered) tables_unwind ?_ ?_
    fun _ _ _ _ _ _ => trivial)
  · exact fun session h _ => ⟨tables_push _ session h, .inr rfl⟩
  · -- An operator may end the level of the query: nothing is known of the levels after it.
    have hothers :
        (Script.visits (node.child dialect.vocabulary.queries.fromClause ::
          dialect.queryBody node)).Upholds dialect levels Session.Tables (fun _ => True)
            fun _ _ => True :=
      .visits (fun part hpart session h _ => hrest part hpart session h)
        fun _ _ _ _ _ _ _ => trivial
    exact .visits_cons hfirst (fun _ _ _ _ _ => trivial) hothers

end Script

/-! ### Runs -/

section

variable {dialect} [dialect.Regular] (hnames : dialect.NamesSubqueries)
  (hwith : dialect.WithInQueries tree)

theorem upholds_ofRule {levels : Nat} (hrule : dialect.rule? node.tag = some rule)
    (hpresent : node.isPresent = true) (hcloses : dialect.closesArm node = false)
    (hbelow : ∀ below : Node tree, Plain dialect node below → ∀ session : Session, session.Tables →
      ∀ moment ∈ visitMoments dialect levels below session, moment.Tables)
    (hquery : (Script.query (dialect.queryParts node)).Upholds dialect levels Session.Tables
      (fun _ => True) fun _ _ => True) :
    (Script.ofRule dialect node rule).Upholds dialect levels Session.Tables
      (fun session => dialect.binds node .withClause = true → session.scope.Sheltered)
      fun _ _ => True := by
  -- Four rules declare what might be a table at the root; all others keep the tables step by step.
  by_cases hdeclares : rule ∈ [.routine, .cursor, .loop, .withClause]
  · have hself : Holds dialect node node := holds_self (by rw [hrule]; rintro ⟨⟩; simp at hdeclares)
    cases rule with
    | routine =>
      have huses : (Script.routine dialect node).Uses (Plain dialect node) (fun _ => False) false :=
        Script.uses_routine hself
      exact (Script.upholds_routine hbelow huses).imp (fun _ _ => trivial) fun _ _ _ => trivial
    | cursor =>
      exact (Script.upholds_cursor hbelow (Script.uses_cursor hself)).imp (fun _ _ => trivial)
        fun _ _ _ => trivial
    | loop =>
      exact (Script.upholds_loop hbelow (Script.uses_loop hself)).imp (fun _ _ => trivial)
        fun _ _ _ => trivial
    | withClause =>
      have hclause : dialect.binds node .withClause = true := by
        simp [Dialect.binds, hpresent, hrule]
      refine (Script.Upholds.forEach fun query hmem => ?_).imp (fun _ hpre => hpre hclause)
        fun _ _ _ => trivial
      exact Script.upholds_namedQuery hbelow (Script.plain_namedQuery hself hmem)
    | _ => simp at hdeclares
  · have huses : (Script.ofRule dialect node rule).Uses (Plain dialect node)
        (· = dialect.queryParts node) false :=
      Script.uses_ofRule hrule hpresent hcloses rfl
    refine (Script.upholds_keepsTables hbelow ?_ huses
      (Script.keepsTables_ofRule node hdeclares)).imp (fun _ _ => trivial) fun _ _ _ => trivial
    rintro _ rfl
    exact hquery

include hnames hwith

theorem upholds_nodeScript {levels : Nat} (hpresent : node.isPresent = true)
    (ih : ∀ (below : Node tree) (session : Session), session.Tables →
      (dialect.binds below .withClause = true → session.scope.Sheltered) →
        ∀ moment ∈ visitMoments dialect levels below session, moment.Tables) :
    (nodeScript dialect node).Upholds dialect levels Session.Tables
      (fun session => dialect.binds node .withClause = true → session.scope.Sheltered)
      fun _ _ => True := by
  have hbelow : ∀ below : Node tree, Plain dialect node below → ∀ session : Session,
      session.Tables → ∀ moment ∈ visitMoments dialect levels below session, moment.Tables := by
    intro below hplain session h
    -- A clause with named subqueries is part of a query, and a plain node is not.
    refine ih below session h fun hclause => ?_
    have hparent := hwith below hclause
    rw [hplain.parent] at hparent
    cases hparent
  cases hcloses : dialect.closesArm node with
  | true =>
    rw [nodeScript_of_closesArm hcloses]
    have hself := holds_of_closesArm hcloses
    exact .bind Script.upholds_closeArm fun _ => .bind (Script.upholds_nextArm 0) fun _ =>
      Script.upholds_visits hbelow fun below hmem => hself.plain hmem
  | false =>
    unfold nodeScript
    cases hrule : dialect.rule? node.tag with
    | none =>
      exact Script.upholds_visits hbelow (Script.plain_children (holds_self (by simp [hrule])))
    | some rule =>
      refine upholds_ofRule hrule hpresent hcloses hbelow ?_
      -- Of the parts of a query only the first one can name subqueries, and it is visited on the
      -- query's level.
      refine Script.upholds_queryParts (fun session h hinside => ih _ session h fun _ => hinside) ?_
      intro part hpart session h
      refine ih part session h fun hclause => ?_
      rw [hnames.binds_part hpart] at hclause
      cases hclause

/-- All moments of a visit keep the tables of one name the same. -/
theorem tables_visitMoments (levels : Nat) (node : Node tree) (session : Session)
    (h : session.Tables)
    (hneeds : dialect.binds node .withClause = true → session.scope.Sheltered) :
    ∀ moment ∈ visitMoments dialect levels node session, moment.Tables := by
  induction levels generalizing node session with
  | zero => simp [visitMoments]
  | succ levels ih =>
    cases node with
    | absent => simp [visitMoments]
    | present index => exact upholds_visit (upholds_nodeScript hnames hwith rfl ih) h hneeds

end

/-- A reference gives the table that is known by the name at the outermost level, before
    and after it. -/
structure Refers (refer : Scope → String → BindingId × Scope) (scope : Scope) (name : String) :
    Prop where
  same : ∀ table ∈ scope.tablesKnown (fold name), (refer scope name).1 = table
  known : (refer scope name).1 ∈ (refer scope name).2.tablesKnown (fold name)

theorem refers_of_known {refer : Scope → String → BindingId × Scope} {scope : Scope} {name : String}
    (h : scope.Tables) (hlearns : scope.Learns (refer scope name).2)
    (hafter : (refer scope name).2.Tables)
    (hknown : (refer scope name).1 ∈ (refer scope name).2.tablesKnown (fold name)) :
    Refers refer scope name :=
  ⟨fun _ htable => hafter.agree _ _ hknown _ (h.tablesKnown_subset hlearns.later _ htable), hknown⟩

/-- In every state of a run at most one global table has any given name. A table that is known stays
    known, and it is what references to its name give, be it in a query, in an insert or as the
    qualifier of a dotted name, unless an inner level gives the name another meaning. So a table
    that nobody knows gets one placeholder, which all references share. -/
theorem tables_are_shared (document : Document) (grammar : Grammar) (schema : Schema)
    (hwith : grammar.dialect.WithInQueries (Tree.ofDocument document)) :
    let tree := Tree.ofDocument document
    let start := Session.ofSchema schema
    let states := start :: visitMoments grammar.dialect tree.size tree.root start
    (∀ state ∈ states, ∀ name, (state.scope.tablesNamed name).length ≤ 1) ∧
    (states.Pairwise fun earlier later => ∀ name,
      earlier.scope.tablesKnown name ⊆ later.scope.tablesKnown name) ∧
    ∀ state ∈ states, ∀ name, state.scope.Unshadowed (fold name) →
      Refers Scope.table state.scope name ∧ Refers Scope.insertTarget state.scope name ∧
      (((state.scope.referenceHead name).2.graph.kind (state.scope.referenceHead name).1).isSource =
        true → Refers Scope.referenceHead state.scope name) := by
  intro tree start states
  have hstart : start.Tables := Scope.tables_ofSchema schema
  have htables : ∀ state ∈ states, state.Tables := by
    -- The root of the tree is no part of a query, so it is no clause with named subqueries.
    refine List.forall_mem_cons.mpr ⟨hstart, tables_visitMoments grammar.namesSubqueries hwith
      tree.size tree.root start hstart fun hclause => ?_⟩
    have hparent := hwith _ hclause
    rw [Node.parent_root] at hparent
    cases hparent
  refine ⟨fun state hstate => (htables state hstate).length_tablesNamed, ?_, ?_⟩
  · have htrail := (trail_visit grammar.dialect tree.size tree.root start).pairwise
    refine htrail.imp_of_mem fun {earlier later} hearlier _ hlater name => ?_
    exact (htables earlier hearlier).tablesKnown_subset hlater name
  · intro state hstate name hplain
    have h : state.scope.Tables := htables state hstate
    exact ⟨refers_of_known h (state.scope.learns_table name) (h.table name) (h.table_known hplain),
      refers_of_known h (state.scope.learns_insertTarget name) (h.insertTarget name)
        (h.insertTarget_known hplain),
      fun hsource => refers_of_known h (state.scope.learns_referenceHead name)
        (h.referenceHead name) (h.referenceHead_known hplain hsource)⟩

/-- A query with a named subquery that reads from a table nobody knows, an insert into this table in
    another spelling, and a dotted name below it. -/
def threeReferences : Document :=
  .inner "sql_script"
    [.inner "query_block"
       [.inner "subquery_factoring_clause"
          [.inner "factoring_element" [.inner "query_name" [.segment "t"]]],
        .inner "from_clause" [.source "u"]],
     .inner "single_table_insert"
       [.inner "insert_into_clause" [.inner "tableview_name" [.segment "U"]],
        .inner "values_clause" [.inner "expressions" [.inner "expression" []]]],
     .inner "general_element" [.segment "u", .segment "x"]]

/-- All references to the unknown table share one record, though the clause names a subquery like
    the table of the schema. -/
theorem tables_are_shared_threeReferences :
    let tree := Tree.ofDocument threeReferences
    let start := Session.ofSchema (.oneTable "t" ["a"])
    let final := (visit Dialect.plsql tree.size tree.root start).2
    Dialect.plsql.WithInQueries tree ∧ (final.scope.tablesNamed "u").length = 1 ∧
      Refers Scope.table final.scope "U" ∧ Refers Scope.insertTarget final.scope "U" ∧
      Refers Scope.referenceHead final.scope "U" := by
  intro tree start final
  have hwith : Dialect.plsql.WithInQueries tree := by decide +kernel
  have hvalues : (final.scope.frames.length, final.scope.globals,
      final.scope.graph.kind ⟨3⟩, final.scope.graph.name ⟨3⟩,
      ((final.scope.referenceHead "U").2.graph.kind (final.scope.referenceHead "U").1).isSource) =
      (0, [⟨3⟩], .record, "u", true) := by decide +kernel
  simp only [Prod.mk.injEq] at hvalues
  obtain ⟨hlevels, hglobals, hkind, hname, hsource⟩ := hvalues
  obtain ⟨hunique, _, hrefers⟩ :=
    tables_are_shared threeReferences .plsql (.oneTable "t" ["a"]) hwith
  have hlast := (trail_visit Dialect.plsql tree.size tree.root start).last_mem
  have hfound : ⟨3⟩ ∈ final.scope.tablesNamed "u" :=
    Scope.mem_tablesNamed.mpr ⟨by simp [hglobals], by rw [hkind]; rfl, hname⟩
  have hplain : final.scope.Unshadowed (fold "U") := by
    simp [Scope.Unshadowed, List.length_eq_zero_iff.mp hlevels]
  obtain ⟨htable, hinsert, hdotted⟩ := hrefers final hlast "U" hplain
  exact ⟨hwith, Nat.le_antisymm (hunique final hlast "u") (List.length_pos_of_mem hfound), htable,
    hinsert, hdotted hsource⟩

end Walk

end Lineage
