import Lineage.Proofs.Scope.Derivation
import Lineage.Proofs.Walk.Script

/-!
# The rules make up no ids

The ids that a rule passes on were found in the scope or have just been added. `Honest` keeps track
of the ids at hand, first of walks and then of scripts, and each rule is shown to use no others. The
rules for calls add arguments and calls, which no name can stand for, and are not among them.

## Key results

- `Honest.bind`: the second walk may use what the first one gives
- `Script.honest_ofRule`: the scripts of all rules but those for calls are honest
-/

namespace Lineage

/-- The routines that were declared ahead of their bodies. -/
def Session.kept (session : Session) : List BindingId :=
  session.hoisted.map Prod.snd

/-- From the first state, with the known ids at hand, one gets to the second state with other ids at
    hand. Routines that were declared ahead of their bodies are always at hand. -/
def Session.Derives (before : Session) (known ids : List BindingId) (after : Session) : Prop :=
  before.scope.Derives (known ++ before.kept) (ids ++ after.kept) after.scope

namespace Session.Derives

variable {before middle after : Session} {known ids more : List BindingId}

theorem trans (hfirst : before.Derives known ids middle) (hlast : middle.Derives ids more after) :
    before.Derives known more after :=
  Scope.Derives.trans hfirst hlast

theorem forget (h : before.Derives known ids after) (hfewer : more ⊆ ids) :
    before.Derives known more after :=
  Scope.Derives.forget h (List.append_subset.mpr
    ⟨List.Subset.trans hfewer (List.subset_append_left _ _), List.subset_append_right _ _⟩)

/-- Nothing happens. -/
theorem refl (h : ids ⊆ known) : before.Derives known ids before :=
  forget (Scope.Derives.start : before.scope.Derives (known ++ before.kept) (known ++ before.kept)
    before.scope) h

/-- The ids that were at hand may stay at hand. -/
theorem keep (h : before.Derives known ids after) : before.Derives known (ids ++ known) after := by
  refine Scope.Derives.forget (Scope.Derives.keep h) ?_
  intro id hid
  simp only [List.mem_append] at hid ⊢
  rcases hid with (hid | hid) | hid
  · exact .inl (.inl hid)
  · exact .inr (.inl hid)
  · exact .inl (.inr hid)

/-- Less was at hand at first. -/
theorem mono (h : before.Derives known ids after) (hmore : known ⊆ more) :
    before.Derives more ids after :=
  (refl hmore).trans h

/-- A step on the scope. -/
theorem of_scope {scope : Scope}
    (h : before.scope.Derives (known ++ before.kept) (ids ++ (known ++ before.kept)) scope) :
    before.Derives known ids { before with scope } :=
  Scope.Derives.forget h (List.append_subset.mpr ⟨List.subset_append_left _ _,
    List.Subset.trans (List.subset_append_right _ _) (List.subset_append_right _ _)⟩)

end Session.Derives

namespace Walk

variable {α β ι : Type}

/-! ### Honest walks -/

/-- With the known ids at hand, the walk does no more than derive what it gives. -/
structure Honest (known : List BindingId) (walk : Walk α) (given : α → List BindingId) : Prop where
  gives : ∀ (session : Session) value after, walk session = (.ok value, after) →
    session.Derives known (given value) after
  leaves : ∀ (session : Session) error after, walk session = (.error error, after) →
    session.Derives known [] after

namespace Honest

variable {known : List BindingId} {given : α → List BindingId}

theorem pure {value : α} (h : given value ⊆ known) : Honest known (Pure.pure value) given where
  gives session result after hrun := by
    cases hrun
    exact .refl h
  leaves _ _ _ hrun := by cases hrun

theorem fail (error : Error) : Honest known (Walk.fail error : Walk α) given where
  gives _ _ _ hrun := by cases hrun
  leaves session _ after hrun := by
    cases hrun
    exact .refl (List.nil_subset _)

theorem require {found : Option α} {error : Error}
    (h : ∀ value, found = some value → given value ⊆ known) :
    Honest known (Walk.require found error) given := by
  cases found with
  | none => exact fail error
  | some value => exact pure (h value rfl)

theorem read {look : Session → α}
    (h : ∀ (session : Session) (ids : List BindingId), known ⊆ ids →
      session.scope.Derives ids (given (look session) ++ ids) session.scope) :
    Honest known (Walk.read look) given where
  gives session value after hrun := by
    cases hrun
    exact .of_scope (h session _ (List.subset_append_left _ _))
  leaves _ _ _ hrun := by cases hrun

theorem onScope {step : Scope → α × Scope}
    (h : ∀ (scope : Scope) (ids : List BindingId), known ⊆ ids →
      scope.Derives ids (given (step scope).1 ++ ids) (step scope).2) :
    Honest known (Walk.onScope step) given where
  gives session value after hrun := by
    cases hrun
    exact .of_scope (h session.scope _ (List.subset_append_left _ _))
  leaves _ _ _ hrun := by cases hrun

theorem changeScope {step : Scope → Scope}
    (h : ∀ (scope : Scope) (ids : List BindingId), known ⊆ ids →
      scope.Derives ids ids (step scope)) :
    Honest known (Walk.changeScope step) fun _ => [] where
  gives session value after hrun := by
    cases hrun
    exact .of_scope (h session.scope _ (List.subset_append_left _ _))
  leaves _ _ _ hrun := by cases hrun

/-- The second walk may use what the first one gives. -/
theorem bind {first : Walk α} {next : α → Walk β} {later : β → List BindingId}
    (hfirst : Honest known first given)
    (hnext : ∀ value, Honest (given value ++ known) (next value) later) :
    Honest known (first >>= next) later where
  gives session value last hlast := by
    -- What the first walk gives is at hand for the second, besides what was known before.
    obtain ⟨result, after, hrun, hrest⟩ := Stateful.exists_of_bind hlast
    exact (hfirst.gives session result after hrun).keep.trans
      ((hnext result).gives after value last hrest)
  leaves session error last hlast := by
    rcases hrun : first session with ⟨failure | result, after⟩
    · rw [Stateful.bind_error hrun] at hlast
      cases hlast
      exact hfirst.leaves session error last hrun
    · rw [Stateful.bind_ok hrun] at hlast
      exact (hfirst.gives session result after hrun).keep.trans
        ((hnext result).leaves after error last hlast)

/-- A walk that is honest where less is at hand. -/
theorem mono {walk : Walk α} {fewer : List BindingId} (h : Honest fewer walk given)
    (hsub : fewer ⊆ known) : Honest known walk given where
  gives session value after hrun := (h.gives session value after hrun).mono hsub
  leaves session error after hrun := (h.leaves session error after hrun).mono hsub

/-- Walks that give one id each. -/
theorem mapM {items : List ι} {step : ι → Walk BindingId}
    (h : ∀ item, Honest known (step item) fun id => [id]) :
    Honest known (items.mapM step) fun ids => ids := by
  induction items generalizing known with
  | nil => exact pure (List.nil_subset _)
  | cons item rest ih =>
    rw [List.mapM_cons]
    refine (h item).bind fun id =>
      bind (ih fun other => (h other).mono (by simp)) fun ids => pure ?_
    simp

theorem forM {items : List ι} {step : ι → Walk Unit}
    (h : ∀ item, Honest known (step item) fun _ => []) :
    Honest known (items.forM step) fun _ => [] := by
  induction items with
  | nil => exact pure (List.nil_subset _)
  | cons item rest ih => exact (h item).bind fun _ => ih

end Honest

/-! ### The quiet parts of the rules -/

variable {known : List BindingId}

theorem honest_add {binding : Binding} (h : binding.Fresh) :
    Honest known (add binding) fun id => [id] :=
  .onScope fun _ _ _ => Scope.Derives.start.add h

theorem honest_declare {binding : Binding} (h : binding.Fresh) :
    Honest known (declare binding) fun id => [id] :=
  .onScope fun _ _ _ => Scope.derives_declareNew h

theorem honest_declareAll {ids : List BindingId} (h : ids ⊆ known) :
    Honest known (declareAll ids) fun _ => [] :=
  .changeScope fun _ _ hids => Scope.derives_declareAll (List.Subset.trans h hids)

variable {tree : Tree} (dialect : Dialect) (node : Node tree)

theorem honest_declaredName : Honest known (declaredName dialect node) fun _ => [] :=
  .require fun _ _ => List.nil_subset _

theorem honest_addParameter {owner : BindingId} (howner : owner ∈ known) (parameter : Node tree)
    (position : Nat) :
    Honest known (addParameter dialect owner parameter position) fun id => [id] :=
  (honest_declaredName dialect parameter).bind fun name =>
    (honest_add ((Binding.fresh_ofName name rfl).withPosition position)).bind fun id =>
      (Honest.changeScope fun _ _ hids => Scope.Derives.start.addChild (hids (by simp [howner]))
        (hids (by simp))).bind fun _ => .pure (by simp)

theorem honest_parameters {owner : BindingId} (howner : owner ∈ known) (node : Node tree)
    (tag : String) : Honest known (parameters dialect owner node tag) fun ids => ids := by
  have hread : Honest known
      (read fun session => (session.scope.graph.children owner).filter fun child =>
      session.scope.graph.kind child == .parameter) fun ids => ids :=
    .read fun _ _ hids => Scope.Derives.start.findAll fun _ hid =>
      .member (hids howner) (List.mem_filter.mp hid).1
  refine hread.bind fun ids => ?_
  split
  · exact .mapM fun _ => honest_addParameter dialect (List.mem_append_right _ howner) _ _
  · exact .pure (List.subset_append_left _ _)

/-- A routine declared ahead of its body is kept for its node. -/
theorem honest_keepHoisted (routine : Node tree) {id : BindingId} (hid : id ∈ known) :
    Honest known (change fun session => { session with
      hoisted := (routine.index?.map fun index => (index, id)).toList ++ session.hoisted })
        fun _ => [] where
  gives session value after hrun := by
    cases hrun
    refine Scope.Derives.forget .start ?_
    intro other hother
    simp only [Session.kept, List.nil_append, List.map_append, List.mem_append] at hother ⊢
    rcases hother with hnew | hold
    -- The ids that are kept are the old ones and the one that is kept now.
    · have hsame : other = id := by
        cases hindex : routine.index? <;> simp [hindex] at hnew
        exact hnew
      exact .inl (hsame ▸ hid)
    · exact .inr hold
  leaves _ _ _ hrun := by cases hrun

theorem honest_hoist (routine : Node tree) : Honest known (hoist dialect routine) fun _ => [] :=
  (honest_declaredName dialect routine).bind fun name =>
    (honest_declare (Binding.fresh_ofName name rfl)).bind fun _ =>
      (honest_parameters dialect (by simp) routine _).bind fun _ =>
        honest_keepHoisted routine (by simp)

theorem honest_hoistAll (package : Node tree) :
    Honest known (hoistAll dialect package) fun _ => [] :=
  .forM fun routine => honest_hoist dialect routine

theorem honest_takeHoisted : Honest known (takeHoisted node) Option.toList where
  gives session value after hrun := by
    unfold takeHoisted at hrun
    split at hrun
    · cases hrun
      exact .refl (List.nil_subset _)
    · next index _ =>
      cases hrun
      -- What is taken was kept before, and so was all that is still kept.
      refine Scope.Derives.forget .start ?_
      intro id hid
      rcases List.mem_append.mp hid with hfound | hleft
      · obtain ⟨front, back, heq, _⟩ := List.lookup_eq_some_iff.mp (Option.mem_toList.mp hfound)
        simp [Session.kept, heq]
      · exact List.mem_append_right _ (List.map_subset _ (List.filter_subset_self _) hleft)
  leaves session error after hrun := by
    unfold takeHoisted at hrun
    split at hrun <;> cases hrun

theorem honest_routineId : Honest known (routineId dialect node) fun id => [id] := by
  refine (honest_takeHoisted node).bind fun hoisted => ?_
  cases hoisted with
  | some id => exact .pure (by simp)
  | none =>
    exact (honest_declaredName dialect node).bind fun name =>
      honest_declare (Binding.fresh_ofName name rfl)

theorem honest_resolve (name : QualifiedName) :
    Honest known (read (·.scope.resolve? name)) Option.toList := by
  refine .read fun session ids _ => ?_
  cases hfound : session.scope.resolve? name with
  | none => exact .start
  | some id => exact Scope.derives_resolve hfound

theorem honest_existing : Honest known (existing dialect node) fun id => [id] := by
  unfold existing
  split
  · exact (honest_resolve _).bind fun found => .require fun id hid => by simp [hid]
  · exact .fail _

theorem honest_fetch : Honest known (fetch dialect node) fun _ => [] :=
  (honest_existing dialect _).bind fun _ => .forM fun target =>
    (honest_existing dialect target).bind fun _ =>
    .changeScope fun _ _ hids => Scope.Derives.start.addOutput (hids (by simp)) (hids (by simp))

theorem honest_claimInto : Honest known (claimInto dialect node) fun _ => [] where
  gives session value after hrun := by
    simp only [claimInto] at hrun
    split at hrun
    · cases hrun
      exact .refl (List.nil_subset _)
    · split at hrun <;> cases hrun <;> exact Session.Derives.of_scope .start
  leaves session error after hrun := by
    simp only [claimInto] at hrun
    split at hrun
    · cases hrun
    · split at hrun <;> cases hrun

theorem honest_insertColumns (parts : Dialect.InsertParts tree) {table : BindingId}
    (htable : table ∈ known) : Honest known (insertColumns dialect parts table) fun ids => ids := by
  have hnamed : ∀ names, Honest known (onScope (Scope.columnsNamed table names)) fun ids => ids :=
    fun names => .onScope fun _ _ hids => Scope.derives_columnsNamed names (hids htable)
  unfold insertColumns
  split
  -- The known columns are members of the table, and found through it.
  · have hread : Honest known (read (·.scope.knownColumns table)) fun ids => ids :=
      .read fun _ _ hids => Scope.derives_knownColumns (hids htable)
    refine hread.bind fun ids => ?_
    split
    · exact (hnamed _).mono (List.subset_append_right _ _)
    · exact .pure (List.subset_append_left _ _)
  · exact hnamed _

theorem honest_memberAccess (name : String) :
    Honest known (onScope fun scope =>
      match chainHead? scope with
      | some head => scope.childOrInsert head name .field
      | none => scope.add (.ofName name .field)) fun id => [id] := by
  refine .onScope fun scope ids _ => ?_
  cases hhead : chainHead? scope with
  | none => exact Scope.Derives.start.add (Binding.fresh_ofName name rfl)
  | some head =>
    -- The head of a chain is held by the level of the chain, so it is within reach.
    have hframe : .chain (some head) ∈ scope.frames := by
      unfold chainHead? at hhead
      split at hhead
      · next hframes => simp [hframes, hhead]
      · simp at hhead
    have hfound : scope.Derives ids (head :: ids) scope := Scope.Derives.start.find (.head hframe)
    have hfield : scope.Derives (head :: ids) _ (scope.childOrInsert head name .field).2 :=
      Scope.derives_childOrInsert name List.mem_cons_self rfl
    exact (hfound.trans hfield).forget (List.cons_subset_cons _ (List.subset_cons_self _ _))

end Walk

/-! ### Honest scripts -/

namespace Walk.Script

variable {tree : Tree} {α β ι : Type} {chained : Prop}

/-- With the known ids at hand, the script sends no ids but those, opens ordinary levels that hold
    no others and know no names, and derives what it gives. -/
inductive Honest (chained : Prop) :
    {α : Type} → List BindingId → Script tree α → (α → List BindingId) → Prop where
  | quiet {α : Type} {known : List BindingId} {walk : Walk α} {hquiet : Quiet walk} {given : α →
      List BindingId} :
      Walk.Honest known walk given → Honest chained known (.quiet walk hquiet) given
  | send {known : List BindingId} {id : BindingId} : id ∈ known →
      Honest chained known (.send id) fun _ => []
  | flush {known : List BindingId} (position : Nat) : Honest chained known
      (.flush position) fun _ => []
  | closeArm {known : List BindingId} : Honest chained known .closeArm fun _ => []
  | nextArm {known : List BindingId} (queries : Nat) : Honest chained known
      (.nextArm queries) fun _ => []
  | visits {known : List BindingId} (nodes : List (Node tree)) : Honest chained known
      (.visits nodes) fun _ => []
  | query {known : List BindingId} (parts : List (Node tree)) : Honest chained known
      (.query parts) fun _ => []
  | within {known : List BindingId} {frame : Frame} {body : Script tree Unit} :
      frame.ids ⊆ known → (∀ catalog ∈ frame.catalogs, catalog = .empty) → frame.Ordinary chained →
        Honest chained known body (fun _ => []) →
        Honest chained known (.within frame body) fun _ => []
  | bind {α β : Type} {known : List BindingId} {first : Script tree α} {next : α → Script tree β}
      {given : α → List BindingId} {later : β → List BindingId} :
      Honest chained known first given →
      (∀ value, Honest chained (given value ++ known) (next value) later) →
        Honest chained known (first >>= next) later

variable {known : List BindingId} {given : α → List BindingId}

namespace Honest

theorem pure {value : α} (h : given value ⊆ known) :
    Honest chained known (Pure.pure value : Script tree α) given :=
  .quiet (.pure h)

theorem fail (error : Error) (herror : error.blamesInput = true) :
    Honest chained known (.quiet (Walk.fail error) (.fail error herror) : Script tree α) given :=
  .quiet (.fail error)

theorem forEach {items : List ι} {steps : ι → Script tree Unit}
    (h : ∀ item ∈ items, Honest chained known (steps item) fun _ => []) :
    Honest chained known (Script.forEach items steps) fun _ => [] := by
  induction items with
  | nil => exact pure (List.nil_subset _)
  | cons item rest ih =>
    exact (h item List.mem_cons_self).bind fun _ => ih fun other hother =>
      h other (List.mem_cons_of_mem _ hother)

/-- Nodes visited on a level without a catalog. -/
theorem withinVisits {frame : Frame} (hids : frame.ids ⊆ known) (hcatalogs : frame.catalogs = [])
    (hordinary : frame.Ordinary chained) (nodes : List (Node tree)) :
    Honest chained known (.within frame (.visits nodes)) fun _ => [] :=
  .within hids (by simp [hcatalogs]) hordinary (.visits nodes)

/-- The body of a routine, package or loop. -/
theorem body {owner : Option BindingId} {body : Script tree Unit} (howner : owner.toList ⊆ known)
    (hbody : Honest chained known body fun _ => []) :
    Honest chained known (.within (.body owner) body) fun _ => [] :=
  .within howner (by simp [Frame.body, Frame.catalogs]) trivial hbody

end Honest

/-! ### The rules -/

variable (dialect : Dialect) (node : Node tree)

theorem honest_package : Honest chained known (package dialect node) fun _ => [] :=
  .bind (.quiet (honest_declaredName dialect node)) fun name =>
    .bind (.quiet (honest_declare (Binding.fresh_ofName name rfl))) fun _ =>
      .body (by simp) (.bind (.quiet (honest_hoistAll dialect node)) fun _ => .visits _)

theorem honest_routine : Honest chained known (routine dialect node) fun _ => [] :=
  .bind (.quiet (honest_routineId dialect node)) fun _ =>
    .bind (.quiet (honest_parameters dialect (by simp) node _)) fun _ =>
      .body (by simp) (.bind (.quiet (honest_declareAll (by simp))) fun _ => .visits _)

theorem honest_varDeclaration : Honest chained known (varDeclaration dialect node) fun _ => [] := by
  refine .bind (.quiet (honest_declaredName dialect node)) fun name =>
    .bind (.quiet (honest_declare (Binding.fresh_ofName name rfl))) fun id => ?_
  dsimp only
  split
  · exact .withinVisits (by simp [Frame.ids]) rfl (by trivial) _
  · exact .pure (by simp)

theorem honest_cursor : Honest chained known (cursor dialect node) fun _ => [] :=
  .bind (.quiet (honest_declaredName dialect node)) fun name =>
    .bind (.quiet (honest_declare (Binding.fresh_ofName name rfl))) fun _ =>
      .bind (.quiet (honest_parameters dialect (by simp) node _)) fun _ =>
        .body (by simp) (.bind (.quiet (honest_declareAll (by simp))) fun _ =>
          .withinVisits (by simp [Frame.ids]) rfl (by rfl) _)

theorem honest_identifier : Honest chained known (identifier dialect node) fun _ => [] := by
  unfold identifier
  split
  · exact .pure (by simp)
  · have hnamed : Walk.Honest known
        (onScope (·.dottedReference ((dialect.qualifiersOf node).map dialect.nameOf) node.text))
        fun id => [id] :=
      .onScope fun _ _ _ => Scope.derives_dottedReference _ _
    exact .bind (.quiet hnamed) fun id => .send (by simp)

theorem honest_fieldSuffix : Honest chained known (fieldSuffix dialect node) fun _ => [] := by
  unfold fieldSuffix
  dsimp only
  split
  · exact .bind (.quiet (honest_memberAccess _)) fun id => .send (by simp)
  · exact .visits _

theorem honest_returnStatement : Honest chained known (returnStatement node) fun _ => [] :=
  .bind (.quiet (honest_add (Binding.fresh_ofName "[return]" rfl))) fun _ =>
    .withinVisits (by simp [Frame.ids]) rfl (by rfl) _

theorem honest_conditional : Honest chained known (conditional node) fun _ => [] :=
  .bind (.withinVisits (by simp [Frame.ids]) rfl (by trivial) _) fun _ => .visits _

theorem honest_loop : Honest chained known (loop dialect node) fun _ => [] := by
  refine .body (by simp) ?_
  cases dialect.loopParts node with
  | plain body => exact .visits body
  | overRows record sources body =>
    dsimp only
    split
    · exact .bind (.quiet (honest_declare (Binding.fresh_ofName _ rfl))) fun id =>
        .bind (.withinVisits (by simp [Frame.ids]) rfl (by trivial) _) fun _ => .visits body
    · exact .fail _ rfl

theorem honest_select : Honest chained known (select dialect node) fun _ => [] := by
  refine .bind (.quiet (honest_claimInto dialect node)) fun claimed => ?_
  cases claimed with
  | none => exact .query _
  | some clause =>
    exact .bind (.quiet (.mapM fun target => honest_existing dialect target)) fun targets =>
      .within (by simp [Frame.ids]) (by simp [Frame.catalogs]) trivial (.query _)

theorem honest_namedQuery (query : Dialect.NamedQuery tree) :
    Honest chained known (namedQuery dialect query) fun _ => [] := by
  unfold namedQuery
  split
  · exact .bind (.quiet (honest_add (Binding.fresh_ofName _ rfl))) fun id =>
      .bind (.withinVisits (by simp [Frame.ids]) rfl (by rfl) _) fun _ =>
        .quiet (.changeScope fun _ _ hids => Scope.Derives.start.declare (hids (by simp)))
  · exact .fail _ rfl

theorem honest_element (item : Dialect.Element tree) (position : Nat) :
    Honest chained known (element dialect item position) fun _ => [] := by
  have hgather : Honest chained known (gather dialect item) fun _ => [] := by
    unfold gather
    split
    · exact .bind (.quiet (honest_declare (Binding.fresh_ofName _ rfl))) fun id =>
        .bind (.send (by simp)) fun _ => .withinVisits (by simp [Frame.ids]) rfl (by trivial) _
    · exact .visits _
  exact hgather.bind fun _ => .flush position

theorem honest_selectList : Honest chained known (selectList dialect node) fun _ => [] :=
  .within (by simp [Frame.ids]) (by simp [Frame.catalogs]) trivial
    (.forEach fun item _ => honest_element dialect item.1 item.2)

theorem honest_tableName : Honest chained known (tableName dialect node) fun _ => [] := by
  unfold tableName
  split
  · have htable : Walk.Honest known (onScope (·.table (Text.lastSegment (dialect.nameOf node))))
        fun id => [id] :=
      .onScope fun _ _ _ => Scope.derives_table _
    refine .bind (.quiet htable) fun relation => .bind (.send (by simp)) fun _ => ?_
    dsimp only
    split
    · exact .quiet (.changeScope fun _ _ _ => Scope.Derives.start.renameSource relation _)
    · exact .pure (by simp)
  · exact .pure (by simp)

theorem honest_setOperation : Honest chained known (setOperation dialect node) fun _ => [] := by
  unfold setOperation
  split
  · split
    · exact .bind .closeArm fun _ => .bind (.nextArm 0) fun _ => .visits _
    · exact .bind (.nextArm 0) fun _ => .visits _
  · exact .bind (.nextArm 1) fun _ => .visits _

theorem honest_insertValues {columns : List BindingId} (hcolumns : columns ⊆ known)
    (values : List (Node tree)) (table : String) :
    Honest chained known (insertValues values columns table) fun _ => [] := by
  unfold insertValues
  split
  · refine .forEach fun pair hpair => .withinVisits ?_ rfl (by trivial) _
    simpa [Frame.ids] using hcolumns (List.of_mem_zip hpair).2
  · exact .fail _ rfl

theorem honest_insert : Honest chained known (insert dialect node) fun _ => [] := by
  unfold insert
  dsimp only
  split
  · have htable : Walk.Honest known
        (onScope
          (·.insertTarget (Text.lastSegment (dialect.nameOf (dialect.insertParts node).table))))
          fun id => [id] :=
      .onScope fun _ _ _ => Scope.derives_insertTarget _
    refine .bind (.quiet htable) fun table =>
      .bind (.quiet (honest_insertColumns dialect _ (by simp))) fun columns => ?_
    split
    · exact honest_insertValues (by simp) _ _
    · split
      · exact .withinVisits (by simp [Frame.ids]) rfl (by trivial) _
      · exact .fail _ rfl
  · exact .fail _ rfl

/-- The scripts of all rules but those for calls are honest. -/
theorem honest_ofRule {rule : Rule} (hstatement : rule ≠ .callStatement)
    (hfunction : rule ≠ .functionCall) (hchain : rule = .fieldChain → chained) :
    Honest chained known (ofRule dialect node rule) fun _ => [] := by
  -- Calls are left out, since they pass arguments, which are private.
  cases rule with
  | callStatement => exact absurd rfl hstatement
  | functionCall => exact absurd rfl hfunction
  | skip => exact .pure (by simp)
  | package => exact honest_package dialect node
  | routine => exact honest_routine dialect node
  | varDeclaration => exact honest_varDeclaration dialect node
  | cursor => exact honest_cursor dialect node
  | identifier => exact honest_identifier dialect node
  | reference => exact .bind (.quiet (honest_existing dialect node)) fun id => .send (by simp)
  | fieldChain => exact .withinVisits (by simp [Frame.ids]) rfl (by exact hchain rfl) _
  | fieldSuffix => exact honest_fieldSuffix dialect node
  | returnStatement => exact honest_returnStatement node
  | assignment => exact .withinVisits (by simp [Frame.ids]) rfl (by trivial) _
  | fetch => exact .quiet (honest_fetch dialect node)
  | conditional => exact honest_conditional node
  | loop => exact honest_loop dialect node
  | select => exact honest_select dialect node
  | withClause => exact .forEach fun query _ => honest_namedQuery dialect query
  | selectList => exact honest_selectList dialect node
  | insert => exact honest_insert dialect node
  | tableName => exact honest_tableName dialect node
  | effect => exact .withinVisits (by simp [Frame.ids]) rfl (by trivial) _
  | setOperation => exact honest_setOperation dialect node

end Walk.Script

end Lineage
