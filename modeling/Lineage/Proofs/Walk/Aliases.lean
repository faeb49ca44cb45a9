import Lineage.Proofs.Scope.Tables
import Lineage.Proofs.Walk.Moments
import Lineage.Proofs.Walk.SelectList

/-!
# Names that a query gives to its tables

Each table name in the sources of a query enters what it stands for and renames it to its alias. A
table is a source once, so of several references to one table the last one names it, and the names
that the others gave to it are forgotten. All other aliases mean what their references stood for.

## Key results

- `QueryScope.rename?_addSource`: entering a table and renaming it
- `Latest.enter`: each table is a source under the name that the last reference to it gives
- `Scope.isSource_table`: what a table name stands for is a table
- `Walk.readTable_enters`: what one reference does to the innermost query
- `Walk.alias_names_last_reference`: what the aliases of a list of references mean afterwards
-/

namespace Lineage

/-! ### Sources of a query -/

/-- A reference to a table in a query: what it stands for, and the name that it gives to it. -/
structure Reference where
  relation : BindingId
  name : String
deriving DecidableEq

/-- The source that a reference names. -/
def Reference.source (reference : Reference) : Source :=
  ⟨reference.relation, some reference.name⟩

/-- The sources with the table of the reference under its name. A table that is a source
    already is renamed. -/
def Reference.enter (reference : Reference) (sources : List Source) : List Source :=
  if sources.any (·.relation == reference.relation) then
    sources.map fun source =>
      if source.relation = reference.relation then reference.source else source
  else sources ++ [reference.source]

variable {sources : List Source} {reference : Reference}

/-- Where a table is no source, there is nothing to rename. -/
theorem map_rename_of_notMem {relation : BindingId} (renamed : Source)
    (h : relation ∉ sources.map Source.relation) :
    (sources.map fun source => if source.relation = relation then renamed else source) =
      sources := by
  refine (List.map_congr_left fun source hsource => ?_).trans (List.map_id sources)
  exact if_neg fun hsame => h (List.mem_map.mpr ⟨source, hsource, hsame⟩)

namespace QueryScope

theorem renameLast?_eq_none {relation : BindingId} {sources : List Source}
    (aliasName : Option String) (h : relation ∉ sources.map Source.relation) :
    renameLast? relation aliasName sources = none := by
  induction sources with
  | nil => rfl
  | cons source rest ih =>
    rw [List.map_cons, List.mem_cons, not_or] at h
    rw [renameLast?, ih h.2]
    exact if_neg (Ne.symm h.1)

/-- Where each table is a source once, the last source that stands for a table is the only one. -/
theorem renameLast?_of_mem {relation : BindingId} {sources : List Source}
    (aliasName : Option String) (hnodup : (sources.map Source.relation).Nodup)
    (hmem : relation ∈ sources.map Source.relation) :
    renameLast? relation aliasName sources =
      some (sources.map fun source =>
        if source.relation = relation then ⟨relation, aliasName⟩ else source) := by
  induction sources with
  | nil => cases hmem
  | cons source rest ih =>
    rw [List.map_cons, List.nodup_cons] at hnodup
    by_cases hsource : source.relation = relation
    · have hrest : relation ∉ rest.map Source.relation := hsource ▸ hnodup.1
      rw [renameLast?, renameLast?_eq_none aliasName hrest, List.map_cons,
        map_rename_of_notMem _ hrest]
      simp only [if_pos hsource]
    · rcases List.mem_cons.mp hmem with hhead | hrest
      · exact absurd hhead.symm hsource
      · rw [renameLast?, ih hnodup.2 hrest, List.map_cons]
        simp only [if_neg hsource]

/-- Entering a table and renaming it. -/
theorem rename?_addSource (query : QueryScope) (reference : Reference)
    (hnodup : (query.sources.map Source.relation).Nodup) :
    (query.addSource reference.relation).rename? reference.relation (some reference.name) =
      some { query with sources := reference.enter query.sources } := by
  rw [addSource, Reference.enter]
  split
  · next hknown =>
    have hmem : reference.relation ∈ query.sources.map Source.relation := by simpa using hknown
    rw [rename?, renameLast?_of_mem _ hnodup hmem]
    rfl
  · next hnew =>
    have hmem : reference.relation ∉ query.sources.map Source.relation := by simpa using hnew
    have hadded :
        ((query.sources ++ [(⟨reference.relation, none⟩ : Source)]).map Source.relation).Nodup := by
      rw [List.map_append]
      exact hnodup.append (List.nodup_singleton _) (by simpa using hmem)
    rw [rename?, renameLast?_of_mem _ hadded (by simp), List.map_append,
      map_rename_of_notMem _ hmem]
    simp [Reference.source]

end QueryScope

theorem Reference.mem_enter {source : Source} :
    source ∈ reference.enter sources ↔
      source = reference.source ∨ (source ∈ sources ∧ source.relation ≠ reference.relation) := by
  rw [enter]
  split
  · next hknown =>
    -- A table that is read from already gets the new name in place.
    obtain ⟨old, hold, hsame⟩ : ∃ old ∈ sources, old.relation = reference.relation := by
      simpa using hknown
    rw [List.mem_map]
    constructor
    · rintro ⟨before, hbefore, rfl⟩
      by_cases hrelation : before.relation = reference.relation
      · exact .inl (if_pos hrelation)
      · rw [if_neg hrelation]
        exact .inr ⟨hbefore, hrelation⟩
    · rintro (rfl | ⟨hmem, hother⟩)
      · exact ⟨old, hold, if_pos hsame⟩
      · exact ⟨source, hmem, if_neg hother⟩
  · next hnew =>
    have hother : ∀ old ∈ sources, old.relation ≠ reference.relation := by simpa using hnew
    rw [List.mem_append, List.mem_singleton, or_comm]
    exact or_congr_right ⟨fun hmem => ⟨hmem, hother source hmem⟩, And.left⟩

theorem Reference.nodup_enter (reference : Reference) (h : (sources.map Source.relation).Nodup) :
    ((reference.enter sources).map Source.relation).Nodup := by
  rw [enter]
  split
  · have hsame : (sources.map fun source =>
        if source.relation = reference.relation then reference.source else source).map
        Source.relation = sources.map Source.relation := by
      rw [List.map_map]
      refine List.map_congr_left fun source _ => ?_
      rw [Function.comp_apply]
      split
      · next hrelation => exact hrelation.symm
      · rfl
    rwa [hsame]
  · next hnew =>
    rw [List.map_append]
    exact h.append (List.nodup_singleton _) (by simpa [source] using hnew)

/-! ### The last reference to each table -/

/-- The reference is the last one in the list to its table. -/
def Reference.IsLast (references : List Reference) (reference : Reference) : Prop :=
  ∃ earlier later, references = earlier ++ reference :: later ∧ ∀ other ∈ later, other.relation ≠
    reference.relation

theorem Reference.IsLast.mem {references : List Reference} (h : IsLast references reference) :
    reference ∈ references := by
  obtain ⟨earlier, later, rfl, _⟩ := h
  simp

theorem Reference.isLast_append {references : List Reference} {new : Reference} :
    IsLast (references ++ [new]) reference ↔
      reference = new ∨ (IsLast references reference ∧ reference.relation ≠ new.relation) := by
  constructor
  · -- The new reference is the one in question, or it is the end of what comes later.
    rintro ⟨earlier, later, hsplit, hlater⟩
    rcases List.eq_nil_or_concat later with rfl | ⟨middle, last, rfl⟩
    · exact .inl (List.singleton_inj.mp (List.append_inj' hsplit rfl).2).symm
    · have hsnoc : references ++ [new] = (earlier ++ reference :: middle) ++ [last] := by
        simpa using hsplit
      obtain ⟨rfl, hlast⟩ := List.append_inj' hsnoc rfl
      obtain rfl := List.singleton_inj.mp hlast
      exact .inr ⟨⟨earlier, middle, rfl, fun other hother => hlater other (by simp [hother])⟩,
        Ne.symm (hlater new (by simp))⟩
  · rintro (rfl | ⟨⟨earlier, later, rfl, hlater⟩, hnew⟩)
    · exact ⟨references, [], rfl, by simp⟩
    · refine ⟨earlier, later ++ [new], by simp, fun other hother => ?_⟩
      rcases List.mem_append.mp hother with hmem | hmem
      · exact hlater other hmem
      · rw [List.mem_singleton.mp hmem]
        exact Ne.symm hnew

/-- The sources of a query after a list of references. Each table is a source once, under the name
    that the last reference to it gives. -/
structure Latest (references : List Reference) (sources : List Source) : Prop where
  nodup : (sources.map Source.relation).Nodup
  mem_iff : ∀ source, source ∈ sources ↔ ∃ reference, Reference.IsLast references reference ∧
    reference.source = source

namespace Latest

variable {references : List Reference} {sources : List Source} {reference : Reference}

theorem nil : Latest [] [] := by
  refine ⟨List.nodup_nil, fun source => ?_⟩
  simp [Reference.IsLast]

theorem enter (h : Latest references sources) (new : Reference) :
    Latest (references ++ [new]) (new.enter sources) := by
  refine ⟨new.nodup_enter h.nodup, fun source => ?_⟩
  simp only [Reference.mem_enter, Reference.isLast_append, h.mem_iff]
  constructor
  · rintro (rfl | ⟨⟨reference, hlast, rfl⟩, hother⟩)
    · exact ⟨new, .inl rfl, rfl⟩
    · exact ⟨reference, .inr ⟨hlast, hother⟩, rfl⟩
  · rintro ⟨reference, rfl | ⟨hlast, hother⟩, rfl⟩
    · exact .inl rfl
    · exact .inr ⟨⟨reference, hlast, rfl⟩, hother⟩

/-- Where all references give different names, only the last reference to a table names it. -/
theorem isLast_of_name (h : Latest references sources)
    (hnames : (references.map Reference.name).Nodup) (hmem : reference ∈ references)
    {source : Source} (hsource : source ∈ sources) {graph : Graph}
    (hname : source.name graph = reference.name) :
    Reference.IsLast references reference ∧ reference.source = source := by
  -- The source bears the name of a last reference, and no other reference gives this name.
  obtain ⟨other, hlast, rfl⟩ := (h.mem_iff source).mp hsource
  have hsame : other = reference := List.inj_on_of_nodup_map hnames hlast.mem hmem hname
  exact ⟨hsame ▸ hlast, hsame ▸ rfl⟩

/-- The table of the last reference to it goes by its name. -/
theorem source?_eq (h : Latest references sources) (hnames : (references.map Reference.name).Nodup)
    (hlast : Reference.IsLast references reference) (catalog : Catalog) (graph : Graph) :
    QueryScope.source? ⟨catalog, sources⟩ graph reference.name (fun _ => true) =
      some reference.relation := by
  have hmem : reference.source ∈ sources := (h.mem_iff _).mpr ⟨reference, hlast, rfl⟩
  cases hfound : sources.find? fun source => source.name graph == reference.name with
  | none => exact absurd (beq_self_eq_true reference.name) (List.find?_eq_none.mp hfound _ hmem)
  | some source =>
    have hname : (source.name graph == reference.name) = true :=
      List.find?_some (p := fun source : Source => source.name graph == reference.name) hfound
    obtain ⟨_, rfl⟩ := h.isLast_of_name hnames hlast.mem (List.mem_of_find?_eq_some hfound)
      (eq_of_beq hname)
    simp only [QueryScope.source?, hfound, if_true]
    rfl

theorem resolve?_eq (h : Latest references sources) (hnames : (references.map Reference.name).Nodup)
    (hlast : Reference.IsLast references reference) (graph : Graph) :
    QueryScope.resolve? { QueryScope.empty with sources } graph reference.name (fun _ => true) =
      some reference.relation := by
  rw [QueryScope.resolve?, h.source?_eq hnames hlast]
  simp [QueryScope.empty, Catalog.lookup?, Catalog.named, Catalog.empty]

/-- A name that a later reference to the table replaced is no name of a source any more. -/
theorem source?_eq_none (h : Latest references sources)
    (hnames : (references.map Reference.name).Nodup) (hmem : reference ∈ references)
    (hlast : ¬ Reference.IsLast references reference) (catalog : Catalog) (graph : Graph) :
    QueryScope.source? ⟨catalog, sources⟩ graph reference.name (fun _ => true) = none := by
  have hfound : (sources.find? fun source => source.name graph == reference.name) = none := by
    refine List.find?_eq_none.mpr fun source hsource hname => hlast ?_
    exact (h.isLast_of_name hnames hmem hsource (eq_of_beq hname)).1
  simp only [QueryScope.source?, hfound]

end Latest

/-! ### Table names -/

namespace Dialect

variable {tree : Tree}

/-- The node is the name of a source, which stands for the table and gives it the name. -/
def Reads (dialect : Dialect) (node : Node tree) (table name : String) : Prop :=
  dialect.isSourceName node = true ∧ (dialect.tableAlias node).isPresent = true ∧
    Text.lastSegment (dialect.nameOf node) = table ∧ dialect.nameOf (dialect.tableAlias node) = name

instance (dialect : Dialect) (node : Node tree) (table name : String) : Decidable
    (dialect.Reads node table name) :=
  inferInstanceAs (Decidable (_ ∧ _))

/-- The name that a node refers to is folded. -/
theorem fold_nameOf (dialect : Dialect) (node : Node tree) :
    fold (dialect.nameOf node) = dialect.nameOf node := by
  have htexts : ∀ nodes : List (Node tree), ∀ text ∈ nodes.map Node.text,
      Text.Folded text.toList := by
    intro nodes text htext
    obtain ⟨part, _, rfl⟩ := List.mem_map.mp htext
    exact Text.folded_fold _
  simp only [nameOf]
  split
  · exact fold_fold _
  · split
    · exact fold_fold _
    · exact (Text.folded_intercalate (htexts _)).fold_eq

end Dialect

/-! ### Kinds of what is found -/

theorem Catalog.accepts_of_lookup? {catalog : Catalog} {graph : Graph} {name : String}
    {accepts : Binding.Kind → Bool} {id : BindingId}
    (h : catalog.lookup? graph name accepts = some id) : accepts (graph.kind id) = true :=
  List.find?_some (p := fun id => accepts (graph.kind id)) h

theorem Frame.accepts_of_resolve? {frame : Frame} {graph : Graph} {name : String}
    {accepts : Binding.Kind → Bool} {id : BindingId}
    (h : frame.resolve? graph name accepts = some id) : accepts (graph.kind id) = true := by
  cases frame with
  | lexical catalog owner => exact Catalog.accepts_of_lookup? h
  | select query =>
    -- Declarations come first, then sources, then their columns, and each is asked for its kind.
    rcases Option.or_eq_some_iff.mp h with hdeclared | ⟨_, hother⟩
    · exact Catalog.accepts_of_lookup? hdeclared
    · rcases Option.or_eq_some_iff.mp hother with hsource | ⟨_, hcolumn⟩
      · simp only [QueryScope.source?] at hsource
        split at hsource
        · split at hsource
          · next haccepts => exact Option.some.inj hsource ▸ haccepts
          · cases hsource
        · cases hsource
      · obtain ⟨source, _, hfound⟩ := List.exists_of_findSome?_eq_some hcolumn
        have hboth :=
          List.find?_some (p := fun child => graph.name child == name && accepts (graph.kind child))
            hfound
        exact (Bool.and_eq_true_iff.mp hboth).2
  | _ => cases h

namespace Scope

variable {scope : Scope}

/-- What is found by its kind has this kind. -/
theorem kind_of_declaredOfKind? {name : String} {kind : Binding.Kind} {id : BindingId}
    (h : scope.declaredOfKind? name kind = some id) : scope.graph.kind id = kind := by
  rw [declaredOfKind?_eq, resolvePlain?] at h
  refine (eq_of_beq ?_ : kind = scope.graph.kind id).symm
  split at h
  · next hdeclared =>
    cases h
    rcases Option.or_eq_some_iff.mp hdeclared with hlevel | ⟨_, hglobal⟩
    · obtain ⟨frame, _, hfound⟩ := List.exists_of_findSome?_eq_some hlevel
      exact Frame.accepts_of_resolve? hfound
    · exact Catalog.accepts_of_lookup? hglobal
  · cases h

/-- Looking for a table does not touch the inner levels. -/
theorem frames_table (scope : Scope) (name : String) :
    (scope.table name).2.frames = scope.frames := by
  unfold table
  repeat' split
  all_goals rfl

/-- The innermost query takes a table that is sent outward. -/
theorem receiveAll_table {query : QueryScope} {rest : List Frame} {id : BindingId}
    (hframes : scope.frames = .select query :: rest)
    (hkind : (scope.graph.kind id).isSource = true) :
    scope.receiveAll [id] =
      (.ok (), { scope with frames := .select (query.addSource id) :: rest }) := by
  rw [receiveAll, receive, hframes, receiveAmong_table query rest hkind]
  rfl

theorem renameSource?_of_frames {query renamed : QueryScope} {rest : List Frame}
    {relation : BindingId} {aliasName : Option String}
    (hframes : scope.frames = .select query :: rest)
    (hrename : query.rename? relation aliasName = some renamed) :
    scope.renameSource? relation aliasName =
      some { scope with frames := .select renamed :: rest } := by
  rw [renameSource?, hframes, changeNearestQuery?, hrename]
  rfl

/-- What a table name in a query stands for is a table. -/
theorem isSource_table {schema : Schema} (h : (ofSchema schema).Later scope) (name : String) :
    ((scope.table name).2.graph.kind (scope.table name).1).isSource = true := by
  unfold table
  split
  · next hrecord => exact congrArg Binding.Kind.isSource (kind_of_declaredOfKind? hrecord)
  · split
    · next hexternal =>
      -- The tables of the schema are relations from the start.
      rw [external?, h.external] at hexternal
      obtain ⟨hcontains, hkind, _⟩ := (tables_ofSchema schema).of_external? hexternal
      exact congrArg Binding.Kind.isSource ((h.grows.kind hcontains).trans hkind)
    · split
      · next hrelation => exact congrArg Binding.Kind.isSource (kind_of_declaredOfKind? hrelation)
      · exact congrArg Binding.Kind.isSource (scope.kind_add (.ofName name .record))

end Scope

namespace Walk

variable {tree : Tree} (dialect : Dialect)

/-- What a table name stands for in a state, and its alias. -/
def referenceOf (node : Node tree) (session : Session) : Reference :=
  ⟨(session.scope.table (Text.lastSegment (dialect.nameOf node))).1,
    dialect.nameOf (dialect.tableAlias node)⟩

/-- The references of table names that are read one after the other. -/
def referencesOf : List (Node tree) → Session → List Reference
  | [], _ => []
  | node :: rest, session =>
    referenceOf dialect node session :: referencesOf rest (tableName dialect node session).2

theorem map_name_referencesOf (nodes : List (Node tree)) (session : Session) :
    (referencesOf dialect nodes session).map Reference.name =
      nodes.map fun node => dialect.nameOf (dialect.tableAlias node) := by
  induction nodes generalizing session with
  | nil => rfl
  | cons node rest ih => rw [referencesOf, List.map_cons, List.map_cons, ih, referenceOf]

variable {dialect}

/-- Reads from a table under another name. -/
def readTable (table name : String) : Walk Unit := do
  let relation ← onScope (·.table table)
  produce relation
  changeScope fun scope => (scope.renameSource? relation (some name)).getD scope

theorem tableName_eq {node : Node tree} {table name : String} (h : dialect.Reads node table name) :
    tableName dialect node = readTable table name := by
  obtain ⟨hsource, halias, htable, hname⟩ := h
  simp only [tableName, if_pos hsource, if_pos halias, htable, hname, readTable]

theorem referencesOf_cons {node : Node tree} {table name : String}
    (h : dialect.Reads node table name) (rest : List (Node tree)) (session : Session) :
    referencesOf dialect (node :: rest) session =
      ⟨(session.scope.table table).1, name⟩ :: referencesOf dialect rest
        (readTable table name session).2 := by
  rw [referencesOf, referenceOf, tableName_eq h, h.2.2.1, h.2.2.2]

/-- The innermost query takes the table, under the other name. -/
theorem readTable_enters {schema : Schema} {session : Session} {query : QueryScope}
    {rest : List Frame} (hlater : (Scope.ofSchema schema).Later session.scope)
    (hframes : session.scope.frames = .select query :: rest)
    (hnodup : (query.sources.map Source.relation).Nodup) (table name : String) :
    ∃ after, readTable table name session = (.ok (), after) ∧
      (Scope.ofSchema schema).Later after.scope ∧
      after.scope.frames = .select { query with
        sources := (Reference.mk (session.scope.table table).1 name).enter
          query.sources } :: rest := by
  have hkind := Scope.isSource_table hlater table
  have hopened := (session.scope.frames_table table).trans hframes
  have hgrown := hlater.trans (session.scope.learns_table table).later
  rcases htable : session.scope.table table with ⟨relation, opened⟩
  rw [htable] at hkind hopened hgrown
  -- The query takes the table, and then renames the only source that stands for it.
  let entered : Scope := { opened with frames := .select (query.addSource relation) :: rest }
  let renamed : Scope :=
    { opened with
      frames :=
        .select { query with sources := (Reference.mk relation name).enter query.sources } :: rest }
  have hfound : onScope (·.table table) session =
      (.ok relation, { session with scope := opened }) := by
    rw [onScope, htable]
  have hproduced : produce relation { session with scope := opened } =
      (.ok (), { session with scope := entered }) := by
    rw [produce, attempt, Scope.receiveAll_table hopened hkind]
  have hrenamed : entered.renameSource? relation (some name) = some renamed :=
    Scope.renameSource?_of_frames rfl (query.rename?_addSource ⟨relation, name⟩ hnodup)
  have hchanged : changeScope (fun scope => (scope.renameSource? relation (some name)).getD scope)
      { session with scope := entered } = (.ok (), { session with scope := renamed }) := by
    rw [changeScope, Stateful.change, hrenamed, Option.getD_some]
  exact ⟨{ session with scope := renamed },
    (Stateful.bind_ok hfound).trans ((Stateful.bind_ok hproduced).trans hchanged),
    ⟨hgrown.grows, hgrown.globals, hgrown.external⟩, rfl⟩

/-- A list of names of sources. -/
theorem forM_tableName {schema : Schema} {nodes : List (Node tree)} {session : Session}
    {query : QueryScope} {rest : List Frame} {before : List Reference}
    (hlater : (Scope.ofSchema schema).Later session.scope)
    (hframes : session.scope.frames = .select query :: rest) (hbefore : Latest before query.sources)
    (haliased : ∀ node ∈ nodes, dialect.isSourceName node = true ∧
      (dialect.tableAlias node).isPresent = true) :
    ∃ after sources, nodes.forM (tableName dialect) session = (.ok (), after) ∧
      after.scope.frames = .select { query with sources } :: rest ∧
      Latest (before ++ referencesOf dialect nodes session) sources := by
  induction nodes generalizing session query before with
  | nil => exact ⟨session, query.sources, rfl, hframes, by simpa [referencesOf] using hbefore⟩
  | cons node others ih =>
    have hreads : dialect.Reads node (Text.lastSegment (dialect.nameOf node))
        (dialect.nameOf (dialect.tableAlias node)) :=
      ⟨(haliased node List.mem_cons_self).1, (haliased node List.mem_cons_self).2, rfl, rfl⟩
    obtain ⟨middle, hread, hmiddle, hentered⟩ := readTable_enters hlater hframes hbefore.nodup
      (Text.lastSegment (dialect.nameOf node)) (dialect.nameOf (dialect.tableAlias node))
    have hrun : tableName dialect node session = (.ok (), middle) := by
      rw [tableName_eq hreads, hread]
    obtain ⟨after, sources, hothers, hafter, hlatest⟩ := ih hmiddle hentered (hbefore.enter _)
      fun other hother => haliased other (List.mem_cons_of_mem _ hother)
    refine ⟨after, sources, (Stateful.bind_ok hrun).trans hothers, hafter, ?_⟩
    rwa [referencesOf_cons hreads, hread, List.append_cons]

/-- In any state of a run, let table names with different aliases be read one after the other on the
    level of a new query. Each alias then means what its reference stood for, unless a later
    reference stands for the same table. In that case the query has forgotten the alias. -/
theorem alias_names_last_reference (document : Document) (grammar : Grammar) (schema : Schema)
    (nodes : List (Node (Tree.ofDocument document)))
    (haliased : ∀ node ∈ nodes, grammar.dialect.isSourceName node = true ∧
      (grammar.dialect.tableAlias node).isPresent = true)
    (hdistinct :
      (nodes.map fun node => grammar.dialect.nameOf (grammar.dialect.tableAlias node)).Nodup) :
    let tree := Tree.ofDocument document
    let start := Session.ofSchema schema
    ∀ state ∈ start :: visitMoments grammar.dialect tree.size tree.root start,
      let inside : Session := { state with scope := state.scope.push .query }
      let references := referencesOf grammar.dialect nodes inside
      ∃ after query, nodes.forM (tableName grammar.dialect) inside = (.ok (), after) ∧
        after.scope.frames = .select query :: state.scope.frames ∧
        ∀ reference ∈ references,
          (Reference.IsLast references reference →
            after.scope.resolve? (.ofName reference.name) = some reference.relation) ∧
          (¬ Reference.IsLast references reference →
            query.source? after.scope.graph reference.name (fun _ => true) = none) := by
  intro tree start state hstate inside references
  have hlater : start.scope.Later state.scope := by
    rcases List.mem_cons.mp hstate with rfl | hmoment
    · exact .refl
    · have htrail := (trail_visit grammar.dialect tree.size tree.root start).pairwise
      exact (List.pairwise_cons.mp htrail).1 state hmoment
  have hinside : start.scope.Later inside.scope := ⟨hlater.grows, hlater.globals, hlater.external⟩
  obtain ⟨after, sources, hrun, hframes, hlatest⟩ := forM_tableName hinside rfl Latest.nil haliased
  have hnames : (references.map Reference.name).Nodup := by
    rwa [map_name_referencesOf]
  refine ⟨after, { QueryScope.empty with sources }, hrun, hframes, fun reference hmem =>
    ⟨fun hlast => ?_, fun hlast => ?_⟩⟩
  · -- Resolving folds the name once more.
    have hfold : fold reference.name = reference.name := by
      have hname := List.mem_map_of_mem (f := Reference.name) hmem
      rw [map_name_referencesOf] at hname
      obtain ⟨node, _, hnode⟩ := List.mem_map.mp hname
      rw [← hnode, Dialect.fold_nameOf]
    rw [Scope.resolve?_ofName, hfold, Scope.resolvePlain?, hframes, List.findSome?_cons,
      Frame.resolve?, hlatest.resolve?_eq hnames hlast]
    rfl
  · exact hlatest.source?_eq_none hnames hmem hlast _ _

/-- A query whose sources are the given tables, each with an alias. -/
def aliasedTables (tables : List (String × String)) : Document :=
  .inner "query_block" [.inner "from_clause" (tables.map fun table =>
    .inner "table_ref_aux"
      [.source table.1,
       .inner "table_alias" [.segment table.2]])]

/-- Between two references to one table stands one to another table. -/
theorem alias_names_last_reference_interleaved :
    let tree := Tree.ofDocument (aliasedTables [("t", "a"), ("u", "B"), ("T", "c")])
    let nodes := tree.root.find "tableview_name"
    let start := Session.ofSchema .empty
    let inside : Session := { start with scope := start.scope.push .query }
    ∃ after query, nodes.forM (tableName Dialect.plsql) inside = (.ok (), after) ∧
      after.scope.frames = [.select query] ∧
      after.scope.resolve? (.ofName "b") = some ⟨1⟩ ∧
      after.scope.resolve? (.ofName "c") = some ⟨0⟩ ∧
      query.source? after.scope.graph "a" (fun _ => true) = none := by
  intro tree nodes start inside
  have haliased : ∀ node ∈ nodes, Dialect.plsql.isSourceName node = true ∧
      (Dialect.plsql.tableAlias node).isPresent = true := by decide +kernel
  have hdistinct :
      (nodes.map fun node => Dialect.plsql.nameOf (Dialect.plsql.tableAlias node)).Nodup := by
    decide +kernel
  obtain ⟨after, query, hrun, hframes, hmeaning⟩ := alias_names_last_reference _ .plsql .empty nodes
    haliased hdistinct start List.mem_cons_self
  have hreferences : referencesOf Dialect.plsql nodes inside = [⟨⟨0⟩, "a"⟩, ⟨⟨1⟩, "b"⟩] ++
      [⟨⟨0⟩, "c"⟩] := by
    decide +kernel
  rw [show referencesOf Grammar.plsql.dialect nodes _ = _ from hreferences] at hmeaning
  have hforgotten : ¬ Reference.IsLast ([⟨⟨0⟩, "a"⟩, ⟨⟨1⟩, "b"⟩] ++ [⟨⟨0⟩, "c"⟩]) ⟨⟨0⟩, "a"⟩ := by
    rw [Reference.isLast_append]
    simp
  exact ⟨after, query, hrun, hframes,
    (hmeaning ⟨⟨1⟩, "b"⟩ (by simp)).1 ⟨[⟨⟨0⟩, "a"⟩], [⟨⟨0⟩, "c"⟩], rfl, by simp⟩,
    (hmeaning ⟨⟨0⟩, "c"⟩ (by simp)).1 ⟨_, [], rfl, by simp⟩,
    (hmeaning ⟨⟨0⟩, "a"⟩ (by simp)).2 hforgotten⟩

/-- So where a table is joined to itself, the first of its two aliases means nothing. -/
theorem selfJoin_forgets_alias :
    let tree := Tree.ofDocument (aliasedTables [("t", "a"), ("t", "b")])
    let nodes := tree.root.find "tableview_name"
    let start := Session.ofSchema .empty
    let inside : Session := { start with scope := start.scope.push .query }
    referencesOf Dialect.plsql nodes inside = [⟨⟨0⟩, "a"⟩, ⟨⟨0⟩, "b"⟩] ∧
      (nodes.forM (tableName Dialect.plsql) inside).2.scope.resolve? (.ofName "a") = none := by
  decide +kernel

end Walk

end Lineage
