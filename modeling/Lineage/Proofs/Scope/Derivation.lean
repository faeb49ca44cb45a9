import Lineage.Proofs.Scope.WellFormed

/-!
# No id is made up

Whoever works with a scope has some ids at hand: those of bindings just added, and those that were
found. `Derives` relates a scope and the ids at hand to a later scope and the ids that are at hand
then. It says all that looking names up, adding bindings and declaring them can do, so what is kept
by each of its few steps is kept by all of these.

## Key results

- `Derives.trans`, `Derives.keep`: derivations compose, and ids at hand may stay at hand
- `derives_resolve`, `derives_dottedReference`, `derives_table`, `derives_insertTarget`,
  `derives_columnsNamed`: names and references
- `Derives.learns`: a derivation is a way of learning
- `Derives.wellFormed`: derivations keep scopes well-formed, and the ids at hand exist
-/

namespace Lineage

/-- The frame is one that rules other than those for calls open: it does not gather members, and it
    is a chain only where chains are allowed. -/
def Frame.Ordinary (chained : Prop) : Frame → Prop
  | wrapper _ structural | members _ structural => structural = false
  | chain _ => chained
  | _ => True

namespace Scope

/-- An id that can be found in the scope, with some ids at hand. -/
inductive Finds (scope : Scope) (ids : List BindingId) : BindingId → Prop where
  | declared {frame : Frame} {catalog : Catalog} {name : String} {accepts : Binding.Kind → Bool}
      {id : BindingId} :
      frame ∈ scope.frames → catalog ∈ frame.catalogs →
      catalog.lookup? scope.graph name accepts = some id →
        Finds scope ids id
  | global {name : String} {accepts : Binding.Kind → Bool} {id : BindingId} :
      scope.root.catalog.lookup? scope.graph name accepts = some id → Finds scope ids id
  | external {id : BindingId} : id ∈ scope.root.external.map Prod.snd → Finds scope ids id
  | source {query : QueryScope} {source : Source} :
      .select query ∈ scope.frames → source ∈ query.sources → Finds scope ids source.relation
  | head {id : BindingId} : .chain (some id) ∈ scope.frames → Finds scope ids id
  | member {owner id : BindingId} : owner ∈ ids → id ∈ scope.graph.children owner →
      Finds scope ids id

variable {ids : List BindingId} {id : BindingId} (name : String) {query : QueryScope}
  {accepts : Binding.Kind → Bool}

theorem Finds.mono {scope : Scope} {more : List BindingId} (h : scope.Finds ids id)
    (hmore : ids ⊆ more) : scope.Finds more id := by
  cases h with
  | declared hframe hcatalog hfound => exact .declared hframe hcatalog hfound
  | global hfound => exact .global hfound
  | external hfound => exact .external hfound
  | source hframe hsource => exact .source hframe hsource
  | head hframe => exact .head hframe
  | member howner hid => exact .member (hmore howner) hid

/-- From the first scope, with the known ids at hand, one gets to the second scope with
    other ids at hand. -/
inductive Derives (before : Scope) (known : List BindingId) : List BindingId → Scope → Prop where
  | start : Derives before known known before
  | forget {ids fewer : List BindingId} {after : Scope} :
      Derives before known ids after → fewer ⊆ ids → Derives before known fewer after
  | find {ids : List BindingId} {after : Scope} {id : BindingId} :
      Derives before known ids after → after.Finds ids id → Derives before known (id :: ids) after
  | add {ids : List BindingId} {after : Scope} {binding : Binding} :
      Derives before known ids after → binding.Fresh →
        Derives before known (after.graph.nextId :: ids) (after.add binding).2
  | addChild {ids : List BindingId} {after : Scope} {parent child : BindingId} :
      Derives before known ids after → parent ∈ ids → child ∈ ids →
        Derives before known ids (after.addChild parent child)
  | addOutput {ids : List BindingId} {after : Scope} {source target : BindingId} :
      Derives before known ids after → source ∈ ids → target ∈ ids →
        Derives before known ids (after.addOutput source target)
  | declare {ids : List BindingId} {after : Scope} {id : BindingId} :
      Derives before known ids after → id ∈ ids → Derives before known ids (after.declare id)
  | declareGlobal {ids : List BindingId} {after : Scope} {id : BindingId} :
      Derives before known ids after → id ∈ ids → Derives before known ids (after.declareGlobal id)
  | renameSource {ids : List BindingId} {after : Scope} (relation : BindingId)
      (aliasName : Option String) : Derives before known ids after →
        Derives before known ids ((after.renameSource? relation aliasName).getD after)

namespace Derives

variable {before middle after : Scope} {known ids more : List BindingId}

theorem trans (hfirst : before.Derives known ids middle) (hlast : middle.Derives ids more after) :
    before.Derives known more after := by
  induction hlast with
  | start => exact hfirst
  | forget _ hfewer ih => exact ih.forget hfewer
  | find _ hfound ih => exact ih.find hfound
  | add _ hfresh ih => exact ih.add hfresh
  | addChild _ hparent hchild ih => exact ih.addChild hparent hchild
  | addOutput _ hsource htarget ih => exact ih.addOutput hsource htarget
  | declare _ hid ih => exact ih.declare hid
  | declareGlobal _ hid ih => exact ih.declareGlobal hid
  | renameSource relation aliasName _ ih => exact ih.renameSource relation aliasName

/-- The ids that were at hand may stay at hand. -/
theorem keep (h : before.Derives known ids after) : before.Derives known (ids ++ known) after := by
  induction h with
  | start => exact start.forget (by simp)
  | forget _ hfewer ih =>
    exact ih.forget (List.append_subset.mpr
      ⟨List.Subset.trans hfewer (List.subset_append_left _ _), List.subset_append_right _ _⟩)
  | find _ hfound ih => exact ih.find (hfound.mono (List.subset_append_left _ _))
  | add _ hfresh ih => exact ih.add hfresh
  | addChild _ hparent hchild ih =>
    exact ih.addChild (List.mem_append_left _ hparent) (List.mem_append_left _ hchild)
  | addOutput _ hsource htarget ih =>
    exact ih.addOutput (List.mem_append_left _ hsource) (List.mem_append_left _ htarget)
  | declare _ hid ih => exact ih.declare (List.mem_append_left _ hid)
  | declareGlobal _ hid ih => exact ih.declareGlobal (List.mem_append_left _ hid)
  | renameSource relation aliasName _ ih => exact ih.renameSource relation aliasName

/-- Several ids are found in a row. -/
theorem findAll (h : before.Derives known ids after) (hfound : ∀ id ∈ more, after.Finds ids id) :
    before.Derives known (more ++ ids) after := by
  induction more with
  | nil => exact h
  | cons id rest ih =>
    obtain ⟨hid, hrest⟩ := List.forall_mem_cons.mp hfound
    exact (ih hrest).find (hid.mono (List.subset_append_right _ _))

/-- A derivation is a way of learning. -/
theorem learns (h : before.Derives known ids after) : before.Learns after := by
  induction h with
  | start => exact .refl
  | forget _ _ ih => exact ih
  | find _ _ ih => exact ih
  | add _ _ ih => exact ih.trans (learns_add _ _)
  | addChild _ _ _ ih => exact ih.trans (learns_addChild _ _ _)
  | addOutput _ _ _ ih => exact ih.trans (learns_addOutput _ _ _)
  | declare _ _ ih => exact ih.declare _
  | declareGlobal _ _ ih => exact ih.declareGlobal _
  | renameSource relation aliasName _ ih => exact ih.renameSource relation aliasName

end Derives

/-! ### Names -/

variable {scope : Scope} {known : List BindingId}

theorem finds_of_external? {name : String} (h : scope.external? name = some id) :
    scope.Finds known id := by
  obtain ⟨front, back, heq, _⟩ := List.lookup_eq_some_iff.mp h
  refine .external ?_
  rw [heq]
  simp

/-- What an exact name means inside a query: something declared there, a source, or a
    column of a source. -/
theorem derives_query {name : String} (hquery : .select query ∈ scope.frames)
    (h : query.resolve? scope.graph name accepts = some id) :
    scope.Derives known (id :: known) scope := by
  simp only [QueryScope.resolve?, Option.or_eq_some_iff] at h
  -- A query looks among its declarations, then among its sources, then among their columns.
  rcases h with hdeclared | ⟨_, hsource | ⟨_, hcolumn⟩⟩
  · exact Derives.start.find (.declared hquery (by simp [Frame.catalogs]) hdeclared)
  · simp only [QueryScope.source?] at hsource
    split at hsource
    · next source hmem =>
      split at hsource
      · rw [← Option.some.inj hsource]
        exact Derives.start.find (.source hquery (List.mem_of_find?_eq_some hmem))
      · simp at hsource
    · simp at hsource
  · obtain ⟨source, hsource, hchild⟩ := List.exists_of_findSome?_eq_some hcolumn
    have hrelation : scope.Derives known (source.relation :: known) scope :=
      Derives.start.find (.source hquery hsource)
    have hmember := hrelation.find (.member List.mem_cons_self (List.mem_of_find?_eq_some hchild))
    exact hmember.forget (List.cons_subset_cons _ (List.subset_cons_self _ _))

theorem derives_resolvePlain {localOnly : Bool} {name : String}
    (h : scope.resolvePlain? localOnly name accepts = some id) :
    scope.Derives known (id :: known) scope := by
  simp only [resolvePlain?] at h
  split at h
  · next declared hdeclared =>
    rw [← Option.some.inj h]
    -- Levels are asked before the globals, and only where both are silent, the schema.
    rcases Option.or_eq_some_iff.mp hdeclared with hlevel | ⟨_, hglobal⟩
    · obtain ⟨frame, hframe, hresolve⟩ := List.exists_of_findSome?_eq_some hlevel
      cases frame with
      | lexical catalog owner =>
        exact Derives.start.find (.declared hframe (by simp [Frame.catalogs]) hresolve)
      | select query => exact derives_query hframe hresolve
      | _ => simp [Frame.resolve?] at hresolve
    · exact Derives.start.find (.global hglobal)
  · split at h
    · simp at h
    · exact Derives.start.find (finds_of_external? (Option.filter_eq_some_iff.mp h).1)

theorem derives_resolveUnder {localOnly : Bool} {qualifier : List String} {name : String}
    (h : scope.resolveUnder? localOnly qualifier name accepts = some id) :
    scope.Derives known (id :: known) scope := by
  induction qualifier generalizing name accepts id with
  | nil => exact derives_resolvePlain h
  | cons segment outer ih =>
    simp only [resolveUnder?] at h
    split at h
    · next owner howner =>
      have hmem := List.mem_reverse.mp (List.mem_of_find?_eq_some h)
      have hmember := (ih howner).find (.member List.mem_cons_self hmem)
      exact hmember.forget (List.cons_subset_cons _ (List.subset_cons_self _ _))
    · simp at h

/-- What a name means is found. -/
theorem derives_resolve {name : QualifiedName} (h : scope.resolve? name = some id) :
    scope.Derives known (id :: known) scope :=
  derives_resolveUnder h

/-! ### References -/

theorem derives_childOrInsert {parent : BindingId} {kind : Binding.Kind} (hparent : parent ∈ known)
    (hkind : kind.isPublic = true) :
    scope.Derives known ((scope.childOrInsert parent name kind).1 :: known)
      (scope.childOrInsert parent name kind).2 := by
  unfold Scope.childOrInsert Graph.childOrInsert
  cases hfound : scope.graph.childNamed? parent name none with
  | some child =>
    exact Derives.start.find
      (.member hparent (List.mem_reverse.mp (List.mem_of_find?_eq_some hfound)))
  | none =>
    exact (Derives.start.add (Binding.fresh_ofName name hkind)).addChild
      (List.mem_cons_of_mem _ hparent) List.mem_cons_self

theorem derives_declareNew {binding : Binding} (h : binding.Fresh) :
    scope.Derives known ((scope.declareNew binding).1 :: known) (scope.declareNew binding).2 :=
  (Derives.start.add h).declare List.mem_cons_self

theorem derives_declareNewGlobal {binding : Binding} (h : binding.Fresh) :
    scope.Derives known ((scope.declareNewGlobal binding).1 :: known)
      (scope.declareNewGlobal binding).2 :=
  (Derives.start.add h).declareGlobal List.mem_cons_self

/-- The innermost query is one of the levels. -/
theorem mem_frames_of_nearestQuery? (h : scope.nearestQuery? = some query) :
    .select query ∈ scope.frames := by
  obtain ⟨frame, hframe, hselect⟩ := List.exists_of_findSome?_eq_some h
  cases frame with
  | select other =>
    obtain rfl : other = query := Option.some.inj hselect
    exact hframe
  | _ => simp at hselect

theorem mem_sources_of_onlySource? (h : query.onlySource? = some id) :
    ∃ source ∈ query.sources, source.relation = id := by
  unfold QueryScope.onlySource? at h
  split at h
  · next source hsources => exact ⟨source, by simp [hsources], Option.some.inj h⟩
  · simp at h

theorem derives_reference :
    scope.Derives known ((scope.reference name).1 :: known) (scope.reference name).2 := by
  unfold reference
  split
  · next hfound => exact derives_resolve hfound
  · split
    · next source hsource =>
      obtain ⟨query, hquery, honly⟩ := Option.bind_eq_some_iff.mp hsource
      obtain ⟨found, hfound, rfl⟩ := mem_sources_of_onlySource? honly
      have hrelation : scope.Derives known (found.relation :: known) scope :=
        Derives.start.find (.source (mem_frames_of_nearestQuery? hquery) hfound)
      have hfield : scope.Derives (found.relation :: known) _
          (scope.childOrInsert found.relation name .field).2 :=
        derives_childOrInsert name List.mem_cons_self rfl
      exact (hrelation.trans hfield).forget (List.cons_subset_cons _ (List.subset_cons_self _ _))
    · exact derives_declareNew (Binding.fresh_ofName name rfl)

theorem derives_referenceHead :
    scope.Derives known ((scope.referenceHead name).1 :: known) (scope.referenceHead name).2 := by
  unfold referenceHead
  split
  · next hfound => exact derives_resolve hfound
  · exact derives_declareNewGlobal (Binding.fresh_ofName name rfl)

theorem derives_memberChain (names : List String) {current : BindingId} (h : current ∈ known) :
    scope.Derives known ((memberChain names current scope).1 :: known)
      (memberChain names current scope).2 := by
  induction names generalizing scope current known with
  | nil => exact Derives.start.forget (List.cons_subset.mpr ⟨h, List.Subset.refl _⟩)
  | cons name rest ih =>
    have hfirst : scope.Derives known _ (scope.childOrInsert current name .field).2 :=
      derives_childOrInsert name h rfl
    exact (hfirst.trans (ih List.mem_cons_self)).forget
      (List.cons_subset_cons _ (List.subset_cons_self _ _))

theorem derives_dottedReference (qualifiers : List String) (name : String) :
    scope.Derives known ((scope.dottedReference qualifiers name).1 :: known)
      (scope.dottedReference qualifiers name).2 := by
  cases qualifiers with
  | nil => exact derives_reference name
  | cons head rest =>
    have hhead : scope.Derives known _ (scope.referenceHead head).2 := derives_referenceHead head
    exact (hhead.trans (derives_memberChain _ List.mem_cons_self)).forget
      (List.cons_subset_cons _ (List.subset_cons_self _ _))

theorem derives_table :
    scope.Derives known ((scope.table name).1 :: known) (scope.table name).2 := by
  unfold table
  split
  · next hfound => exact derives_resolve hfound
  · split
    · next hfound =>
        exact (Derives.start.find (finds_of_external? hfound)).declareGlobal List.mem_cons_self
    · split
      · next hfound => exact derives_resolve hfound
      · exact derives_declareNewGlobal (Binding.fresh_ofName name rfl)

theorem derives_insertTarget :
    scope.Derives known ((scope.insertTarget name).1 :: known) (scope.insertTarget name).2 := by
  unfold insertTarget
  split
  · next hfound =>
      exact (Derives.start.find (finds_of_external? hfound)).declareGlobal List.mem_cons_self
  · split
    · next hfound =>
      rcases Option.or_eq_some_iff.mp hfound with hrelation | ⟨_, hrecord⟩
      · exact derives_resolve hrelation
      · exact derives_resolve hrecord
    · exact derives_declareNewGlobal (Binding.fresh_ofName name rfl)

theorem derives_columnsNamed {table : BindingId} (names : List String) (h : table ∈ known) :
    scope.Derives known ((columnsNamed table names scope).1 ++ known)
      (columnsNamed table names scope).2 := by
  induction names generalizing scope known with
  | nil => exact .start
  | cons name rest ih =>
    have hfirst : scope.Derives known _ (scope.childOrInsert table name .column).2 :=
      derives_childOrInsert name h rfl
    refine (hfirst.trans (ih (List.mem_cons_of_mem _ h))).forget ?_
    exact (List.perm_middle.symm).subset

theorem derives_knownColumns {table : BindingId} (h : table ∈ known) :
    scope.Derives known (scope.knownColumns table ++ known) scope :=
  Derives.start.findAll fun _ hid => .member h (List.mem_filter.mp hid).1

theorem derives_declareAll (h : ids ⊆ known) :
    scope.Derives known known (ids.foldl Scope.declare scope) := by
  induction ids generalizing scope with
  | nil => exact .start
  | cons id rest ih =>
    obtain ⟨hid, hrest⟩ := List.cons_subset.mp h
    exact (Derives.start.declare hid).trans (ih hrest)

/-! ### Well-formed scopes -/

/-- What can be found in a well-formed scope exists. -/
theorem Finds.contains (h : scope.Finds ids id) (hwell : scope.WellFormed) :
    scope.graph.contains id = true := by
  cases h with
  | declared hframe hcatalog hfound =>
    have hdeclared := (hwell.frames _ hframe).catalogs _ hcatalog
    exact hdeclared.holds id (hdeclared.of_lookup? hfound).1
  | global hfound => exact hwell.globals.holds id (hwell.globals.of_lookup? hfound).1
  | external hfound => exact hwell.external id hfound
  | source hframe hsource => exact (hwell.frames _ hframe).ids _ (List.mem_map_of_mem hsource)
  | head hframe => exact (hwell.frames _ hframe).ids id (by simp [Frame.ids])
  | member _ hid => exact hwell.graph.children _ id hid

/-- A derivation from a well-formed scope leads to a well-formed scope, and if the ids at hand exist
    at first, so do those at hand in the end. -/
theorem Derives.wellFormed {before after : Scope} (h : before.Derives known ids after)
    (hwell : before.WellFormed) (hknown : before.graph.Holds known) :
    after.WellFormed ∧ after.graph.Holds ids := by
  induction h with
  | start => exact ⟨hwell, hknown⟩
  | forget _ hfewer ih => exact ⟨ih.1, ih.2.subset hfewer⟩
  | find _ hfound ih => exact ⟨ih.1, List.forall_mem_cons.mpr ⟨hfound.contains ih.1, ih.2⟩⟩
  | add _ hfresh ih =>
    obtain ⟨hadd, hid⟩ := ih.1.add (hfresh.wellFormed _)
    exact ⟨hadd, List.forall_mem_cons.mpr ⟨hid, ih.2.grow (.push _ .refl)⟩⟩
  | addChild _ _ hchild ih =>
    exact ⟨ih.1.addChild _ (ih.2 _ hchild), ih.2.grow (.addChild _ _ .refl)⟩
  | addOutput _ _ htarget ih =>
    exact ⟨ih.1.addOutput _ (ih.2 _ htarget), ih.2.grow (.addOutput _ _ .refl)⟩
  | declare _ hid ih => exact ⟨ih.1.declare (ih.2 _ hid), ih.2.grow (grows_declare _ _)⟩
  | declareGlobal _ hid ih => exact ⟨ih.1.declareGlobal (ih.2 _ hid), ih.2⟩
  | renameSource relation aliasName _ ih =>
    refine ⟨ih.1.renameSource? relation aliasName, ?_⟩
    rw [graph_renameSource?]
    exact ih.2

end Scope

end Lineage
