import Lineage.Proofs.Dialect.Operators
import Lineage.Proofs.Tree.Navigation
import Lineage.Proofs.Walk.Exits
import Lineage.Proofs.Walk.Ledger

/-!
# The routines of a package

Before the body of a package is read, its routines are declared in the order of the document. A call
finds them in two ways: by the plain name, in the catalog of the body, and by the name under that of
the package, among the members of the package. Both ways lead to the routine that was declared last
under the name, whatever was declared before the package.

## Key results

- `Dialect.mem_routinesOf_iff`: the routines of a package that are not part of another one
- `Dialect.routinesOf_eq_mergeSort`: they are those that a search tag by tag finds, sorted
- `Unseen`, `unseen_parameters`: parameters of a routine are no meaning of a name that is wanted for
  a routine or qualifier
- `Enters`, `exists_enters_forM`: what plain names and members of the package mean after routines
  were declared in a row
- `package_routines_found`: both ways lead to the last routine of the name
-/

namespace Lineage

/-! ### The routines that a package declares -/

section

variable {document : Document} (dialect : Dialect) (package : Node (Tree.ofDocument document))

/-- The node is a routine below the package, and no other routine of the package is around it. -/
structure Dialect.OwnRoutine (node : Node (Tree.ofDocument document)) : Prop where
  below : node ∈ package.descendants
  isRoutine : dialect.binds node .routine = true
  outermost : ¬∃ other ∈ package.descendants, dialect.binds other .routine = true ∧
    node ∈ other.descendants

theorem Dialect.mem_routinesOf_iff {node : Node (Tree.ofDocument document)} :
    node ∈ dialect.routinesOf package ↔ dialect.OwnRoutine package node := by
  rw [routinesOf, List.mem_filter, Bool.and_eq_true, Bool.not_eq_true', insideRoutine,
    List.any_eq_false]
  constructor
  · rintro ⟨hbelow, hroutine, hnone⟩
    refine ⟨hbelow, hroutine, ?_⟩
    rintro ⟨other, hother, hrule, hnode⟩
    exact hnone other ((Node.mem_takeWhile_ancestors_iff hbelow).mpr ⟨hnode, hother⟩) hrule
  · rintro ⟨hbelow, hroutine, houtermost⟩
    refine ⟨hbelow, hroutine, fun other hother hrule => houtermost ⟨other, ?_⟩⟩
    obtain ⟨hnode, hinside⟩ := (Node.mem_takeWhile_ancestors_iff hbelow).mp hother
    exact ⟨hinside, hrule, hnode⟩

end

section

variable {tree : Tree} (dialect : Dialect) (package : Node tree)

theorem Dialect.pairwise_routinesOf : (dialect.routinesOf package).Pairwise Node.Precedes :=
  (Node.pairwise_descendants package).filter _

/-- The routines of a package that are not part of another one, tag by tag. -/
def Dialect.routinesByTag : List (Node tree) :=
  ((dialect.tagsOf .routine).flatMap package.find).filter fun node =>
    !dialect.insideRoutine package node

theorem Dialect.perm_routinesByTag :
    (dialect.routinesOf package).Perm (dialect.routinesByTag package) := by
  have hnodup := Node.nodup_descendants package
  have htags : (dialect.tagsOf .routine).Nodup :=
    (List.mergeSort_perm _ _).nodup_iff.mpr (dialect.nodup.sublist (List.filter_sublist.map _))
  -- No node carries two tags.
  have hdisjoint : (dialect.tagsOf .routine).Pairwise fun first second =>
      (package.find first).Disjoint (package.find second) := by
    refine htags.imp fun hne node hfirst hsecond => hne ?_
    simp only [Node.find, List.mem_filter, Node.has, Bool.and_eq_true, beq_iff_eq] at hfirst hsecond
    exact hfirst.2.2.symm.trans hsecond.2.2
  have hfound : ((dialect.tagsOf .routine).flatMap package.find).Nodup :=
    List.nodup_flatMap.mpr ⟨fun _ _ => hnodup.filter _, hdisjoint⟩
  refine (List.perm_ext_iff_of_nodup (hnodup.filter _) (hfound.filter _)).mpr fun node => ?_
  simp [binds, Node.find, Node.has, mem_tagsOf, and_assoc, and_left_comm]

/-- The routines of a package are those that a search tag by tag finds, sorted by their index. -/
theorem Dialect.routinesOf_eq_mergeSort : dialect.routinesOf package =
    (dialect.routinesByTag package).mergeSort
      fun first second => first.index?.getD 0 ≤ second.index?.getD 0 := by
  have hperm := perm_routinesByTag dialect package
  have hpresent : ∀ node ∈ dialect.routinesOf package, ∃ index, node = .present index := by
    intro node hnode
    cases node with
    | absent => simp [routinesOf, binds, Node.isPresent] at hnode
    | present index => exact ⟨index, rfl⟩
  -- Both lists are sorted, and no two nodes share an index.
  refine List.Perm.eq_of_pairwise ?_ ((dialect.pairwise_routinesOf package).imp ?_)
    (List.pairwise_mergeSort (by grind) (by grind) _) (hperm.trans (List.mergeSort_perm _ _).symm)
  · intro first second hfirst hsecond hle hge
    obtain ⟨index, rfl⟩ := hpresent first hfirst
    obtain ⟨place, rfl⟩ := hpresent second (hperm.mem_iff.mpr (List.mem_mergeSort.mp hsecond))
    exact congrArg Node.present
      (Fin.ext (Nat.le_antisymm (of_decide_eq_true hle) (of_decide_eq_true hge)))
  · rintro _ _ ⟨index, place, rfl, rfl, hlt⟩
    exact decide_eq_true (Nat.le_of_lt hlt)

end

/-! ### Inside the body of a package -/

namespace Scope

variable {scope : Scope} {package : BindingId}

/-- The innermost level is the body of the package. -/
def InBodyOf (scope : Scope) (package : BindingId) : Prop :=
  ∃ catalog outer, scope.frames = .lexical catalog (some package) :: outer

theorem InBodyOf.contains (h : scope.InBodyOf package) (hwell : scope.WellFormed) :
    scope.graph.contains package = true := by
  obtain ⟨catalog, outer, hframes⟩ := h
  exact (hwell.frames _ (by rw [hframes]; exact List.mem_cons_self)).ids package
    (by simp [Frame.ids])

/-- A routine is declared in the body of the package. -/
theorem declareNew_in_body {catalog : Catalog} {outer : List Frame}
    (h : scope.frames = .lexical catalog (some package) :: outer) (name : String) :
    (scope.declareNew (.ofName name .routine)).2 = { scope with
      graph := (scope.graph.push (.ofName name .routine)).addChild package scope.graph.nextId
      frames := .lexical (catalog.add (scope.graph.push (.ofName name .routine))
        scope.graph.nextId) (some package) :: outer } := by
  have hkind : (scope.graph.push (.ofName name .routine)).kind scope.graph.nextId = .routine := by
    rw [Graph.kind, Graph.get_push_nextId]
    rfl
  have htaken : (Frame.lexical catalog (some package)).declare?
      (scope.graph.push (.ofName name .routine)) scope.graph.nextId =
        some (.lexical (catalog.add (scope.graph.push (.ofName name .routine)) scope.graph.nextId)
        (some package), (scope.graph.push (.ofName name .routine)).addChild package
        scope.graph.nextId) := by
    simp only [Frame.declare?, hkind]
    rfl
  simp only [declareNew, add, Graph.add, declare, h, declareAmong?, htaken]

/-- A new routine comes last among the members of the package. -/
theorem membersMatching_declareNew (hwell : scope.WellFormed) (hbody : scope.InBodyOf package)
    (name : String) (wanted : String) (accepts : Binding.Kind → Bool) :
    (scope.declareNew (.ofName name .routine)).2.graph.membersMatching package wanted accepts =
      scope.graph.membersMatching package wanted accepts ++
        if fold name = wanted ∧ accepts .routine = true then [scope.graph.nextId] else [] := by
  have hpackage := hbody.contains hwell
  obtain ⟨catalog, outer, hframes⟩ := hbody
  have hget := scope.graph.get_push_nextId (.ofName name .routine)
  have hnew : scope.graph.nextId ∉ (scope.graph.push (.ofName name .routine)).children package := by
    rw [Graph.children, Graph.get_push_of_contains _ hpackage]
    intro hmem
    exact Nat.lt_irrefl _ (Graph.contains_iff.mp (hwell.graph.children package _ hmem))
  have hgrows : scope.graph.Grows (scope.graph.push (.ofName name .routine)) := .push _ .refl
  rw [declareNew_in_body hframes,
    Graph.membersMatching_addChild_self (hgrows.contains hpackage) hnew,
    hwell.graph.membersMatching_push _ hpackage, Graph.name, Graph.kind, hget]
  rfl

end Scope

namespace Walk

variable {tree : Tree} {dialect : Dialect} {package : BindingId}
  {before middle after session : Session} {name : String} {node : Node tree}

/-! ### Parameters -/

/-- The state changed in nothing that is seen by names that no parameter is meant by. -/
structure Unseen (package : BindingId) (before after : Session) : Prop where
  wellFormed : after.WellFormed
  grows : before.scope.graph.Grows after.scope.graph
  frames : after.scope.frames = before.scope.frames
  hoisted : after.hoisted = before.hoisted
  plain : ∀ localOnly name accepts, accepts .parameter = false →
    after.scope.resolvePlain? localOnly name accepts =
      before.scope.resolvePlain? localOnly name accepts
  members : ∀ name accepts, accepts .parameter = false →
    after.scope.graph.membersMatching package name accepts =
      before.scope.graph.membersMatching package name accepts

theorem Unseen.refl (h : session.WellFormed) : Unseen package session session :=
  ⟨h, .refl, rfl, rfl, fun _ _ _ _ => rfl, fun _ _ _ => rfl⟩

theorem Unseen.trans (hfirst : Unseen package before middle) (hlast : Unseen package middle after) :
    Unseen package before after where
  wellFormed := hlast.wellFormed
  grows := hfirst.grows.trans hlast.grows
  frames := hlast.frames.trans hfirst.frames
  hoisted := hlast.hoisted.trans hfirst.hoisted
  plain localOnly name accepts h :=
    (hlast.plain localOnly name accepts h).trans (hfirst.plain localOnly name accepts h)
  members name accepts h := (hlast.members name accepts h).trans (hfirst.members name accepts h)

/-- One more parameter of any routine. -/
theorem unseen_withParameter (hwell : session.WellFormed)
    (hpackage : session.scope.graph.contains package = true) (owner : BindingId) (name : String)
    (position : Nat) : Unseen package session (withParameter owner name position session) := by
  let binding := (Binding.ofName name .parameter).withPosition position
  have hadded :=
    hwell.scope.add
      ((Binding.wellFormed_ofName session.scope.graph name .parameter).withPosition position)
  have hkind : (session.scope.add binding).2.graph.kind session.scope.graph.nextId =
      .parameter := by
    show ((session.scope.graph.push binding).get session.scope.graph.nextId).kind = .parameter
    rw [Graph.get_push_nextId]
    rfl
  have hother : ∀ {wanted : String} {accepts : Binding.Kind → Bool}, accepts .parameter = false →
      ¬((session.scope.add binding).2.graph.name session.scope.graph.nextId = wanted ∧
        accepts ((session.scope.add binding).2.graph.kind session.scope.graph.nextId) = true) := by
    intro wanted accepts h hmatch
    rw [hkind, h] at hmatch
    exact absurd hmatch.2 Bool.false_ne_true
  have hgrows : session.scope.graph.Grows (withParameter owner name position session).scope.graph :=
    .addChild owner _ (.push binding .refl)
  refine ⟨hwell.withScope (hadded.1.addChild owner hadded.2) hgrows, hgrows, rfl, rfl,
    fun localOnly wanted accepts h => ?_, fun wanted accepts h => ?_⟩
  · exact (Scope.resolvePlain?_addChild (hother h) localOnly).trans
      (hwell.scope.resolvePlain?_add binding localOnly wanted accepts)
  · exact (Graph.membersMatching_addChild (hother h) owner package).trans
      (hwell.scope.graph.membersMatching_push binding hpackage wanted accepts)

theorem unseen_addParameters (dialect : Dialect) (hwell : session.WellFormed)
    (hpackage : session.scope.graph.contains package = true) (owner : BindingId)
    (formals : List (Node tree)) (start : Nat) :
    Unseen package session (addParameters dialect owner formals start session).2 := by
  induction formals generalizing start session with
  | nil => exact .refl hwell
  | cons formal rest ih =>
    unfold addParameters
    rw [List.zipIdx_cons, List.mapM_cons]
    cases hname : dialect.declaredName? formal with
    | none =>
      -- A parameter without a name ends the row, and those before it stay.
      obtain ⟨error, herror⟩ := addParameter_of_none owner start session hname
      rw [Stateful.bind_error herror]
      exact .refl hwell
    | some name =>
      have hfirst := unseen_withParameter hwell hpackage owner name start
      have hrest := ih hfirst.wellFormed (hfirst.grows.contains hpackage) (start + 1)
      unfold addParameters at hrest
      rw [Stateful.bind_ok (addParameter_of_name owner start session hname)]
      rcases hrun : (rest.zipIdx (start + 1)).mapM
          (fun item => addParameter dialect owner item.1 item.2)
        (withParameter owner name start session) with ⟨error | ids, after⟩ <;> rw [hrun] at hrest
      · rw [Stateful.bind_error hrun]
        exact hfirst.trans hrest
      · rw [Stateful.bind_ok hrun]
        exact hfirst.trans hrest

theorem unseen_parameters (dialect : Dialect) (hwell : session.WellFormed)
    (hpackage : session.scope.graph.contains package = true) (owner : BindingId) (node : Node tree)
    (tag : String) : Unseen package session (parameters dialect owner node tag session).2 := by
  rw [parameters_eq]
  split
  · exact unseen_addParameters dialect hwell hpackage owner _ 0
  · exact .refl hwell

/-! ### Routines in a row -/

/-- The node declares the name, in whatever spelling. -/
def declaresName (dialect : Dialect) (name : String) (node : Node tree) : Bool :=
  (dialect.declaredName? node).any (fold · == name)

/-- The ids of the entries whose nodes are chosen, first to last. -/
def chosen (choose : Node tree → Bool) (entries : List (Node tree × BindingId)) : List BindingId :=
  (entries.filter fun entry => choose entry.1).map Prod.snd

theorem chosen_append (choose : Node tree → Bool) (first last : List (Node tree × BindingId)) :
    chosen choose (first ++ last) = chosen choose first ++ chosen choose last := by
  rw [chosen, List.filter_append, List.map_append]
  rfl

theorem chosen_singleton (choose : Node tree → Bool) (node : Node tree) (id : BindingId) :
    chosen choose [(node, id)] = if choose node = true then [id] else [] := by
  rw [chosen, List.filter_singleton, cond_eq_ite]
  split <;> rfl

/-- Routines were declared ahead for the nodes of the entries, in order, in the body of the package.
    They are kept for their nodes, come before all other meanings of their names, and are the last
    members of the package. -/
structure Enters (dialect : Dialect) (package : BindingId) (entries : List (Node tree × BindingId))
    (before after : Session) : Prop where
  wellFormed : after.WellFormed
  body : after.scope.InBodyOf package
  ahead : ∀ node, after.ahead? node = (chosen (· == node) entries).getLast?.or (before.ahead? node)
  plain : ∀ localOnly name accepts, accepts .parameter = false →
    after.scope.resolvePlain? localOnly name accepts =
      (if accepts .routine then (chosen (declaresName dialect name) entries).getLast? else none).or
        (before.scope.resolvePlain? localOnly name accepts)
  members : ∀ name accepts, accepts .parameter = false →
    after.scope.graph.membersMatching package name accepts =
      before.scope.graph.membersMatching package name accepts ++
      if accepts .routine then chosen (declaresName dialect name) entries else []

theorem Enters.nil (hwell : session.WellFormed) (hbody : session.scope.InBodyOf package) :
    Enters dialect package ([] : List (Node tree × BindingId)) session session :=
  ⟨hwell, hbody, fun _ => rfl, fun _ _ _ _ => by simp [chosen], fun _ _ _ => by simp [chosen]⟩

theorem Enters.trans {first last : List (Node tree × BindingId)}
    (hfirst : Enters dialect package first before middle)
    (hlast : Enters dialect package last middle after) :
    Enters dialect package (first ++ last) before after where
  wellFormed := hlast.wellFormed
  body := hlast.body
  ahead node := by
    rw [hlast.ahead, hfirst.ahead, chosen_append, List.getLast?_append, Option.or_assoc]
  plain localOnly name accepts h := by
    rw [hlast.plain localOnly name accepts h, hfirst.plain localOnly name accepts h, chosen_append,
      List.getLast?_append]
    cases accepts .routine
    · rfl
    · simp only [if_true, Option.or_assoc]
  members name accepts h := by
    rw [hlast.members name accepts h, hfirst.members name accepts h, chosen_append]
    cases accepts .routine <;> simp

/-- What was done when a routine was declared ahead: the node has a name, the routine was declared
    by it, its parameters were added, and it was kept for the node. -/
theorem exists_of_hoist {index : Fin tree.size}
    (h : hoist dialect (.present index) session = (.ok (), after)) :
    ∃ name ids last, dialect.declaredName? (Node.present index) = some name ∧
      parameters dialect session.scope.graph.nextId (Node.present index)
        dialect.vocabulary.declarations.parameter (declare (.ofName name .routine) session).2 =
          (.ok ids, last) ∧
      after = { last with hoisted := (index.val, session.scope.graph.nextId) :: last.hoisted } := by
  unfold hoist at h
  cases hname : dialect.declaredName? (Node.present index) with
  | none =>
    rw [Stateful.bind_error (declaredName_of_none session hname)] at h
    cases h
  | some name =>
    have hdeclare : declare (.ofName name .routine) session =
        (.ok session.scope.graph.nextId, (declare (.ofName name .routine) session).2) := rfl
    rw [Stateful.bind_ok (declaredName_of_some session hname), Stateful.bind_ok hdeclare] at h
    rcases hparameters : parameters dialect session.scope.graph.nextId (Node.present index)
      dialect.vocabulary.declarations.parameter
      (declare (.ofName name .routine) session).2 with ⟨error | ids, last⟩
    · rw [Stateful.bind_error hparameters] at h
      cases h
    · rw [Stateful.bind_ok hparameters] at h
      exact ⟨name, ids, last, rfl, hparameters, (Prod.mk.inj h).2.symm⟩

/-- One routine is declared ahead, and its parameters with it. -/
theorem exists_enters_hoist (hwell : session.WellFormed) (hbody : session.scope.InBodyOf package)
    {index : Fin tree.size} (h : hoist dialect (.present index) session = (.ok (), after)) :
    ∃ id, Enters dialect package [(.present index, id)] session after := by
  have hafter := (honest_hoist dialect (.present index)).sound.wellFormed session hwell
    (Graph.holds_nil _)
  rw [h] at hafter
  obtain ⟨name, ids, last, hname, hparameters, rfl⟩ := exists_of_hoist h
  have hadded := hwell.scope.add (Binding.wellFormed_ofName session.scope.graph name .routine)
  have hgrows := (session.scope.learns_declareNew (.ofName name .routine)).grows
  have hdeclared : (declare (.ofName name .routine) session).2.WellFormed :=
    hwell.withScope (hadded.1.declare hadded.2) hgrows
  have hunseen := unseen_parameters dialect hdeclared (hgrows.contains (hbody.contains hwell.scope))
    session.scope.graph.nextId (Node.present index) dialect.vocabulary.declarations.parameter
  rw [hparameters] at hunseen
  have hchosen : ∀ wanted,
      chosen (declaresName dialect wanted) [(Node.present index, session.scope.graph.nextId)] =
      if fold name = wanted then [session.scope.graph.nextId] else [] := by
    intro wanted
    rw [chosen_singleton, declaresName, hname]
    simp
  refine ⟨session.scope.graph.nextId, hafter, ?_, fun node => ?_,
    fun localOnly wanted accepts hwanted => ?_, fun wanted accepts hwanted => ?_⟩
  · obtain ⟨catalog, outer, hframes⟩ := hbody
    exact ⟨_, outer, hunseen.frames.trans
      (congrArg Scope.frames (Scope.declareNew_in_body hframes name))⟩
  · have hbefore : last.ahead? node = session.ahead? node := by
      rw [Session.ahead?, hunseen.hoisted]
      rfl
    rw [ahead?_keep, chosen_singleton, hbefore]
    by_cases hsame : node = .present index
    · simp [hsame]
    · simp [hsame, Ne.symm hsame]
  · -- The parameters are not seen, so only the declaration of the routine counts.
    refine (hunseen.plain localOnly wanted accepts hwanted).trans ?_
    refine (hwell.scope.resolvePlain?_declareNew rfl localOnly wanted accepts).trans ?_
    rw [hchosen]
    show (if fold name = wanted ∧ accepts .routine = true then some session.scope.graph.nextId
      else _) = _
    cases accepts .routine <;> by_cases hsame : fold name = wanted <;> simp [hsame]
  · refine (hunseen.members wanted accepts hwanted).trans ?_
    refine (Scope.membersMatching_declareNew hwell.scope hbody name wanted accepts).trans ?_
    rw [hchosen]
    cases accepts .routine <;> by_cases hsame : fold name = wanted <;> simp [hsame]

/-- Routines are declared ahead one after the other. -/
theorem exists_enters_forM (routines : List (Node tree)) (hwell : session.WellFormed)
    (hbody : session.scope.InBodyOf package)
    (hrules : ∀ routine ∈ routines, dialect.binds routine .routine = true)
    (h : routines.forM (hoist dialect) session = (.ok (), after)) :
    ∃ entries, entries.map Prod.fst = routines ∧ Enters dialect package entries session after := by
  induction routines generalizing session with
  | nil =>
    obtain rfl : session = after := (Prod.mk.inj h).2
    exact ⟨[], rfl, .nil hwell hbody⟩
  | cons routine rest ih =>
    obtain ⟨hrule, hrest⟩ := List.forall_mem_cons.mp hrules
    cases routine with
    | absent => exact absurd hrule (by simp [Dialect.binds, Node.isPresent])
    | present index =>
      replace h : (hoist dialect (.present index) >>= fun _ => rest.forM (hoist dialect)) session =
          (.ok (), after) := h
      rcases hrun : hoist dialect (.present index) session with ⟨error | ⟨⟩, middle⟩
      · rw [Stateful.bind_error hrun] at h
        cases h
      · rw [Stateful.bind_ok hrun] at h
        obtain ⟨id, hfirst⟩ := exists_enters_hoist hwell hbody hrun
        obtain ⟨entries, hnodes, hentries⟩ := ih hfirst.wellFormed hfirst.body hrest h
        exact ⟨(.present index, id) :: entries, by rw [List.map_cons, hnodes],
          hfirst.trans hentries⟩

/-! ### The last routine of a name -/

/-- Of several items with a property there is a last one. -/
theorem exists_split_last {α : Type} {p : α → Bool} {items : List α}
    (h : ∃ item ∈ items, p item = true) :
    ∃ front item back, items = front ++ item :: back ∧ p item = true ∧
      ∀ other ∈ back, p other = false := by
  induction items with
  | nil => simp at h
  | cons first rest ih =>
    by_cases hrest : ∃ item ∈ rest, p item = true
    · obtain ⟨front, item, back, rfl, hitem, hback⟩ := ih hrest
      exact ⟨first :: front, item, back, rfl, hitem, hback⟩
    · have hnone : ∀ other ∈ rest, p other = false := fun other hother =>
        Bool.eq_false_iff.mpr fun hp => hrest ⟨other, hother, hp⟩
      obtain ⟨item, hmem, hitem⟩ := h
      rcases List.mem_cons.mp hmem with rfl | hmem
      · exact ⟨[], item, rest, rfl, hitem, hnone⟩
      · exact absurd ⟨item, hmem, hitem⟩ hrest

theorem getLast?_chosen {choose : Node tree → Bool} {last : Node tree}
    (front : List (Node tree × BindingId)) (id : BindingId) {back : List (Node tree × BindingId)}
    (hlast : choose last = true) (hback : ∀ other ∈ back, choose other.1 = false) :
    (chosen choose (front ++ (last, id) :: back)).getLast? = some id := by
  have hnone : chosen choose back = [] := by
    rw [chosen, List.filter_eq_nil_iff.mpr fun other hother => by simp [hback other hother],
      List.map_nil]
  rw [chosen_append, ← List.singleton_append, chosen_append, hnone, chosen_singleton, if_pos hlast]
  simp

/-- The last routine with a name is kept for its node, and is what the plain name means and the last
    member of the package with the name. -/
theorem Enters.found {front back : List (Node tree × BindingId)} {last : Node tree} {id : BindingId}
    (h : Enters dialect package (front ++ (last, id) :: back) before after)
    (hlast : declaresName dialect name last = true)
    (hback : ∀ other ∈ back, declaresName dialect name other.1 = false)
    {accepts : Binding.Kind → Bool} (hparameter : accepts .parameter = false)
    (hroutine : accepts .routine = true) :
    after.ahead? last = some id ∧
    (∀ localOnly, after.scope.resolvePlain? localOnly name accepts = some id) ∧
      (after.scope.graph.membersMatching package name accepts).getLast? = some id := by
  have hmeant := getLast?_chosen front id hlast hback
  have hkept : (chosen (· == last) (front ++ (last, id) :: back)).getLast? = some id := by
    refine getLast?_chosen front id (beq_self_eq_true last) fun other hother => ?_
    -- What comes later does not declare the name, so it is another node.
    refine beq_eq_false_iff_ne.mpr fun hsame => ?_
    rw [← hsame, hback other hother] at hlast
    cases hlast
  refine ⟨?_, fun localOnly => ?_, ?_⟩
  · rw [h.ahead, hkept]
    rfl
  · rw [h.plain localOnly name accepts hparameter, if_pos hroutine, hmeant]
    rfl
  · rw [h.members name accepts hparameter, if_pos hroutine, List.getLast?_append, hmeant]
    rfl

/-- Declared names are folded. -/
theorem fold_declaredName? (h : dialect.declaredName? node = some name) : fold name = name := by
  simp only [Dialect.declaredName?] at h
  split at h
  · rw [← Option.some.inj h]
    exact fold_fold _
  · cases h

theorem declaresName_iff :
    declaresName dialect name node = true ↔ dialect.declaredName? node = some name := by
  rw [declaresName]
  cases hnode : dialect.declaredName? node with
  | none => simp
  | some found => simp [fold_declaredName? hnode]

/-- Of the nodes that declare a name, listed in the order of the document, the last one has the
    routine that the name means, both as a plain name and as a member of the package. -/
theorem Enters.exists_last {entries : List (Node tree × BindingId)}
    (h : Enters dialect package entries before after)
    (hordered : (entries.map Prod.fst).Pairwise Node.Precedes) (hnode : node ∈ entries.map Prod.fst)
    (hname : dialect.declaredName? node = some name) (accepts : Binding.Kind → Bool)
    (hparameter : accepts .parameter = false) (hroutine : accepts .routine = true) :
    ∃ last ∈ entries.map Prod.fst, ∃ id, dialect.declaredName? last = some name ∧
      (∀ other ∈ entries.map Prod.fst, dialect.declaredName? other = some name → other = last ∨
        other.Precedes last) ∧
      after.ahead? last = some id ∧
      (∀ localOnly, after.scope.resolvePlain? localOnly name accepts = some id) ∧
      (after.scope.graph.membersMatching package name accepts).getLast? = some id := by
  obtain ⟨found, hfound, rfl⟩ := List.mem_map.mp hnode
  have hnamed : ∃ entry ∈ entries, declaresName dialect name entry.1 = true :=
    ⟨found, hfound, declaresName_iff.mpr hname⟩
  obtain ⟨front, ⟨last, id⟩, back, rfl, hlast, hback⟩ := exists_split_last hnamed
  refine ⟨last, by simp, id, declaresName_iff.mp hlast, fun other hother hsame => ?_,
    h.found hlast hback hparameter hroutine⟩
  rw [List.map_append, List.map_cons] at hother hordered
  rcases List.mem_append.mp hother with hbefore | hlater
  · exact .inr ((List.pairwise_append.mp hordered).2.2 other hbefore last List.mem_cons_self)
  · rcases List.mem_cons.mp hlater with hself | hlater
    · exact .inl hself
    · -- What comes later does not declare the name.
      obtain ⟨entry, hentry, rfl⟩ := List.mem_map.mp hlater
      have hnot := hback entry hentry
      rw [declaresName_iff.mpr hsame] at hnot
      cases hnot

/-! ### Packages -/

/-- The state in which the routines of a package are declared ahead: the package is declared, and
    its body is open. -/
def enterPackage (name : String) (session : Session) : Session :=
  let declared := (declare (.ofName name .package) session).2
  { declared with scope := declared.scope.push (.body (some session.scope.graph.nextId)) }

theorem within_congr {frame : Frame} {first second : Walk Unit}
    (h : first { session with scope := session.scope.push frame } =
      second { session with scope := session.scope.push frame }) :
    within frame first session = within frame second session := by
  simp only [within, h]

/-- The rest of a package is read in the state in which its routines have been declared. -/
theorem package_eq_within (hname : dialect.declaredName? node = some name)
    (h : hoistAll dialect node (enterPackage name session) = (.ok (), after))
    (walk : Node tree → Walk Unit) :
    Walk.package dialect walk node session =
      within (.body (some session.scope.graph.nextId))
        (fun _ => (dialect.packageBody node).forM walk after)
        (declare (.ofName name .package) session).2 := by
  have hdeclare : declare (.ofName name .package) session =
      (.ok session.scope.graph.nextId, (declare (.ofName name .package) session).2) := rfl
  have hbody : (hoistAll dialect node >>= fun _ => (dialect.packageBody node).forM walk)
      (enterPackage name session) = (dialect.packageBody node).forM walk after := Stateful.bind_ok h
  unfold Walk.package
  rw [Stateful.bind_ok (declaredName_of_some session hname), Stateful.bind_ok hdeclare]
  exact within_congr hbody

section

variable (hwell : session.WellFormed) (name : String)

include hwell

theorem wellFormed_enterPackage : (enterPackage name session).WellFormed := by
  have hadded := hwell.scope.add (Binding.wellFormed_ofName session.scope.graph name .package)
  have hdeclared := hadded.1.declare hadded.2
  have hgrows := (session.scope.learns_declareNew (.ofName name .package)).grows
  have hid : (session.scope.declareNew (.ofName name .package)).2.graph.contains
      session.scope.graph.nextId = true :=
    ((session.scope.add (.ofName name .package)).2.grows_declare _).contains hadded.2
  refine hwell.withScope (hdeclared.push ⟨Graph.holds_singleton hid, ?_⟩) hgrows
  rintro catalog hcatalog
  rw [List.mem_singleton.mp hcatalog]
  exact Catalog.wellFormed_empty _

/-- At the outermost level, the name of a package qualifies names by that package, whatever
    else goes by it. -/
theorem resolvePlain?_enterPackage (hroot : session.scope.frames = []) (localOnly : Bool) :
    (enterPackage name session).scope.resolvePlain? localOnly (fold name) Binding.Kind.isContainer =
      some session.scope.graph.nextId := by
  let added := (session.scope.add (.ofName name .package)).2
  have hget : added.graph.get session.scope.graph.nextId = .ofName name .package :=
    session.scope.graph.get_push_nextId _
  have hnew : session.scope.graph.nextId ∉ added.root.catalog.order :=
    hwell.scope.undeclared_add (.ofName name .package) _ List.mem_cons_self
  have hscope : (enterPackage name session).scope =
      (added.declareGlobal session.scope.graph.nextId).push
        (.body (some session.scope.graph.nextId)) := by
    show (added.declare session.scope.graph.nextId).push _ = _
    rw [Scope.declare, show added.frames = [] from hroot]
    rfl
  have hbody : ([Frame.body (some session.scope.graph.nextId)].findSome?
      (·.resolve? added.graph (fold name) Binding.Kind.isContainer)) = none := by
    simp [Frame.body, Frame.resolve?, Catalog.lookup?, Catalog.named, Catalog.empty]
  rw [hscope, Scope.resolvePlain?_eq_or]
  show (((Frame.body (some session.scope.graph.nextId) :: added.frames).findSome?
      (·.resolve? added.graph (fold name) Binding.Kind.isContainer)).or
    ((added.root.catalog.add added.graph session.scope.graph.nextId).lookup? added.graph
      (fold name) _)).or _ = _
  rw [show added.frames = [] from hroot, hbody, Catalog.lookup?_add hnew, Graph.name, Graph.kind,
    hget, if_pos ⟨rfl, rfl⟩]
  rfl

end

/-- Under the name of its owner, a name means the last member that goes by it. -/
theorem resolve?_qualifiedBy {scope : Scope} {qualifier : String} (hsome : fold qualifier ≠ "")
    (hdot : '.' ∉ qualifier.toList) {owner : BindingId}
    (howner : scope.resolvePlain? false (fold qualifier) Binding.Kind.isContainer = some owner)
    (name : String) (kind : Binding.Kind) :
    scope.resolve? (((QualifiedName.ofName name).qualifiedBy qualifier).ofKind kind) =
      (scope.graph.membersMatching owner (fold name) (kind == ·)).getLast? := by
  rw [QualifiedName.qualifiedBy_of_not_mem hdot, if_neg hsome]
  exact Scope.resolveUnder?_of_owner howner (fold name) (kind == ·)

/-- When a package is visited at the outermost level and its routines have been declared ahead, the
    rest of the package is read in the state after that. In this state, the name of a routine that
    is declared by the package itself means the routine of the last node in the document that
    declares the name, both as a plain name and under the name of the package, whatever was declared
    before and whatever the tags of the nodes are. -/
theorem package_routines_found {schema : Schema} {session after : Session}
    (h : Reachable schema session) (hroot : session.scope.frames = []) {document : Document}
    {dialect : Dialect} {package : Node (Tree.ofDocument document)} {name : String}
    (hname : dialect.declaredName? package = some name) (hsome : name ≠ "")
    (hdot : '.' ∉ name.toList)
    (hhoists : hoistAll dialect package (enterPackage name session) = (.ok (), after)) :
    (∀ walk, Walk.package dialect walk package session =
      within (.body (some session.scope.graph.nextId))
        (fun _ => (dialect.packageBody package).forM walk after)
        (declare (.ofName name .package) session).2) ∧
    ∀ routine routineName, dialect.OwnRoutine package routine →
      dialect.declaredName? routine = some routineName →
      ∃ last id, dialect.OwnRoutine package last ∧ dialect.declaredName? last = some routineName ∧
        (∀ other, dialect.OwnRoutine package other →
          dialect.declaredName? other = some routineName → other = last ∨ other.Precedes last) ∧
        after.ahead? last = some id ∧
        after.scope.resolve? ((QualifiedName.ofName routineName).ofKind .routine) = some id ∧
        after.scope.resolve? (((QualifiedName.ofName routineName).qualifiedBy name).ofKind .routine)
          = some id ∧
        ('.' ∉ routineName.toList →
          after.scope.resolve? ((QualifiedName.parse (name ++ "." ++ routineName)).ofKind .routine)
            = some id) := by
  have hwell := h.wellFormed
  refine ⟨package_eq_within hname hhoists, fun routine routineName hroutine hdeclares => ?_⟩
  have hfolded := fold_declaredName? hdeclares
  have hnonblank : fold name ≠ "" := by rwa [fold_declaredName? hname]
  obtain ⟨entries, hnodes, henters⟩ := exists_enters_forM (dialect.routinesOf package)
    (wellFormed_enterPackage hwell name) ⟨_, _, rfl⟩
    (fun node hnode => ((dialect.mem_routinesOf_iff package).mp hnode).isRoutine) hhoists
  have hown : ∀ {node}, dialect.OwnRoutine package node ↔ node ∈ entries.map Prod.fst := by
    intro node
    rw [hnodes, dialect.mem_routinesOf_iff]
  have hordered : (entries.map Prod.fst).Pairwise Node.Precedes :=
    hnodes ▸ dialect.pairwise_routinesOf package
  obtain ⟨last, hlast, id, hdeclared, hfinal, hkept, hplain, hmember⟩ :=
    henters.exists_last hordered (hown.mp hroutine) hdeclares (.routine == ·) rfl rfl
  -- The package is what its name means, since neither routines nor parameters can qualify a name.
  have howner : after.scope.resolvePlain? false (fold name) Binding.Kind.isContainer =
      some session.scope.graph.nextId := by
    rw [henters.plain false (fold name) Binding.Kind.isContainer rfl]
    exact resolvePlain?_enterPackage hwell name hroot false
  have hqualified : after.scope.resolve?
      (((QualifiedName.ofName routineName).qualifiedBy name).ofKind .routine) = some id := by
    rw [resolve?_qualifiedBy hnonblank hdot howner, hfolded]
    exact hmember
  refine ⟨last, id, hown.mpr hlast, hdeclared, fun other hother => hfinal other (hown.mp hother),
    hkept, ?_, hqualified, fun hplainName => ?_⟩
  · show after.scope.resolvePlain? false (fold routineName) (.routine == ·) = some id
    rw [hfolded]
    exact hplain false
  · rw [QualifiedName.parse_eq_qualifiedBy hdot hplainName]
    exact hqualified

/-- A package with a procedure and a function of one name and another procedure. The first procedure
    has one of its own name inside. -/
def overloaded : Document :=
  .inner "create_package_body"
    [.inner "package_name" [.identifier "P"],
     .inner "procedure_body" [.identifier "f", .inner "procedure_body" [.identifier "f"]],
     .inner "function_body" [.identifier "F", .inner "parameter" [.identifier "a"]],
     .inner "procedure_body" [.identifier "g"]]

/-- In the package of `overloaded`, after a routine of the same name was declared outside of it, the
    name means the function. -/
theorem package_routines_found_overloaded :
    let tree := Tree.ofDocument overloaded
    let session :=
      ((Operation.declare ⟨0⟩).run
        ((Operation.add "f" .routine none none []).run (.ofSchema .empty)).2).2
    let outcome := hoistAll Dialect.plsql tree.root (enterPackage "p" session)
    outcome.1 = .ok () ∧ session.scope.globals.map session.scope.graph.name = ["f"] ∧
      ∃ id, outcome.2.ahead? (Node.ofIndex tree 10) = some id ∧
        outcome.2.scope.resolve? ((QualifiedName.ofName "f").ofKind .routine) = some id ∧
        outcome.2.scope.resolve? ((QualifiedName.parse "p.f").ofKind .routine) = some id := by
  intro tree session outcome
  have hreachable : Reachable .empty session :=
    .after _ (.after _ .start ⟨Graph.holds_nil _, by simp [Operation.catalogs]⟩)
      ⟨by decide +kernel, by simp [Operation.catalogs]⟩
  have hroot : session.scope.frames = [] := rfl
  have hpackage : Dialect.plsql.declaredName? tree.root = some "p" := by decide +kernel
  have hok : outcome.1 = .ok () := by decide +kernel
  have hpair : ∀ result : Except Error Unit × Session, result.1 = .ok () →
      result = (.ok (), result.2) :=
    fun result h => Prod.ext h rfl
  have hhoists := hpair outcome hok
  have hroutines : Dialect.plsql.routinesOf tree.root =
      [.ofIndex tree 4, .ofIndex tree 10, .ofIndex tree 16] := by
    decide +kernel
  have hfunction : Dialect.plsql.OwnRoutine tree.root (.ofIndex tree 10) := by
    rw [← Dialect.mem_routinesOf_iff, hroutines]
    simp
  have hname : Dialect.plsql.declaredName? (Node.ofIndex tree 10) = some "f" := by decide +kernel
  obtain ⟨last, id, hlast, hdeclares, hfinal, hkept, hplain, _, hdotted⟩ :=
    (package_routines_found hreachable hroot hpackage (by decide) (by decide) hhoists).2 _ _
      hfunction hname
  have hsame : last = .ofIndex tree 10 := by
    rcases hfinal _ hfunction hname with hsame | ⟨index, place, hindex, rfl, hlt⟩
    · exact hsame.symm
    · -- The only routine of the package that comes later has another name.
      have hlate : ∀ place : Fin tree.size, 10 < place.val →
          Node.present place ∈ Dialect.plsql.routinesOf tree.root →
          Dialect.plsql.declaredName? (Node.present place) ≠ some "f" := by decide +kernel
      have hten : index.val = 10 := by
        have hindex? := congrArg Node.index? hindex
        exact (Option.some.inj hindex?).symm
      rw [Fin.lt_def, hten] at hlt
      exact absurd hdeclares
        (hlate place hlt ((Dialect.plsql.mem_routinesOf_iff tree.root).mpr hlast))
  exact ⟨hok, by decide +kernel, id, hsame ▸ hkept, hplain, hdotted (by decide)⟩

end Walk

end Lineage
