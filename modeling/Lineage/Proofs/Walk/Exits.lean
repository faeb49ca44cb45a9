import Lineage.Proofs.Scope.Shadowing
import Lineage.Proofs.Walk.Operations

/-!
# What is left of a level after its exit

While a body or a query is open, whatever is declared and is not global goes to it or to a level
inside it. So the levels around it know the same names after its exit as they did before its entry,
whatever was done in between and however much of it failed. The root has gained what is global by
its kind and what was declared there on purpose, in that order, and nothing else.

## Key results

- `Scope.Encloses`: a level that takes declarations stands between the names around it and the
  current place
- `leaves_run`: what one step inside such a level leaves of the names around and of the root
- `Within.encloses`, `Within.root`: what steps in a row leave of them
- `declarations_shadow_until_exit`: what a declaration does to the meaning of plain names, and that
  it ends with its level
-/

namespace Lineage

/-! ### Levels around a body or a query -/

namespace Frame

variable {frame after : Frame} {graph graph' : Graph} {id : BindingId}

/-- Bodies and queries are the levels that know names. -/
theorem catalogs_ne_nil_iff :
    frame.catalogs ≠ [] ↔ frame.role = "lexical" ∨ frame.role = "select" := by
  cases frame <;> simp [catalogs, role]

/-- A level that takes a declaration knows names. -/
theorem catalogs_of_declare? (h : frame.declare? graph id = some (after, graph')) :
    after.catalogs ≠ [] := by
  rcases declare?_cases h with ⟨_, _, _, rfl, _⟩ | ⟨_, _, rfl, _⟩ <;> simp [catalogs]

end Frame

namespace Scope

/-- Inside the levels with the names `below` there is one that knows names itself, and possibly
    others further inside. -/
inductive Encloses (below : List (List Catalog)) : List (List Catalog) → Prop where
  | here {level : List Catalog} : level ≠ [] → Encloses below (level :: below)
  | inside (level : List Catalog) {known : List (List Catalog)} : Encloses below known →
      Encloses below (level :: known)

namespace Encloses

variable {below known : List (List Catalog)}

theorem lt (h : Encloses below known) : below.length < known.length := by
  induction h with
  | here _ => exact Nat.lt_succ_self _
  | inside level _ ih => exact Nat.lt_succ_of_lt ih

/-- Closing levels further inside. -/
theorem drop (h : Encloses below known) {count : Nat}
    (hleft : below.length < (known.drop count).length) : Encloses below (known.drop count) := by
  induction h generalizing count with
  | here hlevel =>
    cases count with
    | zero => exact .here hlevel
    | succ count =>
      rw [List.drop_succ_cons, List.length_drop] at hleft
      omega
  | inside level hknown ih =>
    cases count with
    | zero => exact .inside level hknown
    | succ count => exact ih hleft

/-- Closing all levels inside leaves those around. -/
theorem drop_eq (h : Encloses below known) : known.drop (known.length - below.length) = below := by
  induction h with
  | here _ => simp
  | inside level hknown ih =>
    have hlt := hknown.lt
    rw [List.length_cons, Nat.succ_sub (Nat.le_of_lt hlt), List.drop_succ_cons, ih]

/-- Another level in the place of the innermost one, if that knows names. -/
theorem replace {top top' : List Catalog} (h : Encloses below (top :: known)) (htop : top' ≠ []) :
    Encloses below (top' :: known) := by
  cases h with
  | here _ => exact .here htop
  | inside _ hknown => exact .inside top' hknown

end Encloses

/-- What is not global is declared inside. -/
theorem Encloses.declareAmong? {below : List (List Catalog)} {id : BindingId} {graph : Graph}
    {frames : List Frame} (h : Encloses below (frames.map Frame.catalogs))
    (hkind : (graph.kind id).isGlobal = false) :
    ∃ after graph', Scope.declareAmong? id graph frames = some (after, graph') ∧
      Encloses below (after.map Frame.catalogs) := by
  induction frames with
  | nil => cases h
  | cons frame rest ih =>
    cases hframe : frame.declare? graph id with
    | some declared =>
      exact ⟨declared.1 :: rest, declared.2, by simp [Scope.declareAmong?, hframe],
        h.replace (Frame.catalogs_of_declare? hframe)⟩
    | none =>
      -- A level that does not take it is not the one that encloses.
      have hrest : Encloses below (rest.map Frame.catalogs) := by
        cases h with
        | here hlevel =>
          obtain ⟨declared, hdeclared⟩ :=
            declare?_of_role (Frame.catalogs_ne_nil_iff.mp hlevel) hkind
          rw [hdeclared] at hframe
          cases hframe
        | inside _ hknown => exact hknown
      obtain ⟨after, graph', hinner, hencloses⟩ := ih hrest
      exact ⟨frame :: after, graph', by simp [Scope.declareAmong?, hframe, hinner],
        .inside _ hencloses⟩

end Scope

namespace Graph

/-- Bindings stay, with their names and kinds. -/
def SameLabels (before after : Graph) : Prop :=
  ∀ id, before.contains id = true →
    after.contains id = true ∧ after.name id = before.name id ∧ after.kind id = before.kind id

variable {before middle after : Graph}

theorem Extends.sameLabels {commented : List BindingId} (h : before.Extends commented after) :
    before.SameLabels after :=
  fun id hid => ⟨h.contains id hid, (h.binding id hid).name, (h.binding id hid).kind⟩

theorem SameLabels.trans (hfirst : before.SameLabels middle) (hlast : middle.SameLabels after) :
    before.SameLabels after := by
  intro id hid
  obtain ⟨hmiddle, hname, hkind⟩ := hfirst id hid
  obtain ⟨hafter, hname', hkind'⟩ := hlast id hmiddle
  exact ⟨hafter, hname'.trans hname, hkind'.trans hkind⟩

end Graph

namespace Walk

namespace Operation

/-- The operation is one step, and not a rule of the analysis, which takes many. -/
def isStep : Operation → Bool
  | apply .. | visit .. => false
  | _ => true

/-- The binding that the operation declares at the root from inside a body or a query: because of
    its kind, or because that is what the operation is for. -/
def globalOf? (graph : Graph) : Operation → Option BindingId
  | declareGlobal id => some id
  | declare id => if (graph.kind id).isGlobal then some id else none
  | _ => none

theorem mem_ids_of_globalOf? {operation : Operation} {graph : Graph} {id : BindingId}
    (h : operation.globalOf? graph = some id) : id ∈ operation.ids := by
  cases operation with
  | declareGlobal other => simpa [globalOf?, ids, eq_comm] using h
  | declare other =>
    simp only [globalOf?] at h
    split at h
    · simpa [ids, eq_comm] using h
    · cases h
  | _ => simp [globalOf?] at h

theorem known_sendInnermost (id : BindingId) (session : Session) :
    (offerInnermost id session).2.scope.known = session.scope.known := by
  unfold offerInnermost
  split
  · next scope hsent =>
    rcases Scope.exists_of_receiveInnermost hsent with
        rfl | ⟨frame, taken, rest, graph, hframes, hreceive, rfl⟩
    · rfl
    · have htaken : taken.catalogs = frame.catalogs := by
        rw [(Frame.eq_taking_of_receive hreceive).2, frame.catalogs_taking]
      simp only [Scope.known, hframes, List.map_cons, htaken]
  · rfl
  · rfl

end Operation

/-! ### One step -/

/-- What a step inside a body or a query leaves: the names around are the same, and the root has at
    most one declaration more. -/
structure Leaves (below : List (List Catalog)) (gained : Option BindingId) (before after : Scope) :
    Prop where
  encloses : Scope.Encloses below after.known
  root : after.root =
    { before.root with catalog := gained.toList.foldl (·.add before.graph) before.root.catalog }

variable {below : List (List Catalog)}

/-- A step that leaves the root alone and closes no more than the levels inside. -/
theorem leaves_of_drop {before after : Scope} (h : Scope.Encloses below before.known) {count : Nat}
    (hknown : after.known = before.known.drop count) (hopen : below.length < after.known.length)
    (hroot : after.root = before.root) : Leaves below none before after where
  encloses := by
    rw [hknown] at hopen ⊢
    exact h.drop hopen
  root := hroot

theorem leaves_declareGlobal {scope : Scope} (h : Scope.Encloses below scope.known)
    (id : BindingId) : Leaves below (some id) scope (scope.declareGlobal id) :=
  ⟨h, rfl⟩

theorem leaves_declare {scope : Scope} (h : Scope.Encloses below scope.known) (id : BindingId) :
    Leaves below ((Operation.declare id).globalOf? scope.graph) scope (scope.declare id) := by
  cases hkind : (scope.graph.kind id).isGlobal with
  | true =>
    rw [Scope.declare, Scope.declareAmong?_of_global hkind, Operation.globalOf?, if_pos hkind]
    exact leaves_declareGlobal h id
  | false =>
    obtain ⟨frames, graph, hdeclared, hencloses⟩ := Scope.Encloses.declareAmong? h hkind
    rw [Scope.declare, hdeclared, Operation.globalOf?, if_neg (by simp [hkind])]
    exact ⟨hencloses, rfl⟩

theorem leaves_declareInnermost {scope : Scope} (h : Scope.Encloses below scope.known)
    (id : BindingId) : Leaves below none scope ((scope.declareInnermost? id).getD scope) := by
  cases hframes : scope.frames with
  | nil =>
    have hlt := h.lt
    simp [hframes] at hlt
  | cons frame rest =>
    cases hdeclared : frame.declare? scope.graph id with
    | none =>
      simp only [Scope.declareInnermost?, hframes, hdeclared]
      exact ⟨h, rfl⟩
    | some declared =>
      simp only [Scope.declareInnermost?, hframes, hdeclared]
      refine ⟨?_, rfl⟩
      rw [Scope.known, hframes] at h
      exact h.replace (Frame.catalogs_of_declare? hdeclared)

/-- The step lemma: whatever a step does, it leaves the names around. -/
theorem leaves_run {operation : Operation} (hstep : operation.isStep = true) {session : Session}
    (h : Scope.Encloses below session.scope.known)
    (hopen : below.length < (operation.run session).2.scope.known.length) :
    Leaves below (operation.globalOf? session.scope.graph) session.scope
      (operation.run session).2.scope := by
  cases operation with
  -- These change the graph only.
  | add name kind comment position types => exact ⟨h, rfl⟩
  | addChild parent child => exact ⟨h, rfl⟩
  | addOutput source target => exact ⟨h, rfl⟩
  | setComment id comment => exact ⟨h, rfl⟩
  | childOrInsert parent name kind => exact ⟨h, rfl⟩
  | push frame => exact ⟨.inside frame.catalogs h, rfl⟩
  | pop => exact leaves_of_drop h session.scope.known_pop hopen session.scope.root_pop
  | unwind height finish =>
    exact leaves_of_drop h (session.scope.known_unwind height finish) hopen
      (session.scope.root_unwind height finish)
  | declare id => exact leaves_declare h id
  | declareGlobal id => exact leaves_declareGlobal h id
  | declareInnermost id => exact leaves_declareInnermost h id
  -- Deliveries and what a query or an assignment collects change no names.
  | send id =>
    exact ⟨(Scope.known_receiveAll [id] session.scope).symm ▸ h,
      Scope.root_receiveAll [id] session.scope⟩
  | sendInnermost id =>
    exact ⟨(Operation.known_sendInnermost id session).symm ▸ h,
      Operation.root_sendInnermost id session⟩
  | flushElement position =>
    exact ⟨(session.scope.known_flushElement position).symm ▸ h,
      session.scope.root_flushElement position⟩
  | restartAssignment queries =>
    exact ⟨(session.scope.known_restartAssignment? queries).symm ▸ h,
      session.scope.root_restartAssignment? queries⟩
  | renameSource relation aliasName =>
    exact ⟨(session.scope.known_renameSource? relation aliasName).symm ▸ h,
      session.scope.root_renameSource? relation aliasName⟩
  | apply dialect levels node rule => simp [Operation.isStep] at hstep
  | visit dialect levels node => simp [Operation.isStep] at hstep

/-! ### Steps in a row -/

/-- Steps one after the other, whether they fail or not, each on ids that exist, and with more than
    `height` levels open after each of them. -/
inductive Within (height : Nat) : List Operation → Session → Session → Prop where
  | nil (session : Session) : Within height [] session session
  | cons {operation : Operation} {rest : List Operation} {session last : Session} :
      operation.isStep = true →
      operation.Allowed session.scope.graph → height < (operation.run session).2.scope.height →
      Within height rest (operation.run session).2 last →
      Within height (operation :: rest) session last

theorem sameLabels_run (operation : Operation) (session : Session) :
    session.scope.graph.SameLabels (operation.run session).2.scope.graph :=
  ((operation.extends_moments session).2 session List.mem_cons_self).sameLabels

/-- What a step declares at the root can be told from any later graph. -/
theorem globalOf?_later {operation : Operation} {before after : Graph}
    (hallowed : operation.Allowed before) (h : before.SameLabels after) :
    operation.globalOf? after = operation.globalOf? before := by
  cases operation with
  | declare id =>
    obtain ⟨_, _, hkind⟩ := h id (hallowed.ids id (by simp [Operation.ids]))
    rw [Operation.globalOf?, Operation.globalOf?, hkind]
  | _ => rfl

namespace Within

variable {height : Nat} {operations : List Operation} {session last : Session}

theorem sameLabels (h : Within height operations session last) :
    session.scope.graph.SameLabels last.scope.graph := by
  induction h with
  | nil session => exact fun _ hid => ⟨hid, rfl, rfl⟩
  | cons _ _ _ _ ih => exact (sameLabels_run _ _).trans ih

theorem leaves_head {operation : Operation} (hstep : operation.isStep = true)
    (hopen : below.length + 1 < (operation.run session).2.scope.height)
    (hencloses : Scope.Encloses below session.scope.known) :
    Leaves below (operation.globalOf? session.scope.graph) session.scope
      (operation.run session).2.scope := by
  refine leaves_run hstep hencloses ?_
  rw [Scope.height] at hopen
  rw [Scope.length_known]
  omega

/-- The names around a body or a query stay as long as it is open. -/
theorem encloses (h : Within (below.length + 1) operations session last)
    (hencloses : Scope.Encloses below session.scope.known) :
    Scope.Encloses below last.scope.known := by
  induction h with
  | nil session => exact hencloses
  | cons hstep _ hopen _ ih => exact ih (leaves_head hstep hopen hencloses).encloses

/-- The root gains what is declared there, in order. -/
theorem root (h : Within (below.length + 1) operations session last)
    (hencloses : Scope.Encloses below session.scope.known) {graph : Graph}
    (hgraph : last.scope.graph.SameLabels graph) :
    last.scope.root = { session.scope.root with
      catalog := (operations.filterMap (·.globalOf? graph)).foldl
        (·.add graph) session.scope.root.catalog } := by
  induction h with
  | nil session => rfl
  | @cons operation rest session last hstep hallowed hopen hrest ih =>
    have hleaves := leaves_head hstep hopen hencloses
    have hlater : session.scope.graph.SameLabels graph :=
      (sameLabels_run _ _).trans (hrest.sameLabels.trans hgraph)
    rw [ih hleaves.encloses hgraph, hleaves.root, List.filterMap_cons,
      globalOf?_later hallowed hlater]
    cases hglobal : operation.globalOf? session.scope.graph with
    | none => rfl
    | some id =>
      -- The name under which the binding was entered is the one that it still has.
      have hid := hallowed.ids id (Operation.mem_ids_of_globalOf? hglobal)
      have hadd : session.scope.root.catalog.add session.scope.graph id =
          session.scope.root.catalog.add graph id := by
        rw [Catalog.add, Catalog.add, (hlater id hid).2.1]
      simp only [Option.toList_some, List.foldl_cons, List.foldl_nil, hadd]

end Within

/-! ### Declarations until exit -/

/-- By induction on the operations that lead to the state. -/
theorem Reachable.wellFormed {schema : Schema} {session : Session} (h : Reachable schema session) :
    session.WellFormed := by
  induction h with
  | start => exact Session.wellFormed_ofSchema schema
  | after operation _ hallowed ih => exact (Operation.wellFormed_moments ih hallowed).1
  | during operation _ hallowed hmoment ih =>
    exact (Operation.wellFormed_moments ih hallowed).2 _ hmoment

theorem resolve?_of_plain {name : QualifiedName} (h : name.qualifier = []) (scope : Scope) :
    scope.resolve? name = scope.resolvePlain? name.localOnly name.name name.accepts := by
  rw [Scope.resolve?, h]
  rfl

/-- In all states that can be reached, a binding that is not global and is declared for the first
    time, such as a new one, is what its plain name means from then on, without a kind or with
    its own kind, and every plain name that is another one or asks for another kind means what it
    did before. This lasts until the exit of the level: when a body or a query was entered, and
    anything was done without leaving it, and all levels are closed or left down to the height
    before its entry, each level knows the names that it knew. Only the root may know more,
    namely the relations and packages that were declared and what was declared there on purpose,
    in that order. -/
theorem declarations_shadow_until_exit {schema : Schema} {session : Session}
    (h : Reachable schema session) :
    (∀ id, session.scope.Undeclared id → (session.scope.graph.kind id).isGlobal = false →
      ∀ name : QualifiedName, name.qualifier = [] →
        (session.scope.declare id).resolve? name =
          if session.scope.graph.name id = name.name ∧
              name.accepts (session.scope.graph.kind id) = true then some id
          else session.scope.resolve? name) ∧
    (∀ binding : Binding, binding.kind.isGlobal = false → ∀ name : QualifiedName,
      name.qualifier = [] → (session.scope.declareNew binding).2.resolve? name =
        if binding.name = name.name ∧ name.accepts binding.kind = true then
          some (session.scope.declareNew binding).1
        else session.scope.resolve? name) ∧
    ∀ frame : Frame, frame.role = "lexical" ∨ frame.role = "select" →
      (Operation.push frame).Allowed session.scope.graph →
      ∀ operations last, Within session.scope.height operations
        ((Operation.push frame).run session).2 last →
        ∀ finish, let after := (last.scope.unwind session.scope.height finish).2
          after.known = session.scope.known ∧
          after.root = { session.scope.root with
            catalog := (operations.filterMap (·.globalOf? after.graph)).foldl (·.add after.graph)
              session.scope.root.catalog } := by
  have hwell := h.wellFormed
  refine ⟨fun id hnew hkind name hplain => ?_, fun binding hkind name hplain => ?_,
    fun frame hframe _ operations last hwithin finish => ?_⟩
  · rw [resolve?_of_plain hplain, resolve?_of_plain hplain]
    exact Scope.resolvePlain?_declare hnew hkind _ _ _
  · rw [resolve?_of_plain hplain, resolve?_of_plain hplain]
    exact hwell.scope.resolvePlain?_declareNew hkind _ _ _
  · intro after
    have hentered : Scope.Encloses session.scope.known
        ((Operation.push frame).run session).2.scope.known :=
      .here (Frame.catalogs_ne_nil_iff.mpr hframe)
    rw [Scope.height, ← Scope.length_known] at hwithin
    refine ⟨?_, ?_⟩
    · -- Unwinding closes just the levels that were opened since.
      have hlast := (hwithin.encloses hentered).drop_eq
      have hcount : last.scope.height - max session.scope.height 1 =
          last.scope.known.length - session.scope.known.length := by
        rw [Scope.height, Scope.height, Scope.length_known, Scope.length_known]
        omega
      rw [last.scope.known_unwind, hcount, hlast]
    · have hlabels : last.scope.graph.SameLabels after.graph :=
        (Graph.extends_of_grows (last.scope.grows_unwind session.scope.height finish)).sameLabels
      exact (last.scope.root_unwind session.scope.height finish).trans
        (hwithin.root hentered hlabels)

/-- A variable is declared in a body, and a variable of the same name and a package in a
    query inside it. -/
theorem declarations_shadow_until_exit_query :
    let schema : Schema := .oneTable "t" ["a"]
    let opened := ((Operation.push (.body none)).run (.ofSchema schema)).2
    let session := ((Operation.add "x" .var none none []).run opened).2
    let inner :=
      [Operation.add "X" .var none none [], .declare ⟨3⟩, .add "p" .package none none [],
        .declare ⟨4⟩]
    let entered := ((Operation.push .query).run session).2
    let last := inner.foldl (fun session operation => (operation.run session).2) entered
    let after := (last.scope.unwind session.scope.height true).2
    (session.scope.declare ⟨2⟩).resolve? (.ofName "X") = some ⟨2⟩ ∧
      (session.scope.declare ⟨2⟩).resolve? ((QualifiedName.ofName "x").ofKind .record) =
        session.scope.resolve? ((QualifiedName.ofName "x").ofKind .record) ∧
      (session.scope.declare ⟨2⟩).resolve? (.ofName "t") = session.scope.resolve? (.ofName "t") ∧
      (session.scope.declareNew (.ofName "y" .field)).2.resolve? (.ofName "Y") = some ⟨3⟩ ∧
      last.scope.roles = ["root", "lexical", "select"] ∧ after.known = session.scope.known ∧
      after.root.catalog = Catalog.empty.add after.graph ⟨4⟩ := by
  intro schema opened session inner entered last after
  have hopened : Reachable schema opened := .after _ .start ⟨Graph.holds_nil _, by
    simp only [Operation.catalogs, Frame.body, Frame.catalogs, List.mem_singleton]
    rintro catalog rfl
    exact ⟨[], Graph.holds_nil _, rfl⟩⟩
  have hsession : Reachable schema session :=
    .after _ hopened ⟨Graph.holds_nil _, by simp [Operation.catalogs]⟩
  obtain ⟨hdeclare, hnew, hexit⟩ := declarations_shadow_until_exit hsession
  have hundeclared : session.scope.Undeclared ⟨2⟩ := by
    intro catalog hcatalog
    have hempty : catalog.order = [] := by
      rcases List.mem_cons.mp hcatalog with rfl | hcatalog
      · rfl
      · rw [List.mem_singleton.mp hcatalog]
        rfl
    simp [hempty]
  have hinner : Within session.scope.height inner entered last := by
    refine .cons rfl ⟨Graph.holds_nil _, by simp [Operation.catalogs]⟩ (by decide +kernel) ?_
    refine .cons rfl ⟨by decide +kernel, by simp [Operation.catalogs]⟩ (by decide +kernel) ?_
    refine .cons rfl ⟨Graph.holds_nil _, by simp [Operation.catalogs]⟩ (by decide +kernel) ?_
    exact .cons rfl ⟨by decide +kernel, by simp [Operation.catalogs]⟩ (by decide +kernel) (.nil _)
  have hquery : (Operation.push .query).Allowed session.scope.graph := ⟨Graph.holds_nil _, by
    simp only [Operation.catalogs, Frame.query, Frame.catalogs, QueryScope.empty,
      List.mem_singleton]
    rintro catalog rfl
    exact ⟨[], Graph.holds_nil _, rfl⟩⟩
  obtain ⟨hknown, hroot⟩ := hexit .query (.inr rfl) hquery inner last hinner true
  have hglobals : inner.filterMap (·.globalOf? after.graph) = [⟨4⟩] := by decide +kernel
  refine ⟨?_, ?_, ?_, ?_, by decide +kernel, hknown, ?_⟩
  · exact (hdeclare ⟨2⟩ hundeclared (by decide +kernel) _ rfl).trans (if_pos (by decide +kernel))
  · exact (hdeclare ⟨2⟩ hundeclared (by decide +kernel) _ rfl).trans (if_neg (by decide +kernel))
  · exact (hdeclare ⟨2⟩ hundeclared (by decide +kernel) _ rfl).trans (if_neg (by decide +kernel))
  · exact (hnew (.ofName "y" .field) rfl _ rfl).trans (if_pos (by decide +kernel))
  · rw [hglobals] at hroot
    rw [hroot]
    rfl

end Walk

end Lineage
