import Lineage.Proofs.Scope.WellFormed

/-!
# The names that levels know

A declaration goes to the innermost level that takes it, so a body or a query keeps what is declared
inside it from the levels around. Everything else that is done to a scope (sending bindings outward,
ending elements, closing levels, restarting the targets of a query) leaves the names that each
remaining level knows.

## Key results

- `graph_declare`: a declaration adds a member to the owner of a body, or nothing
- `known_declare`: a declaration does not reach the levels around a body or a query
- `known_receiveAll`, `known_flushElement`: what travels outward changes no names
- `known_popAll`, `known_unwind`: closing levels leaves the names of the others
- `known_of_learns`: learning does not reach the levels around a body or a query
-/

namespace Lineage

namespace Scope

/-- The catalogs of the levels, one list for each level, innermost first. -/
def known (scope : Scope) : List (List Catalog) :=
  scope.frames.map Frame.catalogs

/-- The catalogs of the bodies and queries around, innermost first. -/
def catalogs (scope : Scope) : List Catalog :=
  scope.known.flatten

/-- The level of the targets of a query has no names. -/
theorem catalogs_of_targets {scope : Scope} {words : List String}
    (h : scope.words = "multiple-assignment" :: words) :
    scope.catalogs = (scope.known.drop 1).flatten := by
  obtain ⟨frame, rest, hframes, hrole, _⟩ := List.map_eq_cons_iff.mp h
  have hnone : frame.catalogs = [] := by
    cases frame with
    | multipleAssignment => rfl
    | _ => simp [Frame.role] at hrole
  rw [catalogs, known, hframes, List.map_cons, hnone]
  rfl

/-- Of the levels with these words, one above the lowest `base` ones is a body or a query, which
    takes declarations. -/
def Covers (base : Nat) (words : List String) : Prop :=
  ∃ word ∈ words.rdrop base, word = "lexical" ∨ word = "select"

namespace Covers

variable {base : Nat} {words : List String}

theorem lt (h : Covers base words) : base < words.length := by
  obtain ⟨word, hword, _⟩ := h
  have hpos := List.length_pos_of_mem hword
  rw [List.rdrop, List.length_take] at hpos
  omega

/-- One more level covers no less. -/
theorem cons (h : Covers base words) (word : String) : Covers base (word :: words) := by
  obtain ⟨taker, htaker, hrole⟩ := h
  refine ⟨taker, ?_, hrole⟩
  rw [rdrop_cons word (Nat.le_of_lt (lt ⟨taker, htaker, hrole⟩))]
  exact List.mem_cons_of_mem _ htaker

end Covers

/-- A body or a query covers all levels around it. -/
theorem covers_cons {word : String} (h : word = "lexical" ∨ word = "select") (words : List String) :
    Covers words.length (word :: words) := by
  refine ⟨word, ?_, h⟩
  rw [rdrop_cons word (Nat.le_refl _)]
  exact List.mem_cons_self

variable (scope : Scope)

@[simp] theorem length_known : scope.known.length = scope.frames.length :=
  List.length_map _

/-! ### Bindings on their way out -/

theorem map_catalogs_deliver (graph : Graph) (signal : Signal) (frames : List Frame) :
    (deliver graph signal frames).map Frame.catalogs = frames.map Frame.catalogs := by
  induction frames generalizing signal with
  | nil => rfl
  | cons frame rest ih =>
    have habsorb : (frame.absorb signal).catalogs = frame.catalogs := by
      cases signal with
      | value id => exact frame.catalogs_taking id
      | operator queries =>
        cases queries with
        | zero => cases frame <;> rfl
        | succ queries => rfl
    simp only [deliver]
    split
    · rw [List.map_cons, List.map_cons, ih]
    · rw [List.map_cons, List.map_cons, habsorb]

theorem map_catalogs_of_receiveAmong {id : BindingId} {graph graph' : Graph}
    {frames after : List Frame} (h : receiveAmong id graph frames = .ok (after, graph')) :
    after.map Frame.catalogs = frames.map Frame.catalogs := by
  rcases receiveAmong_cases id graph frames with ⟨graph'', hok⟩ | ⟨_, fault, herror⟩
  · rw [hok, Except.ok.injEq, Prod.mk.injEq] at h
    rw [← h.1, map_catalogs_deliver]
  · rw [herror] at h
    cases h

theorem known_of_receive {scope after : Scope} {id : BindingId} (h : scope.receive id = .ok after) :
    after.known = scope.known := by
  obtain ⟨_, _, hsent, rfl⟩ := receiveAmong_of_receive h
  exact map_catalogs_of_receiveAmong hsent

@[simp] theorem known_receiveAll (ids : List BindingId) (scope : Scope) :
    (receiveAll ids scope).2.known = scope.known :=
  receiveAll_keeps (motive := fun after => after.known = scope.known)
    (fun h hsent => (known_of_receive hsent).trans h) rfl ids

theorem known_pop : scope.pop.2.known = scope.known.drop 1 := by
  unfold pop
  split
  · next hframes => simp [known, hframes]
  · next frame rest hframes =>
    have houter : ({ scope with frames := rest } : Scope).known = scope.known.drop 1 := by
      simp [known, hframes]
    dsimp only
    split
    · rw [known_receiveAll, houter]
    · exact houter

theorem known_dropTo (height : Nat) :
    (scope.dropTo height).known = scope.known.drop (scope.height - max height 1) := by
  simp [known, dropTo]

/-- Closing levels leaves the names of the others, also if it fails midway. -/
theorem known_popAll (levels : Nat) (scope : Scope) :
    (popAll levels scope).2.known = scope.known.drop levels := by
  induction levels generalizing scope with
  | zero => rfl
  | succ levels ih =>
    have hpop := scope.known_pop
    simp only [popAll]
    rcases hrun : scope.pop with ⟨error | ⟨⟩, after⟩ <;> rw [hrun] at hpop
    · have hdrop : (scope.known.drop 1).drop (after.height - max (after.height - levels) 1) =
          (scope.known.drop 1).drop levels := by
        have hlength : after.frames.length = scope.known.length - 1 := by
          rw [← length_known, hpop, List.length_drop]
        -- Where fewer levels are left than were to be closed, both sides drop all of them.
        by_cases hfew : levels ≤ after.frames.length
        · congr 1
          simp only [height]
          omega
        · have hall : (scope.known.drop 1).length ≤
              after.height - max (after.height - levels) 1 := by
            simp only [height, List.length_drop]
            omega
          rw [List.drop_eq_nil_of_le hall, List.drop_eq_nil_of_le (by rw [List.length_drop]; omega)]
      show (after.dropTo (after.height - levels)).known = scope.known.drop (levels + 1)
      rw [known_dropTo, hpop, hdrop, List.drop_drop, Nat.add_comm]
    · show (popAll levels after).2.known = scope.known.drop (levels + 1)
      rw [ih, hpop, List.drop_drop, Nat.add_comm]

theorem known_unwind (height : Nat) (finish : Bool) :
    (scope.unwind height finish).2.known = scope.known.drop (scope.height - max height 1) := by
  cases finish with
  | false => exact scope.known_dropTo height
  | true => exact known_popAll _ scope

@[simp] theorem known_flushElement (position : Nat) :
    (scope.flushElement position).2.known = scope.known := by
  unfold flushElement
  split
  · next hframes =>
    dsimp only
    split
    · next hsent => simp [known, hframes, Frame.catalogs, map_catalogs_of_receiveAmong hsent]
    · simp [known, hframes, Frame.catalogs]
  · rfl

/-- What does not depend on how many values a multiple assignment has received stays when
    it starts anew. -/
theorem map_restartAssignment? {β : Type} (f : Frame → β)
    (hf : ∀ targets received, f (.multipleAssignment targets 0) =
      f (.multipleAssignment targets received))
    (scope : Scope) (queries : Nat) :
    ((scope.restartAssignment? queries).getD scope).frames.map f = scope.frames.map f := by
  unfold restartAssignment? pendingAssignment?
  split
  · split
    · next targets received hframe =>
      have hsame : (scope.frames.map f)[queries]? = some (f (.multipleAssignment targets 0)) := by
        rw [List.getElem?_map, hframe, hf targets received]
        rfl
      obtain ⟨hlt, hget⟩ := List.getElem?_eq_some_iff.mp hsame
      show (scope.frames.set queries (.multipleAssignment targets 0)).map f = scope.frames.map f
      rw [List.map_set, ← hget, List.set_getElem_self hlt]
    · rfl
  · rfl

@[simp] theorem known_restartAssignment? (queries : Nat) :
    ((scope.restartAssignment? queries).getD scope).known = scope.known :=
  map_restartAssignment? Frame.catalogs (fun _ _ => rfl) scope queries

@[simp] theorem words_restartAssignment? (queries : Nat) :
    ((scope.restartAssignment? queries).getD scope).words = scope.words :=
  map_restartAssignment? Frame.role (fun _ _ => rfl) scope queries

@[simp] theorem known_renameSource? (relation : BindingId) (aliasName : Option String) :
    ((scope.renameSource? relation aliasName).getD scope).known = scope.known := by
  -- Only the sources of the nearest query change, and names are in the catalogs.
  have hchange : ∀ {frames after : List Frame},
      changeNearestQuery? (·.rename? relation aliasName) frames = some after →
        after.map Frame.catalogs = frames.map Frame.catalogs := by
    intro frames
    induction frames with
    | nil =>
      intro after h
      simp [changeNearestQuery?] at h
    | cons frame rest ih =>
      intro after h
      cases frame with
      | select query =>
        obtain ⟨changed, hchanged, rfl⟩ := Option.map_eq_some_iff.mp h
        obtain ⟨sources, _, rfl⟩ := Option.map_eq_some_iff.mp hchanged
        rfl
      | _ =>
        obtain ⟨inner, hinner, rfl⟩ := Option.map_eq_some_iff.mp h
        simp [ih hinner]
  unfold renameSource?
  cases h : changeNearestQuery? (·.rename? relation aliasName) scope.frames with
  | none => rfl
  | some frames => exact hchange h

/-! ### Declarations -/

end Scope

namespace Frame

variable {frame after : Frame} {graph graph' : Graph} {id : BindingId}

/-- Declaring a binding makes it a member of the owner of a body, or changes nothing
    in the graph. -/
theorem graph_of_declare? (h : frame.declare? graph id = some (after, graph')) :
    graph' = graph ∨ ∃ owner ∈ frame.ids, graph' = graph.addChild owner id := by
  rcases declare?_cases h with ⟨_, owner, rfl, _, hgraph⟩ | ⟨_, _, _, hgraph⟩
  · refine hgraph.imp_right fun ⟨parent, hparent, hadded⟩ => ⟨parent, ?_, hadded⟩
    rwa [ids, Option.mem_toList]
  · exact .inl hgraph

end Frame

namespace Scope

variable {id : BindingId} {graph : Graph}

theorem graph_of_declareAmong? {graph' : Graph} {frames after : List Frame}
    (h : declareAmong? id graph frames = some (after, graph')) :
    graph' = graph ∨ ∃ owner, (∃ frame ∈ frames, owner ∈ frame.ids) ∧
    graph' = graph.addChild owner id := by
  obtain ⟨above, frame, taken, below, rfl, _, _, hdeclared⟩ := exists_of_declareAmong? h
  rcases Frame.graph_of_declare? hdeclared with hsame | ⟨owner, howner, hadded⟩
  · exact .inl hsame
  · exact .inr ⟨owner, ⟨frame, List.mem_append_right above List.mem_cons_self, howner⟩, hadded⟩

theorem graph_declare (scope : Scope) (id : BindingId) :
    (scope.declare id).graph = scope.graph ∨
      ∃ owner, (∃ frame ∈ scope.frames, owner ∈ frame.ids) ∧
        (scope.declare id).graph = scope.graph.addChild owner id := by
  unfold declare
  split
  · next h => exact graph_of_declareAmong? h
  · exact .inl rfl

theorem declareAmong?_of_global (h : (graph.kind id).isGlobal = true) (frames : List Frame) :
    declareAmong? id graph frames = none := by
  induction frames with
  | nil => rfl
  | cons frame rest ih =>
    have hframe : frame.declare? graph id = none := by
      cases frame <;> simp [Frame.declare?, h]
    simp [declareAmong?, hframe, ih]

/-- A body or a query takes what is not global. -/
theorem declare?_of_role {frame : Frame} (hrole : frame.role = "lexical" ∨ frame.role = "select")
    (hkind : (graph.kind id).isGlobal = false) :
    ∃ declared, frame.declare? graph id = some declared := by
  cases frame with
  | lexical catalog owner =>
    cases owner with
    | none => exact ⟨_, by simp only [Frame.declare?, hkind]; rfl⟩
    | some owner =>
      by_cases hmember : (graph.kind id).isMember = true <;> simp [Frame.declare?, hkind, hmember]
  | select query => simp [Frame.declare?, hkind]
  | _ => simp [Frame.role] at hrole

/-- A declaration that a level takes stops there, so it does not reach the levels below. -/
theorem declareAmong?_append {above : List Frame} (below : List Frame)
    (hkind : (graph.kind id).isGlobal = false)
    (hcover : ∃ frame ∈ above, frame.role = "lexical" ∨ frame.role = "select") :
    ∃ above' graph', declareAmong? id graph (above ++ below) = some (above' ++ below, graph') := by
  induction above with
  | nil =>
    obtain ⟨frame, hmem, _⟩ := hcover
    cases hmem
  | cons frame rest ih =>
    cases hframe : frame.declare? graph id with
    | some declared =>
      exact ⟨declared.1 :: rest, declared.2, by simp [declareAmong?, hframe]⟩
    | none =>
      obtain ⟨taker, hmem, hrole⟩ := hcover
      -- The first level passes the declaration on, so it is not the one that takes it.
      rcases List.mem_cons.mp hmem with rfl | hrest
      · obtain ⟨declared, hdeclared⟩ := declare?_of_role hrole hkind
        rw [hdeclared] at hframe
        cases hframe
      · obtain ⟨above', graph', hinner⟩ := ih ⟨taker, hrest, hrole⟩
        exact ⟨frame :: above', graph', by simp [declareAmong?, hframe, hinner]⟩

/-- A declaration does not reach the levels around a body or a query. -/
theorem known_declare {scope : Scope} {base : Nat} (h : Covers base scope.words) (id : BindingId) :
    (scope.declare id).known.rtake base = scope.known.rtake base := by
  have hsplit := rdrop_append_rtake scope.frames base
  cases hkind : (scope.graph.kind id).isGlobal with
  | true =>
    rw [declare, declareAmong?_of_global hkind]
    rfl
  | false =>
    have hlt := h.lt
    obtain ⟨word, hword, hrole⟩ := h
    rw [words, ← map_rdrop] at hword
    obtain ⟨frame, hframe, rfl⟩ := List.mem_map.mp hword
    -- A body or query above takes the declaration, and the levels below stay.
    obtain ⟨above, graph, hdeclared⟩ :=
      declareAmong?_append (scope.frames.rtake base) hkind ⟨frame, hframe, hrole⟩
    rw [hsplit] at hdeclared
    rw [declare, hdeclared]
    show ((above ++ scope.frames.rtake base).map Frame.catalogs).rtake base =
        (scope.frames.map Frame.catalogs).rtake base
    have hlength : (scope.frames.rtake base).length = base := by
      rw [length_words] at hlt
      rw [length_rtake]
      omega
    rw [← map_rtake, ← map_rtake, rtake_append above hlength]

/-- What a scope learns does not reach the levels around a body or a query. -/
theorem known_of_learns {before after : Scope} {base : Nat} (hcovered : Covers base before.words)
    (h : before.Learns after) : after.known.rtake base = before.known.rtake base := by
  induction h with
  | refl => rfl
  | grow graph _ _ ih => exact ih
  | declare id hlearns ih => rw [known_declare ((keeps_of_learns hlearns).words ▸ hcovered), ih]
  | declareGlobal id _ ih => exact ih
  | renameSource relation aliasName _ ih => rw [known_renameSource?, ih]

end Scope

end Lineage
