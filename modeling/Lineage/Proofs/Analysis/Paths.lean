import Lineage.Proofs.Analysis.Members
import Lineage.Proofs.Scope.Columns
import Lineage.Proofs.Text.Dots

/-!
# Paths of bindings

A path is written from a binding upwards, and it is followed from a root downwards. On the way up
there may be several owners, of which the first one counts, and they may go round in a circle. On
the way down there may be several members with one name, of which the last one counts. So a path
leads back to its binding where the way up ends at a root, and where all that it passes is the last
of its name.

## Key results

- `owner?_eq_some_iff`: the owner of a binding is the first one that has it for a member
- `ownerChain_spec`: the steps of `path` suffice to come to the end of the owners, or to one that
  was passed before
- `OwnerChain.unique`: a binding has one chain of owners
- `descend_names`, `exists_of_descend`: the way down along names
- `paths_lead_back`: when a path leads back to its binding, and what any path leads to
-/

namespace Lineage

/-- The binding is the last of the listed ones that go by its name. -/
def Graph.LastNamed (graph : Graph) (ids : List BindingId) (id : BindingId) : Prop :=
  (ids.filter fun other => graph.name other == graph.name id).getLast? = some id

instance (graph : Graph) (ids : List BindingId) (id : BindingId) : Decidable
    (graph.LastNamed ids id) :=
  inferInstanceAs (Decidable (_ = _))

namespace Graph

variable {graph : Graph}

/-! ### Owners -/

/-- Every child without an owner gets the parent for its owner, and the others keep theirs. -/
theorem getElem?_claimChildren (parent : BindingId) (owners : Array (Option BindingId))
    (children : List BindingId) (index : Nat) :
    (claimChildren parent owners children)[index]? =
      owners[index]?.map fun owner =>
        if ⟨index⟩ ∈ children then owner.or (some parent) else owner := by
  induction children generalizing owners with
  | nil => simp [claimChildren]
  | cons child rest ih =>
    have hstep : claimChildren parent owners (child :: rest) =
        claimChildren parent (owners.modify child.index fun owner => owner.or (some parent)) rest :=
          rfl
    rw [hstep, ih, Array.getElem?_modify]
    obtain ⟨place⟩ := child
    by_cases hsame : place = index
    · subst hsame
      -- A child that is listed twice has its owner from the first time.
      cases owners[place]? with
      | none => simp
      | some owner => cases owner <;> simp
    · have hother : (⟨index⟩ : BindingId) ≠ ⟨place⟩ := fun heq => hsame (BindingId.mk.inj heq).symm
      simp [hsame, hother]

/-- Of several parents the first one that has a child becomes its owner. -/
theorem getElem?_foldl_claimChildren (parents : List BindingId) (owners : Array (Option BindingId))
    (index : Nat) :
    (parents.foldl (fun owners parent => claimChildren parent owners (graph.children parent))
      owners)[index]? =
      owners[index]?.map fun owner =>
        owner.or (parents.find? fun parent => ⟨index⟩ ∈ graph.children parent) := by
  induction parents generalizing owners with
  | nil => simp
  | cons parent rest ih =>
    rw [List.foldl_cons, ih, getElem?_claimChildren, Option.map_map]
    congr 1
    funext owner
    by_cases hmember : (⟨index⟩ : BindingId) ∈ graph.children parent
    · cases owner <;> simp [hmember]
    · simp [hmember]

/-- The first binding in ascending order with a property is the one with the smallest number. -/
theorem find?_ids_eq_some_iff {p : BindingId → Bool} {id : BindingId} :
    graph.ids.find? p = some id ↔
      graph.contains id = true ∧ p id = true ∧ ∀ other, other.index < id.index →
      p other = false := by
  obtain ⟨index⟩ := id
  rw [ids, List.find?_map, Option.map_eq_some_iff, contains_iff]
  simp only [BindingId.mk.injEq, exists_eq_right, List.find?_range_eq_some, List.mem_range,
    Function.comp_apply, Bool.not_eq_true']
  constructor
  · rintro ⟨hp, hlt, hbefore⟩
    exact ⟨hlt, hp, fun other hother => hbefore other.index hother⟩
  · rintro ⟨hlt, hp, hbefore⟩
    exact ⟨hp, hlt, fun place hplace => hbefore ⟨place⟩ hplace⟩

/-- Only bindings of the graph have members. -/
theorem HasMember.contains {owner id : BindingId} (h : graph.HasMember owner id) :
    graph.contains owner = true := by
  by_contra hnot
  rw [HasMember, children, get_of_not_contains hnot] at h
  exact List.not_mem_nil h

end Graph

namespace Analysis

variable {analysis : Analysis} {id owner : BindingId} {seen chain : List BindingId}

theorem owner?_eq_find? (h : analysis.graph.contains id = true) :
    analysis.owner? id = analysis.graph.ids.find? fun parent =>
      id ∈ analysis.graph.children parent := by
  have hlt := Graph.contains_iff.mp h
  rw [owner?, analysis.owners_eq, Array.getD_eq_getD_getElem?, Graph.owners,
    Graph.getElem?_foldl_claimChildren, Array.getElem?_replicate, if_pos hlt]
  simp

/-- The owner of a binding is the first one that has it for a member. -/
theorem owner?_eq_some_iff (h : analysis.graph.contains id = true) :
    analysis.owner? id = some owner ↔
      analysis.graph.HasMember owner id ∧ ∀ other, analysis.graph.HasMember other id →
      owner.index ≤ other.index := by
  rw [owner?_eq_find? h, Graph.find?_ids_eq_some_iff]
  simp only [decide_eq_true_eq, decide_eq_false_iff_not]
  constructor
  · rintro ⟨-, hmember, hbefore⟩
    refine ⟨hmember, fun other hother => ?_⟩
    by_contra hlt
    exact hbefore other (by omega) hother
  · rintro ⟨hmember, hfirst⟩
    refine ⟨hmember.contains, hmember, fun other hlt hother => ?_⟩
    have hle := hfirst other hother
    omega

/-- An owner is a binding of the graph. -/
theorem contains_of_owner? (h : analysis.graph.contains id = true)
    (howner : analysis.owner? id = some owner) : analysis.graph.contains owner = true :=
  ((owner?_eq_some_iff h).mp howner).1.contains

/-! ### Chains of owners -/

/-- The list starts with the binding and goes on from owner to owner. It names none twice, and
    none that was seen before. It ends where there is no owner, or one that was seen before or
    has been named. -/
structure OwnerChain (analysis : Analysis) (seen : List BindingId) (id : BindingId)
    (chain : List BindingId) : Prop where
  starts : chain.head? = some id
  linked : chain.IsChain fun lower upper => analysis.owner? lower = some upper
  nodup : chain.Nodup
  fresh : ∀ other ∈ chain, other ∉ seen
  ends : ∀ top ∈ chain.getLast?, ∀ owner ∈ analysis.owner? top, owner ∈ seen ∨ owner ∈ chain

namespace OwnerChain

/-- The chain ends at once. -/
theorem single (hid : id ∉ seen) (hends : ∀ owner ∈ analysis.owner? id, owner ∈ id :: seen) :
    OwnerChain analysis seen id [id] where
  starts := rfl
  linked := .singleton id
  nodup := List.nodup_singleton id
  fresh := by simpa using hid
  ends top htop owner howner := by
    obtain rfl : id = top := by simpa using htop
    rcases List.mem_cons.mp (hends owner howner) with rfl | hseen
    · exact .inr (List.mem_singleton_self _)
    · exact .inl hseen

/-- The chain goes on with the owner. -/
theorem up (hid : id ∉ seen) (howner : analysis.owner? id = some owner)
    (h : OwnerChain analysis (id :: seen) owner chain) :
    OwnerChain analysis seen id (id :: chain) := by
  obtain ⟨later, rfl⟩ := List.head?_eq_some_iff.mp h.starts
  refine ⟨rfl, h.linked.cons_cons howner, ?_, ?_, fun top htop other hother => ?_⟩
  · exact List.nodup_cons.mpr ⟨fun hmem => h.fresh id hmem List.mem_cons_self, h.nodup⟩
  · rw [List.forall_mem_cons]
    exact ⟨hid, fun other hother hseen => h.fresh other hother (List.mem_cons_of_mem _ hseen)⟩
  · rw [List.getLast?_cons_cons] at htop
    rcases h.ends top htop other hother with hmem | hmem
    · rcases List.mem_cons.mp hmem with rfl | hseen
      · exact .inr List.mem_cons_self
      · exact .inl hseen
    · exact .inr (List.mem_cons_of_mem _ hmem)

/-- There is no other way for a chain to go on. -/
theorem eq_or_exists (h : OwnerChain analysis seen id chain) :
    (chain = [id] ∧ ∀ owner ∈ analysis.owner? id, owner ∈ id :: seen) ∨
      ∃ owner later, chain = id :: later ∧ analysis.owner? id = some owner ∧
        OwnerChain analysis (id :: seen) owner later := by
  obtain ⟨rest, rfl⟩ := List.head?_eq_some_iff.mp h.starts
  cases rest with
  | nil =>
    refine .inl ⟨rfl, fun owner howner => ?_⟩
    rcases h.ends id rfl owner howner with hseen | hmem
    · exact List.mem_cons_of_mem _ hseen
    · exact List.mem_cons.mpr (.inl (List.mem_singleton.mp hmem))
  | cons owner later =>
    -- The tail is a chain from the owner, for which the first binding counts as seen.
    obtain ⟨howner, hlinked⟩ := List.isChain_cons_cons.mp h.linked
    obtain ⟨hid, hnodup⟩ := List.nodup_cons.mp h.nodup
    refine .inr ⟨owner, owner :: later, rfl, howner, rfl, hlinked, hnodup,
      fun other hother hmem => ?_, ?_⟩
    · rcases List.mem_cons.mp hmem with rfl | hseen
      · exact hid hother
      · exact h.fresh other (List.mem_cons_of_mem _ hother) hseen
    · intro top htop other hother
      rw [← List.getLast?_cons_cons] at htop
      rcases h.ends top htop other hother with hseen | hmem
      · exact .inl (List.mem_cons_of_mem _ hseen)
      · rcases List.mem_cons.mp hmem with rfl | hlater
        · exact .inl List.mem_cons_self
        · exact .inr hlater

/-- A binding has one chain of owners. -/
theorem unique {other : List BindingId} (h : OwnerChain analysis seen id chain)
    (hother : OwnerChain analysis seen id other) : chain = other := by
  induction chain generalizing seen id other with
  | nil => cases h.starts
  | cons first rest ih =>
    -- Both chains end here, or both go on with the same owner; an owner that ends one of them is
    -- not new to the other.
    rcases h.eq_or_exists with ⟨hchain, hends⟩ | ⟨owner, later, hchain, howner, hlater⟩ <;>
      rcases hother.eq_or_exists with ⟨rfl, hends'⟩ | ⟨owner', later', rfl, howner', hlater'⟩
    · exact hchain
    · exact absurd (hends owner' howner')
        (hlater'.fresh owner' (List.mem_of_mem_head? hlater'.starts))
    · exact absurd (hends' owner howner) (hlater.fresh owner (List.mem_of_mem_head? hlater.starts))
    · obtain ⟨rfl, rfl⟩ := List.cons.inj hchain
      obtain rfl : owner = owner' := Option.some.inj (howner.symm.trans howner')
      rw [ih hlater hlater']

end OwnerChain

/-- A graph does not hold more bindings than it has. -/
theorem length_le_size {graph : Graph} {ids : List BindingId} (hnodup : ids.Nodup)
    (h : graph.Holds ids) : ids.length ≤ graph.size := by
  have hsub : ids ⊆ graph.ids := fun id hid => Graph.mem_ids.mpr (h id hid)
  have hle := (hnodup.subperm hsub).length_le
  rwa [Graph.ids, List.length_map, List.length_range] at hle

/-- Each step sees one more binding of the graph, so the steps do not run out before
    the chain ends. -/
theorem ownerChain_spec (steps : Nat) (seen : List BindingId) (id : BindingId)
    (hnodup : (id :: seen).Nodup) (hholds : analysis.graph.Holds (id :: seen))
    (hsteps : steps + seen.length = analysis.graph.size) :
    OwnerChain analysis seen id (analysis.ownerChain steps (id :: seen) id) := by
  have hid : id ∉ seen := (List.nodup_cons.mp hnodup).1
  induction steps generalizing seen id with
  | zero =>
    -- All bindings of the graph would have been seen, and this one besides.
    have hle := length_le_size hnodup hholds
    rw [List.length_cons] at hle
    omega
  | succ steps ih =>
    unfold ownerChain
    split
    · next owner howner =>
      split
      · next hknown =>
        refine .single hid fun other hother => ?_
        obtain rfl : owner = other := Option.some.inj (howner.symm.trans hother)
        simpa using hknown
      · next hnew =>
        have hnot : owner ∉ id :: seen := by simpa using hnew
        have hcontains := contains_of_owner? (hholds id List.mem_cons_self) howner
        apply OwnerChain.up hid howner
        apply ih (id :: seen) owner
        · exact List.nodup_cons.mpr ⟨hnot, hnodup⟩
        · exact List.forall_mem_cons.mpr ⟨hcontains, hholds⟩
        · rw [List.length_cons]
          omega
        · exact hnot
    · next hnone =>
      refine .single hid fun other hother => ?_
      rw [hnone] at hother
      cases hother

/-! ### The way down -/

section

variable {graph : Graph} {root target : BindingId} {rest : List BindingId} {names : List String}

/-- Along the names of bindings each of which is the last member of its name, the way leads through
    these bindings. -/
theorem descend_names
    (hlast : (root :: rest).IsChain fun upper lower => graph.LastNamed (graph.children upper) lower)
    (hfolded : ∀ id, fold (graph.name id) = graph.name id) :
    descend graph (rest.map graph.name) root = (root :: rest).getLast? := by
  induction rest generalizing root with
  | nil => rfl
  | cons lower rest ih =>
    obtain ⟨hlower, hrest⟩ := List.isChain_cons_cons.mp hlast
    have hfound : graph.childNamed? root (graph.name lower) none = some lower := by
      rw [Graph.childNamed?_eq, hfolded]
      exact hlower
    rw [List.map_cons, descend, hfound, Option.bind_some, ih hrest, List.getLast?_cons_cons]

/-- A way down leads from member to member, and these go by the names along it. -/
theorem exists_of_descend (h : descend graph names root = some target) :
    ∃ rest, (root :: rest).IsChain graph.HasMember ∧ (root :: rest).getLast? = some target ∧
      rest.map graph.name = names.map fold := by
  induction names generalizing root with
  | nil => exact ⟨[], .singleton root, h, rfl⟩
  | cons name more ih =>
    obtain ⟨lower, hlower, hmore⟩ := Option.bind_eq_some_iff.mp h
    obtain ⟨rest, hlinked, hlast, hnames⟩ := ih hmore
    rw [Graph.childNamed?_eq] at hlower
    obtain ⟨hmember, hname⟩ := List.mem_filter.mp (List.mem_of_getLast? hlower)
    refine ⟨lower :: rest, hlinked.cons_cons hmember, ?_, ?_⟩
    · rwa [List.getLast?_cons_cons]
    · rw [List.map_cons, List.map_cons, hnames, beq_iff_eq.mp hname]

/-- The last of several roots with a name is found. -/
theorem find?_root (roots : List BindingId) (name : String) :
    (roots.reverse.find? fun id => (graph.get id).isNamed name) =
      (roots.filter fun id => graph.name id == fold name).getLast? := by
  rw [List.getLast?_eq_head?_reverse, ← List.filter_reverse, List.head?_filter]
  rfl

end

/-! ### Paths -/

/-- Where the names have no dots, the way along the path of a binding that starts at a root and
    passes nothing but the last of each name ends at the binding. -/
theorem find?_path {root : BindingId}
    (hnames : ∀ id, fold (analysis.graph.name id) = analysis.graph.name id ∧
      '.' ∉ (analysis.graph.name id).toList)
    (hpath : analysis.path id = Text.joinDots (chain.reverse.map analysis.graph.name))
    (hstarts : chain.head? = some id) (hroot : chain.getLast? = some root)
    (hlastRoot : analysis.graph.LastNamed analysis.roots root)
    (hlast : chain.IsChain fun lower upper => analysis.graph.LastNamed
      (analysis.graph.children upper) lower) :
    analysis.find? (analysis.path id) = some id := by
  -- From the root down the chain is read backwards.
  rw [← List.head?_reverse] at hroot
  obtain ⟨rest, hrest⟩ := List.head?_eq_some_iff.mp hroot
  rw [← List.getLast?_reverse, hrest] at hstarts
  rw [← List.reverse_reverse chain, List.isChain_reverse, hrest] at hlast
  have hsegments : Text.segments (analysis.path id) =
      analysis.graph.name root :: rest.map analysis.graph.name := by
    rw [hpath, hrest, List.map_cons]
    refine Text.segments_joinDots (List.cons_ne_nil _ _) ?_
    rw [← List.map_cons, List.forall_mem_map]
    exact fun other _ => (hnames other).2
  have hfirst : (analysis.roots.reverse.find? fun id => (analysis.graph.get id).isNamed
      (analysis.graph.name root)) = some root := by
    rw [find?_root, (hnames root).1]
    exact hlastRoot
  rw [find?, hsegments]
  simp only [hfirst, Option.bind_some]
  rw [descend_names hlast fun other => (hnames other).1, hstarts]

/-- What a path leads to is reached from a root from member to member, and these go by the
    segments of the path. -/
theorem exists_of_find? {path : String} (h : analysis.find? path = some id) :
    ∃ root rest, root ∈ analysis.roots ∧ (root :: rest).IsChain analysis.graph.HasMember ∧
      (root :: rest).getLast? = some id ∧
      (root :: rest).map analysis.graph.name = (Text.segments path).map fold := by
  unfold find? at h
  split at h
  · cases h
  · next first more hsegments =>
    obtain ⟨root, hroot, hmore⟩ := Option.bind_eq_some_iff.mp h
    obtain ⟨rest, hlinked, hlast, hnames⟩ := exists_of_descend hmore
    rw [find?_root] at hroot
    obtain ⟨hmem, hname⟩ := List.mem_filter.mp (List.mem_of_getLast? hroot)
    refine ⟨root, rest, hmem, hlinked, hlast, ?_⟩
    rw [hsegments, List.map_cons, List.map_cons, hnames, beq_iff_eq.mp hname]

/-- In an analysis whose names are folded and have no dots, the owner of a binding is the first
    binding that has it for a member. Every binding has one chain of owners, up to the first
    repetition, and its path lists the names along it. Where the top of that chain is the last root
    of its name, and each binding below is the last member of its name that its owner has, the path
    leads back to the binding. And whatever a path leads to is reached from a root from member to
    member, along the folded segments of the path. -/
theorem paths_lead_back (analysis : Analysis)
    (hnames : ∀ id, analysis.graph.contains id = true →
      (∃ spelling, analysis.graph.name id = fold spelling) ∧
      '.' ∉ (analysis.graph.name id).toList) :
    (∀ id owner, analysis.graph.contains id = true → (analysis.owner? id = some owner ↔
      analysis.graph.HasMember owner id ∧ ∀ other, analysis.graph.HasMember other id →
      owner.index ≤ other.index)) ∧
    (∀ id, analysis.graph.contains id = true → ∃! chain, OwnerChain analysis [] id chain) ∧
    (∀ id chain, analysis.graph.contains id = true → OwnerChain analysis [] id chain →
      analysis.path id = Text.joinDots (chain.reverse.map analysis.graph.name) ∧
      ∀ root, chain.getLast? = some root → analysis.graph.LastNamed analysis.roots root →
        (chain.IsChain fun lower upper => analysis.graph.LastNamed
          (analysis.graph.children upper) lower) →
        analysis.find? (analysis.path id) = some id) ∧
    ∀ path id, analysis.find? path = some id → ∃ root rest, root ∈ analysis.roots ∧
      (root :: rest).IsChain analysis.graph.HasMember ∧ (root :: rest).getLast? = some id ∧
      (root :: rest).map analysis.graph.name = (Text.segments path).map fold := by
  have hchain : ∀ id, analysis.graph.contains id = true →
      OwnerChain analysis [] id (analysis.ownerChain analysis.graph.size [id] id) := fun id hid =>
    ownerChain_spec _ [] id (List.nodup_singleton id) (Graph.holds_singleton hid) rfl
  have hall : ∀ id, fold (analysis.graph.name id) = analysis.graph.name id ∧
      '.' ∉ (analysis.graph.name id).toList := by
    intro id
    by_cases hid : analysis.graph.contains id = true
    · obtain ⟨⟨spelling, hspelling⟩, hdot⟩ := hnames id hid
      exact ⟨by rw [hspelling, fold_fold], hdot⟩
    · -- What stands in for a binding that does not exist has no name.
      rw [Graph.name, Graph.get_of_not_contains hid]
      decide
  refine ⟨fun id owner hid => owner?_eq_some_iff hid, fun id hid => ?_, fun id chain hid h => ?_,
    fun path id => exists_of_find?⟩
  · exact ⟨_, hchain id hid, fun chain h => h.unique (hchain id hid)⟩
  · have hpath : analysis.path id = Text.joinDots (chain.reverse.map analysis.graph.name) := by
      rw [h.unique (hchain id hid)]
      rfl
    exact ⟨hpath, fun root hroot hlastRoot hlast =>
      find?_path hall hpath h.starts hroot hlastRoot hlast⟩

/-- A package with two variables of one name, the second of which has a field. A routine has the
    same field for a member, and it and its parameter have each other. -/
def crossed : Analysis :=
  .ofGraph ⟨#[{ Binding.ofName "P" .package with children := [⟨1⟩, ⟨2⟩] }, .ofName "X" .var,
    { Binding.ofName "x" .var with children := [⟨3⟩] }, .ofName "Y" .field,
    { Binding.ofName "f" .routine with children := [⟨3⟩, ⟨5⟩] },
    { Binding.ofName "a" .parameter with children := [⟨4⟩] }]⟩ [⟨4⟩, ⟨0⟩]

/-- The names of `crossed` are folded and have no dots. Its field belongs to the variable, the first
    of its two owners, and the path of the field leads back to it; so does another spelling of the
    path, along members with the folded names. The path of the routine comes to an end after its
    parameter, whose owner it is. -/
theorem paths_lead_back_crossed :
    (∀ id, crossed.graph.contains id = true →
      (∃ spelling, crossed.graph.name id = fold spelling) ∧ '.' ∉ (crossed.graph.name id).toList) ∧
    (∀ other, crossed.graph.HasMember other ⟨3⟩ → 2 ≤ other.index) ∧
    crossed.path ⟨3⟩ = "p.x.y" ∧ crossed.find? "p.x.y" = some ⟨3⟩ ∧
    crossed.find? " P.X .y" = some ⟨3⟩ ∧
    (∃ root rest, root ∈ crossed.roots ∧ (root :: rest).IsChain crossed.graph.HasMember ∧
      (root :: rest).getLast? = some ⟨3⟩ ∧
        (root :: rest).map crossed.graph.name = ["p", "x", "y"]) ∧
    crossed.path ⟨4⟩ = "a.f" := by
  have hnames : ∀ id, crossed.graph.contains id = true →
      (∃ spelling, crossed.graph.name id = fold spelling) ∧
      '.' ∉ (crossed.graph.name id).toList := by
    have hall : ∀ id ∈ crossed.graph.ids, crossed.graph.name id = fold (crossed.graph.name id) ∧
        '.' ∉ (crossed.graph.name id).toList := by decide +kernel
    intro id hid
    obtain ⟨hfolded, hdot⟩ := hall id (Graph.mem_ids.mpr hid)
    exact ⟨⟨_, hfolded⟩, hdot⟩
  obtain ⟨howner, -, hpaths, hfound⟩ := paths_lead_back crossed hnames
  have hvariable : crossed.owner? ⟨3⟩ = some ⟨2⟩ := by decide +kernel
  have hpackage : crossed.owner? ⟨2⟩ = some ⟨0⟩ := by decide +kernel
  have hparameter : crossed.owner? ⟨4⟩ = some ⟨5⟩ := by decide +kernel
  have hfield : OwnerChain crossed [] ⟨3⟩ [⟨3⟩, ⟨2⟩, ⟨0⟩] :=
    .up (by decide) hvariable (.up (by decide) hpackage (.single (by decide) (by decide +kernel)))
  have hround : OwnerChain crossed [] ⟨4⟩ [⟨4⟩, ⟨5⟩] :=
    .up (by decide) hparameter (.single (by decide) (by decide +kernel))
  obtain ⟨hpath, hback⟩ := hpaths _ _ (by decide) hfield
  have hback := hback ⟨0⟩ rfl (by decide +kernel) (by decide +kernel)
  have hwritten : crossed.path ⟨3⟩ = "p.x.y" := hpath.trans (by decide +kernel)
  have hspelled : crossed.find? " P.X .y" = some ⟨3⟩ := by decide +kernel
  have hline := hfound _ _ hspelled
  have hfolded : (Text.segments " P.X .y").map fold = ["p", "x", "y"] := by decide +kernel
  rw [hwritten] at hback
  rw [hfolded] at hline
  exact ⟨hnames, ((howner _ _ (by decide)).mp hvariable).2, hwritten, hback, hspelled, hline,
    (hpaths _ _ (by decide) hround).1.trans (by decide +kernel)⟩

end Analysis

end Lineage
