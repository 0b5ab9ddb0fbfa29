import Flexbox.Proofs.Binary32.Laws
import Flexbox.Proofs.Fixture.Correspondence
import Flexbox.Proofs.Sizing.Layouts

namespace Flexbox

theorem Tree.grounded_of_children {α : Type} {t : Tree α} {x : NodeId} (hx : t.Live x)
    (hc : ∀ c ∈ t.childrenOf x, t.Grounded c) : t.Grounded x := by
  have hdepth : ∃ depth, ∀ c ∈ t.childrenOf x, (t.unfold depth c).isSome := by
    generalize t.childrenOf x = cs at hc
    induction cs with
    | nil => exact ⟨0, by simp⟩
    | cons c cs ih =>
      rw [List.forall_mem_cons] at hc
      obtain ⟨depth, hd⟩ := hc.1
      obtain ⟨depth', hd'⟩ := ih hc.2
      refine ⟨max depth depth', ?_⟩
      rw [List.forall_mem_cons]
      exact ⟨unfold_isSome_mono hd (le_max_left _ _),
        fun e he => unfold_isSome_mono (hd' e he) (le_max_right _ _)⟩
  obtain ⟨depth, hd⟩ := hdepth
  exact ⟨depth + 1, unfold_isSome.mpr ⟨hx, hd⟩⟩

namespace Fixture

variable {config : Config Float32} {d : Declaration} {b : Built} {n : Node Float32}

theorem marked_untouched (h : n.geometry = .initial) (change : Bool) :
    (n.marked change).geometry = .initial := by
  unfold Node.marked
  dsimp only
  split <;> rw [h]
  rfl

theorem markAll_untouched (h : n.geometry = .initial) (ps : List (Located Property)) :
    (markAll n ps).geometry = .initial := by
  refine List.foldlRecOn (motive := fun n : Node Float32 => n.geometry = .initial) ps _ h
    fun n hn p _ => ?_
  unfold Property.mark
  split
  · split
    · exact marked_untouched hn _
    · exact hn
  · exact hn

theorem nodeAt_untouched (d : Declaration) (owner : Option NodeId) (k : Nat) :
    (d.nodeAt config owner k).geometry = .initial := by
  have hfurnished : (d.furnished config).geometry = .initial :=
    marked_untouched (markAll_untouched rfl d.properties) _
  have hnode : (d.node config).geometry = .initial := by
    unfold Declaration.node
    split <;> exact hfurnished
  exact List.foldlRecOn (motive := fun n : Node Float32 => n.geometry = .initial) _ _ hnode
    fun n hn _ _ => marked_untouched (n := { n with children := _ }) hn true

open Declaration (preorders places nodes nodesOf nodes_eq)
open Flexbox.Tree (gridless)

mutual

theorem nodes_untouched (d : Declaration) (owner : Option NodeId) (k : Nat) :
    ∀ n ∈ nodes config owner k d, n.geometry = .initial := by
  match d with
  | ⟨kind, name, properties, children, span⟩ =>
    rw [nodes, List.forall_mem_cons]
    exact ⟨nodeAt_untouched _ owner k, nodesOf_untouched children _ _⟩

theorem nodesOf_untouched (ds : List Declaration) (owner : Option NodeId) (k : Nat) :
    ∀ n ∈ nodesOf config owner k ds, n.geometry = .initial := by
  match ds with
  | [] => simp [nodesOf]
  | d :: ds =>
    rw [nodesOf, List.forall_mem_append]
    exact ⟨nodes_untouched d owner k, nodesOf_untouched ds owner _⟩

end

namespace Build

/-- Leads from trees that calls lead to on to such trees. -/
def Calls {β : Type} (x : Build β) : Prop :=
  ∀ b r b', b.tree.Reachable → x b = .ok (r, b') → b'.tree.Reachable

variable {β γ : Type} {x : Build β} {f : β → Build γ}

theorem Calls.pure (r : β) : Calls (pure r : Build β) := by
  intro b r' b' hb h
  cases h
  exact hb

theorem Calls.throw (e : BuildError) : Calls (throw e : Build β) := by
  intro b r b' _ h
  cases h

theorem Calls.bind (hx : Calls x) (hf : ∀ r, Calls (f r)) : Calls (x >>= f) := by
  intro b r b' hb h
  change (x b >>= fun (r, b) => f r b) = _ at h
  cases hxb : x b with
  | error e =>
    rw [hxb] at h
    cases h
  | ok answer =>
    rw [hxb] at h
    exact hf answer.1 _ _ _ (hx b _ _ hb hxb) h

theorem Calls.edit {e : Edit Float32 β} (he : ∀ t, t.Reachable → (e.apply t).2.Reachable) :
    Calls (edit e) := by
  intro b r b' hb h
  have hafter := he b.tree hb
  unfold Build.edit at h
  split at h
  · rename_i result tree hrun
    rw [hrun] at hafter
    cases h
    exact hafter
  · cases h

theorem Calls.call (c : Call Float32) (hc : c.Hookless) (hr : ∀ t, c.Returns t) :
    Calls (Build.edit c.edit) :=
  .edit fun _ ht => ht.call c hc (hr _)

theorem properties_calls (id : NodeId) (ps : List (Located Property)) (s : Style Float32) :
    Calls (properties id ps s) := by
  induction ps generalizing s with
  | nil => exact .pure s
  | cons p ps ih =>
    rw [properties]
    split
    · dsimp only
      split
      · exact .bind (.call (.setReferenceBaseline id _) trivial fun _ => trivial) fun _ => ih s
      · exact .bind (.throw _) fun _ => ih s
    · split
      · exact ih _
      · exact .throw _

theorem name_calls (id : NodeId) (given : Option (Located String)) : Calls (name id given) := by
  cases given with
  | none => exact .pure ()
  | some given =>
    intro b r b' hb h
    change (if _ then _ else _ : Build Unit) b = _ at h
    split at h
    · cases h
    · cases h
      exact hb

theorem content_calls (id : NodeId) {children : List Declaration}
    (hc : Calls (declarations id children)) (kind : NodeKind) :
    Calls (content id children kind) := by
  cases kind with
  | container => exact hc
  | text text => exact .call (.setMeasure id _) trivial fun _ => trivial

theorem declaration_calls_of_children (hc : ∀ id, Calls (declarations id d.children)) :
    Calls (declaration d) := by
  rw [declaration_eq]
  refine .bind (.edit fun t ht => ?_) fun id => .bind (name_calls id d.name) fun _ =>
    .bind (.edit fun t ht => ?_) fun n => .bind (properties_calls id _ _) fun style =>
    .bind (.call (.updateStyle id fun _ => style) trivial fun _ => trivial) fun _ =>
    .bind (content_calls id (hc id) d.kind) fun _ => .pure id
  · have hnew := ht.call (.newNode none) (fun _ h => by cases h) trivial
    rwa [Call.edit, Edit.apply_discard] at hnew
  · cases hn : t.find? id with
    | none =>
      rw [Edit.apply_node_none hn]
      exact ht
    | some n =>
      rw [Edit.apply_node hn]
      exact ht

mutual

theorem declaration_calls (d : Declaration) : Calls (declaration d) := by
  match d with
  | ⟨kind, name, properties, children, span⟩ =>
    exact declaration_calls_of_children fun id => declarations_calls children id

theorem declarations_calls (ds : List Declaration) (id : NodeId) : Calls (declarations id ds) := by
  match ds with
  | [] => exact .pure ()
  | d :: ds =>
    rw [declarations]
    exact .bind (declaration_calls d) fun child =>
      .bind (.call (.addChild id child) trivial fun _ => trivial) fun _ => declarations_calls ds id

end

end Build

theorem build_reachable (hc : config.onCopy = none) (h : build d config = .ok b) :
    b.tree.Reachable := by
  unfold build at h
  split at h
  · rename_i root b' hrun
    cases h
    exact Build.declaration_calls d _ _ _ (.empty hc) hrun
  · cases h

theorem exists_of_mem_places {j k : Nat} {ds : List Declaration} (h : j ∈ places k ds) :
    ∃ e, (e, j) ∈ ds.zip (places k ds) := by
  induction ds generalizing k with
  | nil => cases h
  | cons d ds ih =>
    rw [places, List.mem_cons] at h
    rw [places, List.zip_cons_cons]
    rcases h with rfl | h
    · exact ⟨d, List.mem_cons_self⟩
    · obtain ⟨e, he⟩ := ih h
      exact ⟨e, List.mem_cons_of_mem _ he⟩

section Standing

variable {t : Tree Float32} {all : List Declaration} {owner : Option NodeId} {k : Nat}
  {x c : NodeId}

section

variable (h : Stands t config all owner k d)

include h

theorem Stands.child (hc : c ∈ t.childrenOf (.nth k)) :
    ∃ j e, c = .nth j ∧ Stands t config all (some (.nth k)) j e := by
  cases h with
  | intro place found shows owned listed below =>
    rw [Tree.childrenOf_eq found, listed] at hc
    obtain ⟨j, hj, rfl⟩ := List.mem_map.mp hc
    obtain ⟨e, he⟩ := exists_of_mem_places hj
    exact ⟨j, e, rfl, below e j he⟩

theorem Stands.reached (hx : t.Reaches (.nth k) x) :
    ∃ o j e, x = .nth j ∧ Stands t config all o j e := by
  induction hx with
  | refl => exact ⟨owner, k, d, rfl, h⟩
  | tail _ hc ih =>
    obtain ⟨o, j, e, rfl, hs⟩ := ih
    obtain ⟨i, e', rfl, hs'⟩ := hs.child hc
    exact ⟨_, i, e', rfl, hs'⟩

theorem Stands.found : ∃ n, t.find? (.nth k) = some n ∧ n.owner = owner ∧ n.config = config := by
  cases h with
  | intro place found shows owned listed below => exact ⟨_, found, owned, shows.config⟩

theorem Stands.grounded : t.Grounded (.nth k) := by
  induction h with
  | intro place found shows owned listed below ih =>
    refine Tree.grounded_of_children ⟨_, found⟩ fun c hc => ?_
    rw [Tree.childrenOf_eq found, listed] at hc
    obtain ⟨j, hj, rfl⟩ := List.mem_map.mp hc
    obtain ⟨e, he⟩ := exists_of_mem_places hj
    exact ih e j he

end

end Standing

theorem build_mirrors_pruned (h : build d config = .ok b) : b.Mirrors config d.pruned :=
  build_mirrors d.textsAreLeaves_pruned ((build_pruned d config).trans h)

theorem build_stands (h : build d config = .ok b) :
    Stands b.tree config d.pruned.preorder none 0 d.pruned ∧ b.root = .nth 0 :=
  ⟨(build_mirrors_pruned h).nodes, (build_mirrors_pruned h).root⟩

theorem build_untouched (h : build d config = .ok b) : b.tree.Untouched b.root := by
  intro x n hx hn
  obtain ⟨hstands, hroot⟩ := build_stands h
  rw [hroot] at hx
  obtain ⟨o, j, e, rfl, -⟩ := hstands.reached hx
  rw [← build_pruned, build_settle d.textsAreLeaves_pruned] at h
  obtain ⟨-, rfl⟩ := settle_eq_ok.mp h
  rw [Tree.find?_grown] at hn
  exact nodes_untouched d.pruned none 0 n (List.mem_of_getElem? hn)

theorem build_private (hc : config.onCopy = none) (hfew : d.pruned.preorder.length ≤ 2 ^ 32)
    (h : build d config = .ok b) : b.tree.Private b.root := by
  have hsound := (build_reachable hc h).sound
  obtain ⟨hstands, hroot⟩ := build_stands h
  rw [hroot]
  refine ⟨fun x c hx hc => ?_, fun x hx => ?_⟩
  · obtain ⟨o, j, e, rfl, hs⟩ := hstands.reached hx
    obtain ⟨i, e', rfl, hs'⟩ := hs.child hc
    obtain ⟨n, hn, howner, -⟩ := hs'.found
    rw [Tree.ownerOf_eq hn, howner]
  · -- a list names each of the nodes at most once
    have hids : b.tree.ids.length = d.pruned.preorder.length := by
      rw [(build_mirrors_pruned h).ids, List.length_map, List.length_range]
    have hsub : b.tree.childrenOf x ⊆ b.tree.ids := fun c hc =>
      Tree.mem_ids.mpr (hsound.arena.accounted.live hc)
    have hlen := (List.subperm_of_subset (hsound.arena.accounted.nodup x) hsub).length_le
    omega

def Declaration.sketch (kind : NodeKind) (properties : List (String × PropertyValue))
    (children : List Declaration) : Declaration :=
  ⟨kind, none, properties.map fun p => ⟨⟨⟨p.1, ⟨0, 0⟩⟩, ⟨p.2, ⟨0, 0⟩⟩⟩, ⟨0, 0⟩⟩, children, ⟨0, 0⟩⟩

def square : Viewport Float32 := ⟨.known 100, .known 100, .ltr⟩

theorem exists_built (d : Declaration) (config : Config Float32)
    (h : (build d config).toOption.isSome = true) : ∃ b, build d config = .ok b := by
  cases hb : build d config with
  | ok b => exact ⟨b, rfl⟩
  | error e =>
    rw [hb] at h
    cases h

def requestsOf (d : Declaration) (v : Viewport Float32) : List (Visit Float32) :=
  match (build d gridless).toOption with
  | none => []
  | some b =>
    let t := b.tree.primed b.root
    (t.runPass b.root v (Tree.rootRequest ((Pass.start t .initial).node b.root) v) .initial).trail

def nodeAfter (d : Declaration) (v : Viewport Float32) (x : NodeId) : Option (Node Float32) :=
  (build d gridless).toOption.bind fun b =>
    ((Edit.calculateLayout b.root v).apply b.tree).2.find? x

/-- Requests made while the tree of a fixture is laid out, the comparison with another layout
included: an offer without a size does not bind, unless the ratio of the node is zero or its margins
have no finite sum. -/
theorem sizeless_offers_do_not_bind (hc : config.onCopy = none)
    (hfew : d.pruned.preorder.length ≤ 2 ^ 32) (h : build d config = .ok b) (v : Viewport Float32) :
    ∃ n stats s, b.tree.find? b.root = some n ∧
      (∀ limits, (Edit.calculateLayout b.root v limits).apply b.tree = (.ok stats, s)) ∧
      ∀ q, b.tree.LayoutPass b.root n v q → ∀ u ∈ q.trail,
        (u.request.width.Sound ∧ u.request.height.Sound) ∨ (q.node u.node).Degenerate ∨
          Pass.Unbalanced q.node q.trail u.node := by
  have hsound := (build_reachable hc h).sound
  obtain ⟨hstands, hroot⟩ := build_stands h
  have hg : b.tree.Grounded b.root := hroot ▸ hstands.grounded
  obtain ⟨n, hn⟩ := hg.live
  obtain ⟨s, hrun, -⟩ := Edit.calculateLayout_run hsound hg hn v
  have horderly := (build_untouched h).orderly hsound hg (build_private hc hfew h)
  exact ⟨n, _, s, hn, hrun, fun q hq => horderly.layoutPass_proper hn hq⟩

def flattened : Declaration :=
  .sketch .container
    [("flex-direction", .keyword "row"), ("width", .number 100), ("height", .number 100)]
    [.sketch (.text "hello")
      [("aspect-ratio", .number 0), ("flex-basis", .number 0),
        ("align-self", .keyword "flex-start")] []]

theorem sizeless_offers_do_not_bind_flattened : ∃ b n stats s,
    build flattened gridless = .ok b ∧ b.tree.find? b.root = some n ∧
      (∀ limits, (Edit.calculateLayout b.root square limits).apply b.tree = (.ok stats, s)) ∧
      ∀ q, b.tree.LayoutPass b.root n square q → ∀ u ∈ q.trail,
        (u.request.width.Sound ∧ u.request.height.Sound) ∨ (q.node u.node).Degenerate ∨
          Pass.Unbalanced q.node q.trail u.node := by
  obtain ⟨b, hb⟩ := exists_built flattened gridless (by decide +kernel)
  obtain ⟨n, stats, s, h⟩ := sizeless_offers_do_not_bind rfl (by decide) hb square
  exact ⟨b, n, stats, s, hb, h⟩

/-- A row whose child has margins that are infinite and opposite. -/
def swamped : Declaration :=
  .sketch .container
    [("flex-direction", .keyword "row"), ("width", .number 100), ("height", .number 100)]
    [.sketch .container
      [("width", .number 20), ("align-self", .keyword "flex-start"),
        ("margin-left", .percent 300000000000000000000000000000000000000),
        ("margin-right", .percent (-300000000000000000000000000000000000000))] []]

/-- Both excuses are needed. -/
theorem sizeless_offers_bind_flattened_and_swamped :
    (∃ u ∈ requestsOf flattened square, ¬ u.request.height.Sound) ∧
      ∃ u ∈ requestsOf swamped square, ¬ u.request.width.Sound := by
  decide +kernel

/-- Sizes in a fixture laid out for the first time, without a grid. Upper bounds are kept by all
that is displayed, and where both bounds are the same the size is that, unless the margins of the
node have no finite sum. -/
theorem bounds_cap_and_pin_sizes (hc : config.onCopy = none)
    (hfew : d.pruned.preorder.length ≤ 2 ^ 32) (hgrid : (config.scale == 0) = true)
    (h : build d config = .ok b) (v : Viewport Float32) :
    ∃ n q stats s, b.tree.find? b.root = some n ∧
      (b.tree.primed b.root).runPass b.root v (Tree.rootRequest n.resolveSize v) .initial = q ∧
      (∀ limits, (Edit.calculateLayout b.root v limits).apply b.tree = (.ok stats, s)) ∧
      ∀ x, b.tree.Displays b.root x → ∃ k m, b.tree.find? x = some k ∧ s.find? x = some m ∧
        ∀ side M, k.Capped side M → ∃ a, m.geometry.size.get side = .known a ∧ a ≤ M ∧
          (k.Pinned side M → Pass.Strained q.node q.trail x ∨ (a == M) = true) := by
  have hsound := (build_reachable hc h).sound
  obtain ⟨hstands, hroot⟩ := build_stands h
  obtain ⟨n, hn, -, hconfig⟩ := hstands.found
  rw [← hroot] at hn
  have hg : b.tree.Grounded b.root := hroot ▸ hstands.grounded
  have hno : n.HasNoGrid := by rwa [Node.HasNoGrid, hconfig]
  obtain ⟨s, hrun, -, hsettled⟩ := Edit.calculateLayout_run hsound hg hn v
  refine ⟨n, _, _, s, hn, rfl, hrun, fun x hx => ?_⟩
  obtain ⟨k, m, hk, hm, hsize⟩ := (build_untouched h).sizes_fit hsound hg
    (build_private hc hfew h) hn hno v rfl hsettled hx
  refine ⟨k, m, hk, hm, fun side M hM => ?_⟩
  obtain ⟨a, ha, hfits⟩ := hsize side
  exact ⟨a, ha, hfits.capped M hM, hfits.pinned M⟩

/-- A row with a child that has borders, would grow, and is bounded. -/
def bordered : Declaration :=
  .sketch .container
    [("flex-direction", .keyword "row"), ("width", .number 100), ("height", .number 100)]
    [.sketch .container
      [("flex-grow", .number 1), ("border", .number 5), ("min-width", .number 30),
        ("max-width", .number 30), ("min-height", .number 20), ("max-height", .number 40)] []]

theorem frameFor_unpadded (h : n.style.padding = .const .undefined) (axis : FlexDirection)
    (width : Extent Float32) : n.frameFor axis width = n.frameFor axis .undefined := by
  unfold Node.frameFor Node.leadingFrame Node.trailingFrame Node.leadingPadding
    Node.trailingPadding
  rw [h]
  cases axis <;> rfl

theorem bordered_child (h : build bordered gridless = .ok b) : b.tree.Displays b.root ⟨2, 1⟩ ∧
    ∃ k, b.tree.find? ⟨2, 1⟩ = some k ∧ k.Pinned .width 30 ∧ k.Capped .height 40 := by
  have hlist : (build bordered gridless).toOption.map (fun b => b.tree.childrenOf b.root) =
      some [⟨2, 1⟩] := by
    decide +kernel
  have hchild : ((build bordered gridless).toOption.bind fun b =>
      (b.tree.find? ⟨2, 1⟩).map fun k => (k.isHidden, k.style.padding,
        [k.style.minSize.width, k.style.maxSize.width, k.style.minSize.height,
          k.style.maxSize.height],
        [.row, .rowReverse, .column, .columnReverse].map fun axis =>
          k.frameFor axis .undefined)) =
      some (false, .const .undefined, [.points 30, .points 30, .points 20, .points 40],
        [10, 10, 10, 10]) := by
    decide +kernel
  rw [h] at hlist hchild
  replace hlist := Option.some.inj hlist
  obtain ⟨k, hk, hfacts⟩ := Option.map_eq_some_iff.mp hchild
  simp only [Prod.mk.injEq, List.map_cons, List.map_nil, List.cons.injEq, and_true] at hfacts
  obtain ⟨hshown, hpadding, ⟨hmin, hmax, hmin', hmax'⟩, hrow, hreverse, hcolumn, hupward⟩ := hfacts
  have hframe : ∀ axis width, k.frameFor axis width = 10 := by
    intro axis width
    rw [frameFor_unpadded hpadding]
    cases axis <;> assumption
  have hcap : ∀ M : Float32, 10 ≤ M → ∀ axis width, k.frameFor axis width ≤ M :=
    fun M hM axis width => hframe axis width ▸ hM
  refine ⟨.tail .refl ⟨by simp [hlist], ?_⟩, k, hk, ⟨⟨hmax, by decide +kernel, by decide +kernel,
    Or.inr ⟨30, hmin, by decide +kernel, by decide +kernel⟩, fun axis _ => ?_⟩, 30, hmin,
    by decide +kernel⟩, hmax', by decide +kernel, by decide +kernel,
    Or.inr ⟨20, hmin', by decide +kernel, by decide +kernel⟩, fun axis _ => ?_⟩
  · rintro ⟨k', hk', hhidden⟩
    obtain rfl := Option.some.inj (hk.symm.trans hk')
    rw [hshown] at hhidden
    cases hhidden
  · exact hcap 30 (by decide +kernel) axis
  · exact hcap 40 (by decide +kernel) axis

theorem bounds_cap_and_pin_sizes_bordered : ∃ (b : Built) (n : Node Float32) (q : Pass Float32)
      (stats : Stats) (s : Tree Float32) (m : Node Float32),
    build bordered gridless = .ok b ∧ b.tree.find? b.root = some n ∧
      (b.tree.primed b.root).runPass b.root square (Tree.rootRequest n.resolveSize square)
        .initial = q ∧
      (∀ limits, (Edit.calculateLayout b.root square limits).apply b.tree = (.ok stats, s)) ∧
      s.find? ⟨2, 1⟩ = some m ∧
      (∃ a, m.geometry.size.width = .known a ∧ a ≤ 30 ∧
        (Pass.Strained q.node q.trail ⟨2, 1⟩ ∨ (a == 30) = true)) ∧
      ∃ a, m.geometry.size.height = .known a ∧ a ≤ 40 := by
  obtain ⟨b, hb⟩ := exists_built bordered gridless (by decide +kernel)
  obtain ⟨hx, k, hk, hwidth, hheight⟩ := bordered_child hb
  obtain ⟨n, q, stats, s, hn, hq, hrun, hsize⟩ := bounds_cap_and_pin_sizes rfl (by decide)
    (by decide +kernel) hb square
  obtain ⟨k', m, hk', hm, hsize⟩ := hsize _ hx
  obtain rfl := Option.some.inj (hk.symm.trans hk')
  obtain ⟨a, ha, hle, hpin⟩ := hsize .width 30 hwidth.toCapped
  obtain ⟨a', ha', hle', -⟩ := hsize .height 40 hheight
  exact ⟨b, n, q, stats, s, m, hb, hn, hq, hrun, hm, ⟨a, ha, hle, hpin hwidth⟩, a', ha', hle'⟩

/-- A column that wraps. Its first child has equal bounds on its height and no vertical margins. -/
def flooded : Declaration :=
  .sketch .container
    [("width", .number 100), ("height", .number 100), ("flex-wrap", .keyword "wrap")]
    [.sketch .container
      [("min-height", .number 50), ("max-height", .number 50),
        ("margin-left", .percent 300000000000000000000000000000000000000),
        ("margin-right", .percent (-300000000000000000000000000000000000000))] [],
      .sketch .container [("height", .number 80)] []]

/-- Margins of the other axis are in the way, too: what is stretched across its line again takes
them off its height. -/
theorem equal_bounds_missed_flooded :
    ((nodeAfter flooded square ⟨2, 1⟩).map fun n => (n.style.minSize.height,
      n.style.maxSize.height, n.marginFor .column (.known 100), n.geometry.size.height)) =
      some (.points 50, .points 50, 0, .known 0) := by
  decide +kernel

end Fixture

end Flexbox
