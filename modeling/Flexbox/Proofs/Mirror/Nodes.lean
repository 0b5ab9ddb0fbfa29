import Flexbox.Proofs.Tandem.Nodes

namespace Flexbox

variable {α : Type}

namespace Node

variable {n m parent parent' : Node α}

/-- The mirror image of a node, standing at `left` and `right` and shared by `count` nodes. -/
def reflect (n : Node α) (left right : α) (count : Nat) : Node α :=
  { n with
    style := n.style.mirror
    geometry := { n.geometry with
      direction := n.geometry.direction.mirror
      lastOwnerDirection := n.geometry.lastOwnerDirection.map Direction.mirror
      position := { n.geometry.position with left := left, right := right } }
    sharedCount := count }

/-- The other node is the mirror image of this one, wherever it stands between left and right. -/
def Reflects (n m : Node α) : Prop := ∃ left right count, m = n.reflect left right count

theorem Reflects.same {β : Type} (h : n.Reflects m) (f : Node α → β)
    (hf : ∀ left right count, f (n.reflect left right count) = f n) : f m = f n := by
  obtain ⟨left, right, count, rfl⟩ := h
  exact hf left right count

section

variable (h : n.Reflects m)

include h

theorem Reflects.children : m.children = n.children :=
  h.same Node.children fun _ _ _ => rfl

theorem Reflects.owner : m.owner = n.owner := h.same Node.owner fun _ _ _ => rfl

theorem Reflects.config : m.config = n.config :=
  h.same Node.config fun _ _ _ => rfl

theorem Reflects.faces : n.Faces true m := by
  obtain ⟨_, _, _, rfl⟩ := h
  rfl

end

variable [Scalar α]

theorem Reflects.measuredSize (h : n.Reflects m) :
    m.geometry.measuredSize = n.geometry.measuredSize :=
  h.same (fun n => n.geometry.measuredSize) fun _ _ _ => rfl

section Sums

variable [Std.Commutative (fun a b : α => a + b)] (h : n.Reflects m) (hu : n.style.Undirected)

include h hu

theorem Reflects.level : n.Level m := by
  have hcomm : ∀ a b : α, a + b = b + a := Std.Commutative.comm
  -- On the mirrored axis the two agree side by side, and there a node has its sides exchanged.
  have hinset : ∀ axis : FlexDirection, m.leadingInset axis = n.leadingInset axis.mirror ∧
      m.trailingInset axis = n.trailingInset axis.mirror := fun axis => by
    obtain ⟨_, _, _, rfl⟩ := h
    cases axis <;> exact ⟨rfl, rfl⟩
  have hexchange : ∀ axis : FlexDirection,
      n.leadingInset axis.mirror = n.leadingInset axis ∧
          n.trailingInset axis.mirror = n.trailingInset axis ∨
        n.leadingInset axis.mirror = n.trailingInset axis ∧
          n.trailingInset axis.mirror = n.leadingInset axis := fun axis => by
    by_cases hrow : axis.isRow
    · exact Or.inr (leadingInset_mirror hu.position axis hrow)
    · exact Or.inl (by cases axis <;> first | exact ⟨rfl, rfl⟩ | exact absurd rfl hrow)
  refine ⟨fun axis width => ?_, fun axis width => ?_, fun axis => ?_, fun axis => ?_,
    fun axis size => ?_⟩
  · rw [← n.marginFor_mirror hu, ← h.faces.marginFor]
    exact congrArg (m.marginFor · width) axis.mirror_mirror.symm
  · rw [← n.frameFor_mirror hu, ← h.faces.frameFor]
    exact congrArg (m.frameFor · width) axis.mirror_mirror.symm
  · obtain ⟨_, _, _, rfl⟩ := h
    by_cases hrow : axis.isRow
    · obtain ⟨hl, ht⟩ := leadingBorder_mirror hu.border axis hrow
      rw [hcomm (n.leadingBorder axis), ← hl, ← ht]
      cases axis <;> rfl
    · cases axis <;> first | rfl | exact absurd rfl hrow
  · simp only [hasLeadingInset, hasTrailingInset, hinset axis]
    rcases hexchange axis with ⟨hl, ht⟩ | ⟨hl, ht⟩
    · rw [hl, ht]
    · rw [hl, ht, Bool.and_comm]
  · simp only [leadingPosition, trailingPosition, hinset axis]
    rcases hexchange axis with ⟨hl, ht⟩ | ⟨hl, ht⟩
    · rw [hl, ht]
    · rw [hl, ht, hcomm]

theorem Reflects.rootOffer (axis : FlexDirection) (ownerSize ownerWidth : Extent α) :
    m.rootOffer axis ownerSize ownerWidth = n.rootOffer axis ownerSize ownerWidth := by
  rw [Node.rootOffer, (h.level hu).margins, h.same (fun n => n.style.maxSize) fun _ _ _ => rfl,
    h.same (fun n => n.hasDefiniteSize axis ownerSize) fun _ _ _ => rfl,
    h.same (fun n => n.preferredSize axis ownerSize) fun _ _ _ => rfl]
  rfl

theorem Reflects.boundSize (r : Request α) (size : Size (Extent α)) :
    m.boundSize r size = n.boundSize r size := by
  rw [Node.boundSize, h.faces.bound_same (h.level hu), h.faces.bound_same (h.level hu)]
  rfl

theorem Reflects.contentOffer (axis : FlexDirection) (offer : Offer α) (width : Extent α) :
    m.contentOffer axis offer width = n.contentOffer axis offer width := by
  rw [Node.contentOffer, (h.level hu).margins, (h.level hu).frames]
  rfl

theorem Reflects.leafSize (r : Request α) (content : Size α) :
    m.leafSize r content = n.leafSize r content := by
  simp only [Node.leafSize, (h.level hu).margins, (h.level hu).frames]

theorem Reflects.emptySize (r : Request α) : m.emptySize r = n.emptySize r := by
  simp only [Node.emptySize, (h.level hu).margins, (h.level hu).frames, h.boundSize hu]

theorem Reflects.settledSize (r : Request α) : m.settledSize r = n.settledSize r := by
  simp only [Node.settledSize, (h.level hu).margins, h.boundSize hu]

theorem Reflects.innerSize (axis : FlexDirection) (available ownerSize : Extent α) :
    m.innerSize axis available ownerSize = n.innerSize axis available ownerSize := by
  simp only [Node.innerSize, (h.level hu).margins, (h.level hu).frames,
    h.same (fun n => n.style.maxSize) fun _ _ _ => rfl,
    h.same (fun n => n.style.minSize) fun _ _ _ => rfl]

end Sums

end Node

namespace Request

variable (r : Request α)

@[simp] theorem mirror_width : r.mirror.width = r.width := rfl

@[simp] theorem mirror_height : r.mirror.height = r.height := rfl

@[simp] theorem mirror_ownerDirection : r.mirror.ownerDirection = r.ownerDirection.mirror := rfl

@[simp] theorem mirror_ownerWidth : r.mirror.ownerWidth = r.ownerWidth := rfl

@[simp] theorem mirror_performLayout : r.mirror.performLayout = r.performLayout := rfl

end Request

theorem Container.ofRequest_mirror {α : Type} [Scalar α] [Std.Commutative (fun a b : α => a + b)]
    {n m : Node α} (h : n.Reflects m) (hu : n.style.Undirected) (id : NodeId) (r : Request α) :
    ofRequest m id .rtl r.mirror = (ofRequest n id .ltr r).turn true := by
  have hdirection : m.style.flexDirection = n.style.flexDirection :=
    h.same (fun n => n.style.flexDirection) fun _ _ _ => rfl
  simp only [ofRequest, hdirection, FlexDirection.resolve_rtl, FlexDirection.cross_rtl,
    h.innerSize hu]
  rfl

namespace Node

variable {n m parent parent' : Node α}

theorem Reflects.baselineChild? (hp : parent.Reflects parent') {xs : List NodeId}
    {f g : NodeId → Node α} (h : ∀ x ∈ xs, (f x).Reflects (g x)) (found : Option NodeId) :
    parent'.baselineChild? (xs.map fun x => (x, g x)) found =
      parent.baselineChild? (xs.map fun x => (x, f x)) found := by
  induction xs generalizing found with
  | nil => rfl
  | cons x xs ih =>
    have hx := h x (by simp)
    have ih := ih fun y hy => h y (by simp [hy])
    simp only [List.map_cons, Node.baselineChild?, ih, hx.same Node.line fun _ _ _ => rfl,
      hx.faces.isAbsolute, hp.faces.alignOf hx.faces,
      hx.same Node.isReferenceBaseline fun _ _ _ => rfl]

theorem Reflects.isOutdated (h : n.Reflects m) (generation : UInt32) (direction : Direction) :
    m.isOutdated generation direction.mirror = n.isOutdated generation direction := by
  obtain ⟨_, _, _, rfl⟩ := h
  have hsame : (n.geometry.lastOwnerDirection.map Direction.mirror != some direction.mirror) =
      (n.geometry.lastOwnerDirection != some direction) := by
    cases n.geometry.lastOwnerDirection with
    | none => rfl
    | some d => cases d <;> cases direction <;> rfl
  exact congrArg (_ || ·) hsame

theorem Reflects.setPosition (h : n.Reflects m) (side : Side) {x y : α}
    (hy : side.mirror = side → y = x) :
    Node.Reflects { n with geometry := n.geometry.setPosition side x }
      { m with geometry := m.geometry.setPosition side.mirror y } := by
  obtain ⟨left, right, count, rfl⟩ := h
  cases side with
  | left => exact ⟨left, y, count, rfl⟩
  | right => exact ⟨y, right, count, rfl⟩
  | top | bottom =>
    obtain rfl := hy rfl
    exact ⟨left, right, count, rfl⟩

theorem Reflects.setPosition_row (h : n.Reflects m) {side : Side}
    (hside : side = .left ∨ side = .right) (x : α) :
    Node.Reflects { n with geometry := n.geometry.setPosition side x } m ∧
      Node.Reflects n { m with geometry := m.geometry.setPosition side x } := by
  obtain ⟨left, right, count, rfl⟩ := h
  rcases hside with rfl | rfl
  · exact ⟨⟨left, right, count, rfl⟩, ⟨x, right, count, rfl⟩⟩
  · exact ⟨⟨left, right, count, rfl⟩, ⟨left, x, count, rfl⟩⟩

variable [Scalar α]

section

variable (h : n.Reflects m)

include h

theorem Reflects.remembered? [Std.Commutative (fun a b : α => a + b)] (hu : n.style.Undirected)
    (r : Request α) : m.remembered? r.mirror = n.remembered? r := by
  simp only [Node.remembered?, Request.mirror_width, Request.mirror_height,
    Request.mirror_ownerWidth, Request.mirror_performLayout, (h.level hu).margins, h.config,
    h.same Node.measure fun _ _ _ => rfl,
    h.same (fun n => n.geometry.measurements) fun _ _ _ => rfl,
    h.same (fun n => n.geometry.lastLayout) fun _ _ _ => rfl]

theorem Reflects.withBoxEdges (width : Extent α) :
    Node.Reflects { n with geometry := n.withBoxEdges .ltr width }
      { m with geometry := m.withBoxEdges .rtl width } := by
  obtain ⟨left, right, count, rfl⟩ := h
  exact ⟨left, right, count, rfl⟩

theorem Reflects.resolveSize : n.resolveSize.Reflects m.resolveSize := by
  obtain ⟨left, right, count, rfl⟩ := h
  exact ⟨left, right, count, rfl⟩

theorem Reflects.placed (ho : n.owner.isSome) (main cross width : Extent α) :
    { m with geometry := m.placed .rtl main cross width } =
      Node.reflect { n with geometry := n.placed .ltr main cross width }
        (n.placed .ltr main cross width).position.right
        (n.placed .ltr main cross width).position.left m.sharedCount := by
  obtain ⟨left, right, count, rfl⟩ := h
  have ho' : (n.reflect left right count).owner.isSome := ho
  unfold Node.placed
  dsimp only
  rw [if_pos ho, if_pos ho']
  obtain ⟨⟨direction, flexDirection⟩⟩ := n
  cases flexDirection <;> rfl

theorem Reflects.placed_root (main cross width : Extent α) :
    Node.Reflects { n with geometry := n.placed .ltr main cross width }
      { m with geometry := m.placed .rtl main cross width } := by
  obtain ⟨left, right, count, rfl⟩ := h
  have ho : (n.reflect left right count).owner = n.owner := rfl
  unfold Node.placed
  rw [ho]
  obtain ⟨⟨direction, flexDirection⟩⟩ := n
  dsimp only
  split <;> cases flexDirection <;> exact ⟨_, _, count, rfl⟩

end

end Node

end Flexbox
