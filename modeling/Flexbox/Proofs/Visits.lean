import Flexbox.Proofs.Abreast

namespace Flexbox

variable {α : Type} [Scalar α]

/-- The size that an entry of a memory stands for. -/
def Measurement.size {α : Type} [Scalar α] (entry : Measurement α) : Size (Extent α) :=
  ⟨.of entry.computedWidth, .of entry.computedHeight⟩

namespace Node

variable {o n m : Node α} {g g' : UInt32} {r : Request α}
  {entry entry' : Measurement α} {part : Part}

omit [Scalar α] in
/-- The node once its answer to a request is worked out and kept. -/
def computed (n : Node α) (r : Request α) (generation : UInt32) : Node α :=
  ((n.directed r.ownerDirection).remembering r).answered r generation

/-- The node once its answer to a request is taken from an entry of its memory. -/
def restored (n : Node α) (entry : Measurement α) (r : Request α) (generation : UInt32) : Node α :=
  Node.answered { n with geometry := n.geometry.restore entry } r generation

theorem refreshed_agree (ha : Agree n m part) (g g' : UInt32) (direction : Direction) :
    Agree (n.refreshed g direction) (m.refreshed g' direction) part := by
  unfold refreshed
  split <;> split <;> cases part <;> exact ha

theorem computed_eq (n : Node α) (r : Request α) (generation : UInt32) :
    n.computed r generation = { n with
      geometry := { n.geometry with
        measurements := (n.computed r generation).geometry.measurements
        lastLayout := (n.computed r generation).geometry.lastLayout
        lastOwnerDirection := some r.ownerDirection
        size := if r.performLayout then n.geometry.measured else n.geometry.size
        generation := generation }
      hasNewLayout := r.performLayout || n.hasNewLayout } := by
  unfold computed answered remembering directed Geometry.remember
  dsimp only
  split <;> rfl

theorem computed_core (n : Node α) (r : Request α) (g : UInt32) : SameCore n (n.computed r g) := by
  rw [computed_eq]
  rfl

theorem Twin.computed (h : Twin g g' o n m)
    (hn : n.IsBlank ∨ n.geometry.lastOwnerDirection = some r.ownerDirection)
    (he : Agree n m .edges) (hm : Agree n m .measured)
    (hroom : n.geometry.roomForOne.length + 1 < measurementCapacity ∨
      o.geometry.measurements = []) : Twin g g' o (n.computed r g) (m.computed r g') := by
  have hrecalls : Recalls o (n.computed r g) (m.computed r g') :=
    ((h.recalls.directed hn).remembering hm hroom r).congr ⟨rfl, rfl, rfl⟩ ⟨rfl, rfl⟩
  refine ⟨h.left.trans (computed_core n r g), h.right.trans (computed_core m r g'), ?_, ?_,
    hrecalls, Or.inr ?_⟩
  · rw [computed_eq]
    exact h.dirty
  · rw [computed_eq n, computed_eq m]
    exact ⟨h.bases.stale, h.bases.agree, h.bases.right⟩
  · rw [computed_eq n, computed_eq m]
    exact ⟨rfl, rfl, rfl, he⟩

theorem computed_agree (ha : Agree n m part) (hm : Agree n m .measured) (r : Request α)
    (g g' : UInt32) : Agree (n.computed r g) (m.computed r g') part := by
  rw [computed_eq n, computed_eq m]
  cases part with
  | size =>
    dsimp only [Agree] at ha hm ⊢
    rw [ha, hm]
  | side | edges | basis | measured | line | preferred => exact ha

theorem Twin.restored (h : Twin g g' o n m) (ha : Asked g g' n m) (entry entry' : Measurement α)
    (r : Request α) : Twin g g' o (n.restored entry r g) (m.restored entry' r g') :=
  ⟨h.left.trans rfl, h.right.trans rfl, h.dirty, ⟨h.bases.stale, h.bases.agree, h.bases.right⟩,
    h.recalls.congr ⟨rfl, rfl, rfl⟩ ⟨rfl, rfl⟩, Or.inr ⟨rfl, rfl, ha.direction, ha.edges⟩⟩

theorem restored_agree (ha : Agree n m part) (hsame : entry'.size = entry.size) (r : Request α)
    (g g' : UInt32) : Agree (n.restored entry r g) (m.restored entry' r g') part := by
  cases part with
  | measured => exact hsame.symm
  | size =>
    simp only [Agree, restored, answered]
    split
    · exact hsame.symm
    · exact ha
  | side | edges | basis | line | preferred => exact ha

end Node

namespace Pass

variable {b p p' q q' : Pass α} {B : Set NodeId} {h : Nat} {x : NodeId}
  {v v' : Visitor α} {r : Request α} {entry : Measurement α} {source : Source} {fuel fuel' : Nat}

theorem edged_along (r : Request α) (ht : Twins b B p p') (hx : x ∈ B) :
    Along b B h p p' (p.edged x r) (p'.edged x r) ∧ At .edges x (p.edged x r) (p'.edged x r) := by
  have hcore := ht.core hx
  have hdir : (p'.node x).resolveDirection = (p.node x).resolveDirection := by
    rw [hcore]
    rfl
  unfold edged
  rw [hdir]
  generalize (p.node x).resolveDirection r.ownerDirection = direction
  have hsame : Node.Agree
      { p.node x with geometry := (p.node x).withBoxEdges direction r.ownerWidth }
      { p'.node x with geometry := (p'.node x).withBoxEdges direction r.ownerWidth } .edges := by
    rw [hcore]
    exact ⟨rfl, rfl, rfl, rfl⟩
  have hcount := fun f => ht.count (h := h) f f
  refine ⟨(hcount _).trans ((hcount _).twins.write hx fun part ha => ?_), ?_⟩
  · cases part with
    | edges => exact hsame
    | side | size | basis | measured | line | preferred => exact ha
  · exact at_update (ht.live x hx) (ht.live' x hx) hsame

theorem layNode_along (hv : Abreast b B h v v') (r : Request α) (ht : Twins b B p p') (hx : x ∈ B)
    (hd : Deep b (h + 1) x) (hq : Quiet b B (p.layNode v x r)) :
    Along b B h p p' (p.layNode v x r) (p'.layNode v' x r) ∧
      At .edges x (p.layNode v x r) (p'.layNode v' x r) ∧
      Solved b x r.performLayout (p.layNode v x r) (p'.layNode v' x r) := by
  obtain ⟨hfront, hedges⟩ := edged_along (h := h) r ht hx
  have hdir : (p'.node x).resolveDirection = (p.node x).resolveDirection := by
    rw [ht.core hx]
    rfl
  rw [layNode_eq] at hq
  rw [layNode_eq, layNode_eq, hdir]
  generalize (p.node x).resolveDirection r.ownerDirection = direction at hq ⊢
  generalize p.edged x r = u at hfront hedges hq ⊢
  generalize p'.edged x r = u' at hfront hedges ⊢
  unfold layInside at hq ⊢
  have htu := hfront.twins
  have hmeasure : (u.node x).measure = none := by
    rw [(htu.twin x hx).left]
    exact ht.stage.unmeasured x hx
  have hmeasure' : (u'.node x).measure = none := by
    rw [(htu.twin x hx).right]
    exact ht.stage.unmeasured x hx
  have hlist : (u.node x).children = b.children x := htu.left.children hx
  have hlist' : (u'.node x).children = b.children x := htu.right.children hx
  have hempty : (u'.node x).emptySize r = (u.node x).emptySize r := by
    rw [htu.core hx]
    rfl
  have hsettled : (u'.node x).settledSize r = (u.node x).settledSize r := by
    rw [htu.core hx]
    rfl
  rw [hmeasure, hlist] at hq
  rw [hmeasure, hmeasure', hlist, hlist', hempty, hsettled]
  dsimp only at hq ⊢
  by_cases hnone : (b.children x).isEmpty = true
  · simp only [hnone, if_true]
    obtain ⟨hset, hm⟩ := htu.setMeasured (h := h) hx ((u.node x).emptySize r).width
      ((u.node x).emptySize r).height
    refine ⟨hfront.trans hset, hset.at hx hedges, hm, fun _ => inner_of_children fun y hy => ?_⟩
    rw [List.isEmpty_iff.mp hnone] at hy
    cases hy
  simp only [hnone, Bool.false_eq_true, if_false] at hq ⊢
  by_cases hsettles : (!r.performLayout && r.isSettled) = true
  · simp only [hsettles, if_true]
    obtain ⟨hset, hm⟩ := htu.setMeasured (h := h) hx ((u.node x).settledSize r).width
      ((u.node x).settledSize r).height
    refine ⟨hfront.trans hset, hset.at hx hedges, hm, fun hl => ?_⟩
    simp [hl] at hsettles
  · simp only [hsettles, Bool.false_eq_true, if_false] at hq ⊢
    obtain ⟨hlay, hsolved⟩ := layContainer_along hv direction r htu hx hd hedges hq
    exact ⟨hfront.trans hlay, hlay.at hx hedges, hsolved⟩

omit [Scalar α] in
theorem update_congr (hl : p.tree.Live x) {f g : Node α → Node α}
    (h : f (p.node x) = g (p.node x)) : p.update x f = p.update x g := by
  refine congrArg (fun t => { p with tree := t }) (Tree.update_congr fun n hn => ?_)
  rwa [← Option.some.inj ((node_eq hl).symm.trans hn)]

theorem refresh_eq (hl : p.tree.Live x) (direction : Direction) :
    p.refresh x direction = p.update x fun n => n.refreshed p.generation direction := by
  unfold refresh
  split
  · rename_i hout
    exact update_congr hl (Node.refreshed_of_outdated hout).symm
  · rename_i hout
    rw [update_congr (f := fun n => n.refreshed p.generation direction) (g := fun n => n) hl
      (Node.refreshed_of_not_outdated hout)]
    exact congrArg (fun t => { p with tree := t }) (Tree.update_same fun _ _ => rfl).symm

theorem compute_finish_eq (hq : (p.record ⟨x, r, .computed⟩).layNode v x r = q)
    (hl : q.tree.Live x) :
    (p.compute v x r).finish x r =
      (q.update x fun n => n.computed r q.generation).count fun s => { s with
        maxMeasureCache := max s.maxMeasureCache ((q.node x).geometry.roomForOne.length + 1) } := by
  rw [finish_eq]
  unfold compute
  rw [hq]
  dsimp only
  have hused : ((q.updateGeometry x fun g => { g with
      lastOwnerDirection := some r.ownerDirection }).node x).geometry.roomForOne.length =
      (q.node x).geometry.roomForOne.length := by
    rw [updateGeometry, node_update_self hl]
    rfl
  have hwrite : ((q.updateGeometry x fun g => { g with
      lastOwnerDirection := some r.ownerDirection }).updateGeometry x fun g =>
        g.remember r).update x (fun n => n.answered r q.generation) =
      q.update x fun n => n.computed r q.generation := by
    rw [updateGeometry, updateGeometry, update_update, update_update]
    rfl
  rw [hused, ← hwrite]
  rfl

theorem restore_finish_eq (hl : p.tree.Live x)
    (he : (p.node x).geometry.entry? source = some entry) :
    (p.restore x r source).finish x r =
      ((p.record ⟨x, r, source⟩).update x fun n => n.restored entry r p.generation).count fun s =>
          if r.performLayout then { s with cachedLayouts := s.cachedLayouts + 1 }
          else { s with cachedMeasures := s.cachedMeasures + 1 } := by
  have hentry : ((p.record ⟨x, r, source⟩).node x).geometry.entry? source = some entry := he
  rw [finish_eq]
  unfold restore updateGeometry
  dsimp only
  rw [update_congr (p := p.record ⟨x, r, source⟩) hl
    (g := fun n => { n with geometry := n.geometry.restore entry }) ?_]
  · have hwrite : ((p.record ⟨x, r, source⟩).update x fun n =>
        { n with geometry := n.geometry.restore entry }).update x
          (fun n => n.answered r p.generation) =
        (p.record ⟨x, r, source⟩).update x fun n => n.restored entry r p.generation :=
      update_update _ x _ _
    rw [← hwrite]
    rfl
  · simp only [hentry]

theorem Twins.refresh (ht : Twins b B p p') (hx : Member b B h x) (direction : Direction) :
    Along b B h p p' (p.refresh x direction) (p'.refresh x direction) := by
  rw [refresh_eq (ht.live x hx.mem), refresh_eq (ht.live' x hx.mem)]
  refine ht.update hx.mem (fun n => n.refreshed_core _ _) (fun n => n.refreshed_core _ _)
    ((ht.twin x hx.mem).refreshed direction) (fun part ha => Node.refreshed_agree ha _ _ _)
    (fun hl => ht.inner x hx.mem fun hb => hl ?_) (Or.inl hx.deep)
  unfold Node.refreshed
  split
  · rfl
  · exact hb

theorem quiet_of_compute (hv : Mover Set.univ v) (hx : Ready Set.univ p x)
    (hq : Quiet b B ((p.compute v x r).finish x r)) :
    Quiet b B ((p.record ⟨x, r, .computed⟩).layNode v x r) := by
  have hrec := (Step.record p (v := ⟨x, r, .computed⟩) (Set.mem_univ x)).moves
  have hlay := layNode_moves hv r (hrec.ready hx).admitted
  rw [compute_finish_eq rfl (hlay.ready (hrec.ready hx)).live] at hq
  exact ⟨hq.forgotten, hq.room.imp (fun hroom => lt_of_le_of_lt (le_max_left _ _) hroom) id⟩

/-- Both passes work out an answer. What the node remembers is not touched until it is found,
since the node does not stand below itself. -/
theorem compute_along (hv : Abreast b B h v v') (r : Request α) (ht : Twins b B p p') (hx : x ∈ B)
    (hd : Deep b (h + 1) x) (hno : ¬ Deep b h x)
    (hmem : (p.node x).IsBlank ∨ (p.node x).geometry.lastOwnerDirection = some r.ownerDirection)
    (hq : Quiet b B ((p.compute v x r).finish x r)) :
    Along b B (h + 1) p p' ((p.compute v x r).finish x r) ((p'.compute v' x r).finish x r) ∧
      At .measured x ((p.compute v x r).finish x r) ((p'.compute v' x r).finish x r) := by
  have hrec := ht.record (h := h) ⟨x, r, .computed⟩ ⟨x, r, .computed⟩
  obtain ⟨hlaid, hedges, hsolved⟩ := layNode_along hv r hrec.twins hx hd
    (quiet_of_compute hv.attentive.moves (ht.left.ready hx) hq)
  have htu := hlaid.twins
  rw [compute_finish_eq rfl (htu.live x hx)] at hq ⊢
  rw [compute_finish_eq rfl (htu.live' x hx)]
  generalize (p.record ⟨x, r, .computed⟩).layNode v x r = u at *
  generalize (p'.record ⟨x, r, .computed⟩).layNode v' x r = u' at *
  have hall := hrec.trans hlaid
  have hstill := hall.still x hx hno
  have hmem' : (u.node x).IsBlank ∨
      (u.node x).geometry.lastOwnerDirection = some r.ownerDirection := by
    rw [Node.IsBlank, hstill.1, hstill.2.1, hstill.2.2]
    exact hmem
  have hroom : (u.node x).geometry.roomForOne.length + 1 < measurementCapacity ∨
      (b.node x).geometry.measurements = [] :=
    hq.room.imp (fun hroom => lt_of_le_of_lt (le_max_right _ _) hroom) fun hroom => hroom x hx
  have hwrite : Along b B (h + 1) u u' (u.update x fun n => n.computed r u.generation)
      (u'.update x fun n => n.computed r u'.generation) := by
    refine htu.update hx (fun n => n.computed_core _ _) (fun n => n.computed_core _ _)
      ((htu.twin x hx).computed hmem' hedges hsolved.measured hroom)
      (fun part ha => Node.computed_agree ha hsolved.measured r _ _) (fun hne => ?_) (Or.inl hd)
    by_cases hl : r.performLayout = true
    · exact hsolved.inner hl
    · refine htu.inner x hx fun hb => hne ?_
      simpa [Node.computed, Node.answered, Node.remembering, Node.directed, Geometry.remember, hl]
        using hb
  have hend := fun f f' => hwrite.trans (hwrite.twins.count (h := h + 1) f f')
  exact ⟨(hall.mono (by omega)).trans (hend _ _), (hend _ _).at hx hsolved.measured⟩

theorem restore_along (r : Request α) (ht : Twins b B p p') (hx : Member b B h x) {source' : Source}
    {entry' : Measurement α} (he : (p.node x).geometry.entry? source = some entry)
    (he' : (p'.node x).geometry.entry? source' = some entry')
    (hsame : entry'.size = entry.size)
    (hasked : Node.Asked p.generation p'.generation (p.node x) (p'.node x)) :
    Along b B h p p' ((p.restore x r source).finish x r) ((p'.restore x r source').finish x r) ∧
      At .measured x ((p.restore x r source).finish x r)
        ((p'.restore x r source').finish x r) := by
  have hrec := ht.record (h := h) ⟨x, r, source⟩ ⟨x, r, source'⟩
  rw [restore_finish_eq (ht.live x hx.mem) he, restore_finish_eq (ht.live' x hx.mem) he']
  have hu : p.generation = (p.record ⟨x, r, source⟩).generation ∧
      p.node x = (p.record ⟨x, r, source⟩).node x := ⟨rfl, rfl⟩
  have hu' : p'.generation = (p'.record ⟨x, r, source'⟩).generation ∧
      p'.node x = (p'.record ⟨x, r, source'⟩).node x := ⟨rfl, rfl⟩
  rw [hu.1, hu'.1, hu.2, hu'.2] at hasked
  rw [hu.1, hu'.1]
  generalize p.record _ = u at hrec hasked ⊢
  generalize p'.record _ = u' at hrec hasked ⊢
  have htu := hrec.twins
  have hwrite : Along b B h u u' (u.update x fun n => n.restored entry r u.generation)
      (u'.update x fun n => n.restored entry' r u'.generation) := by
    refine htu.update hx.mem (fun _ => rfl) (fun _ => rfl)
      ((htu.twin x hx.mem).restored hasked entry entry' r) (fun part ha => ?_)
      (htu.inner x hx.mem) (Or.inl hx.deep)
    exact Node.restored_agree ha hsame r _ _
  have hmeasured : At .measured x (u.update x fun n => n.restored entry r u.generation)
      (u'.update x fun n => n.restored entry' r u'.generation) :=
    at_update (htu.live x hx.mem) (htu.live' x hx.mem) hsame.symm
  have hcount := hwrite.twins.count (h := h)
  exact ⟨(hrec.trans hwrite).trans (hcount _ _), (hcount _ _).at hx.mem hmeasured⟩

theorem visit_step
    (hv : Abreast b B h (fun x r p => (visit fuel x r p).2) (fun x r p => (visit fuel' x r p).2))
    (ht : Twins b B p p') (hx : Member b B (h + 1) x) (hno : ¬ Deep b h x)
    (hq : Quiet b B (visit (fuel + 1) x r p).2) :
    (visit (fuel + 1) x r p).1 = (visit (fuel' + 1) x r p').1 ∧
      Along b B (h + 1) p p' (visit (fuel + 1) x r p).2 (visit (fuel' + 1) x r p').2 ∧
      At .measured x (visit (fuel + 1) x r p).2 (visit (fuel' + 1) x r p').2 := by
  have hn := node_eq (ht.live x hx.mem)
  have hn' := node_eq (ht.live' x hx.mem)
  have htwin := (ht.twin x hx.mem).refreshed r.ownerDirection
  have href := ht.refresh hx r.ownerDirection
  have hsame := (ht.twin x hx.mem).recalled? (r := r) (ht.stage.unmeasured x hx.mem)
    (ht.stage.dirty x hx.mem) b.generation
  have hmeasure : ((p'.node x).refreshed p'.generation r.ownerDirection).measure = none := by
    rw [htwin.right]
    exact ht.stage.unmeasured x hx.mem
  have hnode := node_refresh hn r.ownerDirection
  have hnode' := node_refresh hn' r.ownerDirection
  cases hr : ((p.node x).refreshed p.generation r.ownerDirection).remembered? r with
  | some source =>
    obtain ⟨entry, he⟩ := Node.entry?_of_remembered? hr
    rw [visit_of_remembered hn hr] at hq ⊢
    replace hsame := hsame (Node.recalled?_eq_none.mpr (hq.forgotten ⟨x, r, source⟩
      (by rw [finish_eq]; exact List.mem_cons_self) hx.mem
      fun hcomputed => by
        obtain rfl : source = .computed := hcomputed
        cases he))
    rw [show Node.recalled? _ r = _ by
      rw [Node.recalled?, hr, Option.bind_some, he, Option.map_some]]
      at hsame
    obtain ⟨entry', he', hsize⟩ := Option.map_eq_some_iff.mp hsame.symm
    obtain ⟨source', hr', he'⟩ := Option.bind_eq_some_iff.mp he'
    rw [visit_of_remembered hn' hr']
    have hasked := htwin.asked.resolve_left fun hu => by
      rw [hu.2.recalled? hmeasure] at hsame
      cases hsame
    obtain ⟨halong, hmeasured⟩ := restore_along r href.twins hx (by rw [hnode]; exact he)
      (by rw [hnode']; exact he') hsize
      (by rw [hnode, hnode', refresh_generation, refresh_generation]; exact hasked)
    exact ⟨rfl, href.trans halong, hmeasured⟩
  | none =>
    rw [visit_of_forgotten hn hr] at hq ⊢
    have hnone := (ht.twin x hx.mem).forgotten (ht.stage.unmeasured x hx.mem)
      (Node.recalled?_eq_none.mpr hr)
    rw [visit_of_forgotten hn' (Node.recalled?_eq_none.mp hnone)]
    obtain ⟨halong, hmeasured⟩ := compute_along hv r href.twins hx.mem hx.deep hno
      (by rw [hnode]; exact Node.refreshed_blank_or_directed _ _ _) hq
    exact ⟨rfl, href.trans halong, hmeasured⟩

theorem visit_along (b : Pass α) (B : Set NodeId) (h : Nat) (hf : h < fuel) (hf' : h < fuel')
    (hx : Member b B h x) (ht : Twins b B p p') (hq : Quiet b B (visit fuel x r p).2) :
    (visit fuel x r p).1 = (visit fuel' x r p').1 ∧
      Along b B h p p' (visit fuel x r p).2 (visit fuel' x r p').2 ∧
      At .measured x (visit fuel x r p).2 (visit fuel' x r p').2 := by
  induction h generalizing fuel fuel' x r p p' with
  | zero => cases hx.deep
  | succ h ih =>
    by_cases hd : Deep b h x
    · obtain ⟨hcomputed, halong, hmeasured⟩ :=
        ih (Nat.lt_of_succ_lt hf) (Nat.lt_of_succ_lt hf') ⟨hx.mem, hd⟩ ht hq
      exact ⟨hcomputed, halong.mono (by omega), hmeasured⟩
    · obtain ⟨fuel, rfl⟩ := exists_pred hf
      obtain ⟨fuel', rfl⟩ := exists_pred hf'
      have hlow := Nat.lt_of_succ_lt_succ hf
      have hlow' := Nat.lt_of_succ_lt_succ hf'
      exact visit_step ⟨visit_attentive (Nat.zero_lt_of_lt hlow),
        visit_attentive (Nat.zero_lt_of_lt hlow'), fun hx ht hq => (ih hlow hlow' hx ht hq).2⟩
        ht hx hd hq

end Pass

end Flexbox
