import Flexbox.Proofs.Courses
import Flexbox.Proofs.Visits

namespace Flexbox

variable {α : Type}

inductive Deed (α : Type)
  /-- A request was answered by an entry that was remembered. -/
  | answered (visit : Visit α) (entry : Measurement α)
  /-- A request was computed, and the answer remembered. -/
  | stored (id : NodeId) (entry : Measurement α)
  /-- A node was copied with all that it remembers. -/
  | copied (original copy : NodeId)

namespace Deed

/-- The node that a name stood for before some deeds, of which the latest is the first. -/
def origin : List (Deed α) → NodeId → NodeId
  | [], x => x
  | copied original copy :: ds, x => if x = copy then origin ds original else origin ds x
  | _ :: ds, x => origin ds x

/-- An entry was stored for a node, or for the one it was copied from before it was. -/
def Stored : List (Deed α) → NodeId → Measurement α → Prop
  | [], _, _ => False
  | stored id entry :: ds, x, m => (x = id ∧ m = entry) ∨ Stored ds x m
  | copied original copy :: ds, x, m => if x = copy then Stored ds original m else Stored ds x m
  | answered .. :: ds, x, m => Stored ds x m

def answers : List (Deed α) → List (Visit α) :=
  List.filterMap fun
    | answered visit _ => some visit
    | _ => none

end Deed

def Geometry.answer {α : Type} [Scalar α] (g : Geometry α) (r : Request α) : Measurement α :=
  .ofOffers r.width r.height (g.measured.width.getD (-1)) (g.measured.height.getD (-1))

namespace Pass

variable [Scalar α]

/-- What remains to be done once the layout of a node is computed. -/
def store (id : NodeId) (r : Request α) (p : Pass α) : Pass α :=
  let p := p.updateGeometry id fun g => { g with lastOwnerDirection := some r.ownerDirection }
  let used := (p.node id).geometry.roomForOne.length + 1
  let p := p.updateGeometry id fun g => g.remember r
  p.count fun s => { s with maxMeasureCache := max s.maxMeasureCache used }

theorem compute_eq (visit : Visitor α) (id : NodeId) (r : Request α) (p : Pass α) :
    p.compute visit id r = ((p.record ⟨id, r, .computed⟩).layNode visit id r).store id r :=
  rfl

/-- The way of a pass, with its deeds, the latest first. -/
inductive Chronicle : Pass α → List (Deed α) → Pass α → Prop
  | start (p : Pass α) : Chronicle p [] p
  | write {p ds q} (h : Chronicle p ds q) (id : NodeId) {f : Node α → Node α}
      (hf : ∀ n : Node α, n.Retains (f n)) : Chronicle p ds (q.update id f)
  | tell {p ds q} (h : Chronicle p ds q) (e : Event α) : Chronicle p ds (q.tell e)
  | count {p ds q} (h : Chronicle p ds q) (f : Stats → Stats) : Chronicle p ds (q.count f)
  /-- A new node remembers nothing. -/
  | fresh {p ds q} (h : Chronicle p ds q) {n : Node α} (hm : n.geometry.measurements = [])
      (hl : n.geometry.lastLayout = .blank) :
      Chronicle p ds { q with tree := (q.tree.insert n).2 }
  /-- A copy is as old as what it is a copy of. -/
  | copy {p ds q} (h : Chronicle p ds q) {x : NodeId} {n m : Node α}
      (hn : q.tree.find? x = some n) (hd : m.isDirty = n.isDirty) (hg : m.geometry = n.geometry) :
      Chronicle p (.copied x (q.tree.insert m).1 :: ds) { q with tree := (q.tree.insert m).2 }
  /-- A request for a node that is not there comes to nothing. -/
  | miss {p ds q} (h : Chronicle p ds q) {id : NodeId} (r : Request α) (hid : ¬ q.tree.Live id) :
      Chronicle p ds (q.record ⟨id, r, .computed⟩)
  | answer {p ds q} (h : Chronicle p ds q) {id : NodeId} {r : Request α} {n : Node α}
      {source : Source} {entry : Measurement α} (hn : q.tree.find? id = some n)
      (hs : (n.refreshed q.generation r.ownerDirection).remembered? r = some source)
      (he : (n.refreshed q.generation r.ownerDirection).geometry.entry? source = some entry) :
      Chronicle p (.answered ⟨id, r, source⟩ entry :: ds)
        (((q.refresh id r.ownerDirection).restore id r source).finish id r)
  /-- The deeds within a visit come before the answer is stored. -/
  | compute {p ds q es u} (h : Chronicle p ds q) {id : NodeId} {r : Request α} {n : Node α}
      (hn : q.tree.find? id = some n)
      (hs : (n.refreshed q.generation r.ownerDirection).remembered? r = none)
      (inner : Chronicle ((q.refresh id r.ownerDirection).record ⟨id, r, .computed⟩) es u) :
      Chronicle p (.stored id ((u.node id).geometry.answer r) :: (es ++ ds))
        ((u.store id r).finish id r)

namespace Chronicle

variable {p q u : Pass α} {ds es : List (Deed α)}

theorem trans (h : Chronicle p ds q) (h' : Chronicle q es u) : Chronicle p (es ++ ds) u := by
  induction h' with
  | start => exact h
  | write _ id hf ih => exact (ih h).write id hf
  | tell _ e ih => exact (ih h).tell e
  | count _ f ih => exact (ih h).count f
  | fresh _ hm hl ih => exact (ih h).fresh hm hl
  | copy _ hn hd hg ih => exact (ih h).copy hn hd hg
  | miss _ r hid ih => exact (ih h).miss r hid
  | answer _ hn hs he ih => exact (ih h).answer hn hs he
  | compute _ hn hs inner ih _ =>
    rw [List.cons_append, List.append_assoc]
    exact (ih h).compute hn hs inner

theorem constants (h : Chronicle p ds q) : q.generation = p.generation ∧ q.limits = p.limits := by
  have hfinish : ∀ (id r) (p : Pass α),
      (p.finish id r).generation = p.generation ∧ (p.finish id r).limits = p.limits := by
    intro id r p
    unfold Pass.finish
    dsimp only
    split <;> exact ⟨rfl, rfl⟩
  have hrefresh : ∀ (id d) (p : Pass α),
      (p.refresh id d).generation = p.generation ∧ (p.refresh id d).limits = p.limits := by
    intro id d p
    unfold Pass.refresh
    split <;> exact ⟨rfl, rfl⟩
  induction h with
  | start => exact ⟨rfl, rfl⟩
  | write | tell | count | fresh | copy | miss => assumption
  | @answer p ds q _ id r n source entry _ _ _ ih =>
    refine ⟨?_, ?_⟩
    · rw [(hfinish _ _ _).1]
      exact (hrefresh _ _ q).1.trans ih.1
    · rw [(hfinish _ _ _).2]
      exact (hrefresh _ _ q).2.trans ih.2
  | @compute p ds q es u _ id r n _ _ _ ih ih' =>
    refine ⟨?_, ?_⟩
    · rw [(hfinish _ _ _).1]
      exact ih'.1.trans ((hrefresh _ _ q).1.trans ih.1)
    · rw [(hfinish _ _ _).2]
      exact ih'.2.trans ((hrefresh _ _ q).2.trans ih.2)

end Chronicle

variable {p q u : Pass α} {ds es : List (Deed α)} {x id : NodeId}

/-- The pass can be told as a chronicle, unless it reads something else than new nodes where there
are none. -/
def Chronicled (p q : Pass α) : Prop := p.limits = .initial → ∃ ds, Chronicle p ds q

def Told (p : Pass α) (s : Tree α) : Prop := ∃ ds, Chronicle p ds { p with tree := s }

variable {s : Tree α}

section

variable (h : Told p s) {n : Node α}

include h

theorem Told.write (x : NodeId) {f : Node α → Node α} (hf : ∀ n : Node α, n.Retains (f n)) :
    Told p (s.update x f) := by
  obtain ⟨ds, h⟩ := h
  exact ⟨ds, h.write x hf⟩

theorem Told.share (xs : List NodeId) : Told p (s.share xs) :=
  List.foldlRecOn xs _ h fun _ h x _ => h.write x fun _ => Or.inl ⟨rfl, rfl, rfl, rfl⟩

theorem Told.unlist (a b : NodeId) : Told p (s.unlist a b) :=
  h.write b fun n => by split <;> exact Or.inl ⟨rfl, rfl, rfl, rfl⟩

theorem Told.tell (e : Event α) : Told p (s.tell e) := by
  obtain ⟨ds, h⟩ := h
  exact ⟨ds, h.tell e⟩

theorem told_copyFor (owner child : NodeId) (index : Nat)
    (choose : Option (NodeId → Nat → Option Replacement)) :
    Told p ((Edit.copyFor owner child index choose).apply s).2 := by
  refine Edit.final_node h fun n hn => ?_
  have hcopy : ∀ {u}, Told p u → u.find? child = some n →
      Told p (u.insert { n with owner := some owner, sharedCount := 0 }).2 := fun ⟨_, hu⟩ hn =>
    ⟨_, hu.copy hn rfl rfl⟩
  cases choose with
  | none => exact (hcopy h hn).share _
  | some f =>
    have htold := h.tell (.copied owner index)
    refine Edit.final_bind rfl (Edit.final_bind rfl ?_)
    cases f owner index with
    | none => exact (hcopy htold hn).share _
    | some replacement =>
      cases replacement with
      | copy => exact (hcopy htold hn).share _
      | fresh =>
        obtain ⟨ds, htold⟩ := htold
        exact Told.share ⟨ds, htold.fresh rfl rfl⟩ _

theorem told_copyAll (owner : NodeId) (choose : Option (NodeId → Nat → Option Replacement))
    (index : Nat) (xs : List NodeId) : Told p ((Edit.copyAll owner choose index xs).apply s).2 := by
  induction xs generalizing s index with
  | nil => exact h
  | cons x xs ih =>
    refine Edit.final_seq (told_copyFor h owner x index choose) fun copy s hs => ?_
    exact Edit.final_bind rfl (Edit.final_seq (ih (hs.unlist owner x) _) fun _ _ hs => hs)

theorem told_ownChildren (owner : NodeId) : Told p ((Edit.ownChildren owner).apply s).2 := by
  refine Edit.final_node h fun n _ => ?_
  split
  · exact h
  · refine Edit.final_node h fun first _ => ?_
    split
    · exact h
    · refine Edit.final_seq (told_copyAll h owner _ 0 _) fun _ s hs => ?_
      exact Edit.final_change hs fun _ _ => hs.write owner fun _ => Or.inl ⟨rfl, rfl, rfl, rfl⟩

end

theorem chronicled_course : Course (Chronicled (α := α)) where
  refl p := fun _ => ⟨[], .start p⟩
  trans h h' hl := by
    obtain ⟨ds, hds⟩ := h hl
    obtain ⟨es, hes⟩ := h' (hds.constants.2.trans hl)
    exact ⟨es ++ ds, hds.trans hes⟩
  update p id _ hf := fun _ => ⟨[], (Chronicle.start p).write id hf⟩
  own p id := fun _ => told_ownChildren ⟨[], .start p⟩ id
  tell p e _ := fun _ => ⟨[], (Chronicle.start p).tell e⟩
  count p f := fun _ => ⟨[], (Chronicle.start p).count f⟩

section

variable (hid : ¬ p.tree.Live id)

include hid

omit [Scalar α] in
theorem update_missing (f : Node α → Node α) : p.update id f = p :=
  congrArg (fun s => { p with tree := s }) (Tree.update_same fun n hn => absurd ⟨n, hn⟩ hid)

theorem node_missing (hl : p.limits = .initial) : p.node id = .new .initial := by
  rw [node, Tree.not_live.mp hid, hl]
  rfl

theorem layNode_missing (hl : p.limits = .initial) (visit : Visitor α) (r : Request α) :
    ∃ f, p.layNode visit id r = p.count f := by
  unfold layNode
  dsimp only
  generalize hq : p.count _ = q
  refine ⟨_, Eq.trans ?_ hq.symm⟩
  have hid' : ¬ q.tree.Live id := by
    rw [← hq]
    exact hid
  have hl' : q.limits = .initial := by
    rw [← hq]
    exact hl
  rw [redraw, update_missing hid', node_missing hid' hl']
  exact update_missing hid' _

theorem store_missing (r : Request α) : ∃ f, p.store id r = p.count f := by
  refine ⟨fun s => { s with
    maxMeasureCache := max s.maxMeasureCache ((p.node id).geometry.roomForOne.length + 1) }, ?_⟩
  unfold store updateGeometry
  dsimp only
  rw [update_missing hid, update_missing hid]

theorem visit_missing (hl : p.limits = .initial) (fuel : Nat) (r : Request α) :
    ∃ f, (visit (fuel + 1) id r p).2 = (p.record ⟨id, r, .computed⟩).count f := by
  have hnone : (Node.new .initial : Node α).remembered? r = none := by
    simp [Node.remembered?, Node.new, Geometry.initial, Measurement.matchesRequest,
      Measurement.blank]
  have hforget : p.refresh id r.ownerDirection = p := by
    rw [refresh, updateGeometry, update_missing hid, ite_self]
  obtain ⟨f, hf⟩ := layNode_missing (p := p.record ⟨id, r, .computed⟩) hid hl
    (fun id r p => (visit fuel id r p).2) r
  rw [visit_succ, hforget]
  simp only [node_missing hid hl, hnone]
  obtain ⟨f', hf'⟩ := store_missing (p := (p.record ⟨id, r, .computed⟩).count f) hid r
  rw [compute_eq, hf, hf', finish_eq]
  exact ⟨fun s => f' (f s), update_missing (p := ((p.record _).count f).count f') hid _⟩

end

theorem visit_chronicled (fuel : Nat) (id : NodeId) (r : Request α) (p : Pass α) :
    Chronicled p (visit fuel id r p).2 := by
  induction fuel generalizing id r p with
  | zero => exact chronicled_course.refl p
  | succ fuel ih =>
    intro hl
    by_cases hid : p.tree.Live id
    · obtain ⟨n, hn⟩ := hid
      cases hs : (n.refreshed p.generation r.ownerDirection).remembered? r with
      | some source =>
        rw [visit_of_remembered hn hs]
        obtain ⟨entry, he⟩ := Node.entry?_of_remembered? hs
        exact ⟨_, (Chronicle.start p).answer hn hs he⟩
      | none =>
        rw [visit_of_forgotten hn hs, compute_eq]
        have hlay : Chronicled ((p.refresh id r.ownerDirection).record ⟨id, r, .computed⟩)
            (((p.refresh id r.ownerDirection).record ⟨id, r, .computed⟩).layNode
              (fun id r p => (visit fuel id r p).2) id r) :=
          chronicled_course.layNode (fun id r p => ih id r p) r
        have hlimits : ((p.refresh id r.ownerDirection).record ⟨id, r, .computed⟩).limits =
            .initial := by
          rw [← hl, refresh_eq ⟨n, hn⟩]
          rfl
        obtain ⟨es, hes⟩ := hlay hlimits
        exact ⟨_, (Chronicle.start p).compute hn hs hes⟩
    · obtain ⟨f, hf⟩ := visit_missing hid hl fuel r
      rw [hf]
      exact ⟨_, ((Chronicle.start p).miss r hid).count f⟩

theorem Chronicle.trail (h : Chronicle p ds q) :
    q.trail.filter (·.source != .computed) =
      Deed.answers ds ++ p.trail.filter (·.source != .computed) := by
  have hrefresh : ∀ (id d) (p : Pass α), (p.refresh id d).trail = p.trail := by
    intro id d p
    unfold Pass.refresh
    split <;> rfl
  induction h with
  | start => rfl
  | write | tell | count | fresh => assumption
  | copy _ _ _ _ ih => exact ih
  | miss _ _ _ ih => simpa [Pass.record] using ih
  | @answer p ds q _ id r n source entry _ _ he ih =>
    have hsource : (source != .computed) = true := by
      cases source with
      | computed => cases he
      | lastLayout | measurement => rfl
    rw [finish_eq]
    change ((⟨id, r, source⟩ : Visit α) :: (q.refresh id r.ownerDirection).trail).filter _ = _
    rw [List.filter_cons_of_pos (p := fun v : Visit α => v.source != .computed) hsource,
      hrefresh, ih]
    rfl
  | @compute p ds q es u _ id r n _ _ _ ih ih' =>
    rw [finish_eq]
    change u.trail.filter _ = Deed.answers (es ++ ds) ++ _
    rw [ih']
    change Deed.answers es ++ ((⟨id, r, .computed⟩ : Visit α) ::
      (q.refresh id r.ownerDirection).trail).filter _ = _
    rw [List.filter_cons_of_neg (by simp), hrefresh, ih, Deed.answers, List.filterMap_append,
      List.append_assoc]

end Pass

end Flexbox
