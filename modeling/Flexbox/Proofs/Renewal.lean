import Flexbox.Proofs.Chronicles

namespace Flexbox

variable {α : Type}

namespace Deed

def Spares (x : NodeId) : Deed α → Prop
  | copied _ copy => x ≠ copy
  | _ => True

variable {ds : List (Deed α)} {d : Deed α} {x : NodeId} {m : Measurement α}

theorem origin_cons (h : d.Spares x) : origin (d :: ds) x = origin ds x := by
  cases d with
  | copied original copy => exact if_neg h
  | answered | stored => rfl

theorem Stored.cons (hs : Stored ds x m) (h : d.Spares x) : Stored (d :: ds) x m := by
  cases d with
  | copied original copy =>
    rw [Stored, if_neg h]
    exact hs
  | answered => exact hs
  | stored => exact Or.inr hs

end Deed

namespace Node

variable [Scalar α] {n m : Node α} {ds : List (Deed α)} {x : NodeId} {t : Tree α}
  {d : Deed α} {g : UInt32}

open Deed

def Renewed (ds : List (Deed α)) (x : NodeId) (n : Node α) : Prop :=
  (∀ m ∈ n.geometry.measurements, Stored ds x m) ∧
    (n.geometry.lastLayout = .blank ∨ Stored ds x n.geometry.lastLayout)

/-- A node that was dirty will forget what it remembers, or has nothing to forget any more. -/
def Current (t : Tree α) (ds : List (Deed α)) (generation : UInt32) (x : NodeId) (n : Node α) :
    Prop :=
  t.Dirty (origin ds x) →
    (n.isDirty = true ∧ n.geometry.generation ≠ generation) ∨ n.Renewed ds x

theorem Renewed.of_empty (hm : n.geometry.measurements = []) (hl : n.geometry.lastLayout = .blank) :
    n.Renewed ds x :=
  ⟨by simp [hm], Or.inl hl⟩

theorem Renewed.cons (h : n.Renewed ds x) (hd : d.Spares x) : n.Renewed (d :: ds) x :=
  ⟨fun m hm => (h.1 m hm).cons hd, h.2.imp_right fun hl => hl.cons hd⟩

theorem Retains.renewed (h : n.Retains m) (hn : n.Renewed ds x) : m.Renewed ds x := by
  rcases h with ⟨-, -, hm, hl⟩ | ⟨hm, hl⟩
  · unfold Renewed
    rw [hm, hl]
    exact hn
  · exact .of_empty hm hl

theorem Retains.current (h : n.Retains m) (hn : n.Current t ds g x) : m.Current t ds g x := by
  intro hd
  rcases hn hd with ⟨hdirty, hgen⟩ | hnew
  · rcases h with ⟨hd', hg', -, -⟩ | ⟨hm, hl⟩
    · exact Or.inl ⟨by rw [hd', hdirty], by rwa [hg']⟩
    · exact Or.inr (.of_empty hm hl)
  · exact Or.inr (h.renewed hnew)

theorem Current.cons (h : n.Current t ds g x) (hd : d.Spares x) : n.Current t (d :: ds) g x := by
  intro hdirty
  rw [origin_cons hd] at hdirty
  exact (h hdirty).imp_right fun hr => hr.cons hd

end Node

namespace Geometry

variable [Scalar α]

theorem remember_entries (g : Geometry α) (r : Request α) :
    (∀ m ∈ (g.remember r).measurements, m ∈ g.measurements ∨ m = g.answer r) ∧
      ((g.remember r).lastLayout = g.lastLayout ∨ (g.remember r).lastLayout = g.answer r) := by
  have hroom : ∀ m ∈ g.roomForOne, m ∈ g.measurements := by
    intro m hm
    unfold roomForOne at hm
    split at hm
    · cases hm
    · exact hm
  unfold remember
  dsimp only
  split
  · exact ⟨fun m hm => Or.inl (hroom m hm), Or.inr rfl⟩
  · refine ⟨fun m hm => ?_, Or.inl rfl⟩
    rcases List.mem_append.mp hm with hm | hm
    · exact Or.inl (hroom m hm)
    · exact Or.inr (List.mem_singleton.mp hm)

end Geometry

namespace Node

variable [Scalar α] {n m : Node α} {ds : List (Deed α)} {x : NodeId} {t : Tree α}
  {g : UInt32} {r : Request α}

open Deed

theorem Current.refreshed (h : n.Current t ds g x) (hd : t.Dirty (origin ds x))
    (direction : Direction) : (n.refreshed g direction).Renewed ds x := by
  unfold Node.refreshed
  split
  · exact .of_empty rfl rfl
  · rename_i hout
    refine (h hd).resolve_left fun ⟨hdirty, hgen⟩ => hout ?_
    simp [isOutdated, hdirty, hgen]

theorem Renewed.entry (hneg : (-1 : α) < 0) (h : n.Renewed ds x) {source : Source}
    {entry : Measurement α} (hs : n.remembered? r = some source)
    (he : n.geometry.entry? source = some entry) : Stored ds x entry := by
  cases source with
  | computed => cases he
  | measurement i => exact h.1 entry (List.mem_of_getElem? he)
  | lastLayout =>
    obtain rfl : n.geometry.lastLayout = entry := Option.some.inj he
    refine h.2.resolve_left fun hblank => ?_
    have among : ∀ accepts, (n.geometry.measurements.findIdx? accepts).map Source.measurement ≠
        some .lastLayout := by
      intro accepts hi
      obtain ⟨i, -, hi⟩ := Option.map_eq_some_iff.mp hi
      cases hi
    have hfits : ∀ row column scale,
        (Measurement.blank : Measurement α).answers r.width r.height row column scale = false := by
      simp [Measurement.answers, Measurement.blank, hneg]
    have hsame : (Measurement.blank : Measurement α).matchesRequest r.width r.height = false := by
      simp [Measurement.matchesRequest, Measurement.blank]
    simp only [remembered?, hblank, hfits, hsame, Bool.false_eq_true, if_false] at hs
    split at hs
    · exact among _ hs
    · split at hs
      · cases hs
      · exact among _ hs

theorem Renewed.computed (h : n.Renewed ds x) :
    (n.computed r g).Renewed (.stored x (n.geometry.answer r) :: ds) x := by
  obtain ⟨hm, hl⟩ := Geometry.remember_entries { n.geometry with
    lastOwnerDirection := some r.ownerDirection } r
  refine ⟨fun m hmem => ?_, ?_⟩
  · exact (hm m hmem).elim (fun hold => Or.inr (h.1 m hold)) fun hnew => Or.inl ⟨rfl, hnew⟩
  · rcases hl with hl | hl
    · refine h.2.imp (fun hb => hl.trans hb) fun hs => Or.inr ?_
      exact hl ▸ hs
    · exact Or.inr (Or.inl ⟨rfl, hl⟩)

end Node

namespace Pass

variable [Scalar α] {t : Tree α} {p q u : Pass α} {ds es : List (Deed α)} {x id : NodeId}
  {q' : Pass α} {entry : Measurement α} {r : Request α} {n : Node α}

open Deed

theorem store_finish_tree (p : Pass α) (id : NodeId) (r : Request α) :
    ((p.store id r).finish id r).tree = p.tree.update id fun n => n.computed r p.generation := by
  rw [finish_eq]
  unfold store updateGeometry
  dsimp only [Pass.count, Pass.update]
  rw [Tree.update_update, Tree.update_update]
  rfl

def Keeping (t : Tree α) (ds : List (Deed α)) (p : Pass α) : Prop :=
  ∀ x n, p.tree.find? x = some n → n.Current t ds p.generation x

def RenewedAt (ds : List (Deed α)) (p : Pass α) (x : NodeId) : Prop :=
  ∀ n, p.tree.find? x = some n → n.Renewed ds x

/-- Every answer came from a node that was not dirty or from an entry of the pass. -/
def Anew (t : Tree α) : List (Deed α) → Prop
  | [] => True
  | answered visit entry :: ds =>
    (¬ t.Dirty (origin ds visit.node) ∨ Stored ds visit.node entry) ∧ Anew t ds
  | _ :: ds => Anew t ds

/-- What a chronicle keeps that goes on from the deeds `ds`. -/
structure Follows (t : Tree α) (ds : List (Deed α)) (p : Pass α) (es : List (Deed α))
    (q : Pass α) : Prop where
  keeping : Keeping t (es ++ ds) q
  renewed : ∀ x, p.tree.Live x → RenewedAt ds p x → RenewedAt (es ++ ds) q x
  anew : Anew t (es ++ ds)
  tidy : q.tree.Tidy
  live : ∀ x, p.tree.Live x → q.tree.Live x
  origin : ∀ x, p.tree.Live x → origin (es ++ ds) x = origin ds x
  generation : q.generation = p.generation

section

variable (h : Follows t ds p es q) {f : Node α → Node α} {n : Node α}

include h

theorem Follows.quiet (ht : q'.tree.Tidy) (hl : ∀ x, q.tree.Live x → q'.tree.Live x)
    (hg : q'.generation = q.generation)
    (hback : ∀ x m, q'.tree.find? x = some m → (¬ q.tree.Live x ∧ m.Renewed (es ++ ds) x) ∨ ∃ n,
      q.tree.find? x = some n ∧ n.Retains m) : Follows t ds p es q' := by
  refine ⟨fun x m hm => ?_, fun x hx hr m hm => ?_, h.anew, ht, fun x hx => hl x (h.live x hx),
    h.origin, hg.trans h.generation⟩
  · rw [hg]
    rcases hback x m hm with ⟨-, hnew⟩ | ⟨n, hn, hret⟩
    · exact fun _ => Or.inr hnew
    · exact hret.current (h.keeping x n hn)
  · rcases hback x m hm with ⟨-, hnew⟩ | ⟨n, hn, hret⟩
    · exact hnew
    · exact hret.renewed (h.renewed x hx hr n hn)

theorem Follows.still (ht : q'.tree.Tidy) (hfind : q'.tree.find? = q.tree.find?)
    (hg : q'.generation = q.generation) : Follows t ds p es q' := by
  refine h.quiet ht (fun x hx => hx.congr (by rw [hfind])) hg fun x m hm => ?_
  rw [hfind] at hm
  exact Or.inr ⟨m, hm, Or.inl ⟨rfl, rfl, rfl, rfl⟩⟩

theorem Follows.update (id : NodeId) (hf : ∀ n : Node α, n.Retains (f n)) :
    Follows t ds p es (q.update id f) := by
  refine h.quiet (h.tidy.update id f) (fun x hx => Tree.live_update.mpr hx) rfl fun x m hm => ?_
  obtain ⟨n, hn, rfl⟩ := Tree.find?_update_eq_some hm
  refine Or.inr ⟨n, hn, ?_⟩
  split
  · exact hf n
  · exact Or.inl ⟨rfl, rfl, rfl, rfl⟩

theorem Follows.fresh (hm : n.geometry.measurements = []) (hl : n.geometry.lastLayout = .blank) :
    Follows t ds p es { q with tree := (q.tree.insert n).2 } := by
  have hfind := h.tidy.find?_insert n
  refine h.quiet (h.tidy.insert n) (fun x hx => ?_) rfl fun x m hxm => ?_
  · refine hx.congr ?_
    rw [hfind, if_neg]
    rintro rfl
    exact Tree.not_live.mpr (h.tidy.insert_fresh n) hx
  · rw [hfind] at hxm
    split at hxm
    · rename_i hx
      cases hxm
      refine Or.inl ⟨?_, .of_empty hm hl⟩
      rw [hx]
      exact Tree.not_live.mpr (h.tidy.insert_fresh n)
    · exact Or.inr ⟨m, hxm, Or.inl ⟨rfl, rfl, rfl, rfl⟩⟩

theorem Follows.copy {m : Node α} (hn : q.tree.find? x = some n) (hd : m.isDirty = n.isDirty)
    (hg : m.geometry = n.geometry) :
    Follows t ds p (.copied x (q.tree.insert m).1 :: es)
      { q with tree := (q.tree.insert m).2 } := by
  have hfind := h.tidy.find?_insert m
  have hfresh : ∀ y, q.tree.Live y → y ≠ (q.tree.insert m).1 := by
    rintro y hy rfl
    exact Tree.not_live.mpr (h.tidy.insert_fresh m) hy
  refine ⟨fun y k hk => ?_, fun y hy hr k hk => ?_, h.anew, h.tidy.insert m, fun y hy => ?_,
    fun y hy => ?_, h.generation⟩
  · rw [hfind] at hk
    split at hk
    · -- The copy: it is as current as the original.
      rename_i hy
      cases hk
      subst hy
      intro hdirty
      rw [List.cons_append, Deed.origin, if_pos rfl] at hdirty
      refine (h.keeping x n hn hdirty).imp (fun hold => by rwa [hd, hg]) fun hnew => ?_
      unfold Node.Renewed
      rw [hg]
      exact ⟨fun e he => (if_pos rfl).mpr (hnew.1 e he), hnew.2.imp_right (if_pos rfl).mpr⟩
    · rename_i hy
      exact (h.keeping y k hk).cons hy
  · have hne := hfresh y (h.live y hy)
    rw [hfind, if_neg hne] at hk
    exact (h.renewed y hy hr k hk).cons hne
  · refine (h.live y hy).congr ?_
    rw [hfind, if_neg (hfresh y (h.live y hy))]
  · exact (origin_cons (d := .copied x _) (hfresh y (h.live y hy))).trans (h.origin y hy)

theorem Follows.deed {d : Deed α} (hspares : ∀ x, d.Spares x) (htree : q'.tree = q.tree.update id f)
    (hg : q'.generation = q.generation) (ha : Anew t (d :: (es ++ ds)))
    (hnew : t.Dirty (Deed.origin (es ++ ds) id) → RenewedAt (es ++ ds) q id)
    (hf : ∀ n : Node α, q.tree.find? id = some n → n.Renewed (es ++ ds) id →
      (f n).Renewed (d :: (es ++ ds)) id) :
    Follows t ds p (d :: es) q' := by
  refine ⟨fun x m hm => ?_, fun x hx hr m hm => ?_, ha, ?_, fun x hx => ?_, fun x hx => ?_,
    hg.trans h.generation⟩
  · rw [htree] at hm
    obtain ⟨n, hn, rfl⟩ := Tree.find?_update_eq_some hm
    rw [hg]
    split
    · rename_i hx
      subst hx
      intro hd
      rw [List.cons_append, origin_cons (hspares x)] at hd
      exact Or.inr (hf n hn (hnew hd n hn))
    · exact (h.keeping x n hn).cons (hspares x)
  · rw [htree] at hm
    obtain ⟨n, hn, rfl⟩ := Tree.find?_update_eq_some hm
    have hold := h.renewed x hx hr n hn
    split
    · rename_i hx
      subst hx
      exact hf n hn hold
    · exact hold.cons (hspares x)
  · rw [htree]
    exact h.tidy.update id f
  · rw [htree]
    exact Tree.live_update.mpr (h.live x hx)
  · exact (origin_cons (hspares x)).trans (h.origin x hx)

theorem Follows.refresh (hn : q.tree.find? id = some n) (direction : Direction) :
    Follows t ds p es (q.refresh id direction) ∧
      (t.Dirty (Deed.origin (es ++ ds) id) →
        RenewedAt (es ++ ds) (q.refresh id direction) id) := by
  refine ⟨?_, fun hd m hm => ?_⟩
  · rw [refresh_eq ⟨n, hn⟩]
    refine h.update id fun n => ?_
    unfold Node.refreshed
    split
    · exact Or.inr ⟨rfl, rfl⟩
    · exact Or.inl ⟨rfl, rfl, rfl, rfl⟩
  · rw [find?_refresh hn, if_pos rfl] at hm
    cases hm
    exact (h.keeping id n hn).refreshed hd direction

end

theorem Follows.answer (hneg : (-1 : α) < 0) (h : Follows t ds p es q) {source : Source}
    (hn : q.tree.find? id = some n)
    (hs : (n.refreshed q.generation r.ownerDirection).remembered? r = some source)
    (he : (n.refreshed q.generation r.ownerDirection).geometry.entry? source = some entry) :
    Follows t ds p (.answered ⟨id, r, source⟩ entry :: es)
      (((q.refresh id r.ownerDirection).restore id r source).finish id r) := by
  obtain ⟨hw, hnew⟩ := h.refresh hn r.ownerDirection
  have hfound := find?_refresh hn r.ownerDirection id
  rw [if_pos rfl] at hfound
  have hnode := node_refresh hn r.ownerDirection
  rw [restore_finish_eq ⟨_, hfound⟩ (by rw [hnode]; exact he)]
  refine hw.deed (fun _ => trivial) rfl rfl ⟨?_, hw.anew⟩ hnew fun k _ hk => hk
  by_cases hd : t.Dirty (Deed.origin (es ++ ds) id)
  · exact Or.inr ((hnew hd _ hfound).entry hneg hs he)
  · exact Or.inl hd

theorem Follows.compute (h : Follows t ds p es q) (hn : q.tree.find? id = some n)
    {fs : List (Deed α)}
    (inner : ∀ {w : Pass α}, w = (q.refresh id r.ownerDirection).record ⟨id, r, .computed⟩ →
      w.tree.Tidy → Keeping t (es ++ ds) w → Anew t (es ++ ds) → Follows t (es ++ ds) w fs u) :
    Follows t ds p (.stored id ((u.node id).geometry.answer r) :: (fs ++ es))
      ((u.store id r).finish id r) := by
  obtain ⟨hw, hnew⟩ := h.refresh hn r.ownerDirection
  have hlive : (q.refresh id r.ownerDirection).tree.Live id := by
    rw [refresh_eq ⟨n, hn⟩]
    exact Tree.live_update.mpr ⟨n, hn⟩
  have hin := inner rfl hw.tidy hw.keeping hw.anew
  -- What holds from the start of the pass to the end of the layout of the node.
  have hall : Follows t ds p (fs ++ es) u := by
    refine ⟨?_, fun x hx hr => ?_, ?_, hin.tidy, fun x hx => hin.live x (hw.live x hx),
      fun x hx => ?_, hin.generation.trans hw.generation⟩
    · rw [List.append_assoc]
      exact hin.keeping
    · rw [List.append_assoc]
      exact hin.renewed x (hw.live x hx) (hw.renewed x hx hr)
    · rw [List.append_assoc]
      exact hin.anew
    · rw [List.append_assoc]
      exact (hin.origin x (hw.live x hx)).trans (hw.origin x hx)
  refine hall.deed (fun _ => trivial) (store_finish_tree u id r) ?_ hall.anew (fun hd => ?_)
    fun k hk hold => ?_
  · rw [finish_eq]
    rfl
  · rw [List.append_assoc, hin.origin id hlive] at hd
    rw [List.append_assoc]
    exact hin.renewed id hlive (hnew hd)
  · rw [node_of_find? hk]
    exact hold.computed

theorem Chronicle.follows (hneg : (-1 : α) < 0) (h : Chronicle p es q) (ht : p.tree.Tidy)
    (hk : Keeping t ds p) (ha : Anew t ds) : Follows t ds p es q := by
  induction h generalizing ds with
  | start => exact ⟨hk, fun _ _ hr => hr, ha, ht, fun _ hx => hx, fun _ _ => rfl, rfl⟩
  | write _ id hf ih => exact (ih ht hk ha).update id hf
  | tell _ e ih =>
    have h := ih ht hk ha
    exact h.still ⟨h.tidy.empty, h.tidy.nodup⟩ rfl rfl
  | count _ f ih =>
    have h := ih ht hk ha
    exact h.still h.tidy rfl rfl
  | fresh _ hm hl ih => exact (ih ht hk ha).fresh hm hl
  | copy _ hn hd hg ih => exact (ih ht hk ha).copy hn hd hg
  | miss _ r hid ih =>
    have h := ih ht hk ha
    exact h.still h.tidy rfl rfl
  | answer _ hn hs he ih => exact (ih ht hk ha).answer hneg hn hs he
  | compute _ hn hs _ ih ih' =>
    exact (ih ht hk ha).compute hn fun hw htw hkw haw => by
      subst hw
      exact ih' htw hkw haw

omit [Scalar α] in
theorem Anew.of_append (h : Anew t ds) {after before : List (Deed α)} {v : Visit α}
    (hds : ds = after ++ .answered v entry :: before) :
    ¬ t.Dirty (Deed.origin before v.node) ∨ Stored before v.node entry := by
  subst hds
  induction after with
  | nil => exact h.1
  | cons d after ih =>
    cases d with
    | answered => exact ih h.2
    | stored | copied => exact ih h

end Pass

namespace Tree

open Deed

/-- A node that is dirty when a pass starts is never answered from what it remembered then. In a
pass whose number no node carries yet, every visit that is answered from memory is answered for a
node that was not dirty (a copy: made of a node that was not), or by an entry that was stored in the
same pass. That holds however the pass is told. -/
theorem dirty_nodes_answer_anew {t : Tree Float32} (ht : t.Tidy)
    (hg : ∀ x n, t.find? x = some n → n.geometry.generation ≠ t.generation) (root : NodeId)
    (v : Viewport Float32) (r : Request Float32) :
    (∃ ds, Pass.Chronicle (Pass.start t .initial) ds
      (Pass.visit (Pass.start t .initial).depth root r (Pass.start t .initial)).2) ∧
    ∀ ds, Pass.Chronicle (Pass.start t .initial) ds
        (Pass.visit (Pass.start t .initial).depth root r (Pass.start t .initial)).2 →
      answers ds = (t.runPass root v r .initial).trail.filter (·.source != .computed) ∧
      ∀ after visit entry before, ds = after ++ .answered visit entry :: before →
        ¬ t.Dirty (origin before visit.node) ∨ Stored before visit.node entry := by
  refine ⟨Pass.visit_chronicled (Pass.start t .initial).depth root r (Pass.start t .initial) rfl,
    fun ds hds => ⟨?_, fun after visit entry before hsplit => ?_⟩⟩
  · have htrail : (t.runPass root v r .initial).trail =
        (Pass.visit (Pass.start t .initial).depth root r (Pass.start t .initial)).2.trail := by
      unfold runPass
      dsimp only
      split <;> rfl
    rw [htrail, hds.trail]
    exact (List.append_nil _).symm
  · have hstart : Pass.Keeping t [] (Pass.start t .initial) := fun x n hn hd =>
      Or.inl ⟨(dirty_iff hn).mp hd, hg x n hn⟩
    have hfollows := hds.follows (by decide +kernel) ht hstart trivial
    have hanew := hfollows.anew
    rw [List.append_nil] at hanew
    exact hanew.of_append hsplit

/-- A laid-out root with a leaf that is to be measured again. -/
def leafToMeasure : Tree Float32 :=
  measuredPair.after [.calculateLayout ⟨1, 1⟩ ⟨.known 100, .known 100, .ltr⟩, .markDirty ⟨2, 1⟩]

/-- In the next layout the leaf is measured once, and then answers twice from memory. -/
theorem dirty_nodes_answer_anew_leaf :
    (leafToMeasure.primed ⟨1, 1⟩).Dirty ⟨2, 1⟩ ∧
    ((leafToMeasure.primed ⟨1, 1⟩).runPass ⟨1, 1⟩ ⟨.known 100, .known 100, .ltr⟩
      ⟨⟨.known 100, .exactly⟩, ⟨.known 100, .exactly⟩, .ltr, .known 100, .known 100, true⟩
      .initial).trail.map (fun v => (v.node, v.source)) =
        [(⟨2, 1⟩, .measurement 0), (⟨2, 1⟩, .measurement 0), (⟨2, 1⟩, .computed),
          (⟨1, 1⟩, .computed)] ∧
    ∃ ds, Pass.Chronicle (Pass.start (leafToMeasure.primed ⟨1, 1⟩) .initial) ds
        (Pass.visit (Pass.start (leafToMeasure.primed ⟨1, 1⟩) .initial).depth ⟨1, 1⟩
          ⟨⟨.known 100, .exactly⟩, ⟨.known 100, .exactly⟩, .ltr, .known 100, .known 100, true⟩
          (Pass.start (leafToMeasure.primed ⟨1, 1⟩) .initial)).2 ∧
      (answers ds).length = 2 ∧
      ∀ after visit entry before, ds = after ++ .answered visit entry :: before →
        ¬ (leafToMeasure.primed ⟨1, 1⟩).Dirty (origin before visit.node) ∨
          Stored before visit.node entry := by
  have hfree : (leafToMeasure.primed ⟨1, 1⟩).free = [] := by decide +kernel
  have hnew : ∀ x ∈ (leafToMeasure.primed ⟨1, 1⟩).ids,
      ((leafToMeasure.primed ⟨1, 1⟩).find? x).all (fun n =>
        n.geometry.generation != (leafToMeasure.primed ⟨1, 1⟩).generation) = true := by
    decide +kernel
  have hg : ∀ x n, (leafToMeasure.primed ⟨1, 1⟩).find? x = some n →
      n.geometry.generation ≠ (leafToMeasure.primed ⟨1, 1⟩).generation := by
    intro x n hn
    have hx := hnew x (mem_ids.mpr ⟨n, hn⟩)
    simpa [hn] using hx
  obtain ⟨⟨ds, hds⟩, hall⟩ := dirty_nodes_answer_anew
    ⟨by simp [hfree], by simp [hfree]⟩ hg ⟨1, 1⟩ ⟨.known 100, .known 100, .ltr⟩
    ⟨⟨.known 100, .exactly⟩, ⟨.known 100, .exactly⟩, .ltr, .known 100, .known 100, true⟩
  obtain ⟨htrail, hanew⟩ := hall ds hds
  exact ⟨by decide +kernel, by decide +kernel, ds, hds, by rw [htrail]; decide +kernel, hanew⟩

end Tree

end Flexbox
