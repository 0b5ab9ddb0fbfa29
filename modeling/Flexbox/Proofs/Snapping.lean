import Flexbox.Proofs.Rounding
import Flexbox.Proofs.Denotation

namespace Flexbox

namespace Tree

variable {α γ : Type} {t s : Tree α} {change : γ → Node α → Node α} {down : γ → Node α → γ}
  {root id : NodeId} {x₀ x : γ} {n : Node α} {D : NodeId → Prop}

/-- What a sweep from the root hands down to a node, on one of the ways to it. -/
inductive HandsDown (t : Tree α) (down : γ → Node α → γ) (root : NodeId) (x₀ : γ) :
    NodeId → γ → Prop
  | root : HandsDown t down root x₀ root x₀
  | child {p c : NodeId} {x : γ} {n : Node α} (hp : HandsDown t down root x₀ p x)
      (hn : t.find? p = some n) (hc : c ∈ n.children) : HandsDown t down root x₀ c (down x n)

/-- A sweep through `t` has come as far as `s`, with the nodes of `D` changed. -/
structure Partly (change : γ → Node α → Node α) (down : γ → Node α → γ) (root : NodeId) (x₀ : γ)
    (t : Tree α) (D : NodeId → Prop) (s : Tree α) : Prop where
  done : ∀ y n, D y → t.find? y = some n →
    ∃ x, t.HandsDown down root x₀ y x ∧ s.find? y = some (change x n)
  rest : ∀ y, ¬ D y → s.find? y = t.find? y

section

variable (hc : ∀ x n, (change x n).children = n.children)
  (hagain : ∀ x y n, change y (change x n) = change x n) {fuel : Nat}

include hagain in
theorem Partly.visit (hp : Partly change down root x₀ t D s)
    (hx : ¬ D id → t.HandsDown down root x₀ id x) :
    Partly change down root x₀ t (fun y => y = id ∨ D y) (s.update id (change x)) := by
  refine ⟨fun y m hy hm => ?_, fun y hy => ?_⟩
  · by_cases hyid : y = id
    · subst hyid
      rw [find?_update_self]
      by_cases hD : D y
      · obtain ⟨z, hz, hs⟩ := hp.done y m hD hm
        exact ⟨z, hz, by rw [hs, Option.map_some, hagain]⟩
      · exact ⟨x, hx hD, by rw [hp.rest y hD, hm, Option.map_some]⟩
    · rw [find?_update_other _ _ hyid]
      exact hp.done y m (hy.resolve_left hyid) hm
  · rw [find?_update_other _ _ fun he => hy (Or.inl he)]
    exact hp.rest y fun hD => hy (Or.inr hD)

include hc hagain

/-- Below a node that was changed all is changed. With that, a sweep from `id` changes what is
reached from there and was not changed before. -/
theorem sweep_partly (h : Nat) (hp : Partly change down root x₀ t D s)
    (hD : ∀ y z, t.Reaches id y → D y → t.Reaches y z → D z)
    (hx : ¬ D id → t.HandsDown down root x₀ id x) (hu : (t.unfold h id).isSome) (hf : h ≤ fuel) :
    Partly change down root x₀ t (fun y => D y ∨ t.Reaches id y)
      (s.sweep change down fuel x id) := by
  induction h generalizing s D id x fuel with
  | zero => cases hu
  | succ h ih =>
    obtain ⟨fuel, rfl⟩ := exists_pred hf
    have hg : t.Grounded id := ⟨h + 1, hu⟩
    obtain ⟨⟨n, hn⟩, hall⟩ := unfold_isSome.mp hu
    have hlist := childrenOf_eq hn
    obtain ⟨m, hm, hmc, hfresh⟩ : ∃ m, s.find? id = some m ∧ m.children = n.children ∧
        (¬ D id → m = n) := by
      by_cases hid : D id
      · obtain ⟨z, -, hs⟩ := hp.done id n hid hn
        exact ⟨_, hs, hc z n, fun hno => absurd hid hno⟩
      · exact ⟨n, (hp.rest id hid).trans hn, rfl, fun _ => rfl⟩
    obtain ⟨E, hE⟩ : ∃ E : NodeId → Prop, ∀ y, E y = (y = id ∨ D y) := ⟨_, fun _ => rfl⟩
    have hbelow : (fun y => D y ∨ t.Reaches id y) =
        fun y => E y ∨ ∃ c ∈ n.children, t.Reaches c y := by
      funext y
      rw [← hlist, show t.Reaches id y ↔ _ from Relation.ReflTransGen.cases_head_iff,
        eq_comm (a := id), or_left_comm, hE, or_assoc]
      rfl
    have hclosed : ∀ c ∈ n.children, ∀ y z, t.Reaches c y → E y → t.Reaches y z → E z := by
      intro c hcm y z hcy hy hyz
      rw [← hlist] at hcm
      rw [hE] at hy ⊢
      rcases hy with rfl | hy
      · exact absurd hcy (hg.not_reached hcm)
      · exact Or.inr (hD y z (.of_child hcm hcy) hy hyz)
    have hpassed : ∀ c ∈ n.children, ¬ E c → t.HandsDown down root x₀ c (down x m) := by
      intro c hcm hno
      rw [hE] at hno
      have hid : ¬ D id := fun hid => hno (Or.inr (hD id c .refl hid
        (.of_child (by rwa [hlist]) .refl)))
      rw [hfresh hid]
      exact (hx hid).child hn hcm
    have hfirst : Partly change down root x₀ t E (s.update id (change x)) :=
      (funext hE : E = _) ▸ hp.visit hagain hx
    rw [hlist] at hall
    simp only [sweep, hm, hmc, hbelow]
    -- From here on the children are swept one after the other.
    generalize s.update id (change x) = u at hfirst ⊢
    generalize n.children = cs at hall hclosed hpassed ⊢
    clear hbelow hmc hlist hE
    induction cs generalizing u E with
    | nil => simpa using hfirst
    | cons c cs ihc =>
      have hstep := ih hfirst (hclosed c (by simp)) (hpassed c (by simp)) (hall c (by simp))
        (show h ≤ fuel by omega)
      have hrest := ihc (fun y => E y ∨ t.Reaches c y) _ hstep (fun d hd => hall d (by simp [hd]))
        (fun d hd y z hdy hy hyz => hy.imp (fun hy => hclosed d (by simp [hd]) y z hdy hy hyz)
          fun hy => Relation.ReflTransGen.trans hy hyz)
        fun d hd hno => hpassed d (by simp [hd]) fun hE => hno (Or.inl hE)
      simpa [or_assoc] using hrest

theorem sweep_once (hg : t.Grounded root) {y : NodeId} (hy : t.Reaches root y)
    (hn : t.find? y = some n) (hf : t.slots.size ≤ fuel) :
    ∃ x, t.HandsDown down root x₀ y x ∧
      (t.sweep change down fuel x₀ root).find? y = some (change x n) := by
  have hstart : Partly change down root x₀ t (fun _ => False) t :=
    ⟨fun _ _ hy => hy.elim, fun _ _ => rfl⟩
  have hend := sweep_partly hc hagain t.slots.size hstart (fun _ _ _ hy => hy.elim)
    (fun _ => .root) hg.unfold_slots hf
  exact hend.done y n (Or.inr hy) hn

end

end Tree

namespace PixelGrid

variable {s : ℚ}

theorem extent_extent (hs : s ≠ 0) (start start' size : ℚ) (isText : Bool) :
    extent s isText start' (extent s isText start size) = extent s isText start size := by
  obtain ⟨k, hk⟩ : ∃ k : ℤ, extent s isText start size = k / s := by
    simp only [extent]
    obtain ⟨k, hk⟩ := round_whole (start + size) s
      (if isText then (if isOff size s then .up else .down) else .nearest)
    obtain ⟨j, hj⟩ := round_whole start s (if isText then .down else .nearest)
    exact ⟨k - j, by rw [hk, hj]; push_cast; ring⟩
  have hoff : isOff (k / s) s = false := by
    have hfract : Scalar.fract (k : ℚ) = 0 := by simp [Scalar.fract]
    simp [isOff, div_mul_cancel₀ _ hs, hfract, Extent.near, near_iff]
  rw [hk, extent, hoff]
  simp only [round_add_steps hs]
  cases isText <;> simp

end PixelGrid

namespace Node

/-- How far from the near edge of its owner a node lies. -/
def start {α : Type} (n : Node α) (d : Dimension) : α :=
  Size.get ⟨n.geometry.position.left, n.geometry.position.top⟩ d

variable {s : ℚ} {n : Node ℚ}

theorem snapped_snapped (hs : s ≠ 0) (n : Node ℚ) (a b a' b' : ℚ) :
    (n.snapped s a b).snapped s a' b' = n.snapped s a b := by
  rcases hw : n.geometry.size.width with _ | w <;> rcases hh : n.geometry.size.height with _ | h <;>
    simp [snapped, hw, hh, PixelGrid.round_round hs, PixelGrid.extent_extent hs]

end Node

namespace Tree

variable {t : Tree ℚ} {root c a b : NodeId} {na nb : Node ℚ} {scale w : ℚ} {d : Dimension}

theorem snap_once (hs : 0 < scale) (hg : t.Grounded root) {y : NodeId} (hy : t.Reaches root y)
    {n : Node ℚ} (hn : t.find? y = some n) (spare : Nat) :
    ∃ o, t.HandsDown (fun o n => n.corner o) root (0, 0) y o ∧
      (t.snap scale root spare).find? y = some (n.snapped scale o.1 o.2) := by
  rw [snap, if_neg (by simpa using hs.ne')]
  have hagain (o o' : ℚ × ℚ) (m : Node ℚ) :
      (m.snapped scale o.1 o.2).snapped scale o'.1 o'.2 = m.snapped scale o.1 o.2 :=
    m.snapped_snapped hs.ne' _ _ _ _
  exact sweep_once (fun _ _ => by rfl) hagain hg hy hn (by omega)

/-- Where one node ends where its neighbour starts, snapping leaves them flush or one step of the
grid apart, and leaves them flush where their owner lies on the grid. -/
theorem snap_flush_or_step (hs : 0 < scale) (hg : t.Grounded root) (hc : t.Reaches root c)
    (ha : a ∈ t.childrenOf c) (hb : b ∈ t.childrenOf c) (hna : t.find? a = some na)
    (hnb : t.find? b = some nb) (hta : na.nodeType ≠ .text) (htb : nb.nodeType ≠ .text)
    (hw : na.geometry.size.get d = .known w) (hflush : nb.start d = na.start d + w) (spare : Nat) :
    ∃ o ma mb width, t.HandsDown (fun o n => n.corner o) root (0, 0) a o ∧
      (t.snap scale root spare).find? a = some ma ∧
      (t.snap scale root spare).find? b = some mb ∧
      ma.geometry.size.get d = .known width ∧
      ∃ k : ℤ, |k| ≤ 1 ∧ mb.start d = ma.start d + width + k / scale ∧
        ((∃ j : ℤ, Size.get ⟨o.1, o.2⟩ d = j / scale) → k = 0) := by
  obtain ⟨o, ho, hma⟩ := snap_once hs hg (hc.tail ha) hna spare
  obtain ⟨o', -, hmb⟩ := snap_once hs hg (hc.tail hb) hnb spare
  have hstart : ∀ {n : Node ℚ}, n.nodeType ≠ .text → ∀ o : ℚ × ℚ,
      (n.snapped scale o.1 o.2).start d = PixelGrid.round (n.start d) scale .nearest := by
    intro n ht o
    cases d <;> simp [Node.start, Node.snapped, Size.get, ht]
  refine ⟨o, _, _, PixelGrid.round (Size.get ⟨o.1, o.2⟩ d + na.start d + w) scale .nearest -
    PixelGrid.round (Size.get ⟨o.1, o.2⟩ d + na.start d) scale .nearest, ho, hma, hmb, ?_, ?_⟩
  · cases d <;> simp_all [Node.start, Node.snapped, Size.get, PixelGrid.extent]
  rw [hstart hta, hstart htb, hflush]
  have hs0 := hs.ne'
  generalize Size.get ⟨o.1, o.2⟩ d = at₀
  generalize na.start d = x
  -- The four edges as numbers of steps.
  obtain ⟨near, hnear, hnear₁, hnear₂⟩ := PixelGrid.round_nearest x scale
  obtain ⟨far, hfar, hfar₁, hfar₂⟩ := PixelGrid.round_nearest (x + w) scale
  obtain ⟨near', hnear', hnear₁', hnear₂'⟩ := PixelGrid.round_nearest (at₀ + x) scale
  obtain ⟨far', hfar', hfar₁', hfar₂'⟩ := PixelGrid.round_nearest (at₀ + x + w) scale
  refine ⟨far - near - (far' - near'), ?_, ?_, ?_⟩
  · have hlt : -2 < far - near - (far' - near') ∧ far - near - (far' - near') < 2 := by
      constructor
      · have : (-2 : ℚ) < far - near - (far' - near') := by linarith
        exact_mod_cast this
      · have : (far - near - (far' - near') : ℚ) < 2 := by linarith
        exact_mod_cast this
    rw [abs_le]
    omega
  · rw [hnear, hfar, hnear', hfar']
    push_cast
    ring
  · rintro ⟨j, rfl⟩
    rw [add_comm, PixelGrid.round_add_steps hs0, hnear] at hnear'
    rw [add_assoc, add_comm, PixelGrid.round_add_steps hs0, hfar] at hfar'
    field_simp at hnear' hfar'
    have h1 : near + j = near' := by exact_mod_cast hnear'
    have h2 : far + j = far' := by exact_mod_cast hfar'
    omega

/-- A row 0.3 off the grid, with a first child 0.3 into it and as wide. -/
def offGridSiblings : Tree ℚ :=
  (Tree.empty ({ (Config.initial : Config ℚ) with scale := 0 } : Config ℚ)).after [.newNode none,
    .newNode none, .newNode none, .newNode none,
    .addChild ⟨1, 1⟩ ⟨2, 1⟩, .addChild ⟨2, 1⟩ ⟨3, 1⟩, .addChild ⟨2, 1⟩ ⟨4, 1⟩,
    .updateStyle ⟨2, 1⟩ fun s => { s with
      flexDirection := .row, size := ⟨.points 100, .points 100⟩
      margin := { s.margin with left := .points (3 / 10) } },
    .updateStyle ⟨3, 1⟩ fun s => { s with
      size := ⟨.points (3 / 10), .auto⟩, margin := { s.margin with left := .points (3 / 10) } },
    .updateStyle ⟨4, 1⟩ fun s => { s with size := ⟨.points 10, .auto⟩ },
    .calculateLayout ⟨1, 1⟩ ⟨.known 200, .known 200, .ltr⟩]

/-- Its edges both lie beyond the half in the whole tree, so the child loses its width; it goes back
to the edge of the row, while its neighbour goes on. -/
theorem snap_parts_offGrid :
    (offGridSiblings.find? ⟨3, 1⟩).map (fun n => (n.start .width, n.geometry.size.width)) =
      some (3 / 10, .known (3 / 10)) ∧
    (offGridSiblings.find? ⟨4, 1⟩).map (·.start .width) = some (3 / 10 + 3 / 10) ∧
    ((offGridSiblings.snap 1 ⟨1, 1⟩ 0).find? ⟨3, 1⟩).map
      (fun n => (n.start .width, n.geometry.size.width)) = some (0, .known 0) ∧
    ((offGridSiblings.snap 1 ⟨1, 1⟩ 0).find? ⟨4, 1⟩).map (·.start .width) = some 1 := by
  decide +kernel

theorem snap_flush_or_step_offGrid :
    offGridSiblings.Grounded ⟨1, 1⟩ ∧
    ∃ o ma mb width, offGridSiblings.HandsDown (fun o n => n.corner o) ⟨1, 1⟩ (0, 0) ⟨3, 1⟩ o ∧
      (offGridSiblings.snap 1 ⟨1, 1⟩ 0).find? ⟨3, 1⟩ = some ma ∧
      (offGridSiblings.snap 1 ⟨1, 1⟩ 0).find? ⟨4, 1⟩ = some mb ∧
      ma.geometry.size.get .width = .known width ∧
      ∃ k : ℤ, |k| ≤ 1 ∧ mb.start .width = ma.start .width + width + k / 1 ∧
        ((∃ j : ℤ, Size.get ⟨o.1, o.2⟩ .width = j / 1) → k = 0) := by
  have hfacts : (offGridSiblings.unfold 3 ⟨1, 1⟩).isSome ∧
      ⟨2, 1⟩ ∈ offGridSiblings.childrenOf ⟨1, 1⟩ ∧ ⟨3, 1⟩ ∈ offGridSiblings.childrenOf ⟨2, 1⟩ ∧
      ⟨4, 1⟩ ∈ offGridSiblings.childrenOf ⟨2, 1⟩ ∧
      (offGridSiblings.find? ⟨3, 1⟩).map (fun n => (n.nodeType, n.start .width,
        n.geometry.size.get .width)) = some (.default, 3 / 10, .known (3 / 10)) ∧
      (offGridSiblings.find? ⟨4, 1⟩).map (fun n => (n.nodeType, n.start .width)) =
        some (.default, 3 / 10 + 3 / 10) := by
    decide +kernel
  obtain ⟨hdeep, hlisted, ha, hb, hfirst, hsecond⟩ := hfacts
  have hg : offGridSiblings.Grounded ⟨1, 1⟩ := ⟨3, hdeep⟩
  have hr : offGridSiblings.Reaches ⟨1, 1⟩ ⟨2, 1⟩ := .single hlisted
  obtain ⟨na, hna, hea⟩ := Option.map_eq_some_iff.mp hfirst
  obtain ⟨nb, hnb, heb⟩ := Option.map_eq_some_iff.mp hsecond
  simp only [Prod.mk.injEq] at hea heb
  exact ⟨hg, snap_flush_or_step one_pos hg hr ha hb hna hnb (by simp [hea.1]) (by simp [heb.1])
    hea.2.2 (by rw [heb.2, hea.2.1]) 0⟩

end Tree

end Flexbox
