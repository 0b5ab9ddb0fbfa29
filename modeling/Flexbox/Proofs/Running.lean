import Flexbox.Proofs.Store

namespace Flexbox.Edit

variable {α β γ : Type} {t : Tree α} {id : NodeId} {n : Node α}

@[simp] theorem apply_pure (b : β) : (pure b : Edit α β).apply t = (.ok b, t) := rfl

@[simp] theorem apply_throw (e : Fault) : (throw e : Edit α β).apply t = (.error e, t) := rfl

@[simp] theorem apply_get : (get : Edit α (Tree α)).apply t = (.ok t, t) := rfl

@[simp] theorem apply_set (s : Tree α) : (set s : Edit α PUnit).apply t = (.ok ⟨⟩, s) := rfl

@[simp] theorem apply_modify (f : Tree α → Tree α) :
    (modify f : Edit α PUnit).apply t = (.ok ⟨⟩, f t) := rfl

@[simp] theorem apply_insert (n : Node α) :
    (insert n).apply t = (.ok (t.insert n).1, (t.insert n).2) := rfl

theorem apply_bind (e : Edit α β) (f : β → Edit α γ) :
    (e >>= f).apply t = match e.apply t with
      | (.ok b, s) => (f b).apply s
      | (.error x, s) => (.error x, s) := by
  simp only [apply, ExceptT.run_bind, StateT.run_bind]
  rcases e.run.run t with ⟨r, s⟩
  cases r <;> rfl

@[simp] theorem apply_map (e : Edit α β) (f : β → γ) :
    (f <$> e).apply t = ((e.apply t).1.map f, (e.apply t).2) := by
  simp only [apply, ExceptT.run_map, StateT.run_map]
  rfl

@[simp] theorem apply_bind_pure (b : β) (f : β → Edit α γ) :
    (pure b >>= f).apply t = (f b).apply t := rfl

theorem apply_node (h : t.find? id = some n) : (node id).apply t = (.ok n, t) := by
  simp [node, apply_bind, h]

theorem apply_node_none (h : t.find? id = none) :
    (node id).apply t = (.error (.unknownNode id), t) := by
  simp [node, apply_bind, h]

theorem apply_change (h : t.find? id = some n) (f : Node α → Node α) :
    (change id f).apply t = (.ok ⟨⟩, t.update id f) := by
  simp [change, apply_bind, apply_node h]

theorem apply_change_none (h : t.find? id = none) (f : Node α → Node α) :
    (change id f).apply t = (.error (.unknownNode id), t) := by
  simp [change, apply_bind, apply_node_none h]

variable {P : Tree α → Prop} {f : β → Edit α γ} {e : Edit α β}

theorem final_node {f : Node α → Edit α β} (h : P t)
    (hf : ∀ n, t.find? id = some n → P ((f n).apply t).2) : P ((node id >>= f).apply t).2 := by
  rw [apply_bind]
  cases hn : t.find? id with
  | none => simpa [apply_node_none hn] using h
  | some n => simpa [apply_node hn] using hf n hn

theorem final_bind {b : β} {s : Tree α} (he : e.apply t = (.ok b, s)) (hf : P ((f b).apply s).2) :
    P ((e >>= f).apply t).2 := by
  rw [apply_bind, he]
  exact hf

theorem final_seq (he : P (e.apply t).2) (hf : ∀ b s, P s → P ((f b).apply s).2) :
    P ((e >>= f).apply t).2 := by
  rw [apply_bind]
  rcases hr : e.apply t with ⟨r, s⟩
  rw [hr] at he
  cases r with
  | error x => exact he
  | ok b => exact hf b s he

theorem final_throw {e : Fault} (h : P t) : P (((throw e : Edit α β) >>= f).apply t).2 := by
  rw [apply_bind]
  exact h

theorem final_change {f : Node α → Node α} (h : P t)
    (hf : ∀ n, t.find? id = some n → P (t.update id f)) : P ((change id f).apply t).2 := by
  cases hn : t.find? id with
  | none => simpa [apply_change_none hn] using h
  | some n => simpa [apply_change hn] using hf n hn

theorem apply_forIn {I : List γ → Tree α → Prop} {body : γ → Edit α (ForInStep PUnit)}
    (step : ∀ x rest t, I (x :: rest) t → ∃ s, (body x).apply t = (.ok (.yield ⟨⟩), s) ∧ I rest s)
    (xs : List γ) (h : I xs t) :
    ∃ s, (forIn xs PUnit.unit fun x _ => body x).apply t = (.ok ⟨⟩, s) ∧ I [] s := by
  induction xs generalizing t with
  | nil => exact ⟨t, rfl, h⟩
  | cons x xs ih =>
    obtain ⟨s, hs, hi⟩ := step x xs t h
    obtain ⟨u, hu, hn⟩ := ih hi
    refine ⟨u, ?_, hn⟩
    rw [List.forIn_cons, apply_bind, hs]
    exact hu

section Outcome

variable {id : NodeId} {f : β → Edit α γ} {e : Edit α β}

/-- If the edit fails, then before it has changed anything. -/
def Atomic (e : Edit α β) (t : Tree α) : Prop :=
  ∀ x, (e.apply t).1 = .error x → (e.apply t).2 = t

/-- The edit succeeds, and comes to a tree with `P`. -/
def Runs (e : Edit α β) (t : Tree α) (P : Tree α → Prop) : Prop :=
  ∃ b s, e.apply t = (.ok b, s) ∧ P s

/-- The edit fails before it has changed anything, or it comes to a tree with `P`. -/
def Ends (e : Edit α β) (t : Tree α) (P : Tree α → Prop) : Prop :=
  (∃ x, e.apply t = (.error x, t)) ∨ e.Runs t P

theorem Runs.ends (h : e.Runs t P) : e.Ends t P := Or.inr h

theorem Ends.final {Q : Tree α → Prop} (he : e.Ends t P) (h : Q t) (hQ : ∀ s, P s → Q s) :
    Q (e.apply t).2 := by
  rcases he with ⟨x, hrun⟩ | ⟨b, s, hrun, hs⟩
  · rwa [hrun]
  · rw [hrun]
    exact hQ s hs

theorem Ends.imp {Q : Tree α → Prop} (he : e.Ends t P) (hQ : ∀ s, P s → Q s) : e.Ends t Q :=
  he.imp_right fun ⟨b, s, hrun, hs⟩ => ⟨b, s, hrun, hQ s hs⟩

theorem Ends.atomic (he : e.Ends t P) : e.Atomic t := by
  intro y hy
  rcases he with ⟨x, hrun⟩ | ⟨b, s, hrun, -⟩
  · rw [hrun]
  · rw [hrun] at hy
    cases hy

theorem Atomic.ends (ha : e.Atomic t) (h : P (e.apply t).2) : e.Ends t P := by
  rcases hr : e.apply t with ⟨x | b, s⟩
  · obtain rfl : s = t := by simpa only [hr] using ha x (by rw [hr])
    exact Or.inl ⟨x, hr⟩
  · rw [hr] at h
    exact Or.inr ⟨b, s, hr, h⟩

theorem runs_bind {b : β} {s : Tree α} (he : e.apply t = (.ok b, s)) (hf : (f b).Runs s P) :
    (e >>= f).Runs t P := by
  obtain ⟨c, u, hrun, hu⟩ := hf
  refine ⟨c, u, ?_, hu⟩
  rw [apply_bind, he]
  exact hrun

theorem runs_forIn {I : List γ → Tree α → Prop} {body : γ → Edit α (ForInStep PUnit)}
    (step : ∀ x rest t, I (x :: rest) t →
      ∃ s, (body x).apply t = (.ok (.yield ⟨⟩), s) ∧ I rest s) {xs : List γ} (h : I xs t)
    {f : PUnit → Edit α β} (hf : ∀ s, I [] s → (f ⟨⟩).Runs s P) :
    (forIn xs PUnit.unit (fun x _ => body x) >>= f).Runs t P := by
  obtain ⟨s, hrun, hs⟩ := apply_forIn step xs h
  exact runs_bind hrun (hf s hs)

theorem ends_throw {x : Fault} : ((throw x : Edit α β) >>= f).Ends t P := Or.inl ⟨x, rfl⟩

theorem ends_bind (he : (e.apply t).2 = t) (hf : ∀ b, (e.apply t).1 = .ok b → (f b).Ends t P) :
    (e >>= f).Ends t P := by
  unfold Ends Runs
  rw [apply_bind]
  rcases hr : e.apply t with ⟨r, s⟩
  rw [hr] at he hf
  obtain rfl : s = t := he
  cases r with
  | error x => exact Or.inl ⟨x, rfl⟩
  | ok b => exact hf b rfl

theorem ends_node {f : Node α → Edit α β} (hf : ∀ n, t.find? id = some n → (f n).Ends t P) :
    (node id >>= f).Ends t P := by
  cases hn : t.find? id with
  | none => exact Or.inl ⟨_, by rw [apply_bind, apply_node_none hn]⟩
  | some n =>
    refine ends_bind (by rw [apply_node hn]) fun m hm => hf m ?_
    rw [apply_node hn] at hm
    rw [hn, Except.ok.inj hm]

theorem ends_change {f : Node α → Node α} (hf : ∀ n, t.find? id = some n → P (t.update id f)) :
    (change id f).Ends t P :=
  ends_node fun n hn => Runs.ends ⟨_, _, apply_modify _, hf n hn⟩

theorem Ends.discard (h : e.Ends t P) : (Functor.discard e : Edit α PUnit).Ends t P := by
  unfold Ends Runs
  change (∃ x, (Function.const β PUnit.unit <$> e : Edit α PUnit).apply t = _) ∨
    ∃ b s, (Function.const β PUnit.unit <$> e : Edit α PUnit).apply t = _ ∧ _
  rw [apply_map]
  rcases h with ⟨x, hrun⟩ | ⟨b, s, hrun, hs⟩
  · exact Or.inl ⟨x, by rw [hrun]; rfl⟩
  · exact Or.inr ⟨_, s, by rw [hrun]; rfl, hs⟩

end Outcome

end Flexbox.Edit
