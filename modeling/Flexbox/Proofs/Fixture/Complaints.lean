import Flexbox.Fixture.Build
import Mathlib.Data.List.Nodup
import Mathlib.Tactic.Tauto

namespace Flexbox.Fixture

def fault? {ε β : Type} : Except ε β → Option ε
  | .ok _ => none
  | .error e => some e

namespace Property

variable (p : Property)

def isMark : Bool := p.key.item == "reference-baseline"

/-- A mark is true or false; any other property can be set in every style. -/
def Accepted : Prop :=
  if p.isMark then p.value.item = .keyword "true" ∨ p.value.item = .keyword "false"
  else ∀ s, ∃ s', p.apply s = .ok s'

def complaint : Option PropertyError :=
  if p.isMark then fault? p.flag else fault? (p.apply (.default false))

theorem fault?_bind_pure {ε β γ : Type} (x : Except ε β) (f : β → γ) :
    fault? (x >>= fun b => pure (f b)) = fault? x := by
  cases x <;> rfl

theorem fault?_applyEdges (s s' : Style Float32) (group : String) (edge : Edge) :
    fault? (p.applyEdges s group edge) = fault? (p.applyEdges s' group edge) := by
  unfold applyEdges
  split <;> simp only [fault?_bind_pure]

theorem fault?_applyEdge (s s' : Style Float32) :
    fault? (p.applyEdge s) = fault? (p.applyEdge s') := by
  unfold applyEdge
  split
  · simp only [fault?_bind_pure]
  · dsimp only
    split
    · exact p.fault?_applyEdges s s' _ _
    · split
      · exact p.fault?_applyEdges s s' _ _
      · rfl

theorem fault?_apply (s s' : Style Float32) : fault? (p.apply s) = fault? (p.apply s') := by
  unfold apply
  split <;> simp only [fault?_bind_pure, p.fault?_applyEdge s s']

theorem complaint_eq (s : Style Float32) :
    p.complaint = if p.isMark then fault? p.flag else fault? (p.apply s) := by
  rw [complaint, p.fault?_apply _ s]

theorem fault?_eq_none {ε β : Type} {x : Except ε β} : fault? x = none ↔ ∃ b, x = .ok b := by
  cases x <;> simp [fault?]

theorem fault?_flag : fault? p.flag = none ↔
    p.value.item = .keyword "true" ∨ p.value.item = .keyword "false" := by
  unfold flag
  split <;> simp_all [fault?]

theorem complaint_eq_none : p.complaint = none ↔ p.Accepted := by
  unfold complaint Accepted
  split
  · exact p.fault?_flag
  · constructor
    · intro h s
      rw [p.fault?_apply _ s] at h
      exact fault?_eq_none.mp h
    · intro h
      exact fault?_eq_none.mpr (h _)

end Property

namespace Declaration

mutual

/-- A declaration and all below it, in the order of the document. -/
def preorder : Declaration → List Declaration
  | ⟨kind, name, properties, children, span⟩ =>
    ⟨kind, name, properties, children, span⟩ :: preorders children

def preorders : List Declaration → List Declaration
  | [] => []
  | d :: ds => d.preorder ++ preorders ds

end

theorem preorder_eq (d : Declaration) : d.preorder = d :: preorders d.children := by
  obtain ⟨kind, name, properties, children, span⟩ := d
  rw [preorder]

/-- No text lists children. A fixture has no way to write such a text, but a declaration put
together by hand can be one. -/
def TextsAreLeaves (ds : List Declaration) : Prop :=
  ∀ d ∈ ds, ∀ content, d.kind = .text content → d.children = []

mutual

/-- The declaration without what its texts list. -/
def pruned : Declaration → Declaration
  | ⟨.container, name, properties, children, span⟩ =>
    ⟨.container, name, properties, prunedAll children, span⟩
  | ⟨.text content, name, properties, _, span⟩ => ⟨.text content, name, properties, [], span⟩

def prunedAll : List Declaration → List Declaration
  | [] => []
  | d :: ds => d.pruned :: prunedAll ds

end

mutual

theorem textsAreLeaves_pruned (d : Declaration) : TextsAreLeaves d.pruned.preorder := by
  match d with
  | ⟨.container, name, properties, children, span⟩ =>
    rw [pruned, preorder, TextsAreLeaves, List.forall_mem_cons]
    exact ⟨nofun, textsAreLeaves_prunedAll children⟩
  | ⟨.text content, name, properties, children, span⟩ =>
    simp [pruned, preorder, preorders, TextsAreLeaves]

theorem textsAreLeaves_prunedAll (ds : List Declaration) :
    TextsAreLeaves (preorders (prunedAll ds)) := by
  match ds with
  | [] => simp [prunedAll, preorders, TextsAreLeaves]
  | d :: ds =>
    rw [prunedAll, preorders, TextsAreLeaves, List.forall_mem_append]
    exact ⟨textsAreLeaves_pruned d, textsAreLeaves_prunedAll ds⟩

end

mutual

theorem pruned_of_textsAreLeaves (d : Declaration) (h : TextsAreLeaves d.preorder) :
    d.pruned = d := by
  match d with
  | ⟨.container, name, properties, children, span⟩ =>
    rw [preorder, TextsAreLeaves, List.forall_mem_cons] at h
    rw [pruned, prunedAll_of_textsAreLeaves children h.2]
  | ⟨.text content, name, properties, children, span⟩ =>
    rw [preorder, TextsAreLeaves, List.forall_mem_cons] at h
    rw [pruned, show children = [] from h.1 content rfl]

theorem prunedAll_of_textsAreLeaves (ds : List Declaration) (h : TextsAreLeaves (preorders ds)) :
    prunedAll ds = ds := by
  match ds with
  | [] => rfl
  | d :: ds =>
    rw [preorders, TextsAreLeaves, List.forall_mem_append] at h
    rw [prunedAll, pruned_of_textsAreLeaves d h.1, prunedAll_of_textsAreLeaves ds h.2]

end

def label (d : Declaration) : Option String := d.name.map Located.item

/-- What is wrong with one declaration if `seen` are the names in front of it: its name first, then
its properties from left to right. -/
def faults (seen : List String) (d : Declaration) : List BuildError :=
  (d.name.toList.filter fun name => seen.contains name.item).map
      (fun name => .duplicateName name.item name.span) ++
    (d.properties.filterMap fun p => p.item.complaint).map .property

end Declaration

/-- What is wrong with declarations in the order of the document. -/
def complaints (seen : List String) : List Declaration → List BuildError
  | [] => []
  | d :: ds => d.faults seen ++ complaints (d.label.toList ++ seen) ds

theorem complaints_append (seen : List String) (ds es : List Declaration) :
    complaints seen (ds ++ es) =
      complaints seen ds ++ complaints ((ds.filterMap Declaration.label).reverse ++ seen) es := by
  induction ds generalizing seen with
  | nil => rfl
  | cons d ds ih =>
    rw [List.cons_append, complaints, ih, complaints, List.append_assoc]
    cases hl : d.label <;> simp [hl]

theorem Declaration.faults_eq_nil {seen : List String} {d : Declaration} : d.faults seen = [] ↔
    (∀ x ∈ d.label, x ∉ seen) ∧ ∀ p ∈ d.properties, p.item.Accepted := by
  simp only [faults, List.append_eq_nil_iff, List.map_eq_nil_iff, List.filterMap_eq_nil_iff,
    Property.complaint_eq_none, label]
  cases d.name <;> simp

theorem complaints_eq_nil {seen : List String} {ds : List Declaration} : complaints seen ds = [] ↔
    (ds.filterMap Declaration.label).Nodup ∧ (∀ x ∈ ds.filterMap Declaration.label, x ∉ seen) ∧
      ∀ d ∈ ds, ∀ p ∈ d.properties, p.item.Accepted := by
  induction ds generalizing seen with
  | nil => simp [complaints]
  | cons d ds ih =>
    rw [complaints, List.append_eq_nil_iff, Declaration.faults_eq_nil, ih]
    cases hl : d.label with
    | none => simp [hl, and_left_comm]
    | some x =>
      have hfresh : (∀ y ∈ ds.filterMap Declaration.label, y ∉ x :: seen) ↔
          x ∉ ds.filterMap Declaration.label ∧
            ∀ y ∈ ds.filterMap Declaration.label, y ∉ seen := by
        grind
      rw [List.filterMap_cons_some hl, Option.toList_some, List.singleton_append, hfresh,
        List.nodup_cons]
      simp only [Option.mem_some_iff, forall_eq', List.forall_mem_cons]
      tauto

end Flexbox.Fixture
