import Flexbox.Proofs.Fixture.Complaints
import Flexbox.Proofs.Fixture.Growing

namespace Flexbox.Fixture

open Tree (grown)

namespace Property

variable (p : Property)

def mark (n : Node Float32) : Node Float32 :=
  if p.isMark then
    match p.flag with
    | .ok value => n.referring value
    | .error _ => n
  else n

def paint (s : Style Float32) : Style Float32 :=
  if p.isMark then s
  else
    match p.apply s with
    | .ok s => s
    | .error _ => s

end Property

def markAll (n : Node Float32) (ps : List (Located Property)) : Node Float32 :=
  ps.foldl (fun n p => p.item.mark n) n

def paintAll (s : Style Float32) (ps : List (Located Property)) : Style Float32 :=
  ps.foldl (fun s p => p.item.paint s) s

theorem markAll_keeps {β : Type} {g : Node Float32 → β}
    (h : ∀ n value, g (n.referring value) = g n) (n : Node Float32)
    (ps : List (Located Property)) : g (markAll n ps) = g n := by
  induction ps generalizing n with
  | nil => rfl
  | cons p ps ih =>
    rw [markAll, List.foldl_cons, ← markAll, ih, Property.mark]
    split
    · split
      · exact h n _
      · rfl
    · rfl

theorem loose_markAll {n : Node Float32} (h : n.Loose) (ps : List (Located Property)) :
    (markAll n ps).Loose where
  owner := (markAll_keeps (fun _ _ => rfl) n ps).trans h.owner
  shared := (markAll_keeps (fun _ _ => rfl) n ps).trans h.shared
  measure := (markAll_keeps (fun _ _ => rfl) n ps).trans h.measure
  dirtied := (markAll_keeps (fun _ _ => rfl) n ps).trans h.dirtied

namespace Declaration

variable (config : Config Float32) (d : Declaration)

def furnished : Node Float32 :=
  (markAll (.new config) d.properties).restyled
    (paintAll (.default config.webDefaults) d.properties)

theorem furnished_children : (d.furnished config).children = [] :=
  markAll_keeps (g := Node.children) (fun _ _ => rfl) (.new config) d.properties

theorem furnished_loose : (d.furnished config).Loose :=
  have h := loose_markAll (.new config) d.properties
  ⟨h.owner, h.shared, h.measure, h.dirtied⟩

def node : Node Float32 :=
  match d.kind with
  | .container => d.furnished config
  | .text content =>
    { d.furnished config with measure := some (textMeasure none content), nodeType := .text }

/-- Places in the order of the document, the first being `k`. -/
def places (k : Nat) : List Declaration → List Nat
  | [] => []
  | d :: ds => k :: places (k + d.preorder.length) ds

def nodeAt (owner : Option NodeId) (k : Nat) : Node Float32 :=
  { ((places (k + 1) d.children).map NodeId.nth).foldl Node.adopting (d.node config) with
    owner := owner }

mutual

/-- The nodes of a declaration at place `k` and of all below it. -/
def nodes (owner : Option NodeId) (k : Nat) : Declaration → List (Node Float32)
  | ⟨kind, name, properties, children, span⟩ =>
    nodeAt config ⟨kind, name, properties, children, span⟩ owner k ::
      nodesOf (some (.nth k)) (k + 1) children

def nodesOf (owner : Option NodeId) (k : Nat) : List Declaration → List (Node Float32)
  | [] => []
  | d :: ds => nodes owner k d ++ nodesOf owner (k + d.preorder.length) ds

end

theorem node_owner : (d.node config).owner = none := by
  unfold node
  split <;> exact (d.furnished_loose config).owner

theorem node_children : (d.node config).children = [] := by
  unfold node
  split <;> exact d.furnished_children config

theorem nodeAt_none (k : Nat) : d.nodeAt config none k =
    ((places (k + 1) d.children).map NodeId.nth).foldl Node.adopting (d.node config) := by
  have h : (((places (k + 1) d.children).map NodeId.nth).foldl Node.adopting
      (d.node config)).owner = none := by
    rw [Node.foldl_adopting_keeps (g := Node.owner) (fun _ _ => rfl)]
    exact d.node_owner config
  rw [nodeAt, ← h]

theorem nodes_eq (owner : Option NodeId) (k : Nat) : nodes config owner k d =
    d.nodeAt config owner k :: nodesOf config (some (.nth k)) (k + 1) d.children := by
  obtain ⟨kind, name, properties, children, span⟩ := d
  rw [nodes]

mutual

theorem length_nodes (owner : Option NodeId) (k : Nat) (d : Declaration) :
    (nodes config owner k d).length = d.preorder.length := by
  match d with
  | ⟨_, _, _, children, _⟩ => simp [nodes, preorder, length_nodesOf _ _ children]

theorem length_nodesOf (owner : Option NodeId) (k : Nat) (ds : List Declaration) :
    (nodesOf config owner k ds).length = (preorders ds).length := by
  match ds with
  | [] => rfl
  | d :: ds => simp [nodesOf, preorders, length_nodes _ _ d, length_nodesOf _ _ ds]

end

end Declaration

/-- Names with the nodes that have them, in the order of the document; the first declaration is
at place `k`. -/
def named (k : Nat) (ds : List Declaration) : List (String × NodeId) :=
  (ds.zipIdx k).filterMap fun (d, i) => d.label.map fun name => (name, .nth i)

theorem named_append (k : Nat) (ds es : List Declaration) :
    named k (ds ++ es) = named k ds ++ named (k + ds.length) es := by
  simp [named, List.zipIdx_append]

theorem named_cons (k : Nat) (d : Declaration) (ds : List Declaration) : named k (d :: ds) =
    (d.label.map fun name => (name, .nth k)).toList ++ named (k + 1) ds := by
  cases hl : d.label <;> simp [named, hl]

theorem map_fst_label (d : Declaration) (id : NodeId) :
    (d.label.map fun name => (name, id)).toList.map Prod.fst = d.label.toList := by
  cases d.label <;> rfl

theorem reverse_label (d : Declaration) (id : NodeId) :
    (d.label.map fun name => (name, id)).toList.reverse =
      (d.label.map fun name => (name, id)).toList := by
  cases d.label <;> rfl

theorem map_fst_named (k : Nat) (ds : List Declaration) :
    (named k ds).map Prod.fst = ds.filterMap Declaration.label := by
  induction ds generalizing k with
  | nil => rfl
  | cons d ds ih =>
    rw [named_cons, List.map_append, ih, map_fst_label]
    cases hl : d.label <;> simp [hl]

/-- The first of the errors, or the result if there are none. -/
def settle {β : Type} (errors : List BuildError) (result : β) : Except BuildError β :=
  match errors.head? with
  | some e => .error e
  | none => .ok result

theorem Build.bind_settle {β γ : Type} {x : Build β} {f : β → Build γ} {b b' : Builder} {c : β}
    {r : γ × Builder} {es fs : List BuildError} (hx : x b = settle es (c, b'))
    (hf : f c b' = settle fs r) : (x >>= f) b = settle (es ++ fs) r := by
  change (x b >>= fun (c, b') => f c b') = _
  rw [hx]
  cases es with
  | nil => exact hf
  | cons e es => rfl

theorem Build.edit_ok {β : Type} {e : Edit Float32 β} {t s : Tree Float32} {r : β}
    {names : List (String × NodeId)} (h : e.apply t = (.ok r, s)) :
    edit e ⟨t, names⟩ = settle [] (r, ⟨s, names⟩) := by
  simp [edit, h, settle]

namespace Build

variable {config : Config Float32} {before after : List (Node Float32)} {n : Node Float32}
  {t : Tree Float32} {names : List (String × NodeId)} {below : List (Node Float32)}
  {row : List (Node Float32)} {m : Node Float32} {d : Declaration}

theorem properties_settle (h : n.Loose) (ps : List (Located Property)) (s : Style Float32) :
    properties (.nth before.length) ps s ⟨grown config (before ++ n :: after), names⟩ =
      settle ((ps.filterMap fun p => p.item.complaint).map .property)
        (paintAll s ps, ⟨grown config (before ++ markAll n ps :: after), names⟩) := by
  induction ps generalizing n s with
  | nil => rfl
  | cons p ps ih =>
    rw [properties]
    cases hm : p.item.isMark with
    | false =>
      have hkey : (p.item.key.item == "reference-baseline") = false := hm
      have hcomplaint := p.item.complaint_eq s
      simp only [hm, Bool.false_eq_true, if_false] at hcomplaint
      simp only [hkey, Bool.false_eq_true, if_false, paintAll, markAll, List.foldl_cons,
        Property.paint, Property.mark, hm]
      cases ha : p.item.apply s with
      | ok s' =>
        rw [List.filterMap_cons_none (by rw [hcomplaint, ha]; rfl)]
        exact ih h s'
      | error e =>
        rw [List.filterMap_cons_some (by rw [hcomplaint, ha]; rfl)]
        rfl
    | true =>
      have hkey : (p.item.key.item == "reference-baseline") = true := hm
      have hcomplaint := p.item.complaint_eq s
      simp only [hm, if_true] at hcomplaint
      simp only [hkey, if_true, paintAll, markAll, List.foldl_cons, Property.paint, Property.mark,
        hm]
      cases hf : p.item.flag with
      | ok value =>
        rw [List.filterMap_cons_none (by rw [hcomplaint, hf]; rfl)]
        exact bind_settle (edit_ok (Edit.apply_setReferenceBaseline_grown h value))
          (ih (n := n.referring value) ⟨h.owner, h.shared, h.measure, h.dirtied⟩ s)
      | error e =>
        rw [List.filterMap_cons_some (by rw [hcomplaint, hf]; rfl)]
        rfl

def name (id : NodeId) : Option (Located String) → Build Unit
  | some name => bindName id name
  | none => return ()

def content (id : NodeId) (children : List Declaration) : NodeKind → Build Unit
  | .container => declarations id children
  | .text text => edit (Edit.setMeasure id (textMeasure none text))

theorem declaration_eq (d : Declaration) : declaration d = do
    let id ← edit (Edit.newNode none)
    name id d.name
    let style ← properties id d.properties (← edit (Edit.node id)).style
    edit (Edit.setStyle id style)
    content id d.children d.kind
    return id := by
  obtain ⟨kind, name, properties, children, span⟩ := d
  rw [declaration]
  cases kind <;> cases name <;> simp [Build.name, content]

theorem name_settle (id : NodeId) (d : Declaration) : name id d.name ⟨t, names⟩ =
    settle ((d.name.toList.filter fun name => (names.map Prod.fst).contains name.item).map
        fun name => .duplicateName name.item name.span)
      ((), ⟨t, (d.label.map fun name => (name, id)).toList ++ names⟩) := by
  cases hd : d.name with
  | none =>
    simp only [Declaration.label, hd]
    rfl
  | some located =>
    have hany : (names.any fun given => given.1 == located.item) =
        (names.map Prod.fst).contains located.item := by
      rw [Bool.eq_iff_iff]
      simp
    simp only [name, bindName, Declaration.label, hd, Option.toList_some, List.filter_singleton]
    change (if (names.any fun given => given.1 == located.item) = true then _ else _ :
      Build Unit) ⟨t, names⟩ = _
    rw [hany]
    cases (names.map Prod.fst).contains located.item <;> rfl

theorem declaration_settle_of_content {es : List BuildError} {b : Builder}
    (h : content (.nth row.length) d.children d.kind ⟨grown config (row ++ [d.furnished config]),
      (d.label.map fun name => (name, .nth row.length)).toList ++ names⟩ = settle es ((), b)) :
    declaration d ⟨grown config row, names⟩ =
      settle (d.faults (names.map Prod.fst) ++ es) (.nth row.length, b) := by
  have hloose := loose_markAll (Node.Loose.new config) d.properties
  rw [declaration_eq]
  -- one line for each step of building a node; only the name and the properties can fail
  refine Eq.trans
    (bind_settle (edit_ok Edit.apply_newNode_grown) <|
      bind_settle (name_settle _ d) <|
      bind_settle (edit_ok Edit.apply_node_grown) <|
      bind_settle (properties_settle (.new config) d.properties _) <|
      bind_settle (edit_ok (Edit.apply_setStyle_grown hloose _)) <|
      bind_settle h (show _ = settle [] _ from rfl)) ?_
  simp [Declaration.faults]

/-- The children listed so far are the nodes behind their owner, which is at place `k`. -/
structure Heads (k : Nat) (n : Node Float32) (below : List (Node Float32)) : Prop where
  first : n.children.head? = below.head?.map fun _ => .nth (k + 1)
  owner : ∀ m ∈ below.head?, m.owner = some (.nth k)

theorem Heads.furnished (d : Declaration) (k : Nat) : Heads k (d.furnished config) [] where
  first := by simp [Declaration.furnished_children]
  owner := by simp

theorem Heads.find? (h : Heads before.length n below) (rest : List (Node Float32)) :
    ∀ first ∈ n.children.head?, ∃ m, (grown config (before ++ n :: (below ++ rest))).find? first =
      some m ∧ m.owner = some (.nth before.length) := by
  intro first hfirst
  cases below with
  | nil =>
    rw [h.first] at hfirst
    cases hfirst
  | cons m below =>
    rw [h.first] at hfirst
    cases hfirst
    exact ⟨m, by simp [Tree.find?_grown], h.owner m rfl⟩

theorem Heads.adopting {rest : List (Node Float32)} (h : Heads before.length n below)
    (hm : m.owner = some (.nth before.length)) :
    Heads before.length (n.adopting (.nth (before ++ n :: below).length)) (below ++ m :: rest) := by
  cases below with
  | nil =>
    have hnil : n.children = [] := by simpa using h.first
    constructor
    · simp [Node.adopting, Node.marked, hnil]
    · simpa using hm
  | cons b below =>
    constructor
    · simp [Node.adopting, Node.marked, h.first]
    · exact h.owner

open Declaration (TextsAreLeaves preorders places nodes nodesOf nodes_eq)

theorem addChild_settle {front : List (Node Float32)} {k : Nat} (hm : m.Loose)
    (hh : Heads front.length m below) (hk : (front ++ m :: below).length = k) (d : Declaration)
    (names : List (String × NodeId)) :
    edit (Edit.addChild (.nth front.length) (.nth k))
        ⟨grown config (front ++ m :: below ++ nodes config none k d), names⟩ =
      settle [] ((), ⟨grown config (front ++ m.adopting (.nth k) ::
        (below ++ nodes config (some (.nth front.length)) k d)), names⟩) := by
  subst hk
  rw [nodes_eq, nodes_eq, List.append_assoc, List.cons_append]
  exact edit_ok (Edit.apply_addChild_grown hm rfl (hh.find? _))

theorem declaration_settle_of_children
    (hleaf : ∀ content, d.kind = .text content → d.children = [])
    (h : ∀ names, declarations (.nth row.length) d.children
        ⟨grown config (row ++ [d.furnished config]), names⟩ =
      settle (complaints (names.map Prod.fst) (preorders d.children)) ((),
        ⟨grown config (row ++ ((places (row.length + 1) d.children).map NodeId.nth).foldl
            Node.adopting (d.furnished config) ::
          nodesOf config (some (.nth row.length)) (row.length + 1) d.children),
        (named (row.length + 1) (preorders d.children)).reverse ++ names⟩)) :
    declaration d ⟨grown config row, names⟩ =
      settle (complaints (names.map Prod.fst) d.preorder) (.nth row.length,
        ⟨grown config (row ++ nodes config none row.length d),
          (named row.length d.preorder).reverse ++ names⟩) := by
  rw [Declaration.preorder_eq, complaints, named_cons, nodes_eq, Declaration.nodeAt_none,
    Declaration.node]
  cases hk : d.kind with
  | container =>
    have hc := h ((d.label.map fun name => (name, .nth row.length)).toList ++ names)
    refine Eq.trans (declaration_settle_of_content (by rw [hk]; exact hc)) ?_
    simp only [List.map_append, map_fst_label, List.reverse_append, List.append_assoc,
      reverse_label]
  | text text =>
    refine Eq.trans (declaration_settle_of_content (by
      rw [hk]
      exact edit_ok (Edit.apply_setMeasure_grown (d.furnished_children config) _))) ?_
    simp only [hleaf text hk, List.reverse_append, List.append_assoc, reverse_label]
    rfl

mutual

theorem declaration_settle (d : Declaration) (row : List (Node Float32))
    (names : List (String × NodeId)) (hleaf : TextsAreLeaves d.preorder) :
    declaration d ⟨grown config row, names⟩ =
      settle (complaints (names.map Prod.fst) d.preorder) (.nth row.length,
        ⟨grown config (row ++ nodes config none row.length d),
          (named row.length d.preorder).reverse ++ names⟩) := by
  match d with
  | ⟨kind, name, properties, children, span⟩ =>
    rw [Declaration.preorder, TextsAreLeaves, List.forall_mem_cons] at hleaf
    refine declaration_settle_of_children hleaf.1 fun names => ?_
    rw [declarations_settle children row [] _ names (row.length + 1) hleaf.2
      (Declaration.furnished_loose ..) (.furnished ..) List.length_append, List.nil_append]

theorem declarations_settle (ds : List Declaration) (front below : List (Node Float32))
    (m : Node Float32) (names : List (String × NodeId)) (k : Nat)
    (hleaf : TextsAreLeaves (preorders ds)) (hm : m.Loose) (hh : Heads front.length m below)
    (hk : (front ++ m :: below).length = k) :
    declarations (.nth front.length) ds ⟨grown config (front ++ m :: below), names⟩ =
      settle (complaints (names.map Prod.fst) (preorders ds)) ((),
        ⟨grown config (front ++ ((places k ds).map NodeId.nth).foldl Node.adopting m ::
            (below ++ nodesOf config (some (.nth front.length)) k ds)),
          (named k (preorders ds)).reverse ++ names⟩) := by
  match ds with
  | [] =>
    rw [nodesOf, List.append_nil]
    rfl
  | d :: ds =>
    -- the next child is built behind all nodes so far and then listed; its nodes join `below`
    rw [preorders, TextsAreLeaves, List.forall_mem_append] at hleaf
    have hd := declaration_settle d (front ++ m :: below) names hleaf.1
    rw [hk] at hd
    have hrest := declarations_settle ds front
      (below ++ nodes config (some (.nth front.length)) k d) (m.adopting (.nth k))
      ((named k d.preorder).reverse ++ names) (k + d.preorder.length) hleaf.2
      ⟨hm.owner, hm.shared, hm.measure, hm.dirtied⟩ ?_ ?_
    · rw [declarations, preorders, complaints_append, named_append]
      refine Eq.trans (bind_settle hd (bind_settle (addChild_settle hm hh hk d _) hrest)) ?_
      simp only [places, nodesOf, List.map_append, List.map_reverse, map_fst_named,
        List.map_cons, List.foldl_cons, List.reverse_append, List.append_assoc, List.nil_append]
    · subst hk
      rw [nodes_eq]
      exact hh.adopting rfl
    · subst hk
      simp [Declaration.length_nodes]
      omega

end

mutual

/-- What a text lists is not built. -/
theorem declaration_pruned (d : Declaration) : declaration d.pruned = declaration d := by
  match d with
  | ⟨.container, name, properties, children, span⟩ =>
    simp only [Declaration.pruned, declaration, declarations_pruned children]
  | ⟨.text content, name, properties, children, span⟩ =>
    simp only [Declaration.pruned, declaration]

theorem declarations_pruned (ds : List Declaration) (owner : NodeId) :
    declarations owner (Declaration.prunedAll ds) = declarations owner ds := by
  match ds with
  | [] => rfl
  | d :: ds =>
    simp only [Declaration.prunedAll, declarations, declaration_pruned d, declarations_pruned ds]

end

end Build

theorem build_pruned (d : Declaration) (config : Config Float32) :
    build d.pruned config = build d config := by
  rw [build, Build.declaration_pruned, build]

end Flexbox.Fixture
