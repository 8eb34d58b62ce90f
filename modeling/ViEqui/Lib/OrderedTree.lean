import Mathlib.Data.List.Basic

/-!
# Ordered trees

The ordered list of children of a node, each with a label and a node of its
own, as a chain of siblings.  A node with no child is a leaf.

* `runs`: the sequences of labels from a node to its leaves, in order.
* `Distinct`: no two children of one node have the same key.
* `Adds`: a tree has one run more than another, and the others in the same
  order.  A path that is appended behind the children of a node adds a run
  (`adds_append_path`), and so does an addition below a child (`Adds.below`)
  or below the node `depth` first children down (`Adds.setAt`).
-/

/-- The children of a node, from the first to the last. -/
inductive OrderedTree (α : Type) where
  | nil
  | cons (label : α) (node siblings : OrderedTree α)
deriving DecidableEq, Repr

namespace OrderedTree

variable {α : Type} {κ : Type}

def isLeaf : OrderedTree α → Bool
  | nil => true
  | cons _ _ _ => false

/-- The children as pairs. -/
def children : OrderedTree α → List (α × OrderedTree α)
  | nil => []
  | cons a node siblings => (a, node) :: siblings.children

def labels (t : OrderedTree α) : List α := t.children.map Prod.fst

/-- Add the children of the second node behind those of the first. -/
def append : OrderedTree α → OrderedTree α → OrderedTree α
  | nil, u => u
  | cons a node siblings, u => cons a node (siblings.append u)

/-- The node with one run. -/
def path : List α → OrderedTree α
  | [] => nil
  | a :: l => cons a (path l) nil

/-- The sequences of labels to the leaves below a node. -/
def runs : OrderedTree α → List (List α)
  | nil => []
  | cons a node siblings =>
    (if node.isLeaf then [[]] else node.runs).map (a :: ·) ++ siblings.runs

/-- The children of each node have different keys. -/
def Distinct (key : α → κ) : OrderedTree α → Prop
  | nil => True
  | cons a node siblings =>
    (∀ b ∈ siblings.labels, key a ≠ key b) ∧ node.Distinct key ∧ siblings.Distinct key

instance instDecidableDistinct [DecidableEq κ] (key : α → κ) : (t : OrderedTree α) → Decidable (t.Distinct key)
  | nil => .isTrue trivial
  | cons _ node siblings =>
    have := instDecidableDistinct key node
    have := instDecidableDistinct key siblings
    inferInstanceAs (Decidable (_ ∧ _ ∧ _))

/-- `u` has the runs of `t` in their order, and `run`. -/
def Adds (t : OrderedTree α) (run : List α) (u : OrderedTree α) : Prop :=
  ∃ before after, t.runs = before ++ after ∧ u.runs = before ++ run :: after

@[simp] theorem isLeaf_nil : (nil : OrderedTree α).isLeaf = true := rfl

@[simp] theorem isLeaf_cons (a : α) (node siblings : OrderedTree α) :
    (cons a node siblings).isLeaf = false := rfl

@[simp] theorem labels_nil : (nil : OrderedTree α).labels = [] := rfl

@[simp] theorem labels_cons (a : α) (node siblings : OrderedTree α) :
    (cons a node siblings).labels = a :: siblings.labels := rfl

theorem isLeaf_iff {t : OrderedTree α} : t.isLeaf = true ↔ t = nil := by
  cases t <;> simp

/-! ## Appending -/

@[simp] theorem labels_append (t u : OrderedTree α) :
    (t.append u).labels = t.labels ++ u.labels := by
  induction t with
  | nil => rfl
  | cons a node siblings _ ih =>
    show a :: (siblings.append u).labels = _
    rw [ih]
    rfl

@[simp] theorem runs_append (t u : OrderedTree α) :
    (t.append u).runs = t.runs ++ u.runs := by
  induction t with
  | nil => rfl
  | cons a node siblings _ ih =>
    show _ ++ (siblings.append u).runs = _
    rw [ih, ← List.append_assoc]
    rfl

theorem distinct_append {key : α → κ} {t u : OrderedTree α} :
    (t.append u).Distinct key ↔ t.Distinct key ∧ u.Distinct key ∧
      ∀ a ∈ t.labels, ∀ b ∈ u.labels, key a ≠ key b := by
  induction t with
  | nil => simp [append, Distinct]
  | cons a node siblings _ ih =>
    show (∀ b ∈ (siblings.append u).labels, key a ≠ key b) ∧ node.Distinct key ∧
      (siblings.append u).Distinct key ↔ _
    rw [ih, labels_append, List.forall_mem_append, labels_cons, List.forall_mem_cons]
    show _ ↔ (_ ∧ _ ∧ _) ∧ _
    tauto

/-! ## Paths -/

theorem runs_path {l : List α} (h : l ≠ []) : (path l).runs = [l] := by
  induction l with
  | nil => exact absurd rfl h
  | cons a l ih =>
    cases l with
    | nil => rfl
    | cons b l =>
      show ((path (b :: l)).runs.map (a :: ·)) ++ [] = _
      rw [ih (List.cons_ne_nil _ _)]
      rfl

theorem distinct_path (key : α → κ) (l : List α) : (path l).Distinct key := by
  induction l with
  | nil => trivial
  | cons a l ih => exact ⟨fun b hb => absurd hb List.not_mem_nil, ih, trivial⟩

/-! ## One more run -/

theorem adds_append_path (t : OrderedTree α) {l : List α} (h : l ≠ []) :
    t.Adds l (t.append (path l)) :=
  ⟨t.runs, [], (List.append_nil _).symm, by rw [runs_append, runs_path h]⟩

theorem Adds.ne_nil {t u : OrderedTree α} {run : List α} (h : t.Adds run u) : u ≠ nil := by
  obtain ⟨before, after, -, hu⟩ := h
  rintro rfl
  have hlen := congrArg List.length hu
  simp [runs] at hlen

/-- A run is added below a child. -/
theorem Adds.below {node node' : OrderedTree α} {run : List α}
    (h : node.Adds run node') (hne : node ≠ nil) (front : OrderedTree α) (a : α)
    (siblings : OrderedTree α) :
    (front.append (cons a node siblings)).Adds (a :: run)
      (front.append (cons a node' siblings)) := by
  have hne' := h.ne_nil
  obtain ⟨before, after, hruns, hruns'⟩ := h
  rw [Ne, ← isLeaf_iff, Bool.not_eq_true] at hne hne'
  refine ⟨front.runs ++ before.map (a :: ·), after.map (a :: ·) ++ siblings.runs, ?_, ?_⟩
  · rw [runs_append]
    simp only [runs, hne, hruns, Bool.false_eq_true, if_false, List.map_append,
      List.append_assoc]
  · rw [runs_append]
    simp only [runs, hne', hruns', Bool.false_eq_true, if_false, List.map_append,
      List.map_cons, List.append_assoc, List.cons_append]

/-- A change below a child keeps the children of the other nodes distinct. -/
theorem Distinct.below {key : α → κ} {front node siblings : OrderedTree α} {a : α}
    (h : (front.append (cons a node siblings)).Distinct key) :
    node.Distinct key ∧ ∀ node' : OrderedTree α, node'.Distinct key →
      (front.append (cons a node' siblings)).Distinct key := by
  obtain ⟨hfront, ⟨ha, hnode, hsiblings⟩, hcross⟩ := distinct_append.mp h
  refine ⟨hnode, ?_⟩
  intro node' hnode'
  exact distinct_append.mpr ⟨hfront, ⟨ha, hnode', hsiblings⟩, hcross⟩

/-! ## The first run -/

/-- The first child, its first child, and so on. -/
def trunk : OrderedTree α → List α
  | nil => []
  | cons a node _ => a :: node.trunk

/-- The node `depth` first children down. -/
def nodeAt : OrderedTree α → Nat → Option (OrderedTree α)
  | t, 0 => some t
  | nil, _ + 1 => none
  | cons _ node _, depth + 1 => node.nodeAt depth

/-- Replace the node `depth` first children down. -/
def setAt : OrderedTree α → Nat → OrderedTree α → OrderedTree α
  | _, 0, u => u
  | nil, _ + 1, _ => nil
  | cons a node siblings, depth + 1, u => cons a (node.setAt depth u) siblings

theorem setAt_nodeAt {t node : OrderedTree α} {depth : Nat}
    (h : t.nodeAt depth = some node) : t.setAt depth node = t := by
  induction t generalizing depth with
  | nil =>
    cases depth with
    | zero => exact (Option.some.inj h).symm
    | succ depth => cases h
  | cons a child siblings ih _ =>
    cases depth with
    | zero => exact (Option.some.inj h).symm
    | succ depth =>
      show cons a (child.setAt depth node) siblings = _
      rw [ih h]

theorem nodeAt_of_lt_trunk {t : OrderedTree α} {depth : Nat}
    (h : depth ≤ t.trunk.length) : ∃ node, t.nodeAt depth = some node := by
  induction t generalizing depth with
  | nil =>
    obtain rfl : depth = 0 := Nat.le_zero.mp h
    exact ⟨nil, rfl⟩
  | cons a child siblings ih _ =>
    cases depth with
    | zero => exact ⟨_, rfl⟩
    | succ depth => exact ih (Nat.le_of_succ_le_succ h)

theorem nil_of_nodeAt {t node : OrderedTree α} {depth : Nat}
    (h : t.nodeAt depth = some node) (hne : node ≠ nil) : t ≠ nil := by
  rintro rfl
  cases depth with
  | zero => exact hne (Option.some.inj h).symm
  | succ depth => cases h

/-- A run is added below the node `depth` first children down. -/
theorem Adds.setAt {t node node' : OrderedTree α} {run : List α} {depth : Nat}
    (h : node.Adds run node') (hat : t.nodeAt depth = some node) (hne : node ≠ nil) :
    t.Adds (t.trunk.take depth ++ run) (t.setAt depth node') := by
  induction t generalizing depth with
  | nil => exact absurd rfl (nil_of_nodeAt hat hne)
  | cons a child siblings ih _ =>
    cases depth with
    | zero =>
      obtain rfl := Option.some.inj hat
      exact h
    | succ depth => exact (ih hat).below (nil_of_nodeAt hat hne) nil a siblings

theorem Distinct.nodeAt {key : α → κ} {t node : OrderedTree α} {depth : Nat}
    (h : t.Distinct key) (hat : t.nodeAt depth = some node) :
    node.Distinct key ∧ ∀ node' : OrderedTree α, node'.Distinct key →
      (t.setAt depth node').Distinct key := by
  induction t generalizing depth with
  | nil =>
    cases depth with
    | zero =>
      obtain rfl := Option.some.inj hat
      exact ⟨h, fun node' h' => h'⟩
    | succ depth => cases hat
  | cons a child siblings ih _ =>
    cases depth with
    | zero =>
      obtain rfl := Option.some.inj hat
      exact ⟨h, fun node' h' => h'⟩
    | succ depth =>
      obtain ⟨hnode, hset⟩ := ih h.2.1 hat
      exact ⟨hnode, fun node' h' => ⟨h.1, hset node' h', h.2.2⟩⟩

end OrderedTree
