import ViEqui.RfscTrace
import ViEqui.Lib.Heap
import ViEqui.Lib.WeakSearch
import Mathlib.Logic.Relation

/-!
# The unfolding tree

`RFSCUnfoldingTree` hands out one node for each parent and source.  A node
holds shared pointers to both, and weak pointers to its children, which are
searched and compacted at each call.

* `RFSCUnfoldingTree`: the nodes in memory, the roots, and the shared pointers
  that all workers hold.  An address is not given out again: the storage of a
  node stays as long as a weak pointer to it does.
* `findUnfoldingNode`: a call, which is atomic under the mutex of its list.
* `Step`: a call, a copy or a release of a shared pointer, and the destruction
  of a node without shared pointers.
* `Inv`: a live node is in one list, that of its parent, and no other live node
  of the list has its source.
* `Denotes`: the causal history of a node, as a value.
* `Inv.eq_iff`, `Step.denotes`: two live nodes are equal when their histories
  are, and a node keeps its history.
-/

namespace ViEqui.Rfsc

open AssocMap Relation

/-- `RFSCUnfoldingTree::UnfoldingNode`.  A pointer is an address, and the
pointers to the children are weak. -/
structure UnfoldingCell where
  parent : Option Nat
  readFrom : Option Nat
  children : List Nat := []
deriving DecidableEq

/-- What has a list of children: the root of a thread, or a node. -/
inductive Siblings where
  | root (cpid : CPid)
  | node (parent : Nat)
deriving DecidableEq

namespace Siblings

/-- The parent of the nodes of the list. -/
def parent : Siblings → Option Nat
  | root _ => none
  | node p => some p

/-- The list that `find_unfolding_node` looks into. -/
def of (cpid : CPid) : Option Nat → Siblings
  | none => root cpid
  | some p => node p

@[simp] theorem parent_of (cpid : CPid) (parent : Option Nat) :
    (of cpid parent).parent = parent := by
  cases parent <;> rfl

theorem of_eq_of_iff (cpid cpid' : CPid) (parent parent' : Option Nat) :
    of cpid parent = of cpid' parent' ↔
      parent = parent' ∧ (parent = none → cpid = cpid') := by
  cases parent <;> cases parent' <;> simp [of]

end Siblings

/-- `RFSCUnfoldingTree`, with the shared pointers that are outside of it. -/
structure RFSCUnfoldingTree where
  nodes : Heap UnfoldingCell := {}
  firstEvents : Map CPid (List Nat) := []
  /-- the shared pointers that are no part of a node, one entry for each -/
  handles : List Nat := []

namespace RFSCUnfoldingTree

/-! ## Operations -/

/-- `use_count() != 0`: a shared pointer to the node exists. -/
def inUse (t : RFSCUnfoldingTree) (a : Nat) : Bool :=
  t.handles.contains a || t.nodes.cells.any fun cell =>
    cell.any fun c => c.parent = some a || c.readFrom = some a

/-- The vector of weak pointers. -/
def kids (t : RFSCUnfoldingTree) : Siblings → List Nat
  | .root cpid => getD t.firstEvents cpid []
  | .node p => ((t.nodes.read p).map UnfoldingCell.children).getD []

def setKids (t : RFSCUnfoldingTree) (o : Siblings) (l : List Nat) : RFSCUnfoldingTree :=
  match o with
  | .root cpid => { t with firstEvents := insert t.firstEvents cpid l }
  | .node p =>
    match t.nodes.read p with
    | some c => { t with nodes := t.nodes.write p { c with children := l } }
    | none => t

/-- `make_shared<UnfoldingNode>`. -/
def make (t : RFSCUnfoldingTree) (parent readFrom : Option Nat) : RFSCUnfoldingTree :=
  { t with
    nodes := t.nodes.alloc { parent, readFrom }
    handles := t.nodes.next :: t.handles }

/-- The search of `get_or_create`. -/
def searchKids (t : RFSCUnfoldingTree) (o : Siblings) (readFrom : Option Nat) :
    List Nat × Option Nat :=
  WeakSearch.search t.inUse
    (fun a => (t.nodes.read a).any fun c => c.readFrom = readFrom)
    (t.kids o).length 0 (t.kids o)

/-- A copy of a shared pointer. -/
def copy (t : RFSCUnfoldingTree) (a : Nat) : RFSCUnfoldingTree :=
  { t with handles := a :: t.handles }

/-- A new node, whose weak pointer is appended to the list. -/
def push (t : RFSCUnfoldingTree) (o : Siblings) (readFrom : Option Nat) :
    RFSCUnfoldingTree :=
  (t.make o.parent readFrom).setKids o (t.kids o ++ [t.nodes.next])

/-- `get_or_create`. -/
def getOrCreate (t : RFSCUnfoldingTree) (o : Siblings) (readFrom : Option Nat) :
    RFSCUnfoldingTree × Nat :=
  let (l, found) := t.searchKids o readFrom
  let t := t.setKids o l
  match found with
  | some a => (t.copy a, a)
  | none => (t.push o readFrom, t.nodes.next)

/-- `find_unfolding_node`.  The result is a shared pointer of the caller. -/
def findUnfoldingNode (t : RFSCUnfoldingTree) (cpid : CPid)
    (parent readFrom : Option Nat) : RFSCUnfoldingTree × Nat :=
  t.getOrCreate (.of cpid parent) readFrom

/-- The arguments of a call are held by shared pointers. -/
structure Callable (t : RFSCUnfoldingTree) (parent readFrom : Option Nat) : Prop where
  parent : ∀ p, parent = some p → t.inUse p
  readFrom : ∀ r, readFrom = some r → t.inUse r

/-- A step of a worker. -/
inductive Step : RFSCUnfoldingTree → RFSCUnfoldingTree → Prop
  | find {t} (cpid : CPid) (parent readFrom : Option Nat)
      (hcall : t.Callable parent readFrom) :
      Step t (t.findUnfoldingNode cpid parent readFrom).1
  /-- A shared pointer is copied. -/
  | copy {t} (a : Nat) (huse : t.inUse a) : Step t (t.copy a)
  /-- A shared pointer is released. -/
  | release {t} (a : Nat) (hheld : a ∈ t.handles) :
      Step t { t with handles := t.handles.erase a }
  /-- A node without shared pointers is destroyed, and its own ones with it. -/
  | destroy {t} (a : Nat) (hdead : ¬ t.inUse a) : Step t { t with nodes := t.nodes.free a }

/-- The states of all runs. -/
inductive Reachable : RFSCUnfoldingTree → Prop
  | initial : Reachable {}
  | step {t t'} : Reachable t → Step t t' → Reachable t'

/-! ## What the operations read and change -/

theorem inUse_iff (t : RFSCUnfoldingTree) (a : Nat) :
    t.inUse a ↔ a ∈ t.handles ∨
      ∃ b c, t.nodes.read b = some c ∧ (c.parent = some a ∨ c.readFrom = some a) := by
  unfold inUse
  rw [Bool.or_eq_true, List.contains_iff_mem, List.any_eq_true]
  refine or_congr_right ⟨?_, ?_⟩
  · intro ⟨cell, hmem, hcell⟩
    obtain ⟨b, hb⟩ := List.getElem?_of_mem hmem
    cases cell with
    | none => cases hcell
    | some c =>
      refine ⟨b, c, ?_, by simpa using hcell⟩
      unfold Heap.read
      rw [hb]
      rfl
  · intro ⟨b, c, hread, hc⟩
    refine ⟨some c, ?_, by simpa using hc⟩
    unfold Heap.read at hread
    cases hcell : t.nodes.cells[b]? with
    | none =>
      rw [hcell] at hread
      cases hread
    | some cell =>
      rw [hcell] at hread
      obtain rfl : cell = some c := hread
      exact List.mem_of_getElem? hcell

theorem read_setKids (t : RFSCUnfoldingTree) (o : Siblings) (l : List Nat) (a : Nat) :
    (t.setKids o l).nodes.read a =
      (t.nodes.read a).map fun c => if o = .node a then { c with children := l } else c := by
  unfold setKids
  cases o with
  | root cpid => cases t.nodes.read a <;> rfl
  | node p =>
    dsimp only
    by_cases hpa : p = a
    · subst hpa
      cases hread : t.nodes.read p with
      | none => simp [hread]
      | some c => simp [Heap.read_write_self _ hread]
    · cases hread : t.nodes.read p with
      | none => simp [hpa]
      | some c =>
        dsimp only
        rw [Heap.read_write_ne _ _ (Ne.symm hpa)]
        simp [hpa]

@[simp] theorem handles_setKids (t : RFSCUnfoldingTree) (o : Siblings) (l : List Nat) :
    (t.setKids o l).handles = t.handles := by
  unfold setKids
  cases o with
  | root cpid => rfl
  | node p =>
    dsimp only
    split <;> rfl

@[simp] theorem next_setKids (t : RFSCUnfoldingTree) (o : Siblings) (l : List Nat) :
    (t.setKids o l).nodes.next = t.nodes.next := by
  unfold setKids
  cases o with
  | root cpid => rfl
  | node p =>
    dsimp only
    split
    · exact Heap.next_write _ _ _
    · rfl

/-- A list is written where it is: at a root, or in a node that exists. -/
def Exists (t : RFSCUnfoldingTree) (o : Siblings) : Prop :=
  ∀ p, o.parent = some p → (t.nodes.read p).isSome

theorem kids_setKids {t : RFSCUnfoldingTree} {o : Siblings} (ho : t.Exists o)
    (l : List Nat) (o' : Siblings) :
    (t.setKids o l).kids o' = if o' = o then l else t.kids o' := by
  cases o' with
  | root cpid' =>
    cases o with
    | root cpid =>
      show getD (insert t.firstEvents cpid l) cpid' [] = _
      rw [getD_insert]
      by_cases h : cpid = cpid'
      · simp [h]
      · simp [h, Ne.symm h, kids]
    | node p =>
      rw [if_neg (by simp)]
      unfold setKids
      dsimp only
      split <;> rfl
  | node p' =>
    show (((t.setKids o l).nodes.read p').map UnfoldingCell.children).getD [] = _
    rw [read_setKids]
    by_cases h : o = .node p'
    · subst h
      obtain ⟨c, hc⟩ := Option.isSome_iff_exists.mp (ho p' rfl)
      simp [hc]
    · rw [if_neg (Ne.symm h)]
      simp only [if_neg h, Option.map_id']
      rfl

@[simp] theorem inUse_setKids (t : RFSCUnfoldingTree) (o : Siblings) (l : List Nat)
    (a : Nat) : (t.setKids o l).inUse a = t.inUse a := by
  rw [Bool.eq_iff_iff, inUse_iff, inUse_iff, handles_setKids]
  refine or_congr_right ⟨?_, ?_⟩
  · intro ⟨b, c, hread, hc⟩
    rw [read_setKids] at hread
    obtain ⟨d, hd, rfl⟩ := Option.map_eq_some_iff.mp hread
    refine ⟨b, d, hd, ?_⟩
    split at hc <;> exact hc
  · intro ⟨b, c, hread, hc⟩
    refine ⟨b, _, by rw [read_setKids, hread]; rfl, ?_⟩
    dsimp only
    split <;> exact hc

theorem inUse_copy (t : RFSCUnfoldingTree) (a b : Nat) :
    (t.copy a).inUse b ↔ b = a ∨ t.inUse b := by
  rw [inUse_iff, inUse_iff]
  show b ∈ a :: t.handles ∨ _ ↔ _
  rw [List.mem_cons, or_assoc]
  rfl

/-! ## The invariant -/

/-- A live node is in one list, that of its parent, and it is the only live one
there with its source. -/
structure Inv (t : RFSCUnfoldingTree) : Prop where
  allocated : ∀ a, t.inUse a → (t.nodes.read a).isSome
  listed : ∀ a c, t.nodes.read a = some c → t.inUse a →
    ∃ o, o.parent = c.parent ∧ a ∈ t.kids o
  old : ∀ o a, a ∈ t.kids o → a < t.nodes.next
  parent : ∀ o a c, a ∈ t.kids o → t.nodes.read a = some c → c.parent = o.parent
  one : ∀ o o' a, a ∈ t.kids o → a ∈ t.kids o' → o = o'
  unique : ∀ o a b c d, a ∈ t.kids o → b ∈ t.kids o → t.inUse a → t.inUse b →
    t.nodes.read a = some c → t.nodes.read b = some d → c.readFrom = d.readFrom → a = b

/-- `t'` has no node that `t` has not, and the live nodes are where they were. -/
structure Shrinks (t t' : RFSCUnfoldingTree) : Prop where
  next : t'.nodes.next = t.nodes.next
  inUse : ∀ a, t'.inUse a → t.inUse a
  cells : ∀ a c, t.nodes.read a = some c → t'.inUse a →
    ∃ l, t'.nodes.read a = some { c with children := l }
  source : ∀ a c, t'.nodes.read a = some c →
    ∃ l, t.nodes.read a = some { c with children := l }
  kids : ∀ o a, a ∈ t'.kids o → a ∈ t.kids o
  live : ∀ o a, a ∈ t.kids o → t'.inUse a → a ∈ t'.kids o

theorem Inv.shrinks {t t' : RFSCUnfoldingTree} (h : t.Inv) (hs : Shrinks t t') : t'.Inv where
  allocated a ha := by
    obtain ⟨c, hc⟩ := Option.isSome_iff_exists.mp (h.allocated a (hs.inUse a ha))
    obtain ⟨l, hl⟩ := hs.cells a c hc ha
    rw [hl]
    rfl
  listed a c hc ha := by
    obtain ⟨l, hl⟩ := hs.source a c hc
    obtain ⟨o, ho, hmem⟩ := h.listed a _ hl (hs.inUse a ha)
    exact ⟨o, ho, hs.live o a hmem ha⟩
  old o a ha := by
    rw [hs.next]
    exact h.old o a (hs.kids o a ha)
  parent o a c ha hc := by
    obtain ⟨l, hl⟩ := hs.source a c hc
    exact h.parent o a { c with children := l } (hs.kids o a ha) hl
  one o o' a ha ha' := h.one o o' a (hs.kids o a ha) (hs.kids o' a ha')
  unique o a b c d ha hb hua hub hc hd heq := by
    obtain ⟨l, hl⟩ := hs.source a c hc
    obtain ⟨m, hm⟩ := hs.source b d hd
    exact h.unique o a b _ _ (hs.kids o a ha) (hs.kids o b hb) (hs.inUse a hua)
      (hs.inUse b hub) hl hm heq

/-- A list that exists may lose what is dead. -/
theorem shrinks_setKids {t : RFSCUnfoldingTree} {o : Siblings} (ho : t.Exists o)
    {l : List Nat} (hsub : ∀ a ∈ l, a ∈ t.kids o)
    (hlive : ∀ a ∈ t.kids o, t.inUse a → a ∈ l) : Shrinks t (t.setKids o l) where
  next := next_setKids t o l
  inUse a ha := by rwa [inUse_setKids] at ha
  cells a c hc _ := by
    refine ⟨if o = .node a then l else c.children, ?_⟩
    rw [read_setKids, hc]
    show some (if o = .node a then { c with children := l } else c) = _
    split <;> rfl
  source a c hc := by
    rw [read_setKids] at hc
    obtain ⟨d, hd, rfl⟩ := Option.map_eq_some_iff.mp hc
    refine ⟨d.children, ?_⟩
    rw [hd]
    split <;> rfl
  kids o' a ha := by
    rw [kids_setKids ho] at ha
    split at ha
    · next heq => exact heq ▸ hsub a ha
    · exact ha
  live o' a ha hua := by
    rw [inUse_setKids] at hua
    rw [kids_setKids ho]
    split
    · next heq => exact hlive a (heq ▸ ha) hua
    · exact ha

/-- Shared pointers outside of the nodes come from those that exist, and go. -/
theorem shrinks_handles {t t' : RFSCUnfoldingTree} (hnodes : t'.nodes = t.nodes)
    (hfirst : t'.firstEvents = t.firstEvents) (huse : ∀ a, t'.inUse a → t.inUse a) :
    Shrinks t t' where
  next := by rw [hnodes]
  inUse := huse
  cells a c hc _ := ⟨c.children, by rw [hnodes, hc]⟩
  source a c hc := ⟨c.children, by rw [← hnodes, hc]⟩
  kids o a ha := by
    unfold RFSCUnfoldingTree.kids at ha ⊢
    rwa [hnodes, hfirst] at ha
  live o a ha _ := by
    unfold RFSCUnfoldingTree.kids at ha ⊢
    rwa [hnodes, hfirst]

theorem shrinks_copy {t : RFSCUnfoldingTree} {a : Nat} (ha : t.inUse a) :
    Shrinks t (t.copy a) := by
  refine shrinks_handles rfl rfl fun b hb => ?_
  rcases (inUse_copy t a b).mp hb with rfl | hb
  · exact ha
  · exact hb

theorem shrinks_release (t : RFSCUnfoldingTree) (a : Nat) :
    Shrinks t { t with handles := t.handles.erase a } := by
  refine shrinks_handles rfl rfl fun b hb => ?_
  rw [inUse_iff] at hb ⊢
  exact hb.imp_left List.mem_of_mem_erase

/-- A node that is destroyed takes its list with it: its children hold shared
pointers to it, so none of them is alive. -/
theorem Inv.shrinks_destroy {t : RFSCUnfoldingTree} (h : t.Inv) {a : Nat}
    (hdead : ¬ t.inUse a) : Shrinks t { t with nodes := t.nodes.free a } := by
  have hread : ∀ b c, (t.nodes.free a).read b = some c → t.nodes.read b = some c := by
    intro b c hb
    by_cases hba : b = a
    · subst hba
      rw [Heap.read_free_self] at hb
      cases hb
    · rwa [Heap.read_free_ne _ hba] at hb
  have huse : ∀ b, RFSCUnfoldingTree.inUse { t with nodes := t.nodes.free a } b → t.inUse b := by
    intro b hb
    rw [inUse_iff] at hb ⊢
    exact hb.imp_right fun ⟨d, c, hd, hc⟩ => ⟨d, c, hread d c hd, hc⟩
  have hne : ∀ b, t.inUse b → b ≠ a := fun b hb heq => hdead (heq ▸ hb)
  constructor
  · exact Heap.next_free _ _
  · exact huse
  · intro b c hb hub
    refine ⟨c.children, ?_⟩
    show (t.nodes.free a).read b = _
    rw [Heap.read_free_ne _ (hne b (huse b hub)), hb]
  · exact fun b c hb => ⟨c.children, hread b c hb⟩
  · intro o b hb
    cases o with
    | root cpid => exact hb
    | node p =>
      by_cases hpa : p = a
      · subst hpa
        unfold RFSCUnfoldingTree.kids at hb
        dsimp only at hb
        rw [Heap.read_free_self] at hb
        cases hb
      · unfold RFSCUnfoldingTree.kids at hb ⊢
        dsimp only at hb ⊢
        rwa [Heap.read_free_ne _ hpa] at hb
  · intro o b hb hub
    cases o with
    | root cpid => exact hb
    | node p =>
      have hpa : p ≠ a := by
        obtain ⟨c, hc⟩ := Option.isSome_iff_exists.mp (h.allocated b (huse b hub))
        have hparent : c.parent = some p := h.parent _ b c hb hc
        exact hne p ((inUse_iff t p).mpr (Or.inr ⟨b, c, hc, Or.inl hparent⟩))
      unfold RFSCUnfoldingTree.kids at hb ⊢
      dsimp only at hb ⊢
      rwa [Heap.read_free_ne _ hpa]

/-! ## A new node -/

section Push

variable {t : RFSCUnfoldingTree} {o : Siblings} {readFrom : Option Nat}

theorem Inv.exists (h : t.Inv) (ho : ∀ p, o.parent = some p → t.inUse p) : t.Exists o :=
  fun p hp => h.allocated p (ho p hp)

theorem read_push (ho : t.Exists o) (a : Nat) :
    (t.push o readFrom).nodes.read a =
      if a = t.nodes.next then some { parent := o.parent, readFrom }
      else (t.nodes.read a).map fun c =>
        if o = .node a then { c with children := t.kids o ++ [t.nodes.next] } else c := by
  unfold push make
  rw [read_setKids, Heap.read_alloc]
  by_cases ha : a = t.nodes.next
  · subst ha
    have hne : o ≠ .node t.nodes.next := by
      intro heq
      have hsome := ho t.nodes.next (by rw [heq]; rfl)
      rw [Heap.read_next] at hsome
      cases hsome
    rw [if_pos rfl, if_pos rfl, Option.map_some, if_neg hne]
  · rw [if_neg ha, if_neg ha]

theorem kids_push (ho : t.Exists o) (o' : Siblings) :
    (t.push o readFrom).kids o' =
      if o' = o then t.kids o ++ [t.nodes.next] else t.kids o' := by
  have hexists : (t.make o.parent readFrom).Exists o := by
    intro p hp
    obtain ⟨c, hc⟩ := Option.isSome_iff_exists.mp (ho p hp)
    show ((t.nodes.alloc _).read p).isSome
    rw [Heap.read_alloc_of_read _ hc]
    rfl
  unfold push
  rw [kids_setKids hexists]
  split
  · rfl
  · cases o' with
    | root cpid => rfl
    | node p =>
      show (((t.nodes.alloc _).read p).map UnfoldingCell.children).getD [] =
        ((t.nodes.read p).map UnfoldingCell.children).getD []
      rw [Heap.read_alloc]
      split
      · next heq =>
        rw [heq, Heap.read_next]
        rfl
      · rfl

theorem inUse_push (ho : ∀ p, o.parent = some p → t.inUse p)
    (hr : ∀ r, readFrom = some r → t.inUse r) (a : Nat) :
    (t.push o readFrom).inUse a ↔ a = t.nodes.next ∨ t.inUse a := by
  unfold push
  rw [inUse_setKids, inUse_iff]
  constructor
  · intro ha
    rcases ha with ha | ⟨b, c, hread, hc⟩
    · rcases List.mem_cons.mp ha with rfl | ha
      · exact Or.inl rfl
      · exact Or.inr ((inUse_iff t a).mpr (Or.inl ha))
    · refine Or.inr ?_
      unfold make at hread
      rw [Heap.read_alloc] at hread
      split at hread
      · cases hread
        rcases hc with hc | hc
        · exact ho a hc
        · exact hr a hc
      · exact (inUse_iff t a).mpr (Or.inr ⟨b, c, hread, hc⟩)
  · intro ha
    rcases ha with rfl | ha
    · exact Or.inl List.mem_cons_self
    · rcases (inUse_iff t a).mp ha with ha | ⟨b, c, hread, hc⟩
      · exact Or.inl (List.mem_cons_of_mem _ ha)
      · exact Or.inr ⟨b, c, Heap.read_alloc_of_read _ hread, hc⟩

/-- A list gets a new node when no live one in it has the source. -/
theorem Inv.push (h : t.Inv) (ho : ∀ p, o.parent = some p → t.inUse p)
    (hr : ∀ r, readFrom = some r → t.inUse r)
    (hmiss : ∀ a c, a ∈ t.kids o → t.inUse a → t.nodes.read a = some c →
      c.readFrom ≠ readFrom) : (t.push o readFrom).Inv := by
  have hexists := h.exists ho
  have huse := inUse_push ho hr
  have hread : ∀ a, (t.push o readFrom).nodes.read a =
      if a = t.nodes.next then some { parent := o.parent, readFrom }
      else (t.nodes.read a).map fun c =>
        if o = .node a then { c with children := t.kids o ++ [t.nodes.next] } else c :=
    read_push hexists
  have hkids : ∀ o' a, a ∈ (t.push o readFrom).kids o' ↔
      a ∈ t.kids o' ∨ a = t.nodes.next ∧ o' = o := by
    intro o' a
    rw [kids_push hexists]
    split
    · next heq => simp [heq]
    · next hne => simp [hne]
  -- the new address was in no list, and reads nothing before
  have hnew : ∀ o' a, a ∈ t.kids o' → a ≠ t.nodes.next :=
    fun o' a ha => Nat.ne_of_lt (h.old o' a ha)
  have hcell : ∀ a c, (t.push o readFrom).nodes.read a = some c → a ≠ t.nodes.next →
      ∃ l, t.nodes.read a = some { c with children := l } := by
    intro a c hc ha
    rw [hread, if_neg ha] at hc
    obtain ⟨d, hd, rfl⟩ := Option.map_eq_some_iff.mp hc
    refine ⟨d.children, ?_⟩
    rw [hd]
    split <;> rfl
  have hnext : ∀ c, (t.push o readFrom).nodes.read t.nodes.next = some c →
      c.parent = o.parent ∧ c.readFrom = readFrom := by
    intro c hc
    rw [hread, if_pos rfl] at hc
    cases hc
    exact ⟨rfl, rfl⟩
  have hold : ∀ a, (t.push o readFrom).inUse a → a ≠ t.nodes.next → t.inUse a :=
    fun a ha hne => ((huse a).mp ha).resolve_left hne
  constructor
  · intro a ha
    rw [hread]
    split
    · rfl
    · next hne =>
      rw [Option.isSome_map]
      exact h.allocated a (hold a ha hne)
  · intro a c hc ha
    by_cases hne : a = t.nodes.next
    · subst hne
      exact ⟨o, (hnext c hc).1.symm, (hkids o _).mpr (Or.inr ⟨rfl, rfl⟩)⟩
    · obtain ⟨l, hl⟩ := hcell a c hc hne
      obtain ⟨o', ho', hmem⟩ := h.listed a _ hl (hold a ha hne)
      exact ⟨o', ho', (hkids o' a).mpr (Or.inl hmem)⟩
  · intro o' a ha
    show a < ((t.make o.parent readFrom).setKids o _).nodes.next
    rw [next_setKids, make, Heap.next_alloc]
    rcases (hkids o' a).mp ha with ha | ⟨rfl, _⟩
    · exact Nat.lt_succ_of_lt (h.old o' a ha)
    · exact Nat.lt_succ_self _
  · intro o' a c ha hc
    rcases (hkids o' a).mp ha with ha | ⟨rfl, rfl⟩
    · obtain ⟨l, hl⟩ := hcell a c hc (hnew o' a ha)
      exact h.parent o' a { c with children := l } ha hl
    · exact (hnext c hc).1
  · intro o₁ o₂ a ha ha'
    rcases (hkids o₁ a).mp ha with ha | ⟨rfl, rfl⟩
    · rcases (hkids o₂ a).mp ha' with ha' | ⟨heq, _⟩
      · exact h.one o₁ o₂ a ha ha'
      · exact absurd heq (hnew o₁ a ha)
    · rcases (hkids o₂ _).mp ha' with ha' | ⟨_, heq⟩
      · exact absurd rfl (hnew o₂ _ ha')
      · exact heq.symm
  · intro o' a b c d ha hb hua hub hc hd heq
    rcases (hkids o' a).mp ha with hmema | ⟨rfl, ho'⟩
    · obtain ⟨l, hl⟩ := hcell a c hc (hnew o' a hmema)
      have hua' := hold a hua (hnew o' a hmema)
      rcases (hkids o' b).mp hb with hmemb | ⟨rfl, ho'⟩
      · obtain ⟨m, hm⟩ := hcell b d hd (hnew o' b hmemb)
        exact h.unique o' a b _ _ hmema hmemb hua' (hold b hub (hnew o' b hmemb)) hl hm heq
      · exact absurd (heq.trans (hnext d hd).2)
          (hmiss a { c with children := l } (ho' ▸ hmema) hua' hl)
    · rcases (hkids o' b).mp hb with hmemb | ⟨rfl, _⟩
      · obtain ⟨m, hm⟩ := hcell b d hd (hnew o' b hmemb)
        exact absurd (heq.symm.trans (hnext c hc).2)
          (hmiss b { d with children := m } (ho' ▸ hmemb)
            (hold b hub (hnew o' b hmemb)) hm)
      · rfl

end Push

/-! ## Calls -/

/-- The list is compacted first.  Then its node with the source is returned, or
a new node is appended. -/
theorem Inv.getOrCreate_cases {t : RFSCUnfoldingTree} (h : t.Inv) {o : Siblings}
    (readFrom : Option Nat) (ho : ∀ p, o.parent = some p → t.inUse p) :
    ∃ t₁, Shrinks t t₁ ∧ (∀ a, t.inUse a → t₁.inUse a) ∧
      ((∃ a c, t.getOrCreate o readFrom = (t₁.copy a, a) ∧ a ∈ t₁.kids o ∧ t₁.inUse a ∧
          t₁.nodes.read a = some c ∧ c.readFrom = readFrom) ∨
        t.getOrCreate o readFrom = (t₁.push o readFrom, t₁.nodes.next) ∧
          ∀ a c, a ∈ t₁.kids o → t₁.inUse a → t₁.nodes.read a = some c →
            c.readFrom ≠ readFrom) := by
  have hsearch := WeakSearch.search_spec t.inUse
    (fun a => (t.nodes.read a).any fun c => c.readFrom = readFrom) (t.kids o)
  change WeakSearch.Searched _ _ _ (t.searchKids o readFrom) at hsearch
  have hexists := h.exists ho
  have hshrinks := shrinks_setKids hexists hsearch.subset hsearch.keeps
  have huse : ∀ a, t.inUse a → (t.setKids o (t.searchKids o readFrom).1).inUse a := by
    intro a ha
    rwa [inUse_setKids]
  refine ⟨t.setKids o (t.searchKids o readFrom).1, hshrinks, huse, ?_⟩
  unfold RFSCUnfoldingTree.getOrCreate
  dsimp only
  split
  · next a ha =>
    obtain ⟨hmem, halive, hfound⟩ := hsearch.hit a ha
    obtain ⟨c, hc⟩ := Option.isSome_iff_exists.mp (h.allocated a halive)
    have heq : c.readFrom = readFrom := by
      rw [hc] at hfound
      simpa using hfound
    obtain ⟨l, hl⟩ := hshrinks.cells a c hc (huse a halive)
    exact Or.inl ⟨a, _, rfl, hshrinks.live o a hmem (huse a halive), huse a halive, hl, heq⟩
  · next hnone =>
    refine Or.inr ⟨rfl, fun a c hmem halive hc heq => ?_⟩
    obtain ⟨l, hl⟩ := hshrinks.source a c hc
    refine hsearch.miss hnone a (hshrinks.kids o a hmem) (hshrinks.inUse a halive) ?_
    rw [hl]
    simpa using heq

/-- The node `a` is alive, in the list `o`, and has the source. -/
structure Keyed (t : RFSCUnfoldingTree) (a : Nat) (o : Siblings)
    (readFrom : Option Nat) : Prop where
  inUse : t.inUse a
  mem : a ∈ t.kids o
  cell : ∃ c, t.nodes.read a = some c ∧ c.readFrom = readFrom

/-- A live node is named by its list and its source. -/
theorem Inv.eq_iff_keys {t : RFSCUnfoldingTree} (h : t.Inv) {a b : Nat} {o o' : Siblings}
    {readFrom readFrom' : Option Nat} (ha : t.Keyed a o readFrom)
    (hb : t.Keyed b o' readFrom') : a = b ↔ o = o' ∧ readFrom = readFrom' := by
  obtain ⟨c, hc, hcr⟩ := ha.cell
  obtain ⟨d, hd, hdr⟩ := hb.cell
  constructor
  · intro heq
    subst heq
    rw [hc] at hd
    cases hd
    exact ⟨h.one o o' a ha.mem hb.mem, hcr.symm.trans hdr⟩
  · intro ⟨ho, hr⟩
    subst ho hr
    exact h.unique o a b c d ha.mem hb.mem ha.inUse hb.inUse hc hd (hcr.trans hdr.symm)

theorem Inv.findUnfoldingNode {t : RFSCUnfoldingTree} (h : t.Inv) (cpid : CPid)
    {parent readFrom : Option Nat} (hcall : t.Callable parent readFrom) :
    (t.findUnfoldingNode cpid parent readFrom).1.Inv ∧
      (t.findUnfoldingNode cpid parent readFrom).1.Keyed
        (t.findUnfoldingNode cpid parent readFrom).2 (.of cpid parent) readFrom := by
  have hparent : ∀ p, (Siblings.of cpid parent).parent = some p → t.inUse p := by
    rw [Siblings.parent_of]
    exact hcall.parent
  unfold RFSCUnfoldingTree.findUnfoldingNode
  obtain ⟨t₁, hshrinks, huse, hcase⟩ := h.getOrCreate_cases readFrom hparent
  have h₁ := h.shrinks hshrinks
  rcases hcase with ⟨a, c, heq, hmem, halive, hc, hcr⟩ | ⟨heq, hmiss⟩
  · rw [heq]
    refine ⟨h₁.shrinks (shrinks_copy halive), ?_, hmem, c, hc, hcr⟩
    exact (inUse_copy t₁ a a).mpr (Or.inl rfl)
  · have hp := fun p hp => huse p (hparent p hp)
    have hr := fun r hr => huse r (hcall.readFrom r hr)
    rw [heq]
    refine ⟨h₁.push hp hr hmiss, (inUse_push hp hr _).mpr (Or.inl rfl), ?_, ?_⟩
    · show t₁.nodes.next ∈ (t₁.push _ readFrom).kids _
      rw [kids_push (h₁.exists hp), if_pos rfl]
      exact List.mem_append_right _ List.mem_cons_self
    · refine ⟨{ parent := (Siblings.of cpid parent).parent, readFrom }, ?_, rfl⟩
      show (t₁.push _ readFrom).nodes.read t₁.nodes.next = _
      rw [read_push (h₁.exists hp), if_pos rfl]

theorem Step.inv {t t' : RFSCUnfoldingTree} (hstep : Step t t') (h : t.Inv) : t'.Inv := by
  cases hstep with
  | find cpid parent readFrom hcall => exact (h.findUnfoldingNode cpid hcall).1
  | copy a huse => exact h.shrinks (shrinks_copy huse)
  | release a hheld => exact h.shrinks (shrinks_release t a)
  | destroy a hdead => exact h.shrinks (h.shrinks_destroy hdead)

theorem inv_initial : Inv {} := by
  have hempty : ∀ o a, a ∉ kids {} o := by
    intro o a ha
    cases o <;> cases ha
  exact ⟨nofun, nofun, fun o a ha => absurd ha (hempty o a),
    fun o a c ha => absurd ha (hempty o a), fun o o' a ha => absurd ha (hempty o a),
    fun o a b c d ha => absurd ha (hempty o a)⟩

theorem Reachable.inv {t : RFSCUnfoldingTree} (h : Reachable t) : t.Inv := by
  induction h with
  | initial => exact inv_initial
  | step _ hstep ih => exact hstep.inv ih

/-! ## What a step leaves of a node -/

/-- A node that is alive behind a step is the one that was there. -/
structure Kept (t t' : RFSCUnfoldingTree) (o : Siblings) (a : Nat) : Prop where
  inUse : t.inUse a
  mem : a ∈ t'.kids o
  cell : ∀ c, t.nodes.read a = some c → ∃ l, t'.nodes.read a = some { c with children := l }

theorem Shrinks.kept {t t' : RFSCUnfoldingTree} (h : Shrinks t t') {o : Siblings} {a : Nat}
    (hmem : a ∈ t.kids o) (ha : t'.inUse a) : Kept t t' o a :=
  ⟨h.inUse a ha, h.live o a hmem ha, fun c hc => h.cells a c hc ha⟩

theorem Kept.trans {t t₁ t' : RFSCUnfoldingTree} {o : Siblings} {a : Nat}
    (h : Kept t t₁ o a) (h' : Kept t₁ t' o a) : Kept t t' o a where
  inUse := h.inUse
  mem := h'.mem
  cell c hc := by
    obtain ⟨l, hl⟩ := h.cell c hc
    exact h'.cell { c with children := l } hl

theorem Step.kept {t t' : RFSCUnfoldingTree} (hstep : Step t t') (h : t.Inv) {o : Siblings}
    {a : Nat} (hmem : a ∈ t.kids o) (ha : t'.inUse a) : Kept t t' o a := by
  cases hstep with
  | find cpid parent readFrom hcall =>
    have hparent : ∀ p, (Siblings.of cpid parent).parent = some p → t.inUse p := by
      rw [Siblings.parent_of]
      exact hcall.parent
    unfold RFSCUnfoldingTree.findUnfoldingNode at ha ⊢
    obtain ⟨t₁, hshrinks, huse, hcase⟩ := h.getOrCreate_cases readFrom hparent
    have h₁ := h.shrinks hshrinks
    rcases hcase with ⟨b, c, heq, _, halive, _, _⟩ | ⟨heq, _⟩
    · rw [heq] at ha ⊢
      have ha₁ := (shrinks_copy halive).inUse a ha
      have hkept := hshrinks.kept hmem ha₁
      exact hkept.trans ((shrinks_copy halive).kept hkept.mem ha)
    · have hp := fun p hp => huse p (hparent p hp)
      have hr := fun r hr => huse r (hcall.readFrom r hr)
      rw [heq] at ha ⊢
      have hne : a ≠ t₁.nodes.next := by
        rw [hshrinks.next]
        exact Nat.ne_of_lt (h.old o a hmem)
      have ha₁ := ((inUse_push hp hr a).mp ha).resolve_left hne
      have hkept := hshrinks.kept hmem ha₁
      refine hkept.trans ⟨ha₁, ?_, fun c hc => ?_⟩
      · show a ∈ (t₁.push _ readFrom).kids o
        rw [kids_push (h₁.exists hp)]
        split
        · next heq => exact List.mem_append_left _ (heq ▸ hkept.mem)
        · exact hkept.mem
      · refine ⟨if Siblings.of cpid parent = .node a then
          t₁.kids (.of cpid parent) ++ [t₁.nodes.next] else c.children, ?_⟩
        show (t₁.push _ readFrom).nodes.read a = _
        rw [read_push (h₁.exists hp), if_neg hne, hc]
        show some (if Siblings.of cpid parent = .node a then _ else c) = _
        split <;> rfl
  | copy b huse => exact (shrinks_copy huse).kept hmem ha
  | release b hheld => exact (shrinks_release t b).kept hmem ha
  | destroy b hdead => exact (h.shrinks_destroy hdead).kept hmem ha

theorem Keyed.step {t t' : RFSCUnfoldingTree} {a : Nat} {o : Siblings}
    {readFrom : Option Nat} (hkey : t.Keyed a o readFrom) (h : t.Inv) (hstep : Step t t')
    (ha : t'.inUse a) : t'.Keyed a o readFrom := by
  have hkept := hstep.kept h hkey.mem ha
  obtain ⟨c, hc, hr⟩ := hkey.cell
  obtain ⟨l, hl⟩ := hkept.cell c hc
  exact ⟨ha, hkept.mem, _, hl, hr⟩

/-- A step behind which `a` is alive. -/
def StepAlive (a : Nat) (t t' : RFSCUnfoldingTree) : Prop := Step t t' ∧ t'.inUse a

/-- A node keeps its list and its source as long as it is alive. -/
theorem Keyed.run {t t' : RFSCUnfoldingTree} {a : Nat} {o : Siblings}
    {readFrom : Option Nat} (hkey : t.Keyed a o readFrom) (h : t.Inv)
    (hrun : ReflTransGen (StepAlive a) t t') : t'.Inv ∧ t'.Keyed a o readFrom := by
  induction hrun with
  | refl => exact ⟨h, hkey⟩
  | tail _ hstep ih => exact ⟨hstep.1.inv ih.1, ih.2.step ih.1 hstep.1 hstep.2⟩

/-! ## Histories -/

/-- The causal history of a node, or of a null pointer: its thread, and the
histories of its predecessors and of what they read. -/
inductive Denotes (t : RFSCUnfoldingTree) : Option Nat → UnfoldingNode → Prop
  | null : Denotes t none .null
  | first {a : Nat} {cpid : CPid} {c : UnfoldingCell} {u : UnfoldingNode}
      (hmem : a ∈ t.kids (.root cpid)) (hcell : t.nodes.read a = some c)
      (hreadFrom : Denotes t c.readFrom u) : Denotes t (some a) (.first cpid u)
  | next {a p : Nat} {c : UnfoldingCell} {u v : UnfoldingNode}
      (hmem : a ∈ t.kids (.node p)) (hcell : t.nodes.read a = some c)
      (hparent : Denotes t (some p) u) (hreadFrom : Denotes t c.readFrom v) :
      Denotes t (some a) (.next u v)

/-- What a node refers to is alive. -/
theorem inUse_readFrom {t : RFSCUnfoldingTree} {a b : Nat} {c : UnfoldingCell}
    (hcell : t.nodes.read a = some c) (hb : c.readFrom = some b) : t.inUse b :=
  (inUse_iff t b).mpr (Or.inr ⟨a, c, hcell, Or.inr hb⟩)

theorem Inv.inUse_parent {t : RFSCUnfoldingTree} (h : t.Inv) {a p : Nat} {c : UnfoldingCell}
    (hmem : a ∈ t.kids (.node p)) (hcell : t.nodes.read a = some c) : t.inUse p :=
  (inUse_iff t p).mpr (Or.inr ⟨a, c, hcell, Or.inl (h.parent _ a c hmem hcell)⟩)

/-- A node has one history. -/
theorem Denotes.functional {t : RFSCUnfoldingTree} (h : t.Inv) {x : Option Nat}
    {u v : UnfoldingNode} (hu : t.Denotes x u) (hv : t.Denotes x v) : u = v := by
  induction hu generalizing v with
  | null =>
    cases hv
    rfl
  | first hmem hcell _ ih =>
    cases hv with
    | first hmem' hcell' hr =>
      rw [hcell] at hcell'
      cases hcell'
      cases h.one _ _ _ hmem hmem'
      rw [ih hr]
    | next hmem' => cases h.one _ _ _ hmem hmem'
  | next hmem hcell _ _ ihp ihr =>
    cases hv with
    | first hmem' => cases h.one _ _ _ hmem hmem'
    | next hmem' hcell' hp hr =>
      rw [hcell] at hcell'
      cases hcell'
      cases h.one _ _ _ hmem hmem'
      rw [ihp hp, ihr hr]

/-- Live nodes with one history are one node. -/
theorem Denotes.injective {t : RFSCUnfoldingTree} (h : t.Inv) {x y : Option Nat}
    {u : UnfoldingNode} (hx : t.Denotes x u) (hy : t.Denotes y u)
    (hux : ∀ a, x = some a → t.inUse a) (huy : ∀ a, y = some a → t.inUse a) : x = y := by
  induction hx generalizing y with
  | null =>
    cases hy
    rfl
  | first hmem hcell _ ih =>
    cases hy with
    | first hmem' hcell' hr =>
      have heq := ih hr (fun b => inUse_readFrom hcell) (fun b => inUse_readFrom hcell')
      rw [h.unique _ _ _ _ _ hmem hmem' (hux _ rfl) (huy _ rfl) hcell hcell' heq]
  | next hmem hcell _ _ ihp ihr =>
    cases hy with
    | next hmem' hcell' hp hr =>
      have hparent := ihp hp
        (fun b hb => Option.some.inj hb ▸ h.inUse_parent hmem hcell)
        (fun b hb => Option.some.inj hb ▸ h.inUse_parent hmem' hcell')
      cases hparent
      have heq := ihr hr (fun b => inUse_readFrom hcell) (fun b => inUse_readFrom hcell')
      rw [h.unique _ _ _ _ _ hmem hmem' (hux _ rfl) (huy _ rfl) hcell hcell' heq]

/-- A node that stays alive keeps its history. -/
theorem Step.denotes {t t' : RFSCUnfoldingTree} (hstep : Step t t') (h : t.Inv)
    {x : Option Nat} {u : UnfoldingNode} (hx : t.Denotes x u)
    (hux : ∀ a, x = some a → t'.inUse a) : t'.Denotes x u := by
  have h' := hstep.inv h
  induction hx with
  | null => exact .null
  | first hmem hcell _ ih =>
    have hkept := hstep.kept h hmem (hux _ rfl)
    obtain ⟨l, hl⟩ := hkept.cell _ hcell
    exact .first hkept.mem hl (ih fun b hb => inUse_readFrom hl hb)
  | next hmem hcell _ _ ihp ihr =>
    have hkept := hstep.kept h hmem (hux _ rfl)
    obtain ⟨l, hl⟩ := hkept.cell _ hcell
    refine .next hkept.mem hl (ihp fun b hb => ?_) (ihr fun b hb => inUse_readFrom hl hb)
    exact Option.some.inj hb ▸ h'.inUse_parent hkept.mem hl

/-- A shared pointer that is used behind a step was used before, or it is the
result of a call. -/
theorem Step.inUse_or {t t' : RFSCUnfoldingTree} (hstep : Step t t') (h : t.Inv) {a : Nat}
    (ha : t'.inUse a) : t.inUse a ∨
      ∃ cpid parent readFrom, t.Callable parent readFrom ∧
        t' = (t.findUnfoldingNode cpid parent readFrom).1 ∧
        a = (t.findUnfoldingNode cpid parent readFrom).2 := by
  cases hstep with
  | find cpid parent readFrom hcall =>
    have hparent : ∀ p, (Siblings.of cpid parent).parent = some p → t.inUse p := by
      rw [Siblings.parent_of]
      exact hcall.parent
    have hcall' : t.findUnfoldingNode cpid parent readFrom =
        t.getOrCreate (.of cpid parent) readFrom := rfl
    obtain ⟨t₁, hshrinks, huse, hcase⟩ := h.getOrCreate_cases readFrom hparent
    rcases hcase with ⟨b, c, heq, _, halive, _, _⟩ | ⟨heq, _⟩
    · rw [hcall', heq] at ha
      exact Or.inl (hshrinks.inUse a ((shrinks_copy halive).inUse a ha))
    · have hp := fun p hp => huse p (hparent p hp)
      have hr := fun r hr => huse r (hcall.readFrom r hr)
      rw [hcall', heq] at ha
      rcases (inUse_push hp hr a).mp ha with hnew | ha
      · refine Or.inr ⟨cpid, parent, readFrom, hcall, rfl, ?_⟩
        rw [hcall', heq]
        exact hnew
      · exact Or.inl (hshrinks.inUse a ha)
  | copy b huse => exact Or.inl ((shrinks_copy huse).inUse a ha)
  | release b hheld => exact Or.inl ((shrinks_release t b).inUse a ha)
  | destroy b hdead => exact Or.inl ((h.shrinks_destroy hdead).inUse a ha)

/-- A call returns the node of the history that its arguments give it. -/
theorem Inv.denotes_find {t : RFSCUnfoldingTree} (h : t.Inv) {cpid : CPid}
    {parent readFrom : Option Nat} (hcall : t.Callable parent readFrom)
    {u v : UnfoldingNode} (hparent : t.Denotes parent u) (hreadFrom : t.Denotes readFrom v) :
    (t.findUnfoldingNode cpid parent readFrom).1.Denotes
      (some (t.findUnfoldingNode cpid parent readFrom).2) (.find cpid u v) := by
  have hstep : Step t (t.findUnfoldingNode cpid parent readFrom).1 := .find _ _ _ hcall
  obtain ⟨h', hkey⟩ := h.findUnfoldingNode cpid hcall
  obtain ⟨c, hc, hr⟩ := hkey.cell
  have hv : (t.findUnfoldingNode cpid parent readFrom).1.Denotes c.readFrom v :=
    hstep.denotes h (hr.symm ▸ hreadFrom) fun b hb => inUse_readFrom hc hb
  have hmem := hkey.mem
  cases parent with
  | none =>
    cases hparent
    exact .first hmem hc hv
  | some p =>
    have hu := hstep.denotes h hparent
      fun b hb => Option.some.inj hb ▸ h'.inUse_parent hmem hc
    cases hparent <;> exact .next hmem hc hu hv

/-- Every live node has a history. -/
theorem Reachable.denotes {t : RFSCUnfoldingTree} (h : Reachable t) (a : Nat)
    (ha : t.inUse a) : ∃ u, t.Denotes (some a) u := by
  induction h generalizing a with
  | initial => cases ha
  | @step t t' h hstep ih =>
    have hpointer : ∀ x : Option Nat, (∀ b, x = some b → t.inUse b) → ∃ u, t.Denotes x u := by
      intro x hx
      cases x with
      | none => exact ⟨.null, .null⟩
      | some b => exact ih b (hx b rfl)
    rcases hstep.inUse_or h.inv ha with hold | ⟨cpid, parent, readFrom, hcall, rfl, rfl⟩
    · obtain ⟨u, hu⟩ := ih a hold
      exact ⟨u, hstep.denotes h.inv hu fun b hb => Option.some.inj hb ▸ ha⟩
    · obtain ⟨u, hu⟩ := hpointer parent hcall.parent
      obtain ⟨v, hv⟩ := hpointer readFrom hcall.readFrom
      exact ⟨_, h.inv.denotes_find hcall hu hv⟩

/-! ## Identity of nodes -/

/-- The live nodes and their histories are in correspondence. -/
structure IdentifiesHistories (t : RFSCUnfoldingTree) : Prop where
  history : ∀ a, t.inUse a → ∃ u, t.Denotes (some a) u
  eq_iff : ∀ a b u v, t.inUse a → t.inUse b → t.Denotes (some a) u →
    t.Denotes (some b) v → (a = b ↔ u = v)

theorem Reachable.identifiesHistories {t : RFSCUnfoldingTree} (h : Reachable t) :
    t.IdentifiesHistories where
  history := h.denotes
  eq_iff a b u v ha hb hu hv := by
    constructor
    · intro heq
      subst heq
      exact hu.functional h.inv hv
    · intro heq
      subst heq
      exact Option.some.inj (hu.injective h.inv hv
        (fun _ hc => Option.some.inj hc ▸ ha) (fun _ hc => Option.some.inj hc ▸ hb))

/-- `try_alloc_unf` on the set of a decision, which holds shared pointers. -/
def tryAllocUnf (childrenUnfSet : List Nat) (unf : Nat) : List Nat × Bool :=
  if unf ∈ childrenUnfSet then (childrenUnfSet, false) else (unf :: childrenUnfSet, true)

/-- A call drops no shared pointer. -/
theorem Inv.inUse_find {t : RFSCUnfoldingTree} (h : t.Inv) {cpid : CPid}
    {parent readFrom : Option Nat} (hcall : t.Callable parent readFrom) {a : Nat}
    (ha : t.inUse a) : (t.findUnfoldingNode cpid parent readFrom).1.inUse a := by
  have hparent : ∀ p, (Siblings.of cpid parent).parent = some p → t.inUse p := by
    rw [Siblings.parent_of]
    exact hcall.parent
  unfold RFSCUnfoldingTree.findUnfoldingNode
  obtain ⟨t₁, hshrinks, huse, hcase⟩ := h.getOrCreate_cases readFrom hparent
  rcases hcase with ⟨b, c, heq, _⟩ | ⟨heq, _⟩
  · rw [heq]
    exact (inUse_copy t₁ b a).mpr (Or.inr (huse a ha))
  · rw [heq]
    exact (inUse_push (fun p hp => huse p (hparent p hp))
      (fun r hr => huse r (hcall.readFrom r hr)) a).mpr (Or.inr (huse a ha))

theorem Reachable.run {t t' : RFSCUnfoldingTree} {a : Nat} (h : Reachable t)
    (hrun : ReflTransGen (StepAlive a) t t') : Reachable t' := by
  induction hrun with
  | refl => exact h
  | tail _ hstep ih => exact ih.step hstep.1

/-- Two calls, with any steps of any workers in between that leave the first
result alive, return one node when they have the same parent, the same thread
if there is no parent, and the same source.  So a node stands for a history. -/
theorem findUnfoldingNode_eq_iff {t₁ t₂ : RFSCUnfoldingTree} (hreach : Reachable t₁)
    {cpid₁ cpid₂ : CPid} {parent₁ readFrom₁ parent₂ readFrom₂ : Option Nat}
    (hcall₁ : t₁.Callable parent₁ readFrom₁)
    (hrun : ReflTransGen (StepAlive (t₁.findUnfoldingNode cpid₁ parent₁ readFrom₁).2)
      (t₁.findUnfoldingNode cpid₁ parent₁ readFrom₁).1 t₂)
    (hcall₂ : t₂.Callable parent₂ readFrom₂) :
    ((t₂.findUnfoldingNode cpid₂ parent₂ readFrom₂).2 =
        (t₁.findUnfoldingNode cpid₁ parent₁ readFrom₁).2 ↔
      parent₂ = parent₁ ∧ (parent₂ = none → cpid₂ = cpid₁) ∧ readFrom₂ = readFrom₁) ∧
      t₂.IdentifiesHistories := by
  obtain ⟨h₁, hkey₁⟩ := hreach.inv.findUnfoldingNode cpid₁ hcall₁
  obtain ⟨h₂, hkey⟩ := hkey₁.run h₁ hrun
  obtain ⟨h₃, hkey₂⟩ := h₂.findUnfoldingNode cpid₂ hcall₂
  have hkey₃ := hkey.step h₂ (.find cpid₂ _ _ hcall₂) (h₂.inUse_find hcall₂ hkey.inUse)
  refine ⟨?_, ((hreach.step (.find _ _ _ hcall₁)).run hrun).identifiesHistories⟩
  rw [h₃.eq_iff_keys hkey₂ hkey₃, Siblings.of_eq_of_iff, and_assoc]

/-- The first event of a thread and the one behind it. -/
theorem findUnfoldingNode_eq_iff_two :
    let t := (findUnfoldingNode {} [0] none none).1
    ((t.findUnfoldingNode [0] (some 0) none).2 = 0 ↔
      some 0 = none ∧ (some 0 = none → [0] = [0]) ∧ (none : Option Nat) = none) ∧
      t.IdentifiesHistories :=
  @findUnfoldingNode_eq_iff {} _ .initial [0] [0] none none (some 0) none
    ⟨nofun, nofun⟩ .refl ⟨by decide, nofun⟩

end RFSCUnfoldingTree

end ViEqui.Rfsc
