import ViEqui.Gen.Map

/-!
# The trie behind a root

`Tree` is the trie that the cells of a map form, with the address and the
generation of every cell.  `Tree.In` says that the cells are there, `Tree.Sep`
that no cell occurs twice, and `Tree.Wf` that the keys are where their hashes
send them.

`Step` is what a change below a slot may do.  Cells of the generation of the
map may change, be deleted or be new, and all other cells are left alone.
`Step.trans` and `Step.lift` chain the steps of an operation: one after the
other, and from a child to its node or to the leaf before it.
-/

namespace ViEqui.Gen

variable {K T : Type}

structure Leaf (K T : Type) where
  addr : Nat
  generation : Nat
  key : K
  value : T

inductive Tree (K T : Type)
  | chain (leaves : List (Leaf K T))
  | node (addr generation : Nat) (bitmap : BitVec 32) (child : Nat → Tree K T)

/-- The pointer to a chain. -/
def chainPtr (leaves : List (Leaf K T)) : Option Nat :=
  leaves.head?.map Leaf.addr

/-- The leaves are cells, each with a pointer to the next one. -/
def ChainIn (cells : Heap (Cell K T)) : List (Leaf K T) → Prop
  | [] => True
  | x :: rest =>
    cells.read x.addr =
      some (.leaf x.generation x.key x.value (chainPtr rest)) ∧
    ChainIn cells rest

namespace Tree

def ptr : Tree K T → Option Nat
  | chain leaves => chainPtr leaves
  | node addr _ _ _ => some addr

/-- The children of a node with this bitmap, as its array has them. -/
def array (bitmap : BitVec 32) (child : Nat → Tree K T) : List (Option Nat) :=
  (BitSlots.slots bitmap.getLsbD 32).map fun i => (child i).ptr

def In (cells : Heap (Cell K T)) : Tree K T → Prop
  | chain leaves => ChainIn cells leaves
  | node addr generation bitmap child =>
    cells.read addr = some (.node generation bitmap (array bitmap child)) ∧
    ∀ i, bitmap.getLsbD i = true → (child i).In cells

/-- A cell of the trie and its generation. -/
def Has : Tree K T → Nat → Nat → Prop
  | chain leaves, a, g => ∃ x ∈ leaves, x.addr = a ∧ x.generation = g
  | node addr generation bitmap child, a, g => (addr = a ∧ generation = g) ∨
    ∃ i, bitmap.getLsbD i = true ∧ (child i).Has a g

def HasAddr (t : Tree K T) (a : Nat) : Prop := ∃ g, t.Has a g

def Sep : Tree K T → Prop
  | chain leaves => (leaves.map Leaf.addr).Nodup
  | node addr _ bitmap child => ∀ i, bitmap.getLsbD i = true →
    (child i).Sep ∧ ¬ (child i).HasAddr addr ∧
    ∀ j, bitmap.getLsbD j = true → j ≠ i →
      ∀ a, (child i).HasAddr a → ¬ (child j).HasAddr a

/-- The pairs in the order of `for_each`. -/
def items : Tree K T → List (K × T)
  | chain leaves => leaves.map fun x => (x.key, x.value)
  | node _ _ bitmap child =>
    (BitSlots.slots bitmap.getLsbD 32).flatMap fun i => (child i).items

theorem has_chain_cons {x : Leaf K T} {rest : List (Leaf K T)} {a g : Nat} :
    (chain (x :: rest)).Has a g ↔
      (x.addr = a ∧ x.generation = g) ∨ (chain rest).Has a g := by
  show (∃ y ∈ x :: rest, _) ↔ _ ∨ ∃ y ∈ rest, _
  constructor
  · intro h
    obtain ⟨y, hy, hya⟩ := h
    cases List.mem_cons.mp hy with
    | inl heq => exact Or.inl (heq ▸ hya)
    | inr hmem => exact Or.inr ⟨y, hmem, hya⟩
  · intro h
    cases h with
    | inl hx => exact ⟨x, List.mem_cons_self, hx⟩
    | inr h =>
      obtain ⟨y, hy, hya⟩ := h
      exact ⟨y, List.mem_cons_of_mem x hy, hya⟩

theorem sep_chain_cons {x : Leaf K T} {rest : List (Leaf K T)} :
    (chain (x :: rest)).Sep ↔
      ¬ (chain rest).HasAddr x.addr ∧ (chain rest).Sep := by
  show ((x :: rest).map Leaf.addr).Nodup ↔ _ ∧ (rest.map Leaf.addr).Nodup
  rw [List.map_cons, List.nodup_cons]
  refine and_congr_left fun _ => not_congr ?_
  rw [List.mem_map]
  constructor
  · intro h
    obtain ⟨y, hy, heq⟩ := h
    exact ⟨y.generation, y, hy, heq, rfl⟩
  · intro h
    obtain ⟨g, y, hy, heq, _⟩ := h
    exact ⟨y, hy, heq⟩

/-- A cell of the trie is live and has its generation. -/
theorem In.read {cells : Heap (Cell K T)} {t : Tree K T} (h : t.In cells)
    {a g : Nat} (hhas : t.Has a g) :
    ∃ c, cells.read a = some c ∧ c.generation = g := by
  induction t with
  | chain leaves =>
    induction leaves with
    | nil =>
      obtain ⟨x, hx, _⟩ := hhas
      cases hx
    | cons x rest ih =>
      cases has_chain_cons.mp hhas with
      | inl heq =>
        refine ⟨.leaf x.generation x.key x.value (chainPtr rest), ?_, heq.2⟩
        rw [← heq.1]
        exact h.1
      | inr hrest => exact ih h.2 hrest
  | node addr generation bitmap child ih =>
    cases hhas with
    | inl heq =>
      refine ⟨.node generation bitmap (array bitmap child), ?_, heq.2⟩
      rw [← heq.1]
      exact h.1
    | inr hchild =>
      obtain ⟨i, hi, hhas⟩ := hchild
      exact ih i (h.2 i hi) hhas

/-- Cells that the trie does not have may change. -/
theorem In.congr {cells cells' : Heap (Cell K T)} {t : Tree K T}
    (h : t.In cells)
    (hsame : ∀ a g, t.Has a g → cells'.read a = cells.read a) :
    t.In cells' := by
  induction t with
  | chain leaves =>
    induction leaves with
    | nil => trivial
    | cons x rest ih =>
      refine ⟨?_, ih h.2 fun a g hhas => hsame a g (has_chain_cons.mpr
        (Or.inr hhas))⟩
      rw [hsame x.addr x.generation (has_chain_cons.mpr (Or.inl ⟨rfl, rfl⟩))]
      exact h.1
  | node addr generation bitmap child ih =>
    refine ⟨?_, fun i hi => ih i (h.2 i hi) fun a g hhas =>
      hsame a g (Or.inr ⟨i, hi, hhas⟩)⟩
    rw [hsame addr generation (Or.inl ⟨rfl, rfl⟩)]
    exact h.1

/-- A cell has one generation. -/
theorem In.generation_unique {cells : Heap (Cell K T)} {t : Tree K T}
    (h : t.In cells) {a g g' : Nat} (hg : t.Has a g) (hg' : t.Has a g') :
    g = g' := by
  obtain ⟨c, hc, hcg⟩ := h.read hg
  obtain ⟨c', hc', hcg'⟩ := h.read hg'
  rw [hc] at hc'
  cases hc'
  rw [← hcg, hcg']

end Tree

/-! ## Slots -/

namespace Slot

/-- The cell that the slot is in. -/
def cell : Slot → Option Nat
  | root => none
  | next a => some a
  | elem a _ => some a

/-- The cell of the slot with another pointer in it. -/
def update : Slot → Option Nat → Cell K T → Cell K T
  | next _, p, .leaf generation key value _ => .leaf generation key value p
  | elem _ i, p, .node generation bitmap array =>
    .node generation bitmap (array.set i p)
  | _, _, c => c

theorem update_update (child : Slot) (p q : Option Nat) (c : Cell K T) :
    child.update q (child.update p c) = child.update q c := by
  cases child with
  | root => rfl
  | next a => cases c <;> rfl
  | elem a i =>
    cases c with
    | leaf generation key value next => rfl
    | node generation bitmap array =>
      show Cell.node _ _ ((array.set i p).set i q) = _
      rw [List.set_set]
      rfl

end Slot

namespace Store

theorem get_next (st : Store K T) (a : Nat) : st.get (.next a) =
    match st.cells.read a with
    | some (.leaf _ _ _ next) => some next
    | _ => none := rfl

theorem get_elem (st : Store K T) (a i : Nat) : st.get (.elem a i) =
    match st.cells.read a with
    | some (.node _ _ array) => array[i]?
    | _ => none := rfl

theorem update_of_get {st : Store K T} {child : Slot} {p : Option Nat} {a : Nat}
    {c : Cell K T} (hget : st.get child = some p) (hcell : child.cell = some a)
    (hread : st.cells.read a = some c) : child.update p c = c := by
  cases child with
  | root => cases hcell
  | next b =>
    cases hcell
    rw [get_next, hread] at hget
    cases c with
    | leaf generation key value next =>
      cases hget
      rfl
    | node generation bitmap array => cases hget
  | elem b i =>
    cases hcell
    rw [get_elem, hread] at hget
    cases c with
    | leaf generation key value next => cases hget
    | node generation bitmap array =>
      have hlt := (List.getElem?_eq_some_iff.mp hget).1
      have heq := (List.getElem?_eq_some_iff.mp hget).2
      show Cell.node _ _ (array.set i p) = _
      rw [← heq, List.set_getElem_self]

/-- The slot is in a live cell. -/
theorem read_of_get {st : Store K T} {child : Slot} {p : Option Nat} {a : Nat}
    (hget : st.get child = some p) (hcell : child.cell = some a) :
    ∃ c, st.cells.read a = some c := by
  cases hread : st.cells.read a with
  | some c => exact ⟨c, rfl⟩
  | none =>
    cases child with
    | root => cases hcell
    | next b =>
      cases hcell
      rw [get_next, hread] at hget
      cases hget
    | elem b i =>
      cases hcell
      rw [get_elem, hread] at hget
      cases hget

theorem get_congr {st st' : Store K T} {child : Slot}
    (hroot : st'.root = st.root)
    (hcells : ∀ a, child.cell = some a → st'.cells.read a = st.cells.read a) :
    st'.get child = st.get child := by
  cases child with
  | root => exact congrArg some hroot
  | next a =>
    rw [get_next, get_next, hcells a rfl]
  | elem a i =>
    rw [get_elem, get_elem, hcells a rfl]

theorem set_spec {st : Store K T} {child : Slot} {q : Option Nat}
    (hget : st.get child = some q) (p : Option Nat) :
    ∃ st', st.set child p = some st' ∧ st'.get child = some p ∧
      st'.root = (if child = .root then p else st.root) ∧
      ∀ a, st'.cells.read a = (st.cells.read a).map fun c =>
        if child.cell = some a then child.update p c else c := by
  cases child with
  | root =>
    refine ⟨_, rfl, rfl, rfl, ?_⟩
    intro a
    show st.cells.read a = _
    cases st.cells.read a with
    | none => rfl
    | some c => rfl
  | next b =>
    obtain ⟨c, hread⟩ := read_of_get hget rfl
    cases c with
    | node generation bitmap array =>
      rw [get_next, hread] at hget
      cases hget
    | leaf generation key value next =>
      refine ⟨{ st with
        cells := st.cells.write b (.leaf generation key value p) }, ?_, ?_, rfl,
        ?_⟩
      · simp only [set, hread]
      · rw [get_next, Heap.read_write_self _ hread]
      · intro a
        by_cases hab : a = b
        · subst hab
          rw [Heap.read_write_self _ hread, hread, Option.map_some]
          show _ = some (if some a = some a then _ else _)
          rw [if_pos rfl]
          rfl
        · rw [Heap.read_write_ne _ _ hab]
          cases st.cells.read a with
          | none => rfl
          | some c =>
            rw [Option.map_some, if_neg]
            intro h
            exact hab (Option.some.inj h).symm
  | elem b i =>
    obtain ⟨c, hread⟩ := read_of_get hget rfl
    cases c with
    | leaf generation key value next =>
      rw [get_elem, hread] at hget
      cases hget
    | node generation bitmap array =>
      have hi : i < array.length := by
        rw [get_elem, hread] at hget
        exact (List.getElem?_eq_some_iff.mp hget).1
      refine ⟨{ st with
        cells := st.cells.write b (.node generation bitmap (array.set i p)) },
        ?_, ?_, rfl, ?_⟩
      · simp only [set, hread, if_pos hi]
      · rw [get_elem, Heap.read_write_self _ hread]
        exact List.getElem?_set_self hi
      · intro a
        by_cases hab : a = b
        · subst hab
          rw [Heap.read_write_self _ hread, hread, Option.map_some]
          show _ = some (if some a = some a then _ else _)
          rw [if_pos rfl]
          rfl
        · rw [Heap.read_write_ne _ _ hab]
          cases st.cells.read a with
          | none => rfl
          | some c =>
            rw [Option.map_some, if_neg]
            intro h
            exact hab (Option.some.inj h).symm

theorem link_spec {st : Store K T} {child : Slot} {q : Option Nat}
    (hget : st.get child = some q) (cell : Cell K T) :
    ∃ st', st.link child cell = some (st', st.cells.next) ∧
      st'.get child = some (some st.cells.next) ∧
      st'.root = (if child = .root then some st.cells.next else st.root) ∧
      st'.cells.read st.cells.next = some cell ∧
      ∀ a c, st.cells.read a = some c → st'.cells.read a =
        some (if child.cell = some a then child.update (some st.cells.next) c
          else c) := by
  have hlive : ∀ a, child.cell = some a → (st.cells.alloc cell).read a =
      st.cells.read a := by
    intro a ha
    obtain ⟨c, hread⟩ := read_of_get hget ha
    rw [Heap.read_alloc_of_read cell hread, hread]
  have hget' : get { st with cells := st.cells.alloc cell } child = some q := by
    rw [← hget]
    exact get_congr rfl hlive
  obtain ⟨st', hset, hgetSet, hroot, hread⟩ :=
    set_spec hget' (some st.cells.next)
  refine ⟨st', ?_, hgetSet, hroot, ?_, ?_⟩
  · unfold link
    rw [hset]
    rfl
  · rw [hread, Heap.read_alloc_next, Option.map_some, if_neg]
    intro h
    obtain ⟨c, hc⟩ := read_of_get hget h
    rw [Heap.read_next] at hc
    cases hc
  · intro a c hc
    rw [hread, Heap.read_alloc_of_read cell hc, Option.map_some]

end Store

end ViEqui.Gen
