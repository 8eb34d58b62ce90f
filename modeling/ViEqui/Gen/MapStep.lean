import ViEqui.Gen.MapTree

/-!
# Changes below a slot

`At` is a slot with a trie behind it, and `Step` a change of that trie by a map
of one generation.  The steps of `mut` are new cells (`Step.of_link`), one
after the other (`Step.trans`), below a child of a node (`Step.lift_elem`) or
behind a leaf (`Step.lift_next`).
-/

namespace ViEqui.Gen

variable {K T : Type} {g : Nat}

/-- The trie `t` is behind the slot, which is in none of its cells. -/
structure At (st : Store K T) (child : Slot) (t : Tree K T) : Prop where
  get : st.get child = some t.ptr
  cells : t.In st.cells
  sep : t.Sep
  outside : ∀ a, child.cell = some a → ¬ t.HasAddr a

/-- A map of generation `g` changes the trie behind a slot.  Cells that it does
not own keep their contents, except for the pointer in the slot. -/
structure Step (g : Nat) (st : Store K T) (child : Slot) (t : Tree K T)
    (st' : Store K T) (t' : Tree K T) : Prop where
  get : st'.get child = some t'.ptr
  cells : t'.In st'.cells
  sep : t'.Sep
  root : st'.root = if child = .root then t'.ptr else st.root
  kept : ∀ a c, st.cells.read a = some c → ¬ t.Has a g → st'.cells.read a =
    some (if child.cell = some a then child.update t'.ptr c else c)
  own : ∀ a, t'.Has a g → t.Has a g ∨ st.cells.read a = none
  shared : ∀ a y, t'.Has a y → y ≠ g → t.Has a y

namespace Step

variable {st st₁ st₂ st' : Store K T} {child : Slot} {t t₁ t₂ t' : Tree K T}

theorem refl (h : At st child t) : Step g st child t st t where
  get := h.get
  cells := h.cells
  sep := h.sep
  root := by
    split
    · rename_i heq
      have hget := h.get
      rw [heq] at hget
      exact Option.some.inj hget
    · rfl
  kept := by
    intro a c hread _
    split
    · rename_i hcell
      rw [Store.update_of_get h.get hcell hread, hread]
    · exact hread
  own := fun _ h => Or.inl h
  shared := fun _ _ h _ => h

/-- An address of the new trie is one of the old trie, or was not in use. -/
theorem addr (h : Step g st child t st' t') {a : Nat} (ha : t'.HasAddr a) :
    t.HasAddr a ∨ st.cells.read a = none := by
  obtain ⟨y, hy⟩ := ha
  by_cases heq : y = g
  · exact (h.own a (heq ▸ hy)).imp (fun h => ⟨g, h⟩) id
  · exact Or.inl ⟨y, h.shared a y hy heq⟩

theorem at_after (h : Step g st child t st' t') (hat : At st child t) :
    At st' child t' where
  get := h.get
  cells := h.cells
  sep := h.sep
  outside := by
    intro a hcell ha
    cases h.addr ha with
    | inl hold => exact hat.outside a hcell hold
    | inr hdead =>
      obtain ⟨c, hread⟩ := Store.read_of_get hat.get hcell
      rw [hdead] at hread
      cases hread

theorem trans (h₁ : Step g st child t st₁ t₁) (h₂ : Step g st₁ child t₁ st₂ t₂) :
    Step g st child t st₂ t₂ where
  get := h₂.get
  cells := h₂.cells
  sep := h₂.sep
  root := by
    rw [h₂.root, h₁.root]
    split <;> rfl
  kept := by
    intro a c hread hnot
    have hnot₁ : ¬ t₁.Has a g := by
      intro hhas
      cases h₁.own a hhas with
      | inl hold => exact hnot hold
      | inr hdead =>
        rw [hdead] at hread
        cases hread
    rw [h₂.kept a _ (h₁.kept a c hread hnot) hnot₁]
    split
    · rw [Slot.update_update]
    · rfl
  own := by
    intro a hhas
    cases h₂.own a hhas with
    | inl hold => exact h₁.own a hold
    | inr hdead =>
      by_cases hown : t.Has a g
      · exact Or.inl hown
      · cases hread : st.cells.read a with
        | none => exact Or.inr rfl
        | some c =>
          rw [h₁.kept a c hread hown] at hdead
          cases hdead
  shared := fun a y h hy => h₁.shared a y (h₂.shared a y h hy) hy

/-- A new cell in the slot, with cells of the old trie behind it.  `st` may
have lost cells that the map owns. -/
theorem of_link {st₀ : Store K T} {cell : Cell K T} (hat : At st₀ child t)
    (hget : st.get child = some t.ptr) (hroot : st.root = st₀.root)
    (hnext : st.cells.next = st₀.cells.next)
    (hsame : ∀ a, ¬ t.Has a g → st.cells.read a = st₀.cells.read a)
    (hlink : st.link child cell = some (st', st.cells.next))
    (hptr : t'.ptr = some st.cells.next) (hsep : t'.Sep)
    (hhas : ∀ a y, t'.Has a y → (a = st.cells.next ∧ y = g) ∨
      t.Has a y ∧ st.cells.read a = st₀.cells.read a)
    (hin : ∀ cells : Heap (Cell K T), cells.read st.cells.next = some cell →
      (∀ a y, t.Has a y → st.cells.read a = st₀.cells.read a →
        cells.read a = st₀.cells.read a) → t'.In cells) :
    Step g st₀ child t st' t' := by
  obtain ⟨st'', hlink', hget', hroot', hread, hkept⟩ :=
    Store.link_spec hget cell
  rw [hlink'] at hlink
  cases hlink
  refine ⟨by rw [hget', hptr], ?_, hsep, by rw [hroot', hptr, hroot], ?_, ?_, ?_⟩
  · apply hin _ hread
    intro a y hay hsame'
    obtain ⟨c, hc, _⟩ := hat.cells.read hay
    rw [hc] at hsame'
    rw [hkept a c hsame', if_neg, hc]
    exact fun hcell => hat.outside a hcell ⟨y, hay⟩
  · intro a c hc hnot
    rw [hptr]
    exact hkept a c (by rw [hsame a hnot, hc])
  · intro a hown
    cases hhas a g hown with
    | inl heq =>
      right
      rw [heq.1, hnext, Heap.read_next]
    | inr hold => exact Or.inl hold.1
  · intro a y hay hy
    cases hhas a y hay with
    | inl heq => exact absurd heq.2 hy
    | inr hold => exact hold.1

/-- A change below the child of bit `i` of a node that the map owns. -/
theorem lift_elem {a i : Nat} {bitmap : BitVec 32} {c : Nat → Tree K T}
    (hat : At st child (.node a g bitmap c)) (hi : i < 32)
    (hbit : bitmap.getLsbD i = true)
    (h : Step g st (.elem a (BitSlots.above bitmap.getLsbD i 32 - 1)) (c i) st' t') :
    Step g st child (.node a g bitmap c) st'
      (.node a g bitmap (Function.update c i t')) := by
  let position := BitSlots.above bitmap.getLsbD i 32 - 1
  have hsep := hat.sep i hbit
  have hreadA := hat.cells.1
  have hother : ∀ j, bitmap.getLsbD j = true → j ≠ i → ∀ x, (c j).HasAddr x →
      ¬ (c i).HasAddr x ∧ x ≠ a := by
    intro j hj hji x hx
    refine ⟨(hat.sep j hj).2.2 i hbit (Ne.symm hji) x hx, ?_⟩
    intro heq
    exact (hat.sep j hj).2.1 (heq ▸ hx)
  -- The new child has no cell of the rest of the trie.
  have hfresh : ∀ x, t'.HasAddr x → ¬ (c i).HasAddr x →
      st.cells.read x = none := by
    intro x hx hnot
    exact (h.addr hx).resolve_left hnot
  have hself : ∀ x, Function.update c i t' x = if x = i then t' else c x :=
    fun x => Function.update_apply c i t' x
  have hreadA' : st'.cells.read a = some (.node g bitmap
      (Tree.array bitmap (Function.update c i t'))) := by
    have hnot : ¬ (c i).Has a g := fun hhas => hsep.2.1 ⟨g, hhas⟩
    have hcell : (Slot.elem a position).cell = some a := rfl
    rw [h.kept a _ hreadA hnot, if_pos hcell]
    show some (Cell.node g bitmap ((Tree.array bitmap c).set position t'.ptr)) = _
    congr 2
    have hset := BitSlots.set_map_slots (f := fun j => (c j).ptr)
      (g := fun j => (Function.update c i t' j).ptr) hi hbit fun j hj => by
        show (Function.update c i t' j).ptr = (c j).ptr
        rw [hself, if_neg hj]
    rw [Function.update_self] at hset
    exact hset
  have hkeptOther : ∀ x cell, st.cells.read x = some cell →
      ¬ (c i).HasAddr x → x ≠ a → st'.cells.read x = some cell := by
    intro x cell hx hnot hxa
    rw [h.kept x cell hx fun hhas => hnot ⟨g, hhas⟩, if_neg]
    intro hcell
    exact hxa (Option.some.inj hcell).symm
  have hchildCell : ∀ x, child.cell = some x → st'.cells.read x = st.cells.read x := by
    intro x hx
    have hout := hat.outside x hx
    obtain ⟨cell, hcell⟩ := Store.read_of_get hat.get hx
    rw [hcell]
    apply hkeptOther x cell hcell
    · exact fun ⟨y, hy⟩ => hout ⟨y, Or.inr ⟨i, hbit, hy⟩⟩
    · exact fun heq => hout ⟨g, Or.inl ⟨heq.symm, rfl⟩⟩
  have hroot : st'.root = st.root := by
    rw [h.root, if_neg (by intro heq; cases heq)]
  constructor
  · rw [Store.get_congr hroot hchildCell]
    exact hat.get
  · refine ⟨hreadA', ?_⟩
    intro j hj
    rw [hself]
    by_cases hji : j = i
    · rw [if_pos hji]
      exact h.cells
    · rw [if_neg hji]
      apply (hat.cells.2 j hj).congr
      intro x y hxy
      obtain ⟨cell, hcell, _⟩ := (hat.cells.2 j hj).read hxy
      obtain ⟨hnot, hxa⟩ := hother j hj hji x ⟨y, hxy⟩
      rw [hcell]
      exact hkeptOther x cell hcell hnot hxa
  · intro j hj
    rw [hself]
    by_cases hji : j = i
    · rw [if_pos hji]
      refine ⟨h.sep, ?_, ?_⟩
      · intro ha
        have hdead := hfresh a ha hsep.2.1
        rw [hreadA] at hdead
        cases hdead
      · intro l hl hlj x hx
        rw [hself, if_neg (fun heq => hlj (heq.trans hji.symm))]
        intro hx'
        have hli : l ≠ i := fun heq => hlj (heq.trans hji.symm)
        obtain ⟨hnot, _⟩ := hother l hl hli x hx'
        have hdead := hfresh x hx hnot
        obtain ⟨y, hy⟩ := hx'
        obtain ⟨cell, hcell, _⟩ := (hat.cells.2 l hl).read hy
        rw [hdead] at hcell
        cases hcell
    · rw [if_neg hji]
      refine ⟨(hat.sep j hj).1, (hat.sep j hj).2.1, ?_⟩
      intro l hl hlj x hx
      rw [hself]
      by_cases hli : l = i
      · rw [if_pos hli]
        intro hx'
        obtain ⟨hnot, _⟩ := hother j hj hji x hx
        have hdead := hfresh x hx' hnot
        obtain ⟨y, hy⟩ := hx
        obtain ⟨cell, hcell, _⟩ := (hat.cells.2 j hj).read hy
        rw [hdead] at hcell
        cases hcell
      · rw [if_neg hli]
        exact (hat.sep j hj).2.2 l hl hlj x hx
  · rw [hroot]
    split
    · rename_i heq
      have hget := hat.get
      rw [heq] at hget
      exact Option.some.inj hget
    · rfl
  · intro x cell hx hnot
    have hnotChild : ¬ (c i).Has x g := fun hhas =>
      hnot (Or.inr ⟨i, hbit, hhas⟩)
    have hxa : x ≠ a := fun heq => hnot (Or.inl ⟨heq.symm, rfl⟩)
    have hcell : ¬ (Slot.elem a position).cell = some x := by
      intro heq
      exact hxa (Option.some.inj heq).symm
    rw [h.kept x cell hx hnotChild, if_neg hcell]
    split
    · rename_i hchild
      exact congrArg some (Store.update_of_get hat.get hchild hx).symm
    · rfl
  · intro x hx
    cases hx with
    | inl heq => exact Or.inl (Or.inl heq)
    | inr hx =>
      obtain ⟨j, hj, hx⟩ := hx
      rw [hself] at hx
      by_cases hji : j = i
      · rw [if_pos hji] at hx
        exact (h.own x hx).imp (fun hold => Or.inr ⟨i, hbit, hold⟩) id
      · rw [if_neg hji] at hx
        exact Or.inl (Or.inr ⟨j, hj, hx⟩)
  · intro x y hx hy
    cases hx with
    | inl heq => exact Or.inl heq
    | inr hx =>
      obtain ⟨j, hj, hx⟩ := hx
      rw [hself] at hx
      by_cases hji : j = i
      · rw [if_pos hji] at hx
        exact Or.inr ⟨i, hbit, h.shared x y hx hy⟩
      · rw [if_neg hji] at hx
        exact Or.inr ⟨j, hj, hx⟩

/-- A change behind a leaf that the map owns. -/
theorem lift_next {x : Leaf K T} {rest rest' : List (Leaf K T)}
    (hat : At st child (.chain (x :: rest))) (hx : x.generation = g)
    (h : Step g st (.next x.addr) (.chain rest) st' (.chain rest')) :
    Step g st child (.chain (x :: rest)) st' (.chain (x :: rest')) := by
  have hnot : ¬ (Tree.chain rest).HasAddr x.addr :=
    (Tree.sep_chain_cons.mp hat.sep).1
  have hreadX := hat.cells.1
  have hcell : (Slot.next x.addr).cell = some x.addr := rfl
  have hreadX' : st'.cells.read x.addr =
      some (.leaf x.generation x.key x.value (chainPtr rest')) := by
    rw [h.kept x.addr _ hreadX (fun hhas => hnot ⟨g, hhas⟩), if_pos hcell]
    rfl
  have hchildCell : ∀ a, child.cell = some a → st'.cells.read a = st.cells.read a := by
    intro a ha
    have hout := hat.outside a ha
    obtain ⟨cell, hread⟩ := Store.read_of_get hat.get ha
    rw [hread, h.kept a cell hread, if_neg]
    · intro heq
      exact hout ⟨x.generation, Tree.has_chain_cons.mpr
        (Or.inl ⟨Option.some.inj heq, rfl⟩)⟩
    · exact fun hhas => hout ⟨g, Tree.has_chain_cons.mpr (Or.inr hhas)⟩
  have hroot : st'.root = st.root := by
    rw [h.root, if_neg (by intro heq; cases heq)]
  constructor
  · rw [Store.get_congr hroot hchildCell]
    exact hat.get
  · exact ⟨hreadX', h.cells⟩
  · refine Tree.sep_chain_cons.mpr ⟨?_, h.sep⟩
    intro ha
    cases h.addr ha with
    | inl hold => exact hnot hold
    | inr hdead =>
      rw [hreadX] at hdead
      cases hdead
  · rw [hroot]
    split
    · rename_i heq
      have hget := hat.get
      rw [heq] at hget
      exact Option.some.inj hget
    · rfl
  · intro a cell hread hnotOwn
    have hax : ¬ (Slot.next x.addr).cell = some a := by
      intro heq
      exact hnotOwn (Tree.has_chain_cons.mpr
        (Or.inl ⟨Option.some.inj heq, hx⟩))
    rw [h.kept a cell hread
      (fun hhas => hnotOwn (Tree.has_chain_cons.mpr (Or.inr hhas))), if_neg hax]
    split
    · rename_i hchild
      exact congrArg some (Store.update_of_get hat.get hchild hread).symm
    · rfl
  · intro a ha
    cases Tree.has_chain_cons.mp ha with
    | inl heq => exact Or.inl (Tree.has_chain_cons.mpr (Or.inl heq))
    | inr hrest =>
      exact (h.own a hrest).imp
        (fun hold => Tree.has_chain_cons.mpr (Or.inr hold)) id
  · intro a y ha hy
    cases Tree.has_chain_cons.mp ha with
    | inl heq => exact Tree.has_chain_cons.mpr (Or.inl heq)
    | inr hrest => exact Tree.has_chain_cons.mpr (Or.inr (h.shared a y hrest hy))

end Step

namespace At

variable {st : Store K T} {child : Slot}

/-- The slot of the child of bit `i`. -/
theorem elem {a i y : Nat} {bitmap : BitVec 32} {c : Nat → Tree K T}
    (h : At st child (.node a y bitmap c)) (hi : i < 32)
    (hbit : bitmap.getLsbD i = true) :
    At st (.elem a (BitSlots.above bitmap.getLsbD i 32 - 1)) (c i) where
  get := by
    rw [Store.get_elem, h.cells.1]
    exact BitSlots.getElem?_map_slots _ hi hbit
  cells := h.cells.2 i hbit
  sep := (h.sep i hbit).1
  outside := by
    intro b hcell
    cases hcell
    exact (h.sep i hbit).2.1

/-- The slot behind a leaf. -/
theorem next {x : Leaf K T} {rest : List (Leaf K T)}
    (h : At st child (.chain (x :: rest))) :
    At st (.next x.addr) (.chain rest) where
  get := by
    rw [Store.get_next, h.cells.1]
    rfl
  cells := h.cells.2
  sep := (Tree.sep_chain_cons.mp h.sep).2
  outside := by
    intro b hcell
    cases hcell
    exact (Tree.sep_chain_cons.mp h.sep).1

end At

end ViEqui.Gen
