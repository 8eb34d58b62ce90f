import Mathlib.Data.List.Perm.Subperm
import ViEqui.Gen.MapStep

/-!
# The steps of `mut`

One lemma for each function that changes nodes or leaves: it has a result, and
the change is a `Step` to the trie that is written out in the lemma.
-/

namespace ViEqui.Gen

namespace Map

variable {K T : Type} {g : Nat} {st : Store K T} {child : Slot}

theorem hasBit_eq (bitmap : BitVec 32) (i : Nat) :
    hasBit bitmap i = bitmap.getLsbD i :=
  BitSlots.shift_and_one bitmap i

theorem popcount_eq_length_array (bitmap : BitVec 32) (c : Nat → Tree K T) :
    popcount bitmap = (Tree.array bitmap c).length := by
  unfold Tree.array
  rw [List.length_map]
  exact BitSlots.popcount_eq_length bitmap

theorem popcount_pos {bitmap : BitVec 32} {i : Nat} (hi : i < 32)
    (hbit : bitmap.getLsbD i = true) : 0 < popcount bitmap := by
  have hlength : popcount bitmap = (BitSlots.slots bitmap.getLsbD 32).length :=
    BitSlots.popcount_eq_length bitmap
  rw [hlength]
  exact List.length_pos_of_mem (BitSlots.mem_slots.mpr ⟨hi, hbit⟩)

theorem position_eq (bitmap : BitVec 32) (i : Nat) :
    popcount (bitmap >>> i) = BitSlots.above bitmap.getLsbD i 32 :=
  BitSlots.popcount_shiftRight bitmap i

theorem allocNode_eq {nodeArity : Nat} {bitmap : BitVec 32}
    {array : List (Option Nat)} (hcount : popcount bitmap = nodeArity)
    (hpos : 0 < nodeArity) (hlength : array.length = nodeArity) :
    allocNode g st child nodeArity bitmap array =
      st.link child (.node g bitmap array) := by
  unfold allocNode
  rw [guard, if_pos ⟨hcount, hpos, hlength⟩]
  rfl

/-! ## Nodes -/

theorem uncowNode_spec {a y i : Nat} {bitmap : BitVec 32} {c : Nat → Tree K T}
    (h : At st child (.node a y bitmap c)) (hi : i < 32)
    (hbit : bitmap.getLsbD i = true) :
    ∃ st' n, uncowNode g st child = some (st', n) ∧
      Step g st child (.node a y bitmap c) st' (.node n g bitmap c) := by
  have hlength := popcount_eq_length_array bitmap c
  obtain ⟨st', hlink, _⟩ := Store.link_spec h.get
    (.node g bitmap (Tree.array bitmap c))
  have hnew : ∀ j, bitmap.getLsbD j = true → ¬ (c j).HasAddr st.cells.next := by
    intro j hj hhas
    obtain ⟨z, hz⟩ := hhas
    obtain ⟨cell, hread, _⟩ := (h.cells.2 j hj).read hz
    rw [Heap.read_next] at hread
    cases hread
  refine ⟨st', st.cells.next, ?_, ?_⟩
  · have hptr : st.get child = some (some a) := h.get
    unfold uncowNode
    simp only [hptr, h.cells.1, Option.bind_eq_bind, Option.bind_some]
    rw [List.take_of_length_le (Nat.le_of_eq hlength.symm),
      allocNode_eq rfl (popcount_pos hi hbit) hlength.symm]
    exact hlink
  · apply Step.of_link h h.get rfl rfl (fun _ _ => rfl) hlink rfl
    · intro j hj
      exact ⟨(h.sep j hj).1, hnew j hj, (h.sep j hj).2.2⟩
    · intro b z hb
      cases hb with
      | inl heq => exact Or.inl ⟨heq.1.symm, heq.2.symm⟩
      | inr hb => exact Or.inr ⟨Or.inr hb, rfl⟩
    · intro cells hread hsame
      refine ⟨hread, fun j hj => (h.cells.2 j hj).congr fun b z hb => ?_⟩
      exact hsame b z (Or.inr ⟨j, hj, hb⟩) rfl

/-- A node with an empty child for bit `i`. -/
def withBit (bitmap : BitVec 32) (i : Nat) : BitVec 32 := bitmap ||| 1#32 <<< i

theorem getLsbD_withBit_self (bitmap : BitVec 32) {i : Nat} (hi : i < 32) :
    (withBit bitmap i).getLsbD i = true := by
  unfold withBit
  rw [BitVec.getLsbD_or, BitSlots.getLsbD_one_shift hi, decide_eq_true rfl,
    Bool.or_true]

theorem getLsbD_withBit_ne (bitmap : BitVec 32) {i j : Nat} (hne : j ≠ i) :
    (withBit bitmap i).getLsbD j = bitmap.getLsbD j := by
  unfold withBit
  by_cases hj : j < 32
  · rw [BitVec.getLsbD_or, BitSlots.getLsbD_one_shift hj, decide_eq_false hne,
      Bool.or_false]
  · rw [BitVec.getLsbD_of_ge _ _ (by omega), BitVec.getLsbD_of_ge _ _ (by omega)]

theorem growNode_spec {a y i : Nat} {bitmap : BitVec 32} {c : Nat → Tree K T}
    (h : At st child (.node a y bitmap c)) (hi : i < 32)
    (hbit : bitmap.getLsbD i = false) :
    ∃ st' n, growNode g st child i = some (st', n) ∧
      Step g st child (.node a y bitmap c) st'
        (.node n g (withBit bitmap i) (Function.update c i (.chain []))) := by
  let c' : Nat → Tree K T := Function.update c i (.chain [])
  have hself : c' i = .chain [] := Function.update_self i _ c
  have hother : ∀ j, j ≠ i → c' j = c j := fun j hj =>
    Function.update_of_ne hj _ c
  have hinsert := BitSlots.insert_map_slots (f := fun j => (c j).ptr)
    (g := fun j => (c' j).ptr) hi hbit (getLsbD_withBit_self bitmap hi)
    (fun j hj => getLsbD_withBit_ne bitmap hj)
    (fun j hj => congrArg Tree.ptr (hother j hj))
  have hptrNone : (c' i).ptr = none := by
    rw [hself]
    rfl
  rw [hptrNone] at hinsert
  have hcount : popcount (withBit bitmap i) = popcount bitmap + 1 := by
    rw [popcount_eq_length_array _ c', popcount_eq_length_array bitmap c]
    show ((BitSlots.slots _ 32).map _).length = _
    rw [← hinsert, List.length_append, List.length_cons, List.length_take,
      List.length_drop]
    have hle := BitSlots.above_le_length bitmap.getLsbD i 32
    rw [List.length_map]
    show _ = ((BitSlots.slots bitmap.getLsbD 32).map _).length + 1
    rw [List.length_map]
    omega
  -- A node of this generation is given back before the new one is there.
  let st₀ : Store K T :=
    if y = g then { st with cells := st.cells.free a } else st
  have hroot₀ : st₀.root = st.root := by
    show Store.root (if y = g then _ else st) = _
    split <;> rfl
  have hnext₀ : st₀.cells.next = st.cells.next := by
    show Heap.next (Store.cells (if y = g then _ else st)) = _
    split
    · exact Heap.next_free _ _
    · rfl
  have hsame₀ : ∀ b, b ≠ a → st₀.cells.read b = st.cells.read b := by
    intro b hb
    show Heap.read (Store.cells (if y = g then _ else st)) b = _
    split
    · exact Heap.read_free_ne _ hb
    · rfl
  have hown₀ : ∀ b, ¬ (Tree.node a y bitmap c).Has b g →
      st₀.cells.read b = st.cells.read b := by
    intro b hb
    by_cases hba : b = a
    · have hy : y ≠ g := fun heq => hb (Or.inl ⟨hba.symm, heq⟩)
      show Heap.read (Store.cells (if y = g then _ else st)) b = _
      rw [if_neg hy]
    · exact hsame₀ b hba
  have hget₀ : st₀.get child = some (Tree.node a y bitmap c).ptr := by
    rw [← h.get]
    apply Store.get_congr hroot₀
    intro b hb
    exact hsame₀ b fun heq => h.outside b hb ⟨y, Or.inl ⟨heq.symm, rfl⟩⟩
  obtain ⟨st', hlink, _⟩ := Store.link_spec hget₀
    (.node g (withBit bitmap i) (Tree.array (withBit bitmap i) c'))
  have hbits : ∀ j, (withBit bitmap i).getLsbD j = true → j ≠ i →
      bitmap.getLsbD j = true := by
    intro j hj hne
    rw [getLsbD_withBit_ne bitmap hne] at hj
    exact hj
  have hchild : ∀ j, (withBit bitmap i).getLsbD j = true → ∀ b z,
      (c' j).Has b z → bitmap.getLsbD j = true ∧ (c j).Has b z := by
    intro j hj b z hb
    by_cases hji : j = i
    · rw [hji, hself] at hb
      obtain ⟨x, hx, _⟩ := hb
      cases hx
    · rw [hother j hji] at hb
      exact ⟨hbits j hj hji, hb⟩
  have hnotA : ∀ j, bitmap.getLsbD j = true → ∀ b z, (c j).Has b z → b ≠ a := by
    intro j hj b z hb heq
    exact (h.sep j hj).2.1 ⟨z, heq ▸ hb⟩
  refine ⟨st', st₀.cells.next, ?_, ?_⟩
  · have hptr : st.get child = some (some a) := h.get
    unfold growNode
    simp only [hptr, h.cells.1, Option.bind_eq_bind, Option.bind_some]
    have harray : (Tree.array bitmap c).take (popcount (bitmap >>> i)) ++
        none :: (Tree.array bitmap c).drop (popcount (bitmap >>> i)) =
        Tree.array (withBit bitmap i) c' := by
      rw [position_eq]
      exact hinsert
    rw [harray]
    show allocNode g st₀ child (popcount bitmap + 1) (withBit bitmap i) _ = _
    rw [allocNode_eq hcount (Nat.succ_pos _)]
    · exact hlink
    · rw [← hcount, popcount_eq_length_array _ c']
  · apply Step.of_link h hget₀ hroot₀ hnext₀ hown₀ hlink rfl
    · intro j hj
      refine ⟨?_, ?_, ?_⟩
      · by_cases hji : j = i
        · show (c' j).Sep
          rw [hji, hself]
          exact List.nodup_nil
        · show (c' j).Sep
          rw [hother j hji]
          exact (h.sep j (hbits j hj hji)).1
      · intro hhas
        obtain ⟨z, hz⟩ := hhas
        obtain ⟨hj', hz'⟩ := hchild j hj _ z hz
        obtain ⟨cell, hread, _⟩ := (h.cells.2 j hj').read hz'
        rw [hnext₀, Heap.read_next] at hread
        cases hread
      · intro l hl hlj b hb hb'
        obtain ⟨z, hz⟩ := hb
        obtain ⟨z', hz'⟩ := hb'
        obtain ⟨hj', hz⟩ := hchild j hj b z hz
        obtain ⟨hl', hz'⟩ := hchild l hl b z' hz'
        exact (h.sep j hj').2.2 l hl' hlj b ⟨z, hz⟩ ⟨z', hz'⟩
    · intro b z hb
      cases hb with
      | inl heq => exact Or.inl ⟨heq.1.symm, heq.2.symm⟩
      | inr hb =>
        obtain ⟨j, hj, hb⟩ := hb
        obtain ⟨hj', hb⟩ := hchild j hj b z hb
        exact Or.inr ⟨Or.inr ⟨j, hj', hb⟩, hsame₀ b (hnotA j hj' b z hb)⟩
    · intro cells hread hsame
      refine ⟨hread, ?_⟩
      intro j hj
      show (c' j).In cells
      by_cases hji : j = i
      · rw [hji, hself]
        trivial
      · rw [hother j hji]
        have hj' := hbits j hj hji
        apply (h.cells.2 j hj').congr
        intro b z hb
        exact hsame b z (Or.inr ⟨j, hj', hb⟩) (hsame₀ b (hnotA j hj' b z hb))

/-! ## Leaves -/

theorem next_not_has {t : Tree K T} (h : t.In st.cells) :
    ¬ t.HasAddr st.cells.next := by
  intro hhas
  obtain ⟨z, hz⟩ := hhas
  obtain ⟨cell, hread, _⟩ := h.read hz
  rw [Heap.read_next] at hread
  cases hread

theorem insertLeaf_spec [Inhabited T] {leaves : List (Leaf K T)}
    (h : At st child (.chain leaves)) (k : K) :
    ∃ st' n, insertLeaf g st child k = some (st', n) ∧
      Step g st child (.chain leaves) st'
        (.chain (⟨n, g, k, default⟩ :: leaves)) := by
  obtain ⟨st', hlink, _⟩ := Store.link_spec h.get
    (.leaf g k default (chainPtr leaves))
  refine ⟨st', st.cells.next, ?_, ?_⟩
  · have hptr : st.get child = some (chainPtr leaves) := h.get
    unfold insertLeaf
    rw [hptr]
    exact hlink
  · apply Step.of_link h h.get rfl rfl (fun _ _ => rfl) hlink rfl
    · exact Tree.sep_chain_cons.mpr ⟨next_not_has h.cells, h.sep⟩
    · intro b z hb
      cases Tree.has_chain_cons.mp hb with
      | inl heq => exact Or.inl ⟨heq.1.symm, heq.2.symm⟩
      | inr hb => exact Or.inr ⟨hb, rfl⟩
    · intro cells hread hsame
      exact ⟨hread, h.cells.congr fun b z hb => hsame b z hb rfl⟩

theorem uncowLeaf_spec {x : Leaf K T} {rest : List (Leaf K T)}
    (h : At st child (.chain (x :: rest))) :
    ∃ st' n, uncowLeaf g st child = some (st', n) ∧
      Step g st child (.chain (x :: rest)) st'
        (.chain (⟨n, g, x.key, x.value⟩ :: rest)) := by
  obtain ⟨st', hlink, _⟩ := Store.link_spec h.get
    (.leaf g x.key x.value (chainPtr rest))
  refine ⟨st', st.cells.next, ?_, ?_⟩
  · have hptr : st.get child = some (some x.addr) := h.get
    unfold uncowLeaf
    simp only [hptr, h.cells.1, Option.bind_eq_bind, Option.bind_some]
    exact hlink
  · apply Step.of_link h h.get rfl rfl (fun _ _ => rfl) hlink rfl
    · refine Tree.sep_chain_cons.mpr ⟨?_, (Tree.sep_chain_cons.mp h.sep).2⟩
      exact next_not_has (t := .chain rest) h.cells.2
    · intro b z hb
      cases Tree.has_chain_cons.mp hb with
      | inl heq => exact Or.inl ⟨heq.1.symm, heq.2.symm⟩
      | inr hb => exact Or.inr ⟨Tree.has_chain_cons.mpr (Or.inr hb), rfl⟩
    · intro cells hread hsame
      refine ⟨hread, Tree.In.congr (t := .chain rest) h.cells.2 fun b z hb => ?_⟩
      exact hsame b z (Tree.has_chain_cons.mpr (Or.inr hb)) rfl

/-- The pairs of a chain. -/
def pairs (leaves : List (Leaf K T)) : List (K × T) :=
  leaves.map fun x => (x.key, x.value)

/-- The leaves in front of `x` and `x` itself are copied. -/
theorem uncowBefore_spec {x : Leaf K T} {rest : List (Leaf K T)}
    (before : List (Leaf K T)) {fuel : Nat} (hfuel : before.length < fuel)
    (h : At st child (.chain (before ++ x :: rest))) :
    ∃ st' n before', ((uncowBefore g x.addr fuel st child).bind fun r =>
        uncowLeaf g r.1 r.2) = some (st', n) ∧
      Step g st child (.chain (before ++ x :: rest)) st'
        (.chain (before' ++ ⟨n, g, x.key, x.value⟩ :: rest)) ∧
      pairs before' = pairs before := by
  induction before generalizing st child fuel with
  | nil =>
    cases fuel with
    | zero => cases hfuel
    | succ fuel =>
      obtain ⟨st', n, hrun, hstep⟩ := uncowLeaf_spec (g := g) h
      refine ⟨st', n, [], ?_, hstep, rfl⟩
      have hptr : st.get child = some (some x.addr) := h.get
      unfold uncowBefore
      rw [hptr, Option.bind_eq_bind, Option.bind_some, if_pos rfl]
      exact hrun
  | cons y before ih =>
    cases fuel with
    | zero => cases hfuel
    | succ fuel =>
      have hne : y.addr ≠ x.addr := by
        intro heq
        apply (Tree.sep_chain_cons.mp h.sep).1
        rw [heq]
        exact ⟨x.generation, x, List.mem_append_right _ List.mem_cons_self,
          rfl, rfl⟩
      obtain ⟨st₁, n₁, hrun₁, hstep₁⟩ := uncowLeaf_spec (g := g) h
      have hat₁ := hstep₁.at_after h
      obtain ⟨st₂, n₂, before', hrun₂, hstep₂, hpairs⟩ :=
        ih (Nat.lt_of_succ_lt_succ hfuel) hat₁.next
      refine ⟨st₂, n₂, ⟨n₁, g, y.key, y.value⟩ :: before', ?_,
        hstep₁.trans (hstep₂.lift_next hat₁ rfl), ?_⟩
      · have hptr : st.get child = some (some y.addr) := h.get
        unfold uncowBefore
        rw [hptr, Option.bind_eq_bind, Option.bind_some,
          if_neg (fun heq => hne (Option.some.inj heq)), hrun₁]
        exact hrun₂
      · exact congrArg ((y.key, y.value) :: ·) hpairs

/-- The leaf `x` of an older generation is copied, with the leaves in front of
it that are not of this generation. -/
theorem uncowTo_spec {x : Leaf K T} {rest : List (Leaf K T)}
    (before : List (Leaf K T)) (hx : x.generation ≠ g) (fuel fuel' : Nat)
    (hfuel : before.length < fuel) (hfuel' : before.length < fuel')
    (h : At st child (.chain (before ++ x :: rest))) :
    ∃ st' n before', ((skipOwn g st fuel child).bind fun child =>
        (uncowBefore g x.addr fuel' st child).bind fun r =>
          uncowLeaf g r.1 r.2) = some (st', n) ∧
      Step g st child (.chain (before ++ x :: rest)) st'
        (.chain (before' ++ ⟨n, g, x.key, x.value⟩ :: rest)) ∧
      pairs before' = pairs before := by
  induction before generalizing child fuel with
  | nil =>
    cases fuel with
    | zero => cases hfuel
    | succ fuel =>
      have hptr : st.get child = some (some x.addr) := h.get
      have hread := h.cells.1
      unfold skipOwn
      simp only [hptr, hread, Option.bind_eq_bind, Option.bind_some,
        Option.pure_def]
      rw [if_neg (show ¬ Cell.generation (.leaf _ _ _ _) = g from hx),
        Option.bind_some]
      exact uncowBefore_spec [] hfuel' h
  | cons y before ih =>
    cases fuel with
    | zero => cases hfuel
    | succ fuel =>
      have hptr : st.get child = some (some y.addr) := h.get
      have hread := h.cells.1
      unfold skipOwn
      simp only [hptr, hread, Option.bind_eq_bind, Option.bind_some,
        Option.pure_def]
      by_cases hy : y.generation = g
      · rw [if_pos (show Cell.generation (.leaf _ _ _ _) = g from hy)]
        obtain ⟨st', n, before', hrun, hstep, hpairs⟩ :=
          ih fuel (Nat.lt_of_succ_lt_succ hfuel)
            (Nat.lt_of_succ_lt hfuel') h.next
        exact ⟨st', n, y :: before', hrun, hstep.lift_next h hy,
          congrArg ((y.key, y.value) :: ·) hpairs⟩
      · rw [if_neg (show ¬ Cell.generation (.leaf _ _ _ _) = g from hy),
          Option.bind_some]
        exact uncowBefore_spec (y :: before) hfuel' h

/-- A chain is not longer than the heap. -/
theorem length_le_next {cells : Heap (Cell K T)} {leaves : List (Leaf K T)}
    (hin : (Tree.chain leaves).In cells) (hsep : (Tree.chain leaves).Sep) :
    leaves.length ≤ cells.next := by
  have hsub : leaves.map Leaf.addr ⊆ List.range cells.next := by
    intro a ha
    obtain ⟨x, hx, heq⟩ := List.mem_map.mp ha
    obtain ⟨cell, hread, _⟩ := hin.read ⟨x, hx, heq, rfl⟩
    exact List.mem_range.mpr (Heap.lt_next hread)
  have hle := (List.subperm_of_subset hsep hsub).length_le
  rw [List.length_map, List.length_range] at hle
  exact hle

/-- The search in a chain ends at the first leaf with the key. -/
theorem findLeaf_spec [BEq K] {cells : Heap (Cell K T)}
    {leaves : List (Leaf K T)} (hin : (Tree.chain leaves).In cells) (k : K)
    {fuel : Nat} (hfuel : leaves.length ≤ fuel) :
    findLeaf cells k fuel (chainPtr leaves) =
      some ((leaves.find? fun x => k == x.key).map Leaf.addr) := by
  induction leaves generalizing fuel with
  | nil => cases fuel <;> rfl
  | cons x rest ih =>
    cases fuel with
    | zero => cases hfuel
    | succ fuel =>
      have hread : cells.read x.addr =
        some (.leaf x.generation x.key x.value (chainPtr rest)) := hin.1
      have hrest := ih hin.2 (Nat.le_of_succ_le_succ hfuel)
      show findLeaf cells k (fuel + 1) (some x.addr) = _
      unfold findLeaf
      rw [hread, List.find?_cons]
      show (if (k == x.key) = true then _ else _) = _
      cases hk : k == x.key with
      | true => rfl
      | false =>
        rw [if_neg Bool.false_ne_true]
        exact hrest

end Map

end ViEqui.Gen
