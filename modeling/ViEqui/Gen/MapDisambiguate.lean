import ViEqui.Gen.MapMut

/-!
# New nodes in front of a chain

`mut` puts nodes in front of a chain until the hash of its keys and that of the
new key differ in the next five bits.  Each node has one child or two: the
chain, and an empty chain for the new key.
-/

namespace ViEqui.Gen.Map

open KeyedPairs (Present Distinct)

variable {K T : Type} {g : Nat} {st : Store K T} {child : Slot}

/-- The bitmap of a new node. -/
def bitmapFor (e i : Nat) : BitVec 32 := 1#32 <<< e ||| 1#32 <<< i

/-- The children of a new node: the chain at `e`, and nothing elsewhere. -/
def childrenFor (leaves : List (Leaf K T)) (e : Nat) (j : Nat) : Tree K T :=
  if j = e then .chain leaves else .chain []

theorem getLsbD_bitmapFor {e i j : Nat} (hj : j < 32) :
    (bitmapFor e i).getLsbD j = true ↔ j = e ∨ j = i := by
  unfold bitmapFor
  rw [BitVec.getLsbD_or, BitSlots.getLsbD_one_shift hj,
    BitSlots.getLsbD_one_shift hj, Bool.or_eq_true, decide_eq_true_iff,
    decide_eq_true_iff]

/-- The bits of a new node, the highest first. -/
theorem slots_bitmapFor {e i : Nat} (he : e < 32) (hi : i < 32) :
    BitSlots.slots (bitmapFor e i).getLsbD 32 =
      if e = i then [e] else if e < i then [i, e] else [e, i] := by
  split
  · rename_i heq
    apply BitSlots.slots_single he
    intro j hj
    rw [getLsbD_bitmapFor hj, heq, or_self]
  · rename_i hne
    split
    · rename_i hlt
      apply BitSlots.slots_pair hlt hi
      intro j hj
      exact getLsbD_bitmapFor hj
    · apply BitSlots.slots_pair (by omega) he
      intro j hj
      rw [getLsbD_bitmapFor hj, or_comm]

/-- The place for the new key in the array of the new node. -/
theorem position_bitmapFor {e i : Nat} (he : e < 32) (hi : i < 32) :
    BitSlots.above (bitmapFor e i).getLsbD i 32 - 1 = if i < e then 1 else 0 := by
  have hget := BitSlots.getElem?_slots hi ((getLsbD_bitmapFor hi).mpr (Or.inr rfl) :
    (bitmapFor e i).getLsbD i = true)
  rw [slots_bitmapFor he hi] at hget
  generalize BitSlots.above (bitmapFor e i).getLsbD i 32 - 1 = m at hget ⊢
  by_cases heq : e = i
  · rw [if_pos heq] at hget
    rw [if_neg (by omega)]
    have hlt := (List.getElem?_eq_some_iff.mp hget).1
    have : [e].length = 1 := rfl
    omega
  · rw [if_neg heq] at hget
    by_cases hlt : e < i
    · rw [if_pos hlt] at hget
      rw [if_neg (by omega)]
      match m, hget with
      | 0, _ => rfl
      | 1, h =>
        cases h
        exact absurd rfl heq
    · rw [if_neg hlt] at hget
      rw [if_pos (by omega)]
      match m, hget with
      | 0, h =>
        cases h
        exact absurd rfl heq
      | 1, _ => rfl

theorem array_bitmapFor (leaves : List (Leaf K T)) {e i : Nat} (he : e < 32)
    (hi : i < 32) :
    ((List.replicate (if e = i then 1 else 2) none).set
        (if i < e then 1 else 0) none).set (if e < i then 1 else 0)
        (chainPtr leaves) =
      Tree.array (bitmapFor e i) (childrenFor leaves e) := by
  have hself : (childrenFor leaves e e).ptr = chainPtr leaves := by
    unfold childrenFor
    rw [if_pos rfl]
    rfl
  have hnone : ∀ j, j ≠ e → (childrenFor leaves e j).ptr = none := by
    intro j hj
    unfold childrenFor
    rw [if_neg hj]
    rfl
  unfold Tree.array
  rw [slots_bitmapFor he hi]
  by_cases heq : e = i
  · rw [if_pos heq, if_pos heq, if_neg (by omega), if_neg (by omega)]
    exact congrArg (fun x => [x]) hself.symm
  · rw [if_neg heq, if_neg heq]
    have hother := hnone i (Ne.symm heq)
    by_cases hlt : e < i
    · rw [if_pos hlt, if_neg (by omega), if_pos hlt, List.map_cons, List.map_cons,
        hself, hother]
      rfl
    · rw [if_neg hlt, if_pos (by omega), if_neg hlt, List.map_cons, List.map_cons,
        hself, hother]
      rfl

theorem has_childrenFor {leaves : List (Leaf K T)} {e j a y : Nat}
    (h : (childrenFor leaves e j).Has a y) :
    j = e ∧ (Tree.chain leaves).Has a y := by
  unfold childrenFor at h
  by_cases hj : j = e
  · rw [if_pos hj] at h
    exact ⟨hj, h⟩
  · rw [if_neg hj] at h
    obtain ⟨x, hx, _⟩ := h
    cases hx

theorem newNode_spec {leaves : List (Leaf K T)} {e i : Nat} (he : e < 32)
    (hi : i < 32) (h : At st child (.chain leaves)) :
    ∃ st' n, allocNode g st child (if e = i then 1 else 2) (bitmapFor e i)
        (((List.replicate (if e = i then 1 else 2) none).set
          (if i < e then 1 else 0) none).set (if e < i then 1 else 0)
          (chainPtr leaves)) = some (st', n) ∧
      Step g st child (.chain leaves) st'
        (.node n g (bitmapFor e i) (childrenFor leaves e)) := by
  obtain ⟨st', hlink, _⟩ := Store.link_spec h.get (.node g (bitmapFor e i)
    (Tree.array (bitmapFor e i) (childrenFor leaves e)))
  have hlength := popcount_eq_length_array (bitmapFor e i)
    (childrenFor leaves e)
  have hcount : popcount (bitmapFor e i) = if e = i then 1 else 2 := by
    rw [hlength, Tree.array, slots_bitmapFor he hi, List.length_map]
    split
    · rfl
    · split <;> rfl
  have hpos : 0 < popcount (bitmapFor e i) :=
    popcount_pos he ((getLsbD_bitmapFor he).mpr (Or.inl rfl))
  refine ⟨st', st.cells.next, ?_, ?_⟩
  · rw [array_bitmapFor leaves he hi, ← hcount,
      allocNode_eq rfl hpos hlength.symm]
    exact hlink
  · apply Step.of_link h h.get rfl rfl (fun _ _ => rfl) hlink rfl
    · intro j hj
      refine ⟨?_, ?_, ?_⟩
      · unfold childrenFor
        split
        · exact h.sep
        · exact List.nodup_nil
      · intro hhas
        obtain ⟨y, hy⟩ := hhas
        exact next_not_has h.cells ⟨y, (has_childrenFor hy).2⟩
      · intro l _ hlj a ha ha'
        obtain ⟨y, hy⟩ := ha
        obtain ⟨y', hy'⟩ := ha'
        exact hlj ((has_childrenFor hy').1.trans (has_childrenFor hy).1.symm)
    · intro a y ha
      cases ha with
      | inl heq => exact Or.inl ⟨heq.1.symm, heq.2.symm⟩
      | inr ha =>
        obtain ⟨j, _, ha⟩ := ha
        exact Or.inr ⟨(has_childrenFor ha).2, rfl⟩
    · intro cells hread hsame
      refine ⟨hread, ?_⟩
      intro j _
      unfold childrenFor
      split
      · exact h.cells.congr fun a y ha => hsame a y ha rfl
      · trivial

/-- The new node has the pairs of the chain. -/
theorem items_bitmapFor (leaves : List (Leaf K T)) {n e i : Nat} (he : e < 32)
    (hi : i < 32) :
    (Tree.node n g (bitmapFor e i) (childrenFor leaves e)).items =
      (Tree.chain leaves).items := by
  have hself : (childrenFor leaves e e).items = (Tree.chain leaves).items := by
    unfold childrenFor
    rw [if_pos rfl]
  have hnone : ∀ j, j ≠ e → (childrenFor leaves e j).items = [] := by
    intro j hj
    unfold childrenFor
    rw [if_neg hj]
    rfl
  show (BitSlots.slots (bitmapFor e i).getLsbD 32).flatMap _ = _
  rw [slots_bitmapFor he hi]
  split
  · rw [List.flatMap_singleton, hself]
  · rename_i hne
    have hother := hnone i (Ne.symm hne)
    split
    · rw [List.flatMap_cons, List.flatMap_singleton, hself, hother,
        List.nil_append]
    · rw [List.flatMap_cons, List.flatMap_singleton, hself, hother,
        List.append_nil]

/-- One round of the loop. -/
theorem disambiguate_succ {leaves : List (Leaf K T)} {first rest : Nat}
    (fuel : Nat) (h : At st child (.chain leaves)) :
    disambiguate g (fuel + 1) st child first rest =
      (allocNode g st child (if first % 32 = rest % 32 then 1 else 2)
        (bitmapFor (first % 32) (rest % 32))
        (((List.replicate (if first % 32 = rest % 32 then 1 else 2) none).set
          (if rest % 32 < first % 32 then 1 else 0) none).set
          (if first % 32 < rest % 32 then 1 else 0) (chainPtr leaves))).bind
      fun r =>
        if first % 32 ≠ rest % 32 then
          some (r.1, .elem r.2 (if rest % 32 < first % 32 then 1 else 0))
        else
          disambiguate g fuel r.1
            (.elem r.2 (if rest % 32 < first % 32 then 1 else 0)) (first / 32)
            (rest / 32) := by
  have hptr : st.get child = some (chainPtr leaves) := h.get
  rw [disambiguate, hptr]
  rfl

theorem mem_childrenFor {leaves : List (Leaf K T)} {e j : Nat} {p : K × T}
    (h : p ∈ (childrenFor leaves e j).items) :
    j = e ∧ p ∈ (Tree.chain leaves).items := by
  unfold childrenFor at h
  by_cases hj : j = e
  · rw [if_pos hj] at h
    exact ⟨hj, h⟩
  · rw [if_neg hj] at h
    cases h

section

variable [BEq K] [EquivBEq K] [Inhabited T] {h : K → Nat} {k : K}

/-- A leaf in front of a chain without its key. -/
theorem insertLeaf_mutOf {leaves : List (Leaf K T)}
    (hat : At st child (.chain leaves))
    (habsent : ¬ Present k (Tree.chain leaves).items) :
    ∃ st' t' n, insertLeaf g st child k = some (st', n) ∧
      Step g st child (.chain leaves) st' t' ∧
      (∃ new, t' = .chain new ∧
        t'.items = (k, default) :: (Tree.chain leaves).items) ∧
      MutOf k g (.chain leaves) t' n true := by
  obtain ⟨st', n, hrun, hstep⟩ := insertLeaf_spec (g := g) hat k
  refine ⟨st', _, n, hrun, hstep, ⟨_, rfl, rfl⟩, List.Perm.refl _, ?_, ?_⟩
  · exact ⟨fun _ => habsent, fun _ => rfl⟩
  · exact ⟨k, default, BEq.refl k, List.mem_cons_self⟩

/-- The steps of `mut` for a new key whose hash is not that of the chain. -/
theorem disambiguate_spec (hcons : ∀ k k', (k == k') = true → h k = h k')
    (hbound : ∀ k, h k < 2 ^ 64) {leaves : List (Leaf K T)}
    (hne : (Tree.chain leaves).items ≠ [])
    (hdistinct : Distinct (Tree.chain leaves).items)
    {fuel level first : Nat}
    (hfuel : 13 ≤ level + fuel) (hat : At st child (.chain leaves))
    (hfirst : ∀ p ∈ (Tree.chain leaves).items, h p.1 / 32 ^ level = first)
    (hdiff : first ≠ h k / 32 ^ level) :
    ∃ st' t' n, ((disambiguate g fuel st child first (h k / 32 ^ level)).bind
        fun r => insertLeaf g r.1 r.2 k) = some (st', n) ∧
      Step g st child (.chain leaves) st' t' ∧ t'.Wf h level ∧
      MutOf k g (.chain leaves) t' n true := by
  obtain ⟨x, hx⟩ := List.exists_mem_of_ne_nil _ hne
  have hlevel : level < 13 := by
    by_contra hge
    apply hdiff
    rw [← hfirst x hx, Tree.div_eq_zero (hbound x.1) (by omega),
      Tree.div_eq_zero (hbound k) (by omega)]
  induction fuel generalizing st child level first with
  | zero => omega
  | succ fuel ih =>
    let e := first % 32
    let i := h k / 32 ^ level % 32
    have he : e < 32 := Nat.mod_lt _ (by omega)
    have hi : i < 32 := Nat.mod_lt _ (by omega)
    obtain ⟨st₁, n₁, halloc, hstep₁⟩ := newNode_spec (g := g) he hi hat
    have hat₁ := hstep₁.at_after hat
    have hbit : (bitmapFor e i).getLsbD i = true :=
      (getLsbD_bitmapFor hi).mpr (Or.inr rfl)
    have hat₂ := hat₁.elem hi hbit
    have hindex : ∀ j, (bitmapFor e i).getLsbD j = true →
        ∀ p ∈ (childrenFor leaves e j).items, h p.1 / 32 ^ level % 32 = j := by
      intro j _ p hp
      obtain ⟨hj, hp⟩ := mem_childrenFor hp
      rw [hfirst p hp, hj]
    have hnext : ∀ p ∈ (Tree.chain leaves).items,
        h p.1 / 32 ^ (level + 1) = first / 32 := by
      intro p hp
      rw [Tree.div_succ, hfirst p hp]
    -- What is left to do is below the new node.
    have hrest : ∃ st₂ t₂ n₂,
        ((if e ≠ i then some (st₁, Slot.elem n₁ (if i < e then 1 else 0))
          else disambiguate g fuel st₁ (.elem n₁ (if i < e then 1 else 0))
            (first / 32) (h k / 32 ^ level / 32)).bind
          fun r => insertLeaf g r.1 r.2 k) = some (st₂, n₂) ∧
        Step g st₁ (.elem n₁ (BitSlots.above (bitmapFor e i).getLsbD i 32 - 1))
          (childrenFor leaves e i) st₂ t₂ ∧
        t₂.Wf h (level + 1) ∧
        MutOf k g (childrenFor leaves e i) t₂ n₂ true := by
      rw [position_bitmapFor he hi] at hat₂ ⊢
      by_cases heq : e = i
      · have hchild : childrenFor leaves e i = .chain leaves := by
          unfold childrenFor
          rw [if_pos heq.symm]
        have hdiff' : first / 32 ≠ h k / 32 ^ level / 32 := by
          intro hdiv
          apply hdiff
          have hmod : first % 32 = h k / 32 ^ level % 32 := heq
          omega
        rw [if_neg (fun hne => hne heq)]
        rw [hchild] at hat₂ ⊢
        rw [← Tree.div_succ] at hdiff' ⊢
        apply ih (by omega) hat₂ hnext hdiff'
        by_contra hge
        apply hdiff'
        rw [← hnext x hx, Tree.div_eq_zero (hbound x.1) (by omega),
          Tree.div_eq_zero (hbound k) (by omega)]
      · have hchild : childrenFor leaves e i = .chain [] := by
          unfold childrenFor
          rw [if_neg (Ne.symm heq)]
        rw [if_pos heq]
        rw [hchild] at hat₂ ⊢
        have hnot : ¬ Present k (Tree.chain ([] : List (Leaf K T))).items := by
          intro hp
          obtain ⟨p, hp, _⟩ := hp
          cases hp
        obtain ⟨st₂, t₂, n₂, hrun, hstep, ⟨new, hnew, hitems⟩, hmut⟩ :=
          insertLeaf_mutOf (g := g) hat₂ hnot
        refine ⟨st₂, t₂, n₂, hrun, hstep, ?_, hmut⟩
        rw [hnew] at hitems ⊢
        apply Tree.wf_chain_of_rest (h k / 32 ^ (level + 1))
        · rw [hitems]
          exact List.pairwise_singleton _ _
        · intro p hp
          rw [hitems] at hp
          rw [List.mem_singleton.mp hp]
    obtain ⟨st₂, t₂, n₂, hrun, hstep₂, hwf₂, hmut₂⟩ := hrest
    have hmut := hmut₂.lift (a := n₁) hcons hbit rfl hindex
    have hold : ∀ p ∈ (Tree.chain leaves).items,
        p ∈ (Tree.node n₁ g (bitmapFor e i) (childrenFor leaves e)).items := by
      intro p hp
      rw [items_bitmapFor leaves he hi]
      exact hp
    refine ⟨st₂, _, n₂, ?_, hstep₁.trans (hstep₂.lift_elem hat₁ hi hbit), ?_, ?_⟩
    · rw [disambiguate_succ fuel hat, halloc]
      exact hrun
    · apply Tree.Wf.update hlevel
      · intro j hj hji
        have hje : j = e :=
          ((getLsbD_bitmapFor (Tree.lt_of_bit hj)).mp hj).resolve_right hji
        have hchild : childrenFor leaves e j = .chain leaves := by
          unfold childrenFor
          rw [if_pos hje]
        have hj' := hindex j hj
        rw [hchild] at hj' ⊢
        exact ⟨hne, Tree.wf_chain_of_rest _ hdistinct hnext, hj'⟩
      · exact hmut₂.items_ne_nil
      · exact hwf₂
      · intro p hp
        cases hmut₂.mem hp with
        | inl hp => exact hindex i hbit p hp
        | inr hp => rw [hp]
      · refine ⟨x, hmut.mem_old (hold x hx), (k, default), ?_, ?_⟩
        · exact hmut.items.symm.subset (List.mem_append_left _
            (List.mem_singleton_self _))
        · rw [hfirst x hx]
          exact hdiff
    · exact hmut.of_items_eq (items_bitmapFor leaves he hi)

end

end ViEqui.Gen.Map
