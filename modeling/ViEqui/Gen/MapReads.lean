import ViEqui.Gen.MapPlace

/-!
# Reads, assignments and destruction

What `find` and `for_each` return for the trie behind a root, and what an
assignment through a reference and `free_child` change.
-/

namespace ViEqui.Gen

open KeyedPairs (Present Distinct)

variable {K T : Type}

/-- The cell of a leaf. -/
theorem Tree.In.leaf {cells : Heap (Cell K T)} {t : Tree K T} {x : Leaf K T}
    (hin : t.In cells) (hx : t.HasLeaf x) : ∃ next,
    cells.read x.addr = some (.leaf x.generation x.key x.value next) := by
  induction t with
  | chain leaves =>
    induction leaves with
    | nil => cases hx
    | cons y rest ih =>
      cases List.mem_cons.mp hx with
      | inl heq =>
        rw [heq]
        exact ⟨chainPtr rest, hin.1⟩
      | inr hrest => exact ih hin.2 hrest
  | node a g bitmap c ih =>
    obtain ⟨i, hi, hx⟩ := hx
    exact ih i (hin.2 i hi) hx

namespace Map

variable {cells : Heap (Cell K T)} {h : K → Nat} {k : K} {level : Nat}

/-! ## `find` -/

theorem findChild_node {a g : Nat} {bitmap : BitVec 32} {c : Nat → Tree K T}
    (hin : (Tree.node a g bitmap c).In cells) (fuel rest : Nat) :
    findChild cells (fuel + 1) (some a) rest =
      if bitmap.getLsbD (rest % 32) then
        findChild cells fuel (c (rest % 32)).ptr (rest / 32)
      else some none := by
  have hread := hin.1
  have hhas : hasBit bitmap (rest % arity) = bitmap.getLsbD (rest % 32) :=
    hasBit_eq bitmap _
  rw [findChild, hread]
  simp only [Option.bind_eq_bind, Option.bind_some, hhas, position_eq,
    Option.pure_def]
  cases hbit : bitmap.getLsbD (rest % 32) with
  | true =>
    have hget := BitSlots.getElem?_map_slots (fun i => (c i).ptr)
      (Nat.mod_lt rest (by omega)) hbit
    rw [if_pos rfl, if_pos rfl]
    show ((Tree.array bitmap c)[BitSlots.above bitmap.getLsbD (rest % 32) 32 - 1]?).bind
      _ = _
    rw [Tree.array, hget]
    rfl
  | false => rfl

/-- `find` comes to the chain of the key. -/
theorem findChild_spec [BEq K] (hcons : ∀ k k', (k == k') = true → h k = h k')
    {t : Tree K T} (fuel : Nat) (hin : t.In cells) (hsep : t.Sep)
    (hwf : t.Wf h level) (hlevel : level ≤ 13) (hfuel : 14 ≤ level + fuel) :
    ∃ leaves, findChild cells fuel t.ptr (h k / 32 ^ level) =
        some (chainPtr leaves) ∧ (Tree.chain leaves).In cells ∧
      (Tree.chain leaves).Sep ∧
      (∀ p ∈ (Tree.chain leaves).items, p ∈ t.items) ∧
      (Present k t.items → Present k (Tree.chain leaves).items) := by
  induction t generalizing level fuel with
  | chain leaves =>
    refine ⟨leaves, ?_, hin, hsep, fun _ hp => hp, id⟩
    cases leaves with
    | nil => cases fuel <;> rfl
    | cons x rest =>
      cases fuel with
      | zero => omega
      | succ fuel =>
        have hread : cells.read x.addr =
            some (.leaf x.generation x.key x.value (chainPtr rest)) := hin.1
        show findChild cells (fuel + 1) (some x.addr) _ = some (some x.addr)
        rw [findChild, hread]
        rfl
  | node a g bitmap c ih =>
    cases fuel with
    | zero => omega
    | succ fuel =>
      have hindex : ∀ j, bitmap.getLsbD j = true → ∀ p ∈ (c j).items,
          h p.1 / 32 ^ level % 32 = j := fun j hj => (hwf.2.1 j hj).2.2
      show ∃ leaves, findChild cells (fuel + 1) (some a) _ = _ ∧ _
      rw [findChild_node hin]
      generalize hi : h k / 32 ^ level % 32 = i
      cases hbit : bitmap.getLsbD i with
      | true =>
        have hmem := Tree.mem_items_index (a := a) (g := g) hbit hindex
        obtain ⟨leaves, hrun, hin', hsep', hsub, hpresent⟩ :=
          ih i fuel (hin.2 i hbit) (hsep i hbit).1
            (hwf.2.1 i hbit).2.1 (Nat.succ_le_of_lt hwf.1) (by omega)
        rw [if_pos rfl, ← Tree.div_succ]
        refine ⟨leaves, hrun, hin', hsep', ?_, ?_⟩
        · exact fun p hp => ((hmem p).mp (hsub p hp)).1
        · intro hp
          obtain ⟨p, hp, hkey⟩ := hp
          apply hpresent
          refine ⟨p, (hmem p).mpr ⟨hp, ?_⟩, hkey⟩
          rw [← hcons k p.1 hkey, hi]
      | false =>
        refine ⟨[], rfl, trivial, List.nodup_nil, (fun p hp => by cases hp), ?_⟩
        intro hp
        obtain ⟨p, hp, hkey⟩ := hp
        obtain ⟨j, _, hj, hp⟩ := Tree.mem_items_node.mp hp
        have hji : j = i := by
          rw [← hindex j hj p hp, ← hcons k p.1 hkey, hi]
        rw [hji, hbit] at hj
        cases hj

/-- `find` is the lookup in the pairs of the trie. -/
theorem findValue_spec [BEq K] [EquivBEq K] {hash : K → BitVec 64}
    (hcons : ∀ k k', (k == k') = true → hashKey hash k = hashKey hash k')
    {t : Tree K T} (hin : t.In cells) (hsep : t.Sep)
    (hwf : t.Wf (hashKey hash) 0) (k : K) :
    findValue hash cells t.ptr k = some (KeyedPairs.lookup k t.items) := by
  obtain ⟨leaves, hrun, hin', hsep', hsub, hpresent⟩ := findChild_spec
    (k := k) hcons maxLevels hin hsep hwf (by omega)
    (by unfold maxLevels; omega)
  rw [Nat.pow_zero, Nat.div_one] at hrun
  have hleaf := findLeaf_spec hin' k (length_le_next hin' hsep')
  unfold findValue
  simp only [hrun, hleaf, Option.bind_eq_bind, Option.bind_some, Option.pure_def]
  cases hfind : leaves.find? fun x => k == x.key with
  | none =>
    rw [Option.map_none]
    show some none = _
    congr 1
    symm
    rw [KeyedPairs.lookup_eq_none_iff]
    intro hp
    obtain ⟨p, hp, hkey⟩ := hpresent hp
    obtain ⟨x, hx, rfl⟩ := List.mem_map.mp hp
    exact List.find?_eq_none.mp hfind x hx hkey
  | some x =>
    have hx : x ∈ leaves := List.mem_of_find?_eq_some hfind
    have hkey : (k == x.key) = true :=
      List.find?_some (p := fun x : Leaf K T => k == x.key) hfind
    have hvalue : KeyedPairs.lookup k t.items = some x.value := by
      rw [(hwf.distinct hcons).lookup_eq_some_iff]
      exact ⟨(x.key, x.value), hsub _ (List.mem_map_of_mem hx), hkey, rfl⟩
    obtain ⟨next, hread⟩ := hin'.leaf hx
    rw [Option.map_some, hvalue]
    simp only [hread, Option.bind_some]

/-! ## `for_each` -/

theorem forEachLeaf_spec {leaves : List (Leaf K T)}
    (hin : (Tree.chain leaves).In cells) {fuel : Nat}
    (hfuel : leaves.length ≤ fuel) :
    forEachLeaf cells fuel (chainPtr leaves) =
      some (Tree.chain leaves).items := by
  induction leaves generalizing fuel with
  | nil => cases fuel <;> rfl
  | cons x rest ih =>
    cases fuel with
    | zero => cases hfuel
    | succ fuel =>
      have hread : cells.read x.addr =
        some (.leaf x.generation x.key x.value (chainPtr rest)) := hin.1
      have hrest := ih hin.2 (Nat.le_of_succ_le_succ hfuel)
      show forEachLeaf cells (fuel + 1) (some x.addr) = _
      rw [forEachLeaf, hread]
      simp only [hrest, Option.bind_eq_bind, Option.bind_some, Option.pure_def]
      rfl

theorem mapM_map_eq_some {α β γ : Type} {l : List α} {p : α → β}
    {f : β → Option γ} {r : α → γ} (hf : ∀ x ∈ l, f (p x) = some (r x)) :
    (l.map p).mapM f = some (l.map r) := by
  induction l with
  | nil => rfl
  | cons x l ih =>
    rw [List.map_cons, List.mapM_cons, hf x List.mem_cons_self,
      ih fun y hy => hf y (List.mem_cons_of_mem x hy)]
    rfl

/-- `for_each` visits the pairs of the trie. -/
theorem forEachChild_spec [BEq K] {t : Tree K T} {a : Nat} (fuel : Nat)
    (hin : t.In cells) (hsep : t.Sep) (hwf : t.Wf h level) (hptr : t.ptr = some a)
    (hfuel : 14 ≤ level + fuel) (hlevel : level ≤ 13) :
    forEachChild cells fuel a = some t.items := by
  induction t generalizing level fuel a with
  | chain leaves =>
    cases fuel with
    | zero => omega
    | succ fuel =>
      cases leaves with
      | nil => cases hptr
      | cons x rest =>
        have hread : cells.read x.addr =
          some (.leaf x.generation x.key x.value (chainPtr rest)) := hin.1
        cases hptr
        rw [forEachChild, hread]
        exact forEachLeaf_spec hin (length_le_next hin hsep)
  | node addr g bitmap c ih =>
    cases fuel with
    | zero => omega
    | succ fuel =>
      cases hptr
      have hread := hin.1
      have hcount := popcount_eq_length_array bitmap c
      have hparts := mapM_map_eq_some
        (l := BitSlots.slots bitmap.getLsbD 32) (p := fun i => (c i).ptr)
        (f := fun elem => elem.bind fun a => forEachChild cells fuel a)
        (r := fun i => (c i).items) (by
          intro i hi
          have hbit := (BitSlots.mem_slots.mp hi).2
          obtain ⟨hne, hwf', _⟩ := hwf.2.1 i hbit
          obtain ⟨b, hb⟩ : ∃ b, (c i).ptr = some b := by
            cases hc : c i with
            | chain leaves =>
              cases leaves with
              | nil =>
                rw [hc] at hne
                exact absurd rfl hne
              | cons x rest => exact ⟨x.addr, rfl⟩
            | node b _ _ _ => exact ⟨b, rfl⟩
          show (c i).ptr.bind _ = _
          rw [hb, Option.bind_some]
          exact ih i fuel (hin.2 i hbit) (hsep i hbit).1 hwf' hb (by omega)
            (Nat.succ_le_of_lt hwf.1))
      rw [forEachChild, hread]
      simp only [Option.bind_eq_bind, Option.bind_some, Option.pure_def]
      rw [List.take_of_length_le (Nat.le_of_eq hcount.symm)]
      show Option.bind (((BitSlots.slots bitmap.getLsbD 32).map _).mapM _) _ = _
      rw [hparts, Option.bind_some, Tree.items, List.flatMap_def]

/-! ## `free_child` -/

variable {g : Nat}

theorem freeLeaves_spec {leaves : List (Leaf K T)}
    (hin : (Tree.chain leaves).In cells) (hsep : (Tree.chain leaves).Sep)
    {fuel : Nat} (hfuel : leaves.length ≤ fuel) :
    ∃ cells', freeLeaves g fuel cells (chainPtr leaves) = some cells' ∧
      ∀ a, ¬ (Tree.chain leaves).Has a g → cells'.read a = cells.read a := by
  induction leaves generalizing fuel cells with
  | nil => exact ⟨cells, by cases fuel <;> rfl, fun _ _ => rfl⟩
  | cons x rest ih =>
    cases fuel with
    | zero => cases hfuel
    | succ fuel =>
      have hread : cells.read x.addr =
        some (.leaf x.generation x.key x.value (chainPtr rest)) := hin.1
      show ∃ cells', freeLeaves g (fuel + 1) cells (some x.addr) = _ ∧ _
      rw [freeLeaves, hread]
      simp only [Option.bind_eq_bind, Option.bind_some, Option.pure_def]
      by_cases hx : x.generation = g
      · rw [if_pos hx]
        obtain ⟨hnot, hsep'⟩ := Tree.sep_chain_cons.mp hsep
        have hin' : (Tree.chain rest).In (cells.free x.addr) := by
          apply Tree.In.congr (t := .chain rest) hin.2
          intro a y hay
          apply Heap.read_free_ne
          intro heq
          exact hnot ⟨y, heq ▸ hay⟩
        obtain ⟨cells', hrun, hsame⟩ :=
          ih hin' hsep' (Nat.le_of_succ_le_succ hfuel)
        refine ⟨cells', hrun, ?_⟩
        intro a ha
        rw [hsame a (fun hrest => ha (Tree.has_chain_cons.mpr (Or.inr hrest)))]
        apply Heap.read_free_ne
        intro heq
        exact ha (Tree.has_chain_cons.mpr (Or.inl ⟨heq.symm, hx⟩))
      · rw [if_neg hx]
        exact ⟨cells, rfl, fun _ _ => rfl⟩

/-- The children of a node are freed one after the other. -/
theorem freeChildren_spec (fuel : Nat) (cells : Heap (Cell K T))
    {c : Nat → Tree K T} {l : List Nat} (hnodup : l.Nodup)
    (hfree : ∀ i ∈ l, ∀ cells : Heap (Cell K T), (c i).In cells →
      ∃ cells', freeChild g fuel cells (c i).ptr = some cells' ∧
        ∀ a, ¬ (c i).Has a g → cells'.read a = cells.read a)
    (hin : ∀ i ∈ l, (c i).In cells)
    (hapart : ∀ i ∈ l, ∀ j ∈ l, j ≠ i → ∀ a, (c i).HasAddr a → ¬ (c j).HasAddr a) :
    ∃ cells', (l.map fun i => (c i).ptr).foldlM
        (fun cells elem => freeChild g fuel cells elem) cells = some cells' ∧
      ∀ a, (∀ i ∈ l, ¬ (c i).Has a g) → cells'.read a = cells.read a := by
  induction l generalizing cells with
  | nil => exact ⟨cells, rfl, fun _ _ => rfl⟩
  | cons i l ih =>
    obtain ⟨hnot, hnodup'⟩ := List.nodup_cons.mp hnodup
    obtain ⟨cells₁, hrun₁, hsame₁⟩ :=
      hfree i List.mem_cons_self cells (hin i List.mem_cons_self)
    have hin₁ : ∀ j ∈ l, (c j).In cells₁ := by
      intro j hj
      apply (hin j (List.mem_cons_of_mem i hj)).congr
      intro a y hay
      apply hsame₁ a
      intro hai
      have hij : i ≠ j := fun heq => hnot (heq ▸ hj)
      exact hapart j (List.mem_cons_of_mem i hj) i List.mem_cons_self hij a
        ⟨y, hay⟩ ⟨g, hai⟩
    obtain ⟨cells₂, hrun₂, hsame₂⟩ := ih cells₁ hnodup'
      (fun j hj => hfree j (List.mem_cons_of_mem i hj)) hin₁
      (fun j hj l' hl' => hapart j (List.mem_cons_of_mem i hj) l'
        (List.mem_cons_of_mem i hl'))
    refine ⟨cells₂, ?_, ?_⟩
    · rw [List.map_cons, List.foldlM_cons, hrun₁]
      exact hrun₂
    · intro a ha
      rw [hsame₂ a (fun j hj => ha j (List.mem_cons_of_mem i hj)),
        hsame₁ a (ha i List.mem_cons_self)]

/-- `free_child` has a result, and frees cells of the map only. -/
theorem freeChild_spec [BEq K] {t : Tree K T} (fuel : Nat) (hin : t.In cells)
    (hsep : t.Sep) (hwf : t.Wf h level) (hfuel : 14 ≤ level + fuel)
    (hlevel : level ≤ 13) :
    ∃ cells', freeChild g fuel cells t.ptr = some cells' ∧
      ∀ a, ¬ t.Has a g → cells'.read a = cells.read a := by
  induction t generalizing level fuel cells with
  | chain leaves =>
    cases fuel with
    | zero => omega
    | succ fuel =>
      cases leaves with
      | nil => exact ⟨cells, rfl, fun _ _ => rfl⟩
      | cons x rest =>
        have hread : cells.read x.addr =
          some (.leaf x.generation x.key x.value (chainPtr rest)) := hin.1
        show ∃ cells', freeChild g (fuel + 1) cells (some x.addr) = _ ∧ _
        rw [freeChild, hread]
        exact freeLeaves_spec hin hsep (length_le_next hin hsep)
  | node addr y bitmap c ih =>
    cases fuel with
    | zero => omega
    | succ fuel =>
      have hread := hin.1
      have hcount := popcount_eq_length_array bitmap c
      show ∃ cells', freeChild g (fuel + 1) cells (some addr) = _ ∧ _
      rw [freeChild, hread]
      simp only [Option.bind_eq_bind, Option.bind_some, Option.pure_def]
      rw [List.take_of_length_le (Nat.le_of_eq hcount.symm)]
      by_cases hy : y = g
      · rw [if_pos hy, Tree.array, ← List.map_reverse]
        have hbit : ∀ i ∈ (BitSlots.slots bitmap.getLsbD 32).reverse,
            bitmap.getLsbD i = true := fun i hi =>
          (BitSlots.mem_slots.mp (List.mem_reverse.mp hi)).2
        obtain ⟨cells', hrun, hsame⟩ := freeChildren_spec (g := g) (c := c) fuel
          cells
          (List.nodup_reverse.mpr (BitSlots.nodup_slots bitmap.getLsbD 32))
          (fun i hi cells hin' => ih i fuel hin' (hsep i (hbit i hi)).1
            (hwf.2.1 i (hbit i hi)).2.1 (by omega) (Nat.succ_le_of_lt hwf.1))
          (fun i hi => hin.2 i (hbit i hi))
          (fun i hi j hj => (hsep i (hbit i hi)).2.2 j (hbit j hj))
        rw [hrun]
        refine ⟨cells'.free addr, rfl, ?_⟩
        intro a ha
        have hne : a ≠ addr := fun heq => ha (Or.inl ⟨heq.symm, hy⟩)
        rw [Heap.read_free_ne _ hne]
        exact hsame a fun i hi hai => ha (Or.inr ⟨i, hbit i hi, hai⟩)
      · rw [if_neg hy]
        exact ⟨cells, rfl, fun _ _ => rfl⟩

end Map

end ViEqui.Gen
