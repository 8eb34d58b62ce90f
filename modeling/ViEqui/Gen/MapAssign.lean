import ViEqui.Gen.MapReads

/-!
# Assignments through the reference of `mut`

The reference is to the value in a leaf that the map owns.  An assignment is
one more `Step`, and changes the value of one key.
-/

namespace ViEqui.Gen

open KeyedPairs (Present Distinct)

variable {K T : Type}

namespace Tree

theorem HasLeaf.has {t : Tree K T} {x : Leaf K T} (h : t.HasLeaf x) :
    t.Has x.addr x.generation := by
  induction t with
  | chain leaves => exact ⟨x, h, rfl, rfl⟩
  | node a g bitmap c ih =>
    obtain ⟨i, hi, hx⟩ := h
    exact Or.inr ⟨i, hi, ih i hx⟩

theorem HasLeaf.mem {t : Tree K T} {x : Leaf K T} (h : t.HasLeaf x) :
    (x.key, x.value) ∈ t.items := by
  induction t with
  | chain leaves => exact List.mem_map_of_mem h
  | node a g bitmap c ih =>
    obtain ⟨i, hi, hx⟩ := h
    exact mem_items_node.mpr ⟨i, lt_of_bit hi, hi, ih i hx⟩

/-- A key has one leaf. -/
theorem Wf.leaf_unique [BEq K] [EquivBEq K] {h : K → Nat} {level : Nat}
    (hcons : ∀ k k', (k == k') = true → h k = h k') {t : Tree K T}
    (hwf : t.Wf h level) {x y : Leaf K T} (hx : t.HasLeaf x) (hy : t.HasLeaf y)
    (hkey : (x.key == y.key) = true) : x = y := by
  induction t generalizing level with
  | chain leaves =>
    have hpair := hwf.2
    clear hwf
    induction leaves with
    | nil => cases hx
    | cons z rest ih =>
      obtain ⟨hhead, htail⟩ := List.pairwise_cons.mp hpair
      have hnot : ∀ w ∈ rest, ¬ (z.key == w.key) = true := by
        intro w hw
        rw [hhead w hw]
        exact Bool.false_ne_true
      cases List.mem_cons.mp hx with
      | inl hxz =>
        cases List.mem_cons.mp hy with
        | inl hyz => rw [hxz, hyz]
        | inr hyr => exact absurd (hxz ▸ hkey) (hnot y hyr)
      | inr hxr =>
        cases List.mem_cons.mp hy with
        | inl hyz => exact absurd (BEq.symm (hyz ▸ hkey)) (hnot x hxr)
        | inr hyr => exact ih hxr hyr htail
  | node a g bitmap c ih =>
    obtain ⟨i, hi, hx⟩ := hx
    obtain ⟨j, hj, hy⟩ := hy
    have hix := (hwf.2.1 i hi).2.2 _ hx.mem
    have hjy := (hwf.2.1 j hj).2.2 _ hy.mem
    have hij : i = j := by
      rw [← hix, ← hjy]
      show h x.key / 32 ^ level % 32 = h y.key / 32 ^ level % 32
      rw [hcons _ _ hkey]
    subst hij
    exact ih i (hwf.2.1 i hi).2.1 hx hy

/-- The trie after an assignment to the leaf at `n`. -/
def assign (n : Nat) (v : T) : Tree K T → Tree K T
  | chain leaves => chain (leaves.map fun x =>
    if x.addr = n then { x with value := v } else x)
  | node a g bitmap c => node a g bitmap fun i => (c i).assign n v

variable {n : Nat} {v : T}

/-- An assignment leaves the cells where they are. -/
theorem assign_leaf_eq (x : Leaf K T) :
    (if x.addr = n then { x with value := v } else x : Leaf K T) =
      ⟨x.addr, x.generation, x.key, if x.addr = n then v else x.value⟩ := by
  split <;> rfl

theorem assign_chain_cons (x : Leaf K T) (rest : List (Leaf K T)) :
    ∃ rest', (chain (x :: rest)).assign n v =
        chain (⟨x.addr, x.generation, x.key,
          if x.addr = n then v else x.value⟩ :: rest') ∧
      (chain rest).assign n v = chain rest' := by
  refine ⟨_, ?_, rfl⟩
  show chain _ = chain _
  rw [List.map_cons, assign_leaf_eq]

theorem ptr_assign (t : Tree K T) : (t.assign n v).ptr = t.ptr := by
  cases t with
  | chain leaves =>
    cases leaves with
    | nil => rfl
    | cons x rest =>
      obtain ⟨rest', heq, _⟩ := assign_chain_cons (n := n) (v := v) x rest
      rw [heq]
      rfl
  | node a g bitmap c => rfl

theorem has_assign {t : Tree K T} {a y : Nat} :
    (t.assign n v).Has a y ↔ t.Has a y := by
  induction t with
  | chain leaves =>
    induction leaves with
    | nil => exact Iff.rfl
    | cons x rest ih =>
      obtain ⟨rest', heq, hrest⟩ := assign_chain_cons (n := n) (v := v) x rest
      rw [hrest] at ih
      rw [heq, has_chain_cons, has_chain_cons, ih]
  | node addr g bitmap c ih =>
    exact or_congr Iff.rfl (exists_congr fun i => and_congr Iff.rfl (ih i))

theorem hasAddr_assign {t : Tree K T} {a : Nat} :
    (t.assign n v).HasAddr a ↔ t.HasAddr a :=
  exists_congr fun _ => has_assign

theorem Sep.assign {t : Tree K T} (h : t.Sep) : (t.assign n v).Sep := by
  induction t with
  | chain leaves =>
    induction leaves with
    | nil => exact h
    | cons x rest ih =>
      obtain ⟨hnot, hrest⟩ := sep_chain_cons.mp h
      obtain ⟨rest', heq, heqRest⟩ := assign_chain_cons (n := n) (v := v) x rest
      have ih := ih hrest
      rw [← hasAddr_assign (n := n) (v := v), heqRest] at hnot
      rw [heqRest] at ih
      rw [heq]
      exact sep_chain_cons.mpr ⟨hnot, ih⟩
  | node addr g bitmap c ih =>
    intro i hi
    obtain ⟨hsep, hnot, hapart⟩ := h i hi
    refine ⟨ih i hsep, fun ha => hnot (hasAddr_assign.mp ha), ?_⟩
    intro j hj hji a ha ha'
    exact hapart j hj hji a (hasAddr_assign.mp ha) (hasAddr_assign.mp ha')

theorem In.assign {cells cells' : Heap (Cell K T)} {t : Tree K T}
    (h : t.In cells)
    (hleaf : ∀ a g k w next, cells.read a = some (.leaf g k w next) →
      cells'.read a = some (.leaf g k (if a = n then v else w) next))
    (hnode : ∀ a g bitmap array, cells.read a = some (.node g bitmap array) →
      cells'.read a = some (.node g bitmap array)) :
    (t.assign n v).In cells' := by
  induction t with
  | chain leaves =>
    induction leaves with
    | nil => trivial
    | cons x rest ih =>
      have ih := ih h.2
      have hptr := ptr_assign (n := n) (v := v) (chain rest)
      obtain ⟨rest', heq, heqRest⟩ := assign_chain_cons (n := n) (v := v) x rest
      rw [heqRest] at ih hptr
      have hptr : chainPtr rest' = chainPtr rest := hptr
      rw [heq]
      refine ⟨?_, ih⟩
      rw [hptr]
      exact hleaf _ _ _ _ _ h.1
  | node addr g bitmap c ih =>
    refine ⟨?_, fun i hi => ih i (h.2 i hi)⟩
    have harray : array bitmap (fun i => (c i).assign n v) = array bitmap c := by
      apply List.map_congr_left
      intro i _
      exact ptr_assign (c i)
    rw [harray]
    exact hnode _ _ _ _ h.1

/-- The pairs after an assignment to the leaf of `k`. -/
theorem items_assign [BEq K] {k : K} {t : Tree K T}
    (h : ∀ x, t.HasLeaf x → (x.addr = n ↔ (k == x.key) = true)) :
    (t.assign n v).items = KeyedPairs.assign k v t.items := by
  induction t with
  | chain leaves =>
    show (leaves.map _).map _ = (leaves.map _).map _
    rw [List.map_map, List.map_map]
    apply List.map_congr_left
    intro x hx
    simp only [Function.comp_apply, assign_leaf_eq]
    by_cases hn : x.addr = n
    · rw [if_pos hn, if_pos ((h x hx).mp hn)]
    · rw [if_neg hn, if_neg (fun hk => hn ((h x hx).mpr hk))]
  | node a g bitmap c ih =>
    show (BitSlots.slots bitmap.getLsbD 32).flatMap _ =
      ((BitSlots.slots bitmap.getLsbD 32).flatMap _).map _
    rw [List.map_flatMap, List.flatMap_def, List.flatMap_def]
    congr 1
    apply List.map_congr_left
    intro i hi
    have hbit := (BitSlots.mem_slots.mp hi).2
    exact ih i fun x hx => h x ⟨i, hbit, hx⟩

theorem keys_assign (t : Tree K T) :
    (t.assign n v).items.map Prod.fst = t.items.map Prod.fst := by
  induction t with
  | chain leaves =>
    show ((leaves.map _).map _).map _ = (leaves.map _).map _
    rw [List.map_map, List.map_map, List.map_map]
    apply List.map_congr_left
    intro x _
    simp only [Function.comp_apply, assign_leaf_eq]
  | node a g bitmap c ih =>
    show ((BitSlots.slots bitmap.getLsbD 32).flatMap _).map _ =
      ((BitSlots.slots bitmap.getLsbD 32).flatMap _).map _
    rw [List.map_flatMap, List.map_flatMap, List.flatMap_def, List.flatMap_def]
    congr 1
    apply List.map_congr_left
    exact fun i _ => ih i

theorem mem_of_keys_eq {l l' : List (K × T)}
    (h : l.map Prod.fst = l'.map Prod.fst) {p : K × T} (hp : p ∈ l) :
    ∃ q ∈ l', q.1 = p.1 := by
  have hkey : p.1 ∈ l'.map Prod.fst := h ▸ List.mem_map_of_mem hp
  exact List.mem_map.mp hkey

theorem Wf.assign [BEq K] {h : K → Nat} {level : Nat} {t : Tree K T}
    (hwf : t.Wf h level) : (t.assign n v).Wf h level := by
  induction t generalizing level with
  | chain leaves =>
    have hkeys := keys_assign (n := n) (v := v) (chain leaves)
    obtain ⟨hrest, hdistinct⟩ := wf_chain.mp hwf
    refine wf_chain.mpr ⟨?_, ?_⟩
    · intro p hp q hq
      obtain ⟨p', hp', hpk⟩ := mem_of_keys_eq hkeys hp
      obtain ⟨q', hq', hqk⟩ := mem_of_keys_eq hkeys hq
      rw [← hpk, ← hqk]
      exact hrest p' hp' q' hq'
    · rw [KeyedPairs.distinct_iff_keys] at hdistinct ⊢
      rw [← hkeys] at hdistinct
      exact hdistinct
  | node a g bitmap c ih =>
    refine ⟨hwf.1, ?_, ?_⟩
    · intro i hi
      obtain ⟨hne, hwf', hindex⟩ := hwf.2.1 i hi
      have hkeys := keys_assign (n := n) (v := v) (c i)
      refine ⟨?_, ih i hwf', ?_⟩
      · intro hnil
        apply hne
        rw [hnil] at hkeys
        exact List.map_eq_nil_iff.mp hkeys.symm
      · intro p hp
        obtain ⟨q, hq, hqk⟩ := mem_of_keys_eq hkeys hp
        rw [← hqk]
        exact hindex q hq
    · have hkeys := keys_assign (n := n) (v := v) (node a g bitmap c)
      obtain ⟨p, hp, q, hq, hdiff⟩ := hwf.2.2
      obtain ⟨p', hp', hpk⟩ := mem_of_keys_eq hkeys.symm hp
      obtain ⟨q', hq', hqk⟩ := mem_of_keys_eq hkeys.symm hq
      refine ⟨p', hp', q', hq', ?_⟩
      rw [hpk, hqk]
      exact hdiff

end Tree

/-- The leaf that `mut` returns is read, and assigned to. -/
theorem Step.assign {g n : Nat} {st : Store K T} {t : Tree K T} {key : K}
    {value : T} (hat : At st .root t) (hleaf : t.HasLeaf ⟨n, g, key, value⟩)
    (v : T) :
    Map.valueAt st.cells n = some value ∧
    ∃ cells', Map.assign st.cells n v = some cells' ∧
      Step g st .root t { st with cells := cells' } (t.assign n v) := by
  obtain ⟨next, hread⟩ := hat.cells.leaf hleaf
  have hvalue : Map.valueAt st.cells n = some value := by
    unfold Map.valueAt
    rw [hread]
  have hother : ∀ a, a ≠ n →
      (st.cells.write n (.leaf g key v next)).read a = st.cells.read a :=
    fun a ha => Heap.read_write_ne _ _ ha
  refine ⟨hvalue, st.cells.write n (.leaf g key v next), ?_, ?_⟩
  · unfold Map.assign
    rw [hread]
  · constructor
    · rw [Tree.ptr_assign]
      exact hat.get
    · apply hat.cells.assign
      · intro a g' k w next' ha
        by_cases han : a = n
        · subst han
          rw [hread] at ha
          cases ha
          rw [if_pos rfl]
          exact Heap.read_write_self _ hread
        · rw [if_neg han, hother a han]
          exact ha
      · intro a g' bitmap array ha
        rw [hother a, ha]
        intro han
        rw [han, hread] at ha
        cases ha
    · exact hat.sep.assign
    · rw [if_pos rfl, Tree.ptr_assign]
      exact Option.some.inj hat.get
    · intro a c ha hnot
      have han : a ≠ n := fun heq => hnot (heq ▸ hleaf.has)
      show (st.cells.write n _).read a = _
      rw [hother a han, ha, if_neg]
      intro hcell
      cases hcell
    · exact fun a ha => Or.inl (Tree.has_assign.mp ha)
    · exact fun a y ha _ => Tree.has_assign.mp ha

/-- `mut` and the assignment are an update of the pairs. -/
theorem Map.mutAssign_spec [BEq K] [EquivBEq K] [Inhabited T]
    {hash : K → BitVec 64} {g : Nat}
    (hcons : ∀ k k', (k == k') = true → hashKey hash k = hashKey hash k')
    {st : Store K T} {t : Tree K T} (hat : At st .root t)
    (hwf : t.Wf (hashKey hash) 0) {k : K}
    (hclash : ¬ Clash (hashKey hash) k t.items) (f : T → T) {x : T}
    (hx : x = (KeyedPairs.lookup k t.items).getD default) :
    ∃ st₁ n inserted cells' t', mutLeaf hash g st k = some (st₁, n, inserted) ∧
      valueAt st₁.cells n = some x ∧
      Map.assign st₁.cells n (f x) = some cells' ∧
      Step g st .root t { st₁ with cells := cells' } t' ∧
      t'.Wf (hashKey hash) 0 ∧
      t'.items.Perm (KeyedPairs.update k default f t.items) ∧
      (inserted = true ↔ ¬ Present k t.items) := by
  obtain ⟨st₁, t₁, n, inserted, hrun, hstep, hwf₁, hmut⟩ :=
    mutLeaf_spec (g := g) hcons hat hwf hclash
  obtain ⟨key, value, hkey, hleaf⟩ := hmut.leaf
  have hdistinct := hwf₁.distinct hcons
  -- The leaf that is returned has the value of `k`.
  have hlookup₁ : KeyedPairs.lookup k t₁.items = some value := by
    rw [hdistinct.lookup_eq_some_iff]
    exact ⟨(key, value), hleaf.mem, hkey, rfl⟩
  have hlookup := hlookup₁
  rw [hdistinct.lookup_perm hmut.items] at hlookup
  have hupdate : value = x ∧ (KeyedPairs.assign k (f value) t₁.items).Perm
      (KeyedPairs.update k default f t.items) := by
    have hperm : (KeyedPairs.assign k (f value) t₁.items).Perm _ :=
      hmut.items.map _
    unfold KeyedPairs.update
    cases hinserted : inserted with
    | true =>
      have habsent := hmut.inserted.mp hinserted
      have hnone := KeyedPairs.lookup_eq_none_iff.mpr habsent
      rw [hinserted, if_pos rfl] at hlookup hperm
      rw [hx, hnone]
      have hvalue : value = default := by
        rw [List.singleton_append, KeyedPairs.lookup_cons (BEq.refl k)] at hlookup
        exact (Option.some.inj hlookup).symm
      have hnew : KeyedPairs.assign k (f value) ([(k, default)] ++ t.items) =
          (k, f value) :: t.items := by
        rw [List.singleton_append, KeyedPairs.assign_cons (BEq.refl k),
          KeyedPairs.assign_of_not_present habsent]
      refine ⟨hvalue, hperm.trans ?_⟩
      show (KeyedPairs.assign k (f value) ([(k, default)] ++ t.items)).Perm _
      rw [hnew, hvalue]
    | false =>
      rw [hinserted, if_neg Bool.false_ne_true, List.nil_append] at hlookup hperm
      rw [hx, hlookup]
      exact ⟨rfl, hperm⟩
  rw [hupdate.1] at hleaf hupdate
  obtain ⟨hvalue, cells', hassign, hstep'⟩ :=
    Step.assign (hstep.at_after hat) hleaf (f x)
  refine ⟨st₁, n, inserted, cells', _, hrun, hvalue, hassign,
    hstep.trans hstep', hwf₁.assign, ?_, hmut.inserted⟩
  rw [Tree.items_assign (k := k)]
  · exact hupdate.2
  · intro y hy
    constructor
    · intro hn
      obtain ⟨next, hread⟩ := (hstep.at_after hat).cells.leaf hleaf
      obtain ⟨next', hread'⟩ := (hstep.at_after hat).cells.leaf hy
      rw [hn, hread] at hread'
      cases hread'
      exact hkey
    · intro hk
      have hsame := hwf₁.leaf_unique hcons hy hleaf (BEq.trans (BEq.symm hk) hkey)
      rw [hsame]

end ViEqui.Gen
