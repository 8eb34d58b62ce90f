import ViEqui.Gen.MapHash

/-!
# `mut` on the trie

`MutOf` is what `mut` does to the pairs of a trie: a new key comes with the
default value, all other pairs stay, and the leaf that is returned holds the
key and is owned by the map.  `mutFrom_spec` proves it for the whole of `mut`
by induction on the trie.

`OnPath` is what is known of the trie that the first loop has come to: it has
the pairs of the map whose hashes agree with that of the key so far.
-/

namespace ViEqui.Gen

open KeyedPairs (Present Distinct)

variable {K T : Type} [BEq K]

/-- The trie after `mut` on `k`, with the leaf of `k` at `n`. -/
structure MutOf [Inhabited T] (k : K) (g : Nat) (t t' : Tree K T) (n : Nat)
    (inserted : Bool) : Prop where
  items : t'.items.Perm ((if inserted then [(k, default)] else []) ++ t.items)
  inserted : inserted = true ↔ ¬ Present k t.items
  leaf : ∃ key value, (k == key) = true ∧ t'.HasLeaf ⟨n, g, key, value⟩

/-- The trie `t` at this level is on the path of `k`, in a map with the pairs
`all`. -/
structure OnPath (h : K → Nat) (k : K) (all : List (K × T)) (level : Nat)
    (t : Tree K T) : Prop where
  mem : ∀ p ∈ t.items, p ∈ all
  present : Present k all → Present k t.items
  low : ∀ p ∈ t.items, h p.1 % 32 ^ level = h k % 32 ^ level
  deep : level = 13 → ∃ q ∈ all, h q.1 ≠ h k ∧ h q.1 % 2 ^ 60 = h k % 2 ^ 60

section

variable {h : K → Nat} {k : K} {all : List (K × T)} {level : Nat}

/-- Hashes that agree below a level and from it on are equal. -/
theorem eq_of_low {p q : Nat} (hlow : p % 32 ^ level = q % 32 ^ level)
    (hhigh : p / 32 ^ level = q / 32 ^ level) : p = q := by
  rw [← Nat.div_add_mod p (32 ^ level), ← Nat.div_add_mod q (32 ^ level), hlow,
    hhigh]

/-- The pairs of a node with the next five bits of `k`. -/
theorem OnPath.down {a g : Nat} {bitmap : BitVec 32} {c : Nat → Tree K T}
    {t' : Tree K T} (hpath : OnPath h k all level (.node a g bitmap c))
    (hcons : ∀ k k', (k == k') = true → h k = h k')
    (hwf : (Tree.node a g bitmap c).Wf h level)
    (ht' : ∀ p, p ∈ t'.items ↔ p ∈ (Tree.node a g bitmap c).items ∧
      h p.1 / 32 ^ level % 32 = h k / 32 ^ level % 32) :
    OnPath h k all (level + 1) t' where
  mem := fun p hp => hpath.mem p ((ht' p).mp hp).1
  present := by
    intro hall
    obtain ⟨p, hp, hkey⟩ := hpath.present hall
    refine ⟨p, (ht' p).mpr ⟨hp, ?_⟩, hkey⟩
    rw [hcons k p.1 hkey]
  low := by
    intro p hp
    have hp' := (ht' p).mp hp
    rw [Tree.mod_succ, Tree.mod_succ, hpath.low p hp'.1, hp'.2]
  deep := by
    intro hlevel
    have hlevel : level = 12 := by omega
    obtain ⟨_, _, p, hp, q, hq, hdiff⟩ := hwf
    have hmod : ∀ r ∈ (Tree.node a g bitmap c).items,
        h r.1 % 2 ^ 60 = h k % 2 ^ 60 := by
      intro r hr
      have hlow := hpath.low r hr
      rw [hlevel] at hlow
      exact hlow
    by_cases hpk : h p.1 = h k
    · refine ⟨q, hpath.mem q hq, ?_, hmod q hq⟩
      intro hqk
      apply hdiff
      rw [hpk, hqk]
    · exact ⟨p, hpath.mem p hp, hpk, hmod p hp⟩

end

namespace Tree

variable {h : K → Nat} {level : Nat}

theorem wf_chain {leaves : List (Leaf K T)} : (chain leaves).Wf h level ↔
    (∀ p ∈ (chain leaves).items, ∀ q ∈ (chain leaves).items,
      h p.1 / 32 ^ level = h q.1 / 32 ^ level) ∧
    Distinct (chain leaves).items := by
  show _ ∧ _ ↔ (∀ p ∈ leaves.map _, ∀ q ∈ leaves.map _, _) ∧
    (leaves.map _).Pairwise _
  rw [List.pairwise_map]
  refine and_congr_left fun _ => ?_
  constructor
  · intro hall p hp q hq
    obtain ⟨x, hx, rfl⟩ := List.mem_map.mp hp
    obtain ⟨y, hy, rfl⟩ := List.mem_map.mp hq
    exact hall x hx y hy
  · intro hall x hx y hy
    exact hall _ (List.mem_map_of_mem hx) _ (List.mem_map_of_mem hy)

/-- A chain of leaves with one rest of the hash. -/
theorem wf_chain_of_rest {leaves : List (Leaf K T)} (rest : Nat)
    (hdistinct : Distinct (chain leaves).items)
    (hrest : ∀ p ∈ (chain leaves).items, h p.1 / 32 ^ level = rest) :
    (chain leaves).Wf h level := by
  refine wf_chain.mpr ⟨?_, hdistinct⟩
  intro p hp q hq
  rw [hrest p hp, hrest q hq]

/-- A node is well-formed when one of its children was changed to `t'`. -/
theorem Wf.update {a g i : Nat} {bitmap : BitVec 32} {c : Nat → Tree K T}
    {t' : Tree K T} (hlevel : level < 13)
    (hothers : ∀ j, bitmap.getLsbD j = true → j ≠ i → (c j).items ≠ [] ∧
      (c j).Wf h (level + 1) ∧ ∀ p ∈ (c j).items, h p.1 / 32 ^ level % 32 = j)
    (hne : t'.items ≠ []) (hwf : t'.Wf h (level + 1))
    (hindex : ∀ p ∈ t'.items, h p.1 / 32 ^ level % 32 = i)
    (hdiff : ∃ p ∈ (node a g bitmap (Function.update c i t')).items,
      ∃ q ∈ (node a g bitmap (Function.update c i t')).items,
        h p.1 / 32 ^ level ≠ h q.1 / 32 ^ level) :
    (node a g bitmap (Function.update c i t')).Wf h level := by
  refine ⟨hlevel, ?_, hdiff⟩
  intro j hj
  by_cases hji : j = i
  · rw [hji, Function.update_self]
    exact ⟨hne, hwf, hindex⟩
  · rw [Function.update_of_ne hji]
    exact hothers j hj hji

end Tree

namespace MutOf

variable [Inhabited T] {h : K → Nat} {level : Nat} {k : K} {g : Nat}
  {t t' : Tree K T} {n : Nat} {inserted : Bool}

theorem mem (hm : MutOf k g t t' n inserted) {p : K × T} (hp : p ∈ t'.items) :
    p ∈ t.items ∨ p = (k, default) := by
  have hp := hm.items.subset hp
  rw [List.mem_append] at hp
  cases hp with
  | inl hnew =>
    split at hnew
    · exact Or.inr (List.mem_singleton.mp hnew)
    · cases hnew
  | inr hold => exact Or.inl hold

theorem mem_old (hm : MutOf k g t t' n inserted) {p : K × T}
    (hp : p ∈ t.items) : p ∈ t'.items :=
  hm.items.symm.subset (List.mem_append_right _ hp)

/-- After `mut` the key is there. -/
theorem items_ne_nil (hm : MutOf k g t t' n inserted) : t'.items ≠ [] := by
  intro hnil
  by_cases hpresent : Present k t.items
  · obtain ⟨p, hp, _⟩ := hpresent
    have hp' := hm.mem_old hp
    rw [hnil] at hp'
    cases hp'
  · have hnew := hm.inserted.mpr hpresent
    have hperm := hm.items
    rw [hnil, hnew] at hperm
    have := hperm.length_eq
    simp at this

/-- Only the pairs of the old trie matter. -/
theorem of_items_eq {s : Tree K T} (hitems : s.items = t.items)
    (hm : MutOf k g s t' n inserted) : MutOf k g t t' n inserted := by
  refine ⟨?_, ?_, hm.leaf⟩
  · rw [← hitems]
    exact hm.items
  · rw [← hitems]
    exact hm.inserted

/-- `mut` below the child of a node. -/
theorem lift {a i : Nat} {bitmap : BitVec 32} {c : Nat → Tree K T}
    (hcons : ∀ k k', (k == k') = true → h k = h k')
    (hbit : bitmap.getLsbD i = true) (hk : h k / 32 ^ level % 32 = i)
    (hindex : ∀ j, bitmap.getLsbD j = true → ∀ p ∈ (c j).items,
      h p.1 / 32 ^ level % 32 = j)
    (hm : MutOf k g (c i) t' n inserted) :
    MutOf k g (.node a g bitmap c) (.node a g bitmap (Function.update c i t')) n
      inserted where
  items := Tree.items_update_perm hbit hm.items
  inserted := by
    rw [hm.inserted]
    refine not_congr ?_
    have hmem := Tree.mem_items_index (a := a) (g := g) hbit hindex
    constructor
    · intro hp
      obtain ⟨p, hp, hkey⟩ := hp
      exact ⟨p, ((hmem p).mp hp).1, hkey⟩
    · intro hp
      obtain ⟨p, hp, hkey⟩ := hp
      refine ⟨p, (hmem p).mpr ⟨hp, ?_⟩, hkey⟩
      rw [← hcons k p.1 hkey, hk]
  leaf := by
    obtain ⟨key, value, hkey, hleaf⟩ := hm.leaf
    refine ⟨key, value, hkey, i, hbit, ?_⟩
    rw [Function.update_self]
    exact hleaf

end MutOf

end ViEqui.Gen
