import ViEqui.Gen.MapOps
import ViEqui.Lib.KeyedPairs

/-!
# Keys and hashes in the trie

`Tree.Wf` says that the keys are where their hashes send them: the keys of a
chain have the same rest of the hash, and the child of bit `i` of a node has
the keys whose next five bits are `i`.  A node has keys of different hashes.

`Clash` is the kind of key that `mut` goes wrong on: it is new, its hash is the
hash of a key of the map, and another key agrees with it in the low 60 bits
only.  Such a key ends at depth 65, where the hash of the existing key would be
shifted by 65 bits.
-/

namespace ViEqui.Gen

open KeyedPairs (Present Distinct)

variable {K T : Type}

/-- The hash of the new key `k` is that of a key in the list, and a third key
agrees with it in the low 60 bits only. -/
def Clash [BEq K] (h : K → Nat) (k : K) (items : List (K × T)) : Prop :=
  ¬ Present k items ∧ ∃ p ∈ items, h p.1 = h k ∧
    ∃ q ∈ items, h q.1 ≠ h k ∧ h q.1 % 2 ^ 60 = h k % 2 ^ 60

namespace Tree

theorem mem_items_node {a g : Nat} {bitmap : BitVec 32} {c : Nat → Tree K T}
    {p : K × T} : p ∈ (node a g bitmap c).items ↔
      ∃ i, i < 32 ∧ bitmap.getLsbD i = true ∧ p ∈ (c i).items := by
  show p ∈ (BitSlots.slots bitmap.getLsbD 32).flatMap _ ↔ _
  rw [List.mem_flatMap]
  constructor
  · intro h
    obtain ⟨i, hi, hp⟩ := h
    obtain ⟨hlt, hbit⟩ := BitSlots.mem_slots.mp hi
    exact ⟨i, hlt, hbit, hp⟩
  · intro h
    obtain ⟨i, hlt, hbit, hp⟩ := h
    exact ⟨i, BitSlots.mem_slots.mpr ⟨hlt, hbit⟩, hp⟩

theorem lt_of_bit {bitmap : BitVec 32} {i : Nat} (h : bitmap.getLsbD i = true) :
    i < 32 := BitVec.lt_of_getLsbD h

def Wf [BEq K] (h : K → Nat) : Nat → Tree K T → Prop
  | level, chain leaves =>
    (∀ x ∈ leaves, ∀ y ∈ leaves,
      h x.key / 32 ^ level = h y.key / 32 ^ level) ∧
    leaves.Pairwise fun x y => (x.key == y.key) = false
  | level, node a g bitmap c => level < 13 ∧
    (∀ i, bitmap.getLsbD i = true → (c i).items ≠ [] ∧ (c i).Wf h (level + 1) ∧
      ∀ p ∈ (c i).items, h p.1 / 32 ^ level % 32 = i) ∧
    ∃ p ∈ (node a g bitmap c).items, ∃ q ∈ (node a g bitmap c).items,
      h p.1 / 32 ^ level ≠ h q.1 / 32 ^ level

/-- A leaf of the trie. -/
def HasLeaf : Tree K T → Leaf K T → Prop
  | chain leaves, x => x ∈ leaves
  | node _ _ bitmap c, x => ∃ i, bitmap.getLsbD i = true ∧ (c i).HasLeaf x

/-- The items of a node after a change of one child. -/
theorem items_update_perm {a g : Nat} {bitmap : BitVec 32} {c : Nat → Tree K T}
    {i : Nat} (hbit : bitmap.getLsbD i = true) {t' : Tree K T}
    {e : List (K × T)} (hperm : t'.items.Perm (e ++ (c i).items)) :
    (node a g bitmap (Function.update c i t')).items.Perm
      (e ++ (node a g bitmap c).items) := by
  apply BitSlots.flatMap_perm_of_nodup (BitSlots.nodup_slots _ _)
    (BitSlots.mem_slots.mpr ⟨lt_of_bit hbit, hbit⟩)
  · intro j hj
    rw [Function.update_of_ne hj]
  · rw [Function.update_self]
    exact hperm

/-- An empty child for a new bit has no items. -/
theorem items_withBit {a g : Nat} {bitmap : BitVec 32} {c : Nat → Tree K T}
    {i : Nat} (hi : i < 32) (hbit : bitmap.getLsbD i = false) :
    (node a g (Map.withBit bitmap i) (Function.update c i (chain []))).items =
      (node a g bitmap c).items := by
  have hslots := BitSlots.slots_insert hi hbit
    (Map.getLsbD_withBit_self bitmap hi)
    (fun j hj => Map.getLsbD_withBit_ne bitmap hj)
  have hsame : ∀ l : List Nat, (∀ j ∈ l, j ≠ i) →
      l.flatMap (fun j => (Function.update c i (chain []) j).items) =
        l.flatMap fun j => (c j).items := by
    intro l hl
    rw [List.flatMap_def, List.flatMap_def]
    congr 1
    apply List.map_congr_left
    intro j hj
    rw [Function.update_of_ne (hl j hj)]
  have hne : ∀ j ∈ BitSlots.slots bitmap.getLsbD 32, j ≠ i := by
    intro j hj heq
    have h := (BitSlots.mem_slots.mp hj).2
    rw [heq, hbit] at h
    cases h
  show (BitSlots.slots _ 32).flatMap _ = (BitSlots.slots _ 32).flatMap _
  rw [hslots, List.flatMap_append, List.flatMap_cons, Function.update_self,
    hsame _ (fun j hj => hne j (List.mem_of_mem_take hj)),
    hsame _ (fun j hj => hne j (List.mem_of_mem_drop hj))]
  show _ ++ ([] ++ _) = _
  rw [List.nil_append, ← List.flatMap_append, List.take_append_drop]

/-- The keys of a node with the five bits `i` are those of its child. -/
theorem mem_items_index {h : K → Nat} {level a g i : Nat}
    {bitmap : BitVec 32} {c : Nat → Tree K T} (hbit : bitmap.getLsbD i = true)
    (hindex : ∀ j, bitmap.getLsbD j = true → ∀ p ∈ (c j).items,
      h p.1 / 32 ^ level % 32 = j) (p : K × T) :
    p ∈ (c i).items ↔
      p ∈ (node a g bitmap c).items ∧ h p.1 / 32 ^ level % 32 = i := by
  rw [mem_items_node]
  constructor
  · intro hp
    exact ⟨⟨i, lt_of_bit hbit, hbit, hp⟩, hindex i hbit p hp⟩
  · intro hp
    obtain ⟨⟨j, _, hj, hpj⟩, hi⟩ := hp
    rw [hindex j hj p hpj] at hi
    exact hi ▸ hpj

section

variable [BEq K] {h : K → Nat} {level : Nat}

theorem Wf.items_ne_nil {a g : Nat} {bitmap : BitVec 32} {c : Nat → Tree K T}
    (hwf : (node a g bitmap c).Wf h level) :
    (node a g bitmap c).items ≠ [] := by
  obtain ⟨_, _, p, hp, _⟩ := hwf
  exact List.ne_nil_of_mem hp

theorem div_succ (q level : Nat) : q / 32 ^ (level + 1) = q / 32 ^ level / 32 := by
  rw [Nat.pow_succ, Nat.div_div_eq_div_mul]

/-- The low bits at the next level. -/
theorem mod_succ (q level : Nat) :
    q % 32 ^ (level + 1) = q % 32 ^ level + 32 ^ level * (q / 32 ^ level % 32) := by
  rw [Nat.pow_succ, Nat.mod_mul]

/-- No rest is left after thirteen levels. -/
theorem div_eq_zero {q level : Nat} (hq : q < 2 ^ 64) (hlevel : 13 ≤ level) :
    q / 32 ^ level = 0 := by
  have hpow : 32 ^ 13 ≤ 32 ^ level := Nat.pow_le_pow_right (by omega) hlevel
  apply Nat.div_eq_of_lt
  have : (2 : Nat) ^ 64 ≤ 32 ^ 13 := by decide
  omega

/-- The keys of a well-formed trie are different. -/
theorem Wf.distinct (hcons : ∀ k k', (k == k') = true → h k = h k')
    {t : Tree K T} (hwf : t.Wf h level) :
    Distinct t.items := by
  induction t generalizing level with
  | chain leaves =>
    show (leaves.map _).Pairwise _
    exact List.pairwise_map.mpr hwf.2
  | node a g bitmap c ih =>
    show ((BitSlots.slots bitmap.getLsbD 32).flatMap _).Pairwise _
    rw [List.flatMap_def, List.pairwise_flatten]
    constructor
    · intro l hl
      obtain ⟨i, hi, heq⟩ := List.mem_map.mp hl
      rw [← heq]
      exact ih i (hwf.2.1 i (BitSlots.mem_slots.mp hi).2).2.1
    · rw [List.pairwise_map]
      apply (BitSlots.nodup_slots bitmap.getLsbD 32).imp_of_mem
      intro i j hi hj hij p hp q hq
      have hi' := (hwf.2.1 i (BitSlots.mem_slots.mp hi).2).2.2 p hp
      have hj' := (hwf.2.1 j (BitSlots.mem_slots.mp hj).2).2.2 q hq
      cases heq : p.1 == q.1 with
      | false => rfl
      | true =>
        rw [hcons _ _ heq, hj'] at hi'
        exact absurd hi'.symm hij

end

end Tree

end ViEqui.Gen
