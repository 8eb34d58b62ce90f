import Mathlib.Data.List.Nodup
import Mathlib.Data.List.Perm.Basic

/-!
# Arrays indexed by the bits of a bitmap

A sparse array keeps the elements of the set bits only, the highest bit first.
`slots p n` lists the bits below `n` that are set, in the order of the array,
and `above p i n` counts those from `i` on.  The element of a set bit `i` is in
place `above p i n - 1`, and a new bit `i` goes in front of place `above p i n`.
-/

namespace BitSlots

variable {α : Type}

def slots (p : Nat → Bool) : Nat → List Nat
  | 0 => []
  | n + 1 => if p n then n :: slots p n else slots p n

def above (p : Nat → Bool) (i : Nat) : Nat → Nat
  | 0 => 0
  | n + 1 => above p i n + if i ≤ n ∧ p n = true then 1 else 0

theorem mem_slots {p : Nat → Bool} {n i : Nat} :
    i ∈ slots p n ↔ i < n ∧ p i = true := by
  induction n with
  | zero => simp [slots]
  | succ n ih =>
    by_cases hp : p n = true
    · rw [slots, if_pos hp, List.mem_cons, ih]
      constructor
      · intro h
        cases h with
        | inl heq => exact ⟨by omega, by rw [heq]; exact hp⟩
        | inr h => exact ⟨by omega, h.2⟩
      · intro h
        by_cases heq : i = n
        · exact Or.inl heq
        · exact Or.inr ⟨by omega, h.2⟩
    · rw [slots, if_neg hp, ih]
      constructor
      · exact fun h => ⟨by omega, h.2⟩
      · intro h
        have hne : i ≠ n := fun heq => hp (by rw [← heq]; exact h.2)
        exact ⟨by omega, h.2⟩

theorem nodup_slots (p : Nat → Bool) (n : Nat) : (slots p n).Nodup := by
  induction n with
  | zero => exact List.nodup_nil
  | succ n ih =>
    rw [slots]
    split
    · refine List.nodup_cons.mpr ⟨?_, ih⟩
      intro h
      exact Nat.lt_irrefl n (mem_slots.mp h).1
    · exact ih

theorem slots_congr {p q : Nat → Bool} {n : Nat} (h : ∀ i < n, p i = q i) :
    slots p n = slots q n := by
  induction n with
  | zero => rfl
  | succ n ih =>
    rw [slots, slots, h n (Nat.lt_succ_self n), ih fun i hi => h i (by omega)]

theorem length_slots (p : Nat → Bool) (n : Nat) :
    (slots p n).length = above p 0 n := by
  induction n with
  | zero => rfl
  | succ n ih =>
    rw [slots, above]
    by_cases hp : p n = true
    · rw [if_pos hp, if_pos ⟨Nat.zero_le n, hp⟩, List.length_cons, ih]
    · rw [if_neg hp, if_neg (fun h => hp h.2), ih, Nat.add_zero]

theorem above_of_le {p : Nat → Bool} {i n : Nat} (h : n ≤ i) : above p i n = 0 := by
  induction n with
  | zero => rfl
  | succ n ih => rw [above, ih (by omega), if_neg (fun h' => by omega)]

theorem above_pos {p : Nat → Bool} {i n : Nat} (hi : i < n) (hp : p i = true) :
    0 < above p i n := by
  induction n with
  | zero => omega
  | succ n ih =>
    rw [above]
    by_cases heq : i = n
    · rw [if_pos ⟨by omega, by rw [← heq]; exact hp⟩]
      omega
    · have := ih (by omega)
      omega

theorem above_le_length (p : Nat → Bool) (i n : Nat) :
    above p i n ≤ (slots p n).length := by
  induction n with
  | zero => exact Nat.le_refl 0
  | succ n ih =>
    rw [above, slots]
    by_cases hp : p n = true
    · rw [if_pos hp, List.length_cons]
      split <;> omega
    · rw [if_neg hp, if_neg (fun h => hp h.2)]
      exact ih

/-- The place of a set bit. -/
theorem getElem?_slots {p : Nat → Bool} {i n : Nat} (hi : i < n)
    (hp : p i = true) : (slots p n)[above p i n - 1]? = some i := by
  induction n with
  | zero => omega
  | succ n ih =>
    by_cases heq : i = n
    · subst heq
      rw [slots, if_pos hp, above, above_of_le (Nat.le_refl i),
        if_pos ⟨Nat.le_refl i, hp⟩]
      rfl
    · have hlt : i < n := by omega
      have hpos := above_pos hlt hp
      have ih' := ih hlt
      by_cases hn : p n = true
      · rw [slots, if_pos hn, above, if_pos ⟨by omega, hn⟩]
        have hsucc : above p i n + 1 - 1 = (above p i n - 1) + 1 := by omega
        rw [hsucc, List.getElem?_cons_succ, ih']
      · rw [slots, if_neg hn, above, if_neg (fun h => hn h.2), Nat.add_zero, ih']

/-- A new bit is put in front of the lower ones. -/
theorem slots_insert {p q : Nat → Bool} {i n : Nat} (hi : i < n)
    (hp : p i = false) (hq : q i = true) (hother : ∀ j, j ≠ i → q j = p j) :
    slots q n = (slots p n).take (above p i n) ++
      i :: (slots p n).drop (above p i n) := by
  induction n with
  | zero => omega
  | succ n ih =>
    by_cases heq : i = n
    · subst heq
      have hsame : slots q i = slots p i :=
        slots_congr fun j hj => hother j (by omega)
      have hnot : ¬ p i = true := by
        rw [hp]
        exact Bool.false_ne_true
      rw [slots, if_pos hq, slots, if_neg hnot, above,
        above_of_le (Nat.le_refl i), if_neg (fun h => hnot h.2), hsame]
      rfl
    · have ih' := ih (by omega)
      rw [slots, hother n (by omega), slots, above]
      by_cases hn : p n = true
      · rw [if_pos hn, if_pos hn, if_pos ⟨by omega, hn⟩, List.take_succ_cons,
          List.drop_succ_cons, ih']
        rfl
      · rw [if_neg hn, if_neg hn, if_neg (fun h => hn h.2), Nat.add_zero, ih']

/-- A new bit moves its own place by one. -/
theorem above_insert {p q : Nat → Bool} {i n : Nat} (hi : i < n)
    (hp : p i = false) (hq : q i = true) (hother : ∀ j, j ≠ i → q j = p j) :
    above q i n = above p i n + 1 := by
  induction n with
  | zero => omega
  | succ n ih =>
    rw [above, above]
    by_cases heq : i = n
    · subst heq
      rw [above_of_le (Nat.le_refl i), above_of_le (Nat.le_refl i), hp, hq]
      simp
    · rw [ih (by omega), hother n (fun h => heq h.symm)]
      omega

/-- The only bit. -/
theorem slots_single {p : Nat → Bool} {i n : Nat} (hi : i < n)
    (hp : ∀ j < n, p j = true ↔ j = i) : slots p n = [i] := by
  have hperm : (slots p n).Perm [i] := by
    rw [List.perm_ext_iff_of_nodup (nodup_slots p n) (List.nodup_singleton i)]
    intro j
    rw [mem_slots, List.mem_singleton]
    constructor
    · exact fun h => (hp j h.1).mp h.2
    · intro h
      rw [h]
      exact ⟨hi, (hp i hi).mpr rfl⟩
  exact List.perm_singleton.mp hperm

theorem slots_sorted (p : Nat → Bool) (n : Nat) :
    (slots p n).Pairwise (· > ·) := by
  induction n with
  | zero => exact List.Pairwise.nil
  | succ n ih =>
    rw [slots]
    split
    · exact List.pairwise_cons.mpr ⟨fun j hj => (mem_slots.mp hj).1, ih⟩
    · exact ih

/-- Two bits, the higher one first. -/
theorem slots_pair {p : Nat → Bool} {i j n : Nat} (hij : i < j) (hj : j < n)
    (hp : ∀ k < n, p k = true ↔ k = i ∨ k = j) : slots p n = [j, i] := by
  have hnodup : [j, i].Nodup := by
    rw [List.nodup_cons, List.mem_singleton]
    exact ⟨by omega, List.nodup_singleton i⟩
  have hperm : (slots p n).Perm [j, i] := by
    rw [List.perm_ext_iff_of_nodup (nodup_slots p n) hnodup]
    intro k
    rw [mem_slots, List.mem_cons, List.mem_singleton]
    constructor
    · exact fun h => ((hp k h.1).mp h.2).symm
    · intro h
      have hk : k < n := by omega
      exact ⟨hk, (hp k hk).mpr h.symm⟩
  refine hperm.eq_of_pairwise ?_ (slots_sorted p n) ?_
  · intro a b _ _ hab hba
    omega
  · refine List.pairwise_cons.mpr ⟨?_, List.pairwise_singleton _ i⟩
    intro k hk
    rw [List.mem_singleton.mp hk]
    exact hij

/-! ## Arrays over the slots -/

/-- The element of bit `i`. -/
theorem getElem?_map_slots {p : Nat → Bool} (f : Nat → α) {i n : Nat}
    (hi : i < n) (hp : p i = true) :
    ((slots p n).map f)[above p i n - 1]? = some (f i) := by
  rw [List.getElem?_map, getElem?_slots hi hp]
  rfl

theorem set_map_of_nodup {l : List Nat} (hnodup : l.Nodup) {f g : Nat → α}
    {i k : Nat} (hk : l[k]? = some i) (hother : ∀ j, j ≠ i → g j = f j) :
    (l.map f).set k (g i) = l.map g := by
  induction l generalizing k with
  | nil => cases hk
  | cons x l ih =>
    have hnot := (List.nodup_cons.mp hnodup).1
    cases k with
    | zero =>
      cases hk
      rw [List.map_cons, List.map_cons, List.set_cons_zero]
      congr 1
      apply List.map_congr_left
      intro j hj
      rw [hother j (fun heq => hnot (heq ▸ hj))]
    | succ k =>
      have hmem : i ∈ l := List.mem_of_getElem? hk
      rw [List.map_cons, List.map_cons, List.set_cons_succ,
        ih (List.nodup_cons.mp hnodup).2 hk,
        hother x (fun heq => hnot (heq ▸ hmem))]

/-- An update of the element of bit `i`. -/
theorem set_map_slots {p : Nat → Bool} {f g : Nat → α} {i n : Nat} (hi : i < n)
    (hp : p i = true) (hother : ∀ j, j ≠ i → g j = f j) :
    ((slots p n).map f).set (above p i n - 1) (g i) = (slots p n).map g :=
  set_map_of_nodup (nodup_slots p n) (getElem?_slots hi hp) hother

/-- An element for a new bit. -/
theorem insert_map_slots {p q : Nat → Bool} {f g : Nat → α} {i n : Nat}
    (hi : i < n) (hp : p i = false) (hq : q i = true)
    (hother : ∀ j, j ≠ i → q j = p j) (hf : ∀ j, j ≠ i → g j = f j) :
    ((slots p n).map f).take (above p i n) ++
        g i :: ((slots p n).map f).drop (above p i n) = (slots q n).map g := by
  have hmap : (slots p n).map f = (slots p n).map g := by
    apply List.map_congr_left
    intro j hj
    rw [hf j]
    intro heq
    rw [heq, mem_slots, hp] at hj
    exact Bool.false_ne_true hj.2
  rw [slots_insert hi hp hq hother, hmap, List.map_append, List.map_cons,
    List.map_take, List.map_drop]

/-- One part of a concatenation over the slots grows by `e`. -/
theorem flatMap_perm_of_nodup {β : Type} {l : List Nat} (hnodup : l.Nodup)
    {f g : Nat → List β} {i : Nat} (hi : i ∈ l) {e : List β}
    (hother : ∀ j, j ≠ i → g j = f j) (hperm : (g i).Perm (e ++ f i)) :
    (l.flatMap g).Perm (e ++ l.flatMap f) := by
  induction l with
  | nil => cases hi
  | cons x l ih =>
    have hnot := (List.nodup_cons.mp hnodup).1
    rw [List.flatMap_cons, List.flatMap_cons]
    by_cases hx : x = i
    · have hrest : l.flatMap g = l.flatMap f := by
        rw [List.flatMap_def, List.flatMap_def]
        congr 1
        apply List.map_congr_left
        intro j hj
        exact hother j fun heq => hnot (hx ▸ heq ▸ hj)
      rw [hrest, hx, ← List.append_assoc]
      exact hperm.append_right _
    · have hmem : i ∈ l := (List.mem_cons.mp hi).resolve_left (Ne.symm hx)
      rw [hother x hx]
      have h1 := (ih (List.nodup_cons.mp hnodup).2 hmem).append_left (f x)
      refine h1.trans ?_
      rw [← List.append_assoc, ← List.append_assoc]
      exact List.perm_append_comm.append_right _

/-! ## Bits of machine words -/

/-- `__builtin_popcount`. -/
def popcount (b : BitVec 32) : Nat := (List.range 32).countP fun i => b.getLsbD i

theorem countP_range_shift (p : Nat → Bool) (i n : Nat) :
    (List.range n).countP (fun j => p (i + j)) = above p i (i + n) := by
  induction n with
  | zero => exact (above_of_le (Nat.le_refl i)).symm
  | succ n ih =>
    rw [List.range_succ, List.countP_append, ih, ← Nat.add_assoc, above,
      List.countP_singleton]
    congr 1
    by_cases hp : p (i + n) = true
    · rw [if_pos hp, if_pos ⟨by omega, hp⟩]
    · rw [if_neg hp, if_neg (fun h => hp h.2)]

theorem above_add {p : Nat → Bool} {n : Nat} (hp : ∀ i, n ≤ i → p i = false)
    (i k : Nat) : above p i (n + k) = above p i n := by
  induction k with
  | zero => rfl
  | succ k ih =>
    rw [← Nat.add_assoc, above, ih, if_neg]
    · rfl
    · intro h
      rw [hp (n + k) (by omega)] at h
      exact Bool.false_ne_true h.2

/-- A shift by `i` and a count of the bits. -/
theorem popcount_shiftRight (b : BitVec 32) (i : Nat) :
    popcount (b >>> i) = above b.getLsbD i 32 := by
  unfold popcount
  have hshift : (fun j => (b >>> i).getLsbD j) = fun j => b.getLsbD (i + j) := by
    funext j
    rw [BitVec.getLsbD_ushiftRight]
  rw [hshift, countP_range_shift b.getLsbD, Nat.add_comm,
    above_add fun j hj => BitVec.getLsbD_of_ge b j hj]

theorem popcount_eq_length (b : BitVec 32) :
    popcount b = (slots b.getLsbD 32).length := by
  rw [length_slots, ← popcount_shiftRight, BitVec.ushiftRight_zero]

theorem shift_and_one (b : BitVec 32) (i : Nat) :
    (b >>> i &&& 1#32 == 1#32) = b.getLsbD i := by
  rw [BitVec.and_one_eq_setWidth_ofBool_getLsbD, BitVec.getLsbD_ushiftRight,
    Nat.add_zero]
  cases b.getLsbD i <;> rfl

theorem getLsbD_one_shift {i j : Nat} (hj : j < 32) :
    (1#32 <<< i).getLsbD j = decide (j = i) := by
  by_cases hji : j < i
  · simp [hji, Nat.ne_of_lt hji]
  · by_cases heq : j = i
    · subst heq
      simp [hj]
    · have hsub : j - i ≠ 0 := by omega
      simp [hj, hji, heq, hsub]

end BitSlots
