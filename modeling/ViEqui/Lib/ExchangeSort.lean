import Mathlib.Data.List.Induction
import Mathlib.Data.List.Sort

/-!
# Insertion sort by exchanges

The first elements of a vector are sorted in place.  Each one moves towards the
front by exchanges with the element before it, and an exchange may adjust the two
elements.  As long as the comparison only looks at keys, the keys are sorted like
a list of their own (`map_sort`), whatever the exchanges do.  What every exchange
preserves is preserved by the sort (`sort_induct`).

The comparison does not have to be transitive.  Where it is, and total, the result
does not depend on the order at the start (`insertionSort_eq_of_perm`).
-/

namespace ExchangeSort

open List

variable {α κ : Type}

/-- Moves the element at position `j` towards the front, until the element before
it is smaller. -/
def sink (lt : α → α → Bool) (exchange : α → α → α × α) : Nat → List α → List α
  | 0, l => l
  | j + 1, l =>
    match l[j]?, l[j + 1]? with
    | some p, some x =>
      if lt p x then l
      else sink lt exchange j ((l.set j (exchange p x).2).set (j + 1) (exchange p x).1)
    | _, _ => l

/-- Sorts the first `n` elements. -/
def sort (lt : α → α → Bool) (exchange : α → α → α × α) (n : Nat) (l : List α) : List α :=
  (range' 1 (n - 1)).foldl (fun l i => sink lt exchange i l) l

variable {lt : α → α → Bool} {exchange : α → α → α × α}

theorem sink_append (pre : List α) (p x : α) (post : List α) :
    sink lt exchange (pre.length + 1) (pre ++ p :: x :: post) =
      if lt p x then pre ++ p :: x :: post
      else sink lt exchange pre.length
        (pre ++ (exchange p x).2 :: (exchange p x).1 :: post) := by
  have hp : (pre ++ p :: x :: post)[pre.length]? = some p := by simp
  have hx : (pre ++ p :: x :: post)[pre.length + 1]? = some x := by simp
  show (match (pre ++ p :: x :: post)[pre.length]?,
      (pre ++ p :: x :: post)[pre.length + 1]? with
    | some p, some x => _
    | _, _ => _) = _
  rw [hp, hx]
  simp

/-- What an exchange preserves. -/
theorem sink_induct {P : List α → Prop}
    (hstep : ∀ pre p x post, lt p x = false → P (pre ++ p :: x :: post) →
      P (pre ++ (exchange p x).2 :: (exchange p x).1 :: post))
    (j : Nat) (l : List α) (h : P l) : P (sink lt exchange j l) := by
  induction j generalizing l with
  | zero => exact h
  | succ j ih =>
    by_cases hlen : j + 1 < l.length
    · obtain ⟨pre, p, x, post, hj, rfl⟩ :
          ∃ pre p x post, pre.length = j ∧ l = pre ++ p :: x :: post := by
        refine ⟨l.take j, l[j], l[j + 1], l.drop (j + 2), ?_, ?_⟩
        · rw [length_take]
          omega
        · rw [← drop_eq_getElem_cons, ← drop_eq_getElem_cons, take_append_drop]
      subst hj
      rw [sink_append]
      split_ifs with hlt
      · exact h
      · exact ih _ (hstep pre p x post (Bool.eq_false_iff.mpr hlt) h)
    · have hnone : l[j + 1]? = none := getElem?_eq_none (by omega)
      unfold sink
      rw [hnone]
      split
      · next hx => exact absurd hx (by simp)
      · exact h

theorem sort_induct {P : List α → Prop}
    (hstep : ∀ pre p x post, lt p x = false → P (pre ++ p :: x :: post) →
      P (pre ++ (exchange p x).2 :: (exchange p x).1 :: post))
    (n : Nat) (l : List α) (h : P l) : P (sort lt exchange n l) := by
  unfold sort
  generalize range' 1 (n - 1) = is
  induction is generalizing l with
  | nil => exact h
  | cons i is ih => exact ih _ (sink_induct hstep i l h)

theorem length_sort (n : Nat) (l : List α) : (sort lt exchange n l).length = l.length :=
  sort_induct (P := fun s => s.length = l.length)
    (fun pre p x post _ h => by rw [← h, length_append, length_append]; rfl) n l rfl

section Keys

variable {key : α → κ} {r : κ → κ → Prop} [DecidableRel r]

/-- The keys move like in an insertion into the elements before, which stand in
reverse. -/
theorem map_sink (hlt : ∀ p x, lt p x = true ↔ r (key x) (key p))
    (hfst : ∀ p x, key (exchange p x).1 = key p) (hsnd : ∀ p x, key (exchange p x).2 = key x)
    (pre : List α) (x : α) (post : List α) :
    (sink lt exchange pre.length (pre ++ x :: post)).map key =
      ((pre.map key).reverse.orderedInsert r (key x)).reverse ++ post.map key := by
  induction pre using reverseRecOn generalizing x post with
  | nil => simp [sink]
  | append_singleton pre p ih =>
    have hlen : (pre ++ [p]).length = pre.length + 1 := by simp
    rw [hlen, append_assoc, singleton_append, sink_append, map_append, reverse_append]
    show _ = ((key p :: (pre.map key).reverse).orderedInsert r (key x)).reverse ++ _
    rw [orderedInsert_cons]
    by_cases hpx : lt p x = true
    · rw [if_pos hpx, if_pos ((hlt p x).mp hpx)]
      simp
    · rw [if_neg hpx, if_neg fun h => hpx ((hlt p x).mpr h), ih, hsnd, map_cons, hfst]
      simp

/-- The keys are sorted by insertion, each one into those before it. -/
theorem map_sort (hlt : ∀ p x, lt p x = true ↔ r (key x) (key p))
    (hfst : ∀ p x, key (exchange p x).1 = key p) (hsnd : ∀ p x, key (exchange p x).2 = key x)
    (n : Nat) (l : List α) (hn : n ≤ l.length) :
    (sort lt exchange n l).map key =
      (((l.map key).take n).reverse.insertionSort r).reverse ++ (l.map key).drop n := by
  induction n with
  | zero => simp [sort]
  | succ n ih =>
    obtain ⟨k, hk⟩ : ∃ k, (l.map key)[n]? = some k :=
      ⟨_, getElem?_eq_getElem (by rw [length_map]; omega)⟩
    have hlast : (l.map key).take (n + 1) = (l.map key).take n ++ [k] := by
      rw [take_add_one, hk, Option.toList_some]
    have hdrop : (l.map key).drop n = k :: (l.map key).drop (n + 1) := by
      obtain ⟨hlen, heq⟩ := List.getElem?_eq_some_iff.mp hk
      rw [drop_eq_getElem_cons hlen, heq]
    rw [hlast, reverse_append, reverse_singleton, singleton_append, insertionSort_cons]
    have hsorted := ih (by omega)
    cases n with
    | zero =>
      rw [drop_zero] at hdrop
      simpa [sort] using hdrop
    | succ n =>
      have hsort : sort lt exchange (n + 2) l =
          sink lt exchange (n + 1) (sort lt exchange (n + 1) l) := by
        unfold sort
        rw [show n + 2 - 1 = n + 1 by omega, range'_concat, foldl_append,
          show n + 1 - 1 = n by omega]
        simp [Nat.add_comm]
      have hlen := @length_sort _ lt exchange (n + 1) l
      generalize sort lt exchange (n + 1) l = s at hsort hsorted hlen
      obtain ⟨pre, x, post, hpre, rfl⟩ :
          ∃ pre x post, pre.length = n + 1 ∧ s = pre ++ x :: post := by
        refine ⟨s.take (n + 1), s[n + 1], s.drop (n + 2), ?_, ?_⟩
        · rw [length_take]
          omega
        · rw [← drop_eq_getElem_cons, take_append_drop]
      rw [map_append, map_cons] at hsorted
      obtain ⟨hkeys, hrest⟩ := append_inj hsorted (by
        rw [length_map, hpre, length_reverse, length_insertionSort, length_reverse, length_take,
          length_map, Nat.min_eq_left (Nat.le_of_succ_le hn)])
      rw [hdrop] at hrest
      obtain ⟨hx, hpost⟩ := cons.inj hrest
      have hsink := map_sink hlt hfst hsnd pre x post
      rw [hpre] at hsink
      rw [hsort, hsink, hkeys, reverse_reverse, hx, hpost]

end Keys

/-! ## Insertion sort without a transitive order -/

variable {r s : α → α → Prop} [DecidableRel r] [DecidableRel s] {l l' : List α}

/-- Only elements that stand in order are compared. -/
theorem insertionSort_congr (h : l.Pairwise fun a b => r a b ↔ s a b) :
    insertionSort r l = insertionSort s l := by
  induction l with
  | nil => rfl
  | cons a l ih =>
    obtain ⟨ha, hl⟩ := pairwise_cons.mp h
    rw [insertionSort_cons, insertionSort_cons, ih hl]
    have hmem : ∀ b ∈ insertionSort s l, r a b ↔ s a b := fun b hb =>
      ha b ((mem_insertionSort s).mp hb)
    generalize insertionSort s l = k at hmem
    induction k with
    | nil => rfl
    | cons b k ih =>
      obtain ⟨hb, hk⟩ := forall_mem_cons.mp hmem
      rw [orderedInsert_cons, orderedInsert_cons, ih hk]
      simp only [hb]

/-- A relation that is total and transitive on the elements sorts them. -/
theorem pairwise_insertionSort_of (htotal : ∀ a ∈ l, ∀ b ∈ l, r a b ∨ r b a)
    (htrans : ∀ a ∈ l, ∀ b ∈ l, ∀ c ∈ l, r a b → r b c → r a c) :
    (insertionSort r l).Pairwise r := by
  induction l with
  | nil => exact .nil
  | cons a l ih =>
    have hsorted := ih (fun b hb c hc => htotal b (mem_cons_of_mem a hb) c (mem_cons_of_mem a hc))
      fun b hb c hc d hd => htrans b (mem_cons_of_mem a hb) c (mem_cons_of_mem a hc) d
        (mem_cons_of_mem a hd)
    have hmem : ∀ b ∈ insertionSort r l, b ∈ a :: l := fun b hb =>
      mem_cons_of_mem a ((mem_insertionSort r).mp hb)
    rw [insertionSort_cons]
    generalize insertionSort r l = k at hsorted hmem
    induction k with
    | nil => exact pairwise_singleton r a
    | cons b k ih =>
      obtain ⟨hb, hk⟩ := pairwise_cons.mp hsorted
      obtain ⟨hbl, hkl⟩ := forall_mem_cons.mp hmem
      rw [orderedInsert_cons]
      split_ifs with hab
      · refine pairwise_cons.mpr ⟨fun c hc => ?_, hsorted⟩
        rcases mem_cons.mp hc with rfl | hc
        · exact hab
        · exact htrans a mem_cons_self b hbl c (hkl c hc) hab (hb c hc)
      · refine pairwise_cons.mpr ⟨fun c hc => ?_, ih hk hkl⟩
        rcases (mem_orderedInsert r).mp hc with rfl | hc
        · exact (htotal c mem_cons_self b hbl).resolve_left hab
        · exact hb c hc

/-- On elements where the relation is a total order, the result does not depend on
the order at the start. -/
theorem insertionSort_eq_of_perm (htotal : ∀ a ∈ l, ∀ b ∈ l, r a b ∨ r b a)
    (htrans : ∀ a ∈ l, ∀ b ∈ l, ∀ c ∈ l, r a b → r b c → r a c)
    (hantisymm : ∀ a ∈ l, ∀ b ∈ l, r a b → r b a → a = b) (hperm : l.Perm l') :
    insertionSort r l = insertionSort r l' := by
  have hmem {a : α} (ha : a ∈ l') : a ∈ l := hperm.mem_iff.mpr ha
  refine Perm.eq_of_pairwise (fun a b ha hb => ?_) (pairwise_insertionSort_of htotal htrans)
    (pairwise_insertionSort_of (fun a ha b hb => htotal a (hmem ha) b (hmem hb))
      fun a ha b hb c hc => htrans a (hmem ha) b (hmem hb) c (hmem hc))
    (((perm_insertionSort r l).trans hperm).trans (perm_insertionSort r l').symm)
  exact hantisymm a ((mem_insertionSort r).mp ha) b (hmem ((mem_insertionSort r).mp hb))

omit [DecidableRel r] in
theorem mem_cons_pair {x y z : α} (h : [x, y] <+ z :: l) :
    [x, y] <+ l ∨ x = z ∧ y ∈ l := by
  rw [cons_sublist_cons'] at h
  exact h.imp_right (And.imp_right singleton_sublist.mp)

/-- Three elements do not stand in a circle. -/
theorem not_cyclic_of_nodup {a b c : α} (hl : l.Nodup) (hab : [a, b] <+ l) (hbc : [b, c] <+ l)
    (hca : [c, a] <+ l) : False := by
  induction l with
  | nil => exact absurd (hab.subset mem_cons_self) not_mem_nil
  | cons x l ih =>
    obtain ⟨hx, hl⟩ := nodup_cons.mp hl
    have hmem {y z : α} (h : [y, z] <+ l) : y ∈ l ∧ z ∈ l :=
      ⟨h.subset mem_cons_self, h.subset (mem_cons_of_mem y mem_cons_self)⟩
    rcases mem_cons_pair hab with hab' | ⟨hax, hb⟩
    · rcases mem_cons_pair hbc with hbc' | ⟨hbx, -⟩
      · rcases mem_cons_pair hca with hca' | ⟨hcx, -⟩
        · exact ih hl hab' hbc' hca'
        · exact hx (hcx ▸ (hmem hbc').2)
      · exact hx (hbx ▸ (hmem hab').2)
    · rcases mem_cons_pair hca with hca' | ⟨-, ha⟩
      · exact hx (hax ▸ (hmem hca').2)
      · exact hx (hax ▸ ha)

end ExchangeSort
