import ViEqui.Lib.VecSet
import Mathlib.Data.Finset.Max
import Mathlib.Data.Finset.Sort
import Mathlib.Data.List.InsertIdx
import Mathlib.Data.List.Nodup

/-!
# Sets as sorted vectors, with their indices

The operations of `src/vecset.tcc` on the vector of a set, index by index.  A read or
write outside of the vector, and an assertion that fails, give `none`.

* Single elements: `findGeq_eq` says that the binary search finds the number of
  smaller elements, and the other operations on one element follow from it.
* Whole sets: `mergeBack_eq` is the union merged from the back, `compact_eq` the
  difference compacted from the front, and `subsetLoop_eq` and `intersectsLoop_eq` the
  two comparisons.
-/

namespace ViEqui.VecSetOps

variable {α : Type} [LinearOrder α]

/-! ## The operations on one element -/

/-- Assigns to `vec[i]`. -/
def write (vec : List α) (i : Nat) (x : α) : Option (List α) :=
  if i < vec.length then some (vec.set i x) else none

/-- The binary search of `find_geq`. -/
def findGeqLoop (vec : List α) (t : α) (a b : Nat) : Option Nat :=
  if a < b then
    match vec[(a + b) / 2]? with
    | none => none
    | some x =>
      if x < t then findGeqLoop vec t ((a + b) / 2 + 1) b
      else if x = t then some ((a + b) / 2)
      else findGeqLoop vec t a ((a + b) / 2)
  else some a
termination_by b - a

/-- `find_geq`. -/
def findGeq (vec : List α) (t : α) : Option Nat := findGeqLoop vec t 0 vec.length

/-- `find`. -/
def find (vec : List α) (t : α) : Option Int :=
  (findGeq vec t).map fun i => if i = vec.length ∨ vec[i]? ≠ some t then -1 else i

/-- `count`. -/
def count (vec : List α) (t : α) : Option Nat := (find vec t).map fun i => if 0 ≤ i then 1 else 0

/-- Moves the elements from `i` to `j` one place up. -/
def shiftUp (i : Nat) : Nat → List α → Option (List α)
  | 0, vec => some vec
  | j + 1, vec =>
    if i < j + 1 then
      vec[j]?.bind fun x => (write vec (j + 1) x).bind fun vec => shiftUp i j vec
    else some vec

/-- `insert`: the vector, the index, and whether the element is new. -/
def insert (vec : List α) (t : α) : Option (List α × Nat × Bool) :=
  (findGeq vec t).bind fun i =>
    if i < vec.length ∧ vec[i]? = some t then some (vec, i, false)
    else if vec.length = 0 then some (vec ++ [t], i, true)
    else vec.getLast?.bind fun back =>
      (shiftUp i (vec.length - 1) (vec ++ [back])).bind fun vec =>
        (write vec i t).map fun vec => (vec, i, true)

/-- `insert_geq`. -/
def insertGeq (vec : List α) (t : α) : Option (List α × Nat × Bool) :=
  if ∀ x ∈ vec.getLast?, x ≤ t then
    if vec.getLast? = some t then some (vec, vec.length - 1, false)
    else some (vec ++ [t], vec.length, true)
  else none

/-- `insert_gt`. -/
def insertGt (vec : List α) (t : α) : Option (List α) :=
  if ∀ x ∈ vec.getLast?, x < t then some (vec ++ [t]) else none

/-- Moves `k` elements behind `j` one place down. -/
def shiftDown : Nat → Nat → List α → Option (List α)
  | 0, _, vec => some vec
  | k + 1, j, vec =>
    vec[j + 1]?.bind fun x => (write vec j x).bind fun vec => shiftDown k (j + 1) vec

/-- `erase`: the vector, and the number of elements that are erased. -/
def erase (vec : List α) (t : α) : Option (List α × Nat) :=
  (findGeq vec t).bind fun i =>
    if vec.length ≤ i ∨ vec[i]? ≠ some t then some (vec, 0)
    else (shiftDown (vec.length - 1 - i) i vec).map fun vec => (vec.take (vec.length - 1), 1)

/-- `pop_back`. -/
def popBack (vec : List α) : Option (List α) := if vec = [] then none else some vec.dropLast

/-- One round of the constructor from a range. -/
def rangeStep (vec : List α) (x : α) : Option (List α) :=
  match vec.getLast? with
  | some back => if back < x then some (vec ++ [x]) else (insert vec x).map Prod.fst
  | none => (insert vec x).map Prod.fst

/-- The constructor from a range. -/
def ofRange (l : List α) : Option (List α) := l.foldlM rangeStep []

/-! ## The operations on two sets -/

/-- Counts the elements of `s` that are not in the vector, from `a` and `b` on. -/
def countNew (vec s : List α) (a b cnt : Nat) : Nat :=
  if h : a < vec.length ∧ b < s.length then
    have ha := h.1
    have hb := h.2
    if vec[a] < s[b] then countNew vec s (a + 1) b cnt
    else if vec[a] = s[b] then countNew vec s (a + 1) (b + 1) cnt
    else countNew vec s a (b + 1) (cnt + 1)
  else if b < s.length then cnt + (s.length - b)
  else cnt
termination_by (vec.length - a) + (s.length - b)

/-- Merges the first `na` elements of the vector and the first `nb` of `s` into the
places before `n`, from the back. -/
def mergeBack (s : List α) : Nat → Nat → Nat → List α → Option (List α)
  | 0, na, nb, vec => if na = 0 ∧ nb = 0 then some vec else none
  | i + 1, na, nb, vec =>
    if i + 1 < na then none
    else match na, nb with
      | 0, 0 => none
      | 0, b + 1 => s[b]?.bind fun y => (write vec i y).bind (mergeBack s i 0 b)
      | a + 1, 0 => vec[a]?.bind fun x => (write vec i x).bind (mergeBack s i a 0)
      | a + 1, b + 1 => vec[a]?.bind fun x => s[b]?.bind fun y =>
        if x < y then (write vec i y).bind (mergeBack s i (a + 1) b)
        else if x = y then (write vec i x).bind (mergeBack s i a b)
        else (write vec i x).bind (mergeBack s i a (b + 1))

/-- `insert` of a set: the vector, and the number of elements that are new. -/
def insertAll (vec s : List α) : Option (List α × Nat) :=
  match s with
  | [] => some (vec, 0)
  | [y] => (insert vec y).map fun r => (r.1, if r.2.2 then 1 else 0)
  | y :: _ :: _ =>
    let cnt := countNew vec s 0 0 0
    if 0 < cnt then
      (mergeBack s (vec.length + cnt) vec.length s.length (vec ++ List.replicate cnt y)).map
        fun vec => (vec, cnt)
    else some (vec, cnt)

/-- The loop of `erase` of a set: the vector, `a`, `ains`, and the number of elements
that are erased. -/
def compact (s : List α) (vec : List α) (a b ains cnt : Nat) : List α × Nat × Nat × Nat :=
  if h : a < vec.length ∧ b < s.length then
    have ha := h.1
    have hb := h.2
    if vec[a] = s[b] then compact s vec (a + 1) (b + 1) ains (cnt + 1)
    else if vec[a] < s[b] then
      compact s (if ains ≠ a then vec.set ains vec[a] else vec) (a + 1) b (ains + 1) cnt
    else compact s vec a (b + 1) ains cnt
  else (vec, a, ains, cnt)
termination_by (vec.length - a) + (s.length - b)
decreasing_by
  · omega
  · split
    · rw [List.length_set]
      omega
    · omega
  · omega

/-- Moves the last `k` elements, from `a` on, down to `ains`. -/
def moveDown : Nat → Nat → Nat → List α → Option (List α)
  | 0, _, _, vec => some vec
  | k + 1, a, ains, vec =>
    vec[a]?.bind fun x => (write vec ains x).bind (moveDown k (a + 1) (ains + 1))

/-- `erase` of a set: the vector, and the number of elements that are erased. -/
def eraseAll (vec s : List α) : Option (List α × Nat) :=
  if vec = [] ∨ s = [] then some (vec, 0)
  else
    let (vec, a, ains, cnt) := compact s vec 0 0 0 0
    if ains ≠ a then
      (moveDown (vec.length - a) a ains vec).map fun vec' =>
        (vec'.take (ains + (vec.length - a)), cnt)
    else some (vec, cnt)

/-- The loop of `subset_of`. -/
def subsetLoop (vec s : List α) (a b : Nat) : Option Bool :=
  if ha : a < vec.length then
    if s.length - b < vec.length - a then some false
    else if hb : b < s.length then
      if vec[a] < s[b] then some false
      else if vec[a] = s[b] then subsetLoop vec s (a + 1) (b + 1)
      else subsetLoop vec s a (b + 1)
    else none
  else some true
termination_by (vec.length - a) + (s.length - b)

/-- `subset_of`. -/
def subsetOf (vec s : List α) : Option Bool :=
  if s.length < vec.length then some false else subsetLoop vec s 0 0

/-- The loop of `intersects`. -/
def intersectsLoop (vec s : List α) (a b : Nat) : Bool :=
  if h : a < vec.length ∧ b < s.length then
    have ha := h.1
    have hb := h.2
    if vec[a] < s[b] then intersectsLoop vec s (a + 1) b
    else if vec[a] = s[b] then true
    else intersectsLoop vec s a (b + 1)
  else false
termination_by (vec.length - a) + (s.length - b)

/-- `intersects`. -/
def intersects (vec s : List α) : Bool := intersectsLoop vec s 0 0

/-! ## Sorted vectors -/

/-- The vector of a set. -/
abbrev Sorted (vec : List α) : Prop := vec.Pairwise (· < ·)

/-- The number of smaller elements. -/
def rank (vec : List α) (t : α) : Nat := (vec.filter (· < t)).length

variable {vec s : List α} {t : α}

theorem rank_le (vec : List α) (t : α) : rank vec t ≤ vec.length := List.length_filter_le _ _

theorem Sorted.take_rank (h : Sorted vec) : vec.take (rank vec t) = vec.filter (· < t) := by
  induction vec with
  | nil => rfl
  | cons x l ih =>
    obtain ⟨hx, hl⟩ := List.pairwise_cons.mp h
    by_cases hxt : x < t
    · rw [rank, List.filter_cons_of_pos (by simpa using hxt), List.length_cons, List.take_succ_cons]
      exact congrArg (x :: ·) (ih hl)
    · have hnone : l.filter (· < t) = [] := by
        rw [List.filter_eq_nil_iff]
        intro y hy
        simpa using (le_of_not_gt hxt).trans (hx y hy).le
      rw [rank, List.filter_cons_of_neg (by simpa using hxt), hnone]
      rfl

theorem Sorted.drop_rank (h : Sorted vec) : vec.drop (rank vec t) = vec.filter (t ≤ ·) := by
  induction vec with
  | nil => rfl
  | cons x l ih =>
    obtain ⟨hx, hl⟩ := List.pairwise_cons.mp h
    by_cases hxt : x < t
    · rw [rank, List.filter_cons_of_pos (by simpa using hxt), List.length_cons, List.drop_succ_cons,
        List.filter_cons_of_neg (by simpa using hxt)]
      exact ih hl
    · have hnone : l.filter (· < t) = [] := by
        rw [List.filter_eq_nil_iff]
        intro y hy
        simpa using (le_of_not_gt hxt).trans (hx y hy).le
      rw [rank, List.filter_cons_of_neg (by simpa using hxt), hnone]
      show x :: l = _
      symm
      rw [List.filter_eq_self]
      intro y hy
      rcases List.mem_cons.mp hy with rfl | hy
      · simpa using hxt
      · simpa using (le_of_not_gt hxt).trans (hx y hy).le

theorem Sorted.lt_getElem (h : Sorted vec) {i j : Nat} (hij : i < j) (hj : j < vec.length) :
    vec[i] < vec[j] :=
  List.pairwise_iff_getElem.mp h i j (by omega) hj hij

/-- Where all elements before `i` are smaller, and the others are not. -/
theorem rank_eq {i : Nat} (hi : i ≤ vec.length)
    (hbefore : ∀ j (_ : j < vec.length), j < i → vec[j] < t)
    (hbehind : ∀ j (_ : j < vec.length), i ≤ j → t ≤ vec[j]) : rank vec t = i := by
  unfold rank
  have htake : (vec.take i).filter (· < t) = vec.take i := by
    rw [List.filter_eq_self]
    intro x hx
    obtain ⟨j, hj, rfl⟩ := List.mem_take_iff_getElem.mp hx
    simpa using hbefore j (by omega) (by omega)
  have hdrop : (vec.drop i).filter (· < t) = [] := by
    rw [List.filter_eq_nil_iff]
    intro x hx
    obtain ⟨j, hj, rfl⟩ := List.mem_drop_iff_getElem.mp hx
    simpa using hbehind (i + j) (by omega) (by omega)
  conv_lhs => rw [← List.take_append_drop i vec]
  rw [List.filter_append, htake, hdrop, List.append_nil, List.length_take]
  omega

/-- The binary search between `a` and `b`. -/
theorem findGeqLoop_eq (h : Sorted vec) {a b : Nat} (hab : a ≤ b) (hb : b ≤ vec.length)
    (hbefore : ∀ j (_ : j < vec.length), j < a → vec[j] < t)
    (hbehind : ∀ j (_ : j < vec.length), b ≤ j → t ≤ vec[j]) :
    findGeqLoop vec t a b = some (rank vec t) := by
  induction hn : b - a using Nat.strong_induction_on generalizing a b with
  | _ n ih =>
    rw [findGeqLoop]
    by_cases hlt : a < b
    · have hac : a ≤ (a + b) / 2 := by omega
      have hcb : (a + b) / 2 < b := by omega
      have hc : (a + b) / 2 < vec.length := hcb.trans_le hb
      rw [if_pos hlt, List.getElem?_eq_getElem hc]
      generalize (a + b) / 2 = c at *
      dsimp only
      split_ifs with hless heq
      · apply ih _ (by omega) hcb hb _ hbehind rfl
        intro j hj hjc
        rcases Nat.eq_or_lt_of_le (Nat.le_of_lt_succ hjc) with rfl | hjc
        · exact hless
        · exact (h.lt_getElem hjc hc).trans hless
      · rw [rank_eq (Nat.le_of_lt hc)]
        · intro j hj hjc
          rw [← heq]
          exact h.lt_getElem hjc hc
        · intro j hj hjc
          rw [← heq]
          rcases Nat.eq_or_lt_of_le hjc with rfl | hjc
          · exact le_rfl
          · exact (h.lt_getElem hjc hj).le
      · apply ih _ (by omega) hac hc.le hbefore _ rfl
        intro j hj hjc
        rcases Nat.eq_or_lt_of_le hjc with rfl | hjc
        · exact not_lt.mp hless
        · exact (not_lt.mp hless).trans (h.lt_getElem hjc hj).le
    · have hab' : a = b := le_antisymm hab (not_lt.mp hlt)
      subst hab'
      rw [if_neg hlt, rank_eq hb hbefore hbehind]

theorem findGeq_eq (h : Sorted vec) (t : α) : findGeq vec t = some (rank vec t) :=
  findGeqLoop_eq h (Nat.zero_le _) le_rfl (fun _ _ hj => by omega) (fun _ hj hj' => by omega)

/-- The element at the place that is found. -/
theorem getElem?_rank (h : Sorted vec) (t : α) : vec[rank vec t]? = some t ↔ t ∈ vec := by
  have hhead : vec[rank vec t]? = (vec.filter (t ≤ ·)).head? := by
    rw [← h.drop_rank, List.head?_drop]
  rw [hhead]
  constructor
  · intro ht
    exact (List.mem_filter.mp (List.mem_of_mem_head? ht)).1
  · intro ht
    have hmem : t ∈ vec.filter (t ≤ ·) := List.mem_filter.mpr ⟨ht, by simp⟩
    have hsorted : Sorted (vec.filter (t ≤ ·)) := h.filter _
    cases hf : vec.filter (t ≤ ·) with
    | nil =>
      rw [hf] at hmem
      exact absurd hmem List.not_mem_nil
    | cons x l =>
      rw [hf] at hmem hsorted
      rcases List.mem_cons.mp hmem with rfl | hmem
      · rfl
      · have hxt : x < t := (List.pairwise_cons.mp hsorted).1 t hmem
        have hx : x ∈ vec.filter (t ≤ ·) := by
          rw [hf]
          exact List.mem_cons_self
        have htx : t ≤ x := by simpa using (List.mem_filter.mp hx).2
        exact absurd htx (not_le_of_gt hxt)

theorem rank_lt_of_mem (h : Sorted vec) (ht : t ∈ vec) : rank vec t < vec.length :=
  (List.getElem?_eq_some_iff.mp ((getElem?_rank h t).mpr ht)).1

theorem find_eq (h : Sorted vec) (t : α) :
    find vec t = some (if t ∈ vec then (rank vec t : Int) else -1) := by
  unfold find
  rw [findGeq_eq h, Option.map_some]
  by_cases ht : t ∈ vec
  · have hlt := rank_lt_of_mem h ht
    rw [if_pos ht, if_neg]
    rintro (heq | hne)
    · omega
    · exact hne ((getElem?_rank h t).mpr ht)
  · rw [if_neg ht, if_pos]
    exact Or.inr fun heq => ht ((getElem?_rank h t).mp heq)

theorem count_eq (h : Sorted vec) (t : α) : count vec t = some (if t ∈ vec then 1 else 0) := by
  unfold count
  rw [find_eq h, Option.map_some]
  split_ifs with ht h0 h0
  · rfl
  · omega
  · omega
  · rfl

/-! ## Insertion and removal of one element -/

omit [LinearOrder α] in
theorem write_of_lt {i : Nat} (hi : i < vec.length) (x : α) : write vec i x = some (vec.set i x) :=
  if_pos hi

omit [LinearOrder α] in
theorem shiftUp_spec (i : Nat) {j : Nat} (hj : j < vec.length) :
    ∃ vec', shiftUp i j vec = some vec' ∧ vec'.length = vec.length ∧
      ∀ k, vec'[k]? = if i < k ∧ k ≤ j then vec[k - 1]? else vec[k]? := by
  induction j generalizing vec with
  | zero =>
    refine ⟨vec, rfl, rfl, fun k => ?_⟩
    rw [if_neg (by omega)]
  | succ j ih =>
    rw [shiftUp]
    by_cases hij : i < j + 1
    · obtain ⟨vec', hvec', hlength, hget⟩ := ih
        (show j < (vec.set (j + 1) vec[j]).length by rw [List.length_set]; omega)
      refine ⟨vec', ?_, by rw [hlength, List.length_set], fun k => ?_⟩
      · rw [if_pos hij, List.getElem?_eq_getElem (by omega), Option.bind_some, write_of_lt hj,
          Option.bind_some, hvec']
      · rw [hget k]
        by_cases hk : k = j + 1
        · subst hk
          rw [if_neg (by omega), if_pos (by omega), List.getElem?_set_self hj, Nat.add_sub_cancel,
            List.getElem?_eq_getElem]
        · by_cases hik : i < k ∧ k ≤ j
          · rw [if_pos hik, if_pos (by omega), List.getElem?_set_ne (by omega)]
          · rw [if_neg hik, if_neg (by omega), List.getElem?_set_ne (by omega)]
    · refine ⟨vec, by rw [if_neg hij], rfl, fun k => ?_⟩
      rw [if_neg (by omega)]

omit [LinearOrder α] in
/-- Pushing the last element back, moving the others up and assigning is an insertion. -/
theorem insertAt_eq {i : Nat} (hi : i ≤ vec.length) {back : α} (hback : vec.getLast? = some back)
    (t : α) :
    ((shiftUp i (vec.length - 1) (vec ++ [back])).bind fun vec' => write vec' i t) =
      some (vec.insertIdx i t) := by
  have hne : vec ≠ [] := by
    rintro rfl
    exact absurd hback (by simp)
  have hpos : 0 < vec.length := List.length_pos_iff.mpr hne
  obtain ⟨vec', hvec', hlength, hget⟩ := shiftUp_spec i
    (show vec.length - 1 < (vec ++ [back]).length by
      rw [List.length_append, List.length_singleton]; omega)
  rw [List.length_append, List.length_singleton] at hlength
  rw [hvec', Option.bind_some, write_of_lt (by omega)]
  congr 1
  apply List.ext_getElem?
  intro k
  rcases Nat.lt_trichotomy k i with hk | rfl | hk
  · rw [List.getElem?_set_ne (by omega), hget, if_neg (by omega), List.getElem?_insertIdx_of_lt hk,
      List.getElem?_append_left (by omega)]
  · rw [List.getElem?_set_self (by omega), List.getElem?_insertIdx_self, if_pos hi]
  · rw [List.getElem?_set_ne (by omega), hget, List.getElem?_insertIdx_of_gt hk]
    by_cases hlast : k ≤ vec.length - 1
    · rw [if_pos ⟨hk, hlast⟩, List.getElem?_append_left (by omega)]
    · rw [if_neg (by omega)]
      by_cases hk' : k = vec.length
      · subst hk'
        rw [List.getElem?_append_right le_rfl, Nat.sub_self, ← List.getLast?_eq_getElem?, hback]
        rfl
      · rw [List.getElem?_eq_none (by rw [List.length_append, List.length_singleton]; omega),
          List.getElem?_eq_none (by omega)]

omit [LinearOrder α] in
theorem insertIdx_eq_append {i : Nat} (hi : i ≤ vec.length) (t : α) :
    vec.insertIdx i t = vec.take i ++ t :: vec.drop i := by
  induction vec generalizing i with
  | nil =>
    have hi0 : i = 0 := by simpa using hi
    subst hi0
    rfl
  | cons x l ih =>
    cases i with
    | zero => rfl
    | succ i =>
      rw [List.insertIdx_succ_cons, ih (by simpa using hi)]
      rfl

theorem Sorted.insertIdx_rank (h : Sorted vec) (ht : t ∉ vec) :
    Sorted (vec.insertIdx (rank vec t) t) := by
  rw [insertIdx_eq_append (rank_le vec t), h.take_rank, h.drop_rank, Sorted,
    List.pairwise_append]
  have hbehind : ∀ y ∈ vec.filter (t ≤ ·), t < y := by
    intro y hy
    obtain ⟨hmem, hle⟩ := List.mem_filter.mp hy
    apply lt_of_le_of_ne (by simpa using hle)
    rintro rfl
    exact ht hmem
  have hbefore : ∀ x ∈ vec.filter (· < t), x < t := by
    intro x hx
    simpa using (List.mem_filter.mp hx).2
  refine ⟨h.filter _, List.pairwise_cons.mpr ⟨hbehind, h.filter _⟩, ?_⟩
  intro x hx y hy
  rcases List.mem_cons.mp hy with rfl | hy
  · exact hbefore x hx
  · exact (hbefore x hx).trans (hbehind y hy)

/-- The vector with `t` in it. -/
def inserted (vec : List α) (t : α) : List α :=
  if t ∈ vec then vec else vec.insertIdx (rank vec t) t

theorem Sorted.inserted (h : Sorted vec) (t : α) : Sorted (inserted vec t) := by
  unfold VecSetOps.inserted
  split_ifs with ht
  · exact h
  · exact h.insertIdx_rank ht

theorem mem_inserted {x : α} : x ∈ inserted vec t ↔ x = t ∨ x ∈ vec := by
  unfold inserted
  split_ifs with ht
  · constructor
    · exact Or.inr
    · rintro (rfl | hx)
      · exact ht
      · exact hx
  · rw [List.mem_insertIdx (rank_le vec t)]

theorem insert_eq (h : Sorted vec) (t : α) :
    insert vec t = some (inserted vec t, rank vec t, decide (t ∉ vec)) := by
  unfold insert inserted
  rw [findGeq_eq h, Option.bind_some]
  by_cases ht : t ∈ vec
  · rw [if_pos ⟨rank_lt_of_mem h ht, (getElem?_rank h t).mpr ht⟩, if_pos ht]
    simp [ht]
  · rw [if_neg (fun hget => ht ((getElem?_rank h t).mp hget.2)), if_neg ht]
    simp only [ht, not_false_eq_true, decide_true]
    by_cases h0 : vec.length = 0
    · rw [List.length_eq_zero_iff] at h0
      subst h0
      rfl
    · have hne : vec ≠ [] := fun hnil => h0 (by rw [hnil]; rfl)
      have hback := List.getLast?_eq_getLast_of_ne_nil hne
      have hat := insertAt_eq (rank_le vec t) hback t
      rw [if_neg h0, hback, Option.bind_some]
      generalize shiftUp _ _ _ = moved at hat ⊢
      cases moved with
      | none => simp at hat
      | some vec' =>
        rw [Option.bind_some] at hat ⊢
        rw [hat, Option.map_some]

omit [LinearOrder α] in
theorem shiftDown_spec {k j : Nat} (hj : j + k < vec.length) :
    ∃ vec', shiftDown k j vec = some vec' ∧ vec'.length = vec.length ∧
      ∀ i, vec'[i]? = if j ≤ i ∧ i < j + k then vec[i + 1]? else vec[i]? := by
  induction k generalizing j vec with
  | zero =>
    refine ⟨vec, rfl, rfl, fun i => ?_⟩
    rw [if_neg (by omega)]
  | succ k ih =>
    obtain ⟨vec', hvec', hlength, hget⟩ := ih
      (show j + 1 + k < (vec.set j vec[j + 1]).length by rw [List.length_set]; omega)
    refine ⟨vec', ?_, by rw [hlength, List.length_set], fun i => ?_⟩
    · rw [shiftDown, List.getElem?_eq_getElem (by omega), Option.bind_some,
        write_of_lt (by omega), Option.bind_some, hvec']
    · rw [hget i]
      by_cases hi : i = j
      · subst hi
        rw [if_neg (by omega), if_pos (by omega), List.getElem?_set_self (by omega),
          List.getElem?_eq_getElem]
      · by_cases hij : j + 1 ≤ i ∧ i < j + 1 + k
        · rw [if_pos hij, if_pos (by omega), List.getElem?_set_ne (by omega)]
        · rw [if_neg hij, if_neg (by omega), List.getElem?_set_ne (by omega)]

theorem erase_eq (h : Sorted vec) (t : α) :
    erase vec t = some (if t ∈ vec then (vec.eraseIdx (rank vec t), 1) else (vec, 0)) := by
  unfold erase
  rw [findGeq_eq h, Option.bind_some]
  by_cases ht : t ∈ vec
  · have hlt := rank_lt_of_mem h ht
    rw [if_pos ht, if_neg (by rw [(getElem?_rank h t).mpr ht]; simp [hlt])]
    obtain ⟨vec', hvec', hlength, hget⟩ := shiftDown_spec
      (show rank vec t + (vec.length - 1 - rank vec t) < vec.length by omega)
    rw [hvec', Option.map_some]
    congr 2
    apply List.ext_getElem?
    intro i
    rw [List.getElem?_eraseIdx]
    by_cases hi : i < vec.length - 1
    · rw [List.getElem?_take_of_lt (by omega), hget]
      by_cases hir : i < rank vec t
      · rw [if_neg (by omega), if_pos hir]
      · rw [if_pos (by omega), if_neg hir]
    · rw [List.getElem?_eq_none (by rw [List.length_take]; omega), if_neg (by omega),
        List.getElem?_eq_none (by omega)]
  · rw [if_neg ht, if_pos (Or.inr fun heq => ht ((getElem?_rank h t).mp heq))]

omit [LinearOrder α] in
theorem mem_eraseIdx_of_getElem? (hnodup : vec.Nodup) {i : Nat} (hi : vec[i]? = some t) {x : α} :
    x ∈ vec.eraseIdx i ↔ x ∈ vec ∧ x ≠ t := by
  obtain ⟨hlt, rfl⟩ := List.getElem?_eq_some_iff.mp hi
  have hsplit : vec = vec.take i ++ vec[i] :: vec.drop (i + 1) := by
    rw [← List.drop_eq_getElem_cons hlt, List.take_append_drop]
  have hn : (vec.take i ++ vec[i] :: vec.drop (i + 1)).Nodup := by rwa [← hsplit]
  have hperm := List.nodup_middle.mp hn
  rw [List.nodup_cons, List.mem_append] at hperm
  rw [List.eraseIdx_eq_take_drop_succ, List.mem_append]
  have hmem : x ∈ vec ↔ x ∈ vec.take i ∨ x = vec[i] ∨ x ∈ vec.drop (i + 1) := by
    conv_lhs => rw [hsplit]
    rw [List.mem_append, List.mem_cons]
  rw [hmem]
  constructor
  · intro hx
    refine ⟨by tauto, ?_⟩
    rintro rfl
    exact hperm.1 hx
  · tauto

/-! ## Two sets -/

omit [LinearOrder α] in
theorem mem_drop_iff {a : Nat} (ha : a < vec.length) {x : α} :
    x ∈ vec.drop a ↔ x = vec[a] ∨ x ∈ vec.drop (a + 1) := by
  rw [List.drop_eq_getElem_cons ha, List.mem_cons]

omit [LinearOrder α] in
theorem mem_take_succ_iff {a : Nat} (ha : a < vec.length) {x : α} :
    x ∈ vec.take (a + 1) ↔ x ∈ vec.take a ∨ x = vec[a] := by
  rw [List.take_succ_eq_append_getElem ha, List.mem_append, List.mem_singleton]

theorem Sorted.lt_of_mem_drop (h : Sorted vec) {a : Nat} (ha : a < vec.length) {x : α}
    (hx : x ∈ vec.drop (a + 1)) : vec[a] < x := by
  obtain ⟨j, hj, rfl⟩ := List.mem_drop_iff_getElem.mp hx
  exact h.lt_getElem (by omega) _

theorem Sorted.lt_of_mem_take (h : Sorted vec) {a : Nat} (ha : a < vec.length) {x : α}
    (hx : x ∈ vec.take a) : x < vec[a] := by
  obtain ⟨j, hj, rfl⟩ := List.mem_take_iff_getElem.mp hx
  exact h.lt_getElem (by omega) _

/-- A smaller element of one vector is not in the rest of the other. -/
theorem Sorted.not_mem_drop (h : Sorted vec) {a : Nat} (ha : a < vec.length) {y : α}
    (hy : y < vec[a]) : y ∉ vec.drop a := by
  rw [mem_drop_iff ha]
  rintro (rfl | hmem)
  · exact lt_irrefl _ hy
  · exact lt_asymm hy (h.lt_of_mem_drop ha hmem)

/-- The loop counts the new elements in the rests of both vectors. -/
theorem countNew_eq (hv : Sorted vec) (hs : Sorted s) (a b cnt : Nat) :
    countNew vec s a b cnt = cnt + ((s.drop b).filter (· ∉ vec.drop a)).length := by
  rw [countNew]
  by_cases h : a < vec.length ∧ b < s.length
  · have ha := h.1
    have hb := h.2
    -- an element of the vector that is none of the rest of `s` makes no difference
    have hskip : ∀ b', (∀ y ∈ s.drop b', y ≠ vec[a]) →
        (s.drop b').filter (· ∉ vec.drop (a + 1)) = (s.drop b').filter (· ∉ vec.drop a) := by
      intro b' hne
      apply List.filter_congr
      intro y hy
      have hiff : y ∉ vec.drop (a + 1) ↔ y ∉ vec.drop a := by
        rw [mem_drop_iff ha]
        simp only [hne y hy, false_or]
      exact decide_eq_decide.mpr hiff
    rw [dif_pos h]
    dsimp only
    split_ifs with hlt heq
    · rw [countNew_eq hv hs, hskip b]
      intro y hy
      rcases (mem_drop_iff hb).mp hy with rfl | hy
      · exact hlt.ne'
      · exact (hlt.trans (hs.lt_of_mem_drop hb hy)).ne'
    · rw [countNew_eq hv hs, hskip (b + 1), List.drop_eq_getElem_cons hb,
        List.filter_cons_of_neg]
      · simp [← heq, mem_drop_iff ha]
      · intro y hy
        rw [heq]
        exact (hs.lt_of_mem_drop hb hy).ne'
    · have hgt : s[b] < vec[a] := lt_of_le_of_ne (not_lt.mp hlt) (Ne.symm heq)
      rw [countNew_eq hv hs, List.drop_eq_getElem_cons hb, List.filter_cons_of_pos,
        List.length_cons]
      · omega
      · simpa using hv.not_mem_drop ha hgt
  · rw [dif_neg h]
    by_cases hb : b < s.length
    · rw [if_pos hb, show vec.drop a = [] from List.drop_eq_nil_of_le (by omega)]
      simp
    · rw [if_neg hb, show s.drop b = [] from List.drop_eq_nil_of_le (by omega)]
      simp
termination_by (vec.length - a) + (s.length - b)

/-- The last element of a sorted vector is its largest one. -/
theorem Sorted.exists_append_of_max {U : List α} (hU : Sorted U) {z : α} (hz : z ∈ U)
    (hmax : ∀ x ∈ U, x ≤ z) : ∃ U', U = U' ++ [z] := by
  have hne : U ≠ [] := List.ne_nil_of_mem hz
  refine ⟨U.dropLast, ?_⟩
  have hlast : U.getLast hne = z := by
    apply le_antisymm (hmax _ (List.getLast_mem hne))
    obtain ⟨j, hj, rfl⟩ := List.mem_iff_getElem.mp hz
    rw [List.getLast_eq_getElem]
    rcases Nat.eq_or_lt_of_le (Nat.le_sub_one_of_lt hj) with heq | hlt
    · simp [heq]
    · exact (hU.lt_getElem hlt (by omega)).le
  rw [← hlast, List.dropLast_append_getLast]

theorem Sorted.length_le_of_subset {l U : List α} (h : Sorted l) (hsub : ∀ x ∈ l, x ∈ U) :
    l.length ≤ U.length :=
  (List.Nodup.subperm (h.imp ne_of_lt) hsub).length_le

/-- The first `n` elements but `z` are the first `n'`, and all of these are smaller. -/
structure CutAt (l : List α) (n n' : Nat) (z : α) : Prop where
  le : n' ≤ n
  below : ∀ x ∈ l.take n', x < z
  others : ∀ x ∈ l.take n, x = z ∨ x ∈ l.take n'

theorem CutAt.none (l : List α) (z : α) : CutAt l 0 0 z where
  le := le_rfl
  below _ hx := absurd hx (by simp)
  others _ hx := Or.inr hx

/-- The largest element is cut off. -/
theorem Sorted.cutAt_last {l : List α} (h : Sorted l) {a : Nat} (ha : a < l.length) :
    CutAt l (a + 1) a l[a] where
  le := Nat.le_succ a
  below _ hx := h.lt_of_mem_take ha hx
  others _ hx := ((mem_take_succ_iff ha).mp hx).symm

/-- All elements are smaller. -/
theorem Sorted.cutAt_of_lt {l : List α} (h : Sorted l) {a : Nat} (ha : a < l.length) {z : α}
    (hz : l[a] < z) : CutAt l (a + 1) (a + 1) z where
  le := le_rfl
  below x hx := by
    rcases (mem_take_succ_iff ha).mp hx with hx | rfl
    · exact (h.lt_of_mem_take ha hx).trans hz
    · exact hz
  others x hx := Or.inr hx

section Cut

variable {u U : List α} {na na' nb nb' : Nat} {z : α}

theorem CutAt.le_of_mem (ha : CutAt u na na' z) (hb : CutAt s nb nb' z)
    (hmem : ∀ x, x ∈ U ↔ x ∈ u.take na ∨ x ∈ s.take nb) : ∀ x ∈ U, x ≤ z := by
  intro x hx
  rcases (hmem x).mp hx with hx | hx
  · rcases ha.others x hx with rfl | hx
    · exact le_rfl
    · exact (ha.below x hx).le
  · rcases hb.others x hx with rfl | hx
    · exact le_rfl
    · exact (hb.below x hx).le

theorem CutAt.mem_ne_iff (ha : CutAt u na na' z) (hb : CutAt s nb nb' z)
    (hmem : ∀ x, x ∈ U ↔ x ∈ u.take na ∨ x ∈ s.take nb) (x : α) :
    x ∈ U ∧ x ≠ z ↔ x ∈ u.take na' ∨ x ∈ s.take nb' := by
  rw [hmem]
  constructor
  · rintro ⟨hx | hx, hne⟩
    · exact Or.inl ((ha.others x hx).resolve_left hne)
    · exact Or.inr ((hb.others x hx).resolve_left hne)
  · rintro (hx | hx)
    · exact ⟨Or.inl ((List.take_sublist_take_left ha.le).subset hx), (ha.below x hx).ne⟩
    · exact ⟨Or.inr ((List.take_sublist_take_left hb.le).subset hx), (hb.below x hx).ne⟩

end Cut

/-- The merge writes the sorted vector `U` of all elements in front of the rest.  `u` is
the vector before the merge. -/
theorem mergeBack_eq {u : List α} (hu : Sorted u) (hs : Sorted s) {n : Nat} :
    ∀ {U vec : List α} {na nb : Nat}, Sorted U → U.length = n → n ≤ vec.length → nb ≤ s.length →
      na ≤ u.length → (∀ k < na, vec[k]? = u[k]?) →
      (∀ x, x ∈ U ↔ x ∈ u.take na ∨ x ∈ s.take nb) →
      mergeBack s n na nb vec = some (U ++ vec.drop n) := by
  induction n with
  | zero =>
    intro U vec na nb _ hlength _ hnb hna _ hmem
    have hnil : U = [] := List.length_eq_zero_iff.mp hlength
    subst hnil
    have hna0 : na = 0 := by
      by_contra hpos
      exact absurd ((hmem u[0]).mpr (Or.inl (List.mem_take_iff_getElem.mpr ⟨0, by omega, rfl⟩)))
        List.not_mem_nil
    have hnb0 : nb = 0 := by
      by_contra hpos
      exact absurd ((hmem s[0]).mpr (Or.inr (List.mem_take_iff_getElem.mpr ⟨0, by omega, rfl⟩)))
        List.not_mem_nil
    rw [mergeBack, if_pos ⟨hna0, hnb0⟩]
    rfl
  | succ i ih =>
    intro U vec na nb hU hlength hn hnb hna hvec hmem
    have hshort : ∀ {V : List α} {m : Nat}, m ≤ u.length → (∀ x ∈ u.take m, x ∈ V) →
        m ≤ V.length := by
      intro V m hm hsub
      have := Sorted.length_le_of_subset (hu.sublist (List.take_sublist m u)) hsub
      rwa [List.length_take_of_le hm] at this
    -- the largest element is written, and the others are merged
    have hstep : ∀ z na' nb', z ∈ U → CutAt u na na' z → CutAt s nb nb' z →
        (write vec i z).bind (mergeBack s i na' nb') = some (U ++ vec.drop (i + 1)) := by
      intro z na' nb' hz hcuta hcutb
      have hrest := hcuta.mem_ne_iff hcutb hmem
      obtain ⟨U', rfl⟩ := hU.exists_append_of_max hz (hcuta.le_of_mem hcutb hmem)
      have hsorted := List.pairwise_append.mp hU
      have hlength' : U'.length = i := by
        rw [List.length_append, List.length_singleton] at hlength
        exact Nat.succ.inj hlength
      have hmem' : ∀ x, x ∈ U' ↔ x ∈ u.take na' ∨ x ∈ s.take nb' := by
        intro x
        rw [← hrest, List.mem_append, List.mem_singleton]
        constructor
        · intro hx
          exact ⟨Or.inl hx, (hsorted.2.2 x hx z (List.mem_singleton_self z)).ne⟩
        · rintro ⟨hx | hx, hne⟩
          · exact hx
          · exact absurd hx hne
      have hna' := hcuta.le.trans hna
      have hle : na' ≤ i := hlength' ▸ hshort hna' fun x hx => (hmem' x).mpr (Or.inl hx)
      rw [write_of_lt hn, Option.bind_some, ih hsorted.1 hlength' (by rw [List.length_set]; omega)
        (hcutb.le.trans hnb) hna' _ hmem']
      · rw [List.drop_set, if_neg (Nat.not_lt_of_le le_rfl), Nat.sub_self,
          List.drop_eq_getElem_cons hn, List.set_cons_zero, List.append_assoc]
        rfl
      · intro k hk
        rw [List.getElem?_set_ne (by omega)]
        exact hvec k (hk.trans_le hcuta.le)
    have hfits : ¬i + 1 < na :=
      Nat.not_lt_of_le (hlength ▸ hshort hna fun x hx => (hmem x).mpr (Or.inl hx))
    unfold mergeBack
    rw [if_neg hfits]
    match na, nb with
    | 0, 0 =>
      obtain ⟨x, hx⟩ := List.exists_mem_of_length_pos (l := U) (hlength ▸ Nat.succ_pos i)
      have := (hmem x).mp hx
      simp at this
    | 0, b + 1 =>
      dsimp only
      rw [List.getElem?_eq_getElem hnb, Option.bind_some]
      apply hstep _ 0 b _ (CutAt.none u _) (hs.cutAt_last hnb)
      exact (hmem _).mpr (Or.inr ((mem_take_succ_iff hnb).mpr (Or.inr rfl)))
    | a + 1, 0 =>
      dsimp only
      rw [hvec a (Nat.lt_succ_self a), List.getElem?_eq_getElem hna, Option.bind_some]
      apply hstep _ a 0 _ (hu.cutAt_last hna) (CutAt.none s _)
      exact (hmem _).mpr (Or.inl ((mem_take_succ_iff hna).mpr (Or.inr rfl)))
    | a + 1, b + 1 =>
      have hua : u[a] ∈ U := (hmem _).mpr (Or.inl ((mem_take_succ_iff hna).mpr (Or.inr rfl)))
      have hsb : s[b] ∈ U := (hmem _).mpr (Or.inr ((mem_take_succ_iff hnb).mpr (Or.inr rfl)))
      dsimp only
      rw [hvec a (Nat.lt_succ_self a), List.getElem?_eq_getElem hna, Option.bind_some,
        List.getElem?_eq_getElem hnb, Option.bind_some]
      split_ifs with hlt heq
      · exact hstep _ (a + 1) b hsb (hu.cutAt_of_lt hna hlt) (hs.cutAt_last hnb)
      · exact hstep _ a b hua (hu.cutAt_last hna) (heq ▸ hs.cutAt_last hnb)
      · have hgt : s[b] < u[a] := lt_of_le_of_ne (not_lt.mp hlt) (Ne.symm heq)
        exact hstep _ a (b + 1) hua (hu.cutAt_last hna) (hs.cutAt_of_lt hnb hgt)

/-- The elements of `s` that are not in the vector. -/
def fresh (vec s : List α) : List α := s.filter (· ∉ vec)

theorem countNew_start (hv : Sorted vec) (hs : Sorted s) :
    countNew vec s 0 0 0 = (fresh vec s).length := by
  rw [countNew_eq hv hs, List.drop_zero, List.drop_zero, Nat.zero_add]
  rfl

/-- The vector of the union. -/
theorem exists_union (hv : Sorted vec) (hs : Sorted s) :
    ∃ U : List α, Sorted U ∧ (∀ x, x ∈ U ↔ x ∈ vec ∨ x ∈ s) ∧
      U.length = vec.length + (fresh vec s).length := by
  refine ⟨(vec.toFinset ∪ s.toFinset).sort, Finset.sortedLT_sort _ |>.pairwise, ?_, ?_⟩
  · intro x
    rw [Finset.mem_sort, Finset.mem_union, List.mem_toFinset, List.mem_toFinset]
  · have hfresh : (vec.toFinset ∪ s.toFinset) = (vec ++ fresh vec s).toFinset := by
      ext x
      simp only [fresh, Finset.mem_union, List.mem_toFinset, List.mem_append, List.mem_filter,
        decide_eq_true_eq]
      tauto
    rw [Finset.length_sort, hfresh, List.toFinset_card_of_nodup, List.length_append]
    rw [List.nodup_append']
    refine ⟨hv.imp ne_of_lt, (hs.filter _).imp ne_of_lt, ?_⟩
    intro x hx hx'
    have := (List.mem_filter.mp hx').2
    simp [hx] at this

theorem insertAll_eq (hv : Sorted vec) (hs : Sorted s) :
    ∃ U, insertAll vec s = some (U, (fresh vec s).length) ∧ Sorted U ∧
      ∀ x, x ∈ U ↔ x ∈ vec ∨ x ∈ s := by
  match s with
  | [] => exact ⟨vec, rfl, hv, by simp⟩
  | [y] =>
    refine ⟨inserted vec y, ?_, hv.inserted y, fun x => ?_⟩
    · rw [insertAll, insert_eq hv, Option.map_some]
      by_cases hy : y ∈ vec <;> simp [fresh, hy]
    · rw [mem_inserted, List.mem_singleton]
      exact Or.comm
  | y :: z :: s =>
    rw [insertAll, countNew_start hv hs]
    by_cases hpos : 0 < (fresh vec (y :: z :: s)).length
    · obtain ⟨U, hU, hmem, hlength⟩ := exists_union hv hs
      refine ⟨U, ?_, hU, hmem⟩
      rw [if_pos hpos, mergeBack_eq hv hs hU hlength _ le_rfl le_rfl _ _, Option.map_some]
      · rw [List.drop_eq_nil_of_le, List.append_nil]
        rw [List.length_append, List.length_replicate]
      · rw [List.length_append, List.length_replicate]
      · intro k hk
        rw [List.getElem?_append_left hk]
      · intro x
        rw [List.take_length, List.take_length]
        exact hmem x
    · rw [if_neg hpos]
      refine ⟨vec, rfl, hv, fun x => ?_⟩
      constructor
      · exact Or.inl
      · rintro (hx | hx)
        · exact hx
        · by_contra hnot
          exact hpos (List.length_pos_of_mem (List.mem_filter.mpr ⟨hx, by simpa using hnot⟩))

/-- What the loop of `erase` has done when it is at `a` and `b`; `u` is the vector
before. -/
structure Compacted (u s vec : List α) (a b ains cnt : Nat) : Prop where
  length : vec.length = u.length
  rest : ∀ k, a ≤ k → vec[k]? = u[k]?
  kept : vec.take ains = (u.take a).filter (· ∉ s)
  counted : ains + cnt = a
  bound : a ≤ u.length
  passed : ∀ y ∈ s.take b, ∀ x ∈ u.drop a, y < x

/-- The elements of `s` behind the loop are not `u[a]`. -/
theorem Compacted.not_mem {u : List α} (hs : Sorted s) {a b ains cnt : Nat}
    (h : Compacted u s vec a b ains cnt) (ha : a < u.length)
    (hb : ∀ hb : b < s.length, u[a] < s[b]) : u[a] ∉ s := by
  rw [← List.take_append_drop b s, List.mem_append]
  have hmem : u[a] ∈ u.drop a := (mem_drop_iff ha).mpr (Or.inl rfl)
  rintro (hx | hx)
  · exact lt_irrefl _ (h.passed _ hx _ hmem)
  · by_cases hbs : b < s.length
    · exact hs.not_mem_drop hbs (hb hbs) hx
    · rw [List.drop_eq_nil_of_le (by omega)] at hx
      exact List.not_mem_nil hx

/-- An element that is not in `s` is kept. -/
theorem Compacted.keep {u : List α} (hs : Sorted s) {vec' : List α} {a b ains cnt : Nat}
    (h : Compacted u s vec a b ains cnt) (ha : a < u.length)
    (hb : ∀ hb : b < s.length, u[a] < s[b]) (hlength : vec'.length = vec.length)
    (hrest : ∀ k, a + 1 ≤ k → vec'[k]? = vec[k]?)
    (hkept : vec'.take (ains + 1) = vec.take ains ++ [u[a]]) :
    Compacted u s vec' (a + 1) b (ains + 1) cnt where
  length := hlength.trans h.length
  rest k hk := (hrest k hk).trans (h.rest k (by omega))
  kept := by
    rw [hkept, h.kept, List.take_succ_eq_append_getElem ha, List.filter_append]
    congr 1
    rw [List.filter_cons_of_pos (by simpa using h.not_mem hs ha hb)]
    rfl
  counted := by
    have := h.counted
    omega
  bound := ha
  passed y hy x hx := h.passed y hy x ((mem_drop_iff ha).mpr (Or.inr hx))

/-- An element that is in `s` is passed over. -/
theorem Compacted.erase {u : List α} (hu : Sorted u) {a b ains cnt : Nat}
    (h : Compacted u s vec a b ains cnt) (ha : a < u.length) (hb : b < s.length)
    (heq : u[a] = s[b]) : Compacted u s vec (a + 1) (b + 1) ains (cnt + 1) where
  length := h.length
  rest k hk := h.rest k (Nat.le_of_succ_le hk)
  kept := by
    have hmem : u[a] ∈ s := heq ▸ List.getElem_mem hb
    rw [List.take_succ_eq_append_getElem ha, List.filter_append, ← h.kept,
      List.filter_cons_of_neg (by simpa using hmem)]
    exact (List.append_nil _).symm
  counted := by
    rw [← Nat.add_assoc, h.counted]
  bound := ha
  passed y hy x hx := by
    rcases (mem_take_succ_iff hb).mp hy with hy | rfl
    · exact h.passed y hy x ((mem_drop_iff ha).mpr (Or.inr hx))
    · rw [← heq]
      exact hu.lt_of_mem_drop ha hx

/-- An element of `s` that is smaller than the rest is passed over. -/
theorem Compacted.skip {u : List α} (hu : Sorted u) {a b ains cnt : Nat}
    (h : Compacted u s vec a b ains cnt) (ha : a < u.length) (hb : b < s.length)
    (hgt : s[b] < u[a]) : Compacted u s vec a (b + 1) ains cnt where
  length := h.length
  rest := h.rest
  kept := h.kept
  counted := h.counted
  bound := h.bound
  passed y hy x hx := by
    rcases (mem_take_succ_iff hb).mp hy with hy | rfl
    · exact h.passed y hy x hx
    · rcases (mem_drop_iff ha).mp hx with rfl | hx
      · exact hgt
      · exact hgt.trans (hu.lt_of_mem_drop ha hx)

/-- One round of the loop. -/
theorem Compacted.round {u : List α} (hu : Sorted u) (hs : Sorted s) {a b ains cnt : Nat}
    (h : Compacted u s vec a b ains cnt) (ha : a < u.length) (hb : b < s.length) :
    ∃ vec' a' b' ains' cnt', compact s vec a b ains cnt = compact s vec' a' b' ains' cnt' ∧
      Compacted u s vec' a' b' ains' cnt' ∧
      (u.length - a') + (s.length - b') < (u.length - a) + (s.length - b) := by
  have hav : a < vec.length := h.length ▸ ha
  have hvec : vec[a] = u[a] := by
    have hrest := h.rest a le_rfl
    rwa [List.getElem?_eq_getElem hav, List.getElem?_eq_getElem ha, Option.some.injEq] at hrest
  rw [compact, dif_pos ⟨hav, hb⟩]
  dsimp only
  rw [hvec]
  have hnexta : u.length - (a + 1) < u.length - a := Nat.sub_succ_lt_self _ _ ha
  have hnextb : s.length - (b + 1) < s.length - b := Nat.sub_succ_lt_self _ _ hb
  split_ifs with heq hlt hne
  · exact ⟨_, _, _, _, _, rfl, h.erase hu ha hb heq, Nat.add_lt_add hnexta hnextb⟩
  · refine ⟨_, _, _, _, _, rfl, ?_, Nat.add_lt_add_right hnexta _⟩
    have hle : ains ≤ a := h.counted ▸ Nat.le_add_right ains cnt
    have hains : ains < vec.length := hle.trans_lt hav
    apply h.keep hs ha (fun _ => hlt) (List.length_set ..)
    · intro k hk
      rw [List.getElem?_set_ne (hle.trans_lt hk).ne]
    · rw [List.take_succ_eq_append_getElem (by rw [List.length_set]; exact hains),
        List.getElem_set_self, List.take_set_of_le le_rfl]
  · refine ⟨_, _, _, _, _, rfl, ?_, Nat.add_lt_add_right hnexta _⟩
    have hains : ains = a := not_not.mp hne
    subst hains
    apply h.keep hs ha (fun _ => hlt) rfl (fun _ _ => rfl)
    rw [List.take_succ_eq_append_getElem hav, hvec]
  · have hgt : s[b] < u[a] := lt_of_le_of_ne (not_lt.mp hlt) (Ne.symm heq)
    exact ⟨_, _, _, _, _, rfl, h.skip hu ha hb hgt, Nat.add_lt_add_left hnextb _⟩

theorem compact_spec {u : List α} (hu : Sorted u) (hs : Sorted s) {vec : List α}
    {a b ains cnt : Nat} (h : Compacted u s vec a b ains cnt) :
    ∃ vec' a' b' ains' cnt', compact s vec a b ains cnt = (vec', a', ains', cnt') ∧
      Compacted u s vec' a' b' ains' cnt' ∧ (a' = u.length ∨ s.length ≤ b') := by
  -- the induction is on what is left of both vectors
  induction hn : (u.length - a) + (s.length - b) using Nat.strong_induction_on
    generalizing vec a b ains cnt with
  | _ n ih =>
    by_cases hab : a < u.length ∧ b < s.length
    · obtain ⟨vec', a', b', ains', cnt', hround, h', hlt⟩ := h.round hu hs hab.1 hab.2
      rw [hround]
      exact ih _ (hn ▸ hlt) h' rfl
    · have hstop : ¬(a < vec.length ∧ b < s.length) := by rwa [h.length]
      rw [compact, dif_neg hstop]
      refine ⟨vec, a, b, ains, cnt, rfl, h, ?_⟩
      have := h.bound
      omega

omit [LinearOrder α] in
theorem moveDown_spec {k a ains : Nat} (ha : a + k = vec.length) (hains : ains < a) :
    ∃ vec', moveDown k a ains vec = some vec' ∧ vec'.length = vec.length ∧
      vec'.take (ains + k) = vec.take ains ++ vec.drop a := by
  induction k generalizing a ains vec with
  | zero =>
    refine ⟨vec, rfl, rfl, ?_⟩
    rw [List.drop_eq_nil_of_le (by omega), List.append_nil]
    rfl
  | succ k ih =>
    have hav : a < vec.length := by omega
    obtain ⟨vec', hvec', hlength, htake⟩ := ih
      (show a + 1 + k = (vec.set ains vec[a]).length by rw [List.length_set]; omega)
      (show ains + 1 < a + 1 by omega)
    refine ⟨vec', ?_, by rw [hlength, List.length_set], ?_⟩
    · rw [moveDown, List.getElem?_eq_getElem hav, Option.bind_some, write_of_lt (by omega),
        Option.bind_some, hvec']
    · rw [show ains + (k + 1) = ains + 1 + k by omega, htake,
        List.take_succ_eq_append_getElem (by rw [List.length_set]; omega), List.getElem_set_self,
        List.take_set_of_le le_rfl, List.drop_set_of_lt (by omega), List.append_assoc,
        List.drop_eq_getElem_cons hav]
      rfl

theorem eraseAll_eq (hv : Sorted vec) (hs : Sorted s) :
    eraseAll vec s = some (vec.filter (· ∉ s), (vec.filter (· ∈ s)).length) := by
  have hall : ∀ l : List α, (∀ x ∈ l, x ∉ s) → l.filter (· ∉ s) = l ∧ l.filter (· ∈ s) = [] := by
    intro l hl
    refine ⟨List.filter_eq_self.mpr fun x hx => by simpa using hl x hx, ?_⟩
    rw [List.filter_eq_nil_iff]
    intro x hx
    simpa using hl x hx
  unfold eraseAll
  by_cases hempty : vec = [] ∨ s = []
  · have hnone : ∀ x ∈ vec, x ∉ s := by
      rcases hempty with rfl | rfl <;> simp
    rw [if_pos hempty, (hall vec hnone).1, (hall vec hnone).2]
    rfl
  · rw [if_neg hempty]
    have hstart : Compacted vec s vec 0 0 0 0 :=
      ⟨rfl, fun _ _ => rfl, rfl, rfl, Nat.zero_le _, by simp⟩
    obtain ⟨vec', a, b, ains, cnt, hcompact, h, hend⟩ := compact_spec hv hs hstart
    rw [hcompact]
    dsimp only
    have hlength := h.length
    have hcounted := h.counted
    have hbound := h.bound
    -- what the loop did not reach is not in `s`
    have hrest : ∀ x ∈ vec.drop a, x ∉ s := by
      intro x hx hxs
      rcases hend with rfl | hb
      · simp at hx
      · rw [← List.take_of_length_le hb] at hxs
        exact lt_irrefl _ (h.passed x hxs x hx)
    have hdrop : vec'.drop a = vec.drop a := by
      apply List.ext_getElem?
      intro k
      rw [List.getElem?_drop, List.getElem?_drop]
      exact h.rest _ (by omega)
    have hfilter : vec'.take ains ++ vec'.drop a = vec.filter (· ∉ s) := by
      conv_rhs => rw [← List.take_append_drop a vec]
      rw [List.filter_append, (hall _ hrest).1, h.kept, hdrop]
    have hcnt : (vec.filter (· ∈ s)).length = cnt := by
      have hsum : (vec.filter (· ∈ s)).length + (vec.filter (· ∉ s)).length = vec.length := by
        have := List.length_eq_length_filter_add (l := vec) (fun x => decide (x ∈ s))
        simpa using this.symm
      have hains : ains ≤ vec'.length := hlength ▸ (hcounted ▸ Nat.le_add_right _ _).trans hbound
      rw [← hfilter, List.length_append, List.length_take_of_le hains, List.length_drop] at hsum
      omega
    rw [hcnt]
    by_cases hains : ains = a
    · rw [if_neg (not_not.mpr hains), ← hfilter, hains, List.take_append_drop]
    · obtain ⟨vec'', hmove, _, htake⟩ := moveDown_spec
        (show a + (vec'.length - a) = vec'.length by omega) (show ains < a by omega)
      rw [if_pos hains, hmove, Option.map_some, htake, hfilter]

/-- `subset_of` compares the rests of both vectors. -/
theorem subsetLoop_eq (hv : Sorted vec) (hs : Sorted s) (a b : Nat) :
    subsetLoop vec s a b = some (decide (∀ x ∈ vec.drop a, x ∈ s.drop b)) := by
  rw [subsetLoop]
  by_cases ha : a < vec.length
  · rw [dif_pos ha]
    have hmem : vec[a] ∈ vec.drop a := (mem_drop_iff ha).mpr (Or.inl rfl)
    by_cases hshort : s.length - b < vec.length - a
    · rw [if_pos hshort]
      symm
      rw [Option.some.injEq, decide_eq_false_iff_not]
      intro hsub
      have hle := Sorted.length_le_of_subset (hv.sublist (List.drop_sublist a vec)) hsub
      rw [List.length_drop, List.length_drop] at hle
      omega
    · have hb : b < s.length := by omega
      rw [if_neg hshort, dif_pos hb]
      split_ifs with hlt heq
      · symm
        rw [Option.some.injEq, decide_eq_false_iff_not]
        intro hsub
        exact hs.not_mem_drop hb hlt (hsub _ hmem)
      · rw [subsetLoop_eq hv hs]
        congr 1
        rw [decide_eq_decide]
        simp only [mem_drop_iff ha, mem_drop_iff hb]
        constructor
        · rintro h x (rfl | hx)
          · exact Or.inl heq
          · exact Or.inr (h x hx)
        · intro h x hx
          have hne : x ≠ s[b] := by
            rw [← heq]
            exact (hv.lt_of_mem_drop ha hx).ne'
          exact (h x (Or.inr hx)).resolve_left hne
      · have hgt : s[b] < vec[a] := lt_of_le_of_ne (not_lt.mp hlt) (Ne.symm heq)
        rw [subsetLoop_eq hv hs]
        congr 1
        rw [decide_eq_decide]
        simp only [mem_drop_iff hb]
        constructor
        · intro h x hx
          exact Or.inr (h x hx)
        · intro h x hx
          apply (h x hx).resolve_left
          rcases (mem_drop_iff ha).mp hx with rfl | hx
          · exact hgt.ne'
          · exact (hgt.trans (hv.lt_of_mem_drop ha hx)).ne'
  · rw [dif_neg ha, show vec.drop a = [] from List.drop_eq_nil_of_le (by omega)]
    simp
termination_by (vec.length - a) + (s.length - b)

theorem subsetOf_eq (hv : Sorted vec) (hs : Sorted s) :
    subsetOf vec s = some (decide (∀ x ∈ vec, x ∈ s)) := by
  unfold subsetOf
  by_cases hlong : s.length < vec.length
  · rw [if_pos hlong]
    symm
    rw [Option.some.injEq, decide_eq_false_iff_not]
    intro hsub
    have := hv.length_le_of_subset hsub
    omega
  · rw [if_neg hlong, subsetLoop_eq hv hs, List.drop_zero, List.drop_zero]

/-- `intersects` compares the rests of both vectors. -/
theorem intersectsLoop_eq (hv : Sorted vec) (hs : Sorted s) (a b : Nat) :
    intersectsLoop vec s a b = decide (∃ x ∈ vec.drop a, x ∈ s.drop b) := by
  rw [intersectsLoop]
  by_cases hab : a < vec.length ∧ b < s.length
  · have ha := hab.1
    have hb := hab.2
    rw [dif_pos hab]
    dsimp only
    split_ifs with hlt heq
    · rw [intersectsLoop_eq hv hs, decide_eq_decide]
      simp only [mem_drop_iff ha, exists_eq_or_imp]
      constructor
      · exact Or.inr
      · intro h
        exact h.resolve_left (hs.not_mem_drop hb hlt)
    · symm
      rw [decide_eq_true_iff]
      exact ⟨vec[a], (mem_drop_iff ha).mpr (Or.inl rfl), (mem_drop_iff hb).mpr (Or.inl heq)⟩
    · have hgt : s[b] < vec[a] := lt_of_le_of_ne (not_lt.mp hlt) (Ne.symm heq)
      rw [intersectsLoop_eq hv hs, decide_eq_decide]
      simp only [mem_drop_iff hb]
      constructor
      · rintro ⟨x, hx, hxs⟩
        exact ⟨x, hx, Or.inr hxs⟩
      · rintro ⟨x, hx, rfl | hxs⟩
        · exact absurd hx (hv.not_mem_drop ha hgt)
        · exact ⟨x, hx, hxs⟩
  · rw [dif_neg hab]
    symm
    rw [decide_eq_false_iff_not]
    rintro ⟨x, hx, hxs⟩
    rw [not_and_or] at hab
    rcases hab with ha | hb
    · rw [List.drop_eq_nil_of_le (by omega)] at hx
      exact List.not_mem_nil hx
    · rw [List.drop_eq_nil_of_le (by omega)] at hxs
      exact List.not_mem_nil hxs
termination_by (vec.length - a) + (s.length - b)

theorem intersects_eq (hv : Sorted vec) (hs : Sorted s) :
    intersects vec s = decide (∃ x ∈ vec, x ∈ s) := by
  rw [intersects, intersectsLoop_eq hv hs, List.drop_zero, List.drop_zero]

end ViEqui.VecSetOps
