import Mathlib.Data.List.Nodup
import Mathlib.Data.List.Perm.Basic
import Mathlib.Data.List.Range

/-!
# The maximal elements of a range

`frontier_filter`, which `src/TSOTraceBuilder.cpp` and `src/RFSCTraceBuilder.cpp` both have.
A range is its memory from the position `first` on, which is 0 here, with a number of
elements.

* `Checking`: what holds while an element is compared with the kept ones.
* `Filtered`: what holds between two elements.
* `frontierFilter_perm`: the range is permuted, and exactly its maximal elements are kept.
-/

namespace ViEqui.Frontier

variable {α : Type}

/-! ## The function -/

/-- `std::swap(*i, *j)`. -/
def swap (a : Nat → α) (i j : Nat) : Nat → α :=
  fun p => if p = i then a j else if p = j then a i else a p

/-- The loop over `check`: whether `current` is included, and the range with its kept part. -/
def checkLoop (less : α → α → Bool) (a : Nat → α) (current fill check : Nat) :
    Bool × (Nat → α) × Nat :=
  -- `check != fill`: `check` starts before `fill` and does not pass it
  if check < fill then
    if less (a current) (a check) then (false, a, fill)
    else if less (a check) (a current) then
      checkLoop less (swap a check (fill - 1)) current (fill - 1) check
    else checkLoop less a current fill (check + 1)
  else (true, a, fill)
termination_by fill - check

/-- A round of the loop over `current`. -/
def round (less : α → α → Bool) (r : (Nat → α) × Nat) (current : Nat) : (Nat → α) × Nat :=
  match checkLoop less r.1 current r.2 0 with
  | (false, a, fill) => (a, fill)
  | (true, a, fill) => (if fill ≠ current then swap a fill current else a, fill + 1)

/-- `frontier_filter` of the range of `n` elements: the range afterwards, and the result. -/
def frontierFilter (less : α → α → Bool) (a : Nat → α) (n : Nat) : (Nat → α) × Nat :=
  (List.range n).foldl (round less) (a, 0)

/-! ## Ranges -/

/-- The elements of a range. -/
def elements (a : Nat → α) (n : Nat) : List α := (List.range n).map a

/-- A strict partial order on the elements of a list. -/
structure StrictOn (less : α → α → Bool) (l : List α) : Prop where
  irrefl : ∀ x ∈ l, less x x = false
  trans : ∀ x ∈ l, ∀ y ∈ l, ∀ z ∈ l, less x y → less y z → less x z

/-- The elements that are not less than any other one. -/
def maximal (less : α → α → Bool) (l : List α) : List α := l.filter fun x => l.all (!less x ·)

variable {less : α → α → Bool} {l : List α} {a a' : Nat → α} {n i j p q : Nat}
  {current fill check : Nat}

theorem mem_elements {x : α} : x ∈ elements a n ↔ ∃ p < n, a p = x := by
  simp only [elements, List.mem_map, List.mem_range]

theorem swap_left : swap a i j i = a j := if_pos rfl

theorem swap_right : swap a i j j = a i := by
  unfold swap
  split_ifs with h h
  · rw [h]
  · rfl
  · exact absurd rfl h

theorem swap_of_ne (hi : p ≠ i) (hj : p ≠ j) : swap a i j p = a p := by
  rw [swap, if_neg hi, if_neg hj]

theorem swap_self_swap : swap (swap a i j) i j = a := by
  funext p
  by_cases hi : p = i
  · rw [hi, swap_left, swap_right]
  · by_cases hj : p = j
    · rw [hj, swap_right, swap_left]
    · rw [swap_of_ne hi hj, swap_of_ne hi hj]

theorem swap_eq_comp : swap a i j = a ∘ swap id i j := by
  funext p
  show swap a i j p = a (swap id i j p)
  unfold swap
  split_ifs <;> rfl

theorem swap_id_lt (hi : i < n) (hj : j < n) (hp : p < n) : swap id i j p < n := by
  unfold swap
  split_ifs
  · exact hj
  · exact hi
  · exact hp

/-- A swap within the range permutes it. -/
theorem elements_swap (hi : i < n) (hj : j < n) :
    (elements (swap a i j) n).Perm (elements a n) := by
  have hrange : ((List.range n).map (swap id i j)).Perm (List.range n) := by
    have htwice (p : Nat) : swap id i j (swap id i j p) = p :=
      (congrFun swap_eq_comp p).symm.trans (congrFun swap_self_swap p)
    have hinj : Function.Injective (swap (id : Nat → Nat) i j) :=
      Function.LeftInverse.injective htwice
    rw [List.perm_ext_iff_of_nodup (List.nodup_range.map hinj) List.nodup_range]
    intro p
    simp only [List.mem_map, List.mem_range]
    constructor
    · rintro ⟨q, hq, rfl⟩
      exact swap_id_lt hi hj hq
    · intro hp
      exact ⟨swap id i j p, swap_id_lt hi hj hp, htwice p⟩
  have hmap := hrange.map a
  rw [List.map_map, ← swap_eq_comp] at hmap
  exact hmap

/-! ## One element -/

/-- The range while `current` is compared with the kept elements, those before `check` being
done. -/
structure Checking (less : α → α → Bool) (l : List α) (n current : Nat) (a : Nat → α)
    (fill check : Nat) : Prop where
  current_lt : current < n
  check_le : check ≤ fill
  fill_le : fill ≤ current
  perm : (elements a n).Perm l
  antichain : ∀ p < fill, ∀ q < fill, less (a p) (a q) = false
  apart : ∀ p < check, less (a p) (a current) = false ∧ less (a current) (a p) = false
  dropped : ∀ p, fill ≤ p → p < current →
    less (a p) (a current) ∨ ∃ q < fill, less (a p) (a q)

/-- Between two elements: those before `fill` are kept, and each other one is less than a
kept one. -/
structure Filtered (less : α → α → Bool) (l : List α) (n current : Nat) (a : Nat → α)
    (fill : Nat) : Prop where
  fill_le : fill ≤ current
  perm : (elements a n).Perm l
  antichain : ∀ p < fill, ∀ q < fill, less (a p) (a q) = false
  dropped : ∀ p, fill ≤ p → p < current → ∃ q < fill, less (a p) (a q)

theorem mem_of_perm (h : (elements a n).Perm l) (hp : p < n) : a p ∈ l :=
  h.mem_iff.mp (mem_elements.mpr ⟨p, hp, rfl⟩)

/-- Dropping an element: it is less than the current one, and moves behind the kept ones. -/
theorem Checking.drop (hl : StrictOn less l) (h : Checking less l n current a fill check)
    (hcheck : check < fill) (hless : less (a check) (a current)) :
    Checking less l n current (swap a check (fill - 1)) (fill - 1) check := by
  obtain ⟨last, rfl⟩ : ∃ last, fill = last + 1 := ⟨fill - 1, by omega⟩
  show Checking less l n current (swap a check last) last check
  have hcurrent := h.current_lt
  have hfill : last < current := h.fill_le
  have hcheck : check ≤ last := Nat.le_of_lt_succ hcheck
  have hlastn : last < n := hfill.trans hcurrent
  have hcheckn : check < n := hcheck.trans_lt hlastn
  have hsame : swap a check last current = a current :=
    swap_of_ne (hcheck.trans_lt hfill).ne' hfill.ne'
  -- a kept position has one of the elements that were kept
  have hkept : ∀ p < last, ∃ p' < last + 1, swap a check last p = a p' := by
    intro p hp
    by_cases hpc : p = check
    · exact ⟨last, Nat.lt_succ_self last, by rw [hpc, swap_left]⟩
    · exact ⟨p, hp.trans (Nat.lt_succ_self last), swap_of_ne hpc hp.ne⟩
  constructor
  · exact hcurrent
  · exact hcheck
  · exact hfill.le
  · exact (elements_swap hcheckn hlastn).trans h.perm
  · intro p hp q hq
    obtain ⟨p', hp', hpa⟩ := hkept p hp
    obtain ⟨q', hq', hqa⟩ := hkept q hq
    rw [hpa, hqa]
    exact h.antichain p' hp' q' hq'
  · intro p hp
    rw [hsame, swap_of_ne hp.ne (hp.trans_le hcheck).ne]
    exact h.apart p hp
  · intro p hp hpc
    rw [hsame]
    by_cases hlast : p = last
    · left
      rw [hlast, swap_right]
      exact hless
    · have hgt : last + 1 ≤ p := hp.lt_of_ne (Ne.symm hlast)
      rw [swap_of_ne (hcheck.trans_lt hgt).ne' hlast]
      rcases h.dropped p hgt hpc with hlt | ⟨q, hq, hlt⟩
      · exact Or.inl hlt
      · by_cases hqc : q = check
        · -- less than the dropped element
          left
          rw [hqc] at hlt
          exact hl.trans _ (mem_of_perm h.perm (hpc.trans hcurrent)) _
            (mem_of_perm h.perm hcheckn) _ (mem_of_perm h.perm hcurrent) hlt hless
        · right
          by_cases hqlast : q = last
          · have hne : check ≠ last := fun heq => hqc (hqlast.trans heq.symm)
            refine ⟨check, hcheck.lt_of_ne hne, ?_⟩
            rw [swap_left, ← hqlast]
            exact hlt
          · refine ⟨q, (Nat.le_of_lt_succ hq).lt_of_ne hqlast, ?_⟩
            rw [swap_of_ne hqc hqlast]
            exact hlt

/-- What the loop over `check` leaves. -/
theorem checkLoop_checking (hl : StrictOn less l) (h : Checking less l n current a fill check) :
    match checkLoop less a current fill check with
    | (false, a', fill') =>
      ∃ check' < fill', Checking less l n current a' fill' check' ∧ less (a' current) (a' check')
    | (true, a', fill') => Checking less l n current a' fill' fill' := by
  induction a, fill, check using checkLoop.induct less current with
  | case1 a fill check hlt hless =>
    rw [checkLoop, if_pos hlt, if_pos hless]
    exact ⟨check, hlt, h, hless⟩
  | case2 a fill check hlt hless hdrop ih =>
    rw [checkLoop, if_pos hlt, if_neg hless, if_pos hdrop]
    exact ih (h.drop hl hlt hdrop)
  | case3 a fill check hlt hless hdrop ih =>
    rw [checkLoop, if_pos hlt, if_neg hless, if_neg hdrop]
    apply ih
    refine ⟨h.current_lt, hlt, h.fill_le, h.perm, h.antichain, ?_, h.dropped⟩
    intro p hp
    rcases Nat.lt_succ_iff_lt_or_eq.mp hp with hbefore | heq
    · exact h.apart p hbefore
    · rw [heq]
      exact ⟨Bool.eq_false_iff.mpr hdrop, Bool.eq_false_iff.mpr hless⟩
  | case4 a fill check hdone =>
    rw [checkLoop, if_neg hdone]
    have heq : check = fill := by
      have := h.check_le
      omega
    exact heq ▸ h

/-- An element that is not included is less than a kept one, as is what it has dropped. -/
theorem Checking.exclude (hl : StrictOn less l) (h : Checking less l n current a fill check)
    (hcheck : check < fill) (hless : less (a current) (a check)) :
    Filtered less l n (current + 1) a fill := by
  have hcurrent := h.current_lt
  have hfill := h.fill_le
  refine ⟨by omega, h.perm, h.antichain, ?_⟩
  intro p hp hpc
  by_cases heq : p = current
  · exact ⟨check, hcheck, by rw [heq]; exact hless⟩
  · rcases h.dropped p hp (by omega) with hlt | hkept
    · refine ⟨check, hcheck, ?_⟩
      exact hl.trans _ (mem_of_perm h.perm (by omega)) _ (mem_of_perm h.perm hcurrent) _
        (mem_of_perm h.perm (by omega)) hlt hless
    · exact hkept

/-- An included element is put behind the kept ones. -/
theorem Checking.include (hl : StrictOn less l) (h : Checking less l n current a fill fill) :
    Filtered less l n (current + 1) (if fill ≠ current then swap a fill current else a)
      (fill + 1) := by
  have hcurrent := h.current_lt
  have hfill := h.fill_le
  have hself : less (a current) (a current) = false :=
    hl.irrefl _ (mem_of_perm h.perm hcurrent)
  by_cases hne : fill ≠ current
  · rw [if_pos hne]
    have hkept : ∀ p < fill + 1, swap a fill current p = if p = fill then a current else a p := by
      intro p hp
      split_ifs with hpf
      · rw [hpf, swap_left]
      · exact swap_of_ne hpf (by omega)
    refine ⟨by omega, (elements_swap (by omega) hcurrent).trans h.perm, ?_, ?_⟩
    · intro p hp q hq
      rw [hkept p hp, hkept q hq]
      split_ifs with hpf hqf hqf
      · exact hself
      · exact (h.apart q (by omega)).2
      · exact (h.apart p (by omega)).1
      · exact h.antichain p (by omega) q (by omega)
    · intro p hp hpc
      -- the position has an element that was dropped before
      have hold : ∃ p', fill ≤ p' ∧ p' < current ∧ swap a fill current p = a p' := by
        by_cases heq : p = current
        · exact ⟨fill, le_rfl, by omega, by rw [heq, swap_right]⟩
        · exact ⟨p, by omega, by omega, swap_of_ne (by omega) heq⟩
      obtain ⟨p', hp', hpc', hpa⟩ := hold
      rw [hpa]
      rcases h.dropped p' hp' hpc' with hlt | ⟨q, hq, hlt⟩
      · exact ⟨fill, by omega, by rw [swap_left]; exact hlt⟩
      · exact ⟨q, by omega, by rw [swap_of_ne (by omega) (by omega)]; exact hlt⟩
  · rw [if_neg hne]
    rw [not_not] at hne
    refine ⟨by omega, h.perm, ?_, fun p hp hpc => by omega⟩
    intro p hp q hq
    by_cases hpf : p = fill
    · by_cases hqf : q = fill
      · rw [hpf, hqf, hne]
        exact hself
      · rw [hpf, hne]
        exact (h.apart q (by omega)).2
    · by_cases hqf : q = fill
      · rw [hqf, hne]
        exact (h.apart p (by omega)).1
      · exact h.antichain p (by omega) q (by omega)

/-! ## The range -/

theorem Filtered.round (hl : StrictOn less l) (h : Filtered less l n current a fill)
    (hcurrent : current < n) :
    Filtered less l n (current + 1) (round less (a, fill) current).1
      (round less (a, fill) current).2 := by
  have hstart : Checking less l n current a fill 0 := by
    refine ⟨hcurrent, Nat.zero_le _, h.fill_le, h.perm, h.antichain, ?_, ?_⟩
    · intro p hp
      exact absurd hp (Nat.not_lt_zero p)
    · intro p hp hpc
      exact Or.inr (h.dropped p hp hpc)
  have hloop := checkLoop_checking hl hstart
  unfold Frontier.round
  dsimp only
  generalize checkLoop less a current fill 0 = r at hloop ⊢
  obtain ⟨included, a', fill'⟩ := r
  cases included with
  | false =>
    obtain ⟨check', hcheck, hchecking, hless⟩ := hloop
    exact hchecking.exclude hl hcheck hless
  | true => exact hloop.include hl

theorem frontierFilter_filtered (h : StrictOn less (elements a n)) :
    Filtered less (elements a n) n n (frontierFilter less a n).1 (frontierFilter less a n).2 := by
  have hrounds : ∀ k ≤ n, Filtered less (elements a n) n k
      ((List.range k).foldl (round less) (a, 0)).1
      ((List.range k).foldl (round less) (a, 0)).2 := by
    intro k
    induction k with
    | zero =>
      intro _
      refine ⟨le_rfl, List.Perm.refl _, ?_, ?_⟩
      · intro p hp
        exact absurd hp (Nat.not_lt_zero p)
      · intro p _ hp
        exact absurd hp (Nat.not_lt_zero p)
    | succ k ih =>
      intro hk
      rw [List.range_succ, List.foldl_concat]
      exact (ih (by omega)).round h hk
  exact hrounds n le_rfl

/-- A kept element is not less than any element, and each other one is. -/
theorem Filtered.maximal_iff (hl : StrictOn less l) (h : Filtered less l n n a fill)
    (hp : p < n) : p < fill ↔ ∀ x ∈ l, less (a p) x = false := by
  have hfill := h.fill_le
  constructor
  · intro hkept x hx
    obtain ⟨q, hq, rfl⟩ := mem_elements.mp (h.perm.mem_iff.mpr hx)
    by_cases hqf : q < fill
    · exact h.antichain p hkept q hqf
    · obtain ⟨r, hr, hqr⟩ := h.dropped q (by omega) hq
      rw [Bool.eq_false_iff]
      intro hpq
      have hpr := hl.trans _ (mem_of_perm h.perm hp) _ hx _ (mem_of_perm h.perm (by omega)) hpq hqr
      rw [h.antichain p hkept r hr] at hpr
      cases hpr
  · intro hmax
    by_contra hdropped
    obtain ⟨q, hq, hlt⟩ := h.dropped p (by omega) hp
    rw [hmax _ (mem_of_perm h.perm (by omega))] at hlt
    cases hlt

/-- The range is permuted, and the part before the result has exactly the elements that are
not less than any element of the range. -/
theorem frontierFilter_perm (less : α → α → Bool) (a : Nat → α) (n : Nat)
    (h : StrictOn less (elements a n)) :
    (elements (frontierFilter less a n).1 n).Perm (elements a n) ∧
      (frontierFilter less a n).2 ≤ n ∧
      (∀ p < n, p < (frontierFilter less a n).2 ↔
        ∀ x ∈ elements a n, less ((frontierFilter less a n).1 p) x = false) ∧
      (elements (frontierFilter less a n).1 (frontierFilter less a n).2).Perm
        (maximal less (elements a n)) := by
  have hfiltered := frontierFilter_filtered h
  generalize (frontierFilter less a n).1 = a' at hfiltered ⊢
  generalize (frontierFilter less a n).2 = fill at hfiltered ⊢
  have hfill := hfiltered.fill_le
  refine ⟨hfiltered.perm, hfill, fun p hp => hfiltered.maximal_iff h hp, ?_⟩
  have hkeep : ∀ p < n, (elements a n).all (!less (a' p) ·) = decide (p < fill) := by
    intro p hp
    rw [Bool.eq_iff_iff, decide_eq_true_iff, hfiltered.maximal_iff h hp, List.all_eq_true]
    apply forall₂_congr
    intro x _
    rw [Bool.not_eq_true']
  have hfirst : (List.range n).filter (fun p => decide (p < fill)) = List.range fill := by
    obtain ⟨k, rfl⟩ := Nat.exists_eq_add_of_le hfill
    rw [List.range_add, List.filter_append, List.filter_eq_self.mpr, List.filter_eq_nil_iff.mpr,
      List.append_nil]
    · simp
    · simp
  have hmax := hfiltered.perm.filter fun x => (elements a n).all (!less x ·)
  have hkept : (elements a' n).filter (fun x => (elements a n).all (!less x ·)) =
      elements a' fill := by
    show ((List.range n).map a').filter _ = (List.range fill).map a'
    rw [List.filter_map, ← hfirst]
    apply congrArg (List.map a')
    apply List.filter_congr
    intro p hp
    exact hkeep p (List.mem_range.mp hp)
  rw [hkept] at hmax
  exact hmax

/-- Numbers from 2 on, where the divisors of a number are less than it. -/
def divides (x y : Nat) : Bool := x ≠ y && y % x = 0

theorem frontierFilter_perm_divides :
    let a : Nat → Nat := fun p => [2, 6, 4, 3].getD p 0
    (elements (frontierFilter divides a 4).1 4).Perm [2, 6, 4, 3] ∧
      (elements (frontierFilter divides a 4).1 (frontierFilter divides a 4).2).Perm [6, 4] := by
  have h := frontierFilter_perm divides (fun p => [2, 6, 4, 3].getD p 0) 4
    ⟨by decide, by decide⟩
  exact ⟨h.1, h.2.2.2⟩

end ViEqui.Frontier
