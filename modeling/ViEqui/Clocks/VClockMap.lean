import ViEqui.Lib.OrderedMap
import Mathlib.Data.List.Lex
import Mathlib.Data.List.Sort
import Mathlib.Data.List.TakeWhile
import Mathlib.Data.Prod.Lex

/-!
# Vector clocks of processes with names

`VClock<DOM>` of `src/VClock.tcc`: a map from the names to the clocks, where a
missing name is read as 0 and a stored 0 means the same.  A clock stands for the
function `get`.

The pointwise comparisons are one merge of both maps, `mergeLoop`, and the two
lexicographic ones are `lexLoop`.  `Agrees` collects what the operators say about
the functions.
-/

namespace ViEqui.Clocks

/-- `VClock<DOM>`. -/
abbrev VClockOf (κ : Type) [LinearOrder κ] := OrderedMap κ Nat

namespace VClockOf

variable {κ : Type} [LinearOrder κ]

/-! ## The model -/

/-- The value of a key, found by `find`. -/
def value : List (κ × Nat) → κ → Nat
  | [], _ => 0
  | (k, v) :: l, d => if k = d then v else value l d

/-- `operator[] const`. -/
def get (u : VClockOf κ) (d : κ) : Nat := value u.entries d

/-- `operator+`. -/
def add (u v : VClockOf κ) : VClockOf κ :=
  v.entries.foldl (fun vc2 e => vc2.modify e.1 0 fun x => max x e.2) u

/-- `operator+=`. -/
def addAssign (u v : VClockOf κ) : VClockOf κ := u.add v

/-- The loop of the pointwise comparisons over the entries of both maps: `stop` makes
it return `false`, and `mark` sets the flag that it returns at the end. -/
def mergeLoop (stop mark : Nat → Nat → Bool) :
    List (κ × Nat) → List (κ × Nat) → Bool → Bool
  | [], [], flag => flag
  | [], (_, y) :: bs, flag =>
    if stop 0 y then false else mergeLoop stop mark [] bs (flag || mark 0 y)
  | (_, x) :: as, [], flag =>
    if stop x 0 then false else mergeLoop stop mark as [] (flag || mark x 0)
  | (i, x) :: as, (j, y) :: bs, flag =>
    if j < i then
      if stop 0 y then false else mergeLoop stop mark ((i, x) :: as) bs (flag || mark 0 y)
    else if i < j then
      if stop x 0 then false else mergeLoop stop mark as ((j, y) :: bs) (flag || mark x 0)
    else if stop x y then false else mergeLoop stop mark as bs (flag || mark x y)
termination_by as bs => as.length + bs.length

/-- `operator==`. -/
def eq (u v : VClockOf κ) : Bool :=
  mergeLoop (fun x y => x ≠ y) (fun _ _ => false) u.entries v.entries true

/-- `lt`. -/
def lt (u v : VClockOf κ) : Bool :=
  mergeLoop (fun x y => y < x) (fun x y => x < y) u.entries v.entries false

/-- `leq`. -/
def leq (u v : VClockOf κ) : Bool :=
  mergeLoop (fun x y => y < x) (fun _ _ => false) u.entries v.entries true

/-- `gt`. -/
def gt (u v : VClockOf κ) : Bool := v.lt u

/-- `geq`. -/
def geq (u v : VClockOf κ) : Bool := v.leq u

/-- Skips the entries with clock 0. -/
def skipZeros (l : List (κ × Nat)) : List (κ × Nat) := l.dropWhile fun e => e.2 = 0

omit [LinearOrder κ] in
theorem length_skipZeros_le (l : List (κ × Nat)) : (skipZeros l).length ≤ l.length :=
  List.length_dropWhile_le _ l

/-- The loop of the lexicographic comparisons, which give `tie` for equal clocks. -/
def lexLoop (tie : Bool) (as bs : List (κ × Nat)) : Bool :=
  match _h : skipZeros as, skipZeros bs with
  | [], bs => tie || bs ≠ []
  | _ :: _, [] => false
  | (i, x) :: as', (j, y) :: bs =>
    if i < j then true
    else if j < i then false
    else if x < y then true
    else if y < x then false
    else lexLoop tie as' bs
termination_by as.length
decreasing_by
  have hle := length_skipZeros_le as
  rw [_h, List.length_cons] at hle
  omega

/-- `operator<`. -/
def less (u v : VClockOf κ) : Bool := lexLoop false u.entries v.entries

/-- `operator<=`. -/
def lessEq (u v : VClockOf κ) : Bool := lexLoop true u.entries v.entries

/-! ## The function of a clock -/

/-- The keys are strictly increasing. -/
abbrev Sorted (l : List (κ × Nat)) : Prop := l.Pairwise fun a b => a.1 < b.1

theorem value_eq_zero {l : List (κ × Nat)} {d : κ} (h : ∀ e ∈ l, d < e.1) : value l d = 0 := by
  induction l with
  | nil => rfl
  | cons e l ih =>
    rw [value, if_neg (h e List.mem_cons_self).ne']
    exact ih fun e' he' => h e' (List.mem_cons_of_mem _ he')

theorem value_tail {k : κ} {v : Nat} {l : List (κ × Nat)} (h : Sorted ((k, v) :: l)) :
    value l k = 0 :=
  value_eq_zero (List.pairwise_cons.mp h).1

theorem value_cons_self {k : κ} {v : Nat} {l : List (κ × Nat)} : value ((k, v) :: l) k = v := by
  rw [value, if_pos rfl]

theorem value_cons_ne {k d : κ} {v : Nat} {l : List (κ × Nat)} (h : k ≠ d) :
    value ((k, v) :: l) d = value l d := by
  rw [value, if_neg h]

theorem value_modifyEntries (k d : κ) (f : Nat → Nat) {l : List (κ × Nat)} (hl : Sorted l) :
    value (OrderedMap.modifyEntries k 0 f l) d = if d = k then f (value l k) else value l d := by
  induction l with
  | nil =>
    show value [(k, f 0)] d = if d = k then f 0 else 0
    by_cases hd : d = k
    · rw [if_pos hd, hd, value_cons_self]
    · rw [if_neg hd, value_cons_ne (Ne.symm hd), value]
  | cons e l ih =>
    obtain ⟨k', v⟩ := e
    rw [OrderedMap.modifyEntries]
    by_cases hlt : k < k'
    · -- the key is not there
      have hk : value ((k', v) :: l) k = 0 := by
        apply value_eq_zero
        intro e he
        rcases List.mem_cons.mp he with rfl | he
        · exact hlt
        · exact hlt.trans ((List.pairwise_cons.mp hl).1 e he)
      rw [if_pos hlt, hk]
      by_cases hd : d = k
      · rw [if_pos hd, hd, value_cons_self]
      · rw [if_neg hd, value_cons_ne (Ne.symm hd)]
    · rw [if_neg hlt]
      by_cases hgt : k' < k
      · rw [if_pos hgt, value_cons_ne hgt.ne]
        by_cases hk' : k' = d
        · rw [if_neg (hk' ▸ hgt.ne), ← hk', value_cons_self, value_cons_self]
        · rw [value_cons_ne hk', value_cons_ne hk', ih hl.tail]
      · have hkk' : k' = k := le_antisymm (not_lt.mp hlt) (not_lt.mp hgt)
        rw [if_neg hgt, hkk', value_cons_self]
        by_cases hd : d = k
        · rw [if_pos hd, hd, value_cons_self]
        · rw [if_neg hd, value_cons_ne (Ne.symm hd), value_cons_ne (Ne.symm hd)]

theorem get_modify (u : VClockOf κ) (k d : κ) (f : Nat → Nat) :
    get (OrderedMap.modify u k 0 f) d = if d = k then f (u.get k) else u.get d :=
  value_modifyEntries k d f u.sorted

theorem get_foldl_add {l : List (κ × Nat)} (hl : Sorted l) (u : VClockOf κ) (d : κ) :
    get (l.foldl (fun vc2 e => OrderedMap.modify vc2 e.1 0 fun x => max x e.2) u) d =
      max (u.get d) (value l d) := by
  induction l generalizing u with
  | nil =>
    show u.get d = max (u.get d) 0
    omega
  | cons e l ih =>
    obtain ⟨k, v⟩ := e
    rw [List.foldl_cons, ih hl.tail, get_modify]
    by_cases hd : d = k
    · rw [if_pos hd, hd, value_tail hl, value_cons_self]
      show max (max (u.get k) v) 0 = max (u.get k) v
      omega
    · rw [if_neg hd, value_cons_ne (Ne.symm hd)]

theorem get_add (u v : VClockOf κ) (d : κ) : (u.add v).get d = max (u.get d) (v.get d) :=
  get_foldl_add v.sorted u d

/-! ## The pointwise comparisons -/

/-- A key that occurs first in either map, and the others. -/
theorem forall_value_iff {P : Nat → Nat → Prop} (h0 : P 0 0) {f g f' g' : κ → Nat} {k : κ}
    {x y : Nat}
    (hf : f k = x) (hg : g k = y) (hf' : f' k = 0) (hg' : g' k = 0)
    (hf₁ : ∀ d, k ≠ d → f d = f' d) (hg₁ : ∀ d, k ≠ d → g d = g' d) :
    (∀ d, P (f d) (g d)) ↔ P x y ∧ ∀ d, P (f' d) (g' d) := by
  constructor
  · intro h
    refine ⟨by rw [← hf, ← hg]; exact h k, fun d => ?_⟩
    by_cases hd : k = d
    · rw [← hd, hf', hg']
      exact h0
    · rw [← hf₁ d hd, ← hg₁ d hd]
      exact h d
  · rintro ⟨hxy, h⟩ d
    by_cases hd : k = d
    · rw [← hd, hf, hg]
      exact hxy
    · rw [hf₁ d hd, hg₁ d hd]
      exact h d

theorem exists_value_iff {P : Nat → Nat → Prop} (h0 : ¬ P 0 0) {f g f' g' : κ → Nat} {k : κ}
    {x y : Nat} (hf : f k = x) (hg : g k = y) (hf' : f' k = 0) (hg' : g' k = 0)
    (hf₁ : ∀ d, k ≠ d → f d = f' d) (hg₁ : ∀ d, k ≠ d → g d = g' d) :
    (∃ d, P (f d) (g d)) ↔ P x y ∨ ∃ d, P (f' d) (g' d) := by
  rw [← not_iff_not]
  push Not
  exact forall_value_iff (P := fun x y => ¬ P x y) h0 hf hg hf' hg' hf₁ hg₁

/-- What the loop decides about the two functions. -/
def Verdict (stop mark : Nat → Nat → Bool) (f g : κ → Nat) (flag : Bool) : Prop :=
  (∀ d, ¬ stop (f d) (g d) = true) ∧ (flag = true ∨ ∃ d, mark (f d) (g d) = true)

/-- One round of the loop, at the key `k`. -/
theorem verdict_step {stop mark : Nat → Nat → Bool} (hstop : stop 0 0 = false)
    (hmark : mark 0 0 = false) {f g f' g' : κ → Nat} {k : κ} {x y : Nat}
    (hf : f k = x) (hg : g k = y) (hf' : f' k = 0) (hg' : g' k = 0)
    (hf₁ : ∀ d, k ≠ d → f d = f' d) (hg₁ : ∀ d, k ≠ d → g d = g' d) {flag loop : Bool}
    (ih : loop = true ↔ Verdict stop mark f' g' (flag || mark x y)) :
    (if stop x y then false else loop) = true ↔ Verdict stop mark f g flag := by
  unfold Verdict at *
  rw [forall_value_iff (P := fun x y => ¬ stop x y = true) (by rw [hstop]; exact Bool.false_ne_true)
      hf hg hf' hg' hf₁ hg₁,
    exists_value_iff (P := fun x y => mark x y = true) (by rw [hmark]; exact Bool.false_ne_true)
      hf hg hf' hg' hf₁ hg₁]
  by_cases hs : stop x y = true
  · simp [hs]
  · rw [if_neg hs, ih, Bool.or_eq_true]
    tauto

/-- A key before all of the other map has no value there. -/
theorem value_of_lt {k j : κ} {y : Nat} {bs : List (κ × Nat)} (hb : Sorted ((j, y) :: bs))
    (h : k < j) : value ((j, y) :: bs) k = 0 := by
  apply value_eq_zero
  intro e he
  rcases List.mem_cons.mp he with rfl | he
  · exact h
  · exact h.trans ((List.pairwise_cons.mp hb).1 e he)

theorem mergeLoop_iff {stop mark : Nat → Nat → Bool} (hstop : stop 0 0 = false)
    (hmark : mark 0 0 = false) {as bs : List (κ × Nat)} {flag : Bool} (ha : Sorted as)
    (hb : Sorted bs) :
    mergeLoop stop mark as bs flag = true ↔ Verdict stop mark (value as) (value bs) flag := by
  induction as generalizing bs flag with
  | nil =>
    induction bs generalizing flag with
    | nil =>
      rw [mergeLoop]
      simp [Verdict, value, hstop, hmark]
    | cons e bs ih =>
      obtain ⟨j, y⟩ := e
      rw [mergeLoop]
      exact verdict_step (k := j) (x := 0) (f := value []) hstop hmark rfl value_cons_self rfl
        (value_tail hb) (fun _ _ => rfl) (fun _ hd => value_cons_ne hd) (ih hb.tail)
  | cons d as iha =>
    obtain ⟨i, x⟩ := d
    induction bs generalizing flag with
    | nil =>
      rw [mergeLoop]
      exact verdict_step (k := i) (y := 0) (g := value []) hstop hmark value_cons_self rfl
        (value_tail ha) rfl (fun _ hd => value_cons_ne hd) (fun _ _ => rfl) (iha ha.tail hb)
    | cons e bs ihb =>
      obtain ⟨j, y⟩ := e
      rw [mergeLoop]
      by_cases hji : j < i
      · rw [if_pos hji]
        have hj : value ((i, x) :: as) j = 0 := value_of_lt ha hji
        exact verdict_step hstop hmark hj value_cons_self hj (value_tail hb)
          (fun _ _ => rfl) (fun _ hd => value_cons_ne hd) (ihb hb.tail)
      · rw [if_neg hji]
        by_cases hij : i < j
        · rw [if_pos hij]
          have hi : value ((j, y) :: bs) i = 0 := value_of_lt hb hij
          exact verdict_step hstop hmark value_cons_self hi (value_tail ha) hi
            (fun _ hd => value_cons_ne hd) (fun _ _ => rfl) (iha ha.tail hb)
        · have heq : i = j := le_antisymm (not_lt.mp hji) (not_lt.mp hij)
          subst heq
          rw [if_neg hij]
          exact verdict_step hstop hmark value_cons_self value_cons_self (value_tail ha)
            (value_tail hb) (fun _ hd => value_cons_ne hd) (fun _ hd => value_cons_ne hd)
            (iha ha.tail hb.tail)

variable {u v w : VClockOf κ}

theorem eq_iff : u.eq v = true ↔ ∀ d, u.get d = v.get d := by
  unfold eq
  rw [mergeLoop_iff rfl rfl u.sorted v.sorted]
  simp only [Verdict, decide_not, Bool.not_eq_true', decide_eq_false_iff_not, Bool.false_eq_true,
    Decidable.not_not, true_or, and_true]
  rfl

theorem leq_iff : u.leq v = true ↔ ∀ d, u.get d ≤ v.get d := by
  unfold leq
  rw [mergeLoop_iff rfl rfl u.sorted v.sorted]
  simp only [Verdict, decide_eq_true_eq, Nat.not_lt, Bool.false_eq_true, true_or, and_true]
  rfl

theorem lt_iff : u.lt v = true ↔ (∀ d, u.get d ≤ v.get d) ∧ ∃ d, u.get d < v.get d := by
  unfold lt
  rw [mergeLoop_iff rfl rfl u.sorted v.sorted]
  simp only [Verdict, decide_eq_true_eq, Nat.not_lt, Bool.false_eq_true, false_or]
  rfl

/-! ## The lexicographic comparisons -/

/-- The entries that are not 0, as elements of a linear order. -/
def nonzero (l : List (κ × Nat)) : List (κ ×ₗ Nat) := (l.filter fun e => e.2 ≠ 0).map toLex

omit [LinearOrder κ] in
theorem nonzero_skipZeros (l : List (κ × Nat)) : nonzero (skipZeros l) = nonzero l := by
  induction l with
  | nil => rfl
  | cons e l ih =>
    unfold skipZeros
    by_cases he : e.2 = 0
    · rw [List.dropWhile_cons_of_pos (by simpa using he)]
      show nonzero (skipZeros l) = _
      rw [ih]
      unfold nonzero
      rw [List.filter_cons_of_neg (by simpa using he)]
    · rw [List.dropWhile_cons_of_neg (by simpa using he)]

omit [LinearOrder κ] in
/-- What is left after skipping starts with an entry that is not 0. -/
theorem nonzero_of_skipZeros {l l' : List (κ × Nat)} {i : κ} {x : Nat}
    (h : skipZeros l = (i, x) :: l') : nonzero l = toLex (i, x) :: nonzero l' := by
  have hx : x ≠ 0 := by
    have hhead := List.head?_dropWhile_not (fun e : κ × Nat => decide (e.2 = 0)) l
    rw [show l.dropWhile (fun e : κ × Nat => decide (e.2 = 0)) = (i, x) :: l' from h] at hhead
    simpa using hhead
  rw [← nonzero_skipZeros, h]
  unfold nonzero
  rw [List.filter_cons_of_pos (by simpa using hx), List.map_cons]

omit [LinearOrder κ] in
theorem nonzero_of_skipZeros_nil {l : List (κ × Nat)} (h : skipZeros l = []) : nonzero l = [] := by
  rw [← nonzero_skipZeros, h]
  rfl

theorem lexLoop_iff (tie : Bool) (as bs : List (κ × Nat)) :
    lexLoop tie as bs = true ↔
      nonzero as < nonzero bs ∨ tie = true ∧ nonzero as = nonzero bs := by
  induction hn : as.length using Nat.strong_induction_on generalizing as bs with
  | _ n ih =>
    rw [lexLoop]
    split
    next ha =>
      rw [nonzero_of_skipZeros_nil ha]
      cases hb : skipZeros bs with
      | nil =>
        rw [nonzero_of_skipZeros_nil hb]
        simp
      | cons e bs' =>
        rw [nonzero_of_skipZeros hb]
        simp
    next ha hb =>
      rw [nonzero_of_skipZeros ha, nonzero_of_skipZeros_nil hb]
      simp
    next i x as' j y bs' ha hb =>
      have hshorter : as'.length < n := by
        have hle := length_skipZeros_le as
        rwa [ha, List.length_cons, hn] at hle
      rw [nonzero_of_skipZeros ha, nonzero_of_skipZeros hb, List.cons_lt_cons_iff,
        List.cons.injEq, Prod.Lex.toLex_lt_toLex, toLex_inj, Prod.mk.injEq]
      rcases lt_trichotomy i j with hij | rfl | hij
      · simp [hij]
      · rcases Nat.lt_trichotomy x y with hxy | rfl | hxy
        · simp [hxy]
        · simp only [lt_irrefl, if_false, true_and, and_self, false_or, or_false]
          exact ih _ hshorter as' bs' rfl
        · simp [hxy, hxy.not_gt, hxy.ne']
      · simp [hij, hij.not_gt, hij.ne']

omit [LinearOrder κ] in
theorem mem_nonzero {l : List (κ × Nat)} {k : κ} {x : Nat} :
    toLex (k, x) ∈ nonzero l ↔ (k, x) ∈ l ∧ x ≠ 0 := by
  unfold nonzero
  rw [List.mem_map]
  constructor
  · rintro ⟨e, he, heq⟩
    rw [toLex_inj] at heq
    rw [heq] at he
    simpa using List.mem_filter.mp he
  · intro h
    exact ⟨(k, x), List.mem_filter.mpr ⟨h.1, by simpa using h.2⟩, rfl⟩

theorem mem_iff_value {l : List (κ × Nat)} (hl : Sorted l) {k : κ} {x : Nat} (hx : x ≠ 0) :
    (k, x) ∈ l ↔ value l k = x := by
  induction l with
  | nil =>
    simp only [List.not_mem_nil, value, false_iff]
    exact Ne.symm hx
  | cons e l ih =>
    obtain ⟨i, y⟩ := e
    rw [List.mem_cons, Prod.mk.injEq]
    by_cases hi : i = k
    · subst hi
      rw [value_cons_self]
      constructor
      · rintro (⟨_, rfl⟩ | h)
        · rfl
        · rw [ih hl.tail, value_tail hl] at h
          exact absurd h.symm hx
      · rintro rfl
        exact Or.inl ⟨rfl, rfl⟩
    · rw [value_cons_ne hi, ← ih hl.tail]
      constructor
      · rintro (⟨rfl, _⟩ | h)
        · exact absurd rfl hi
        · exact h
      · exact Or.inr

/-- The entries that are not 0 are those of the function. -/
theorem nonzero_eq_iff : nonzero u.entries = nonzero v.entries ↔ ∀ d, u.get d = v.get d := by
  have hsorted (u : VClockOf κ) : (nonzero u.entries).Pairwise (· < ·) := by
    unfold nonzero
    rw [List.pairwise_map]
    apply (u.sorted.filter _).imp
    intro a b hab
    exact Prod.Lex.toLex_lt_toLex.mpr (Or.inl hab)
  constructor
  · intro h d
    have hmem (x : Nat) (hx : x ≠ 0) : u.get d = x ↔ v.get d = x := by
      show value _ d = x ↔ value _ d = x
      rw [← mem_iff_value u.sorted hx, ← mem_iff_value v.sorted hx]
      have := mem_nonzero (l := u.entries) (k := d) (x := x)
      rw [h, mem_nonzero] at this
      simpa [hx] using this.symm
    by_cases hu : u.get d = 0
    · by_contra hne
      have hv : v.get d ≠ 0 := fun h0 => hne (hu.trans h0.symm)
      exact hne ((hmem _ hv).mpr rfl)
    · exact ((hmem _ hu).mp rfl).symm
  · intro h
    apply (hsorted u).eq_of_mem_iff (hsorted v)
    intro e
    show toLex ((ofLex e).1, (ofLex e).2) ∈ _ ↔ toLex ((ofLex e).1, (ofLex e).2) ∈ _
    rw [mem_nonzero, mem_nonzero]
    apply and_congr_left
    intro hx
    rw [mem_iff_value u.sorted hx, mem_iff_value v.sorted hx]
    exact Iff.of_eq (congrArg (· = _) (h _))

theorem less_iff : u.less v = true ↔ nonzero u.entries < nonzero v.entries := by
  unfold less
  rw [lexLoop_iff]
  simp

theorem lessEq_iff :
    u.lessEq v = true ↔
      nonzero u.entries < nonzero v.entries ∨ nonzero u.entries = nonzero v.entries := by
  unfold lessEq
  rw [lexLoop_iff]
  simp

/-! ## The laws -/

/-- The operators on `u` and `v` are those of the functions. -/
structure Agrees (u v : VClockOf κ) : Prop where
  add : ∀ d, (u.add v).get d = max (u.get d) (v.get d)
  addAssign : ∀ d, (u.addAssign v).get d = max (u.get d) (v.get d)
  eq : u.eq v = true ↔ ∀ d, u.get d = v.get d
  leq : u.leq v = true ↔ ∀ d, u.get d ≤ v.get d
  lt : u.lt v = true ↔ (∀ d, u.get d ≤ v.get d) ∧ ∃ d, u.get d < v.get d
  geq : u.geq v = true ↔ ∀ d, v.get d ≤ u.get d
  gt : u.gt v = true ↔ (∀ d, v.get d ≤ u.get d) ∧ ∃ d, v.get d < u.get d
  less_irrefl : u.less u = false
  less_trans : ∀ w : VClockOf κ, u.less v = true → v.less w = true → u.less w = true
  less_trichotomy : u.less v = true ∨ u.eq v = true ∨ v.less u = true
  ne_of_less : u.less v = true → u.eq v = false
  less_congr : ∀ u' v' : VClockOf κ, (∀ d, u'.get d = u.get d) → (∀ d, v'.get d = v.get d) →
    u'.less v' = u.less v
  lessEq : u.lessEq v = true ↔ u.less v = true ∨ u.eq v = true

theorem eq_iff_nonzero : u.eq v = true ↔ nonzero u.entries = nonzero v.entries := by
  rw [eq_iff, nonzero_eq_iff]

/-- Clocks are compared as functions, whatever zeros are stored. -/
theorem agrees (u v : VClockOf κ) : Agrees u v where
  add := get_add u v
  addAssign := get_add u v
  eq := eq_iff
  leq := leq_iff
  lt := lt_iff
  geq := leq_iff
  gt := lt_iff
  less_irrefl := by
    rw [← Bool.not_eq_true, less_iff]
    exact lt_irrefl _
  less_trans := by
    intro w
    rw [less_iff, less_iff, less_iff]
    exact lt_trans
  less_trichotomy := by
    rw [less_iff, less_iff, eq_iff_nonzero]
    exact lt_trichotomy _ _
  ne_of_less := by
    intro h
    rw [← Bool.not_eq_true, eq_iff_nonzero]
    exact (less_iff.mp h).ne
  less_congr := by
    intro u' v' hu hv
    rw [Bool.eq_iff_iff, less_iff, less_iff, nonzero_eq_iff.mpr hu, nonzero_eq_iff.mpr hv]
  lessEq := by
    rw [lessEq_iff, less_iff, eq_iff_nonzero]

end VClockOf

end ViEqui.Clocks
