import Mathlib.Data.List.GetD
import Mathlib.Order.PiLex

/-!
# Vector clocks of processes with numbers

`VClock<int>` of `src/VClock.cpp`: a vector, where a missing entry is read as 0.
A clock stands for the function `get`, and the operations are compared with those
of the lattice of functions.

There are three groups.

* The model, with one definition for each operator.
* What each operator does to the functions.  `get_assign` is the lemma about the
  operators in place, which only visit the entries of their argument.
* The laws.  `Lattice` says that the operators are those of functions, and
  `lattice_iff` that this is so when the clock that is changed in place is not
  longer than the argument.
-/

namespace ViEqui.Clocks

/-- `VClock<int>`. -/
structure VClock where
  vec : List Nat := []
deriving DecidableEq, Repr

namespace VClock

/-! ## The model -/

/-- `operator[] const`. -/
def get (u : VClock) (d : Nat) : Nat := u.vec.getD d 0

/-- The loop of `size`. -/
def sizeFrom (u : VClock) : Nat → Nat
  | 0 => 0
  | s + 1 => if u.get s = 0 then u.sizeFrom s else s + 1

/-- `size`: the length without zeros at the end. -/
def size (u : VClock) : Nat := u.sizeFrom u.vec.length

/-- The bound of the loops over both clocks. -/
def bound (u v : VClock) : Nat := max u.vec.length v.vec.length

/-- A new clock from the entries of both. -/
def combine (f : Nat → Nat → Nat) (u v : VClock) : VClock :=
  ⟨(List.range (bound u v)).map fun i => f (u.get i) (v.get i)⟩

/-- `operator+`. -/
def add : VClock → VClock → VClock := combine max

/-- `operator-`. -/
def sub : VClock → VClock → VClock := combine min

/-- Takes over the entries of `v` that replace those of `u`. -/
def assign (replaces : Nat → Nat → Bool) (u v : VClock) : VClock :=
  let sz := v.vec.length
  ⟨(List.range sz).foldl (fun vec i =>
      if replaces (v.vec.getD i 0) (vec.getD i 0) then vec.set i (v.vec.getD i 0) else vec)
    (u.vec ++ List.replicate (sz - u.vec.length) 0)⟩

/-- `operator+=`. -/
def addAssign : VClock → VClock → VClock := assign fun y x => x < y

/-- `operator-=`. -/
def subAssign : VClock → VClock → VClock := assign fun y x => y < x

/-- `operator==`. -/
def eq (u v : VClock) : Bool := (List.range (bound u v)).all fun i => u.get i = v.get i

/-- The loop of `operator<`. -/
def lessLoop (u v : VClock) : List Nat → Bool
  | [] => false
  | i :: is =>
    if u.get i < v.get i then true
    else if v.get i < u.get i then false
    else u.lessLoop v is

/-- `operator<`. -/
def less (u v : VClock) : Bool := u.lessLoop v (List.range (bound u v))

/-- The loop of `lt`. -/
def ltLoop (u v : VClock) : List Nat → Bool → Bool
  | [], less => less
  | i :: is, less =>
    if v.get i < u.get i then false else u.ltLoop v is (less || u.get i < v.get i)

/-- `lt`. -/
def lt (u v : VClock) : Bool := u.ltLoop v (List.range (bound u v)) false

/-- `leq`. -/
def leq (u v : VClock) : Bool :=
  let m := min u.vec.length v.vec.length
  ((List.range m).all fun i => !(v.vec.getD i 0 < u.vec.getD i 0)) &&
    (List.range' m (u.vec.length - m)).all fun i => u.vec.getD i 0 = 0

/-- `geq`. -/
def geq (u v : VClock) : Bool := (List.range (bound u v)).all fun i => !(u.get i < v.get i)

/-- `gt`. -/
def gt (u v : VClock) : Bool := v.ltLoop u (List.range (bound u v)) false

/-! ## What the operators do -/

variable {u v w : VClock}

theorem get_of_length_le {d : Nat} (h : u.vec.length ≤ d) : u.get d = 0 :=
  List.getD_eq_default _ _ h

theorem get_of_bound_le {d : Nat} (h : bound u v ≤ d) : u.get d = 0 ∧ v.get d = 0 := by
  unfold bound at h
  exact ⟨get_of_length_le (by omega), get_of_length_le (by omega)⟩

theorem bound_comm : bound u v = bound v u := Nat.max_comm _ _

/-- What holds of the entries that are visited holds of all. -/
theorem forall_bound_iff {P : Nat → Nat → Prop} (h0 : P 0 0) :
    (∀ i ∈ List.range (bound u v), P (u.get i) (v.get i)) ↔ ∀ d, P (u.get d) (v.get d) := by
  constructor
  · intro h d
    by_cases hd : d < bound u v
    · exact h d (List.mem_range.mpr hd)
    · obtain ⟨hu, hv⟩ := get_of_bound_le (Nat.le_of_not_lt hd)
      rw [hu, hv]
      exact h0
  · intro h i _
    exact h i

theorem get_combine {f : Nat → Nat → Nat} (h0 : f 0 0 = 0) (d : Nat) :
    (combine f u v).get d = f (u.get d) (v.get d) := by
  by_cases hd : d < bound u v
  · show ((List.range _).map _).getD d 0 = _
    rw [List.getD_eq_getElem?_getD, List.getElem?_map, List.getElem?_range hd]
    rfl
  · obtain ⟨hu, hv⟩ := get_of_bound_le (Nat.le_of_not_lt hd)
    rw [hu, hv, h0]
    apply get_of_length_le
    show ((List.range _).map _).length ≤ d
    rw [List.length_map, List.length_range]
    omega

theorem get_add (d : Nat) : (u.add v).get d = max (u.get d) (v.get d) := get_combine rfl d

theorem get_sub (d : Nat) : (u.sub v).get d = min (u.get d) (v.get d) := get_combine rfl d

/-- The loop in place, after the first `n` entries. -/
theorem getD_foldl_assign (replaces : Nat → Nat → Bool) (ys xs : List Nat) {n : Nat}
    (hn : n ≤ xs.length) (d : Nat) :
    ((List.range n).foldl (fun vec i =>
        if replaces (ys.getD i 0) (vec.getD i 0) then vec.set i (ys.getD i 0) else vec)
        xs).getD d 0 =
      if d < n ∧ replaces (ys.getD d 0) (xs.getD d 0) then ys.getD d 0 else xs.getD d 0 := by
  let step (vec : List Nat) (i : Nat) : List Nat :=
    if replaces (ys.getD i 0) (vec.getD i 0) then vec.set i (ys.getD i 0) else vec
  have hlength : ∀ k, ((List.range k).foldl step xs).length = xs.length := by
    intro k
    induction k with
    | zero => rfl
    | succ k ih =>
      rw [List.range_succ, List.foldl_append]
      show (step _ k).length = _
      unfold step
      split
      · rw [List.length_set, ih]
      · exact ih
  show ((List.range n).foldl step xs).getD d 0 = _
  induction n generalizing d with
  | zero => simp
  | succ n ih =>
    have hlast := ih (by omega) n
    rw [if_neg (by omega)] at hlast
    rw [List.range_succ, List.foldl_append]
    show (step _ n).getD d 0 = _
    by_cases hd : d = n
    · subst hd
      unfold step
      rw [hlast]
      by_cases hr : replaces (ys.getD d 0) (xs.getD d 0)
      · rw [if_pos hr, if_pos ⟨by omega, hr⟩, List.getD_eq_getElem?_getD,
          List.getElem?_set_self (by rw [hlength]; omega)]
        rfl
      · rw [if_neg hr, if_neg (fun h => hr h.2)]
        exact hlast
    · have hstep : (step ((List.range n).foldl step xs) n).getD d 0 =
          ((List.range n).foldl step xs).getD d 0 := by
        unfold step
        split
        · rw [List.getD_eq_getElem?_getD, List.getElem?_set_ne (Ne.symm hd),
            ← List.getD_eq_getElem?_getD]
        · rfl
      rw [hstep, ih (by omega) d]
      have hiff : d < n ↔ d < n + 1 := by omega
      simp only [hiff]

/-- The operators in place only change the entries that the argument has. -/
theorem get_assign (replaces : Nat → Nat → Bool) (d : Nat) :
    (assign replaces u v).get d =
      if d < v.vec.length ∧ replaces (v.get d) (u.get d) then v.get d else u.get d := by
  have hpad : (u.vec ++ List.replicate (v.vec.length - u.vec.length) 0).getD d 0 = u.get d := by
    show _ = u.vec.getD d 0
    by_cases hd : d < u.vec.length
    · rw [List.getD_append _ _ _ _ hd]
    · rw [List.getD_append_right _ _ _ _ (by omega), List.getD_eq_default u.vec _ (by omega)]
      rw [List.getD_eq_getElem?_getD, List.getElem?_replicate]
      split <;> rfl
  have h := getD_foldl_assign replaces v.vec
    (u.vec ++ List.replicate (v.vec.length - u.vec.length) 0) (n := v.vec.length)
    (by rw [List.length_append, List.length_replicate]; omega) d
  rw [hpad] at h
  exact h

theorem get_addAssign (d : Nat) : (u.addAssign v).get d = max (u.get d) (v.get d) := by
  show (assign _ u v).get d = _
  rw [get_assign]
  by_cases hd : d < v.vec.length
  · split_ifs with h
    · have := of_decide_eq_true h.2
      omega
    · have : ¬ u.get d < v.get d := fun hlt => h ⟨hd, decide_eq_true hlt⟩
      omega
  · rw [if_neg (fun h => hd h.1), get_of_length_le (u := v) (by omega)]
    omega

theorem get_subAssign (d : Nat) :
    (u.subAssign v).get d = if d < v.vec.length then min (u.get d) (v.get d) else u.get d := by
  show (assign _ u v).get d = _
  rw [get_assign]
  by_cases hd : d < v.vec.length
  · rw [if_pos hd]
    split_ifs with h
    · have := of_decide_eq_true h.2
      omega
    · have : ¬ v.get d < u.get d := fun hlt => h ⟨hd, decide_eq_true hlt⟩
      omega
  · rw [if_neg hd, if_neg (fun h => hd h.1)]

/-! ## What the comparisons decide -/

theorem eq_iff : u.eq v = true ↔ ∀ d, u.get d = v.get d := by
  unfold eq
  rw [List.all_eq_true, ← forall_bound_iff (P := fun x y => x = y) rfl]
  simp only [decide_eq_true_eq]

theorem geq_iff : u.geq v = true ↔ ∀ d, v.get d ≤ u.get d := by
  unfold geq
  rw [List.all_eq_true, ← forall_bound_iff (P := fun x y => y ≤ x) le_rfl]
  simp only [Bool.not_eq_true', decide_eq_false_iff_not, Nat.not_lt]

theorem leq_iff : u.leq v = true ↔ ∀ d, u.get d ≤ v.get d := by
  unfold leq
  simp only [Bool.and_eq_true, List.all_eq_true, List.mem_range, List.mem_range'_1,
    Bool.not_eq_true', decide_eq_false_iff_not, decide_eq_true_eq, Nat.not_lt]
  show (_ ∧ ∀ d, _ → u.get d = 0) ↔ _
  constructor
  · rintro ⟨hboth, hrest⟩ d
    by_cases hd : d < min u.vec.length v.vec.length
    · exact hboth d hd
    · by_cases hu : d < u.vec.length
      · rw [hrest d ⟨by omega, by omega⟩]
        omega
      · rw [get_of_length_le (u := u) (by omega)]
        omega
  · intro h
    refine ⟨fun d _ => h d, fun d hd => ?_⟩
    have hle := h d
    rw [get_of_length_le (u := v) (by omega)] at hle
    omega

theorem ltLoop_iff {is : List Nat} {less : Bool} :
    u.ltLoop v is less = true ↔
      (∀ i ∈ is, u.get i ≤ v.get i) ∧ (less = true ∨ ∃ i ∈ is, u.get i < v.get i) := by
  induction is generalizing less with
  | nil => simp [ltLoop]
  | cons i is ih =>
    unfold ltLoop
    by_cases hi : v.get i < u.get i
    · rw [if_pos hi]
      simp only [Bool.false_eq_true, List.mem_cons, forall_eq_or_imp, false_iff, not_and]
      intro h
      omega
    · rw [if_neg hi, ih]
      simp only [Bool.or_eq_true, decide_eq_true_eq, List.mem_cons, forall_eq_or_imp,
        exists_eq_or_imp]
      constructor
      · rintro ⟨hall, hless⟩
        exact ⟨⟨by omega, hall⟩, by tauto⟩
      · rintro ⟨⟨_, hall⟩, hless⟩
        exact ⟨hall, by tauto⟩

/-- `lt` and `gt` visit the same entries. -/
theorem ltLoop_bound_iff : u.ltLoop v (List.range (bound u v)) false = true ↔
    (∀ d, u.get d ≤ v.get d) ∧ ∃ d, u.get d < v.get d := by
  rw [ltLoop_iff, forall_bound_iff (P := fun x y => x ≤ y) le_rfl]
  apply and_congr_right
  intro _
  constructor
  · rintro (h | ⟨d, _, hd⟩)
    · exact absurd h Bool.false_ne_true
    · exact ⟨d, hd⟩
  · rintro ⟨d, hd⟩
    refine Or.inr ⟨d, List.mem_range.mpr ?_, hd⟩
    by_contra hb
    obtain ⟨hu, hv⟩ := get_of_bound_le (Nat.le_of_not_lt hb)
    omega

theorem lt_iff : u.lt v = true ↔ (∀ d, u.get d ≤ v.get d) ∧ ∃ d, u.get d < v.get d :=
  ltLoop_bound_iff

theorem gt_iff : u.gt v = true ↔ (∀ d, v.get d ≤ u.get d) ∧ ∃ d, v.get d < u.get d := by
  unfold gt
  rw [bound_comm]
  exact ltLoop_bound_iff

theorem lessLoop_iff {k n : Nat} :
    u.lessLoop v (List.range' k n) = true ↔
      ∃ d, k ≤ d ∧ d < k + n ∧ (∀ i, k ≤ i → i < d → u.get i = v.get i) ∧ u.get d < v.get d := by
  induction n generalizing k with
  | zero =>
    simp only [List.range'_zero, lessLoop, Bool.false_eq_true, false_iff, not_exists, not_and]
    intro d hk hd
    omega
  | succ n ih =>
    rw [List.range'_succ]
    unfold lessLoop
    split_ifs with hlt hgt
    · simp only [true_iff]
      exact ⟨k, le_rfl, by omega, fun i hk hi => by omega, hlt⟩
    · simp only [false_iff, not_exists, not_and]
      intro d hk _ hbefore hd
      rcases Nat.eq_or_lt_of_le hk with rfl | hk
      · omega
      · have := hbefore k le_rfl hk
        omega
    · rw [ih]
      constructor
      · rintro ⟨d, hk, hn, hbefore, hd⟩
        refine ⟨d, by omega, by omega, fun i hi hid => ?_, hd⟩
        rcases Nat.eq_or_lt_of_le hi with rfl | hi
        · omega
        · exact hbefore i hi hid
      · rintro ⟨d, hk, hn, hbefore, hd⟩
        have hne : k ≠ d := by
          rintro rfl
          omega
        exact ⟨d, by omega, by omega, fun i hi hid => hbefore i (by omega) hid, hd⟩

/-- `operator<` is the lexicographic order of functions. -/
theorem less_iff : u.less v = true ↔ toLex u.get < toLex v.get := by
  unfold less
  rw [List.range_eq_range', lessLoop_iff]
  constructor
  · rintro ⟨d, _, _, hbefore, hd⟩
    exact ⟨d, fun i hi => hbefore i (Nat.zero_le i) hi, hd⟩
  · rintro ⟨d, hbefore, hd⟩
    refine ⟨d, Nat.zero_le d, ?_, fun i _ hi => hbefore i hi, hd⟩
    by_contra hb
    obtain ⟨hu, hv⟩ := get_of_bound_le (u := u) (v := v) (d := d) (by omega)
    have hd' : u.get d < v.get d := hd
    omega

/-! ## The size of a clock -/

theorem sizeFrom_le_iff {s n : Nat} :
    u.sizeFrom s ≤ n ↔ ∀ d, n ≤ d → d < s → u.get d = 0 := by
  induction s with
  | zero =>
    simp only [sizeFrom, Nat.zero_le, true_iff]
    intro d _ hd
    omega
  | succ s ih =>
    unfold sizeFrom
    split_ifs with hs
    · rw [ih]
      constructor
      · intro h d hn hd
        rcases Nat.eq_or_lt_of_le (Nat.le_of_lt_succ hd) with rfl | hd
        · exact hs
        · exact h d hn hd
      · intro h d hn hd
        exact h d hn (by omega)
    · constructor
      · intro h d hn hd
        omega
      · intro h
        by_contra hn
        exact hs (h s (by omega) (by omega))

theorem size_le_iff {n : Nat} : u.size ≤ n ↔ ∀ d, n ≤ d → u.get d = 0 := by
  unfold size
  rw [sizeFrom_le_iff]
  constructor
  · intro h d hn
    by_cases hd : d < u.vec.length
    · exact h d hn hd
    · exact get_of_length_le (Nat.le_of_not_lt hd)
  · intro h d hn _
    exact h d hn

theorem size_le_length : u.size ≤ u.vec.length := size_le_iff.mpr fun _ => get_of_length_le

/-- The size belongs to the function. -/
theorem size_congr (h : ∀ d, u.get d = v.get d) : u.size = v.size := by
  apply Nat.le_antisymm
  · exact size_le_iff.mpr fun d hd => (h d).trans (size_le_iff.mp le_rfl d hd)
  · exact size_le_iff.mpr fun d hd => (h d).symm.trans (size_le_iff.mp le_rfl d hd)

/-- The clock without zeros at the end. -/
def trim (u : VClock) : VClock := ⟨u.vec.take u.size⟩

theorem get_trim (d : Nat) : u.trim.get d = u.get d := by
  show (u.vec.take u.size).getD d 0 = u.vec.getD d 0
  by_cases hd : d < u.size
  · rw [List.getD_eq_getElem?_getD, List.getElem?_take_of_lt hd, ← List.getD_eq_getElem?_getD]
  · rw [List.getD_eq_default _ _ (by rw [List.length_take]; omega)]
    exact (size_le_iff.mp le_rfl d (by omega)).symm

theorem get_subAssign_of_size_le (h : u.size ≤ v.size) (d : Nat) :
    (u.subAssign v).get d = min (u.get d) (v.get d) := by
  rw [get_subAssign]
  split_ifs with hd
  · rfl
  · rw [size_le_iff.mp h d (size_le_length.trans (Nat.le_of_not_lt hd))]
    omega

/-! ## The laws -/

/-- Neither the entries of a new clock nor a comparison depend on the vectors. -/
structure Independent (u v u' v' : VClock) : Prop where
  add : ∀ d, (u'.add v').get d = (u.add v).get d
  sub : ∀ d, (u'.sub v').get d = (u.sub v).get d
  addAssign : ∀ d, (u'.addAssign v').get d = (u.addAssign v).get d
  subAssign : ∀ d, (u'.subAssign v').get d = (u.subAssign v).get d
  leq : u'.leq v' = u.leq v
  lt : u'.lt v' = u.lt v
  geq : u'.geq v' = u.geq v
  gt : u'.gt v' = u.gt v
  eq : u'.eq v' = u.eq v
  less : u'.less v' = u.less v

/-- The operators on `u` and `v` are those of the lattice of functions with finite
support. -/
structure Lattice (u v : VClock) : Prop where
  add : ∀ d, (u.add v).get d = max (u.get d) (v.get d)
  sub : ∀ d, (u.sub v).get d = min (u.get d) (v.get d)
  addAssign : (u.addAssign v).eq (u.add v) = true
  subAssign : (u.subAssign v).eq (u.sub v) = true
  leq : u.leq v = true ↔ ∀ d, u.get d ≤ v.get d
  lt : u.lt v = true ↔ (∀ d, u.get d ≤ v.get d) ∧ ∃ d, u.get d < v.get d
  geq : u.geq v = true ↔ ∀ d, v.get d ≤ u.get d
  gt : u.gt v = true ↔ (∀ d, v.get d ≤ u.get d) ∧ ∃ d, v.get d < u.get d
  eq : u.eq v = true ↔ ∀ d, u.get d = v.get d
  less_irrefl : u.less u = false
  less_trans : ∀ w : VClock, u.less v = true → v.less w = true → u.less w = true
  less_trichotomy : u.less v = true ∨ u.eq v = true ∨ v.less u = true
  ne_of_less : u.less v = true → u.eq v = false
  independent : ∀ u' v' : VClock, (∀ d, u'.get d = u.get d) → (∀ d, v'.get d = v.get d) →
    Independent u v u' v'

theorem eq_addAssign : (u.addAssign v).eq (u.add v) = true :=
  eq_iff.mpr fun d => (get_addAssign d).trans (get_add d).symm

theorem less_trichotomy : u.less v = true ∨ u.eq v = true ∨ v.less u = true := by
  rw [less_iff, less_iff, eq_iff]
  rcases lt_trichotomy (toLex u.get) (toLex v.get) with h | h | h
  · exact Or.inl h
  · exact Or.inr (Or.inl (congrFun (toLex_inj.mp h)))
  · exact Or.inr (Or.inr h)

theorem ne_of_less (h : u.less v = true) : u.eq v = false := by
  rw [← Bool.not_eq_true, eq_iff]
  intro heq
  have hfun : u.get = v.get := funext heq
  rw [less_iff, hfun] at h
  exact lt_irrefl _ h

/-- The operators only read the functions, where the one in place visits all of `u`. -/
theorem Independent.of_size_le {u' v' : VClock} (h : u.size ≤ v.size)
    (hu : ∀ d, u'.get d = u.get d) (hv : ∀ d, v'.get d = v.get d) : Independent u v u' v' := by
  have hu' : u'.get = u.get := funext hu
  have hv' : v'.get = v.get := funext hv
  have h' : u'.size ≤ v'.size := by rwa [size_congr hu, size_congr hv]
  constructor
  · intro d
    rw [get_add, get_add, hu', hv']
  · intro d
    rw [get_sub, get_sub, hu', hv']
  · intro d
    rw [get_addAssign, get_addAssign, hu', hv']
  · intro d
    rw [get_subAssign_of_size_le h, get_subAssign_of_size_le h', hu', hv']
  · rw [Bool.eq_iff_iff, leq_iff, leq_iff, hu', hv']
  · rw [Bool.eq_iff_iff, lt_iff, lt_iff, hu', hv']
  · rw [Bool.eq_iff_iff, geq_iff, geq_iff, hu', hv']
  · rw [Bool.eq_iff_iff, gt_iff, gt_iff, hu', hv']
  · rw [Bool.eq_iff_iff, eq_iff, eq_iff, hu', hv']
  · rw [Bool.eq_iff_iff, less_iff, less_iff, hu', hv']

/-- The laws hold exactly when the last nonzero entry of `u` is among those of `v`: the
loop of `operator-=` does not go further. -/
theorem lattice_iff (u v : VClock) : Lattice u v ↔ u.size ≤ v.size := by
  constructor
  · intro h
    rw [size_le_iff]
    intro d hd
    have hmin : (u.subAssign v).get d = 0 := by
      rw [eq_iff.mp h.subAssign d, get_sub, size_le_iff.mp le_rfl d hd]
      omega
    have hsame := (h.independent u v.trim (fun _ => rfl) fun d => get_trim d).subAssign d
    have hlength : v.trim.vec.length ≤ d := (List.length_take_le _ _).trans hd
    rwa [hmin, get_subAssign, if_neg (Nat.not_lt.mpr hlength)] at hsame
  · intro h
    exact {
      add := get_add
      sub := get_sub
      addAssign := eq_addAssign
      subAssign := eq_iff.mpr fun d => (get_subAssign_of_size_le h d).trans (get_sub d).symm
      leq := leq_iff
      lt := lt_iff
      geq := geq_iff
      gt := gt_iff
      eq := eq_iff
      less_irrefl := by
        rw [← Bool.not_eq_true, less_iff]
        exact lt_irrefl _
      less_trans := by
        intro w
        rw [less_iff, less_iff, less_iff]
        exact lt_trans
      less_trichotomy := less_trichotomy
      ne_of_less := ne_of_less
      independent := fun u' v' => Independent.of_size_le h }

/-- The second entry is not visited. -/
theorem not_lattice_longer : ¬ Lattice ⟨[1, 1]⟩ ⟨[1]⟩ := by
  intro h
  have hsub := h.subAssign
  revert hsub
  decide

end VClock

end ViEqui.Clocks
