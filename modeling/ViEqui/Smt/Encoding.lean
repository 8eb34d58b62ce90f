import ViEqui.Lib.SmtScript
import Mathlib.Data.UInt

/-!
# The constraints that are sent to the solver

`alloc_variables`, `add_edge` and `add_edge_disj` of `src/SmtlibSatSolver.cpp`, as the
script that they write, with integers or with bit vectors.  A shift by the width of
`unsigned` gives `none`.

* `ilog2_eq`: the search with masks is the logarithm.
* `adequate_int`: with integers the models of the script are the orders of the variables.
* `adequate_bv_iff`: with bit vectors they are for the counts that the number of digits is
  enough for.
-/

namespace ViEqui.Smt

open SmtScript

/-! ## The script -/

/-- One round of `ilog2`: the upper half of the bits, if one of them is set. -/
def ilog2Step (p : UInt32 × UInt32) (m : UInt32 × UInt32) : UInt32 × UInt32 :=
  if p.1 &&& m.1 ≠ 0 then (p.1 >>> m.2, p.2 ||| m.2) else p

/-- `ilog2`. -/
def ilog2 (v : UInt32) : UInt32 :=
  ([(0xFFFF0000, 16), (0xFF00, 8), (0xF0, 4), (0xC, 2), (0x2, 1)].foldl ilog2Step (v, 0)).2

/-- `1u << n`. -/
def shiftOne (n : UInt32) : Option UInt32 := if n < 32 then some (1 <<< n) else none

/-- `hexdigs`. -/
def hexdigs (count : UInt32) : UInt32 := ilog2 (count - 2) / 4 + 1

/-- The commands for one variable. -/
def allocVariable (clBv : Bool) (count : UInt32) (i : Nat) : Option Script :=
  if clBv then
    (shiftOne (hexdigs count * 4)).map fun limit =>
      [.declareFun i (.bitVec (hexdigs count * 4).toNat)] ++
        if count ≠ limit then
          [.assert (.bvult (.var i) (.hex (hexDigits (hexdigs count).toNat count.toNat)))]
        else []
  else some [.declareFun i .int, .assert (.ge (.var i) (.num 0)),
    .assert (.lt (.var i) (.num count.toNat))]

/-- `alloc_variables`. -/
def allocVariables (clBv : Bool) (count : UInt32) : Option Script :=
  ((List.range count.toNat).mapM (allocVariable clBv count)).map fun scripts =>
    scripts.flatten ++ [.assert (.distinct ((List.range count.toNat).map .var))]

/-- The comparison of two variables. -/
def before (clBv : Bool) (x y : Nat) : Formula :=
  if clBv then .bvult (.var x) (.var y) else .lt (.var x) (.var y)

/-- `add_edge`. -/
def addEdge (clBv : Bool) (x y : Nat) : Command := .assert (before clBv x y)

/-- `add_edge_disj`. -/
def addEdgeDisj (clBv : Bool) (xa ya xb yb : Nat) : Command :=
  .assert (.or (before clBv xa ya) (before clBv xb yb))

/-- A constraint. -/
inductive Constraint where
  | edge (x y : Nat)
  | edgeDisj (xa ya xb yb : Nat)
deriving DecidableEq, Repr

/-- The command for a constraint. -/
def Constraint.add (clBv : Bool) : Constraint → Command
  | edge x y => addEdge clBv x y
  | edgeDisj xa ya xb yb => addEdgeDisj clBv xa ya xb yb

/-- The script for the variables and the constraints. -/
def script (clBv : Bool) (count : UInt32) (cs : List Constraint) : Option Script :=
  (allocVariables clBv count).map (· ++ cs.map (Constraint.add clBv))

/-! ## What it should say -/

/-- The variables of a constraint are below `n`. -/
def Constraint.Below (n : Nat) : Constraint → Prop
  | edge x y => x < n ∧ y < n
  | edgeDisj xa ya xb yb => (xa < n ∧ ya < n) ∧ xb < n ∧ yb < n

/-- What a constraint says about the places of the variables. -/
def Constraint.Holds (σ : Nat → Int) : Constraint → Prop
  | edge x y => σ x < σ y
  | edgeDisj xa ya xb yb => σ xa < σ ya ∨ σ xb < σ yb

/-- Distinct places for the variables, with all constraints. -/
structure Order (count : Nat) (cs : List Constraint) (σ : Nat → Int) : Prop where
  range : ∀ i, i < count → 0 ≤ σ i ∧ σ i < count
  distinct : ∀ i j, i < count → j < count → σ i = σ j → i = j
  constraints : ∀ c ∈ cs, c.Holds σ

/-- A script is written, it is well-sorted, and its models are the orders. -/
def Adequate (clBv : Bool) (count : UInt32) (cs : List Constraint) : Prop :=
  ∃ s, script clBv count cs = some s ∧ WellSorted (fun _ => none) s ∧
    ∀ σ, Models σ s ↔ Order count.toNat cs σ

/-! ## The logarithm -/

/-- The upper half of `2 * s` bits. -/
theorem and_mask_eq_zero_iff {v s : Nat} (hv : v < 2 ^ (2 * s)) :
    v &&& (2 ^ s - 1) <<< s = 0 ↔ v < 2 ^ s := by
  have hshift : (v &&& (2 ^ s - 1) <<< s) >>> s = v >>> s := by
    rw [Nat.shiftRight_and_distrib, Nat.shiftLeft_shiftRight, Nat.and_two_pow_sub_one_eq_mod,
      Nat.mod_eq_of_lt]
    rw [Nat.shiftRight_eq_div_pow, Nat.div_lt_iff_lt_mul (by positivity), ← pow_add]
    rwa [two_mul] at hv
  constructor
  · intro h
    rw [h, Nat.zero_shiftRight, Nat.shiftRight_eq_div_pow] at hshift
    exact (Nat.div_eq_zero_iff_lt (by positivity)).mp hshift.symm
  · intro h
    apply Nat.eq_of_testBit_eq
    intro i
    rw [Nat.testBit_and, Nat.testBit_shiftLeft, Nat.zero_testBit]
    by_cases hi : s ≤ i
    · rw [Nat.testBit_lt_two_pow (h.trans_le (Nat.pow_le_pow_right (by omega) hi)), Bool.false_and]
    · simp [hi]

/-- `v` has less than `s` bits left, and is `v₀` without its last `r` bits. -/
structure Found (v₀ : UInt32) (p : UInt32 × UInt32) (s : Nat) : Prop where
  lt : p.1.toNat < 2 ^ s
  dvd : s ∣ p.2.toNat
  shift : p.1.toNat = v₀.toNat >>> p.2.toNat
  ne_zero : v₀ ≠ 0 → p.1 ≠ 0

theorem Found.step {v₀ : UInt32} {p m : UInt32 × UInt32} {k : Nat} (h : Found v₀ p (2 * 2 ^ k))
    (hmask : m.1.toNat = (2 ^ 2 ^ k - 1) <<< 2 ^ k) (hm : m.2.toNat = 2 ^ k) (hk : k < 5) :
    Found v₀ (ilog2Step p m) (2 ^ k) := by
  have hzero : p.1 &&& m.1 = 0 ↔ p.1.toNat < 2 ^ 2 ^ k := by
    rw [← and_mask_eq_zero_iff h.lt, ← hmask, ← UInt32.toNat_and, ← UInt32.toNat_inj]
    rfl
  unfold ilog2Step
  by_cases hlt : p.1.toNat < 2 ^ 2 ^ k
  · rw [if_neg (not_not.mpr (hzero.mpr hlt))]
    exact ⟨hlt, Dvd.dvd.trans (Dvd.intro_left 2 rfl) h.dvd, h.shift, h.ne_zero⟩
  · rw [if_pos (fun h0 => hlt (hzero.mp h0))]
    have hk' : 2 ^ k < 32 := (Nat.pow_lt_pow_right (by omega) hk).trans_le (by omega)
    have hshift : (p.1 >>> m.2).toNat = p.1.toNat >>> 2 ^ k := by
      rw [UInt32.toNat_shiftRight, hm, Nat.mod_eq_of_lt hk']
    have hor : (p.2 ||| m.2).toNat = p.2.toNat + 2 ^ k := by
      obtain ⟨a, ha⟩ := h.dvd
      rw [UInt32.toNat_or, hm, ha, ← pow_succ', Nat.two_pow_add_eq_or_of_lt]
      exact Nat.pow_lt_pow_right (by omega) (by omega)
    refine ⟨?_, ?_, ?_, ?_⟩
    · show (p.1 >>> m.2).toNat < _
      rw [hshift, Nat.shiftRight_eq_div_pow, Nat.div_lt_iff_lt_mul (by positivity), ← pow_add,
        ← two_mul]
      exact h.lt
    · show _ ∣ (p.2 ||| m.2).toNat
      rw [hor]
      exact Nat.dvd_add (Dvd.dvd.trans (Dvd.intro_left 2 rfl) h.dvd) (dvd_refl _)
    · show (p.1 >>> m.2).toNat = _ >>> (p.2 ||| m.2).toNat
      rw [hshift, hor, h.shift, Nat.shiftRight_add]
    · intro _ h0
      have h0' : (p.1 >>> m.2).toNat = 0 := congrArg UInt32.toNat h0
      rw [hshift, Nat.shiftRight_eq_div_pow, Nat.div_eq_zero_iff_lt (by positivity)] at h0'
      exact hlt h0'

theorem ilog2_eq (v : UInt32) : (ilog2 v).toNat = v.toNat.log2 := by
  have h₀ : Found v (v, 0) (2 * 2 ^ 4) := ⟨v.toNat_lt, dvd_zero _, rfl, id⟩
  have h₁ := h₀.step (m := (0xFFFF0000, 16)) rfl rfl (by omega)
  have h₂ := Found.step (k := 3) (m := (0xFF00, 8)) h₁ rfl rfl (by omega)
  have h₃ := Found.step (k := 2) (m := (0xF0, 4)) h₂ rfl rfl (by omega)
  have h₄ := Found.step (k := 1) (m := (0xC, 2)) h₃ rfl rfl (by omega)
  have h := Found.step (k := 0) (m := (0x2, 1)) h₄ rfl rfl (by omega)
  by_cases hv : v = 0
  · rw [hv]
    rfl
  · have hne : v.toNat ≠ 0 := fun h0 => hv (UInt32.toNat_inj.mp h0)
    have hone : v.toNat / 2 ^ (ilog2 v).toNat = 1 := by
      have hlt : v.toNat >>> (ilog2 v).toNat < 2 ^ 2 ^ 0 := h.shift ▸ h.lt
      have hpos : v.toNat >>> (ilog2 v).toNat ≠ 0 := by
        intro h0
        exact h.ne_zero hv (UInt32.toNat_inj.mp (h.shift.trans h0))
      rw [Nat.shiftRight_eq_div_pow] at hlt hpos
      exact Nat.le_antisymm (Nat.lt_succ_iff.mp hlt) (Nat.one_le_iff_ne_zero.mpr hpos)
    symm
    rw [Nat.log2_eq_iff hne, pow_succ]
    constructor
    · exact (Nat.one_le_div_iff (by positivity)).mp hone.ge
    · rw [Nat.mul_comm, ← Nat.div_lt_iff_lt_mul (by positivity), hone]
      omega

/-- `count - 2`, which wraps around below 2. -/
theorem toNat_sub_two (count : UInt32) :
    (count - 2).toNat =
      if 2 ≤ count.toNat then count.toNat - 2 else count.toNat + (2 ^ 32 - 2) := by
  have hlt := count.toNat_lt
  rw [UInt32.toNat_sub]
  have htwo : (2 : UInt32).toNat = 2 := rfl
  rw [htwo]
  split_ifs with h
  · omega
  · omega

/-- The digits that `count - 2` has. -/
theorem toNat_hexdigs (count : UInt32) :
    (hexdigs count).toNat = (count - 2).toNat.log2 / 4 + 1 := by
  have hlt : (count - 2).toNat.log2 < 32 := by
    by_cases h0 : (count - 2).toNat = 0
    · rw [h0]
      decide
    · exact (Nat.log2_lt h0).mpr (count - 2).toNat_lt
  have hfour : (4 : UInt32).toNat = 4 := rfl
  have hone : (1 : UInt32).toNat = 1 := rfl
  rw [hexdigs, UInt32.toNat_add, UInt32.toNat_div, ilog2_eq, hfour, hone, Nat.mod_eq_of_lt]
  omega

theorem sub_two_lt_pow (count : UInt32) : (count - 2).toNat < 16 ^ (hexdigs count).toNat := by
  rw [toNat_hexdigs, show (16 : Nat) = 2 ^ 4 from rfl, ← pow_mul]
  by_cases h0 : (count - 2).toNat = 0
  · rw [h0]
    positivity
  · rw [← Nat.log2_lt h0]
    omega

theorem pow_le_sub_two {count : UInt32} (h : (hexdigs count).toNat ≠ 1) :
    16 ^ ((hexdigs count).toNat - 1) ≤ (count - 2).toNat := by
  rw [toNat_hexdigs] at h ⊢
  have h0 : (count - 2).toNat ≠ 0 := by
    intro h0
    rw [h0] at h
    exact h rfl
  rw [show (16 : Nat) = 2 ^ 4 from rfl, ← pow_mul, ← Nat.le_log2 h0]
  omega

theorem hexdigs_le_eight (count : UInt32) : (hexdigs count).toNat ≤ 8 := by
  by_contra h
  have hpow := pow_le_sub_two (show (hexdigs count).toNat ≠ 1 by omega)
  have hlt := (count - 2).toNat_lt
  have hmono : 16 ^ 8 ≤ 16 ^ ((hexdigs count).toNat - 1) :=
    Nat.pow_le_pow_right (by omega) (by omega)
  omega

theorem toNat_width (count : UInt32) : (hexdigs count * 4).toNat = 4 * (hexdigs count).toNat := by
  have hle := hexdigs_le_eight count
  have hfour : (4 : UInt32).toNat = 4 := rfl
  rw [UInt32.toNat_mul, hfour, Nat.mod_eq_of_lt (by omega), Nat.mul_comm]

/-- The digits are not enough exactly for the number behind a power of 16. -/
theorem count_le_iff {count : UInt32} (h : 2 ≤ count.toNat) :
    count.toNat ≤ 16 ^ (hexdigs count).toNat ↔ ∀ k, 1 ≤ k → count.toNat ≠ 16 ^ k + 1 := by
  have hsub := toNat_sub_two count
  rw [if_pos h] at hsub
  have hlt := sub_two_lt_pow count
  constructor
  · intro hle k hk heq
    -- then `count - 2` has `k` digits
    have hdigs : (hexdigs count).toNat ≤ k := by
      by_contra hlong
      have hpow := pow_le_sub_two (show (hexdigs count).toNat ≠ 1 by omega)
      have hmono : 16 ^ k ≤ 16 ^ ((hexdigs count).toNat - 1) :=
        Nat.pow_le_pow_right (by omega) (by omega)
      omega
    have hmono : 16 ^ (hexdigs count).toNat ≤ 16 ^ k := Nat.pow_le_pow_right (by omega) hdigs
    omega
  · intro hne
    have := hne (hexdigs count).toNat (by rw [toNat_hexdigs]; omega)
    omega

/-! ## The models -/

variable {clBv : Bool} {count : UInt32} {cs : List Constraint} {σ : Nat → Int}

theorem models_constraints :
    Models σ (cs.map (Constraint.add clBv)) ↔ ∀ c ∈ cs, c.Holds σ := by
  unfold Models
  rw [List.forall_mem_map]
  apply forall₂_congr
  intro c _
  cases c with
  | edge x y => cases clBv <;> exact Iff.rfl
  | edgeDisj xa ya xb yb => cases clBv <;> exact Iff.rfl

theorem models_distinct {n : Nat} :
    Models σ [.assert (.distinct ((List.range n).map .var))] ↔
      ∀ i j, i < n → j < n → σ i = σ j → i = j := by
  have hmap : ((List.range n).map Term.var).map (Term.value σ) = (List.range n).map σ := by
    rw [List.map_map]
    rfl
  unfold Models
  rw [List.forall_mem_singleton]
  show (((List.range n).map Term.var).map (Term.value σ)).Nodup ↔ _
  rw [hmap, List.nodup_map_iff_inj_on List.nodup_range]
  simp only [List.mem_range]
  constructor
  · intro h i j hi hj heq
    exact h i hi j hj heq
  · intro h i hi j hj heq
    exact h i j hi hj heq

/-- The commands for all variables, where each one has some. -/
theorem mapM_allocVariable {f : Nat → Script}
    (h : ∀ i, allocVariable clBv count i = some (f i)) (l : List Nat) :
    l.mapM (allocVariable clBv count) = some (l.map f) := by
  induction l with
  | nil => rfl
  | cons i l ih =>
    rw [List.mapM_cons, h, ih]
    rfl

theorem script_eq {f : Nat → Script} (h : ∀ i, allocVariable clBv count i = some (f i)) :
    script clBv count cs = some ((List.range count.toNat).flatMap f ++
      [.assert (.distinct ((List.range count.toNat).map .var))] ++
      cs.map (Constraint.add clBv)) := by
  rw [script, allocVariables, mapM_allocVariable h, List.flatMap]
  rfl

/-- The models, from what the commands for one variable say. -/
theorem models_script {f : Nat → Script}
    (h : ∀ i, Models σ (f i) ↔ 0 ≤ σ i ∧ σ i < count.toNat) :
    Models σ ((List.range count.toNat).flatMap f ++
      [.assert (.distinct ((List.range count.toNat).map .var))] ++
      cs.map (Constraint.add clBv)) ↔ Order count.toNat cs σ := by
  rw [models_append, models_append, models_flatMap, models_distinct, models_constraints]
  simp only [h, List.mem_range]
  constructor
  · intro h
    exact ⟨h.1.1, h.1.2, h.2⟩
  · intro h
    exact ⟨⟨h.range, h.distinct⟩, h.constraints⟩

/-! ## The sorts -/

/-- All variables below `n` have the sort `s`. -/
def Declares (Γ : Context) (n : Nat) (s : Srt) : Prop := ∀ i, Γ i = if i < n then some s else none

theorem before_wellSorted {Γ : Context} {n : Nat} {s : Srt} (hΓ : Declares Γ n s)
    (hs : if clBv then ∃ w, s = .bitVec w else s = .int) {x y : Nat} (hx : x < n) (hy : y < n) :
    (before clBv x y).WellSorted Γ := by
  have hsort (i : Nat) (hi : i < n) : (Term.var i).sort Γ = some s := (hΓ i).trans (if_pos hi)
  cases clBv with
  | true =>
    obtain ⟨w, rfl⟩ := hs
    exact ⟨w, hsort x hx, hsort y hy⟩
  | false =>
    have hint : s = .int := hs
    subst hint
    exact ⟨hsort x hx, hsort y hy⟩

theorem constraints_wellSorted {Γ : Context} {n : Nat} {s : Srt} (hΓ : Declares Γ n s)
    (hs : if clBv then ∃ w, s = .bitVec w else s = .int) (hcs : ∀ c ∈ cs, c.Below n) :
    WellSorted Γ (cs.map (Constraint.add clBv)) := by
  induction cs with
  | nil => trivial
  | cons c cs ih =>
    have hrest := ih fun c' hc' => hcs c' (List.mem_cons_of_mem _ hc')
    have hc := hcs c List.mem_cons_self
    cases c with
    | edge x y => exact ⟨before_wellSorted hΓ hs hc.1 hc.2, hrest⟩
    | edgeDisj xa ya xb yb =>
      exact ⟨⟨before_wellSorted hΓ hs hc.1.1 hc.1.2, before_wellSorted hΓ hs hc.2.1 hc.2.2⟩,
        hrest⟩

theorem distinct_wellSorted {Γ : Context} {n : Nat} {s : Srt} (hΓ : Declares Γ n s) :
    WellSorted Γ [.assert (.distinct ((List.range n).map .var))] := by
  refine ⟨⟨s, ?_⟩, trivial⟩
  intro t ht
  obtain ⟨i, hi, rfl⟩ := List.mem_map.mp ht
  exact (hΓ i).trans (if_pos (List.mem_range.mp hi))

/-- The commands for a variable declare it, and assert something about it alone. -/
structure Allocates (f : Nat → Script) (s : Srt) : Prop where
  after : ∀ Γ i, after Γ (f i) = Γ.declare i s
  wellSorted : ∀ (Γ : Context) i, Γ i = none → WellSorted Γ (f i)

theorem Allocates.range {f : Nat → Script} {s : Srt} (h : Allocates f s) (n : Nat) :
    WellSorted (fun _ => none) ((List.range n).flatMap f) ∧
      Declares (SmtScript.after (fun _ => none) ((List.range n).flatMap f)) n s := by
  induction n with
  | zero => exact ⟨trivial, fun i => rfl⟩
  | succ n ih =>
    rw [List.range_succ, List.flatMap_append, List.flatMap_singleton, wellSorted_append,
      after_append, h.after]
    refine ⟨⟨ih.1, h.wellSorted _ n ?_⟩, ?_⟩
    · rw [ih.2, if_neg (lt_irrefl n)]
    · intro i
      unfold Context.declare
      rw [ih.2]
      split_ifs <;> first | rfl | omega

/-- The script is adequate if the commands for each variable are. -/
theorem adequate_of_allocates {f : Nat → Script} {s : Srt}
    (hs : if clBv then ∃ w, s = .bitVec w else s = .int)
    (halloc : ∀ i, allocVariable clBv count i = some (f i)) (h : Allocates f s)
    (hmodels : ∀ σ i, Models σ (f i) ↔ 0 ≤ σ i ∧ σ i < count.toNat)
    (hcs : ∀ c ∈ cs, c.Below count.toNat) : Adequate clBv count cs := by
  refine ⟨_, script_eq halloc, ?_, fun σ => models_script (hmodels σ)⟩
  obtain ⟨hrange, hΓ⟩ := h.range count.toNat
  rw [wellSorted_append, wellSorted_append, after_append]
  exact ⟨⟨hrange, distinct_wellSorted hΓ⟩, constraints_wellSorted hΓ hs hcs⟩

/-- With integers each count is encoded. -/
theorem adequate_int (hcs : ∀ c ∈ cs, c.Below count.toNat) : Adequate false count cs := by
  have hs : if (false : Bool) = true then ∃ w, Srt.int = .bitVec w else Srt.int = .int := rfl
  apply adequate_of_allocates hs (fun i => rfl) _ _ hcs
  · constructor
    · intro Γ i
      rfl
    · intro Γ i hi
      have hsort : (Term.var i).sort (Γ.declare i .int) = some .int := if_pos rfl
      exact ⟨hi, ⟨hsort, rfl⟩, ⟨hsort, rfl⟩, trivial⟩
  · intro σ i
    unfold Models
    simp only [List.forall_mem_cons]
    show True ∧ ((0 : Nat) : Int) ≤ σ i ∧ σ i < (count.toNat : Int) ∧ _ ↔ _
    simp

theorem adequate_int_two : Adequate false 2 [.edge 0 1] :=
  adequate_int fun _ hc => List.mem_singleton.mp hc ▸ ⟨by decide, by decide⟩

/-! ## Bit vectors -/

/-- The commands for a variable, where the shift is defined. -/
def bvCommands (count : UInt32) (i : Nat) : Script :=
  [.declareFun i (.bitVec (4 * (hexdigs count).toNat))] ++
    if count.toNat ≠ 16 ^ (hexdigs count).toNat then
      [.assert (.bvult (.var i) (.hex (hexDigits (hexdigs count).toNat count.toNat)))]
    else []

theorem shiftOne_width (h : (hexdigs count).toNat < 8) :
    ∃ limit, shiftOne (hexdigs count * 4) = some limit ∧
      limit.toNat = 16 ^ (hexdigs count).toNat := by
  have hwidth := toNat_width count
  have hlt : hexdigs count * 4 < 32 := by
    rw [UInt32.lt_iff_toNat_lt, hwidth]
    show 4 * (hexdigs count).toNat < 32
    omega
  refine ⟨1 <<< (hexdigs count * 4), if_pos hlt, ?_⟩
  have hpow : 2 ^ (4 * (hexdigs count).toNat) < 2 ^ 32 := Nat.pow_lt_pow_right (by omega) (by omega)
  have hone : (1 : UInt32).toNat = 1 := rfl
  rw [UInt32.toNat_shiftLeft, hwidth, hone, Nat.one_shiftLeft,
    Nat.mod_eq_of_lt (show 4 * (hexdigs count).toNat < 32 by omega), Nat.mod_eq_of_lt hpow, pow_mul]
  rfl

theorem allocVariable_bv (h : (hexdigs count).toNat < 8) (i : Nat) :
    allocVariable true count i = some (bvCommands count i) := by
  obtain ⟨limit, hshift, hlimit⟩ := shiftOne_width h
  rw [allocVariable, if_pos rfl, hshift, Option.map_some, toNat_width, bvCommands]
  have hne : count ≠ limit ↔ count.toNat ≠ 16 ^ (hexdigs count).toNat := by
    rw [← hlimit, ne_eq, ne_eq, UInt32.toNat_inj]
  simp only [hne]

/-- A shift by the width of the type. -/
theorem script_bv_eq_none (hcount : 1 ≤ count.toNat) (h : 8 ≤ (hexdigs count).toNat) :
    script true count cs = none := by
  have hshift : shiftOne (hexdigs count * 4) = none := by
    apply if_neg
    rw [UInt32.lt_iff_toNat_lt, toNat_width]
    show ¬ 4 * (hexdigs count).toNat < 32
    omega
  have hrange : ∃ l, List.range count.toNat = 0 :: l := by
    obtain ⟨n, hn⟩ : ∃ n, count.toNat = n + 1 := ⟨count.toNat - 1, by omega⟩
    exact ⟨_, by rw [hn, List.range_succ_eq_map]⟩
  obtain ⟨l, hl⟩ := hrange
  rw [script, allocVariables, hl, List.mapM_cons, allocVariable, if_pos rfl, hshift]
  rfl

/-- The literal has the declared width exactly if the count has no more digits. -/
theorem wellSorted_bvCommands {Γ : Context} {i : Nat} (hi : Γ i = none) :
    WellSorted Γ (bvCommands count i) ↔ count.toNat ≤ 16 ^ (hexdigs count).toNat := by
  have hsort : (Term.var i).sort (Γ.declare i (.bitVec (4 * (hexdigs count).toNat))) =
      some (.bitVec (4 * (hexdigs count).toNat)) := if_pos rfl
  unfold bvCommands
  by_cases hne : count.toNat ≠ 16 ^ (hexdigs count).toNat
  · rw [if_pos hne, le_iff_lt_or_eq, or_iff_left hne, ← length_hexDigits_eq_iff]
    constructor
    · rintro ⟨_, ⟨w, hw, hw'⟩, _⟩
      rw [hsort] at hw
      cases hw
      have hlen := congrArg (Option.map fun | Srt.bitVec w => w | Srt.int => 0) hw'
      have hlen' : 4 * (hexDigits (hexdigs count).toNat count.toNat).length =
        4 * (hexdigs count).toNat := Option.some.inj hlen
      omega
    · intro hlen
      refine ⟨hi, ⟨_, hsort, ?_⟩, trivial⟩
      show some (Srt.bitVec (4 * (hexDigits (hexdigs count).toNat count.toNat).length)) = _
      rw [hlen]
  · rw [if_neg hne]
    exact iff_of_true ⟨hi, trivial⟩ (not_not.mp hne).le

theorem models_bvCommands (hle : count.toNat ≤ 16 ^ (hexdigs count).toNat) (σ : Nat → Int)
    (i : Nat) : Models σ (bvCommands count i) ↔ 0 ≤ σ i ∧ σ i < count.toNat := by
  have hpow : (2 : Int) ^ (4 * (hexdigs count).toNat) =
      ((16 ^ (hexdigs count).toNat : Nat) : Int) := by
    rw [pow_mul]
    norm_num
  unfold bvCommands
  rw [models_append]
  have hdom : Models σ [.declareFun i (.bitVec (4 * (hexdigs count).toNat))] ↔
      0 ≤ σ i ∧ σ i < ((16 ^ (hexdigs count).toNat : Nat) : Int) := by
    rw [← hpow]
    exact List.forall_mem_singleton
  rw [hdom]
  by_cases hne : count.toNat ≠ 16 ^ (hexdigs count).toNat
  · have hbound : Models σ [.assert (.bvult (.var i)
        (.hex (hexDigits (hexdigs count).toNat count.toNat)))] ↔ σ i < count.toNat := by
      rw [Models, List.forall_mem_singleton]
      show σ i < (Term.hex _).value σ ↔ _
      rw [value_hexDigits]
    rw [if_pos hne, hbound]
    omega
  · have hnil : Models σ [] := nofun
    rw [if_neg hne, ← not_not.mp hne]
    exact and_iff_left hnil

theorem wellSorted_first {Γ : Context} {f : Nat → Script} {n : Nat} (hn : 1 ≤ n)
    (h : WellSorted Γ ((List.range n).flatMap f)) : WellSorted Γ (f 0) := by
  obtain ⟨n, rfl⟩ : ∃ m, n = m + 1 := ⟨n - 1, by omega⟩
  rw [List.range_succ_eq_map, List.flatMap_cons, wellSorted_append] at h
  exact h.1

/-- With bit vectors a count is encoded exactly if it is at least 2, the shift is defined,
and it does not follow a power of 16, which takes one digit more than `count - 2`. -/
theorem adequate_bv_iff (hcount : 1 ≤ count.toNat) (hcs : ∀ c ∈ cs, c.Below count.toNat) :
    Adequate true count cs ↔
      2 ≤ count.toNat ∧ count.toNat ≤ 2 ^ 28 ∧ ∀ k, 1 ≤ k → count.toNat ≠ 16 ^ k + 1 := by
  have hsub := toNat_sub_two count
  have hlt := sub_two_lt_pow count
  constructor
  · rintro ⟨s, hs, hsorted, _⟩
    have hdigs : (hexdigs count).toNat < 8 := by
      by_contra h
      rw [script_bv_eq_none hcount (by omega)] at hs
      cases hs
    have hmono : 16 ^ (hexdigs count).toNat ≤ 16 ^ 7 := Nat.pow_le_pow_right (by omega) (by omega)
    have htwo : 2 ≤ count.toNat := by
      by_contra h
      rw [if_neg h] at hsub
      omega
    rw [script_eq (allocVariable_bv hdigs)] at hs
    cases hs
    rw [wellSorted_append, wellSorted_append] at hsorted
    have hfirst := wellSorted_first hcount hsorted.1.1
    have hne := (count_le_iff htwo).mp ((wellSorted_bvCommands rfl).mp hfirst)
    refine ⟨htwo, ?_, hne⟩
    have := hne 7 (by omega)
    rw [if_pos htwo] at hsub
    omega
  · rintro ⟨htwo, hmax, hne⟩
    have hle := (count_le_iff htwo).mpr hne
    have hdigs : (hexdigs count).toNat < 8 := by
      by_contra h
      have hpow := pow_le_sub_two (show (hexdigs count).toNat ≠ 1 by omega)
      have hmono : 16 ^ 7 ≤ 16 ^ ((hexdigs count).toNat - 1) :=
        Nat.pow_le_pow_right (by omega) (by omega)
      rw [if_pos htwo] at hsub
      omega
    have hs : if (true : Bool) = true then
        ∃ w, Srt.bitVec (4 * (hexdigs count).toNat) = .bitVec w
      else Srt.bitVec (4 * (hexdigs count).toNat) = .int := ⟨_, rfl⟩
    refine adequate_of_allocates hs (allocVariable_bv hdigs) ⟨?_, ?_⟩ (models_bvCommands hle) hcs
    · intro Γ i
      unfold bvCommands
      rw [after_append]
      split_ifs <;> rfl
    · intro Γ i hi
      exact (wellSorted_bvCommands hi).mpr hle

/-- Two variables with an edge. -/
theorem adequate_bv_two : Adequate true 2 [.edge 0 1] := by
  apply (adequate_bv_iff (by decide) _).mpr
  · refine ⟨by decide, by decide, fun k hk => ?_⟩
    have hmono : 16 ^ 1 ≤ 16 ^ k := Nat.pow_le_pow_right (by omega) hk
    show 2 ≠ 16 ^ k + 1
    omega
  · intro c hc
    rw [List.mem_singleton.mp hc]
    exact ⟨by decide, by decide⟩

/-- The bound `#x11` has two digits, and the variables have four bits. -/
theorem not_adequate_seventeen : ¬ Adequate true 17 [] := by
  rintro ⟨s, hs, hsorted, _⟩
  have hdigs : (hexdigs 17).toNat = 1 := by decide
  rw [script_eq (allocVariable_bv (by omega))] at hs
  cases hs
  rw [wellSorted_append, wellSorted_append] at hsorted
  have hle := (wellSorted_bvCommands rfl).mp (wellSorted_first (by decide) hsorted.1.1)
  rw [hdigs] at hle
  exact absurd hle (by decide)

end ViEqui.Smt
