import ViEqui.FormulaSemantics

/-!
# Reducing formulas

`SOPFormula::reduce` grounds a pair `(r, x)`: it is to be partial evaluation,
and to leave no pair of `r` behind.

* `ProductTerm.reduce_cases`: what happens to one term.
* `ProductTerm.verdict`: the result that a term reports.
* `SOPFormula.reduce_spec`: what happens to a formula.
* `SOPFormula.partiallyEvaluates_iff`: when it is partial evaluation.
-/

namespace ViEqui

open SumOfProducts

/-! ## Terms -/

namespace ProductTerm

/-- The first pair of the read decides: without one the term is as it was, the
pair itself is taken out, and a pair with another value makes the term
`FALSE`. -/
theorem reduce_cases (p : ProductTerm) (r : IID) (x : Value) :
    ((∀ t ∈ p.terms, t.1 ≠ r) ∧ p.reduce (r, x) = p) ∨
    (∃ A B, p.terms = A ++ (r, x) :: B ∧ (∀ t ∈ A, t.1 ≠ r) ∧
      p.reduce (r, x) = ⟨A ++ B, if A ++ B = [] then .true else p.result⟩) ∨
    (∃ A y B, p.terms = A ++ (r, y) :: B ∧ y ≠ x ∧ (∀ t ∈ A, t.1 ≠ r) ∧
      p.reduce (r, x) = ⟨p.terms, .false⟩) := by
  have hloop (rest : List RV) : ∀ passed : List RV, (∀ t ∈ passed, t.1 ≠ r) →
      ((∀ t ∈ passed ++ rest, t.1 ≠ r) ∧
        reduceLoop (r, x) p.result passed rest = ⟨passed ++ rest, p.result⟩) ∨
      (∃ A B, passed ++ rest = A ++ (r, x) :: B ∧ (∀ t ∈ A, t.1 ≠ r) ∧
        reduceLoop (r, x) p.result passed rest =
          ⟨A ++ B, if A ++ B = [] then .true else p.result⟩) ∨
      (∃ A y B, passed ++ rest = A ++ (r, y) :: B ∧ y ≠ x ∧ (∀ t ∈ A, t.1 ≠ r) ∧
        reduceLoop (r, x) p.result passed rest = ⟨passed ++ rest, .false⟩) := by
    induction rest with
    | nil =>
      intro passed hpassed
      exact .inl ⟨by simpa using hpassed, by simp [reduceLoop]⟩
    | cons t rest ih =>
      intro passed hpassed
      unfold reduceLoop
      by_cases ht : t = (r, x)
      · have hunit : (passed.length + 1 + rest.length = 1) ↔ passed ++ rest = [] := by
          rw [← List.length_eq_zero_iff, List.length_append]
          omega
        refine .inr (.inl ⟨passed, rest, by rw [ht], hpassed, ?_⟩)
        rw [if_pos ht]
        simp only [hunit]
      · rw [if_neg ht]
        by_cases hr : t.1 = r
        · refine .inr (.inr ⟨passed, t.2, rest, by rw [← hr], fun hx => ?_, hpassed, ?_⟩)
          · exact ht (Prod.ext hr hx)
          · rw [if_pos hr]
        · rw [if_neg hr]
          have := ih (passed ++ [t]) (by
            intro t' ht'
            rcases List.mem_append.mp ht' with h | h
            · exact hpassed t' h
            · rwa [List.mem_singleton.mp h])
          simpa using this
  exact hloop p.terms [] (by simp)

/-- The result that a term reports when `term` is grounded. -/
def verdict (p : ProductTerm) (term : RV) : Result :=
  match p.terms.find? (fun t => t.1 = term.1) with
  | none => p.result
  | some t => if t = term then (if p.terms.length = 1 then .true else p.result) else .false

theorem find?_read {A B : List RV} {r : IID} {y : Value} (hA : ∀ t ∈ A, t.1 ≠ r) :
    (A ++ (r, y) :: B).find? (fun t => t.1 = r) = some (r, y) := by
  have hnone : A.find? (fun t => t.1 = r) = none := by simpa using hA
  rw [List.find?_append, hnone, Option.none_or]
  exact List.find?_cons_of_pos (by simp)

theorem result_reduce (p : ProductTerm) (r : IID) (x : Value) :
    (p.reduce (r, x)).result = p.verdict (r, x) := by
  unfold verdict
  rcases reduce_cases p r x with ⟨hnone, h⟩ | ⟨A, B, hterms, hA, h⟩ | ⟨A, y, B, hterms, hy, hA, h⟩
  · have hfind : p.terms.find? (fun t => t.1 = r) = none := by simpa using hnone
    rw [h, hfind]
  · have hunit : (A ++ (r, x) :: B).length = 1 ↔ A ++ B = [] := by
      rw [← List.length_eq_zero_iff, List.length_append, List.length_append, List.length_cons]
      omega
    rw [h, hterms, find?_read hA]
    simp only [if_true, hunit]
  · rw [h, hterms, find?_read hA]
    simp [hy]

/-- Grounding a pair that holds does not change what a term says. -/
theorem holds_reduce {p : ProductTerm} {v : Assignment} {r : IID} {x : Value} (hv : v r = x) :
    (p.reduce (r, x)).Holds v ↔ p.Holds v := by
  unfold Holds
  rcases reduce_cases p r x with ⟨-, h⟩ | ⟨A, B, hterms, -, h⟩ | ⟨A, y, B, hterms, -, -, h⟩
  · rw [h]
  · rw [h, hterms, sat_remove hv]
  · rw [h]

/-- The term has at most one pair of the read. -/
def MentionsOnce (r : IID) (p : ProductTerm) : Prop :=
  (p.terms.filter fun t => t.1 = r).length ≤ 1

/-- A term that is kept has no pair of the read afterwards, exactly if it had at
most one before. -/
theorem forall_ne_reduce_iff {p : ProductTerm} {r : IID} {x : Value}
    (h : p.verdict (r, x) ≠ .false) :
    (∀ t ∈ (p.reduce (r, x)).terms, t.1 ≠ r) ↔ p.MentionsOnce r := by
  have hnil {A : List RV} : (∀ t ∈ A, t.1 ≠ r) ↔ A.filter (fun t => t.1 = r) = [] := by
    simp
  unfold MentionsOnce
  rcases reduce_cases p r x with ⟨hnone, hp⟩ | ⟨A, B, hterms, hA, hp⟩ | ⟨A, y, B, hterms, hy, hA, hp⟩
  · rw [hp, hnil.mp hnone]
    exact iff_of_true hnone (Nat.zero_le 1)
  · rw [hp, hterms, List.filter_append, hnil.mp hA, List.nil_append, hnil, List.filter_append,
      hnil.mp hA, List.nil_append, List.filter_cons_of_pos (by simp), List.length_cons,
      ← List.length_eq_zero_iff]
    omega
  · rw [← result_reduce, hp] at h
    exact absurd rfl h

/-- The term is not constant: it reports `DEPENDENT` and has a pair.  All terms
are that the builder makes. -/
def Live (p : ProductTerm) : Prop := p.result = .dependent ∧ p.terms ≠ []

/-- What a live term reports is right. -/
theorem verdict_of_live {p : ProductTerm} {r : IID} {x : Value} (hp : p.Live) :
    (p.verdict (r, x) = .true ↔ p.terms = [(r, x)]) ∧
      (p.verdict (r, x) = .false → ∀ v : Assignment, v r = x → ¬p.Holds v) := by
  obtain ⟨hresult, hne⟩ := hp
  rw [← result_reduce]
  rcases reduce_cases p r x with ⟨hnone, h⟩ | ⟨A, B, hterms, hA, h⟩ | ⟨A, y, B, hterms, hy, hA, h⟩
  · rw [h, hresult]
    refine ⟨iff_of_false (by simp) fun heq => ?_, by simp⟩
    exact hnone (r, x) (by simp [heq]) rfl
  · rw [h]
    by_cases hempty : A ++ B = []
    · obtain ⟨rfl, rfl⟩ := List.append_eq_nil_iff.mp hempty
      rw [hterms]
      exact ⟨iff_of_true (by simp) rfl, by simp⟩
    · have hlength : p.terms ≠ [(r, x)] := by
        intro heq
        refine hempty (List.length_eq_zero_iff.mp ?_)
        have := congrArg List.length (hterms.symm.trans heq)
        simp only [List.length_append, List.length_cons, List.length_nil] at this ⊢
        omega
      simp only [hempty, if_false, hresult]
      exact ⟨iff_of_false (by simp) hlength, by simp⟩
  · rw [h]
    refine ⟨iff_of_false (by simp) fun heq => ?_, fun _ v hv => ?_⟩
    · rw [hterms] at heq
      cases A with
      | nil =>
        simp only [List.nil_append, List.cons.injEq, Prod.mk.injEq, true_and] at heq
        exact hy heq.1
      | cons a A => simp at heq
    · refine not_sat_of_mem (t := (r, y)) (by simp [hterms]) ?_
      rw [hv]
      exact hy.symm

end ProductTerm

/-! ## Formulas -/

namespace SOPFormula

variable {f : SOPFormula} {v : Assignment} {r : IID} {x : Value}

/-- The loop stops at the first term that reports `TRUE`, and keeps the
`DEPENDENT` ones otherwise. -/
theorem reduceLoop_spec (term : RV) (passed rest : List ProductTerm) :
    ((∃ p ∈ rest, (p.reduce term).result = .true) ∧
      (reduceLoop term passed rest).1 = true) ∨
    ((∀ p ∈ rest, (p.reduce term).result ≠ .true) ∧
      reduceLoop term passed rest = (false, passed ++
        (rest.map (·.reduce term)).filter fun p => p.result = .dependent)) := by
  induction rest generalizing passed with
  | nil => exact .inr ⟨by simp, by simp [reduceLoop]⟩
  | cons p rest ih =>
    unfold reduceLoop
    dsimp only
    cases hp : (p.reduce term).result with
    | true => exact .inl ⟨⟨p, List.mem_cons_self, hp⟩, rfl⟩
    | false =>
      rcases ih passed with ⟨⟨q, hq, h⟩, hloop⟩ | ⟨hnone, hloop⟩
      · exact .inl ⟨⟨q, List.mem_cons_of_mem p hq, h⟩, hloop⟩
      · refine .inr ⟨List.forall_mem_cons.mpr ⟨by simp [hp], hnone⟩, ?_⟩
        simp [hloop, hp]
    | dependent =>
      rcases ih (passed ++ [p.reduce term]) with ⟨⟨q, hq, h⟩, hloop⟩ | ⟨hnone, hloop⟩
      · exact .inl ⟨⟨q, List.mem_cons_of_mem p hq, h⟩, hloop⟩
      · refine .inr ⟨List.forall_mem_cons.mpr ⟨by simp [hp], hnone⟩, ?_⟩
        simp [hloop, hp]

/-- The terms that `reduce` keeps, when none reports `TRUE`. -/
def kept (f : SOPFormula) (term : RV) : List ProductTerm :=
  (f.terms.map (·.reduce term)).filter fun p => p.result = .dependent

theorem mem_kept {term : RV} {p : ProductTerm} :
    p ∈ f.kept term ↔ ∃ q ∈ f.terms, q.verdict term = .dependent ∧ p = q.reduce term := by
  unfold kept
  simp only [List.mem_filter, List.mem_map, decide_eq_true_eq]
  constructor
  · intro ⟨⟨q, hq, heq⟩, hresult⟩
    refine ⟨q, hq, ?_, heq.symm⟩
    rw [← hresult, ← heq]
    exact (ProductTerm.result_reduce q term.1 term.2).symm
  · intro ⟨q, hq, hresult, heq⟩
    refine ⟨⟨q, hq, heq.symm⟩, ?_⟩
    rw [heq, ← hresult]
    exact ProductTerm.result_reduce q term.1 term.2

theorem reduce_spec (hf : f.result = .dependent) (r : IID) (x : Value) :
    ((∃ p ∈ f.terms, p.verdict (r, x) = .true) ∧ f.reduce (r, x) = ⟨[], .true⟩) ∨
    ((∀ p ∈ f.terms, p.verdict (r, x) ≠ .true) ∧
      (f.reduce (r, x)).terms = f.kept (r, x) ∧
      ∀ v, (f.reduce (r, x)).Holds v ↔ ∃ p ∈ f.kept (r, x), p.Holds v) := by
  simp only [← ProductTerm.result_reduce]
  unfold SOPFormula.reduce
  rcases reduceLoop_spec (r, x) [] f.terms with ⟨hsome, hloop⟩ | ⟨hnone, hloop⟩
  · refine .inl ⟨hsome, ?_⟩
    generalize reduceLoop (r, x) [] f.terms = loop at hloop
    obtain ⟨b, terms⟩ := loop
    dsimp only at hloop
    rw [hloop]
  · have hkept : [] ++ (f.terms.map (·.reduce (r, x))).filter
        (fun p => p.result = .dependent) = f.kept (r, x) := rfl
    refine .inr ⟨hnone, ?_⟩
    rw [hloop, hkept]
    simp only [hf, reduceCtorEq, if_false]
    by_cases hempty : f.kept (r, x) = []
    · rw [if_pos hempty, hempty]
      exact ⟨rfl, fun v => iff_of_false (not_holds_of_false rfl) (by simp)⟩
    · rw [if_neg hempty]
      exact ⟨rfl, fun v => holds_of_dependent rfl⟩

/-- `reduce` is partial evaluation at `(r, x)`: no pair of `r` remains, and the
formula says the same wherever `r` has the value `x`. -/
def PartiallyEvaluates (f : SOPFormula) (r : IID) (x : Value) : Prop :=
  (∀ p ∈ (f.reduce (r, x)).terms, ∀ t ∈ p.terms, t.1 ≠ r) ∧
    ∀ v : Assignment, v r = x → ((f.reduce (r, x)).Holds v ↔ f.Holds v)

/-- What the terms report is right for the formula.  If one reports `TRUE`, the
formula is true wherever `r` has the value `x`.  If none does, each term that is
kept has at most one pair of `r`, and what a dropped one says is said by one
that is kept. -/
def ReducesRight (f : SOPFormula) (r : IID) (x : Value) : Prop :=
  ((∃ p ∈ f.terms, p.verdict (r, x) = .true) →
    ∀ v : Assignment, v r = x → ∃ p ∈ f.terms, p.Holds v) ∧
  ((∀ p ∈ f.terms, p.verdict (r, x) ≠ .true) →
    (∀ p ∈ f.terms, p.verdict (r, x) = .dependent → p.MentionsOnce r) ∧
    ∀ p ∈ f.terms, p.verdict (r, x) = .false → ∀ v : Assignment, v r = x → p.Holds v →
      ∃ q ∈ f.terms, q.verdict (r, x) = .dependent ∧ q.Holds v)

theorem exists_kept_holds_iff (hv : v r = x) :
    (∃ p ∈ f.kept (r, x), p.Holds v) ↔
      ∃ q ∈ f.terms, q.verdict (r, x) = .dependent ∧ q.Holds v := by
  constructor
  · intro ⟨p, hp, hholds⟩
    obtain ⟨q, hq, hresult, rfl⟩ := mem_kept.mp hp
    exact ⟨q, hq, hresult, (ProductTerm.holds_reduce hv).mp hholds⟩
  · intro ⟨q, hq, hresult, hholds⟩
    exact ⟨_, mem_kept.mpr ⟨q, hq, hresult, rfl⟩, (ProductTerm.holds_reduce hv).mpr hholds⟩

theorem partiallyEvaluates_iff_of_dependent (hf : f.result = .dependent) :
    f.PartiallyEvaluates r x ↔ f.ReducesRight r x := by
  have hnonreads : (∀ p ∈ f.kept (r, x), ∀ t ∈ p.terms, t.1 ≠ r) ↔
      ∀ p ∈ f.terms, p.verdict (r, x) = .dependent → p.MentionsOnce r := by
    constructor
    · intro h p hp hresult
      rw [← ProductTerm.forall_ne_reduce_iff (x := x) (by simp [hresult])]
      exact h _ (mem_kept.mpr ⟨p, hp, hresult, rfl⟩)
    · intro h p hp
      obtain ⟨q, hq, hresult, rfl⟩ := mem_kept.mp hp
      exact (ProductTerm.forall_ne_reduce_iff (by simp [hresult])).mpr (h q hq hresult)
  -- what is said by the kept terms, when none reports `TRUE`
  have hsays (hnone : ∀ p ∈ f.terms, p.verdict (r, x) ≠ .true) :
      (∀ v : Assignment, v r = x → ((∃ p ∈ f.kept (r, x), p.Holds v) ↔
        ∃ p ∈ f.terms, p.Holds v)) ↔
      ∀ p ∈ f.terms, p.verdict (r, x) = .false → ∀ v : Assignment, v r = x → p.Holds v →
        ∃ q ∈ f.terms, q.verdict (r, x) = .dependent ∧ q.Holds v := by
    constructor
    · intro h p hp _ v hv hholds
      exact (exists_kept_holds_iff hv).mp ((h v hv).mpr ⟨p, hp, hholds⟩)
    · intro h v hv
      rw [exists_kept_holds_iff hv]
      constructor
      · intro ⟨q, hq, _, hholds⟩
        exact ⟨q, hq, hholds⟩
      · intro ⟨p, hp, hholds⟩
        cases hresult : p.verdict (r, x) with
        | true => exact absurd hresult (hnone p hp)
        | false => exact h p hp hresult v hv hholds
        | dependent => exact ⟨p, hp, hresult, hholds⟩
  unfold PartiallyEvaluates ReducesRight
  rcases reduce_spec hf r x with ⟨hsome, hreduce⟩ | ⟨hnone, hterms, hholds⟩
  · rw [hreduce]
    have hnot : ¬∀ p ∈ f.terms, p.verdict (r, x) ≠ .true := by
      obtain ⟨p, hp, htrue⟩ := hsome
      exact fun h => h p hp htrue
    simp only [hsome, hnot, forall_const, false_implies, and_true, List.not_mem_nil,
      implies_true, true_and, holds_of_dependent hf]
    exact forall₂_congr fun v _ => by simp [Holds]
  · have hsome : ¬∃ p ∈ f.terms, p.verdict (r, x) = .true := fun ⟨p, hp, h⟩ => hnone p hp h
    rw [hterms, ← hnonreads, ← hsays hnone]
    simp only [hsome, false_implies, true_and, hholds, holds_of_dependent hf]
    exact ⟨fun h _ => h, fun h => h hnone⟩

/-- With live terms only, this leaves one case out: a pair of `r` behind a first
pair `(r, x)` of its term. -/
theorem reducesRight_iff_of_live (hlive : ∀ p ∈ f.terms, p.Live) :
    f.ReducesRight r x ↔ (∃ p ∈ f.terms, p.terms = [(r, x)]) ∨
      ∀ p ∈ f.terms, p.verdict (r, x) = .dependent → p.MentionsOnce r := by
  have htrue : (∃ p ∈ f.terms, p.verdict (r, x) = .true) ↔
      ∃ p ∈ f.terms, p.terms = [(r, x)] := by
    refine exists_congr fun p => and_congr_right fun hp => ?_
    exact (ProductTerm.verdict_of_live (hlive p hp)).1
  unfold ReducesRight
  rw [htrue]
  by_cases hsome : ∃ p ∈ f.terms, p.terms = [(r, x)]
  · refine iff_of_true ⟨fun ⟨p, hp, hterms⟩ v hv => ⟨p, hp, ?_⟩, fun hnone => ?_⟩ (.inl hsome)
    · rw [ProductTerm.Holds, hterms]
      simpa using hv
    · obtain ⟨p, hp, h⟩ := htrue.mpr hsome
      exact absurd h (hnone p hp)
  · have hnone : ∀ p ∈ f.terms, p.verdict (r, x) ≠ .true := fun p hp h =>
      hsome (htrue.mp ⟨p, hp, h⟩)
    simp only [hsome, false_implies, true_and, false_or]
    refine ⟨fun h => (h hnone).1, fun h _ => ⟨h, fun p hp hfalse v hv hholds => ?_⟩⟩
    exact absurd hholds ((ProductTerm.verdict_of_live (hlive p hp)).2 hfalse v hv)

theorem reduce_of_true (h : f.result = .true) (term : RV) : f.reduce term = ⟨[], .true⟩ := by
  unfold SOPFormula.reduce
  split
  · rfl
  · rw [if_pos h]

theorem reduce_of_false (hf : f.WellFormed) (h : f.result = .false) (term : RV) :
    f.reduce term = ⟨[], .false⟩ := by
  unfold SOPFormula.reduce
  rw [hf.empty h, reduceLoop, h]
  rfl

theorem partiallyEvaluates_iff_reducesRight (hf : f.WellFormed) :
    f.PartiallyEvaluates r x ↔ (f.result = .dependent → f.ReducesRight r x) := by
  cases hresult : f.result with
  | dependent =>
    rw [partiallyEvaluates_iff_of_dependent hresult]
    exact ⟨fun h _ => h, fun h => h rfl⟩
  | true =>
    have hreduce := reduce_of_true hresult (r, x)
    refine iff_of_true ⟨by simp [hreduce], fun v _ => ?_⟩ (by simp)
    rw [hreduce]
    exact iff_of_true (holds_of_true rfl) (holds_of_true hresult)
  | false =>
    have hreduce := reduce_of_false hf hresult (r, x)
    refine iff_of_true ⟨by simp [hreduce], fun v _ => ?_⟩ (by simp)
    rw [hreduce]
    exact iff_of_false (not_holds_of_false rfl) (not_holds_of_false hresult)

/-- `reduce` is partial evaluation, exactly if the formula is constant already
or what its terms report is right for it. -/
theorem partiallyEvaluates_iff (hf : f.Reachable) (r : IID) (x : Value) :
    (f.PartiallyEvaluates r x ↔ (f.result = .dependent → f.ReducesRight r x)) ∧
      ((∀ p ∈ f.terms, p.Live) → (f.ReducesRight r x ↔
        (∃ p ∈ f.terms, p.terms = [(r, x)]) ∨
          ∀ p ∈ f.terms, p.verdict (r, x) = .dependent → p.MentionsOnce r)) :=
  ⟨partiallyEvaluates_iff_reducesRight hf.wellFormed, reducesRight_iff_of_live⟩

theorem partiallyEvaluates_iff_ofTerm :
    ((ofTerm (⟨0, 0⟩, 1)).PartiallyEvaluates ⟨0, 0⟩ 1 ↔
      ((ofTerm (⟨0, 0⟩, 1)).result = .dependent →
        (ofTerm (⟨0, 0⟩, 1)).ReducesRight ⟨0, 0⟩ 1)) ∧
      ((∀ p ∈ (ofTerm (⟨0, 0⟩, 1)).terms, p.Live) →
        ((ofTerm (⟨0, 0⟩, 1)).ReducesRight ⟨0, 0⟩ 1 ↔
          (∃ p ∈ (ofTerm (⟨0, 0⟩, 1)).terms, p.terms = [(⟨0, 0⟩, 1)]) ∨
            ∀ p ∈ (ofTerm (⟨0, 0⟩, 1)).terms,
              p.verdict (⟨0, 0⟩, 1) = .dependent → p.MentionsOnce ⟨0, 0⟩)) :=
  partiallyEvaluates_iff (.ofTerm (⟨0, 0⟩, 1)) ⟨0, 0⟩ 1

/-- The conjunction of two values of a read keeps the second one. -/
theorem not_partiallyEvaluates :
    ¬∀ (f : SOPFormula) (r : IID) (x : Value), f.Reachable → f.PartiallyEvaluates r x := by
  intro h
  have hreduce := (h ((ofTerm (⟨0, 0⟩, 1)).conjRV (⟨0, 0⟩, 2)) ⟨0, 0⟩ 1
    (.conjRV _ (.ofTerm _))).1
  exact absurd hreduce (by decide)

end SOPFormula

end ViEqui
