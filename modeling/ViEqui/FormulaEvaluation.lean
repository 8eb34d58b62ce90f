import ViEqui.FormulaReduce

/-!
# Checking and evaluating formulas

`check_evaluation`, `evaluate` and `reduce` ground the same pair `(r, x)` in
three loops.  `check_evaluation` is to tell the result that `reduce` leaves, and
`evaluate` is to leave the formula that `reduce` leaves.

* `ProductTerm.checkEvaluation_eq`: `check_evaluation` on a term, by what
  `reduce` does with the term.
* `SOPFormula.foretells_iff`: when it tells the result of `reduce`.
* `ProductTerm.evaluate_cases`: what `evaluate` does with a term.
* `SOPFormula.agreesWithReduce_iff`: when `evaluate` agrees with `reduce`.
-/

namespace ViEqui

open SumOfProducts

theorem Result.eq_iff {a b : Result} :
    a = b ↔ (a = .true ↔ b = .true) ∧ (a = .false ↔ b = .false) := by
  cases a <;> cases b <;> simp

/-! ## Checking a term -/

namespace ProductTerm

/-- `check_evaluation` misses what `reduce` does with the term: it has several
pairs, or none, and the first one of the read has another value. -/
def Overlooked (p : ProductTerm) (term : RV) : Prop :=
  p.terms.length ≠ 1 ∧ (p.terms.find? fun t => t.1 = term.1).any (· ≠ term) = true

instance (p : ProductTerm) (term : RV) : Decidable (p.Overlooked term) :=
  inferInstanceAs (Decidable (_ ∧ _))

theorem verdict_of_overlooked {p : ProductTerm} {term : RV} (h : p.Overlooked term) :
    p.verdict term = .false := by
  obtain ⟨_, hfind⟩ := h
  unfold verdict
  cases hfirst : p.terms.find? (fun t => t.1 = term.1) with
  | none =>
    rw [hfirst] at hfind
    cases hfind
  | some t =>
    rw [hfirst] at hfind
    have hne : t ≠ term := by simpa using hfind
    simp only [hne, if_false]

/-- The two agree on every other term. -/
theorem checkEvaluation_eq (p : ProductTerm) (term : RV) :
    p.checkEvaluation term = if p.Overlooked term then p.result else p.verdict term := by
  unfold checkEvaluation
  split
  · next t hterms =>
    have hnot : ¬p.Overlooked term := fun h => h.1 (by rw [hterms]; rfl)
    rw [if_neg hnot]
    unfold verdict
    rw [hterms]
    by_cases hread : t.1 = term.1
    · simp [hread]
    · have hne : t ≠ term := fun heq => hread (by rw [heq])
      simp [hread, hne]
  · next hterms =>
    have hlength : p.terms.length ≠ 1 := by
      intro h
      obtain ⟨t, ht⟩ := List.length_eq_one_iff.mp h
      exact hterms t ht
    have hover : p.Overlooked term ↔
        (p.terms.find? fun t => t.1 = term.1).any (· ≠ term) = true :=
      and_iff_right hlength
    unfold verdict
    simp only [hover]
    cases p.terms.find? (fun t => t.1 = term.1) with
    | none => rfl
    | some t =>
      by_cases heq : t = term
      · simp [heq, hlength]
      · simp [heq]

end ProductTerm

/-! ## Checking a formula -/

namespace SOPFormula

variable {f : SOPFormula} {v : Assignment} {r : IID} {x : Value} {term : RV}

theorem checkEvaluation_eq_false :
    f.checkEvaluation term = .false ↔ ∀ p ∈ f.terms, p.checkEvaluation term = .false := by
  unfold checkEvaluation
  simp only [List.mem_map]
  constructor
  · intro h p hp
    cases hcheck : p.checkEvaluation term with
    | false => rfl
    | true =>
      rw [if_pos ⟨p, hp, hcheck⟩] at h
      cases h
    | dependent =>
      split at h
      · cases h
      · rw [if_pos ⟨p, hp, hcheck⟩] at h
        cases h
  · intro h
    have hne : ∀ result : Result, result ≠ .false →
        ¬∃ p ∈ f.terms, p.checkEvaluation term = result := by
      intro result hresult ⟨p, hp, hcheck⟩
      exact hresult (hcheck.symm.trans (h p hp))
    rw [if_neg (hne .true (by decide)), if_neg (hne .dependent (by decide))]

/-- The result of `reduce`, from what the terms report. -/
theorem result_reduce (hf : f.result = .dependent) (term : RV) :
    ((f.reduce term).result = .true ↔ ∃ p ∈ f.terms, p.verdict term = .true) ∧
      ((f.reduce term).result = .false ↔ ∀ p ∈ f.terms, p.verdict term = .false) := by
  obtain ⟨r, x⟩ := term
  simp only [← ProductTerm.result_reduce]
  unfold SOPFormula.reduce
  rcases reduceLoop_spec (r, x) [] f.terms with ⟨hsome, hloop⟩ | ⟨hnone, hloop⟩
  · generalize reduceLoop (r, x) [] f.terms = loop at hloop
    obtain ⟨b, terms⟩ := loop
    dsimp only at hloop
    rw [hloop]
    obtain ⟨p, hp, htrue⟩ := hsome
    refine ⟨iff_of_true rfl ⟨p, hp, htrue⟩, iff_of_false nofun fun h => ?_⟩
    rw [h p hp] at htrue
    cases htrue
  · rw [hloop]
    simp only [hf, reduceCtorEq, if_false, List.nil_append]
    have hkept : (f.terms.map (·.reduce (r, x))).filter (fun p => p.result = .dependent) =
        [] ↔ ∀ p ∈ f.terms, (p.reduce (r, x)).result = .false := by
      simp only [List.filter_eq_nil_iff, List.mem_map, decide_eq_true_eq, forall_exists_index,
        and_imp, forall_apply_eq_imp_iff₂]
      refine forall₂_congr fun p hp => ⟨fun hdep => ?_, fun hfalse => by simp [hfalse]⟩
      by_contra hne
      exact hdep (Result.eq_dependent (hnone p hp) hne)
    have htrue : ¬∃ p ∈ f.terms, (p.reduce (r, x)).result = .true :=
      fun ⟨p, hp, h⟩ => hnone p hp h
    split
    · next hempty => exact ⟨iff_of_false nofun htrue, iff_of_true rfl (hkept.mp hempty)⟩
    · next hempty => exact ⟨iff_of_false nofun htrue, iff_of_false nofun fun h =>
        hempty (hkept.mpr h)⟩

/-- `check_evaluation` tells the result that `reduce` leaves. -/
def Foretells (f : SOPFormula) (term : RV) : Prop :=
  f.checkEvaluation term = (f.reduce term).result

instance (f : SOPFormula) (term : RV) : Decidable (f.Foretells term) :=
  inferInstanceAs (Decidable (_ = _))

/-- What `check_evaluation` misses makes no difference.  A `TRUE` formula has a
term that it takes for `TRUE`: the pair itself, or one recorded as such that is
no other pair of the read.  In a formula that is not constant, for each term
that it overlooks there is one that reports at least as much. -/
def NothingOverlooked (f : SOPFormula) (term : RV) : Prop :=
  (f.result = .true → ∃ p ∈ f.terms, p.terms = [term] ∨
    p.result = .true ∧ ∀ t, p.terms = [t] → t.1 ≠ term.1) ∧
  (f.result = .dependent → ∀ p ∈ f.terms, p.Overlooked term →
    (p.result = .true → ∃ q ∈ f.terms, q.verdict term = .true) ∧
    (p.result = .dependent → ∃ q ∈ f.terms, q.verdict term ≠ .false))

theorem checkEvaluation_term {p : ProductTerm} :
    p.checkEvaluation term = .true ↔ p.terms = [term] ∨
      p.result = .true ∧ ∀ t, p.terms = [t] → t.1 ≠ term.1 := by
  unfold ProductTerm.checkEvaluation
  split
  · next t hterms =>
    simp only [hterms, List.cons.injEq, and_true, forall_eq']
    by_cases heq : t = term
    · simp [heq]
    · by_cases hread : t.1 = term.1
      · simp [heq, hread]
      · simp [heq, hread]
  · next hterms =>
    constructor
    · exact fun h => .inr ⟨h, fun t ht => absurd ht (hterms t)⟩
    · exact fun h => h.elim (fun hpair => absurd hpair (hterms term)) (·.1)

theorem foretells_iff_of_dependent (hf : f.result = .dependent) :
    f.Foretells term ↔ f.NothingOverlooked term := by
  have hseen : ∀ p : ProductTerm, ¬p.Overlooked term →
      p.checkEvaluation term = p.verdict term := by
    intro p hover
    rw [p.checkEvaluation_eq, if_neg hover]
  have hmissed : ∀ p : ProductTerm, p.Overlooked term →
      p.checkEvaluation term = p.result := by
    intro p hover
    rw [p.checkEvaluation_eq, if_pos hover]
  obtain ⟨htrue, hfalse⟩ := result_reduce hf term
  unfold Foretells NothingOverlooked
  rw [Result.eq_iff, checkEvaluation_eq_true, checkEvaluation_eq_false, htrue, hfalse]
  simp only [hf, reduceCtorEq, false_implies, true_implies, true_and]
  constructor
  · intro ⟨hsome, hall⟩ p hp hover
    refine ⟨fun hresult => hsome.mp ⟨p, hp, (hmissed p hover).trans hresult⟩, fun hresult => ?_⟩
    by_contra hnone
    push Not at hnone
    have hcheck := hall.mpr hnone p hp
    rw [hmissed p hover, hresult] at hcheck
    cases hcheck
  · intro h
    refine ⟨⟨fun ⟨p, hp, hcheck⟩ => ?_, fun ⟨p, hp, hverdict⟩ => ⟨p, hp, ?_⟩⟩,
      fun hall p hp => ?_, fun hall p hp => ?_⟩
    · by_cases hover : p.Overlooked term
      · exact (h p hp hover).1 ((hmissed p hover).symm.trans hcheck)
      · exact ⟨p, hp, (hseen p hover).symm.trans hcheck⟩
    · have hover : ¬p.Overlooked term := by
        intro hover
        rw [ProductTerm.verdict_of_overlooked hover] at hverdict
        cases hverdict
      exact (hseen p hover).trans hverdict
    · by_cases hover : p.Overlooked term
      · exact ProductTerm.verdict_of_overlooked hover
      · exact (hseen p hover).symm.trans (hall p hp)
    · by_cases hover : p.Overlooked term
      · rw [hmissed p hover]
        cases hresult : p.result with
        | false => rfl
        | true =>
          obtain ⟨q, hq, hverdict⟩ := (h p hp hover).1 hresult
          rw [hall q hq] at hverdict
          cases hverdict
        | dependent =>
          obtain ⟨q, hq, hverdict⟩ := (h p hp hover).2 hresult
          exact absurd (hall q hq) hverdict
      · exact (hseen p hover).trans (hall p hp)

theorem verdict_ne_false_of_live {p : ProductTerm} (hp : p.Live) :
    p.verdict term ≠ .false ↔
      (p.terms.find? fun t => t.1 = term.1).all (· = term) = true := by
  unfold ProductTerm.verdict
  cases p.terms.find? (fun t => t.1 = term.1) with
  | none => simp [hp.1]
  | some t =>
    by_cases heq : t = term
    · by_cases hlength : p.terms.length = 1
      · simp [heq, hlength]
      · simp [heq, hlength, hp.1]
    · simp [heq]

theorem nothingOverlooked_iff_of_live (hlive : ∀ p ∈ f.terms, p.Live) :
    f.NothingOverlooked term ↔
      (f.result = .true → ∃ p ∈ f.terms, p.terms = [term]) ∧
      (f.result = .dependent → (∃ p ∈ f.terms, p.Overlooked term) →
        ∃ q ∈ f.terms, (q.terms.find? fun t => t.1 = term.1).all (· = term) = true) := by
  have hresult : ∀ p ∈ f.terms, p.result ≠ .true := by
    intro p hp h
    rw [(hlive p hp).1] at h
    cases h
  have hverdict : (∃ q ∈ f.terms, q.verdict term ≠ .false) ↔
      ∃ q ∈ f.terms, (q.terms.find? fun t => t.1 = term.1).all (· = term) = true :=
    exists_congr fun q => and_congr_right fun hq => verdict_ne_false_of_live (hlive q hq)
  unfold NothingOverlooked
  refine and_congr (imp_congr_right fun _ => ?_) (imp_congr_right fun _ => ?_)
  · refine exists_congr fun p => and_congr_right fun hp => ?_
    exact or_iff_left fun h => hresult p hp h.1
  · rw [← hverdict]
    constructor
    · intro h ⟨p, hp, hover⟩
      exact (h p hp hover).2 (hlive p hp).1
    · intro h p hp hover
      exact ⟨fun htrue => absurd htrue (hresult p hp), fun _ => h ⟨p, hp, hover⟩⟩

/-- `check_evaluation` tells the result of `reduce`, exactly if what it misses
makes no difference. -/
theorem foretells_iff (hf : f.Reachable) (term : RV) :
    (f.Foretells term ↔ f.NothingOverlooked term) ∧
      ((∀ p ∈ f.terms, p.Live) → (f.NothingOverlooked term ↔
        (f.result = .true → ∃ p ∈ f.terms, p.terms = [term]) ∧
        (f.result = .dependent → (∃ p ∈ f.terms, p.Overlooked term) →
          ∃ q ∈ f.terms,
            (q.terms.find? fun t => t.1 = term.1).all (· = term) = true))) := by
  refine ⟨?_, nothingOverlooked_iff_of_live⟩
  cases hresult : f.result with
  | dependent => exact foretells_iff_of_dependent hresult
  | true =>
    unfold Foretells NothingOverlooked
    rw [reduce_of_true hresult, checkEvaluation_eq_true]
    simp only [hresult, reduceCtorEq, false_implies, and_true, true_implies,
      checkEvaluation_term]
  | false =>
    unfold Foretells NothingOverlooked
    rw [reduce_of_false hf.wellFormed hresult]
    simp only [hresult, reduceCtorEq, false_implies, and_true, iff_true]
    exact checkEvaluation_eq_false.mpr fun p hp => by
      rw [hf.wellFormed.empty hresult] at hp
      cases hp

/-- A conjunction of two reads, or another value of the second one. -/
def twoReads : SOPFormula :=
  ((ofTerm (⟨0, 0⟩, 1)).conjRV (⟨1, 0⟩, 1)).disjRV (⟨1, 0⟩, 2)

theorem foretells_iff_twoReads :
    (∃ p ∈ twoReads.terms, p.Overlooked (⟨0, 0⟩, 2)) ∧ twoReads.Foretells (⟨0, 0⟩, 2) := by
  have hreachable : twoReads.Reachable := .disjRV _ (.conjRV _ (.ofTerm _))
  refine ⟨by decide, (foretells_iff hreachable (⟨0, 0⟩, 2)).1.mpr ⟨nofun, ?_⟩⟩
  intro _ p hp _
  have hlive : ∀ p ∈ twoReads.terms, p.result = .dependent := by decide
  refine ⟨fun htrue => ?_, fun _ => ?_⟩
  · rw [hlive p hp] at htrue
    cases htrue
  · exact ⟨.ofTerm (⟨1, 0⟩, 2), by decide, by decide⟩

/-- A formula that has become `TRUE` has no terms left, and a conjunction of two
reads is `FALSE` when the first has another value. -/
theorem not_foretells :
    ¬(∀ (f : SOPFormula) (term : RV), f.Reachable → f.result = .true → f.Foretells term) ∧
      ¬∀ (f : SOPFormula) (term : RV), f.Reachable → f.result = .dependent →
        f.Foretells term := by
  constructor
  · intro h
    exact absurd (h reducedToTrue (⟨0, 0⟩, 1) reachable_reducedToTrue (by decide)) (by decide)
  · intro h
    have hreachable : ((ofTerm (⟨0, 0⟩, 1)).conjRV (⟨1, 0⟩, 1)).Reachable :=
      .conjRV _ (.ofTerm _)
    exact absurd (h _ (⟨0, 0⟩, 2) hreachable (by decide)) (by decide)

end SOPFormula

/-! ## Evaluating a term -/

namespace ProductTerm

/-- The pairs of the other reads. -/
def without (p : ProductTerm) (r : IID) : List RV := p.terms.filter fun t => t.1 ≠ r

/-- The term has pairs, and all are pairs of the read. -/
def OnlyMentions (p : ProductTerm) (r : IID) : Prop := p.terms ≠ [] ∧ ∀ t ∈ p.terms, t.1 = r

instance (p : ProductTerm) (r : IID) : Decidable (p.OnlyMentions r) :=
  inferInstanceAs (Decidable (_ ∧ _))

/-- The loop takes every pair of the read for true, and ends at the last one of
a term that has no other pairs. -/
theorem evaluateLoop_spec (term : RV) (passed rest : List RV) :
    ((passed = [] ∧ rest ≠ [] ∧ ∀ t ∈ rest, t.1 = term.1) ∧
      (evaluateLoop term passed rest).2 = .true) ∨
    (¬(passed = [] ∧ rest ≠ [] ∧ ∀ t ∈ rest, t.1 = term.1) ∧
      evaluateLoop term passed rest =
        (⟨passed ++ rest.filter (fun t => t.1 ≠ term.1), .dependent⟩, .dependent)) := by
  induction rest generalizing passed with
  | nil => exact .inr ⟨fun h => h.2.1 rfl, by simp [evaluateLoop]⟩
  | cons t rest ih =>
    unfold evaluateLoop
    by_cases hread : t.1 = term.1
    · rw [if_neg (not_not.mpr hread)]
      by_cases hunit : passed.length + 1 + rest.length = 1
      · have hpassed : passed = [] := List.length_eq_zero_iff.mp (by omega)
        have hrest : rest = [] := List.length_eq_zero_iff.mp (by omega)
        rw [if_pos hunit]
        exact .inl ⟨⟨hpassed, List.cons_ne_nil _ _, by simp [hrest, hread]⟩, rfl⟩
      · rw [if_neg hunit]
        have hfilter : (t :: rest).filter (fun t => t.1 ≠ term.1) =
            rest.filter (fun t => t.1 ≠ term.1) := by simp [hread]
        have hgone : (passed = [] ∧ t :: rest ≠ [] ∧ ∀ t' ∈ t :: rest, t'.1 = term.1) ↔
            passed = [] ∧ rest ≠ [] ∧ ∀ t' ∈ rest, t'.1 = term.1 := by
          refine and_congr_right fun hpassed => ?_
          have hne : rest ≠ [] := by
            intro hrest
            rw [hpassed, hrest] at hunit
            exact hunit rfl
          simp [hne, hread]
        rw [hgone, hfilter]
        exact ih passed
    · rw [if_pos hread]
      have hnot : ¬(passed = [] ∧ t :: rest ≠ [] ∧ ∀ t' ∈ t :: rest, t'.1 = term.1) :=
        fun h => hread (h.2.2 t List.mem_cons_self)
      refine .inr ⟨hnot, ?_⟩
      rcases ih (passed ++ [t]) with ⟨⟨hnil, _⟩, _⟩ | ⟨_, hloop⟩
      · simp at hnil
      · rw [hloop]
        simp [hread]

/-- The result that a term reports when it is evaluated. -/
def outcome (p : ProductTerm) (r : IID) : Result :=
  if p.result = .dependent ∧ p.OnlyMentions r then .true else p.result

/-- What `evaluate` does with a term. -/
theorem evaluate_cases (p : ProductTerm) (r : IID) (x : Value) :
    (p.evaluate (r, x)).2 = p.outcome r ∧
      (p.outcome r = .dependent → (p.evaluate (r, x)).1 = ⟨p.without r, .dependent⟩) := by
  unfold evaluate outcome
  by_cases hresult : p.result = .dependent
  · rw [if_neg (not_not.mpr hresult)]
    rcases evaluateLoop_spec (r, x) [] p.terms with ⟨⟨_, honly⟩, hloop⟩ | ⟨hnot, hloop⟩
    · rw [if_pos ⟨hresult, honly⟩]
      exact ⟨hloop, nofun⟩
    · have honly : ¬p.OnlyMentions r := fun honly => hnot ⟨rfl, honly⟩
      rw [if_neg fun h => honly h.2, hloop]
      exact ⟨hresult.symm, fun _ => rfl⟩
  · rw [if_pos hresult, if_neg fun h => hresult h.1]
    exact ⟨rfl, fun h => absurd h hresult⟩

theorem result_of_verdict {p : ProductTerm} {term : RV} (h : p.verdict term = .dependent) :
    p.result = .dependent := by
  unfold verdict at h
  split at h
  · exact h
  · split at h
    · split at h
      · cases h
      · exact h
    · cases h

/-- With one pair of the read at most, `reduce` leaves the same pairs. -/
theorem terms_reduce {p : ProductTerm} {r : IID} {x : Value}
    (h : p.verdict (r, x) = .dependent) (honce : p.MentionsOnce r) :
    (p.reduce (r, x)).terms = p.without r := by
  have hgone := (forall_ne_reduce_iff (x := x) (by simp [h])).mpr honce
  have hkeep : ∀ l : List RV, (∀ t ∈ l, t.1 ≠ r) → l.filter (fun t => t.1 ≠ r) = l := by
    intro l hl
    exact List.filter_eq_self.mpr fun t ht => by simpa using hl t ht
  unfold without
  rcases reduce_cases p r x with ⟨hnone, hp⟩ | ⟨A, B, hterms, hA, hp⟩ | ⟨A, y, B, _, _, _, hp⟩
  · rw [hp, hkeep _ hnone]
  · rw [hp] at hgone ⊢
    rw [hterms, List.filter_append, List.filter_cons_of_neg (by simp), ← List.filter_append,
      hkeep _ hgone]
  · rw [← result_reduce, hp] at h
    cases h

end ProductTerm

/-! ## Evaluating a formula -/

namespace SOPFormula

variable {f : SOPFormula} {v : Assignment} {r : IID} {x : Value} {term : RV}

/-- The terms that `evaluate` leaves, when none reports `TRUE`. -/
def remaining (f : SOPFormula) (r : IID) : List ProductTerm :=
  (f.terms.filter fun p => p.outcome r = .dependent).map fun p => ⟨p.without r, .dependent⟩

theorem evaluateLoop_spec (r : IID) (x : Value) (passed rest : List ProductTerm) :
    ((∃ p ∈ rest, p.outcome r = .true) ∧ (evaluateLoop (r, x) passed rest).1 = true) ∨
    ((∀ p ∈ rest, p.outcome r ≠ .true) ∧
      evaluateLoop (r, x) passed rest = (false, passed ++
        (rest.filter fun p => p.outcome r = .dependent).map
          fun p => ⟨p.without r, .dependent⟩)) := by
  induction rest generalizing passed with
  | nil => exact .inr ⟨by simp, by simp [evaluateLoop]⟩
  | cons p rest ih =>
    obtain ⟨houtcome, hterm⟩ := p.evaluate_cases r x
    unfold evaluateLoop
    cases hp : p.outcome r with
    | true =>
      refine .inl ⟨⟨p, List.mem_cons_self, hp⟩, ?_⟩
      rw [hp] at houtcome
      generalize p.evaluate (r, x) = q at houtcome
      obtain ⟨p', result⟩ := q
      cases houtcome
      rfl
    | false =>
      rw [hp] at houtcome
      generalize p.evaluate (r, x) = q at houtcome
      obtain ⟨p', result⟩ := q
      cases houtcome
      rcases ih passed with ⟨⟨q, hq, h⟩, hloop⟩ | ⟨hnone, hloop⟩
      · exact .inl ⟨⟨q, List.mem_cons_of_mem p hq, h⟩, hloop⟩
      · refine .inr ⟨List.forall_mem_cons.mpr ⟨by simp [hp], hnone⟩, ?_⟩
        simp [hloop, hp]
    | dependent =>
      have hkept := hterm hp
      rw [hp] at houtcome
      generalize p.evaluate (r, x) = q at houtcome hkept
      obtain ⟨p', result⟩ := q
      cases houtcome
      dsimp only at hkept
      subst hkept
      rcases ih (passed ++ [⟨p.without r, .dependent⟩]) with ⟨⟨q, hq, h⟩, hloop⟩ | ⟨hnone, hloop⟩
      · exact .inl ⟨⟨q, List.mem_cons_of_mem p hq, h⟩, hloop⟩
      · refine .inr ⟨List.forall_mem_cons.mpr ⟨by simp [hp], hnone⟩, ?_⟩
        simp [hloop, hp]

theorem evaluate_spec (hf : f.result = .dependent) (r : IID) (x : Value) :
    ((∃ p ∈ f.terms, p.outcome r = .true) ∧ f.evaluate (r, x) = (⟨[], .true⟩, .true)) ∨
    ((∀ p ∈ f.terms, p.outcome r = .false) ∧
      f.evaluate (r, x) = (⟨[], .false⟩, .false)) ∨
    ((∀ p ∈ f.terms, p.outcome r ≠ .true) ∧ (∃ p ∈ f.terms, p.outcome r = .dependent) ∧
      f.evaluate (r, x) = (⟨f.remaining r, .dependent⟩, .dependent)) := by
  unfold SOPFormula.evaluate
  rw [if_neg (not_not.mpr hf)]
  rcases evaluateLoop_spec r x [] f.terms with ⟨hsome, hloop⟩ | ⟨hnone, hloop⟩
  · refine .inl ⟨hsome, ?_⟩
    generalize evaluateLoop (r, x) [] f.terms = loop at hloop
    obtain ⟨b, terms⟩ := loop
    dsimp only at hloop
    rw [hloop]
  · have hloop : evaluateLoop (r, x) [] f.terms = (false, f.remaining r) := hloop
    right
    rw [hloop]
    cases hremaining : f.remaining r with
    | nil =>
      refine .inl ⟨fun p hp => ?_, rfl⟩
      by_contra hne
      have hmem : (⟨p.without r, .dependent⟩ : ProductTerm) ∈ f.remaining r :=
        List.mem_map_of_mem (List.mem_filter.mpr ⟨hp, by
          simp [Result.eq_dependent (hnone p hp) hne]⟩)
      rw [hremaining] at hmem
      cases hmem
    | cons q qs =>
      have hmem : q ∈ f.remaining r := by
        rw [hremaining]
        exact List.mem_cons_self
      obtain ⟨p, hp, _⟩ := List.mem_map.mp hmem
      obtain ⟨hp, houtcome⟩ := List.mem_filter.mp hp
      refine .inr ⟨hnone, ⟨p, hp, by simpa using houtcome⟩, ?_⟩
      rw [hf]

theorem result_evaluate (hf : f.result = .dependent) :
    (f.evaluate (r, x)).1.result = (f.evaluate (r, x)).2 ∧
      ((f.evaluate (r, x)).2 = .true ↔ ∃ p ∈ f.terms, p.outcome r = .true) ∧
      ((f.evaluate (r, x)).2 = .false ↔ ∀ p ∈ f.terms, p.outcome r = .false) := by
  have hboth : ∀ p ∈ f.terms, ∀ result : Result, result ≠ .false → p.outcome r = result →
      ¬∀ p ∈ f.terms, p.outcome r = .false := by
    intro p hp result hresult houtcome hall
    exact hresult (houtcome.symm.trans (hall p hp))
  rcases evaluate_spec hf r x with ⟨⟨p, hp, htrue⟩, h⟩ | ⟨hall, h⟩ | ⟨hnone, ⟨p, hp, hdep⟩, h⟩
  · rw [h]
    exact ⟨rfl, iff_of_true rfl ⟨p, hp, htrue⟩,
      iff_of_false nofun (hboth p hp .true (by decide) htrue)⟩
  · rw [h]
    refine ⟨rfl, iff_of_false nofun fun ⟨p, hp, htrue⟩ => ?_, iff_of_true rfl hall⟩
    exact hboth p hp .true (by decide) htrue hall
  · rw [h]
    exact ⟨rfl, iff_of_false nofun fun ⟨p, hp, htrue⟩ => hnone p hp htrue,
      iff_of_false nofun (hboth p hp .dependent (by decide) hdep)⟩

theorem holds_evaluate (hf : f.result = .dependent)
    (hnone : ∀ p ∈ f.terms, p.outcome r ≠ .true) (v : Assignment) :
    (f.evaluate (r, x)).1.Holds v ↔
      ∃ p ∈ f.terms, p.outcome r = .dependent ∧ Sat v (p.without r) := by
  rcases evaluate_spec hf r x with ⟨⟨p, hp, htrue⟩, _⟩ | ⟨hall, h⟩ | ⟨_, _, h⟩
  · exact absurd htrue (hnone p hp)
  · rw [h]
    refine iff_of_false (not_holds_of_false rfl) fun ⟨p, hp, hdep, _⟩ => ?_
    rw [hall p hp] at hdep
    cases hdep
  · rw [h, holds_of_dependent rfl]
    unfold remaining ProductTerm.Holds
    simp only [List.mem_map, List.mem_filter, decide_eq_true_eq]
    constructor
    · intro ⟨q, ⟨p, ⟨hp, hdep⟩, heq⟩, hsat⟩
      rw [← heq] at hsat
      exact ⟨p, hp, hdep, hsat⟩
    · intro ⟨p, hp, hdep, hsat⟩
      exact ⟨_, ⟨p, ⟨hp, hdep⟩, rfl⟩, hsat⟩

/-- `evaluate` returns the result that `reduce` leaves, and leaves the same
result and terms that say the same; and the pair is grounded. -/
structure AgreesWithReduce (f : SOPFormula) (r : IID) (x : Value) : Prop where
  returned : (f.evaluate (r, x)).2 = (f.reduce (r, x)).result
  result : (f.evaluate (r, x)).1.result = (f.reduce (r, x)).result
  terms : ∀ v, (f.evaluate (r, x)).1.Holds v ↔ (f.reduce (r, x)).Holds v
  grounds : f.PartiallyEvaluates r x

/-- That `evaluate` takes every pair of the read for true makes no difference:
the terms report the same to the formula, and what the other pairs of a term say
that `reduce` drops is said by one that it keeps. -/
def EvaluatesAlike (f : SOPFormula) (r : IID) (x : Value) : Prop :=
  ((∃ p ∈ f.terms, p.outcome r = .true) ↔ ∃ p ∈ f.terms, p.verdict (r, x) = .true) ∧
  ((∀ p ∈ f.terms, p.outcome r = .false) ↔ ∀ p ∈ f.terms, p.verdict (r, x) = .false) ∧
  ((∀ p ∈ f.terms, p.outcome r ≠ .true) → ∀ p ∈ f.terms, p.outcome r = .dependent →
    p.verdict (r, x) = .false → ∀ v : Assignment, Sat v (p.without r) →
      ∃ q ∈ f.terms, q.verdict (r, x) = .dependent ∧ Sat v (q.without r))

/-- What `reduce` says, when it grounds the pair. -/
theorem holds_reduce_of_once (hf : f.result = .dependent)
    (hnone : ∀ p ∈ f.terms, p.verdict (r, x) ≠ .true)
    (honce : ∀ p ∈ f.terms, p.verdict (r, x) = .dependent → p.MentionsOnce r)
    (v : Assignment) :
    (f.reduce (r, x)).Holds v ↔
      ∃ p ∈ f.terms, p.verdict (r, x) = .dependent ∧ Sat v (p.without r) := by
  rcases reduce_spec hf r x with ⟨⟨p, hp, htrue⟩, _⟩ | ⟨_, _, hholds⟩
  · exact absurd htrue (hnone p hp)
  · rw [hholds]
    constructor
    · intro ⟨q, hq, hsat⟩
      obtain ⟨p, hp, hdep, rfl⟩ := mem_kept.mp hq
      unfold ProductTerm.Holds at hsat
      rw [ProductTerm.terms_reduce hdep (honce p hp hdep)] at hsat
      exact ⟨p, hp, hdep, hsat⟩
    · intro ⟨p, hp, hdep, hsat⟩
      refine ⟨_, mem_kept.mpr ⟨p, hp, hdep, rfl⟩, ?_⟩
      unfold ProductTerm.Holds
      rwa [ProductTerm.terms_reduce hdep (honce p hp hdep)]

/-- The terms that are left say the same. -/
theorem terms_agree_iff (hf : f.result = .dependent)
    (htrue : (∃ p ∈ f.terms, p.outcome r = .true) ↔ ∃ p ∈ f.terms, p.verdict (r, x) = .true)
    (hright : f.ReducesRight r x) :
    (∀ v, (f.evaluate (r, x)).1.Holds v ↔ (f.reduce (r, x)).Holds v) ↔
      ((∀ p ∈ f.terms, p.outcome r ≠ .true) → ∀ p ∈ f.terms, p.outcome r = .dependent →
        p.verdict (r, x) = .false → ∀ v : Assignment, Sat v (p.without r) →
          ∃ q ∈ f.terms, q.verdict (r, x) = .dependent ∧ Sat v (q.without r)) := by
  by_cases hsome : ∃ p ∈ f.terms, p.outcome r = .true
  · have hevaluate := (result_evaluate (r := r) (x := x) hf).2.1.mpr hsome
    have hsame := (result_evaluate (r := r) (x := x) hf).1
    have hreduce := (result_reduce hf (r, x)).1.mpr (htrue.mp hsome)
    refine iff_of_true (fun v => ?_) fun hnone => ?_
    · exact iff_of_true (holds_of_true (hsame.trans hevaluate)) (holds_of_true hreduce)
    · obtain ⟨p, hp, h⟩ := hsome
      exact absurd h (hnone p hp)
  · have hnone : ∀ p ∈ f.terms, p.outcome r ≠ .true := fun p hp h => hsome ⟨p, hp, h⟩
    have hverdict : ∀ p ∈ f.terms, p.verdict (r, x) ≠ .true :=
      fun p hp h => hsome (htrue.mpr ⟨p, hp, h⟩)
    have honce := (hright.2 hverdict).1
    -- a term that `reduce` keeps is kept by `evaluate`
    have hkept : ∀ p ∈ f.terms, p.verdict (r, x) = .dependent → p.outcome r = .dependent := by
      intro p hp hdep
      have hresult := ProductTerm.result_of_verdict hdep
      have hne := hnone p hp
      unfold ProductTerm.outcome at hne ⊢
      split at hne
      · exact absurd rfl hne
      · next hnot => rwa [if_neg hnot]
    simp only [holds_evaluate hf hnone, holds_reduce_of_once hf hverdict honce]
    constructor
    · intro h _ p hp hdep _ v hsat
      exact (h v).mp ⟨p, hp, hdep, hsat⟩
    · intro h v
      constructor
      · intro ⟨p, hp, hdep, hsat⟩
        cases hp' : p.verdict (r, x) with
        | true => exact absurd hp' (hverdict p hp)
        | false => exact h hnone p hp hdep hp' v hsat
        | dependent => exact ⟨p, hp, hp', hsat⟩
      · intro ⟨p, hp, hdep, hsat⟩
        exact ⟨p, hp, hkept p hp hdep, hsat⟩

theorem agreesWithReduce_iff_of_dependent (hf : f.result = .dependent) :
    f.AgreesWithReduce r x ↔ f.EvaluatesAlike r x ∧ f.ReducesRight r x := by
  obtain ⟨hsame, htrue, hfalse⟩ := result_evaluate (r := r) (x := x) hf
  obtain ⟨htrue', hfalse'⟩ := result_reduce hf (r, x)
  have hreturned : (f.evaluate (r, x)).2 = (f.reduce (r, x)).result ↔
      ((∃ p ∈ f.terms, p.outcome r = .true) ↔ ∃ p ∈ f.terms, p.verdict (r, x) = .true) ∧
      ((∀ p ∈ f.terms, p.outcome r = .false) ↔
        ∀ p ∈ f.terms, p.verdict (r, x) = .false) := by
    rw [Result.eq_iff, htrue, hfalse, htrue', hfalse']
  constructor
  · intro h
    have hright := (partiallyEvaluates_iff_of_dependent hf).mp h.grounds
    obtain ⟨hsome, hall⟩ := hreturned.mp h.returned
    exact ⟨⟨hsome, hall, (terms_agree_iff hf hsome hright).mp h.terms⟩, hright⟩
  · intro ⟨⟨hsome, hall, hsays⟩, hright⟩
    have heq := hreturned.mpr ⟨hsome, hall⟩
    exact ⟨heq, hsame.trans heq, (terms_agree_iff hf hsome hright).mpr hsays,
      (partiallyEvaluates_iff_of_dependent hf).mpr hright⟩

theorem outcome_of_live {p : ProductTerm} (hp : p.Live) :
    (p.outcome r = .true ↔ p.OnlyMentions r) ∧ p.outcome r ≠ .false := by
  unfold ProductTerm.outcome
  split
  · next h => exact ⟨iff_of_true rfl h.2, nofun⟩
  · next h =>
    rw [hp.1]
    exact ⟨iff_of_false nofun fun honly => h ⟨hp.1, honly⟩, nofun⟩

/-- With live terms only: a term is the pair itself, or none has only pairs of
the read, each that is kept has at most one, and what the other pairs of a
dropped one say is said by one that is kept. -/
theorem evaluatesAlike_iff_of_live (hlive : ∀ p ∈ f.terms, p.Live) :
    f.EvaluatesAlike r x ∧ f.ReducesRight r x ↔
      (∃ p ∈ f.terms, p.terms = [(r, x)]) ∨
      (∀ p ∈ f.terms, ¬p.OnlyMentions r) ∧
        (f.terms ≠ [] → ∃ p ∈ f.terms, p.verdict (r, x) = .dependent) ∧
        (∀ p ∈ f.terms, p.verdict (r, x) = .dependent → p.MentionsOnce r) ∧
        ∀ p ∈ f.terms, p.verdict (r, x) = .false → ∀ v : Assignment,
          Sat v (p.without r) →
            ∃ q ∈ f.terms, q.verdict (r, x) = .dependent ∧ Sat v (q.without r) := by
  have houtcome : (∃ p ∈ f.terms, p.outcome r = .true) ↔
      ∃ p ∈ f.terms, p.OnlyMentions r :=
    exists_congr fun p => and_congr_right fun hp => (outcome_of_live (hlive p hp)).1
  have hverdict : (∃ p ∈ f.terms, p.verdict (r, x) = .true) ↔
      ∃ p ∈ f.terms, p.terms = [(r, x)] :=
    exists_congr fun p => and_congr_right fun hp => (ProductTerm.verdict_of_live (hlive p hp)).1
  have hfalse : (∀ p ∈ f.terms, p.outcome r = .false) ↔ f.terms = [] := by
    constructor
    · intro h
      refine List.eq_nil_iff_forall_not_mem.mpr fun p hp => ?_
      exact (outcome_of_live (hlive p hp)).2 (h p hp)
    · intro h p hp
      rw [h] at hp
      cases hp
  rw [reducesRight_iff_of_live hlive]
  unfold EvaluatesAlike
  rw [houtcome, hverdict, hfalse]
  by_cases hsome : ∃ p ∈ f.terms, p.terms = [(r, x)]
  · obtain ⟨p, hp, hterms⟩ := hsome
    have honly : p.OnlyMentions r := by
      refine ⟨by rw [hterms]; nofun, fun t ht => ?_⟩
      rw [hterms] at ht
      rw [List.mem_singleton.mp ht]
    have hne : f.terms ≠ [] := List.ne_nil_of_mem hp
    have htrue : p.verdict (r, x) = .true :=
      (ProductTerm.verdict_of_live (hlive p hp)).1.mpr hterms
    refine iff_of_true ⟨⟨iff_of_true ⟨p, hp, honly⟩ ⟨p, hp, hterms⟩, iff_of_false hne ?_, ?_⟩,
      .inl ⟨p, hp, hterms⟩⟩ (.inl ⟨p, hp, hterms⟩)
    · intro hall
      rw [hall p hp] at htrue
      cases htrue
    · intro hnone
      exact absurd ((outcome_of_live (hlive p hp)).1.mpr honly) (hnone p hp)
  · have hnone : ∀ p ∈ f.terms, p.verdict (r, x) ≠ .true :=
      fun p hp h => hsome (hverdict.mp ⟨p, hp, h⟩)
    have hkept : (f.terms = [] ↔ ∀ p ∈ f.terms, p.verdict (r, x) = .false) ↔
        (f.terms ≠ [] → ∃ p ∈ f.terms, p.verdict (r, x) = .dependent) := by
      constructor
      · intro h hne
        by_contra hdep
        push Not at hdep
        refine hne (h.mpr fun p hp => ?_)
        by_contra hfalse
        exact hdep p hp (Result.eq_dependent (hnone p hp) hfalse)
      · intro h
        refine ⟨fun hnil p hp => ?_, fun hall => ?_⟩
        · rw [hnil] at hp
          cases hp
        · by_contra hne
          obtain ⟨p, hp, hdep⟩ := h hne
          rw [hall p hp] at hdep
          cases hdep
    simp only [hsome, iff_false, false_or, hkept]
    push Not
    constructor
    · intro ⟨⟨honly, hdep, hsays⟩, honce⟩
      refine ⟨honly, hdep, honce, fun p hp hdrop => ?_⟩
      have hquiet : ∀ p ∈ f.terms, p.outcome r ≠ .true :=
        fun p hp h => honly p hp ((outcome_of_live (hlive p hp)).1.mp h)
      have hkeep := Result.eq_dependent (hquiet p hp) (outcome_of_live (hlive p hp)).2
      exact hsays hquiet p hp hkeep hdrop
    · intro ⟨honly, hdep, honce, hsays⟩
      exact ⟨⟨honly, hdep, fun _ p hp _ hdrop => hsays p hp hdrop⟩, honce⟩

/-- `evaluate` agrees with `reduce`, exactly if the formula is constant already,
or what it takes for true makes no difference and `reduce` is right. -/
theorem agreesWithReduce_iff (hf : f.Reachable) (r : IID) (x : Value) :
    (f.AgreesWithReduce r x ↔
      (f.result = .dependent → f.EvaluatesAlike r x ∧ f.ReducesRight r x)) ∧
      ((∀ p ∈ f.terms, p.Live) → (f.EvaluatesAlike r x ∧ f.ReducesRight r x ↔
        (∃ p ∈ f.terms, p.terms = [(r, x)]) ∨
        (∀ p ∈ f.terms, ¬p.OnlyMentions r) ∧
          (f.terms ≠ [] → ∃ p ∈ f.terms, p.verdict (r, x) = .dependent) ∧
          (∀ p ∈ f.terms, p.verdict (r, x) = .dependent → p.MentionsOnce r) ∧
          ∀ p ∈ f.terms, p.verdict (r, x) = .false → ∀ v : Assignment,
            Sat v (p.without r) →
              ∃ q ∈ f.terms, q.verdict (r, x) = .dependent ∧ Sat v (q.without r))) := by
  refine ⟨?_, evaluatesAlike_iff_of_live⟩
  by_cases hresult : f.result = .dependent
  · rw [agreesWithReduce_iff_of_dependent hresult]
    exact ⟨fun h _ => h, fun h => h hresult⟩
  · have hevaluate : f.evaluate (r, x) = (f, f.result) := if_pos hresult
    refine iff_of_true ?_ fun h => absurd h hresult
    have hreduce : f.reduce (r, x) = ⟨[], f.result⟩ := by
      cases h : f.result with
      | true => exact reduce_of_true h _
      | false => exact reduce_of_false hf.wellFormed h _
      | dependent => exact absurd h hresult
    have hgrounds : f.PartiallyEvaluates r x :=
      (partiallyEvaluates_iff_reducesRight hf.wellFormed).mpr fun h => absurd h hresult
    refine ⟨?_, ?_, fun v => ?_, hgrounds⟩
    · rw [hevaluate, hreduce]
    · rw [hevaluate, hreduce]
    · rw [hevaluate, hreduce]
      unfold Holds
      simp [hresult]

theorem agreesWithReduce_iff_twoReads :
    (twoReads.evaluate (⟨0, 0⟩, 1)).2 = .dependent ∧ twoReads.AgreesWithReduce ⟨0, 0⟩ 1 := by
  have hreachable : twoReads.Reachable := .disjRV _ (.conjRV _ (.ofTerm _))
  have hlive : ∀ p ∈ twoReads.terms, p.Live := by
    unfold ProductTerm.Live
    decide
  obtain ⟨hiff, hiffLive⟩ := agreesWithReduce_iff hreachable ⟨0, 0⟩ 1
  refine ⟨by decide, hiff.mpr fun _ => (hiffLive hlive).mpr (.inr ⟨?_, ?_, ?_, ?_⟩)⟩
  · decide
  · exact fun _ => by decide
  · unfold ProductTerm.MentionsOnce
    decide
  · intro p hp hdrop
    have hnone : ∀ p ∈ twoReads.terms, p.verdict (⟨0, 0⟩, 1) ≠ .false := by decide
    exact absurd hdrop (hnone p hp)

/-- `evaluate` takes another value of the read for true. -/
theorem not_agreesWithReduce :
    ¬∀ (f : SOPFormula) (r : IID) (x : Value), f.Reachable → f.AgreesWithReduce r x := by
  intro h
  have hreturned := (h (ofTerm (⟨0, 0⟩, 1)) ⟨0, 0⟩ 2 (.ofTerm _)).returned
  exact absurd hreturned (by decide)

end SOPFormula

end ViEqui
