import ViEqui.Formula
import ViEqui.Lib.SumOfProducts

/-!
# What formulas say

The meaning of a forbidden formula under an assignment of values to reads, and
what the operators of `SOPFormula` do to it.

* `SOPFormula.Holds`: a formula is true under an assignment.
* `SOPFormula.Reachable`: the formulas that the operations build, with
  `WellFormed`, their invariant.
* `SOPFormula.holds_disj`, `SOPFormula.holds_conj`: the connectives.
* `connectives_iff`: which of them are logical.
-/

namespace ViEqui

open SumOfProducts

/-- The values that the reads have. -/
abbrev Assignment := IID → Value

instance : Nontrivial Value := ⟨0, 1, by decide⟩

theorem Result.eq_dependent {r : Result} (htrue : r ≠ .true) (hfalse : r ≠ .false) :
    r = .dependent := by
  cases r with
  | true => exact absurd rfl htrue
  | false => exact absurd rfl hfalse
  | dependent => rfl

/-! ## Product terms -/

namespace ProductTerm

/-- All pairs of the term are in the assignment. -/
def Holds (v : Assignment) (p : ProductTerm) : Prop := Sat v p.terms

@[simp] theorem holds_ofTerm {v : Assignment} {term : RV} :
    (ofTerm term).Holds v ↔ v term.1 = term.2 := by
  simp [Holds, ofTerm]

theorem mem_addTerm {p : ProductTerm} {term t : RV} :
    t ∈ (p.addTerm term).terms ↔ t ∈ p.terms ∨ t = term := by
  unfold addTerm has
  split
  · next h =>
    rw [decide_eq_true_eq] at h
    exact ⟨.inl, fun ht => ht.elim id fun ht => ht ▸ h⟩
  · simp

@[simp] theorem holds_addTerm {v : Assignment} {p : ProductTerm} {term : RV} :
    (p.addTerm term).Holds v ↔ p.Holds v ∧ v term.1 = term.2 := by
  have hmem : Sat v (p.addTerm term).terms ↔ Sat v (p.terms ++ [term]) :=
    sat_congr fun t => by simp [mem_addTerm]
  unfold Holds
  rw [hmem]
  simp

@[simp] theorem holds_conj {v : Assignment} {p q : ProductTerm} :
    (p.conj q).Holds v ↔ p.Holds v ∧ q.Holds v := by
  unfold conj
  have hfold (l : List RV) : ∀ p : ProductTerm,
      (l.foldl addTerm p).Holds v ↔ p.Holds v ∧ Sat v l := by
    induction l with
    | nil => simp
    | cons t l ih =>
      intro p
      rw [List.foldl_cons, ih, holds_addTerm, sat_cons, and_assoc]
  exact hfold q.terms p

/-- The product terms that the operations of `ProductTerm` build. -/
inductive Reachable : ProductTerm → Prop
  | new : Reachable {}
  | ofTerm (term : RV) : Reachable (ofTerm term)
  | addTerm {p : ProductTerm} (term : RV) : Reachable p → Reachable (p.addTerm term)
  | conj {p q : ProductTerm} : Reachable p → Reachable q → Reachable (p.conj q)
  | evaluate {p : ProductTerm} (term : RV) : Reachable p → Reachable (p.evaluate term).1
  | reduce {p : ProductTerm} (term : RV) : Reachable p → Reachable (p.reduce term)

theorem nodup_addTerm {p : ProductTerm} {term : RV} (hp : p.terms.Nodup) :
    (p.addTerm term).terms.Nodup := by
  unfold addTerm has
  split
  · exact hp
  · next h =>
    rw [decide_eq_true_eq] at h
    exact List.nodup_append.mpr ⟨hp, List.nodup_singleton term, fun a ha b hb hab =>
      h (List.mem_singleton.mp hb ▸ hab ▸ ha)⟩

theorem nodup_conj {p q : ProductTerm} (hp : p.terms.Nodup) : (p.conj q).terms.Nodup := by
  unfold conj
  generalize q.terms = l
  induction l generalizing p with
  | nil => exact hp
  | cons t l ih => exact ih (nodup_addTerm hp)

theorem sublist_evaluateLoop (term : RV) (passed rest : List RV) :
    (evaluateLoop term passed rest).1.terms.Sublist (passed ++ rest) := by
  induction rest generalizing passed with
  | nil => simp [evaluateLoop]
  | cons t rest ih =>
    unfold evaluateLoop
    split
    · simpa using ih (passed ++ [t])
    · split
      · exact List.Sublist.refl _
      · exact (ih passed).trans ((List.Sublist.refl passed).append (List.sublist_cons_self t rest))

theorem sublist_evaluate (p : ProductTerm) (term : RV) :
    (p.evaluate term).1.terms.Sublist p.terms := by
  unfold evaluate
  split
  · exact List.Sublist.refl _
  · exact sublist_evaluateLoop term [] p.terms

theorem sublist_reduceLoop (term : RV) (result : Result) (passed rest : List RV) :
    (reduceLoop term result passed rest).terms.Sublist (passed ++ rest) := by
  induction rest generalizing passed with
  | nil => simp [reduceLoop]
  | cons t rest ih =>
    unfold reduceLoop
    split
    · exact (List.Sublist.refl passed).append (List.sublist_cons_self t rest)
    · split
      · exact List.Sublist.refl _
      · simpa using ih (passed ++ [t])

theorem sublist_reduce (p : ProductTerm) (term : RV) :
    (p.reduce term).terms.Sublist p.terms := sublist_reduceLoop term p.result [] p.terms

/-- No operation adds a pair twice. -/
theorem Reachable.nodup {p : ProductTerm} (h : p.Reachable) : p.terms.Nodup := by
  induction h with
  | new => exact List.nodup_nil
  | ofTerm term => exact List.nodup_singleton term
  | addTerm term _ ih => exact nodup_addTerm ih
  | conj _ _ ih _ => exact nodup_conj ih
  | evaluate term _ ih => exact ih.sublist (sublist_evaluate _ term)
  | reduce term _ ih => exact ih.sublist (sublist_reduce _ term)

/-- Terms that `operator==` identifies mean the same. -/
theorem holds_of_same {v : Assignment} {p q : ProductTerm} (hp : p.terms.Nodup)
    (h : p.same q) : p.Holds v ↔ q.Holds v := by
  simp only [same, has, Bool.and_eq_true, decide_eq_true_eq, List.all_eq_true] at h
  exact sat_iff_of_subset hp h.1 h.2

end ProductTerm

/-! ## Formulas -/

namespace SOPFormula

/-- The formula is true under the assignment. -/
def Holds (v : Assignment) (f : SOPFormula) : Prop :=
  f.result = .true ∨ f.result = .dependent ∧ ∃ p ∈ f.terms, p.Holds v

/-- What the operations keep: a `FALSE` formula has no terms, and no term has a
pair twice. -/
structure WellFormed (f : SOPFormula) : Prop where
  empty : f.result = .false → f.terms = []
  nodup : ∀ p ∈ f.terms, p.terms.Nodup

section Operators

variable {v : Assignment} {f g : SOPFormula} {p : ProductTerm} {term : RV}

theorem holds_of_dependent (h : f.result = .dependent) :
    f.Holds v ↔ ∃ p ∈ f.terms, p.Holds v := by
  unfold Holds
  rw [h]
  simp

theorem holds_of_true (h : f.result = .true) : f.Holds v := .inl h

theorem not_holds_of_false (h : f.result = .false) : ¬f.Holds v := by
  unfold Holds
  rw [h]
  simp

/-! ### Disjunction -/

theorem WellFormed.disjTerm (hf : f.WellFormed) (hp : p.terms.Nodup) :
    (f.disjTerm p).WellFormed := by
  unfold SOPFormula.disjTerm
  split
  · exact hf
  · split
    · exact hf
    · refine ⟨fun h => (by cases h), fun q hq => ?_⟩
      rcases List.mem_append.mp hq with hq | hq
      · exact hf.nodup q hq
      · exact List.mem_singleton.mp hq ▸ hp

theorem holds_disjTerm (hf : f.WellFormed) :
    (f.disjTerm p).Holds v ↔ f.Holds v ∨ p.Holds v := by
  unfold SOPFormula.disjTerm
  split
  · next h => exact iff_of_true (.inl h) (.inl (.inl h))
  · next htrue =>
    have hterms (l : List ProductTerm) (hl : l = f.terms) :
        f.Holds v ↔ ∃ q ∈ l, q.Holds v := by
      subst hl
      cases hresult : f.result with
      | true => exact absurd hresult htrue
      | dependent => exact holds_of_dependent hresult
      | false => simp [not_holds_of_false hresult, hf.empty hresult]
    split
    · next h =>
      -- `p` is one of the terms already
      obtain ⟨q, hq, hsame⟩ := List.any_eq_true.mp h
      refine ⟨.inl, fun h => h.elim id fun hp => ?_⟩
      exact (hterms f.terms rfl).mpr
        ⟨q, hq, (ProductTerm.holds_of_same (hf.nodup q hq) hsame).mpr hp⟩
    · rw [hterms f.terms rfl, holds_of_dependent rfl]
      simp [or_and_right, exists_or]

theorem holds_disjRV (hf : f.WellFormed) :
    (f.disjRV term).Holds v ↔ f.Holds v ∨ v term.1 = term.2 := by
  rw [disjRV, holds_disjTerm hf, ProductTerm.holds_ofTerm]

theorem foldl_disjTerm {l : List ProductTerm} (hf : f.WellFormed)
    (hl : ∀ p ∈ l, p.terms.Nodup) :
    (l.foldl SOPFormula.disjTerm f).WellFormed ∧
      ((l.foldl SOPFormula.disjTerm f).Holds v ↔ f.Holds v ∨ ∃ p ∈ l, p.Holds v) := by
  induction l generalizing f with
  | nil => exact ⟨hf, by simp⟩
  | cons p l ih =>
    obtain ⟨hp, hl⟩ := List.forall_mem_cons.mp hl
    obtain ⟨hwf, hholds⟩ := ih (hf.disjTerm hp) hl
    refine ⟨hwf, hholds.trans ?_⟩
    rw [holds_disjTerm hf, or_assoc]
    simp

theorem WellFormed.disj (hf : f.WellFormed) (hg : g.WellFormed) : (f.disj g).WellFormed := by
  unfold SOPFormula.disj
  split
  · exact hf
  · split
    · exact ⟨fun _ => rfl, by simp⟩
    · split
      · exact hg
      · exact (foldl_disjTerm (v := fun _ => 0) hf hg.nodup).1

theorem holds_disj (hf : f.WellFormed) (hg : g.WellFormed) :
    (f.disj g).Holds v ↔ f.Holds v ∨ g.Holds v := by
  unfold SOPFormula.disj
  split
  · next h =>
    rcases h with h | h
    · exact iff_of_true (.inl h) (.inl (.inl h))
    · simp [not_holds_of_false h]
  · next h =>
    obtain ⟨-, hgfalse⟩ := not_or.mp h
    split
    · next hg => exact iff_of_true (.inl rfl) (.inr (.inl hg))
    · next hgtrue =>
      split
      · next hf => simp [not_holds_of_false hf]
      · rw [holds_of_dependent (Result.eq_dependent hgtrue hgfalse)]
        exact (foldl_disjTerm hf hg.nodup).2

/-! ### Conjunction -/

theorem WellFormed.conjTerm (hf : f.WellFormed) (hp : p.terms.Nodup) :
    (f.conjTerm p).WellFormed := by
  unfold SOPFormula.conjTerm
  split
  · exact hf
  · next hfalse =>
    split
    · refine ⟨fun h => absurd h hfalse, fun q hq => ?_⟩
      rcases List.mem_append.mp hq with hq | hq
      · exact hf.nodup q hq
      · exact List.mem_singleton.mp hq ▸ hp
    · refine ⟨fun h => absurd h hfalse, fun q hq => ?_⟩
      obtain ⟨q', hq', rfl⟩ := List.mem_map.mp hq
      exact ProductTerm.nodup_conj (hf.nodup q' hq')

theorem WellFormed.conjRV (hf : f.WellFormed) : (f.conjRV term).WellFormed := by
  unfold SOPFormula.conjRV
  split
  · exact hf
  · next hfalse =>
    split
    · refine ⟨fun h => absurd h hfalse, fun q hq => ?_⟩
      rcases List.mem_append.mp hq with hq | hq
      · exact hf.nodup q hq
      · rw [List.mem_singleton.mp hq]
        exact List.nodup_singleton term
    · refine ⟨fun h => absurd h hfalse, fun q hq => ?_⟩
      obtain ⟨q', hq', rfl⟩ := List.mem_map.mp hq
      exact ProductTerm.nodup_addTerm (hf.nodup q' hq')

theorem result_conjTerm : (f.conjTerm p).result = f.result := by
  unfold SOPFormula.conjTerm
  split
  · rfl
  · split <;> rfl

/-- Conjunction with a product term, on a formula that is not `TRUE`. -/
theorem holds_conjTerm (h : f.result ≠ .true) :
    (f.conjTerm p).Holds v ↔ f.Holds v ∧ p.Holds v := by
  unfold SOPFormula.conjTerm
  split
  · next hfalse => simp [not_holds_of_false hfalse]
  · next hfalse =>
    have hdep : f.result = .dependent := Result.eq_dependent h hfalse
    have hmap : (⟨f.terms.map (·.conj p), f.result⟩ : SOPFormula).Holds v ↔
        ∃ q ∈ f.terms.map (·.conj p), q.Holds v := holds_of_dependent hdep
    rw [hmap, holds_of_dependent hdep]
    simp only [List.mem_map, exists_exists_and_eq_and, ProductTerm.holds_conj]
    constructor
    · intro ⟨q, hq, hholds, hp⟩
      exact ⟨⟨q, hq, hholds⟩, hp⟩
    · intro ⟨⟨q, hq, hholds⟩, hp⟩
      exact ⟨q, hq, hholds, hp⟩

/-- A `TRUE` formula stays `TRUE`. -/
theorem holds_conjTerm_of_true (h : f.result = .true) : (f.conjTerm p).Holds v :=
  .inl (result_conjTerm.trans h)

theorem result_conjRV : (f.conjRV term).result = f.result := by
  unfold SOPFormula.conjRV
  split
  · rfl
  · split <;> rfl

theorem holds_conjRV (h : f.result ≠ .true) :
    (f.conjRV term).Holds v ↔ f.Holds v ∧ v term.1 = term.2 := by
  unfold SOPFormula.conjRV
  split
  · next hfalse => simp [not_holds_of_false hfalse]
  · next hfalse =>
    have hdep : f.result = .dependent := Result.eq_dependent h hfalse
    have hmap : (⟨f.terms.map (·.addTerm term), f.result⟩ : SOPFormula).Holds v ↔
        ∃ q ∈ f.terms.map (·.addTerm term), q.Holds v := holds_of_dependent hdep
    rw [hmap, holds_of_dependent hdep]
    simp only [List.mem_map, exists_exists_and_eq_and, ProductTerm.holds_addTerm]
    constructor
    · intro ⟨q, hq, hholds, hp⟩
      exact ⟨⟨q, hq, hholds⟩, hp⟩
    · intro ⟨⟨q, hq, hholds⟩, hp⟩
      exact ⟨q, hq, hholds, hp⟩

/-- The loop of the conjunction with a formula, over the rest of its terms. -/
theorem foldl_conjTerm {l : List ProductTerm} {h : SOPFormula} (hf : f.WellFormed)
    (hresult : f.result ≠ .true) (hh : h.WellFormed) (hl : ∀ p ∈ l, p.terms.Nodup) :
    (l.foldl (fun h q => h.disj (f.conjTerm q)) h).WellFormed ∧
      ((l.foldl (fun h q => h.disj (f.conjTerm q)) h).Holds v ↔
        h.Holds v ∨ f.Holds v ∧ ∃ p ∈ l, p.Holds v) := by
  induction l generalizing h with
  | nil => exact ⟨hh, by simp⟩
  | cons p l ih =>
    obtain ⟨hp, hl⟩ := List.forall_mem_cons.mp hl
    have hterm := hf.conjTerm hp
    obtain ⟨hwf, hholds⟩ := ih (hh.disj hterm) hl
    refine ⟨hwf, hholds.trans ?_⟩
    rw [holds_disj hh hterm, holds_conjTerm hresult, or_assoc]
    simp only [List.mem_cons, exists_eq_or_imp]
    tauto

/-- The conjunction with a formula does not dereference `end()`. -/
def ConjDefined (f g : SOPFormula) : Prop :=
  ¬(f.result = .dependent ∧ g.result = .dependent ∧ g.terms = [])

theorem conj_spec (hf : f.WellFormed) (hg : g.WellFormed) (hdef : ConjDefined f g) :
    (f.conj g).WellFormed ∧ ((f.conj g).Holds v ↔ f.Holds v ∧ g.Holds v) := by
  unfold SOPFormula.conj
  split
  · next h => exact ⟨hf, by simp [holds_of_true h]⟩
  · next hgtrue =>
    split
    · next h => exact ⟨hf, by simp [not_holds_of_false h]⟩
    · next hffalse =>
      split
      · next h =>
        refine ⟨⟨fun _ => rfl, by simp⟩, iff_of_false (not_holds_of_false rfl) fun hfg => ?_⟩
        exact not_holds_of_false h hfg.2
      · next hgfalse =>
        have hgdep : g.result = .dependent := Result.eq_dependent hgtrue hgfalse
        split
        · next h => exact ⟨hg, by simp [holds_of_true h]⟩
        · next hftrue =>
          have hfdep : f.result = .dependent := Result.eq_dependent hftrue hffalse
          have hnodup := hg.nodup
          rw [holds_of_dependent hgdep]
          cases hterms : g.terms with
          | nil => exact absurd ⟨hfdep, hgdep, hterms⟩ hdef
          | cons p rest =>
            rw [hterms] at hnodup
            obtain ⟨hp, hrest⟩ := List.forall_mem_cons.mp hnodup
            obtain ⟨hwf, hholds⟩ := foldl_conjTerm hf hftrue (hf.conjTerm hp) hrest
            refine ⟨hwf, hholds.trans ?_⟩
            rw [holds_conjTerm hftrue]
            simp only [List.mem_cons, exists_eq_or_imp]
            tauto

theorem WellFormed.conj (hf : f.WellFormed) (hg : g.WellFormed) : (f.conj g).WellFormed := by
  by_cases hdef : ConjDefined f g
  · exact (conj_spec (v := fun _ => 0) hf hg hdef).1
  · obtain ⟨hfdep, hgdep, hterms⟩ := not_not.mp hdef
    have hconj : f.conj g = f := by
      unfold SOPFormula.conj
      simp [hfdep, hgdep, hterms]
    rw [hconj]
    exact hf

end Operators

/-! ## Evaluation at one pair -/

theorem checkEvaluation_ofTerm {t t' : RV} :
    (ProductTerm.ofTerm t).checkEvaluation t' = .true ↔ t = t' := by
  unfold ProductTerm.checkEvaluation ProductTerm.ofTerm
  by_cases h : t = t'
  · simp [h]
  · by_cases hread : t.1 = t'.1 <;> simp [h, hread]

theorem checkEvaluation_eq_true {f : SOPFormula} {term : RV} :
    f.checkEvaluation term = .true ↔
      ∃ p ∈ f.terms, p.checkEvaluation term = .true := by
  unfold checkEvaluation
  simp only
  split
  · next h => simpa using h
  · next h =>
    have hnone : ¬∃ p ∈ f.terms, p.checkEvaluation term = .true := by simpa using h
    simp only [hnone, iff_false]
    split <;> simp

theorem result_disjRV {f : SOPFormula} (term : RV) (hf : f.result ≠ .true) :
    (f.disjRV term).result ≠ .true := by
  unfold disjRV disjTerm
  rw [if_neg hf]
  split
  · exact hf
  · simp

/-- A formula with one more pair. -/
theorem checkEvaluation_disjRV {f : SOPFormula} {t t' : RV} (hf : f.result ≠ .true) :
    (f.disjRV t).checkEvaluation t' = .true ↔ f.checkEvaluation t' = .true ∨ t = t' := by
  unfold disjRV disjTerm
  rw [if_neg hf]
  split
  · next hhas =>
    -- the formula has the pair already
    obtain ⟨p, hp, hsame⟩ := List.any_eq_true.mp hhas
    have hterms : p.terms = [t] := by
      rw [ProductTerm.same, Bool.and_eq_true] at hsame
      obtain ⟨hlength, hall⟩ := hsame
      obtain ⟨x, hx⟩ := List.length_eq_one_iff.mp (of_decide_eq_true hlength)
      rw [hx] at hall ⊢
      simpa [ProductTerm.has, ProductTerm.ofTerm] using hall
    have hpair : t = t' → f.checkEvaluation t' = .true := by
      intro heq
      refine checkEvaluation_eq_true.mpr ⟨p, hp, ?_⟩
      simp [ProductTerm.checkEvaluation, hterms, heq]
    exact ⟨.inl, fun h => h.elim id hpair⟩
  · rw [checkEvaluation_eq_true, checkEvaluation_eq_true]
    simp only [List.mem_append, List.mem_singleton, or_and_right, exists_or,
      exists_eq_left, checkEvaluation_ofTerm]

/-! ## Reachable formulas -/

/-- The formulas that the public operations build. -/
inductive Reachable : SOPFormula → Prop
  | new : Reachable {}
  | ofTerm (term : RV) : Reachable (ofTerm term)
  | disj {f g : SOPFormula} : Reachable f → Reachable g → Reachable (f.disj g)
  | disjTerm {f : SOPFormula} {p : ProductTerm} :
      Reachable f → p.Reachable → Reachable (f.disjTerm p)
  | disjRV {f : SOPFormula} (term : RV) : Reachable f → Reachable (f.disjRV term)
  | conj {f g : SOPFormula} :
      Reachable f → Reachable g → ConjDefined f g → Reachable (f.conj g)
  | conjTerm {f : SOPFormula} {p : ProductTerm} :
      Reachable f → p.Reachable → Reachable (f.conjTerm p)
  | conjRV {f : SOPFormula} (term : RV) : Reachable f → Reachable (f.conjRV term)
  | evaluate {f : SOPFormula} (term : RV) : Reachable f → Reachable (f.evaluate term).1
  | reduce {f : SOPFormula} (term : RV) : Reachable f → Reachable (f.reduce term)
  | removeTermsOfTerm {f : SOPFormula} (term : RV) :
      Reachable f → Reachable (f.removeTermsOfTerm term)

theorem mem_evaluateLoop {term : RV} {passed rest terms : List ProductTerm} {b : Bool}
    (h : evaluateLoop term passed rest = (b, terms)) {p : ProductTerm} (hp : p ∈ terms) :
    p ∈ passed ∨ ∃ q ∈ rest, p = (q.evaluate term).1 := by
  induction rest generalizing passed with
  | nil =>
    cases h
    exact .inl hp
  | cons q rest ih =>
    unfold evaluateLoop at h
    have hrest (h : ∃ q' ∈ rest, p = (q'.evaluate term).1) :
        ∃ q' ∈ q :: rest, p = (q'.evaluate term).1 := by
      obtain ⟨q', hq', heq⟩ := h
      exact ⟨q', List.mem_cons_of_mem q hq', heq⟩
    split at h
    · cases h
      cases hp
    · exact (ih h).imp id hrest
    · next p' heq =>
      rcases ih h with hp | hp
      · rcases List.mem_append.mp hp with hp | hp
        · exact .inl hp
        · refine .inr ⟨q, List.mem_cons_self, ?_⟩
          rw [heq]
          exact List.mem_singleton.mp hp
      · exact .inr (hrest hp)

theorem mem_reduceLoop {term : RV} {passed rest terms : List ProductTerm} {b : Bool}
    (h : reduceLoop term passed rest = (b, terms)) {p : ProductTerm} (hp : p ∈ terms) :
    p ∈ passed ∨ p ∈ rest ∨ ∃ q ∈ rest, p = q.reduce term := by
  induction rest generalizing passed with
  | nil =>
    cases h
    exact .inl hp
  | cons q rest ih =>
    unfold reduceLoop at h
    dsimp only at h
    have hrest (h : p ∈ rest ∨ ∃ q' ∈ rest, p = q'.reduce term) :
        p ∈ q :: rest ∨ ∃ q' ∈ q :: rest, p = q'.reduce term := by
      rcases h with h | ⟨q', hq', heq⟩
      · exact .inl (List.mem_cons_of_mem q h)
      · exact .inr ⟨q', List.mem_cons_of_mem q hq', heq⟩
    split at h
    · cases h
      rcases List.mem_append.mp hp with hp | hp
      · exact .inl hp
      · rcases List.mem_cons.mp hp with hp | hp
        · exact .inr (.inr ⟨q, List.mem_cons_self, hp⟩)
        · exact .inr (.inl (List.mem_cons_of_mem q hp))
    · exact (ih h).imp id hrest
    · rcases ih h with hp | hp
      · rcases List.mem_append.mp hp with hp | hp
        · exact .inl hp
        · exact .inr (.inr ⟨q, List.mem_cons_self, List.mem_singleton.mp hp⟩)
      · exact .inr (hrest hp)

theorem WellFormed.evaluate {f : SOPFormula} (hf : f.WellFormed) (term : RV) :
    (f.evaluate term).1.WellFormed := by
  unfold SOPFormula.evaluate
  split
  · exact hf
  · next hdep =>
    have hresult : f.result = .dependent := by simpa using hdep
    split
    · exact ⟨fun h => (by cases h), by simp⟩
    · exact ⟨fun _ => rfl, by simp⟩
    · next terms hloop =>
      refine ⟨fun h => ?_, fun p hp => ?_⟩
      · dsimp only at h
        rw [hresult] at h
        cases h
      · rcases mem_evaluateLoop hloop hp with hp | ⟨q, hq, rfl⟩
        · cases hp
        · exact (hf.nodup q hq).sublist (ProductTerm.sublist_evaluate q term)

theorem WellFormed.reduce {f : SOPFormula} (hf : f.WellFormed) (term : RV) :
    (f.reduce term).WellFormed := by
  unfold SOPFormula.reduce
  split
  · exact ⟨fun h => (by cases h), by simp⟩
  · next terms hloop =>
    split
    · exact ⟨fun h => (by cases h), by simp⟩
    · split
      · exact ⟨fun _ => rfl, by simp⟩
      · next hne =>
        refine ⟨fun h => ?_, fun p hp => ?_⟩
        · -- a `FALSE` formula has no terms that could remain
          dsimp only at h ⊢
          rw [hf.empty h, reduceLoop] at hloop
          cases hloop
          rfl
        · rcases mem_reduceLoop hloop hp with hp | hp | ⟨q, hq, rfl⟩
          · cases hp
          · exact hf.nodup p hp
          · exact (hf.nodup q hq).sublist (ProductTerm.sublist_reduce q term)

theorem WellFormed.removeTermsOfTerm {f : SOPFormula} (hf : f.WellFormed) (term : RV) :
    (f.removeTermsOfTerm term).WellFormed := by
  unfold SOPFormula.removeTermsOfTerm
  refine ⟨fun h => ?_, fun p hp => hf.nodup p (List.mem_of_mem_filter hp)⟩
  dsimp only at h ⊢
  rw [hf.empty h, List.filter_nil]

theorem Reachable.wellFormed {f : SOPFormula} (h : f.Reachable) : f.WellFormed := by
  induction h with
  | new => exact ⟨fun _ => rfl, by simp⟩
  | ofTerm term =>
    refine ⟨fun h => (by cases h), fun p hp => ?_⟩
    rw [List.mem_singleton.mp hp]
    exact List.nodup_singleton term
  | disj _ _ hf hg => exact hf.disj hg
  | disjTerm _ hp hf => exact hf.disjTerm hp.nodup
  | disjRV term _ hf => exact hf.disjTerm (List.nodup_singleton term)
  | conj _ _ hdef hf hg => exact (conj_spec (v := fun _ => 0) hf hg hdef).1
  | conjTerm _ hp hf => exact hf.conjTerm hp.nodup
  | conjRV term _ hf => exact hf.conjRV
  | evaluate term _ hf => exact hf.evaluate term
  | reduce term _ hf => exact hf.reduce term
  | removeTermsOfTerm term _ hf => exact hf.removeTermsOfTerm term

/-! ## The connectives -/

/-- Conjunction with a product term is logical unless the formula is `TRUE`,
since then it stays so. -/
theorem holds_conjTerm_iff {f : SOPFormula} {p : ProductTerm} :
    (∀ v, (f.conjTerm p).Holds v ↔ f.Holds v ∧ p.Holds v) ↔
      f.result ≠ .true ∨ p.terms = [] := by
  by_cases htrue : f.result = .true
  · simp only [htrue, ne_eq, not_true_eq_false, false_or]
    constructor
    · intro h
      by_contra hne
      obtain ⟨v, hv⟩ := exists_not_sat hne
      exact hv ((h v).mp (holds_conjTerm_of_true htrue)).2
    · intro h v
      refine iff_of_true (holds_conjTerm_of_true htrue) ⟨.inl htrue, ?_⟩
      rw [ProductTerm.Holds, h]
      exact sat_nil
  · exact iff_of_true (fun _ => holds_conjTerm htrue) (.inl htrue)

theorem holds_conjRV_iff {f : SOPFormula} {term : RV} :
    (∀ v, (f.conjRV term).Holds v ↔ f.Holds v ∧ v term.1 = term.2) ↔ f.result ≠ .true := by
  constructor
  · intro h htrue
    obtain ⟨y, hy⟩ := exists_ne term.2
    exact hy ((h fun _ => y).mp (.inl (result_conjRV.trans htrue))).2
  · exact fun h _ => holds_conjRV h

/-- The connectives of reachable formulas are logical, except for conjunction
of a `TRUE` formula with a product term or a pair, and where conjunction with
a formula is undefined. -/
theorem connectives_iff {f g : SOPFormula} {p : ProductTerm} {term : RV} (hf : f.Reachable)
    (hg : g.Reachable) :
    ((∀ v, (f.disj g).Holds v ↔ f.Holds v ∨ g.Holds v) ∧
      (∀ v, (f.disjTerm p).Holds v ↔ f.Holds v ∨ p.Holds v) ∧
      (∀ v, (f.disjRV term).Holds v ↔ f.Holds v ∨ v term.1 = term.2)) ∧
    ((ConjDefined f g ∧ ∀ v, (f.conj g).Holds v ↔ f.Holds v ∧ g.Holds v) ↔
      ¬(f.result = .dependent ∧ g.result = .dependent ∧ g.terms = [])) ∧
    ((∀ v, (f.conjTerm p).Holds v ↔ f.Holds v ∧ p.Holds v) ↔
      f.result ≠ .true ∨ p.terms = []) ∧
    ((∀ v, (f.conjRV term).Holds v ↔ f.Holds v ∧ v term.1 = term.2) ↔
      f.result ≠ .true) := by
  have hf := hf.wellFormed
  have hg := hg.wellFormed
  refine ⟨⟨fun _ => holds_disj hf hg, fun _ => holds_disjTerm hf, fun _ => holds_disjRV hf⟩, ?_,
    holds_conjTerm_iff, holds_conjRV_iff⟩
  exact ⟨fun h => h.1, fun h => ⟨h, fun _ => (conj_spec hf hg h).2⟩⟩

/-- A formula that has become `TRUE`. -/
def reducedToTrue : SOPFormula := (ofTerm (⟨0, 0⟩, 1)).reduce (⟨0, 0⟩, 1)

theorem reachable_reducedToTrue : reducedToTrue.Reachable := .reduce _ (.ofTerm _)

theorem connectives_iff_reducedToTrue :
    ((∀ v, (reducedToTrue.disj reducedToTrue).Holds v ↔
        reducedToTrue.Holds v ∨ reducedToTrue.Holds v) ∧
      (∀ v, (reducedToTrue.disjTerm (.ofTerm (⟨1, 0⟩, 5))).Holds v ↔
        reducedToTrue.Holds v ∨ (ProductTerm.ofTerm (⟨1, 0⟩, 5)).Holds v) ∧
      (∀ v, (reducedToTrue.disjRV (⟨1, 0⟩, 5)).Holds v ↔
        reducedToTrue.Holds v ∨ v ⟨1, 0⟩ = 5)) ∧
    ((ConjDefined reducedToTrue reducedToTrue ∧
        ∀ v, (reducedToTrue.conj reducedToTrue).Holds v ↔
          reducedToTrue.Holds v ∧ reducedToTrue.Holds v) ↔
      ¬(reducedToTrue.result = .dependent ∧ reducedToTrue.result = .dependent ∧
        reducedToTrue.terms = [])) ∧
    ((∀ v, (reducedToTrue.conjTerm (.ofTerm (⟨1, 0⟩, 5))).Holds v ↔
        reducedToTrue.Holds v ∧ (ProductTerm.ofTerm (⟨1, 0⟩, 5)).Holds v) ↔
      reducedToTrue.result ≠ .true ∨ (ProductTerm.ofTerm (⟨1, 0⟩, 5)).terms = []) ∧
    ((∀ v, (reducedToTrue.conjRV (⟨1, 0⟩, 5)).Holds v ↔
        reducedToTrue.Holds v ∧ v ⟨1, 0⟩ = 5) ↔
      reducedToTrue.result ≠ .true) :=
  connectives_iff reachable_reducedToTrue reachable_reducedToTrue

/-- The conjunction of `TRUE` with a pair is `TRUE`, whatever the read has. -/
theorem not_connectives :
    ¬∀ (f g : SOPFormula) (p : ProductTerm) (term : RV), f.Reachable → g.Reachable →
      p.Reachable → ∀ v : Assignment,
        ((f.disj g).Holds v ↔ f.Holds v ∨ g.Holds v) ∧
        ((f.disjTerm p).Holds v ↔ f.Holds v ∨ p.Holds v) ∧
        ((f.disjRV term).Holds v ↔ f.Holds v ∨ v term.1 = term.2) ∧
        ((f.conj g).Holds v ↔ f.Holds v ∧ g.Holds v) ∧
        ((f.conjTerm p).Holds v ↔ f.Holds v ∧ p.Holds v) ∧
        ((f.conjRV term).Holds v ↔ f.Holds v ∧ v term.1 = term.2) := by
  intro h
  obtain ⟨-, -, -, -, -, hconj⟩ := h reducedToTrue reducedToTrue {} (⟨1, 0⟩, 5)
    reachable_reducedToTrue reachable_reducedToTrue .new (fun _ => 0)
  have htrue : (reducedToTrue.conjRV (⟨1, 0⟩, 5)).Holds fun _ => 0 := .inl (by decide)
  exact absurd (hconj.mp htrue).2 (by decide)

end SOPFormula

end ViEqui
