import ViEqui.Union
import ViEqui.FormulaSemantics

/-!
# The formulas of the prefix analysis

`prefix_analysis` adds a lead for every read-write pair of the lead `l1` that
can be turned round.  The formula of the new lead is to be the conjunction of
the two leads' formulas, with the value that the read has in `l1` excluded.

* `SOPFormula.SaysAs.disjRV`: a formula that covers a pair already does not
  change when the pair is added.
* `prefixAnalysis_eq`: the double loop as one loop over the pairs, which
  remembers the pair that a lead is added for.
* `prefixSteps_excludes_iff`: the loop carries the formula along, so that its
  leads are right as long as it does not change.
* `prefixAnalysis_excludes_iff`: when the leads of a call are right.
-/

namespace ViEqui

/-! ## Formulas that say the same -/

namespace SOPFormula

/-- The two formulas say the same, and evaluate the same pairs to `TRUE`. -/
structure SaysAs (f g : SOPFormula) : Prop where
  wellFormed : f.WellFormed
  holds : ∀ v, f.Holds v ↔ g.Holds v
  evaluates : ∀ t, f.checkEvaluation t = .true ↔ g.checkEvaluation t = .true

/-- The formula evaluates to `TRUE` under the pair, and is true wherever the
read has the value. -/
def Covers (f : SOPFormula) (t : RV) : Prop :=
  f.checkEvaluation t = .true ∧ ∀ v : Assignment, v t.1 = t.2 → f.Holds v

theorem SaysAs.disjRV {f g : SOPFormula} {t : RV} (h : f.SaysAs g) (ht : g.Covers t) :
    (f.disjRV t).SaysAs g := by
  obtain ⟨hcheck, hholds⟩ := ht
  refine ⟨h.wellFormed.disjTerm (by simp [ProductTerm.ofTerm]), fun v => ?_, fun t' => ?_⟩
  · rw [holds_disjRV h.wellFormed, h.holds]
    exact ⟨fun hv => hv.elim id (hholds v), .inl⟩
  · by_cases hf : f.result = .true
    · have hsame : f.disjRV t = f := by
        unfold SOPFormula.disjRV disjTerm
        rw [if_pos hf]
      rw [hsame]
      exact h.evaluates t'
    · rw [checkEvaluation_disjRV hf, h.evaluates]
      constructor
      · intro h'
        rcases h' with h' | rfl
        · exact h'
        · exact hcheck
      · exact .inl

end SOPFormula

namespace Builder

/-! ## One loop over the pairs -/

/-- The read and its value, of a read-write pair. -/
def readPair (p : Event × Event) : RV :=
  let eread := if p.1.isRead then p.1 else p.2
  (eread.iid, eread.value)

/-- The read with the value of the write, of a read-write pair. -/
def writtenPair (p : Event × Event) : RV :=
  let eread := if p.1.isRead then p.1 else p.2
  let ewrite := if p.1.isRead then p.2 else p.1
  (eread.iid, ewrite.value)

/-- The loop of `prefix_analysis` over the pairs `(it, it2)`.  With each lead it
answers the read, and its value, that the lead is added for. -/
def prefixSteps (fuel : Nat) (c : Container) (l1 : Lead) (l2Suffix : EventSequence)
    (mem : Memory) :
    SOPFormula → List (Event × Event) → Option (SOPFormula × List (RV × Lead))
  | f, [] => some (f, [])
  | f, p :: rest => do
    if !p.1.rwPair p.2 || (readPair p).2 = (writtenPair p).2 ||
        f.checkEvaluation (writtenPair p) = .true then
      prefixSteps fuel c l1 l2Suffix mem f rest
    else
      let start ← l1.mergedSequence.toIidSequence.backseq fuel c p.2.iid p.1.iid
        l1.mergedSequence
      if start = [] then prefixSteps fuel c l1 l2Suffix mem f rest
      else
        let constraint := l1.mergedSequence.eraseIid (readPair p).1 ++ l2Suffix
        let lead ← Lead.ofConstraint fuel c constraint start f mem
        let (f, leads) ← prefixSteps fuel c l1 l2Suffix mem (f.disjRV (readPair p)) rest
        return (f, (readPair p, lead) :: leads)

/-- The pairs `(it, it2)` of the double loop, of the events `before` it and the
events to come. -/
def prefixPairsOf (l2 : Lead) : EventSequence → EventSequence → List (Event × Event)
  | _, [] => []
  | before, e :: rest =>
    (if l2.mergedSequence.has e.iid then [] else before.map (e, ·)) ++
      prefixPairsOf l2 (before ++ [e]) rest

/-- The leads of `prefix_analysis` with the pairs they are added for. -/
def prefixLeads (fuel : Nat) (b : Builder) (state : Nat) (l1 l2 : Lead) :
    Option (List (RV × Lead)) :=
  let l2Suffix := l2.mergedSequence.filter
    (fun e => !l1.mergedSequence.has e.iid)
  (prefixSteps fuel b.toContainer l1 l2Suffix (b.stateAt state).mem
    (l1.forbidden.conj l2.forbidden) (prefixPairsOf l2 [] l1.mergedSequence)).map (·.2)

section Loop

variable {fuel : Nat} {c : Container} {l1 l2 : Lead} {l2Suffix : EventSequence} {mem : Memory}

theorem prefixSteps_append (f : SOPFormula) (ps qs : List (Event × Event)) :
    prefixSteps fuel c l1 l2Suffix mem f (ps ++ qs) =
      (prefixSteps fuel c l1 l2Suffix mem f ps).bind fun r =>
        (prefixSteps fuel c l1 l2Suffix mem r.1 qs).map fun r' => (r'.1, r.2 ++ r'.2) := by
  induction ps generalizing f with
  | nil =>
    show _ = (prefixSteps fuel c l1 l2Suffix mem f qs).map fun r' => (r'.1, [] ++ r'.2)
    simp
  | cons p ps ih =>
    rw [List.cons_append, prefixSteps, prefixSteps]
    split
    · exact ih f
    · cases l1.mergedSequence.toIidSequence.backseq fuel c p.2.iid p.1.iid
        l1.mergedSequence with
      | none => rfl
      | some start =>
        simp only [Option.bind_eq_bind, Option.bind_some]
        split
        · exact ih f
        · cases Lead.ofConstraint fuel c
            (l1.mergedSequence.eraseIid (readPair p).1 ++ l2Suffix) start f mem with
          | none => rfl
          | some lead =>
            simp only [Option.bind_some, ih]
            cases prefixSteps fuel c l1 l2Suffix mem (f.disjRV (readPair p)) ps with
            | none => rfl
            | some r =>
              simp only [Option.bind_some]
              show _ = (prefixSteps fuel c l1 l2Suffix mem r.1 qs).map _
              cases prefixSteps fuel c l1 l2Suffix mem r.1 qs with
              | none => rfl
              | some r' => rfl

theorem prefixPairs_eq (e : Event) (f : SOPFormula) (es : EventSequence) :
    prefixPairs fuel c l1 l2Suffix mem e f es =
      (prefixSteps fuel c l1 l2Suffix mem f (es.map (e, ·))).map fun r =>
        (r.1, r.2.map (·.2)) := by
  induction es generalizing f with
  | nil => rfl
  | cons e2 es ih =>
    have hvalue : ((if e.isRead then e else e2).value = (if e.isRead then e2 else e).value) =
        ((readPair (e, e2)).2 = (writtenPair (e, e2)).2) := rfl
    rw [List.map_cons, prefixPairs, prefixSteps]
    simp only [hvalue]
    show (if _ || _ || decide (f.checkEvaluation (writtenPair (e, e2)) = .true) then _ else _) = _
    split
    · exact ih f
    · cases l1.mergedSequence.toIidSequence.backseq fuel c e2.iid e.iid l1.mergedSequence with
      | none => rfl
      | some start =>
        simp only [Option.bind_eq_bind, Option.bind_some]
        split
        · exact ih f
        · show (Lead.ofConstraint fuel c
            (l1.mergedSequence.eraseIid (readPair (e, e2)).1 ++ l2Suffix) start f mem).bind _ = _
          cases Lead.ofConstraint fuel c
            (l1.mergedSequence.eraseIid (readPair (e, e2)).1 ++ l2Suffix) start f mem with
          | none => rfl
          | some lead =>
            simp only [Option.bind_some]
            show (prefixPairs fuel c l1 l2Suffix mem e (f.disjRV (readPair (e, e2))) es).bind _ = _
            rw [ih]
            cases prefixSteps fuel c l1 l2Suffix mem (f.disjRV (readPair (e, e2)))
              (es.map (e, ·)) with
            | none => rfl
            | some r => rfl

theorem prefixLoop_eq (f : SOPFormula) (before rest : EventSequence) :
    prefixLoop fuel c l1 l2 l2Suffix mem f before rest =
      (prefixSteps fuel c l1 l2Suffix mem f (prefixPairsOf l2 before rest)).map fun r =>
        r.2.map (·.2) := by
  induction rest generalizing f before with
  | nil => rfl
  | cons e rest ih =>
    rw [prefixLoop, prefixPairsOf]
    split
    · next hhas => rw [List.nil_append, ih]
    · next hhas =>
      rw [prefixPairs_eq, prefixSteps_append]
      cases prefixSteps fuel c l1 l2Suffix mem f (before.map (e, ·)) with
      | none => rfl
      | some r =>
        simp only [Option.bind_eq_bind, Option.bind_some, Option.map_some, ih]
        cases prefixSteps fuel c l1 l2Suffix mem r.1 (prefixPairsOf l2 (before ++ [e]) rest) with
        | none => rfl
        | some r' => simp

end Loop

theorem prefixAnalysis_eq (fuel : Nat) (b : Builder) (state : Nat) (l1 l2 : Lead) :
    prefixAnalysis fuel b state l1 l2 =
      (prefixLeads fuel b state l1 l2).map (·.map (·.2)) := by
  rw [prefixAnalysis, prefixLeads, prefixLoop_eq, Option.map_map]
  rfl

theorem mem_prefixPairsOf {l2 : Lead} {e e2 : Event} {before rest : EventSequence} :
    (e, e2) ∈ prefixPairsOf l2 before rest ↔
      ∃ A B, rest = A ++ e :: B ∧ e2 ∈ before ++ A ∧ l2.mergedSequence.has e.iid = false := by
  induction rest generalizing before with
  | nil => simp [prefixPairsOf]
  | cons a rest ih =>
    rw [prefixPairsOf, List.mem_append, ih]
    constructor
    · intro h
      rcases h with h | ⟨A, B, hsplit, hmem, hhas⟩
      · split at h
        · cases h
        · next hhas =>
          obtain ⟨e2', hmem, heq⟩ := List.mem_map.mp h
          obtain ⟨rfl, rfl⟩ := Prod.mk.inj heq
          exact ⟨[], rest, rfl, by simpa using hmem, by simpa using hhas⟩
      · exact ⟨a :: A, B, by rw [hsplit]; rfl, by simpa using hmem, hhas⟩
    · intro ⟨A, B, hsplit, hmem, hhas⟩
      cases A with
      | nil =>
        obtain ⟨rfl, rfl⟩ := List.cons.inj hsplit
        refine .inl ?_
        rw [if_neg (by simp [hhas])]
        exact List.mem_map.mpr ⟨e2, by simpa using hmem, rfl⟩
      | cons a' A =>
        obtain ⟨rfl, rfl⟩ := List.cons.inj hsplit
        exact .inr ⟨A, B, rfl, by simpa using hmem, hhas⟩

/-! ## What the leads exclude -/

/-- The pair can be turned round, and the new value of the read is not
forbidden yet: the tests of the loop for the formula `f`. -/
def Turns (fuel : Nat) (c : Container) (l1 : Lead) (f : SOPFormula) (p : Event × Event) :
    Prop :=
  p.1.rwPair p.2 = true ∧ (readPair p).2 ≠ (writtenPair p).2 ∧
    f.checkEvaluation (writtenPair p) ≠ .true ∧
    ∃ start, l1.mergedSequence.toIidSequence.backseq fuel c p.2.iid p.1.iid
      l1.mergedSequence = some start ∧ start ≠ []

/-- The formula of the lead evaluates to `TRUE` under the read and its value,
and is the formula `f` otherwise. -/
def Excludes (f : SOPFormula) (a : RV × Lead) : Prop :=
  a.2.forbidden.checkEvaluation a.1 = .true ∧
    ∀ v : Assignment, a.2.forbidden.Holds v ↔ f.Holds v ∨ v a.1.1 = a.1.2

theorem excludes_iff {f g : SOPFormula} {t : RV} {lead : Lead} (hlead : lead.forbidden = f)
    (h : f.SaysAs g) : Excludes g (t, lead) ↔ g.Covers t := by
  unfold Excludes SOPFormula.Covers
  rw [hlead, h.evaluates]
  refine and_congr_right fun _ => forall_congr' fun v => ?_
  rw [h.holds]
  exact ⟨fun hv ht => hv.mpr (.inr ht), fun hv => ⟨.inl, fun h => h.elim id hv⟩⟩

theorem Turns.congr {fuel : Nat} {c : Container} {l1 : Lead} {f g : SOPFormula}
    {p : Event × Event} (h : f.SaysAs g) : Turns fuel c l1 f p ↔ Turns fuel c l1 g p := by
  unfold Turns
  rw [ne_eq (f.checkEvaluation _), h.evaluates]

theorem forbidden_ofConstraint {fuel : Nat} {c : Container} {constraint : EventSequence}
    {start : Sequence} {f : SOPFormula} {mem : Memory} {lead : Lead}
    (h : Lead.ofConstraint fuel c constraint start f mem = some lead) : lead.forbidden = f := by
  obtain ⟨m, _, hlead⟩ := Option.bind_eq_some_iff.mp h
  rw [← Option.some.inj hlead]

/-- While every pair that is turned round is covered by the formula `g`, the
formula that is carried along says what `g` says; the first pair that is not
gets a lead that does not exclude its value. -/
theorem prefixSteps_excludes_iff {fuel : Nat} {c : Container} {l1 : Lead}
    {l2Suffix : EventSequence} {mem : Memory} {g : SOPFormula} (ps : List (Event × Event)) :
    ∀ {f : SOPFormula} {r : SOPFormula × List (RV × Lead)}, f.SaysAs g →
      prefixSteps fuel c l1 l2Suffix mem f ps = some r →
      ((∀ a ∈ r.2, Excludes g a) ↔
        ∀ p ∈ ps, Turns fuel c l1 g p → g.Covers (readPair p)) := by
  induction ps with
  | nil =>
    intro f r _ hrun
    rw [← Option.some.inj hrun]
    simp
  | cons p ps ih =>
    intro f r hsame hrun
    -- a pair that is not turned round adds no lead
    have hskip (hturn : ¬Turns fuel c l1 f p)
        (hrun : prefixSteps fuel c l1 l2Suffix mem f ps = some r) :
        (∀ a ∈ r.2, Excludes g a) ↔
          ∀ q ∈ p :: ps, Turns fuel c l1 g q → g.Covers (readPair q) := by
      rw [ih hsame hrun, List.forall_mem_cons]
      exact ⟨fun h => ⟨fun hp => absurd ((Turns.congr hsame).mpr hp) hturn, h⟩, fun h => h.2⟩
    rw [prefixSteps] at hrun
    split at hrun
    · next htest =>
      refine hskip (fun hturn => ?_) hrun
      obtain ⟨hrw, hvalue, hcheck, _⟩ := hturn
      simp [hrw, hvalue, hcheck] at htest
    · next htest =>
      simp only [Bool.or_eq_true, Bool.not_eq_true', decide_eq_true_eq, not_or,
        Bool.not_eq_false] at htest
      obtain ⟨⟨hrw, hvalue⟩, hcheck⟩ := htest
      obtain ⟨start, hstart, hrun⟩ := Option.bind_eq_some_iff.mp hrun
      split at hrun
      · next hempty =>
        refine hskip (fun hturn => ?_) hrun
        obtain ⟨_, _, _, start', hstart', hne⟩ := hturn
        rw [hstart] at hstart'
        exact hne (Option.some.inj hstart' ▸ hempty)
      · next hne =>
        obtain ⟨lead, hlead, hrun⟩ := Option.bind_eq_some_iff.mp hrun
        obtain ⟨r', hrest, hr⟩ := Option.bind_eq_some_iff.mp hrun
        have hturn : Turns fuel c l1 g p :=
          (Turns.congr hsame).mp ⟨hrw, hvalue, hcheck, start, hstart, hne⟩
        have hexcludes : Excludes g (readPair p, lead) ↔ g.Covers (readPair p) :=
          excludes_iff (forbidden_ofConstraint hlead) hsame
        rw [← Option.some.inj hr, List.forall_mem_cons, List.forall_mem_cons, hexcludes]
        by_cases hcovers : g.Covers (readPair p)
        · rw [ih (hsame.disjRV hcovers) hrest]
          exact and_congr_left fun _ => ⟨fun h _ => h, fun h => h hturn⟩
        · exact iff_of_false (fun h => hcovers h.1) fun h => hcovers (h.1 hturn)

/-- The leads of a call exclude the values that their reads have in `l1`, and
forbid what both formulas forbid otherwise, exactly if the conjunction of the
two formulas covers every such value already. -/
theorem prefixAnalysis_excludes_iff {fuel : Nat} {b : Builder} {state : Nat} {l1 l2 : Lead}
    {leads : List Lead} (hf1 : l1.forbidden.Reachable) (hf2 : l2.forbidden.Reachable)
    (hrun : prefixAnalysis fuel b state l1 l2 = some leads) :
    ∃ added, prefixLeads fuel b state l1 l2 = some added ∧ added.map (·.2) = leads ∧
      ((∀ a ∈ added, Excludes (l1.forbidden.conj l2.forbidden) a) ↔
        ∀ before e after, l1.mergedSequence = before ++ e :: after →
          l2.mergedSequence.has e.iid = false → ∀ e2 ∈ before,
            Turns fuel b.toContainer l1 (l1.forbidden.conj l2.forbidden) (e, e2) →
            (l1.forbidden.conj l2.forbidden).Covers (readPair (e, e2))) := by
  rw [prefixAnalysis_eq] at hrun
  obtain ⟨added, hadded, hleads⟩ := Option.map_eq_some_iff.mp hrun
  refine ⟨added, hadded, hleads, ?_⟩
  obtain ⟨r, hsteps, hr⟩ := Option.map_eq_some_iff.mp hadded
  have hself : (l1.forbidden.conj l2.forbidden).SaysAs (l1.forbidden.conj l2.forbidden) :=
    ⟨hf1.wellFormed.conj hf2.wellFormed, fun _ => Iff.rfl, fun _ => Iff.rfl⟩
  rw [← hr, prefixSteps_excludes_iff _ hself hsteps]
  constructor
  · intro h before e after hsplit hhas e2 he2
    exact h (e, e2) (mem_prefixPairsOf.mpr ⟨before, after, hsplit, by simpa using he2, hhas⟩)
  · intro h p hp
    obtain ⟨before, after, hsplit, he2, hhas⟩ := mem_prefixPairsOf.mp hp
    exact h before p.1 after hsplit hhas p.2 (by simpa using he2)

/-- A thread that reads a variable and one that writes `1` to it. -/
def readAndWrite : Builder :=
  { threads :=
      [{ events := [{ Event.makeRead ⟨.global 1, 0, 1⟩ with iid := ⟨0, 0⟩ }] },
       { events := [{ Event.makeWrite ⟨.global 1, 0, 1⟩ [1] with iid := ⟨1, 0⟩ }] }] }

/-- The lead in which the read comes first and reads `0`. -/
def readFirst : Lead :=
  .ofEvents [readAndWrite.event ⟨0, 0⟩, readAndWrite.event ⟨1, 0⟩] {}

theorem prefixAnalysis_excludes_iff_readFirst :
    ∃ added, prefixLeads 5 readAndWrite 0 readFirst {} = some added ∧
      added.map (·.2) = (prefixAnalysis 5 readAndWrite 0 readFirst {}).getD [] ∧
      ((∀ a ∈ added, Excludes (readFirst.forbidden.conj {}) a) ↔
        ∀ before e after, readFirst.mergedSequence = before ++ e :: after →
          ({} : Lead).mergedSequence.has e.iid = false → ∀ e2 ∈ before,
            Turns 5 readAndWrite.toContainer readFirst (readFirst.forbidden.conj {}) (e, e2) →
            (readFirst.forbidden.conj {}).Covers (readPair (e, e2))) :=
  prefixAnalysis_excludes_iff .new .new (by decide +kernel)

/-- The lead that turns the two events round may still read `0`. -/
theorem not_prefixAnalysis_excludes :
    ¬∀ (fuel : Nat) (b : Builder) (state : Nat) (l1 l2 : Lead) (added : List (RV × Lead)),
      l1.forbidden.Reachable → l2.forbidden.Reachable →
      prefixLeads fuel b state l1 l2 = some added →
      ∀ a ∈ added, Excludes (l1.forbidden.conj l2.forbidden) a := by
  intro h
  have hadded := h 5 readAndWrite 0 readFirst {}
    ((prefixLeads 5 readAndWrite 0 readFirst {}).getD []) .new .new (by decide +kernel)
  have hcheck : ∀ a ∈ (prefixLeads 5 readAndWrite 0 readFirst {}).getD [],
      a.2.forbidden.checkEvaluation a.1 = .true := fun a ha => (hadded a ha).1
  exact absurd hcheck (by decide +kernel)

end Builder

end ViEqui
