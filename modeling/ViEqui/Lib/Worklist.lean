import Mathlib.Algebra.Ring.Nat
import Mathlib.Data.List.Nodup
import Mathlib.Data.List.Perm.Subperm
import Mathlib.Data.Set.Basic
import Mathlib.Logic.Relation

/-!
# Worklists over coloured nodes

A search colours nodes and keeps a stack of the nodes whose colour has changed.
A colour is a set of marks, and each edge says which marks a mark of its source
gives to its target.  The order in which the stack is worked off does not
matter: the marks at the end are those that can be reached over the product of
nodes and marks (`run_marks`).  A search records something when it takes a node
from the stack and when it follows an edge; `run_induct` is the rule for what
is recorded.

`sweep` is the plain search, which marks a node when it takes it from the
stack.
-/

namespace Worklist

open Relation

variable {ν μ σ : Type}

/-- A search in progress. -/
structure State (ν μ : Type) where
  marks : List (ν × μ) := []
  stack : List ν := []

/-- An edge to `target`: `rule m` are the marks that a mark `m` gives to the
target, and `record` is called with the colours of the target before and after
that. -/
structure Edge (ν μ σ : Type) where
  target : ν
  rule : μ → List μ
  record : σ → ν → List μ → List μ → σ := fun o _ _ _ => o

section Search

variable [DecidableEq ν] [DecidableEq μ]

/-- The colour of `e`. -/
def State.colour (s : State ν μ) (e : ν) : List μ :=
  (s.marks.filter (·.1 = e)).map Prod.snd

/-- The marks `new` for `e`, where they are not there yet. -/
def addMarks (e : ν) (marks : List (ν × μ)) (new : List μ) : List (ν × μ) :=
  new.foldl (fun ms m => if (e, m) ∈ ms then ms else ms ++ [(e, m)]) marks

/-- Adds marks to `e`, and pushes it if its colour changes. -/
def State.visit (s : State ν μ) (e : ν) (new : List μ) : State ν μ :=
  if ∀ m ∈ new, (e, m) ∈ s.marks then s else ⟨addMarks e s.marks new, e :: s.stack⟩

/-- Follows an edge of `e`. -/
def follow (e : ν) (os : σ × State ν μ) (ed : Edge ν μ σ) : σ × State ν μ :=
  let s := os.2.visit ed.target ((os.2.colour e).flatMap ed.rule)
  (ed.record os.1 ed.target (os.2.colour ed.target) (s.colour ed.target), s)

/-- Follows the edges of `e`. -/
def expand (succ : ν → List (Edge ν μ σ)) (e : ν) (os : σ × State ν μ) : σ × State ν μ :=
  (succ e).foldl (follow e) os

/-- Works off the stack. -/
def run (succ : ν → List (Edge ν μ σ)) (onPop : σ → ν → List μ → σ) :
    Nat → σ × State ν μ → σ × State ν μ
  | 0, os => os
  | fuel + 1, (o, s) =>
    match s.stack with
    | [] => (o, s)
    | e :: stack =>
      run succ onPop fuel (expand succ e (onPop o e (s.colour e), { s with stack }))

/-- A mark of a node gives a mark to another one. -/
def Gives (succ : ν → List (Edge ν μ σ)) (x y : ν × μ) : Prop :=
  ∃ ed ∈ succ x.1, ed.target = y.1 ∧ y.2 ∈ ed.rule x.2

omit [DecidableEq μ] in
@[simp] theorem mem_colour {s : State ν μ} {e : ν} {m : μ} :
    m ∈ s.colour e ↔ (e, m) ∈ s.marks := by
  unfold State.colour
  constructor
  · intro h
    obtain ⟨⟨x, m'⟩, hx, rfl⟩ := List.mem_map.mp h
    obtain ⟨hx, he⟩ := List.mem_filter.mp hx
    have hxe : x = e := of_decide_eq_true he
    exact hxe ▸ hx
  · intro h
    exact List.mem_map.mpr ⟨(e, m), List.mem_filter.mpr ⟨h, decide_eq_true rfl⟩, rfl⟩

theorem mem_addMarks {e : ν} {new : List μ} {marks : List (ν × μ)} {x : ν × μ} :
    x ∈ addMarks e marks new ↔ x ∈ marks ∨ x.1 = e ∧ x.2 ∈ new := by
  unfold addMarks
  induction new generalizing marks with
  | nil => simp
  | cons m new ih =>
    rw [List.foldl_cons, ih, List.mem_cons]
    split_ifs with hm
    · constructor
      · rintro (h | h)
        · exact Or.inl h
        · exact Or.inr ⟨h.1, Or.inr h.2⟩
      · rintro (h | ⟨h1, h2 | h2⟩)
        · exact Or.inl h
        · rw [show x = (e, m) from Prod.ext h1 h2]
          exact Or.inl hm
        · exact Or.inr ⟨h1, h2⟩
    · rw [List.mem_append, List.mem_singleton, Prod.ext_iff]
      tauto

theorem nodup_addMarks {e : ν} {new : List μ} {marks : List (ν × μ)} (h : marks.Nodup) :
    (addMarks e marks new).Nodup := by
  unfold addMarks
  induction new generalizing marks with
  | nil => exact h
  | cons m new ih =>
    rw [List.foldl_cons]
    split_ifs with hm
    · exact ih h
    · exact ih (List.nodup_append.mpr ⟨h, List.nodup_singleton _, fun a ha b hb hab =>
        hm (List.mem_singleton.mp hb ▸ hab ▸ ha)⟩)

theorem length_lt_addMarks {e : ν} {new : List μ} {marks : List (ν × μ)}
    (h : ¬ ∀ m ∈ new, (e, m) ∈ marks) : marks.length < (addMarks e marks new).length := by
  have hle (new : List μ) (marks : List (ν × μ)) :
      marks.length ≤ (addMarks e marks new).length := by
    unfold addMarks
    induction new generalizing marks with
    | nil => exact Nat.le_refl _
    | cons m new ih =>
      rw [List.foldl_cons]
      refine Nat.le_trans ?_ (ih _)
      split_ifs <;> simp
  induction new with
  | nil => simp at h
  | cons m new ih =>
    unfold addMarks
    rw [List.foldl_cons]
    split_ifs with hm
    · exact ih fun hall => h fun m' hm' => by
        rcases List.mem_cons.mp hm' with rfl | hm'
        · exact hm
        · exact hall m' hm'
    · have := hle new (marks ++ [(e, m)])
      unfold addMarks at this
      simp only [List.length_append, List.length_singleton] at this
      omega

/-! ## What the edges of a node add -/

/-- What following some edges of `e` does to a search. -/
structure Expands (e : ν) (edges : List (Edge ν μ σ)) (s s' : State ν μ) : Prop where
  grows : ∀ x ∈ s.marks, x ∈ s'.marks
  complete : ∀ ed ∈ edges, ∀ m ∈ s.colour e, ∀ m' ∈ ed.rule m, (ed.target, m') ∈ s'.marks
  nodup : s.marks.Nodup → s'.marks.Nodup
  pushes : ∃ pushed, s'.stack = pushed ++ s.stack ∧
    pushed.length + s.marks.length ≤ s'.marks.length ∧
    (∀ x ∈ s'.marks, x ∈ s.marks ∨ x.1 ∈ pushed) ∧
    ∀ x ∈ pushed, ∃ m, (x, m) ∈ s'.marks

omit [DecidableEq μ] in
theorem Expands.refl (e : ν) (s : State ν μ) : Expands (σ := σ) e [] s s where
  grows _ h := h
  complete _ hed := absurd hed List.not_mem_nil
  nodup h := h
  pushes := ⟨[], rfl, Nat.le_of_eq (Nat.zero_add _), fun _ h => Or.inl h,
    fun _ h => absurd h List.not_mem_nil⟩

omit [DecidableEq μ] in
theorem Expands.append {e : ν} {L L' : List (Edge ν μ σ)} {s s' s'' : State ν μ}
    (h : Expands e L s s') (h' : Expands e L' s' s'') : Expands e (L ++ L') s s'' where
  grows x hx := h'.grows x (h.grows x hx)
  complete ed hed m hm m' hm' := by
    rcases List.mem_append.mp hed with hed | hed
    · exact h'.grows _ (h.complete ed hed m hm m' hm')
    · exact h'.complete ed hed m (mem_colour.mpr (h.grows _ (mem_colour.mp hm))) m' hm'
  nodup hs := h'.nodup (h.nodup hs)
  pushes := by
    obtain ⟨p, hp, hlen, hnew, hmarked⟩ := h.pushes
    obtain ⟨p', hp', hlen', hnew', hmarked'⟩ := h'.pushes
    refine ⟨p' ++ p, by rw [hp', hp, List.append_assoc], ?_, ?_, ?_⟩
    · rw [List.length_append]
      omega
    · intro x hx
      rcases hnew' x hx with hx | hx
      · exact (hnew x hx).imp_right fun h => List.mem_append_right _ h
      · exact Or.inr (List.mem_append_left _ hx)
    · intro x hx
      rcases List.mem_append.mp hx with hx | hx
      · exact hmarked' x hx
      · obtain ⟨m, hm⟩ := hmarked x hx
        exact ⟨m, h'.grows _ hm⟩

theorem expands_follow (e : ν) (os : σ × State ν μ) (ed : Edge ν μ σ) :
    Expands e [ed] os.2 (follow e os ed).2 := by
  obtain ⟨o, s⟩ := os
  show Expands e [ed] s (s.visit ed.target ((s.colour e).flatMap ed.rule))
  unfold State.visit
  split_ifs with hall
  · refine { Expands.refl (σ := σ) e s with complete := ?_ }
    intro ed' hed' m hm m' hm'
    rw [List.mem_singleton.mp hed'] at hm' ⊢
    exact hall m' (List.mem_flatMap.mpr ⟨m, hm, hm'⟩)
  · constructor
    · exact fun x hx => mem_addMarks.mpr (Or.inl hx)
    · intro ed' hed' m hm m' hm'
      rw [List.mem_singleton.mp hed'] at hm' ⊢
      exact mem_addMarks.mpr (Or.inr ⟨rfl, List.mem_flatMap.mpr ⟨m, hm, hm'⟩⟩)
    · exact nodup_addMarks
    · refine ⟨[ed.target], rfl, ?_, ?_, ?_⟩
      · rw [List.length_singleton, Nat.add_comm]
        exact length_lt_addMarks hall
      · intro x hx
        rcases mem_addMarks.mp hx with hx | ⟨hx1, -⟩
        · exact Or.inl hx
        · exact Or.inr (List.mem_singleton.mpr hx1)
      · intro x hx
        rw [List.mem_singleton.mp hx]
        obtain ⟨m, hm, -⟩ : ∃ m, m ∈ (s.colour e).flatMap ed.rule ∧
            (ed.target, m) ∉ s.marks := by
          simpa only [not_forall, exists_prop] using hall
        exact ⟨m, mem_addMarks.mpr (Or.inr ⟨rfl, hm⟩)⟩

theorem expands_foldl (e : ν) (L : List (Edge ν μ σ)) (os : σ × State ν μ) :
    Expands e L os.2 (L.foldl (follow e) os).2 := by
  induction L generalizing os with
  | nil => exact .refl e os.2
  | cons ed L ih => exact (expands_follow e os ed).append (ih (follow e os ed))

theorem expands_expand (succ : ν → List (Edge ν μ σ)) (e : ν) (os : σ × State ν μ) :
    Expands e (succ e) os.2 (expand succ e os).2 :=
  expands_foldl e (succ e) os

/-- What following an edge preserves is preserved when all are followed. -/
theorem expand_induct (succ : ν → List (Edge ν μ σ)) (e : ν) {P : σ → State ν μ → Prop}
    (hfollow : ∀ ed ∈ succ e, ∀ o s, P o s →
      P (follow e (o, s) ed).1 (follow e (o, s) ed).2)
    (os : σ × State ν μ) (h : P os.1 os.2) :
    P (expand succ e os).1 (expand succ e os).2 := by
  unfold expand
  generalize succ e = L at hfollow
  induction L generalizing os with
  | nil => exact h
  | cons ed L ih =>
    exact ih _ (hfollow ed List.mem_cons_self os.1 os.2 h)
      fun a ha => hfollow a (List.mem_cons_of_mem ed ha)

/-- The marks stay in a set that is closed under the edges.  The colour of `e`
may grow while its edges are followed. -/
theorem expand_subset (succ : ν → List (Edge ν μ σ)) {P : Set (ν × μ)}
    (hP : ∀ x ∈ P, ∀ y, Gives succ x y → y ∈ P) (e : ν) (os : σ × State ν μ)
    (h : ∀ x ∈ os.2.marks, x ∈ P) : ∀ x ∈ (expand succ e os).2.marks, x ∈ P := by
  refine expand_induct succ e (P := fun _ s => ∀ x ∈ s.marks, x ∈ P) ?_ os h
  intro ed hed o s hs x hx
  unfold follow State.visit at hx
  dsimp only at hx
  split_ifs at hx with hall
  · exact hs x hx
  · rcases mem_addMarks.mp hx with hx | ⟨hx1, hx2⟩
    · exact hs x hx
    · obtain ⟨m, hm, hrule⟩ := List.mem_flatMap.mp hx2
      exact hP (e, m) (hs _ (mem_colour.mp hm)) x ⟨ed, hed, hx1.symm, hrule⟩

/-! ## Runs -/

variable {succ : ν → List (Edge ν μ σ)} {onPop : σ → ν → List μ → σ}

variable (succ onPop) in
/-- What a step of the search preserves is preserved by the run. -/
theorem run_induct {P : σ → State ν μ → Prop}
    (hstep : ∀ o s e stack, s.stack = e :: stack → P o s →
      P (expand succ e (onPop o e (s.colour e), { s with stack })).1
        (expand succ e (onPop o e (s.colour e), { s with stack })).2)
    (fuel : Nat) (os : σ × State ν μ) (h : P os.1 os.2) :
    P (run succ onPop fuel os).1 (run succ onPop fuel os).2 := by
  induction fuel generalizing os with
  | zero => exact h
  | succ fuel ih =>
    obtain ⟨o, s⟩ := os
    unfold run
    split
    · exact h
    · next e stack heq => exact ih _ (hstep o s e stack heq h)

/-- The marks that a run can set. -/
structure Bounded (succ : ν → List (Edge ν μ σ)) (univ : List (ν × μ)) (s : State ν μ) :
    Prop where
  nodup : s.marks.Nodup
  inside : ∀ x ∈ s.marks, x ∈ univ
  closed : ∀ x ∈ univ, ∀ y, Gives succ x y → y ∈ univ

theorem Bounded.expand {univ : List (ν × μ)} {s : State ν μ} (h : Bounded succ univ s)
    {o : σ} {e : ν} {stack : List ν} :
    Bounded succ univ (Worklist.expand succ e (o, { s with stack })).2 := by
  have hexp := expands_expand succ e (o, { s with stack })
  exact ⟨hexp.nodup h.nodup,
    expand_subset succ (P := {x | x ∈ univ}) h.closed e (o, { s with stack }) h.inside, h.closed⟩

omit [DecidableEq ν] [DecidableEq μ] in
theorem Bounded.length_le {univ : List (ν × μ)} {s : State ν μ} (h : Bounded succ univ s) :
    s.marks.length ≤ univ.length :=
  (List.subperm_of_subset h.nodup h.inside).length_le

variable (onPop) in
/-- Fuel for each node of the stack and each mark that can still be set is
enough. -/
theorem run_stack {univ : List (ν × μ)} (fuel : Nat) (os : σ × State ν μ)
    (h : Bounded succ univ os.2)
    (hfuel : os.2.stack.length + (univ.length - os.2.marks.length) ≤ fuel) :
    (run succ onPop fuel os).2.stack = [] := by
  induction fuel generalizing os with
  | zero => exact List.length_eq_zero_iff.mp (by show os.2.stack.length = 0; omega)
  | succ fuel ih =>
    obtain ⟨o, s⟩ := os
    unfold run
    split
    · assumption
    · next e stack heq =>
      change Bounded succ univ s at h
      have hexpand : Bounded succ univ
          (expand succ e (onPop o e (s.colour e), { s with stack })).2 := h.expand
      obtain ⟨p, hp, hlen, -, -⟩ :=
        (expands_expand succ e (onPop o e (s.colour e), { s with stack })).pushes
      have hle := hexpand.length_le
      change s.stack.length + (univ.length - s.marks.length) ≤ fuel + 1 at hfuel
      change p.length + s.marks.length ≤ _ at hlen
      rw [heq, List.length_cons] at hfuel
      refine ih _ hexpand ?_
      rw [hp, List.length_append]
      show p.length + stack.length + _ ≤ fuel
      omega

/-- Every mark is passed on, or its node waits on the stack. -/
def Pending (succ : ν → List (Edge ν μ σ)) (s : State ν μ) : Prop :=
  ∀ x ∈ s.marks, x.1 ∈ s.stack ∨ ∀ y, Gives succ x y → y ∈ s.marks

theorem Pending.expand {s : State ν μ} {e : ν} {stack : List ν} (hstack : s.stack = e :: stack)
    (h : Pending succ s) (o : σ) :
    Pending succ (Worklist.expand succ e (o, { s with stack })).2 := by
  have hexp := expands_expand succ e (o, { s with stack })
  obtain ⟨p, hp, -, hnew, -⟩ := hexp.pushes
  intro x hx
  rw [hp, List.mem_append]
  rcases hnew x hx with hold | hpushed
  · by_cases hxe : x.1 = e
    · refine Or.inr fun y ⟨ed, hed, htarget, hrule⟩ => ?_
      have hm : x.2 ∈ State.colour { s with stack } e := mem_colour.mpr (hxe ▸ hold)
      have := hexp.complete ed (hxe ▸ hed) x.2 hm y.2 hrule
      rwa [htarget] at this
    · rcases h x hold with hx | hx
      · rw [hstack, List.mem_cons] at hx
        exact Or.inl (Or.inr (hx.resolve_left hxe))
      · exact Or.inr fun y hy => hexp.grows y (hx y hy)
  · exact Or.inl (Or.inl hpushed)

variable (succ onPop) in
theorem run_grows (fuel : Nat) (os : σ × State ν μ) :
    ∀ x ∈ os.2.marks, x ∈ (run succ onPop fuel os).2.marks := by
  intro x hx
  exact run_induct succ onPop (P := fun _ s => x ∈ s.marks)
    (fun o s e stack _ h =>
      (expands_expand succ e (onPop o e (s.colour e), { s with stack })).grows x h) fuel os hx

variable (onPop) in
/-- The marks of a run from nodes that all wait on the stack are those that can
be reached from the first marks. -/
theorem run_marks {univ : List (ν × μ)} (fuel : Nat) (os : σ × State ν μ)
    (h : Bounded succ univ os.2)
    (hfuel : os.2.stack.length + (univ.length - os.2.marks.length) ≤ fuel)
    (hpending : Pending succ os.2) (x : ν × μ) :
    x ∈ (run succ onPop fuel os).2.marks ↔
      ∃ y ∈ os.2.marks, ReflTransGen (Gives succ) y x := by
  constructor
  · intro hx
    refine run_induct succ onPop (P := fun _ s => ∀ x ∈ s.marks,
      ∃ y ∈ os.2.marks, ReflTransGen (Gives succ) y x) ?_ fuel os
      (fun x hx => ⟨x, hx, .refl⟩) x hx
    intro o s e stack _ hs
    exact expand_subset succ (P := {x | ∃ y ∈ os.2.marks, ReflTransGen (Gives succ) y x})
      (fun x ⟨y, hy, hpath⟩ z hz => ⟨y, hy, hpath.tail hz⟩) e
      (onPop o e (s.colour e), { s with stack }) hs
  · rintro ⟨y, hy, hpath⟩
    have hclosed := run_induct succ onPop (P := fun _ s => Pending succ s)
      (fun o s e stack hstack h => h.expand hstack (onPop o e (s.colour e))) fuel os hpending
    have hstack := run_stack onPop fuel os h hfuel
    induction hpath with
    | refl => exact run_grows succ onPop fuel os _ hy
    | tail _ hstep ih =>
      rcases hclosed _ ih with hx | hx
      · rw [hstack] at hx
        exact absurd hx List.not_mem_nil
      · exact hx _ hstep

/-! ## What is recorded of a node -/

/-- The marks of `e`. -/
def State.marksOf (s : State ν μ) (e : ν) : Set μ := {m | (e, m) ∈ s.marks}

/-- What is recorded of a node fits the marks that it had when it was taken from
the stack for the last time, and with other marks it is on the stack again. -/
structure Recorded (Fits : σ → ν → Set μ → Prop) (o : σ) (s : State ν μ) : Prop where
  fits : ∀ x, ∃ c ⊆ s.marksOf x, Fits o x c ∧ (x ∈ s.stack ∨ c = s.marksOf x)
  marked : ∀ x ∈ s.stack, (s.marksOf x).Nonempty

variable (succ onPop) in
/-- At the end of a run what is recorded of a node fits its marks, if a step
brings what is recorded of the node that it takes from the stack up to date. -/
theorem run_fits (Fits : σ → ν → Set μ → Prop) {univ : List (ν × μ)}
    (hstep : ∀ o (s : State ν μ) e stack c', s.stack = e :: stack → (s.marksOf e).Nonempty → Fits o e c' →
      c' ⊆ s.marksOf e →
      Fits (expand succ e (onPop o e (s.colour e), { s with stack })).1 e (s.marksOf e))
    (hframe : ∀ o (s : State ν μ) e stack x c', s.stack = e :: stack → x ≠ e → Fits o x c' →
      Fits (expand succ e (onPop o e (s.colour e), { s with stack })).1 x c')
    (fuel : Nat) (os : σ × State ν μ) (h : Bounded succ univ os.2)
    (hfuel : os.2.stack.length + (univ.length - os.2.marks.length) ≤ fuel)
    (hos : Recorded Fits os.1 os.2) (x : ν) :
    Fits (run succ onPop fuel os).1 x ((run succ onPop fuel os).2.marksOf x) := by
  have hrec : Recorded Fits (run succ onPop fuel os).1 (run succ onPop fuel os).2 := by
    refine run_induct succ onPop (P := Recorded Fits) ?_ fuel os hos
    intro o s e stack hstack hs
    have hexp := expands_expand succ e (onPop o e (s.colour e), { s with stack })
    obtain ⟨p, hp, -, hnew, hmarked⟩ := hexp.pushes
    have hgrow (x : ν) : s.marksOf x ⊆
        (expand succ e (onPop o e (s.colour e), { s with stack })).2.marksOf x :=
      fun m hm => hexp.grows (x, m) hm
    refine ⟨fun x => ?_, fun x hx => ?_⟩
    · have hsame (hx : x ∉ p) :
          (expand succ e (onPop o e (s.colour e), { s with stack })).2.marksOf x = s.marksOf x :=
        Set.Subset.antisymm (fun m hm => (hnew (x, m) hm).resolve_right hx) (hgrow x)
      obtain ⟨c, hc, hfits, hcase⟩ := hs.fits x
      rw [hp]
      by_cases hxe : x = e
      · subst hxe
        refine ⟨s.marksOf x, hgrow x,
          hstep o s x stack c hstack (hs.marked x (hstack ▸ List.mem_cons_self)) hfits hc, ?_⟩
        by_cases hx : x ∈ p
        · exact Or.inl (List.mem_append_left _ hx)
        · exact Or.inr (hsame hx).symm
      · refine ⟨c, hc.trans (hgrow x), hframe o s e stack x c hstack hxe hfits, ?_⟩
        rcases hcase with hx | hx
        · rw [hstack] at hx
          exact Or.inl (List.mem_append_right _ ((List.mem_cons.mp hx).resolve_left hxe))
        · by_cases hxp : x ∈ p
          · exact Or.inl (List.mem_append_left _ hxp)
          · exact Or.inr (hx.trans (hsame hxp).symm)
    · rw [hp] at hx
      rcases List.mem_append.mp hx with hx | hx
      · exact hmarked x hx
      · exact (hs.marked x (hstack ▸ List.mem_cons_of_mem e hx)).mono (hgrow x)
  obtain ⟨c, -, hfits, hcase⟩ := hrec.fits x
  rcases hcase with hx | rfl
  · rw [run_stack onPop fuel os h hfuel] at hx
    exact absurd hx List.not_mem_nil
  · exact hfits

variable (succ) in
theorem expand_record (Fits : σ → ν → Set μ → Prop) (e : ν)
    (hrecord : ∀ ed ∈ succ e, ∀ o old new x c', Fits o x c' →
      Fits (ed.record o ed.target old new) x c')
    (os : σ × State ν μ) (x : ν) (c' : Set μ) (h : Fits os.1 x c') :
    Fits (expand succ e os).1 x c' :=
  expand_induct succ e (P := fun o _ => Fits o x c')
    (fun ed hed o _ ho => hrecord ed hed o _ _ x c' ho) os h

variable (succ onPop) in
/-- The same where it is taking a node from the stack that brings what is
recorded of it up to date. -/
theorem run_recorded (Fits : σ → ν → Set μ → Prop) {univ : List (ν × μ)}
    (hpop : ∀ o e c' (c : List μ), c ≠ [] → Fits o e c' → c' ⊆ {m | m ∈ c} →
      Fits (onPop o e c) e {m | m ∈ c})
    (hframe : ∀ o e (c : List μ) x c', x ≠ e → Fits o x c' → Fits (onPop o e c) x c')
    (hrecord : ∀ e, ∀ ed ∈ succ e, ∀ o old new x c', Fits o x c' →
      Fits (ed.record o ed.target old new) x c')
    (fuel : Nat) (os : σ × State ν μ) (h : Bounded succ univ os.2)
    (hfuel : os.2.stack.length + (univ.length - os.2.marks.length) ≤ fuel)
    (hos : Recorded Fits os.1 os.2) (x : ν) :
    Fits (run succ onPop fuel os).1 x ((run succ onPop fuel os).2.marksOf x) := by
  refine run_fits succ onPop Fits ?_ ?_ fuel os h hfuel hos x
  · intro o s e stack c' _ hmarked hfits hc
    have hcolour : {m | m ∈ s.colour e} = s.marksOf e := Set.ext fun m => mem_colour
    have hne : s.colour e ≠ [] := by
      obtain ⟨m, hm⟩ := hmarked
      exact List.ne_nil_of_mem (mem_colour.mpr hm)
    refine expand_record succ Fits e (hrecord e) _ e _ ?_
    rw [← hcolour] at hc ⊢
    exact hpop o e c' (s.colour e) hne hfits hc
  · intro o s e stack x c' _ hxe hfits
    exact expand_record succ Fits e (hrecord e) _ x _ (hframe _ _ _ _ _ hxe hfits)

end Search

/-! ## The plain search -/

section Sweep

variable [DecidableEq ν]

/-- Works off the stack; `marked` are the nodes that have been visited. -/
def sweep (succ : ν → List ν) : Nat → List ν → List ν → List ν
  | 0, marked, _ => marked
  | _ + 1, marked, [] => marked
  | fuel + 1, marked, e :: stack =>
    if e ∈ marked then sweep succ fuel marked stack
    else sweep succ fuel (e :: marked) ((succ e).reverse ++ stack)

/-- The nodes that are visited stay in a set that is closed under the edges. -/
theorem sweep_subset {succ : ν → List ν} {P : Set ν} (hP : ∀ a ∈ P, ∀ b ∈ succ a, b ∈ P)
    (fuel : Nat) (marked stack : List ν) (hmarked : ∀ a ∈ marked, a ∈ P)
    (hstack : ∀ a ∈ stack, a ∈ P) : ∀ x ∈ sweep succ fuel marked stack, x ∈ P := by
  induction fuel generalizing marked stack with
  | zero => exact hmarked
  | succ fuel ih =>
    cases stack with
    | nil => exact hmarked
    | cons e stack =>
      obtain ⟨he, hstack⟩ := List.forall_mem_cons.mp hstack
      unfold sweep
      split_ifs with hvisited
      · exact ih marked stack hmarked hstack
      · refine ih (e :: marked) ((succ e).reverse ++ stack)
          (List.forall_mem_cons.mpr ⟨he, hmarked⟩) fun a ha => ?_
        rcases List.mem_append.mp ha with ha | ha
        · exact hP e he a (List.mem_reverse.mp ha)
        · exact hstack a ha

/-- The successors of the nodes that are not visited yet. -/
def openEdges (succ : ν → List ν) (univ marked : List ν) : Nat :=
  ((univ.filter (· ∉ marked)).map fun e => (succ e).length).sum

variable {succ : ν → List ν} {univ : List ν}

variable (succ) in
theorem openEdges_cons {marked : List ν} {e : ν} (hnodup : univ.Nodup) (he : e ∈ univ)
    (hnew : e ∉ marked) :
    openEdges succ univ (e :: marked) + (succ e).length = openEdges succ univ marked := by
  unfold openEdges
  induction univ with
  | nil => exact absurd he List.not_mem_nil
  | cons a univ ih =>
    obtain ⟨ha, hnodup⟩ := List.nodup_cons.mp hnodup
    by_cases hae : a = e
    · subst hae
      have hrest : univ.filter (· ∉ a :: marked) = univ.filter (· ∉ marked) := by
        refine List.filter_congr fun x hx => ?_
        have hxa : x ≠ a := fun h => ha (h ▸ hx)
        simp [hxa]
      rw [List.filter_cons_of_neg (by simp), List.filter_cons_of_pos (by simpa using hnew), hrest,
        List.map_cons, List.sum_cons]
      omega
    · have hih := ih hnodup ((List.mem_cons.mp he).resolve_left (Ne.symm hae))
      by_cases ham : a ∈ marked
      · rw [List.filter_cons_of_neg (by simp [ham]), List.filter_cons_of_neg (by simp [ham])]
        exact hih
      · rw [List.filter_cons_of_pos (by simp [hae, ham]), List.filter_cons_of_pos (by simp [ham]),
          List.map_cons, List.map_cons, List.sum_cons, List.sum_cons]
        omega

theorem openEdges_le (succ : ν → List ν) (univ marked : List ν) :
    openEdges succ univ marked ≤ ((univ.map fun e => (succ e).length)).sum := by
  unfold openEdges
  induction univ with
  | nil => exact Nat.le_refl _
  | cons a univ ih =>
    by_cases ha : a ∈ marked
    · rw [List.filter_cons_of_neg (by simp [ha]), List.map_cons, List.sum_cons]
      omega
    · rw [List.filter_cons_of_pos (by simp [ha]), List.map_cons, List.map_cons, List.sum_cons,
        List.sum_cons]
      omega

omit [DecidableEq ν] in
/-- What can be reached from a visited node is visited, or can be reached from
the stack. -/
theorem visited_or_reached {marked stack : List ν}
    (hmarked : ∀ a ∈ marked, ∀ b ∈ succ a, b ∈ marked ∨ b ∈ stack) {a x : ν} (ha : a ∈ marked)
    (hpath : ReflTransGen (fun a b => b ∈ succ a) a x) :
    x ∈ marked ∨ ∃ e ∈ stack, ReflTransGen (fun a b => b ∈ succ a) e x := by
  induction hpath with
  | refl => exact Or.inl ha
  | @tail b c _ hstep ih =>
    rcases ih with hb | ⟨e, he, hpath⟩
    · rcases hmarked b hb c hstep with hc | hc
      · exact Or.inl hc
      · exact Or.inr ⟨c, hc, .refl⟩
    · exact Or.inr ⟨e, he, hpath.tail hstep⟩

variable (succ univ) in
/-- With fuel for the stack and the edges of what is not visited yet, the nodes
that are visited are those that were before and those that can be reached from
the stack. -/
theorem mem_sweep (hnodup : univ.Nodup) (hclosed : ∀ a ∈ univ, ∀ b ∈ succ a, b ∈ univ)
    (fuel : Nat) (marked stack : List ν) (hstack : ∀ e ∈ stack, e ∈ univ)
    (hmarked : ∀ a ∈ marked, ∀ b ∈ succ a, b ∈ marked ∨ b ∈ stack)
    (hfuel : stack.length + openEdges succ univ marked ≤ fuel) (x : ν) :
    x ∈ sweep succ fuel marked stack ↔
      x ∈ marked ∨ ∃ e ∈ stack, ReflTransGen (fun a b => b ∈ succ a) e x := by
  induction fuel generalizing marked stack with
  | zero =>
    obtain rfl : stack = [] := List.length_eq_zero_iff.mp (by omega)
    simp [sweep]
  | succ fuel ih =>
    cases stack with
    | nil => simp [sweep]
    | cons e stack =>
      unfold sweep
      rw [List.length_cons] at hfuel
      split_ifs with he
      · have hrest : ∀ a ∈ marked, ∀ b ∈ succ a, b ∈ marked ∨ b ∈ stack := by
          intro a ha b hb
          rcases hmarked a ha b hb with hb | hb
          · exact Or.inl hb
          · rcases List.mem_cons.mp hb with rfl | hb
            · exact Or.inl he
            · exact Or.inr hb
        rw [ih marked stack (fun a ha => hstack a (List.mem_cons_of_mem e ha)) hrest (by omega)]
        constructor
        · rintro (hx | ⟨a, ha, hpath⟩)
          · exact Or.inl hx
          · exact Or.inr ⟨a, List.mem_cons_of_mem e ha, hpath⟩
        · rintro (hx | ⟨a, ha, hpath⟩)
          · exact Or.inl hx
          · rcases List.mem_cons.mp ha with rfl | ha
            · exact visited_or_reached hrest he hpath
            · exact Or.inr ⟨a, ha, hpath⟩
      · have hopen := openEdges_cons succ hnodup (hstack e List.mem_cons_self) he
        rw [ih (e :: marked) ((succ e).reverse ++ stack) ?_ ?_ ?_]
        · constructor
          · rintro (hx | ⟨a, ha, hpath⟩)
            · rcases List.mem_cons.mp hx with rfl | hx
              · exact Or.inr ⟨x, List.mem_cons_self, .refl⟩
              · exact Or.inl hx
            · rcases List.mem_append.mp ha with ha | ha
              · exact Or.inr ⟨e, List.mem_cons_self, hpath.head (List.mem_reverse.mp ha)⟩
              · exact Or.inr ⟨a, List.mem_cons_of_mem e ha, hpath⟩
          · rintro (hx | ⟨a, ha, hpath⟩)
            · exact Or.inl (List.mem_cons_of_mem e hx)
            · rcases List.mem_cons.mp ha with rfl | ha
              · rcases hpath.cases_head with rfl | ⟨b, hb, hpath⟩
                · exact Or.inl List.mem_cons_self
                · exact Or.inr ⟨b, List.mem_append_left _ (List.mem_reverse.mpr hb), hpath⟩
              · exact Or.inr ⟨a, List.mem_append_right _ ha, hpath⟩
        · intro a ha
          rcases List.mem_append.mp ha with ha | ha
          · exact hclosed e (hstack e List.mem_cons_self) a (List.mem_reverse.mp ha)
          · exact hstack a (List.mem_cons_of_mem e ha)
        · intro a ha b hb
          rcases List.mem_cons.mp ha with rfl | ha
          · exact Or.inr (List.mem_append_left _ (List.mem_reverse.mpr hb))
          · rcases hmarked a ha b hb with hb | hb
            · exact Or.inl (List.mem_cons_of_mem e hb)
            · rcases List.mem_cons.mp hb with rfl | hb
              · exact Or.inl List.mem_cons_self
              · exact Or.inr (List.mem_append_right _ hb)
        · rw [List.length_append, List.length_reverse]
          omega

end Sweep

end Worklist
