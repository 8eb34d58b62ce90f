import Mathlib.Logic.Relation
import Mathlib.Data.Set.Insert
import Mathlib.Data.List.Nodup
import Mathlib.Data.List.Induction

/-!
# Post-orders of a depth-first search

A search that marks an element, visits its successors and appends the element
to a list when it is done.  The graph may have cycles.

* `Step`: an edge between two different elements.
* `Visits`: a declarative trace of the search.
* `PostOrder`: an element comes after its successors, or it is on a cycle.
* `Visits.postOrder`: a search from nothing leaves a post-order.
* `of_reaches_cycle`: a predicate that is computed along a
  post-order, and that an unfinished successor makes true, finds the cycles.
-/

namespace PostOrder

open Relation

variable {α : Type*}

/-- An edge between two different elements. -/
def Step (succ : α → List α) (a b : α) : Prop := b ∈ succ a ∧ a ≠ b

/-- A search that starts with the marked elements `V` and the list `l`, visits
the elements `xs` in turn, and ends with the last two arguments. -/
inductive Visits (succ : α → List α) : Set α → List α → List α → Set α → List α → Prop where
  | nil {V l} : Visits succ V l [] V l
  | old {V l x xs V' l'} (hx : x ∈ V) (tail : Visits succ V l xs V' l') :
      Visits succ V l (x :: xs) V' l'
  | new {V l x xs V₁ l₁ V' l'} (hx : x ∉ V)
      (below : Visits succ (insert x V) l (succ x) V₁ l₁)
      (tail : Visits succ V₁ (l₁ ++ [x]) xs V' l') : Visits succ V l (x :: xs) V' l'

/-- The elements of the list are marked and closed under successors that are
marked, each once, and each after its successors unless it is on a cycle. -/
structure Ordered (succ : α → List α) (V : Set α) (l : List α) : Prop where
  nodup : l.Nodup
  marked : ∀ x ∈ l, x ∈ V
  closed : ∀ x ∈ l, ∀ b ∈ succ x, b ∈ V
  ordered : ∀ l₁ x, l₁ ++ [x] <+: l → ∀ b, Step succ x b → b ∈ l₁ ∨ TransGen (Step succ) x x

variable {succ : α → List α} {V V' : Set α} {l l' xs ys : List α}

theorem Visits.append {V₁ : Set α} {l₁ : List α} (h : Visits succ V l xs V₁ l₁)
    (h' : Visits succ V₁ l₁ ys V' l') : Visits succ V l (xs ++ ys) V' l' := by
  induction h with
  | nil => exact h'
  | old hx _ ih => exact .old hx (ih h')
  | new hx below _ _ ih => exact .new hx below (ih h')

theorem Visits.subset (h : Visits succ V l xs V' l') : V ⊆ V' := by
  induction h with
  | nil => exact fun x hx => hx
  | old _ _ ih => exact ih
  | new _ _ _ ih₁ ih₂ => exact fun x hx => ih₂ (ih₁ (.inr hx))

theorem Visits.marked (h : Visits succ V l xs V' l') : ∀ x ∈ xs, x ∈ V' := by
  induction h with
  | nil => exact fun x hx => absurd hx List.not_mem_nil
  | old hx tail ih =>
    intro y hy
    rcases List.mem_cons.mp hy with rfl | hy
    · exact tail.subset hx
    · exact ih y hy
  | @new V l x xs V₁ l₁ V' l' hx below tail _ ih =>
    intro y hy
    rcases List.mem_cons.mp hy with rfl | hy
    · exact tail.subset (below.subset (.inl rfl))
    · exact ih y hy

theorem reach_succ {s x b : α} (h : ReflTransGen (Step succ) s x) (hb : b ∈ succ x) :
    ReflTransGen (Step succ) s b := by
  by_cases hne : x = b
  · exact hne ▸ h
  · exact h.tail ⟨hb, hne⟩

/-- The list grows by elements that the visited ones reach. -/
theorem Visits.exists_append (h : Visits succ V l xs V' l') :
    ∃ m, l' = l ++ m ∧ ∀ y ∈ m, ∃ x ∈ xs, ReflTransGen (Step succ) x y := by
  induction h with
  | nil => exact ⟨[], (List.append_nil _).symm, fun y hy => absurd hy List.not_mem_nil⟩
  | old _ _ ih =>
    obtain ⟨m, hl', hm⟩ := ih
    refine ⟨m, hl', fun y hy => ?_⟩
    obtain ⟨x, hx, hpath⟩ := hm y hy
    exact ⟨x, List.mem_cons_of_mem _ hx, hpath⟩
  | @new V l x xs V₁ l₁ V' l' _ _ _ ih₁ ih₂ =>
    obtain ⟨m₁, hl₁, hm₁⟩ := ih₁
    obtain ⟨m₂, hl', hm₂⟩ := ih₂
    refine ⟨m₁ ++ x :: m₂, ?_, fun y hy => ?_⟩
    · rw [hl', hl₁, List.append_assoc, List.append_assoc]
      rfl
    · rcases List.mem_append.mp hy with hy | hy
      · obtain ⟨b, hb, hpath⟩ := hm₁ y hy
        exact ⟨x, List.mem_cons_self, (reach_succ .refl hb).trans hpath⟩
      rcases List.mem_cons.mp hy with rfl | hy
      · exact ⟨y, List.mem_cons_self, .refl⟩
      · obtain ⟨b, hb, hpath⟩ := hm₂ y hy
        exact ⟨b, List.mem_cons_of_mem _ hb, hpath⟩

/-- One more element that is done. -/
theorem Ordered.concat {x : α} (h : Ordered succ V l) (hx : x ∈ V) (hnew : x ∉ l)
    (hclosed : ∀ b ∈ succ x, b ∈ V)
    (hordered : ∀ b, Step succ x b → b ∈ l ∨ TransGen (Step succ) x x) :
    Ordered succ V (l ++ [x]) where
  nodup := h.nodup.append (List.nodup_singleton x) (List.disjoint_singleton.mpr hnew)
  marked y hy := by
    rcases List.mem_append.mp hy with hy | hy
    · exact h.marked y hy
    · exact List.mem_singleton.mp hy ▸ hx
  closed y hy := by
    rcases List.mem_append.mp hy with hy | hy
    · exact h.closed y hy
    · exact List.mem_singleton.mp hy ▸ hclosed
  ordered l₁ y hpre := by
    rcases List.prefix_concat_iff.mp hpre with heq | hpre
    · obtain ⟨rfl, hy⟩ := List.append_inj' heq rfl
      obtain rfl := List.singleton_inj.mp hy
      exact hordered
    · exact h.ordered l₁ y hpre

/-- More marked elements. -/
theorem Ordered.mono (h : Ordered succ V l) (hV : V ⊆ V') : Ordered succ V' l where
  nodup := h.nodup
  marked x hx := hV (h.marked x hx)
  closed x hx b hb := hV (h.closed x hx b hb)
  ordered := h.ordered

/-- The search keeps the order when every open element, one that is marked and
not done, reaches the elements to visit.  The open elements stay the same. -/
theorem Visits.ordered (h : Visits succ V l xs V' l') (hl : Ordered succ V l)
    (hopen : ∀ s ∈ V, s ∉ l → ∀ x ∈ xs, ReflTransGen (Step succ) s x) :
    Ordered succ V' l' ∧ ∀ s, (s ∈ V' ∧ s ∉ l') ↔ s ∈ V ∧ s ∉ l := by
  induction h with
  | nil => exact ⟨hl, fun _ => Iff.rfl⟩
  | old _ _ ih => exact ih hl fun s hs hsl y hy => hopen s hs hsl y (List.mem_cons_of_mem _ hy)
  | @new V l x xs V₁ l₁ V' l' hx below tail ih₁ ih₂ =>
    have hxl : x ∉ l := fun hmem => hx (hl.marked x hmem)
    have hreach : ∀ s ∈ V, s ∉ l → ReflTransGen (Step succ) s x := fun s hs hsl =>
      hopen s hs hsl x List.mem_cons_self
    obtain ⟨hl₁, hopen₁⟩ := ih₁ (hl.mono (Set.subset_insert x V)) (by
      intro s hs hsl b hb
      rcases hs with rfl | hs
      · exact reach_succ .refl hb
      · exact reach_succ (hreach s hs hsl) hb)
    obtain ⟨hxV₁, hxl₁⟩ := (hopen₁ x).mpr ⟨.inl rfl, hxl⟩
    have hconcat : Ordered succ V₁ (l₁ ++ [x]) := by
      refine hl₁.concat hxV₁ hxl₁ below.marked fun b hb => ?_
      by_cases hbl : b ∈ l₁
      · exact .inl hbl
      · -- the successor is open, so it reaches `x`
        obtain ⟨hbV, hbl'⟩ := (hopen₁ b).mp ⟨below.marked b hb.1, hbl⟩
        rcases hbV with rfl | hbV
        · exact absurd rfl hb.2
        · exact .inr (.head' hb (hreach b hbV hbl'))
    have hopen₂ : ∀ s, (s ∈ V₁ ∧ s ∉ l₁ ++ [x]) ↔ s ∈ V ∧ s ∉ l := by
      intro s
      have hs := hopen₁ s
      rw [List.mem_append, List.mem_singleton]
      constructor
      · intro ⟨hsV, hsl⟩
        obtain ⟨hsV', hsl'⟩ := hs.mp ⟨hsV, fun hmem => hsl (.inl hmem)⟩
        exact ⟨hsV'.resolve_left fun heq => hsl (.inr heq), hsl'⟩
      · intro ⟨hsV, hsl⟩
        obtain ⟨hsV', hsl'⟩ := hs.mpr ⟨.inr hsV, hsl⟩
        refine ⟨hsV', fun hmem => ?_⟩
        rcases hmem with hmem | rfl
        · exact hsl' hmem
        · exact hx hsV
    obtain ⟨hl', hopen'⟩ := ih₂ hconcat (by
      intro s hs hsl y hy
      obtain ⟨hsV, hsl'⟩ := (hopen₂ s).mp ⟨hs, hsl⟩
      exact hopen s hsV hsl' y (List.mem_cons_of_mem _ hy))
    exact ⟨hl', fun s => (hopen' s).trans (hopen₂ s)⟩

/-! ## Post-orders -/

/-- A list that is closed under successors, with each element after its
successors unless it is on a cycle. -/
structure IsPostOrder (succ : α → List α) (l : List α) : Prop where
  nodup : l.Nodup
  closed : ∀ x ∈ l, ∀ b ∈ succ x, b ∈ l
  ordered : ∀ l₁ x, l₁ ++ [x] <+: l → ∀ b, Step succ x b → b ∈ l₁ ∨ TransGen (Step succ) x x

/-- A search from nothing leaves a post-order of what the visited elements
reach. -/
theorem Visits.isPostOrder (h : Visits succ ∅ [] xs V l) :
    IsPostOrder succ l ∧ (∀ x ∈ xs, x ∈ l) ∧
      ∀ y ∈ l, ∃ x ∈ xs, ReflTransGen (Step succ) x y := by
  have hnil : Ordered succ ∅ [] := {
    nodup := List.nodup_nil
    marked := fun x hx => absurd hx List.not_mem_nil
    closed := fun x hx => absurd hx List.not_mem_nil
    ordered := fun l₁ x hpre => absurd (List.prefix_nil.mp hpre) (by simp) }
  obtain ⟨hl, hopen⟩ := h.ordered hnil fun s hs => absurd hs (Set.notMem_empty s)
  have hdone : ∀ s ∈ V, s ∈ l := by
    intro s hs
    by_contra hsl
    exact Set.notMem_empty s ((hopen s).mp ⟨hs, hsl⟩).1
  refine ⟨⟨hl.nodup, fun x hx b hb => hdone b (hl.closed x hx b hb), hl.ordered⟩,
    fun x hx => hdone x (h.marked x hx), ?_⟩
  obtain ⟨m, hm, hreach⟩ := h.exists_append
  rw [List.nil_append] at hm
  exact hm ▸ hreach

/-- A predicate along a list: it holds of an element with a successor that is
not earlier in the list, or that it holds of. -/
def Propagates (succ : α → List α) (l : List α) (Z : α → Prop) : Prop :=
  ∀ l₁ x, l₁ ++ [x] <+: l → (Z x ↔ ∃ b, Step succ x b ∧ (b ∉ l₁ ∨ Z b))

theorem exists_prefix_of_mem {x : α} (hx : x ∈ l) : ∃ l₁, l₁ ++ [x] <+: l := by
  obtain ⟨l₁, l₂, rfl⟩ := List.append_of_mem hx
  exact ⟨l₁, l₂, by rw [List.append_assoc, List.singleton_append]⟩

section Cycle

variable {Z : α → Prop} (h : IsPostOrder succ l) (hZ : Propagates succ l Z)

include h hZ

omit h in
/-- What an element reaches is before it, when the predicate does not hold. -/
theorem Propagates.before {l₁ : List α} {x y : α} (hpre : l₁ ++ [x] <+: l) (hnot : ¬ Z x)
    (hpath : TransGen (Step succ) x y) : y ∈ l₁ ∧ ¬ Z y := by
  have hone : ∀ {m z b}, m ++ [z] <+: l → ¬ Z z → Step succ z b → b ∈ m ∧ ¬ Z b := by
    intro m z b hm hz hstep
    by_contra hb
    refine hz ((hZ m z hm).mpr ⟨b, hstep, ?_⟩)
    by_cases hmem : b ∈ m
    · exact .inr (by_contra fun hZb => hb ⟨hmem, hZb⟩)
    · exact .inl hmem
  induction hpath with
  | single hstep => exact hone hpre hnot hstep
  | tail _ hstep ih =>
    obtain ⟨m, hm⟩ := exists_prefix_of_mem ih.1
    have hm' := hm.trans ((List.prefix_append l₁ [x]).trans hpre)
    obtain ⟨hb, hZb⟩ := hone hm' ih.2 hstep
    exact ⟨hm.subset (List.mem_append_left _ hb), hZb⟩

/-- The predicate holds of the elements that reach a cycle. -/
theorem IsPostOrder.of_reaches_cycle {x c : α} (hx : x ∈ l)
    (hpath : ReflTransGen (Step succ) x c) (hcycle : TransGen (Step succ) c c) : Z x := by
  induction hpath using ReflTransGen.head_induction_on with
  | refl =>
    obtain ⟨l₁, hpre⟩ := exists_prefix_of_mem hx
    by_contra hnot
    -- otherwise `c` is before itself
    have hmem := (hZ.before hpre hnot hcycle).1
    have hnodup := h.nodup.sublist hpre.sublist
    exact List.disjoint_of_nodup_append hnodup hmem (List.mem_singleton_self c)
  | head hstep _ ih =>
    obtain ⟨l₁, hpre⟩ := exists_prefix_of_mem hx
    exact (hZ l₁ _ hpre).mpr ⟨_, hstep, .inr (ih (h.closed _ hx _ hstep.1))⟩

end Cycle

end PostOrder
