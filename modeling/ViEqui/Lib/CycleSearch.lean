import ViEqui.Lib.Worklist

/-!
# Depth-first search for cycles

An iterative search.  A node at the top of the stack that is not visited yet is
left there with its successors above it; when it is at the top again it is
done.  A node that is visited but not done is open, and to come across an open
node is to find a cycle (`exists_cycle_of_search_eq_none`).  Nodes can be on the
stack several times.  When the stack is empty no cycle can be reached from what
was visited (`not_cycle_of_done`).

A node is marked as visited before its successors are entered, or after; then a
successor that is the node itself goes unnoticed.
-/

namespace CycleSearch

open Relation

variable {ν : Type}

/-- A search in progress, the node that was done last first. -/
structure State (ν : Type) where
  visited : List ν := []
  done : List ν := []
  stack : List ν := []

section Search

variable [DecidableEq ν]

/-- Pushes `e`, unless it is open. -/
def enter (s : State ν) (e : ν) : Option (State ν) :=
  if e ∈ s.visited ∧ e ∉ s.done then none else some { s with stack := e :: s.stack }

/-- Enters the successors of `e` and marks it; `before` tells the order. -/
def visit (succ : ν → List ν) (before : Bool) (e : ν) (s : State ν) : Option (State ν) :=
  if before then (succ e).foldlM enter { s with visited := e :: s.visited }
  else do
    let s ← (succ e).foldlM enter s
    return { s with visited := e :: s.visited }

/-- Marks the top of the stack as done. -/
def finish (e : ν) (stack : List ν) (s : State ν) : State ν :=
  { s with done := if e ∈ s.done then s.done else e :: s.done, stack }

/-- Works off the stack; `none` when a cycle is found. -/
def search (succ : ν → List ν) (before : Bool) : Nat → State ν → Option (State ν)
  | 0, s => some s
  | fuel + 1, s =>
    match s.stack with
    | [] => some s
    | e :: stack =>
      if e ∈ s.visited then search succ before fuel (finish e stack s)
      else (visit succ before e s).bind (search succ before fuel)

/-- Searches from each of the nodes that is not done yet. -/
def searchAll (succ : ν → List ν) (before : Bool) (fuel : Nat) (es : List ν) (s : State ν) :
    Option (State ν) :=
  es.foldlM (fun s e =>
    if e ∈ s.done then some s else search succ before fuel { s with stack := e :: s.stack }) s

end Search

variable {succ : ν → List ν}

/-- A step from a node to a successor. -/
def Edge (succ : ν → List ν) (a b : ν) : Prop := b ∈ succ a

theorem mem_of_reflTransGen {univ : List ν} (hclosed : ∀ a ∈ univ, ∀ b ∈ succ a, b ∈ univ)
    {x y : ν} (hx : x ∈ univ) (h : ReflTransGen (Edge succ) x y) : y ∈ univ := by
  induction h with
  | refl => exact hx
  | tail _ hstep ih => exact hclosed _ ih _ hstep

/-- The paths of a search are those of the relation whose edges it follows. -/
theorem transGen_edge_iff {R : ν → ν → Prop} {univ : List ν}
    (hedge : ∀ a ∈ univ, ∀ b, b ∈ succ a ↔ R a b)
    (hclosed : ∀ a ∈ univ, ∀ b ∈ succ a, b ∈ univ) {x y : ν} (hx : x ∈ univ) :
    TransGen (Edge succ) x y ↔ TransGen R x y := by
  constructor
  · intro h
    induction h with
    | single h => exact .single ((hedge _ hx _).mp h)
    | tail hpath h ih =>
      have hb := mem_of_reflTransGen hclosed hx hpath.to_reflTransGen
      exact ih.tail ((hedge _ hb _).mp h)
  · intro h
    induction h with
    | single h => exact .single ((hedge _ hx _).mpr h)
    | tail _ h ih =>
      have hb := mem_of_reflTransGen hclosed hx ih.to_reflTransGen
      exact ih.tail ((hedge _ hb _).mpr h)

/-- A cycle of a relation that extends an acyclic one goes through an end of an
edge that is new. -/
theorem exists_cycle_through {R R₀ : ν → ν → Prop} {S : Set ν}
    (hnew : ∀ a b, R a b → R₀ a b ∨ a ∈ S ∨ b ∈ S) (hacyc : ∀ x, ¬ TransGen R₀ x x) {x : ν}
    (hx : TransGen R x x) : ∃ y ∈ S, TransGen R y y := by
  have hpath {a b : ν} (hab : TransGen R a b) :
      TransGen R₀ a b ∨ ∃ y ∈ S, ReflTransGen R a y ∧ ReflTransGen R y b := by
    induction hab with
    | single hstep =>
      rcases hnew _ _ hstep with hold | ha | hb
      · exact Or.inl (.single hold)
      · exact Or.inr ⟨_, ha, .refl, .single hstep⟩
      · exact Or.inr ⟨_, hb, .single hstep, .refl⟩
    | tail hab hstep ih =>
      rcases ih with hold | ⟨y, hy, hay, hyb⟩
      · rcases hnew _ _ hstep with hstep₀ | hb | hc
        · exact Or.inl (hold.tail hstep₀)
        · exact Or.inr ⟨_, hb, hab.to_reflTransGen, .single hstep⟩
        · exact Or.inr ⟨_, hc, hab.to_reflTransGen.tail hstep, .refl⟩
      · exact Or.inr ⟨y, hy, hay, hyb.tail hstep⟩
  rcases hpath hx with hold | ⟨y, hy, hxy, hyx⟩
  · exact absurd hold (hacyc x)
  · exact ⟨y, hy, (TransGen.trans_right hyx hx).trans_left hxy⟩

/-- The successors of what is done were done before. -/
def Ordered (succ : ν → List ν) (done : List ν) : Prop :=
  ∀ pre d post, done = pre ++ d :: post → ∀ b ∈ succ d, b ∈ post

/-- An open node is on the stack; what is above it can be reached from it, and
its successors are above it or done. -/
structure OnStack (succ : ν → List ν) (s : State ν) (g : ν) (above below : List ν) : Prop where
  stack : s.stack = above ++ g :: below
  notMem : g ∉ above
  reached : ∀ x ∈ above, TransGen (Edge succ) g x
  left : ∀ b ∈ succ g, b ∈ s.done ∨ b ∈ above

structure Inv (succ : ν → List ν) (s : State ν) : Prop where
  nodup : s.done.Nodup
  visited : ∀ d ∈ s.done, d ∈ s.visited
  ordered : Ordered succ s.done
  opened : ∀ g ∈ s.visited, g ∉ s.done → ∃ above below, OnStack succ s g above below

theorem Inv.empty : Inv succ (ν := ν) {} where
  nodup := List.nodup_nil
  visited _ h := absurd h List.not_mem_nil
  ordered pre d post h := absurd h (by simp)
  opened _ h := absurd h List.not_mem_nil

theorem Ordered.cons {done : List ν} {e : ν} (h : Ordered succ done)
    (he : ∀ b ∈ succ e, b ∈ done) : Ordered succ (e :: done) := by
  intro pre d post heq b hb
  cases pre with
  | nil =>
    obtain ⟨rfl, rfl⟩ := List.cons.inj heq
    exact he b hb
  | cons a pre => exact h pre d post (List.cons.inj heq).2 b hb

theorem mem_of_transGen {done pre post : List ν} {d x : ν} (h : Ordered succ done)
    (heq : done = pre ++ d :: post) (hpath : TransGen (Edge succ) d x) : x ∈ post := by
  induction hpath with
  | single hb => exact h pre d post heq _ hb
  | @tail y z _ hz ih =>
    obtain ⟨pre', post', rfl⟩ := List.append_of_mem ih
    have hmem := h (pre ++ d :: pre') y post' (by rw [heq]; simp) z hz
    exact List.mem_append_right _ (List.mem_cons_of_mem y hmem)

/-- What is done is on no cycle. -/
theorem Inv.not_cycle {s : State ν} (h : Inv succ s) {d : ν} (hd : d ∈ s.done) :
    ¬ TransGen (Edge succ) d d := by
  intro hpath
  obtain ⟨pre, post, heq⟩ := List.append_of_mem hd
  have hmem := mem_of_transGen h.ordered heq hpath
  have hnodup := h.nodup
  rw [heq] at hnodup
  exact (List.nodup_cons.mp (List.nodup_append.mp hnodup).2.1).1 hmem

theorem Inv.head_of_open {s : State ν} (h : Inv succ s) {e : ν} {stack : List ν}
    (heq : s.stack = e :: stack) (hv : e ∈ s.visited) (hd : e ∉ s.done) :
    ∀ b ∈ succ e, b ∈ s.done := by
  obtain ⟨above, below, hon⟩ := h.opened e hv hd
  intro b hb
  cases above with
  | nil => exact (hon.left b hb).resolve_right List.not_mem_nil
  | cons a above =>
    have hstack := hon.stack
    rw [heq] at hstack
    exact absurd ((List.cons.inj hstack).1 ▸ List.mem_cons_self) hon.notMem

/-- What is above an open node can be reached from it. -/
theorem Inv.reaches_head {s : State ν} (h : Inv succ s) {e g : ν} {stack : List ν}
    (heq : s.stack = e :: stack) (hg : g ∈ s.visited) (hgd : g ∉ s.done) (hne : g ≠ e) :
    TransGen (Edge succ) g e := by
  obtain ⟨above, below, hon⟩ := h.opened g hg hgd
  have hstack := hon.stack
  rw [heq] at hstack
  cases above with
  | nil => exact absurd (List.cons.inj hstack).1.symm hne
  | cons a above => exact hon.reached e ((List.cons.inj hstack).1 ▸ List.mem_cons_self)

theorem Inv.push {s : State ν} (h : Inv succ s) {e : ν} {stack : List ν}
    (heq : s.stack = e :: stack) (he : e ∉ s.visited) (hself : e ∉ succ e)
    (hclosed : ∀ x ∈ succ e, x ∈ s.visited → x ∈ s.done) :
    Inv succ ⟨e :: s.visited, s.done, (succ e).reverse ++ s.stack⟩ := by
  refine ⟨h.nodup, fun d hd => List.mem_cons_of_mem e (h.visited d hd), h.ordered, ?_⟩
  intro g hg hgd
  dsimp only at hg hgd
  rcases List.mem_cons.mp hg with rfl | hg
  · refine ⟨(succ g).reverse, stack, by rw [heq], ?_, ?_, ?_⟩
    · rwa [List.mem_reverse]
    · exact fun x hx => .single (List.mem_reverse.mp hx)
    · exact fun b hb => Or.inr (List.mem_reverse.mpr hb)
  · have hne : g ≠ e := fun hge => he (hge ▸ hg)
    have hpath := h.reaches_head heq hg hgd hne
    obtain ⟨above, below, hon⟩ := h.opened g hg hgd
    refine ⟨(succ e).reverse ++ above, below, ?_, ?_, ?_, ?_⟩
    · dsimp only
      rw [hon.stack, List.append_assoc]
    · intro hmem
      rcases List.mem_append.mp hmem with hmem | hmem
      · exact hgd (hclosed g (List.mem_reverse.mp hmem) hg)
      · exact hon.notMem hmem
    · intro x hx
      rcases List.mem_append.mp hx with hx | hx
      · exact hpath.tail (List.mem_reverse.mp hx)
      · exact hon.reached x hx
    · exact fun b hb => (hon.left b hb).imp_right fun hb => List.mem_append_right _ hb

section Steps

variable [DecidableEq ν]

theorem foldlM_enter (es : List ν) (s : State ν) :
    (∃ e ∈ es, e ∈ s.visited ∧ e ∉ s.done) ∧ es.foldlM enter s = none ∨
      (∀ e ∈ es, e ∈ s.visited → e ∈ s.done) ∧
        es.foldlM enter s = some { s with stack := es.reverse ++ s.stack } := by
  induction es generalizing s with
  | nil => exact Or.inr ⟨fun _ h => absurd h List.not_mem_nil, rfl⟩
  | cons e es ih =>
    by_cases he : e ∈ s.visited ∧ e ∉ s.done
    · refine Or.inl ⟨⟨e, List.mem_cons_self, he⟩, ?_⟩
      rw [List.foldlM_cons, enter, if_pos he]
      rfl
    · have hstep : (e :: es).foldlM enter s = es.foldlM enter { s with stack := e :: s.stack } := by
        rw [List.foldlM_cons, enter, if_neg he]
        rfl
      rw [hstep]
      rcases ih { s with stack := e :: s.stack } with ⟨⟨x, hx, hopen⟩, hnone⟩ | ⟨hall, hsome⟩
      · exact Or.inl ⟨⟨x, List.mem_cons_of_mem e hx, hopen⟩, hnone⟩
      · refine Or.inr ⟨fun x hx hv => ?_, ?_⟩
        · rcases List.mem_cons.mp hx with rfl | hx
          · exact not_not.mp fun hd => he ⟨hv, hd⟩
          · exact hall x hx hv
        · rw [hsome]
          simp

/-- To mark a node first makes no difference, if it is not its own successor. -/
theorem visit_cases {before : Bool} {e : ν} (hself : before = false → e ∉ succ e)
    {s : State ν} (he : e ∉ s.visited) (hd : ∀ d ∈ s.done, d ∈ s.visited) :
    (∃ x ∈ succ e, (x = e ∨ x ∈ s.visited) ∧ x ∉ s.done) ∧ visit succ before e s = none ∨
      (e ∉ succ e ∧ ∀ x ∈ succ e, x ∈ s.visited → x ∈ s.done) ∧
        visit succ before e s =
          some ⟨e :: s.visited, s.done, (succ e).reverse ++ s.stack⟩ := by
  unfold visit
  cases before with
  | true =>
    rw [if_pos rfl]
    rcases foldlM_enter (succ e) { s with visited := e :: s.visited } with
      ⟨⟨x, hx, hv, hnd⟩, hnone⟩ | ⟨hall, hsome⟩
    · exact Or.inl ⟨⟨x, hx, List.mem_cons.mp hv, hnd⟩, hnone⟩
    · refine Or.inr ⟨⟨fun hee => he (hd e (hall e hee List.mem_cons_self)), fun x hx hv => ?_⟩, hsome⟩
      exact hall x hx (List.mem_cons_of_mem e hv)
  | false =>
    rw [if_neg (by decide)]
    rcases foldlM_enter (succ e) s with ⟨⟨x, hx, hv, hnd⟩, hnone⟩ | ⟨hall, hsome⟩
    · exact Or.inl ⟨⟨x, hx, Or.inr hv, hnd⟩, by rw [hnone]; rfl⟩
    · exact Or.inr ⟨⟨hself rfl, hall⟩, by rw [hsome]; rfl⟩

theorem Inv.finish {s : State ν} (h : Inv succ s) {e : ν} {stack : List ν}
    (heq : s.stack = e :: stack) (hv : e ∈ s.visited) : Inv succ (finish e stack s) := by
  have hmem : ∀ x, x ∈ (CycleSearch.finish e stack s).done ↔ x = e ∨ x ∈ s.done := by
    intro x
    unfold CycleSearch.finish
    dsimp only
    split_ifs with hd
    · exact ⟨Or.inr, fun hx => hx.elim (fun hxe => hxe ▸ hd) id⟩
    · exact List.mem_cons
  refine ⟨?_, ?_, ?_, ?_⟩
  · unfold CycleSearch.finish
    dsimp only
    split_ifs with hd
    · exact h.nodup
    · exact List.nodup_cons.mpr ⟨hd, h.nodup⟩
  · intro d hd
    rcases (hmem d).mp hd with rfl | hd
    · exact hv
    · exact h.visited d hd
  · unfold CycleSearch.finish
    dsimp only
    split_ifs with hd
    · exact h.ordered
    · exact h.ordered.cons (h.head_of_open heq hv hd)
  · intro g hg hgd
    have hne : g ≠ e := fun hge => hgd ((hmem g).mpr (Or.inl hge))
    obtain ⟨above, below, hon⟩ := h.opened g hg fun hd => hgd ((hmem g).mpr (Or.inr hd))
    have hstack := hon.stack
    rw [heq] at hstack
    cases above with
    | nil => exact absurd (List.cons.inj hstack).1.symm hne
    | cons a above =>
      obtain ⟨rfl, hrest⟩ := List.cons.inj hstack
      refine ⟨above, below, hrest, fun hx => hon.notMem (List.mem_cons_of_mem e hx),
        fun x hx => hon.reached x (List.mem_cons_of_mem e hx), fun b hb => ?_⟩
      rcases hon.left b hb with hb | hb
      · exact Or.inl ((hmem b).mpr (Or.inr hb))
      · rcases List.mem_cons.mp hb with rfl | hb
        · exact Or.inl ((hmem b).mpr (Or.inl rfl))
        · exact Or.inr hb

/-! ## Runs -/

/-- The search finds a cycle only where there is one. -/
theorem exists_cycle_of_search_eq_none {before : Bool} {P : Set ν}
    (hself : before = false → ∀ e ∈ P, e ∉ succ e)
    (hclosed : ∀ a ∈ P, ∀ b ∈ succ a, b ∈ P) (fuel : Nat) {s : State ν} (h : Inv succ s)
    (hstack : ∀ e ∈ s.stack, e ∈ P) (hnone : search succ before fuel s = none) :
    ∃ x ∈ P, TransGen (Edge succ) x x := by
  induction fuel generalizing s with
  | zero => cases hnone
  | succ fuel ih =>
    unfold search at hnone
    split at hnone
    · cases hnone
    · next e stack heq =>
      have he : e ∈ P := hstack e (heq ▸ List.mem_cons_self)
      split_ifs at hnone with hv
      · exact ih (h.finish heq hv) (fun x hx => hstack x (heq ▸ List.mem_cons_of_mem e hx)) hnone
      · rcases visit_cases (fun hb => hself hb e he) hv h.visited with
          ⟨⟨x, hx, hopen, hnd⟩, -⟩ | ⟨⟨hee, hall⟩, hsome⟩
        · refine ⟨x, hclosed e he x hx, ?_⟩
          by_cases hxe : x = e
          · exact .single (hxe ▸ hx)
          · exact (h.reaches_head heq (hopen.resolve_left hxe) hnd hxe).tail hx
        · rw [hsome] at hnone
          refine ih (h.push heq hv hee hall) (fun x hx => ?_) hnone
          rcases List.mem_append.mp hx with hx | hx
          · exact hclosed e he x (List.mem_reverse.mp hx)
          · exact hstack x hx

/-- With fuel for the stack, and for each node that is not visited yet and its
edges, a search that finds no cycle works off the stack. -/
theorem search_eq_some {before : Bool} {univ : List ν}
    (hself : before = false → ∀ e ∈ univ, e ∉ succ e) (hnodup : univ.Nodup) (hclosed : ∀ a ∈ univ, ∀ b ∈ succ a, b ∈ univ)
    (fuel : Nat) {s s' : State ν} (h : Inv succ s) (hstack : ∀ e ∈ s.stack, e ∈ univ)
    (hfuel : s.stack.length + Worklist.openEdges (fun e => e :: succ e) univ s.visited ≤ fuel)
    (hsome : search succ before fuel s = some s') :
    Inv succ s' ∧ s'.stack = [] ∧ (∀ x ∈ s.visited, x ∈ s'.visited) ∧
      ∀ x ∈ s.stack, x ∈ s'.visited := by
  induction fuel generalizing s with
  | zero =>
    obtain rfl : s = s' := Option.some.inj hsome
    have hnil : s.stack = [] := List.length_eq_zero_iff.mp (by omega)
    rw [hnil]
    exact ⟨h, rfl, fun x hx => hx, fun x hx => absurd hx List.not_mem_nil⟩
  | succ fuel ih =>
    unfold search at hsome
    split at hsome
    · next hnil =>
      obtain rfl : s = s' := Option.some.inj hsome
      rw [hnil]
      exact ⟨h, rfl, fun x hx => hx, fun x hx => absurd hx List.not_mem_nil⟩
    · next e stack heq =>
      rw [heq, List.length_cons] at hfuel
      split_ifs at hsome with hv
      · obtain ⟨hinv, hnil, hvisited, hrest⟩ := ih (h.finish heq hv)
          (fun x hx => hstack x (heq ▸ List.mem_cons_of_mem e hx))
          (by show stack.length + _ ≤ fuel; unfold finish; dsimp only; omega) hsome
        refine ⟨hinv, hnil, hvisited, fun x hx => ?_⟩
        rw [heq] at hx
        rcases List.mem_cons.mp hx with rfl | hx
        · exact hvisited x hv
        · exact hrest x hx
      · have he : e ∈ univ := hstack e (heq ▸ List.mem_cons_self)
        rcases visit_cases (fun hb => hself hb e he) hv h.visited with
          ⟨-, hnone⟩ | ⟨⟨hee, hall⟩, hvisit⟩
        · rw [hnone] at hsome
          cases hsome
        · rw [hvisit] at hsome
          have hopen := Worklist.openEdges_cons (fun e => e :: succ e) hnodup he hv
          have hlen : ((succ e).reverse ++ s.stack).length +
              Worklist.openEdges (fun e => e :: succ e) univ (e :: s.visited) ≤ fuel := by
            rw [List.length_append, List.length_reverse, heq, List.length_cons]
            rw [List.length_cons] at hopen
            omega
          obtain ⟨hinv, hnil, hvisited, hrest⟩ := ih (h.push heq hv hee hall) (fun x hx => by
            rcases List.mem_append.mp hx with hx | hx
            · exact hclosed e he x (List.mem_reverse.mp hx)
            · exact hstack x hx) hlen hsome
          exact ⟨hinv, hnil, fun x hx => hvisited x (List.mem_cons_of_mem e hx),
            fun x hx => hrest x (List.mem_append_right _ hx)⟩

/-- The search is over: what is visited is done, and so is what can be reached
from it. -/
theorem Inv.done_of_stack {s : State ν} (h : Inv succ s) (hstack : s.stack = []) {x : ν}
    (hx : x ∈ s.visited) : x ∈ s.done := by
  by_contra hd
  obtain ⟨above, below, hon⟩ := h.opened x hx hd
  have := hon.stack
  rw [hstack] at this
  exact absurd this (by simp)

/-- No cycle can be reached from what was visited. -/
theorem Inv.not_cycle_of_reached {s : State ν} (h : Inv succ s) (hstack : s.stack = []) {x y : ν}
    (hx : x ∈ s.visited) (hpath : ReflTransGen (Edge succ) x y) : ¬ TransGen (Edge succ) y y := by
  refine h.not_cycle ?_
  have hd := h.done_of_stack hstack hx
  rcases reflTransGen_iff_eq_or_transGen.mp hpath with rfl | hpath
  · exact hd
  · obtain ⟨pre, post, heq⟩ := List.append_of_mem hd
    rw [heq]
    exact List.mem_append_right _ (List.mem_cons_of_mem x (mem_of_transGen h.ordered heq hpath))

/-- A search decides whether a cycle can be reached from where it starts. -/
theorem search_isSome_iff {before : Bool} {univ stack : List ν}
    (hself : before = false → ∀ e ∈ univ, e ∉ succ e) (hnodup : univ.Nodup)
    (hclosed : ∀ a ∈ univ, ∀ b ∈ succ a, b ∈ univ) (hstack : ∀ e ∈ stack, e ∈ univ) {fuel : Nat}
    (hfuel : stack.length + (univ.map fun e => (e :: succ e).length).sum ≤ fuel) :
    (search succ before fuel { stack }).isSome ↔
      ∀ x ∈ stack, ∀ y, ReflTransGen (Edge succ) x y → ¬ TransGen (Edge succ) y y := by
  have hinv : Inv succ { stack : State ν } :=
    ⟨List.nodup_nil, fun _ h => absurd h List.not_mem_nil, Inv.empty.ordered,
      fun _ h => absurd h List.not_mem_nil⟩
  let P : Set ν := {y | y ∈ univ ∧ ∃ x ∈ stack, ReflTransGen (Edge succ) x y}
  cases hsearch : search succ before fuel { stack } with
  | none =>
    obtain ⟨y, ⟨-, x, hx, hpath⟩, hcycle⟩ := exists_cycle_of_search_eq_none (P := P)
      (fun hb e he => hself hb e he.1)
      (fun a ⟨ha, x, hx, hpath⟩ b hb => ⟨hclosed a ha b hb, x, hx, hpath.tail hb⟩) fuel hinv
      (fun e he => ⟨hstack e he, e, he, .refl⟩) hsearch
    simp only [Option.isSome_none, Bool.false_eq_true, false_iff]
    exact fun hall => hall x hx y hpath hcycle
  | some s' =>
    obtain ⟨hinv', hnil, -, hvisited⟩ := search_eq_some hself hnodup hclosed fuel hinv hstack (by
      have := Worklist.openEdges_le (fun e => e :: succ e) univ []
      show stack.length + Worklist.openEdges _ univ [] ≤ fuel
      omega) hsearch
    simp only [Option.isSome_some, true_iff]
    exact fun x hx y hpath => hinv'.not_cycle_of_reached hnil (hvisited x hx) hpath

/-- The search from all nodes decides whether there is a cycle. -/
theorem searchAll_isSome_iff {before : Bool} {univ : List ν}
    (hself : before = false → ∀ e ∈ univ, e ∉ succ e) (hnodup : univ.Nodup)
    (hclosed : ∀ a ∈ univ, ∀ b ∈ succ a, b ∈ univ) {fuel : Nat}
    (hfuel : 1 + (univ.map fun e => (e :: succ e).length).sum ≤ fuel) :
    (searchAll succ before fuel univ {}).isSome ↔ ∀ x ∈ univ, ¬ TransGen (Edge succ) x x := by
  have hrun (es : List ν) (hes : es ⊆ univ) (s : State ν) (h : Inv succ s) (hnil : s.stack = []) :
      match searchAll succ before fuel es s with
      | none => ∃ x ∈ univ, TransGen (Edge succ) x x
      | some s' => Inv succ s' ∧ s'.stack = [] ∧ (∀ x ∈ s.visited, x ∈ s'.visited) ∧
          ∀ x ∈ es, x ∈ s'.visited := by
    induction es generalizing s with
    | nil => exact ⟨h, hnil, fun _ hx => hx, fun _ hx => absurd hx List.not_mem_nil⟩
    | cons e es ih =>
      have hes' : es ⊆ univ := fun x hx => hes (List.mem_cons_of_mem e hx)
      unfold searchAll
      rw [List.foldlM_cons]
      by_cases hd : e ∈ s.done
      · rw [if_pos hd]
        have hrest := ih hes' s h hnil
        show match searchAll succ before fuel es s with
          | none => _
          | some s' => _
        split
        · next hnone => rwa [hnone] at hrest
        · next s' hsome =>
          rw [hsome] at hrest
          obtain ⟨h1, h2, h3, h4⟩ := hrest
          refine ⟨h1, h2, h3, fun x hx => ?_⟩
          rcases List.mem_cons.mp hx with rfl | hx
          · exact h3 x (h.visited x hd)
          · exact h4 x hx
      · rw [if_neg hd]
        have hinv : Inv succ { s with stack := e :: s.stack } := by
          refine ⟨h.nodup, h.visited, h.ordered, fun g hg hgd => ?_⟩
          exact absurd (h.done_of_stack hnil hg) hgd
        have hone : ∀ x ∈ e :: s.stack, x ∈ univ := by
          intro x hx
          rw [hnil] at hx
          exact List.mem_singleton.mp hx ▸ hes List.mem_cons_self
        cases hs : search succ before fuel { s with stack := e :: s.stack } with
        | none =>
          exact exists_cycle_of_search_eq_none (P := {x | x ∈ univ}) hself hclosed fuel hinv hone hs
        | some s₁ =>
          obtain ⟨hinv₁, hnil₁, hvisited, hstack⟩ := search_eq_some hself hnodup hclosed fuel
            hinv hone (by
              show (e :: s.stack).length + Worklist.openEdges _ univ s.visited ≤ fuel
              rw [hnil]
              have := Worklist.openEdges_le (fun e => e :: succ e) univ s.visited
              simp only [List.length_singleton]
              omega) hs
          have hrest := ih hes' s₁ hinv₁ hnil₁
          show match searchAll succ before fuel es s₁ with
            | none => _
            | some s' => _
          split
          · next hnone => rwa [hnone] at hrest
          · next s' hsome =>
            rw [hsome] at hrest
            obtain ⟨h1, h2, h3, h4⟩ := hrest
            refine ⟨h1, h2, fun x hx => h3 x (hvisited x hx), fun x hx => ?_⟩
            rcases List.mem_cons.mp hx with rfl | hx
            · exact h3 x (hstack x List.mem_cons_self)
            · exact h4 x hx
  have hall := hrun univ (fun _ h => h) {} .empty rfl
  cases hsearch : searchAll succ before fuel univ {} with
  | none =>
    rw [hsearch] at hall
    obtain ⟨x, hmem, hx⟩ := hall
    simp only [Option.isSome_none, Bool.false_eq_true, false_iff, not_forall, not_not]
    exact ⟨x, hmem, hx⟩
  | some s' =>
    rw [hsearch] at hall
    obtain ⟨hinv, hnil, -, hvisited⟩ := hall
    simp only [Option.isSome_some, true_iff]
    intro x hmem
    exact hinv.not_cycle_of_reached hnil (hvisited x hmem) .refl

end Steps

end CycleSearch
