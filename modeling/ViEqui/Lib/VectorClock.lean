import Mathlib.Data.List.Basic
import Mathlib.Logic.Relation
import Mathlib.Order.Bounds.Basic
import Mathlib.Order.MinMax

/-!
# Vector clocks

Two parts.

* `Clock`: a clock as the list of its components.  A component past the end
  is 0, so two lists can be the same clock.  `get`, `single`, `join`, `put`
  and `same` read, build and compare clocks.
* `Sound` and `Above`: a clock for every node of a graph of dependences.  A
  node has a process and an index in it.  A clock is sound when each of its
  components is the index of a node in the past, and above when it is at
  least the clock of each predecessor.  Both together say that the clock is
  exact (`isGreatest_past`).  When no edge joins two equal clocks the graph is
  acyclic (`Above.acyclic`).
* `Reached` and `Under`: the same for clocks that look at the future of a node.
  They start at a top, and a component that is still the top need not be the
  index of a node (`Under.future_iff`).
-/

namespace VectorClock

/-! ## Clocks as lists -/

abbrev Clock := List Nat

/-- `c[p]`. -/
def get (c : Clock) (p : Nat) : Nat := c.getD p 0

/-- The clock with the component `k` for `p`, and 0 elsewhere. -/
def single (p k : Nat) : Clock := List.replicate p 0 ++ [k]

/-- The componentwise maximum. -/
def join (c d : Clock) : Clock :=
  (List.range (max c.length d.length)).map fun p => max (get c p) (get d p)

/-- All components are equal. -/
def same (c d : Clock) : Bool :=
  (List.range (max c.length d.length)).all fun p => get c p == get d p

@[simp] theorem get_nil (p : Nat) : get [] p = 0 := rfl

theorem get_of_length_le {c : Clock} {p : Nat} (h : c.length ≤ p) :
    get c p = 0 := by
  unfold get
  rw [List.getD_eq_getElem?_getD, List.getElem?_eq_none h]
  rfl

theorem lt_length_of_get_pos {c : Clock} {p : Nat} (h : 0 < get c p) :
    p < c.length := by
  by_contra hlen
  rw [get_of_length_le (by omega)] at h
  omega

theorem get_single (p k q : Nat) :
    get (single p k) q = if q = p then k else 0 := by
  unfold get single
  rw [List.getD_eq_getElem?_getD, List.getElem?_append, List.length_replicate]
  by_cases hlt : q < p
  · rw [if_pos hlt, if_neg (by omega), List.getElem?_replicate, if_pos hlt]
    rfl
  · rw [if_neg hlt]
    by_cases heq : q = p
    · subst heq
      simp
    · rw [if_neg heq, List.getElem?_eq_none (by simp only [List.length_singleton]; omega)]
      rfl

@[simp] theorem get_join (c d : Clock) (p : Nat) :
    get (join c d) p = max (get c p) (get d p) := by
  by_cases hlt : p < max c.length d.length
  · show ((List.range _).map _).getD p 0 = _
    rw [List.getD_eq_getElem?_getD, List.getElem?_map, List.getElem?_range hlt]
    rfl
  · rw [get_of_length_le (by simpa [join] using hlt),
      get_of_length_le (c := c) (by omega), get_of_length_le (c := d) (by omega)]
    rfl

/-- The clock with the component of `p` replaced by `k`. -/
def put (c : Clock) (p k : Nat) : Clock :=
  (List.range (max c.length (p + 1))).map fun q => if q = p then k else get c q

@[simp] theorem get_put (c : Clock) (p k q : Nat) :
    get (put c p k) q = if q = p then k else get c q := by
  by_cases hlt : q < max c.length (p + 1)
  · show ((List.range _).map _).getD q 0 = _
    rw [List.getD_eq_getElem?_getD, List.getElem?_map, List.getElem?_range hlt]
    rfl
  · rw [get_of_length_le (by simpa [put] using hlt), if_neg (by omega),
      get_of_length_le (by omega)]

theorem same_iff {c d : Clock} : same c d = true ↔ ∀ p, get c p = get d p := by
  unfold same
  rw [List.all_eq_true]
  constructor
  · intro h p
    by_cases hlt : p < max c.length d.length
    · simpa using h p (List.mem_range.mpr hlt)
    · rw [get_of_length_le (c := c) (by omega), get_of_length_le (c := d) (by omega)]
  · intro h p _
    simpa using h p

/-! ## Joins of several clocks -/

theorem get_foldl_join {α : Type*} (f : α → Clock) (l : List α) (c : Clock)
    (p k : Nat) :
    k ≤ get (l.foldl (fun c a => join c (f a)) c) p ↔
      k ≤ get c p ∨ ∃ a ∈ l, k ≤ get (f a) p := by
  induction l generalizing c with
  | nil => simp
  | cons a l ih =>
    rw [List.foldl_cons, ih, get_join, le_max_iff, List.exists_mem_cons_iff, or_assoc]

/-- A component of a join is a component of one of the clocks. -/
theorem get_foldl_join_cases {α : Type*} (f : α → Clock) (l : List α) (c : Clock)
    (p : Nat) :
    get (l.foldl (fun c a => join c (f a)) c) p = get c p ∨
      ∃ a ∈ l, get (l.foldl (fun c a => join c (f a)) c) p = get (f a) p := by
  have hge := get_foldl_join f l c p
  rcases (hge _).mp (Nat.le_refl _) with hc | ⟨a, ha, hle⟩
  · exact .inl (Nat.le_antisymm hc ((hge _).mpr (.inl (Nat.le_refl _))))
  · exact .inr ⟨a, ha, Nat.le_antisymm hle
      ((hge _).mpr (.inr ⟨a, ha, Nat.le_refl _⟩))⟩

/-- A loop that takes maxima ends with the greatest of the values. -/
theorem isGreatest_foldl {α β γ : Type*} [LinearOrder β] {g : γ → β} {f : γ → α → γ}
    {v : α → β} {l : List α} (hmax : ∀ c, ∀ a ∈ l, g (f c a) = max (g c) (v a)) (c : γ) :
    IsGreatest {k | k = g c ∨ ∃ a ∈ l, v a = k} (g (l.foldl f c)) := by
  induction l generalizing c with
  | nil =>
    refine ⟨.inl rfl, ?_⟩
    rintro k (rfl | ⟨a, ha, _⟩)
    · exact le_refl _
    · cases ha
  | cons a l ih =>
    rw [List.foldl_cons]
    obtain ⟨hmem, hle⟩ := ih (fun c b hb => hmax c b (List.mem_cons_of_mem a hb)) (f c a)
    have hhead := hmax c a List.mem_cons_self
    constructor
    · rcases hmem with heq | ⟨b, hb, heq⟩
      · rw [hhead] at heq
        rcases max_choice (g c) (v a) with h | h
        · exact .inl (heq.trans h)
        · exact .inr ⟨a, List.mem_cons_self, (heq.trans h).symm⟩
      · exact .inr ⟨b, List.mem_cons_of_mem a hb, heq⟩
    · have hfirst : max (g c) (v a) ≤ g (l.foldl f (f c a)) := hle (.inl hhead.symm)
      rintro k (rfl | ⟨b, hb, rfl⟩)
      · exact le_trans (le_max_left _ _) hfirst
      · rcases List.mem_cons.mp hb with rfl | hb
        · exact le_trans (le_max_right _ _) hfirst
        · exact hle (.inr ⟨b, hb, rfl⟩)

theorem isLeast_foldl {α β γ : Type*} [LinearOrder β] {g : γ → β} {f : γ → α → γ}
    {v : α → β} {l : List α} (hmin : ∀ c, ∀ a ∈ l, g (f c a) = min (g c) (v a)) (c : γ) :
    IsLeast {k | k = g c ∨ ∃ a ∈ l, v a = k} (g (l.foldl f c)) :=
  @isGreatest_foldl α βᵒᵈ γ _ g f v l hmin c

/-! ## Clocks of a graph -/

section Graph

variable {α π : Type*} (edge : α → α → Prop) (proc : α → π) (idx : α → Nat)
  (clock : α → π → Nat)

open Relation

/-- Each component is the index of a node in the past. -/
def Sound : Prop :=
  ∀ e p, 0 < clock e p → ∃ a, ReflTransGen edge a e ∧ proc a = p ∧ idx a = clock e p

/-- The clock of a node of `nodes` counts the node and covers the clocks of
its predecessors. -/
structure Above (nodes : Set α) : Prop where
  own : ∀ e ∈ nodes, idx e ≤ clock e (proc e)
  edge : ∀ a e, edge a e → ∀ p, clock a p ≤ clock e p

variable {edge proc idx clock}

theorem Above.past {nodes : Set α} (h : Above edge proc idx clock nodes) {a e : α}
    (hpast : ReflTransGen edge a e) (p : π) : clock a p ≤ clock e p := by
  induction hpast with
  | refl => exact Nat.le_refl _
  | tail _ hlast ih => exact Nat.le_trans ih (h.edge _ _ hlast p)

theorem Above.idx_le {nodes : Set α} (h : Above edge proc idx clock nodes) {a e : α}
    (ha : a ∈ nodes) (hpast : ReflTransGen edge a e) : idx a ≤ clock e (proc a) :=
  Nat.le_trans (h.own a ha) (h.past hpast _)

/-- A clock that is sound and above is exact: the component of `p` is the
greatest index of a node of `p` in the past. -/
theorem isGreatest_past {nodes : Set α} (hsound : Sound edge proc idx clock)
    (habove : Above edge proc idx clock nodes)
    (hnodes : ∀ a e, edge a e → a ∈ nodes) {e : α} (he : e ∈ nodes) (p : π) :
    IsGreatest {k | k = 0 ∨ ∃ a, ReflTransGen edge a e ∧ proc a = p ∧ idx a = k}
      (clock e p) := by
  constructor
  · rcases Nat.eq_zero_or_pos (clock e p) with hzero | hpos
    · exact .inl hzero
    · exact .inr (hsound e p hpos)
  · rintro k (rfl | ⟨a, hpast, rfl, rfl⟩)
    · exact Nat.zero_le _
    · refine habove.idx_le ?_ hpast
      rcases ReflTransGen.cases_head hpast with rfl | ⟨b, hab, -⟩
      · exact he
      · exact hnodes a b hab

/-- The clock of a node tells its past, when the nodes of a process are in a
line. -/
theorem Above.past_iff {nodes : Set α} {a e : α} (hsound : Sound edge proc idx clock)
    (habove : Above edge proc idx clock nodes)
    (hline : ∀ a b, a ∈ nodes → ReflTransGen edge b e → proc a = proc b → idx a ≤ idx b →
      ReflTransGen edge a b) (ha : a ∈ nodes) (hpos : 0 < idx a) :
    ReflTransGen edge a e ↔ idx a ≤ clock e (proc a) := by
  constructor
  · exact fun hpast => habove.idx_le ha hpast
  · intro hle
    obtain ⟨b, hbe, hproc, hidx⟩ := hsound e (proc a) (by omega)
    exact (hline a b ha hbe hproc.symm (by omega)).trans hbe

/-- On a cycle all clocks are equal. -/
theorem Above.acyclic {nodes : Set α} (h : Above edge proc idx clock nodes)
    (hne : ∀ a e, edge a e → ∃ p, clock a p ≠ clock e p) (e : α) :
    ¬ TransGen edge e e := by
  intro hcycle
  obtain ⟨a, hea, hae⟩ := TransGen.tail'_iff.mp hcycle
  obtain ⟨p, hp⟩ := hne a e hae
  exact hp (Nat.le_antisymm (h.edge a e hae p) (h.past hea p))

/-! ## Clocks of the future -/

variable (edge proc idx clock) (top : π → Nat)

/-- Each component is the top, or the index of a node in the future. -/
def Reached (nodes : Set α) : Prop :=
  ∀ e ∈ nodes, ∀ p,
    clock e p = top p ∨ ∃ a, ReflTransGen edge e a ∧ proc a = p ∧ idx a = clock e p

/-- The clock of a node of `nodes` is bounded by the node, by the clocks of its
successors and by the top. -/
structure Under (nodes : Set α) : Prop where
  own : ∀ e ∈ nodes, clock e (proc e) ≤ idx e
  edge : ∀ e a, edge e a → ∀ p, clock e p ≤ clock a p
  top : ∀ e ∈ nodes, ∀ p, clock e p ≤ top p

variable {edge proc idx clock top}

theorem Under.future {nodes : Set α} (h : Under edge proc idx clock top nodes) {e a : α}
    (hfuture : ReflTransGen edge e a) (p : π) : clock e p ≤ clock a p := by
  induction hfuture with
  | refl => exact Nat.le_refl _
  | tail _ hlast ih => exact Nat.le_trans ih (h.edge _ _ hlast p)

theorem Under.le_idx {nodes : Set α} (h : Under edge proc idx clock top nodes) {e a : α}
    (ha : a ∈ nodes) (hfuture : ReflTransGen edge e a) : clock e (proc a) ≤ idx a :=
  Nat.le_trans (h.future hfuture _) (h.own a ha)

/-- A node at or past the clock is in the future, or has the index of the
top. -/
theorem Under.future_iff {nodes : Set α} (hreached : Reached edge proc idx clock top nodes)
    (hunder : Under edge proc idx clock top nodes) {e a : α} (he : e ∈ nodes)
    (ha : a ∈ nodes) (htop : idx a ≤ top (proc a))
    (hline : ∀ b, ReflTransGen edge e b → proc b = proc a → idx b ≤ idx a →
      ReflTransGen edge b a) :
    clock e (proc a) ≤ idx a ↔ ReflTransGen edge e a ∨ idx a = top (proc a) := by
  constructor
  · intro hle
    rcases hreached e he (proc a) with heq | ⟨b, heb, hproc, hidx⟩
    · exact .inr (by omega)
    · exact .inl (heb.trans (hline b heb hproc (by omega)))
  · intro hor
    rcases hor with hfuture | heq
    · exact hunder.le_idx ha hfuture
    · have hle := hunder.top e he (proc a)
      omega

end Graph

end VectorClock
