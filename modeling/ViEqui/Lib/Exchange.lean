import Mathlib.Data.List.Perm.Basic
import ViEqui.Lib.Precedence

/-!
# Exchanges of adjacent independent elements

`Exchange dep l l'`: `l'` comes from `l` by exchanging adjacent elements that
do not depend on each other.  The elements stay the same, and so does the
order of any two that depend on each other.

`shiftBehind` is the in-place algorithm that moves all elements of a kind
from a segment of a list behind the end of the segment, by exchanges from the
back of the segment to its front.  `shiftBehind_append` is its closed form.
-/

namespace Shift

open Precedence

variable {α : Type*}

/-! ## The relation -/

/-- Exchanges of adjacent elements `a`, `b` without `dep a b`. -/
inductive Exchange (dep : α → α → Bool) : List α → List α → Prop
  | refl (l : List α) : Exchange dep l l
  | swap {l : List α} (P : List α) (a b : α) (Q : List α)
      (h : Exchange dep l (P ++ a :: b :: Q)) (hab : dep a b = false) :
      Exchange dep l (P ++ b :: a :: Q)

variable {dep : α → α → Bool}

theorem Exchange.trans {l l' l'' : List α} (h : Exchange dep l l')
    (h' : Exchange dep l' l'') : Exchange dep l l'' := by
  induction h' with
  | refl => exact h
  | swap P a b Q _ hab ih => exact .swap P a b Q ih hab

theorem Exchange.perm {l l' : List α} (h : Exchange dep l l') : l.Perm l' := by
  induction h with
  | refl => exact .refl _
  | swap P a b Q _ _ ih => exact ih.trans ((List.Perm.swap b a Q).append_left P)

theorem Exchange.append_left (P : List α) {l l' : List α}
    (h : Exchange dep l l') : Exchange dep (P ++ l) (P ++ l') := by
  induction h with
  | refl => exact .refl _
  | swap P' a b Q _ hab ih =>
    rw [← List.append_assoc] at ih ⊢
    exact .swap (P ++ P') a b Q ih hab

/-- Move `a` behind the elements of `M`. -/
theorem exchange_past {a : α} (M Q : List α) (h : ∀ b ∈ M, dep a b = false) :
    Exchange dep (a :: (M ++ Q)) (M ++ a :: Q) := by
  induction M with
  | nil => exact .refl _
  | cons b M ih =>
    have hab : dep a b = false := h b (by simp)
    have hfirst : Exchange dep (a :: b :: (M ++ Q)) (b :: a :: (M ++ Q)) :=
      .swap [] a b (M ++ Q) (.refl _) hab
    have hrest := ih fun c hc => h c (List.mem_cons_of_mem b hc)
    exact hfirst.trans (hrest.append_left [b])

/-- One exchange keeps the order of any other two elements. -/
theorem precedes_swap {P Q : List α} {a b x y : α} (hne : ¬(x = a ∧ y = b))
    (h : Precedes (P ++ a :: b :: Q) x y) : Precedes (P ++ b :: a :: Q) x y := by
  rw [Precedes, List.sublist_append_iff] at h ⊢
  obtain ⟨l1, l2, heq, h1, h2⟩ := h
  refine ⟨l1, l2, heq, h1, ?_⟩
  have hlen : l2.length ≤ 2 := by
    have := congrArg List.length heq
    simp only [List.length_cons, List.length_nil, List.length_append] at this
    omega
  have hswap : ∀ c : List α, c.length ≤ 1 → c.Sublist (a :: b :: Q) →
      c.Sublist (b :: a :: Q) := by
    intro c hc hsub
    cases c with
    | nil => exact List.nil_sublist _
    | cons c rest =>
      obtain rfl : rest = [] := by simpa using hc
      have hmem := List.singleton_sublist.mp hsub
      refine List.singleton_sublist.mpr ?_
      simp only [List.mem_cons] at hmem ⊢
      tauto
  rcases l2 with _ | ⟨c, _ | ⟨d, rest⟩⟩
  · exact List.nil_sublist _
  · exact hswap [c] (by simp) h2
  · obtain rfl : rest = [] := by simpa using hlen
    have hl1 : l1 = [] := by
      have := congrArg List.length heq
      simp only [List.length_cons, List.length_nil, List.length_append] at this
      exact List.length_eq_zero_iff.mp (by omega)
    subst hl1
    rw [List.nil_append] at heq
    injection heq with hxc heq
    injection heq with hyd _
    subst hxc hyd
    rcases List.cons_sublist_cons'.mp h2 with hb | ⟨hxa, hb⟩
    · -- both stand from `b` on
      rcases List.cons_sublist_cons'.mp hb with hQ | ⟨hxb, hQ⟩
      · exact (hQ.cons a).cons b
      · rw [hxb]
        exact (hQ.cons a).cons_cons b
    · rw [hxa]
      rcases List.cons_sublist_cons'.mp hb with hQ | ⟨hyb, _⟩
      · exact (hQ.cons_cons a).cons b
      · exact absurd ⟨hxa, hyb⟩ hne

/-- Exchanges keep the order of dependent elements. -/
theorem Exchange.precedes_iff {l l' : List α} (h : Exchange dep l l')
    (hsymm : ∀ a b, dep a b = dep b a) {x y : α} (hdep : dep x y) :
    Precedes l x y ↔ Precedes l' x y := by
  induction h with
  | refl => exact Iff.rfl
  | swap P a b Q _ hab ih =>
    rw [ih]
    constructor
    · refine precedes_swap ?_
      rintro ⟨rfl, rfl⟩
      rw [hab] at hdep
      exact absurd hdep (by simp)
    · refine precedes_swap ?_
      rintro ⟨rfl, rfl⟩
      rw [hsymm, hab] at hdep
      exact absurd hdep (by simp)

/-! ## Shifting elements behind a segment -/

/-- No element of the segment with `mine` depends on an element without it
behind it, or on `last`. -/
def Clear (dep : α → α → Bool) (mine : α → Bool) (last : α) : List α → Prop
  | [] => True
  | a :: seg =>
    (mine a → ∀ b ∈ seg.filter (fun b => !mine b) ++ [last], dep a b = false) ∧
      Clear dep mine last seg

/-- A segment with its elements with `mine` behind `last`. -/
def behind (mine : α → Bool) (last : α) (seg : List α) : List α :=
  seg.filter (fun a => !mine a) ++ last :: seg.filter mine

instance instDecidableClear (dep : α → α → Bool) (mine : α → Bool) (last : α) :
    ∀ seg, Decidable (Clear dep mine last seg)
  | [] => isTrue trivial
  | _ :: seg =>
    have := instDecidableClear dep mine last seg
    inferInstanceAs (Decidable (_ ∧ _))

theorem Clear.of_append {mine : α → Bool} {last : α} {seg done : List α}
    (h : Clear dep mine last (seg ++ done)) : Clear dep mine last done := by
  induction seg with
  | nil => exact h
  | cons a seg ih => exact ih h.2

/-- A shift of elements with `mine` is clear also of what depends on each
other only among them. -/
theorem Clear.mono {dep' : α → α → Bool} {mine : α → Bool} {last : α}
    {seg : List α} (hlast : mine last = false)
    (h : ∀ a b, mine a → mine b = false → dep a b = false → dep' a b = false)
    (hclear : Clear dep mine last seg) : Clear dep' mine last seg := by
  induction seg with
  | nil => trivial
  | cons a seg ih =>
    refine ⟨fun hmine b hb => ?_, ih hclear.2⟩
    have hb' : mine b = false := by
      rcases List.mem_append.mp hb with hb | hb
      · simpa using (List.mem_filter.mp hb).2
      · rw [List.mem_singleton.mp hb, hlast]
    exact h a b hmine hb' (hclear.1 hmine b hb)

/-- The shift is a series of exchanges. -/
theorem exchange_behind {mine : α → Bool} {last : α} {seg : List α}
    (hclear : Clear dep mine last seg) (Q : List α) :
    Exchange dep (seg ++ last :: Q) (behind mine last seg ++ Q) := by
  induction seg with
  | nil => exact .refl _
  | cons a seg ih =>
    have hrest := (ih hclear.2).append_left [a]
    cases hmine : mine a with
    | false => simpa [behind, hmine] using hrest
    | true =>
      have hpast := exchange_past (seg.filter (fun b => !mine b) ++ [last])
        (seg.filter mine ++ Q) (hclear.1 hmine)
      refine hrest.trans ?_
      simpa [behind, hmine] using hpast

/-- Exchange the elements at `j` and `j + 1`. -/
def swapAt : List α → Nat → List α
  | a :: b :: l, 0 => b :: a :: l
  | a :: l, j + 1 => a :: swapAt l j
  | l, _ => l

theorem swapAt_append (P : List α) (a b : α) (Q : List α) :
    swapAt (P ++ a :: b :: Q) P.length = P ++ b :: a :: Q := by
  induction P with
  | nil => rfl
  | cons p P ih =>
    rw [List.length_cons, List.cons_append, List.cons_append, swapAt, ih]

/-- Split a list at two places. -/
theorem exists_segment {n1 n2 : Nat} {l : List α} (h12 : n1 ≤ n2)
    (hn2 : n2 < l.length) :
    ∃ P seg last Q, l = P ++ (seg ++ last :: Q) ∧ P.length = n1 ∧
      n2 = P.length + seg.length := by
  have hle : n1 ≤ l.length := Nat.le_trans h12 (Nat.le_of_lt hn2)
  refine ⟨l.take n1, (l.drop n1).take (n2 - n1), l[n2], l.drop (n2 + 1), ?_, ?_, ?_⟩
  · have hdrop : (l.drop n1).drop (n2 - n1) = l[n2] :: l.drop (n2 + 1) := by
      rw [List.drop_drop, Nat.add_sub_cancel' h12, List.drop_eq_getElem_cons hn2]
    rw [← hdrop, List.take_append_drop, List.take_append_drop]
  · exact List.length_take_of_le hle
  · have hseg : n2 - n1 ≤ (l.drop n1).length := by
      rw [List.length_drop]
      exact Nat.sub_le_sub_right (Nat.le_of_lt hn2) n1
    rw [List.length_take_of_le hle, List.length_take_of_le hseg, Nat.add_sub_cancel' h12]

variable [Inhabited α]

/-- Move the element at `j` up by `n` places, unless it depends on one of the
elements it passes. -/
def shiftUp (dep : α → α → Bool) : Nat → Nat → List α → Option (List α)
  | 0, _, l => some l
  | n + 1, j, l =>
    if dep (l.getD j default) (l.getD (j + 1) default) then none
    else shiftUp dep n (j + 1) (swapAt l j)

/-- Shift the elements with `mine` at the places `n1 + k - 1, …, n1` behind
the place `n2`, where `delim` of them are already. -/
def shiftBehind (dep : α → α → Bool) (mine : α → Bool) (n1 n2 : Nat) :
    Nat → Nat → List α → Option (List α)
  | 0, _, l => some l
  | k + 1, delim, l =>
    let i := n1 + k
    if !mine (l.getD i default) then shiftBehind dep mine n1 n2 k delim l
    else
      match shiftUp dep (n2 - delim - i) i l with
      | none => none
      | some l' => shiftBehind dep mine n1 n2 k (delim + 1) l'

theorem getD_append_cons (P : List α) (a : α) (Q : List α) :
    (P ++ a :: Q).getD P.length default = a := by simp

variable (dep) in
/-- `shiftUp` moves an element past the `n` elements behind it. -/
theorem shiftUp_append (P M Q : List α) (a : α) :
    shiftUp dep M.length P.length (P ++ a :: (M ++ Q)) =
      if ∀ b ∈ M, dep a b = false then some (P ++ (M ++ a :: Q)) else none := by
  induction M generalizing P with
  | nil => simp [shiftUp]
  | cons b M ih =>
    have hnext : (P ++ a :: (b :: M ++ Q)).getD (P.length + 1) default = b := by
      simp
    rw [List.length_cons, shiftUp, getD_append_cons, hnext]
    cases hab : dep a b with
    | true =>
      rw [if_pos rfl, if_neg]
      intro h
      have := h b (by simp)
      rw [hab] at this
      exact absurd this (by simp)
    | false =>
      rw [if_neg (by simp), List.cons_append, swapAt_append]
      have hstep := ih (P ++ [b])
      rw [List.length_append, List.length_singleton] at hstep
      simp only [List.append_assoc, List.singleton_append] at hstep
      rw [hstep]
      simp [hab]

variable (dep) in
/-- The loop in the middle of the segment `seg ++ done`, with `done`
treated. -/
theorem shiftBehind_loop {n2 : Nat} (mine : α → Bool) (P seg done Q : List α)
    (last : α) (hn2 : n2 = P.length + (seg ++ done).length)
    (hclear : Clear dep mine last done) :
    shiftBehind dep mine P.length n2 seg.length (done.filter mine).length
        (P ++ (seg ++ (behind mine last done ++ Q))) =
      if Clear dep mine last (seg ++ done) then
        some (P ++ (behind mine last (seg ++ done) ++ Q))
      else none := by
  induction seg using List.reverseRecOn generalizing done with
  | nil => simp [shiftBehind, hclear]
  | append_singleton seg a ih =>
    have hget : (P ++ (seg ++ [a] ++ (behind mine last done ++ Q))).getD
        (P.length + seg.length) default = a := by
      simp
    have hn2' : n2 = P.length + (seg ++ a :: done).length := by
      simpa using hn2
    have happ : seg ++ [a] ++ done = seg ++ a :: done := by simp
    rw [List.length_append, List.length_singleton, shiftBehind, hget, happ]
    cases hmine : mine a with
    | false =>
      have hdone : Clear dep mine last (a :: done) :=
        ⟨fun h => absurd h (by simp [hmine]), hclear⟩
      have hstep := ih (a :: done) hn2' hdone
      simpa [behind, hmine] using hstep
    | true =>
      -- `a` has to pass the others of `done`, and `last`
      have hcount : n2 - (done.filter mine).length - (P.length + seg.length) =
          (done.filter (fun b => !mine b) ++ [last]).length := by
        have hsplit : done.length =
            (done.filter mine).length + (done.filter (fun b => !mine b)).length := by
          simpa [List.countP_eq_length_filter] using
            List.length_eq_countP_add_countP mine
        simp only [List.length_append, List.length_cons] at hn2'
        simp only [List.length_append, List.length_singleton]
        omega
      have hshift := shiftUp_append dep (P ++ seg)
        (done.filter (fun b => !mine b) ++ [last]) (done.filter mine ++ Q) a
      have hlist : P ++ (seg ++ [a] ++ (behind mine last done ++ Q)) =
          P ++ seg ++ a :: (done.filter (fun b => !mine b) ++ [last] ++
            (done.filter mine ++ Q)) := by
        simp [behind]
      have hlen : (P ++ seg).length = P.length + seg.length := List.length_append
      rw [hlen] at hshift
      simp only [Bool.not_true, Bool.false_eq_true, if_false]
      rw [hcount, hlist, hshift]
      by_cases hpass : ∀ b ∈ done.filter (fun b => !mine b) ++ [last], dep a b = false
      · have hstep := ih (a :: done) hn2' ⟨fun _ => hpass, hclear⟩
        rw [if_pos hpass]
        simpa [behind, hmine] using hstep
      · rw [if_neg hpass, if_neg]
        intro h
        exact hpass ((h.of_append).1 hmine)

/-- `shiftBehind` on a whole segment. -/
theorem shiftBehind_append {n2 : Nat} (mine : α → Bool) (P seg Q : List α)
    (last : α) (hn2 : n2 = P.length + seg.length) :
    shiftBehind dep mine P.length n2 (n2 - P.length) 0 (P ++ (seg ++ last :: Q)) =
      if Clear dep mine last seg then some (P ++ (behind mine last seg ++ Q))
      else none := by
  have hloop := shiftBehind_loop dep mine P seg [] Q last
    (by simpa using hn2) trivial
  have hk : n2 - P.length = seg.length := by omega
  rw [hk]
  simpa [behind] using hloop

/-- Whatever `shiftBehind` answers comes by exchanges. -/
theorem exchange_of_shiftBehind {mine : α → Bool} {n1 n2 : Nat} {l l' : List α}
    (hn2 : n2 < l.length)
    (h : shiftBehind dep mine n1 n2 (n2 - n1) 0 l = some l') :
    Exchange dep l l' := by
  by_cases h12 : n1 ≤ n2
  · obtain ⟨P, seg, last, Q, rfl, rfl, hlen⟩ := exists_segment h12 hn2
    rw [shiftBehind_append mine P seg Q last hlen] at h
    split at h
    · next hclear =>
      cases h
      exact (exchange_behind hclear Q).append_left P
    · cases h
  · have hk : n2 - n1 = 0 := by omega
    rw [hk, shiftBehind] at h
    cases h
    exact .refl _

end Shift
