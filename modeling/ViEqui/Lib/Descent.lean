import Mathlib.Data.List.Basic
import Mathlib.Data.List.Sort
import Mathlib.Data.Prod.Lex
import Mathlib.Logic.Relation
import Mathlib.Order.WellFounded
import ViEqui.Lib.Passing

/-!
# Descent of places

`Drops l f g`: at the first element of `l` where the numbers `f` and `g`
differ, `f` is smaller.  The relation is well-founded, so an algorithm ends if
each of its steps lets the numbers drop in the order of one list.

The numbers here are places in a list that is rearranged by shifts.  A shift
puts the element that is passed nearer to the front, and nothing further
behind but the elements that are shifted.

`exists_topological` is a list to let the numbers drop along: it has the
elements in an order that a relation without cycles allows.
-/

namespace Shift

variable {α : Type*}

/-- At the first element of `l` where they differ, `f` is below `g`. -/
def Drops : List α → (α → Nat) → (α → Nat) → Prop
  | [], _, _ => False
  | x :: l, f, g => f x < g x ∨ f x = g x ∧ Drops l f g

theorem wellFounded_drops (l : List α) : WellFounded (Drops l) := by
  induction l with
  | nil => exact ⟨fun f => .intro f fun g h => h.elim⟩
  | cons x l ih =>
    have hlex : WellFounded (Prod.Lex (· < ·) (Drops l)) := Nat.lt_wfRel.wf.prod_lex ih
    refine Subrelation.wf ?_ (InvImage.wf (fun f : α → Nat => (f x, f)) hlex)
    intro f g h
    rcases h with hlt | ⟨heq, hdrops⟩
    · exact Prod.Lex.left _ _ hlt
    · show Prod.Lex _ _ (f x, f) (g x, g)
      rw [heq]
      exact Prod.Lex.right _ hdrops

/-- The numbers drop if one of them does and none before it rises. -/
theorem drops_of_le {f g : α → Nat} {A : List α} {x : α} {B : List α}
    (hle : ∀ a ∈ A, f a ≤ g a) (hlt : f x < g x) : Drops (A ++ x :: B) f g := by
  induction A with
  | nil => exact .inl hlt
  | cons a A ih =>
    have hrest := ih fun b hb => hle b (List.mem_cons_of_mem a hb)
    rcases Nat.lt_or_eq_of_le (hle a List.mem_cons_self) with h | h
    · exact .inl h
    · exact .inr ⟨h, hrest⟩

/-- The elements of a list in an order that a relation without cycles
allows. -/
theorem exists_topological {r : α → α → Prop} {l : List α}
    (hacyclic : ∀ a ∈ l, ¬Relation.TransGen r a a) :
    ∃ E : List α, E.Perm l ∧ E.Pairwise fun a b => ¬Relation.TransGen r b a := by
  classical
  -- by the number of the elements that have to come before
  let rank (a : α) : Nat := (l.filter fun x => Relation.TransGen r x a).length
  have hrank : ∀ a b, b ∈ l → Relation.TransGen r b a → rank b < rank a := by
    intro a b hb hba
    have hfilter : l.filter (fun x => Relation.TransGen r x b) =
        (l.filter fun x => Relation.TransGen r x a).filter
          fun x => Relation.TransGen r x b := by
      rw [List.filter_filter]
      refine List.filter_congr fun x _ => ?_
      by_cases hx : Relation.TransGen r x b
      · simp [hx, hx.trans hba]
      · simp [hx]
    show (l.filter fun x => Relation.TransGen r x b).length < _
    rw [hfilter, List.length_filter_lt_length_iff_exists]
    refine ⟨b, List.mem_filter.mpr ⟨hb, by simpa using hba⟩, ?_⟩
    simpa using hacyclic b hb
  refine ⟨l.mergeSort fun a b => rank a ≤ rank b, List.mergeSort_perm _ _, ?_⟩
  have hsorted : (l.mergeSort fun a b => rank a ≤ rank b).Pairwise
      fun a b => decide (rank a ≤ rank b) :=
    List.pairwise_mergeSort (by simpa using fun a b c => Nat.le_trans)
      (by simpa using fun a b => Nat.le_total _ _) l
  refine hsorted.imp_of_mem fun {a b} _ hb hle hba => ?_
  have hlt := hrank a b (List.mem_mergeSort.mp hb) hba
  simp only [decide_eq_true_eq] at hle
  omega

/-! ## Places after a shift -/

variable {mine : α → Bool} {last : α} {seg P Q : List α}

theorem length_behind : (behind mine last seg).length = seg.length + 1 := by
  have hsplit : seg.length =
      (seg.filter mine).length + (seg.filter (fun a => !mine a)).length := by
    simpa [List.countP_eq_length_filter] using List.length_eq_countP_add_countP mine
  simp only [behind, List.length_append, List.length_cons]
  omega

variable [DecidableEq α]

theorem idxOf_filter_le {p : α → Bool} {x : α} (hx : p x) (l : List α) :
    (l.filter p).idxOf x ≤ l.idxOf x := by
  induction l with
  | nil => exact Nat.le_refl _
  | cons a l ih =>
    by_cases ha : a = x
    · subst ha
      simp [hx]
    · rw [List.idxOf_cons_ne _ ha, List.filter_cons]
      split
      · rw [List.idxOf_cons_ne _ ha]
        omega
      · omega

/-- No place rises but those of the elements that are shifted. -/
theorem idxOf_behind_le {x : α} (hx : x ∉ seg.filter mine) :
    (P ++ (behind mine last seg ++ Q)).idxOf x ≤
      (P ++ (seg ++ last :: Q)).idxOf x := by
  by_cases hP : x ∈ P
  · rw [List.idxOf_append_of_mem hP, List.idxOf_append_of_mem hP]
  rw [List.idxOf_append_of_notMem hP, List.idxOf_append_of_notMem hP]
  refine Nat.add_le_add_left ?_ _
  by_cases hseg : x ∈ seg
  · have hother : mine x = false := by
      by_contra hmine
      exact hx (List.mem_filter.mpr ⟨hseg, by simpa using hmine⟩)
    have hmem : x ∈ seg.filter (fun a => !mine a) :=
      List.mem_filter.mpr ⟨hseg, by simp [hother]⟩
    rw [behind, List.append_assoc, List.idxOf_append_of_mem hmem,
      List.idxOf_append_of_mem hseg]
    exact idxOf_filter_le (by simp [hother]) seg
  · have hfilter : x ∉ seg.filter (fun a => !mine a) :=
      fun h => hseg (List.mem_filter.mp h).1
    rw [List.idxOf_append_of_notMem hseg, behind, List.append_assoc,
      List.idxOf_append_of_notMem hfilter]
    have hle := List.length_filter_le (fun a => !mine a) seg
    by_cases hlast : last = x
    · subst hlast
      rw [List.cons_append, List.idxOf_cons_self, List.idxOf_cons_self]
      omega
    · rw [List.cons_append, List.idxOf_cons_ne _ hlast, List.idxOf_cons_ne _ hlast,
        List.idxOf_append_of_notMem hx]
      have hlen : (behind mine last seg).length = seg.length + 1 := length_behind
      simp only [behind, List.length_append, List.length_cons] at hlen
      omega

/-- The element that is passed comes nearer to the front. -/
theorem idxOf_last_behind_lt (hP : last ∉ P) (hseg : last ∉ seg) {a : α}
    (ha : a ∈ seg) (hmine : mine a) :
    (P ++ (behind mine last seg ++ Q)).idxOf last <
      (P ++ (seg ++ last :: Q)).idxOf last := by
  have hfilter : last ∉ seg.filter (fun a => !mine a) :=
    fun h => hseg (List.mem_filter.mp h).1
  rw [List.idxOf_append_of_notMem hP, List.idxOf_append_of_notMem hP,
    List.idxOf_append_of_notMem hseg, behind, List.append_assoc,
    List.idxOf_append_of_notMem hfilter, List.cons_append, List.idxOf_cons_self,
    List.idxOf_cons_self]
  have hlt : (seg.filter (fun a => !mine a)).length < seg.length :=
    List.length_filter_lt_length_iff_exists.mpr ⟨a, ha, by simp [hmine]⟩
  omega

end Shift
