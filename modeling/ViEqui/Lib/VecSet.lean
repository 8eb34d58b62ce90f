import Mathlib.Data.List.Basic
import Mathlib.Order.Defs.Unbundled

/-!
# Sets as sorted vectors

`VecSet` of `src/vecset.h`: a vector in strictly increasing order.  The binary
search for the place of an element is left out: on a sorted vector it finds
the place that the scan here finds.
-/

/-- `VecSet<T>`. -/
structure VecSet (α : Type) [LT α] where
  vec : List α
  sorted : vec.Pairwise (· < ·)

namespace VecSet

section Insert

variable {α : Type} [LT α] [DecidableLT α]

/-- The vector with `a` at its place, unless it is there already. -/
def insertVec (a : α) : List α → List α
  | [] => [a]
  | b :: l => if a < b then a :: b :: l else if b < a then b :: insertVec a l else b :: l

end Insert

section Laws

variable {α : Type} [LT α]

instance : Membership α (VecSet α) := ⟨fun s a => a ∈ s.vec⟩

instance : EmptyCollection (VecSet α) := ⟨⟨[], .nil⟩⟩

instance : Inhabited (VecSet α) := ⟨∅⟩

instance [DecidableEq α] (a : α) (s : VecSet α) : Decidable (a ∈ s) :=
  inferInstanceAs (Decidable (a ∈ s.vec))

instance [DecidableEq α] : DecidableEq (VecSet α) := fun s t =>
  decidable_of_iff (s.vec = t.vec) (by cases s; cases t; simp)

theorem mem_vec {a : α} {s : VecSet α} : a ∈ s.vec ↔ a ∈ s := Iff.rfl

@[simp] theorem not_mem_empty (a : α) : a ∉ (∅ : VecSet α) := List.not_mem_nil

variable [DecidableLT α] [IsStrictTotalOrder α (· < ·)]

theorem mem_insertVec {a b : α} {l : List α} : b ∈ insertVec a l ↔ b = a ∨ b ∈ l := by
  induction l with
  | nil => simp [insertVec]
  | cons c l ih =>
    unfold insertVec
    split_ifs with hac hca
    · simp
    · rw [List.mem_cons, List.mem_cons, ih]
      tauto
    · have heq : a = c := by
        rcases trichotomous_of (· < ·) a c with h | h | h
        · exact absurd h hac
        · exact h
        · exact absurd h hca
      subst heq
      simp

theorem pairwise_insertVec {a : α} {l : List α} (hl : l.Pairwise (· < ·)) :
    (insertVec a l).Pairwise (· < ·) := by
  induction l with
  | nil => exact List.pairwise_singleton _ a
  | cons c l ih =>
    obtain ⟨hc, hl⟩ := List.pairwise_cons.mp hl
    unfold insertVec
    split_ifs with hac hca
    · refine List.pairwise_cons.mpr ⟨fun b hb => ?_, List.pairwise_cons.mpr ⟨hc, hl⟩⟩
      rcases List.mem_cons.mp hb with rfl | hb
      · exact hac
      · exact trans_of (· < ·) hac (hc b hb)
    · refine List.pairwise_cons.mpr ⟨fun b hb => ?_, ih hl⟩
      rcases mem_insertVec.mp hb with rfl | hb
      · exact hca
      · exact hc b hb
    · exact List.pairwise_cons.mpr ⟨hc, hl⟩

omit [DecidableLT α] in
theorem nodup (s : VecSet α) : s.vec.Nodup := by
  refine List.Pairwise.imp (fun {a b} hab => ?_) s.sorted
  rintro rfl
  exact irrefl_of (· < ·) a hab

/-- `insert(t)`. -/
def insert (s : VecSet α) (a : α) : VecSet α := ⟨insertVec a s.vec, pairwise_insertVec s.sorted⟩

/-- `insert(s)`: the elements of `t` too. -/
def insertAll (s t : VecSet α) : VecSet α := t.vec.foldl insert s

/-- The set of the elements of a list. -/
def ofList (l : List α) : VecSet α := l.foldl insert ∅

@[simp] theorem mem_insert {s : VecSet α} {a b : α} : b ∈ s.insert a ↔ b = a ∨ b ∈ s :=
  mem_insertVec

theorem mem_foldl_insert {l : List α} {s : VecSet α} {b : α} :
    b ∈ l.foldl insert s ↔ b ∈ l ∨ b ∈ s := by
  induction l generalizing s with
  | nil => simp
  | cons a l ih =>
    rw [List.foldl_cons, ih, mem_insert, List.mem_cons]
    tauto

@[simp] theorem mem_insertAll {s t : VecSet α} {b : α} : b ∈ s.insertAll t ↔ b ∈ s ∨ b ∈ t := by
  rw [insertAll, mem_foldl_insert, mem_vec, or_comm]

@[simp] theorem mem_ofList {l : List α} {b : α} : b ∈ ofList l ↔ b ∈ l := by
  simp [ofList, mem_foldl_insert]

end Laws

section Erase

variable {α : Type} [LT α] [DecidableEq α]

/-- `erase(t)`. -/
def erase (s : VecSet α) (a : α) : VecSet α :=
  ⟨s.vec.filter (· ≠ a), s.sorted.sublist List.filter_sublist⟩

/-- `erase(s)`: without the elements of `t`. -/
def eraseAll (s t : VecSet α) : VecSet α :=
  ⟨s.vec.filter (· ∉ t), s.sorted.sublist List.filter_sublist⟩

@[simp] theorem mem_erase {s : VecSet α} {a b : α} : b ∈ s.erase a ↔ b ∈ s ∧ b ≠ a := by
  unfold erase
  rw [← mem_vec, List.mem_filter, decide_eq_true_iff, mem_vec]

end Erase

end VecSet
