import Mathlib.Data.List.Basic

/-!
# A heap of cells

The cells are numbered in the order of their allocation, and a number is not
given out again.  A cell that was freed reads as `none`, like one that was
never allocated, so code that reads through a stale pointer has no result.

Every operation has one lemma that says what each address reads afterwards.
-/

structure Heap (α : Type) where
  cells : List (Option α) := []
deriving DecidableEq, Repr

namespace Heap

variable {α : Type}

/-- The contents of a live cell. -/
def read (h : Heap α) (a : Nat) : Option α := (h.cells[a]?).join

/-- The address that the next allocation gets. -/
def next (h : Heap α) : Nat := h.cells.length

def alloc (h : Heap α) (x : α) : Heap α := ⟨h.cells ++ [some x]⟩

def write (h : Heap α) (a : Nat) (x : α) : Heap α := ⟨h.cells.set a (some x)⟩

def free (h : Heap α) (a : Nat) : Heap α := ⟨h.cells.set a none⟩

/-- The address of a live cell was given out. -/
theorem lt_next {h : Heap α} {a : Nat} {x : α} (hread : h.read a = some x) :
    a < h.next := by
  by_cases ha : a < h.cells.length
  · exact ha
  · rw [read, List.getElem?_eq_none (Nat.le_of_not_lt ha)] at hread
    cases hread

@[simp] theorem read_next (h : Heap α) : h.read h.next = none := by
  rw [read, next, List.getElem?_eq_none (Nat.le_refl _)]
  rfl

theorem read_alloc (h : Heap α) (x : α) (a : Nat) :
    (h.alloc x).read a = if a = h.next then some x else h.read a := by
  show ((h.cells ++ [some x])[a]?).join = _
  by_cases heq : a = h.next
  · subst heq
    rw [if_pos rfl, next, List.getElem?_concat_length]
    rfl
  · rw [if_neg heq]
    by_cases hlt : a < h.cells.length
    · rw [List.getElem?_append_left hlt]
      rfl
    · have hgt : (h.cells ++ [some x]).length ≤ a := by
        rw [List.length_append, List.length_singleton]
        have : a ≠ h.cells.length := heq
        omega
      rw [List.getElem?_eq_none hgt, read,
        List.getElem?_eq_none (Nat.le_of_not_lt hlt)]

@[simp] theorem read_alloc_next (h : Heap α) (x : α) :
    (h.alloc x).read h.next = some x := by
  rw [read_alloc, if_pos rfl]

/-- An allocation leaves the live cells alone. -/
theorem read_alloc_of_read {h : Heap α} {a : Nat} {y : α} (x : α)
    (hread : h.read a = some y) : (h.alloc x).read a = some y := by
  rw [read_alloc, if_neg (Nat.ne_of_lt (lt_next hread)), hread]

theorem read_write_self {h : Heap α} {a : Nat} {y : α} (x : α)
    (hread : h.read a = some y) : (h.write a x).read a = some x := by
  show ((h.cells.set a (some x))[a]?).join = some x
  rw [List.getElem?_set_self (lt_next hread)]
  rfl

theorem read_write_ne (h : Heap α) {a b : Nat} (x : α) (hne : b ≠ a) :
    (h.write a x).read b = h.read b := by
  show ((h.cells.set a (some x))[b]?).join = h.read b
  rw [List.getElem?_set_ne (Ne.symm hne)]
  rfl

@[simp] theorem read_free_self (h : Heap α) (a : Nat) : (h.free a).read a = none := by
  show ((h.cells.set a none)[a]?).join = none
  rw [List.getElem?_set]
  split
  · split <;> rfl
  · next hne => exact absurd rfl hne

theorem read_free_ne (h : Heap α) {a b : Nat} (hne : b ≠ a) :
    (h.free a).read b = h.read b := by
  show ((h.cells.set a none)[b]?).join = h.read b
  rw [List.getElem?_set_ne (Ne.symm hne)]
  rfl

@[simp] theorem next_alloc (h : Heap α) (x : α) :
    (h.alloc x).next = h.next + 1 := by
  show (h.cells ++ [some x]).length = h.cells.length + 1
  rw [List.length_append, List.length_singleton]

@[simp] theorem next_write (h : Heap α) (a : Nat) (x : α) :
    (h.write a x).next = h.next :=
  List.length_set

@[simp] theorem next_free (h : Heap α) (a : Nat) : (h.free a).next = h.next :=
  List.length_set

end Heap
