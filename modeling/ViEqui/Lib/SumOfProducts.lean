import Mathlib.Data.List.Basic
import Mathlib.Data.List.Perm.Subperm
import Mathlib.Logic.Nontrivial.Basic

/-!
# Products of equations

A product is a list of pairs `(k, x)`, read as the conjunction of the equations
`v k = x` for an assignment `v`.

* `Sat v p`: all equations of `p` hold under `v`.
* `sat_remove`: an equation that holds can be removed.
* `exists_not_sat`: a product with an equation is false under some assignment.
-/

namespace SumOfProducts

variable {K V : Type*} {v : K → V} {p q : List (K × V)} {k : K} {x : V}

/-- All equations of `p` hold under `v`. -/
def Sat (v : K → V) (p : List (K × V)) : Prop := ∀ t ∈ p, v t.1 = t.2

@[simp] theorem sat_nil : Sat v [] := by
  intro t ht
  cases ht

@[simp] theorem sat_cons {t : K × V} : Sat v (t :: p) ↔ v t.1 = t.2 ∧ Sat v p :=
  List.forall_mem_cons

@[simp] theorem sat_append : Sat v (p ++ q) ↔ Sat v p ∧ Sat v q :=
  List.forall_mem_append

theorem sat_congr (h : ∀ t, t ∈ p ↔ t ∈ q) : Sat v p ↔ Sat v q :=
  ⟨fun hp t ht => hp t ((h t).mpr ht), fun hq t ht => hq t ((h t).mp ht)⟩

/-- A product without duplicates that is part of another one of its length has
the same meaning. -/
theorem sat_iff_of_subset (hp : p.Nodup) (hlength : p.length = q.length) (hsub : p ⊆ q) :
    Sat v p ↔ Sat v q := by
  have hperm : p.Perm q := (List.subperm_of_subset hp hsub).perm_of_length_le (by omega)
  exact sat_congr fun t => hperm.mem_iff

/-- An equation that holds can be removed. -/
theorem sat_remove (h : v k = x) : Sat v (p ++ (k, x) :: q) ↔ Sat v (p ++ q) := by
  simp [h]

/-- No product with an equation that does not hold is true. -/
theorem not_sat_of_mem {t : K × V} (ht : t ∈ p) (hne : v t.1 ≠ t.2) : ¬Sat v p :=
  fun h => hne (h t ht)

/-- A product with an equation is false under some assignment. -/
theorem exists_not_sat [Nontrivial V] (hp : p ≠ []) : ∃ v : K → V, ¬Sat v p := by
  obtain ⟨t, ht⟩ := List.exists_mem_of_ne_nil p hp
  obtain ⟨y, hy⟩ := exists_ne t.2
  exact ⟨fun _ => y, not_sat_of_mem ht hy⟩

end SumOfProducts
