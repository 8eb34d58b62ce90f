import ViEqui.Support.VecSetOps

/-!
# Runs of calls on a set

`step` is a call on the vector of a set, and `specStep` the same call on the set itself.
`step_matches` says that a call on the vector does what the call on the set does, with the
same result, and `run_matches` that so does every sequence of calls after a construction.
-/

namespace ViEqui.VecSetOps

variable {α : Type} [LinearOrder α] {vec : List α} {t : α}

/-! ## Calls -/

/-- A call. -/
inductive Op (α : Type) [LT α] where
  | insert (t : α)
  | insertGeq (t : α)
  | insertGt (t : α)
  | insertSet (s : VecSet α)
  | erase (t : α)
  | eraseSet (s : VecSet α)
  | popBack
  | count (t : α)
  | find (t : α)
  | subsetOf (s : VecSet α)
  | intersects (s : VecSet α)

/-- What a call returns. -/
inductive Result where
  | unit
  | inserted (i : Nat) (new : Bool)
  | number (n : Int)
  | bool (b : Bool)
deriving DecidableEq, Repr

/-- A call on the vector. -/
def step (vec : List α) : Op α → Option (List α × Result)
  | .insert t => (insert vec t).map fun r => (r.1, .inserted r.2.1 r.2.2)
  | .insertGeq t => (insertGeq vec t).map fun r => (r.1, .inserted r.2.1 r.2.2)
  | .insertGt t => (insertGt vec t).map fun vec => (vec, .unit)
  | .insertSet s => (insertAll vec s.vec).map fun r => (r.1, .number r.2)
  | .erase t => (erase vec t).map fun r => (r.1, .number r.2)
  | .eraseSet s => (eraseAll vec s.vec).map fun r => (r.1, .number r.2)
  | .popBack => (popBack vec).map fun vec => (vec, .unit)
  | .count t => (count vec t).map fun (n : Nat) => (vec, Result.number n)
  | .find t => (find vec t).map fun i => (vec, .number i)
  | .subsetOf s => (subsetOf vec s.vec).map fun b => (vec, .bool b)
  | .intersects s => some (vec, .bool (intersects vec s.vec))

/-- The position of an element in a set. -/
def position (A : Finset α) (t : α) : Nat := (A.filter (· < t)).card

/-- A call on the set; `none` where its assumption does not hold. -/
def specStep (A : Finset α) : Op α → Option (Finset α × Result)
  | .insert t => some (Insert.insert t A, .inserted (position A t) (t ∉ A))
  | .insertGeq t =>
    if ∀ x ∈ A, x ≤ t then some (Insert.insert t A, .inserted (position A t) (t ∉ A)) else none
  | .insertGt t => if ∀ x ∈ A, x < t then some (Insert.insert t A, .unit) else none
  | .insertSet s => some (A ∪ s.vec.toFinset, .number (s.vec.toFinset \ A).card)
  | .erase t => some (A.erase t, .number (if t ∈ A then 1 else 0))
  | .eraseSet s => some (A \ s.vec.toFinset, .number (A ∩ s.vec.toFinset).card)
  | .popBack => if h : A.Nonempty then some (A.erase (A.max' h), .unit) else none
  | .count t => some (A, .number (if t ∈ A then 1 else 0))
  | .find t => some (A, .number (if t ∈ A then (position A t : Int) else -1))
  | .subsetOf s => some (A, .bool (A ⊆ s.vec.toFinset))
  | .intersects s => some (A, .bool (A ∩ s.vec.toFinset).Nonempty)

/-- The calls of a list, one after another, with their results. -/
def runWith {σ : Type} (step : σ → Op α → Option (σ × Result)) :
    List (Op α) → σ → Option (σ × List Result)
  | [], s => some (s, [])
  | op :: ops, s => (step s op).bind fun r =>
    (runWith step ops r.1).map fun r' => (r'.1, r.2 :: r'.2)

/-- The vector is sorted, and is that of the set. -/
structure Denotes (vec : List α) (A : Finset α) : Prop where
  sorted : Sorted vec
  mem : ∀ x, x ∈ vec ↔ x ∈ A

variable {A : Finset α}

theorem Denotes.toFinset (h : Sorted vec) : Denotes vec vec.toFinset :=
  ⟨h, fun _ => List.mem_toFinset.symm⟩

theorem Denotes.card (h : Denotes vec A) (p : α → Bool) :
    (A.filter (p ·)).card = (vec.filter p).length := by
  have hset : A.filter (p ·) = (vec.filter p).toFinset := by
    ext x
    rw [Finset.mem_filter, List.mem_toFinset, List.mem_filter, h.mem]
  rw [hset, List.toFinset_card_of_nodup ((h.sorted.filter _).imp ne_of_lt)]

theorem Denotes.position (h : Denotes vec A) (t : α) : position A t = rank vec t := by
  have := h.card (· < t)
  simpa [VecSetOps.position, rank] using this

/-- The last element of the vector is the largest one of the set. -/
theorem Denotes.forall_getLast_iff (h : Denotes vec A) {P : α → Prop}
    (hP : ∀ x y, x ≤ y → P y → P x) : (∀ x ∈ vec.getLast?, P x) ↔ ∀ x ∈ A, P x := by
  constructor
  · intro hlast x hx
    obtain ⟨i, hi, rfl⟩ := List.mem_iff_getElem.mp ((h.mem x).mpr hx)
    have hlen : vec.length - 1 < vec.length := by omega
    apply hP _ vec[vec.length - 1] _ (hlast _ _)
    · rcases Nat.eq_or_lt_of_le (Nat.le_sub_one_of_lt hi) with heq | hlt
      · simp [heq]
      · exact (h.sorted.lt_getElem hlt hlen).le
    · rw [List.getLast?_eq_getElem?, List.getElem?_eq_getElem hlen]
      rfl
  · intro hall x hx
    exact hall x ((h.mem x).mp (List.mem_of_getLast? hx))

theorem Denotes.inserted (h : Denotes vec A) (t : α) :
    Denotes (inserted vec t) (Insert.insert t A) where
  sorted := h.sorted.inserted t
  mem x := by rw [mem_inserted, Finset.mem_insert, h.mem]

/-- An element behind all others is inserted at the end. -/
theorem Denotes.inserted_of_forall_lt (h : Denotes vec A) {t : α} (ht : ∀ x ∈ A, x < t) :
    VecSetOps.inserted vec t = vec ++ [t] ∧ rank vec t = vec.length := by
  have hnot : t ∉ vec := fun hmem => lt_irrefl _ (ht t ((h.mem t).mp hmem))
  have hrank : rank vec t = vec.length := by
    unfold rank
    rw [List.filter_eq_self.mpr]
    intro x hx
    simpa using ht x ((h.mem x).mp hx)
  refine ⟨?_, hrank⟩
  rw [VecSetOps.inserted, if_neg hnot, hrank, insertIdx_eq_append le_rfl, List.take_length,
    List.drop_length]

/-- The same result, and a vector of the set. -/
def Matches {β : Type} (p : List α × β) (q : Finset α × β) : Prop :=
  Denotes p.1 q.1 ∧ p.2 = q.2

theorem Denotes.insert (h : Denotes vec A) (t : α) :
    Option.Rel Matches (step vec (.insert t)) (specStep A (.insert t)) := by
  show Option.Rel _ (Option.map _ (VecSetOps.insert vec t)) (some _)
  rw [insert_eq h.sorted]
  apply Option.Rel.some
  refine ⟨h.inserted t, ?_⟩
  show Result.inserted _ _ = Result.inserted _ _
  rw [h.position, decide_eq_decide.mpr (not_congr (h.mem t))]

theorem Denotes.insertGeq (h : Denotes vec A) (t : α) :
    Option.Rel Matches (step vec (.insertGeq t)) (specStep A (.insertGeq t)) := by
  have hiff := h.forall_getLast_iff (P := fun x => x ≤ t) (fun _ _ hxy hy => hxy.trans hy)
  show Option.Rel _ (Option.map _ (if _ then _ else none)) (if _ then _ else none)
  by_cases hall : ∀ x ∈ A, x ≤ t
  · rw [if_pos hall, if_pos (hiff.mpr hall), h.position]
    by_cases hlast : vec.getLast? = some t
    · -- the element is there already, at the end
      have hmem : t ∈ vec := List.mem_of_getLast? hlast
      have hrank : rank vec t = vec.length - 1 := by
        have hget : vec[vec.length - 1]? = some t := by rw [← List.getLast?_eq_getElem?, hlast]
        obtain ⟨hlt, hget⟩ := List.getElem?_eq_some_iff.mp hget
        apply rank_eq (Nat.le_of_lt hlt)
        · intro j hj hjl
          rw [← hget]
          exact h.sorted.lt_getElem hjl hlt
        · intro j hj hjl
          have hjeq : j = vec.length - 1 := by omega
          subst hjeq
          exact hget.ge
      rw [if_pos hlast]
      apply Option.Rel.some
      have hA : Insert.insert t A = A := Finset.insert_eq_of_mem ((h.mem t).mp hmem)
      refine ⟨by rw [hA]; exact h, ?_⟩
      show Result.inserted _ _ = Result.inserted _ _
      rw [hrank]
      simp [(h.mem t).mp hmem]
    · have hnot : t ∉ A := by
        intro hmem
        have hpos : vec ≠ [] := List.ne_nil_of_mem ((h.mem t).mpr hmem)
        have hmax : t ≤ vec.getLast hpos := by
          have hlast' := h.forall_getLast_iff (P := fun x => x ≤ vec.getLast hpos)
            (fun _ _ hxy hy => hxy.trans hy)
          apply hlast'.mp _ t hmem
          intro x hx
          rw [List.getLast?_eq_getLast_of_ne_nil hpos] at hx
          exact (Option.some.inj hx).ge
        exact hlast (by
          rw [List.getLast?_eq_getLast_of_ne_nil hpos]
          congr 1
          exact le_antisymm (hall _ ((h.mem _).mp (List.getLast_mem hpos))) hmax)
      have hlt : ∀ x ∈ A, x < t := fun x hx =>
        lt_of_le_of_ne (hall x hx) fun heq => hnot (heq ▸ hx)
      obtain ⟨happ, hrank⟩ := h.inserted_of_forall_lt hlt
      rw [if_neg hlast]
      apply Option.Rel.some
      refine ⟨by rw [← happ]; exact h.inserted t, ?_⟩
      show Result.inserted _ _ = Result.inserted _ _
      rw [hrank]
      simp [hnot]
  · rw [if_neg hall, if_neg (fun hlast => hall (hiff.mp hlast))]
    exact Option.Rel.none

theorem Denotes.insertGt (h : Denotes vec A) (t : α) :
    Option.Rel Matches (step vec (.insertGt t)) (specStep A (.insertGt t)) := by
  have hiff := h.forall_getLast_iff (P := fun x => x < t) (fun _ _ hxy hy => hxy.trans_lt hy)
  show Option.Rel _ (Option.map _ (if _ then _ else none)) (if _ then _ else none)
  by_cases hall : ∀ x ∈ A, x < t
  · rw [if_pos hall, if_pos (hiff.mpr hall)]
    apply Option.Rel.some
    exact ⟨(h.inserted_of_forall_lt hall).1 ▸ h.inserted t, rfl⟩
  · rw [if_neg hall, if_neg (fun hlast => hall (hiff.mp hlast))]
    exact Option.Rel.none

theorem Denotes.insertSet (h : Denotes vec A) (s : VecSet α) :
    Option.Rel Matches (step vec (.insertSet s)) (specStep A (.insertSet s)) := by
  obtain ⟨U, hU, hsorted, hmem⟩ := insertAll_eq h.sorted s.sorted
  show Option.Rel _ (Option.map _ (insertAll vec s.vec)) (some _)
  rw [hU]
  apply Option.Rel.some
  refine ⟨⟨hsorted, fun x => ?_⟩, ?_⟩
  · rw [hmem, Finset.mem_union, List.mem_toFinset, h.mem]
  · have hset : s.vec.toFinset \ A = (fresh vec s.vec).toFinset := by
      ext x
      simp [fresh, h.mem]
    have hnodup : (fresh vec s.vec).Nodup := (s.sorted.filter _).imp ne_of_lt
    show Result.number _ = Result.number _
    rw [hset, List.toFinset_card_of_nodup hnodup]

theorem Denotes.erase (h : Denotes vec A) (t : α) :
    Option.Rel Matches (step vec (.erase t)) (specStep A (.erase t)) := by
  show Option.Rel _ (Option.map _ (VecSetOps.erase vec t)) (some _)
  rw [erase_eq h.sorted]
  apply Option.Rel.some
  by_cases ht : t ∈ vec
  · rw [if_pos ht, if_pos ((h.mem t).mp ht)]
    refine ⟨⟨h.sorted.sublist (List.eraseIdx_sublist ..), fun x => ?_⟩, rfl⟩
    rw [mem_eraseIdx_of_getElem? (h.sorted.imp ne_of_lt) ((getElem?_rank h.sorted t).mpr ht),
      Finset.mem_erase, h.mem, and_comm]
  · have htA : t ∉ A := fun hmem => ht ((h.mem t).mpr hmem)
    rw [if_neg ht, if_neg htA, Finset.erase_eq_of_notMem htA]
    exact ⟨h, rfl⟩

theorem Denotes.eraseSet (h : Denotes vec A) (s : VecSet α) :
    Option.Rel Matches (step vec (.eraseSet s)) (specStep A (.eraseSet s)) := by
  show Option.Rel _ (Option.map _ (eraseAll vec s.vec)) (some _)
  rw [eraseAll_eq h.sorted s.sorted]
  apply Option.Rel.some
  refine ⟨⟨h.sorted.filter _, fun x => ?_⟩, ?_⟩
  · simp [h.mem]
  · have hset : A ∩ s.vec.toFinset = A.filter fun x => decide (x ∈ s.vec) = true := by
      ext x
      simp
    show Result.number _ = Result.number _
    rw [hset, h.card]

theorem Denotes.popBack (h : Denotes vec A) :
    Option.Rel Matches (step vec .popBack) (specStep A .popBack) := by
  show Option.Rel _ (Option.map _ (if _ then _ else _)) (if _h : _ then _ else _)
  by_cases hA : A.Nonempty
  · obtain ⟨t, ht⟩ := hA
    have hne : vec ≠ [] := List.ne_nil_of_mem ((h.mem t).mpr ht)
    have hmax : A.max' ⟨t, ht⟩ = vec.getLast hne := by
      apply le_antisymm
      · have hlast := h.forall_getLast_iff (P := fun x => x ≤ vec.getLast hne)
          (fun _ _ hxy hy => hxy.trans hy)
        apply hlast.mp _ _ (Finset.max'_mem _ _)
        intro x hx
        rw [List.getLast?_eq_getLast_of_ne_nil hne] at hx
        exact (Option.some.inj hx).ge
      · exact Finset.le_max' _ _ ((h.mem _).mp (List.getLast_mem hne))
    rw [if_neg hne, dif_pos ⟨t, ht⟩]
    apply Option.Rel.some
    refine ⟨⟨h.sorted.sublist (List.dropLast_sublist vec), fun x => ?_⟩, rfl⟩
    have hsplit := h.sorted
    rw [← List.dropLast_append_getLast hne, Sorted, List.pairwise_append] at hsplit
    show x ∈ vec.dropLast ↔ x ∈ A.erase _
    rw [Finset.mem_erase, hmax, ← h.mem]
    constructor
    · intro hx
      exact ⟨(hsplit.2.2 x hx _ (List.mem_singleton_self _)).ne, List.mem_of_mem_dropLast hx⟩
    · rintro ⟨hne', hx⟩
      rw [← List.dropLast_append_getLast hne, List.mem_append, List.mem_singleton] at hx
      exact hx.resolve_right hne'
  · have hnil : vec = [] := by
      rw [List.eq_nil_iff_forall_not_mem]
      intro x hx
      exact hA ⟨x, (h.mem x).mp hx⟩
    rw [if_pos hnil, dif_neg hA]
    exact Option.Rel.none

/-- What a call does to the vector is what it does to the set. -/
theorem step_matches (h : Denotes vec A) (op : Op α) :
    Option.Rel Matches (step vec op) (specStep A op) := by
  cases op with
  | insert t => exact h.insert t
  | insertGeq t => exact h.insertGeq t
  | insertGt t => exact h.insertGt t
  | insertSet s => exact h.insertSet s
  | erase t => exact h.erase t
  | eraseSet s => exact h.eraseSet s
  | popBack => exact h.popBack
  | count t =>
    show Option.Rel _ (Option.map _ (count vec t)) (some _)
    rw [count_eq h.sorted]
    apply Option.Rel.some
    refine ⟨h, ?_⟩
    show Result.number _ = Result.number _
    simp only [h.mem]
    split_ifs <;> rfl
  | find t =>
    show Option.Rel _ (Option.map _ (find vec t)) (some _)
    rw [find_eq h.sorted, h.position]
    apply Option.Rel.some
    refine ⟨h, ?_⟩
    simp [h.mem]
  | subsetOf s =>
    show Option.Rel _ (Option.map _ (subsetOf vec s.vec)) (some _)
    rw [subsetOf_eq h.sorted s.sorted]
    apply Option.Rel.some
    refine ⟨h, ?_⟩
    show Result.bool _ = Result.bool _
    congr 1
    rw [decide_eq_decide, Finset.subset_iff]
    simp only [h.mem, List.mem_toFinset]
  | intersects s =>
    show Option.Rel _ (some _) (some _)
    rw [intersects_eq h.sorted s.sorted]
    apply Option.Rel.some
    refine ⟨h, ?_⟩
    show Result.bool _ = Result.bool _
    congr 1
    rw [decide_eq_decide, Finset.Nonempty]
    simp only [h.mem, Finset.mem_inter, List.mem_toFinset]

/-! ## Sequences of calls -/

theorem rel_bind {β γ β' γ' : Type} {R : β → γ → Prop} {S : β' → γ' → Prop} {x : Option β}
    {y : Option γ} {f : β → Option β'} {g : γ → Option γ'} (h : Option.Rel R x y)
    (hfg : ∀ a b, R a b → Option.Rel S (f a) (g b)) : Option.Rel S (x.bind f) (y.bind g) := by
  cases h with
  | some hab => exact hfg _ _ hab
  | none => exact Option.Rel.none

/-- Calls that match one by one match one after another. -/
theorem runWith_matches (ops : List (Op α)) (h : Denotes vec A) :
    Option.Rel Matches (runWith step ops vec) (runWith specStep ops A) := by
  induction ops generalizing vec A with
  | nil => exact Option.Rel.some ⟨h, rfl⟩
  | cons op ops ih =>
    apply rel_bind (step_matches h op)
    intro p q hpq
    rw [Option.map_eq_bind, Option.map_eq_bind]
    apply rel_bind (ih hpq.1)
    intro p' q' hpq'
    apply Option.Rel.some
    refine ⟨hpq'.1, ?_⟩
    show p.2 :: p'.2 = q.2 :: q'.2
    rw [hpq.2, hpq'.2]

theorem rangeStep_eq (h : Denotes vec A) (x : α) :
    ∃ vec', rangeStep vec x = some vec' ∧ Denotes vec' (Insert.insert x A) := by
  have hinsert : (insert vec x).map Prod.fst = some (inserted vec x) := by
    rw [insert_eq h.sorted]
    rfl
  cases hlast : vec.getLast? with
  | none =>
    refine ⟨inserted vec x, ?_, h.inserted x⟩
    rw [rangeStep, hlast]
    exact hinsert
  | some back =>
    by_cases hlt : back < x
    · have hall : ∀ y ∈ A, y < x := by
        apply (h.forall_getLast_iff (P := (· < x)) fun _ _ hyz hz => hyz.trans_lt hz).mp
        intro y hy
        rw [hlast] at hy
        cases hy
        exact hlt
      refine ⟨vec ++ [x], ?_, (h.inserted_of_forall_lt hall).1 ▸ h.inserted x⟩
      rw [rangeStep, hlast]
      exact if_pos hlt
    · refine ⟨inserted vec x, ?_, h.inserted x⟩
      rw [rangeStep, hlast]
      exact (if_neg hlt).trans hinsert

theorem foldlM_rangeStep (l : List α) (h : Denotes vec A) :
    ∃ vec', l.foldlM rangeStep vec = some vec' ∧ Denotes vec' (A ∪ l.toFinset) := by
  induction l generalizing vec A with
  | nil => exact ⟨vec, rfl, by simpa using h⟩
  | cons x l ih =>
    obtain ⟨vec', hvec', h'⟩ := rangeStep_eq h x
    obtain ⟨vec'', hvec'', h''⟩ := ih h'
    refine ⟨vec'', ?_, ?_⟩
    · rw [List.foldlM_cons, hvec']
      exact hvec''
    · rwa [List.toFinset_cons, Finset.union_insert, ← Finset.insert_union]

theorem ofRange_eq (l : List α) : ∃ vec, ofRange l = some vec ∧ Denotes vec l.toFinset := by
  obtain ⟨vec, hvec, h⟩ := foldlM_rangeStep l (Denotes.toFinset (.nil : Sorted ([] : List α)))
  exact ⟨vec, hvec, by simpa using h⟩

end ViEqui.VecSetOps
