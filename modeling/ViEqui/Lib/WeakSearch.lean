import ViEqui.Lib.SwapRemove

/-!
# A search that drops what is dead

A vector of weak pointers is searched by index.  A dead entry is removed by a
swap with the last one, and the search goes on at the same index.  The entries
in front of the index are alive and not what is looked for, so the order of the
rest does not matter.  `search_spec` says what is found and what stays.
-/

namespace WeakSearch

variable {α : Type}

/-- Search from `pos`; `todo` elements are left. -/
def search (alive found : α → Bool) : Nat → Nat → List α → List α × Option α
  | 0, _, l => (l, none)
  | todo + 1, pos, l =>
    match l[pos]? with
    | some x =>
      if alive x then
        if found x then (l, some x) else search alive found todo (pos + 1) l
      else search alive found todo pos (SwapRemove.removeAt l pos)
    | none => (l, none)

/-- What a search of `l` leaves and finds. -/
structure Searched (alive found : α → Bool) (l : List α) (r : List α × Option α) : Prop where
  subset : ∀ x ∈ r.1, x ∈ l
  keeps : ∀ x ∈ l, alive x → x ∈ r.1
  hit : ∀ x, r.2 = some x → x ∈ l ∧ alive x ∧ found x
  miss : r.2 = none → ∀ x ∈ l, alive x → ¬ found x

variable {alive found : α → Bool}

/-- The search of a rest behind a part without hits. -/
theorem searched_append (todo : Nat) (front rest : List α) (hlength : rest.length = todo)
    (hfront : ∀ x ∈ front, alive x → ¬ found x) :
    Searched alive found (front ++ rest)
      (search alive found todo front.length (front ++ rest)) := by
  induction todo generalizing front rest with
  | zero =>
    obtain rfl := List.length_eq_zero_iff.mp hlength
    rw [List.append_nil]
    exact ⟨fun _ h => h, fun _ h _ => h, nofun, fun _ => hfront⟩
  | succ todo ih =>
    cases rest with
    | nil => cases hlength
    | cons x rest =>
      have hrest : rest.length = todo := Nat.succ.inj hlength
      have hget : (front ++ x :: rest)[front.length]? = some x := by simp
      unfold search
      rw [hget]
      dsimp only
      split
      · next halive =>
        split
        · next hfound =>
          refine ⟨fun _ h => h, fun _ h _ => h, ?_, nofun⟩
          intro y hy
          cases hy
          exact ⟨List.mem_append_right _ List.mem_cons_self, halive, hfound⟩
        · next hfound =>
          have hfront' : ∀ y ∈ front ++ [x], alive y → ¬ found y := by
            intro y hy
            rcases List.mem_append.mp hy with hy | hy
            · exact hfront y hy
            · rw [List.mem_singleton.mp hy]
              exact fun _ => hfound
          have h := ih (front ++ [x]) rest hrest hfront'
          rw [List.length_append, List.length_singleton, List.append_assoc,
            List.singleton_append] at h
          exact h
      · next hdead =>
        obtain ⟨rest', hremove, hperm⟩ := SwapRemove.removeAt_append_cons front x rest
        have h := ih front rest' (hperm.length_eq.trans hrest) hfront
        rw [hremove]
        have hmem : ∀ y, y ∈ front ++ rest' → y ∈ front ++ x :: rest := by
          intro y hy
          rcases List.mem_append.mp hy with hy | hy
          · exact List.mem_append_left _ hy
          · exact List.mem_append_right _ (List.mem_cons_of_mem x (hperm.mem_iff.mp hy))
        have halive : ∀ y, y ∈ front ++ x :: rest → alive y → y ∈ front ++ rest' := by
          intro y hy hay
          rcases List.mem_append.mp hy with hy | hy
          · exact List.mem_append_left _ hy
          · rcases List.mem_cons.mp hy with rfl | hy
            · exact absurd hay hdead
            · exact List.mem_append_right _ (hperm.mem_iff.mpr hy)
        constructor
        · exact fun y hy => hmem y (h.subset y hy)
        · exact fun y hy hay => h.keeps y (halive y hy hay) hay
        · intro y hy
          obtain ⟨hyl, hy'⟩ := h.hit y hy
          exact ⟨hmem y hyl, hy'⟩
        · exact fun hnone y hy hay => h.miss hnone y (halive y hy hay) hay

theorem search_spec (alive found : α → Bool) (l : List α) :
    Searched alive found l (search alive found l.length 0 l) :=
  searched_append l.length [] l rfl nofun

end WeakSearch
