import ViEqui.Lib.Exchange

/-!
# Elements that stand right behind their partners

`Paired needs partner prev l`: every element of `l` with `needs` stands right
behind a partner, where `prev` stands before the first element.  The halves of
an atomic operation keep together in this sense.

* `paired_append`, `paired_insert`: lists in pieces.
* `Paired.filter`, `Paired.erase`: lists with elements left out.
* `paired_behind_iff`: when a shift of elements behind a segment keeps the
  pairs.
-/

namespace Adjacency

open Shift

variable {α : Type*}

/-- Every element with `needs` stands right behind a partner. -/
def Paired (needs : α → Bool) (partner : α → α → Bool) : Option α → List α → Prop
  | _, [] => True
  | prev, a :: l =>
    (needs a → prev.any (partner · a)) ∧ Paired needs partner (some a) l

instance instDecidablePaired (needs : α → Bool) (partner : α → α → Bool) :
    ∀ prev l, Decidable (Paired needs partner prev l)
  | _, [] => isTrue trivial
  | _, a :: l =>
    have := instDecidablePaired needs partner (some a) l
    inferInstanceAs (Decidable (_ ∧ _))

variable {needs : α → Bool} {partner : α → α → Bool}

/-! ## Lists in pieces -/

theorem paired_append {prev : Option α} {P Q : List α} :
    Paired needs partner prev (P ++ Q) ↔
      Paired needs partner prev P ∧
        Paired needs partner (P.getLast?.or prev) Q := by
  induction P generalizing prev with
  | nil => simp [Paired]
  | cons a P ih =>
    have hlast : (a :: P).getLast?.or prev = P.getLast?.or (some a) := by
      cases P with
      | nil => rfl
      | cons b P => simp [List.getLast?_cons]
    rw [List.cons_append, Paired, Paired, ih, hlast, and_assoc]

theorem paired_insert {prev : Option α} {P Q : List α} {a : α} :
    Paired needs partner prev (P ++ a :: Q) ↔
      Paired needs partner prev P ∧
        (needs a → (P.getLast?.or prev).any (partner · a)) ∧
          Paired needs partner (some a) Q := paired_append

/-- A list whose first element has no needs may stand behind anything. -/
theorem Paired.of_head {prev prev' : Option α} {l : List α}
    (hhead : ∀ a ∈ l.head?, needs a = false) (h : Paired needs partner prev l) :
    Paired needs partner prev' l := by
  cases l with
  | nil => trivial
  | cons a l =>
    refine ⟨fun ha => ?_, h.2⟩
    rw [hhead a rfl] at ha
    cases ha

theorem Paired.of_none {prev : Option α} {l : List α}
    (h : Paired needs partner none l) : Paired needs partner prev l := by
  cases l with
  | nil => trivial
  | cons a l => exact ⟨fun ha => absurd (h.1 ha) (by simp), h.2⟩

/-- Behind an element that is no partner, the first element has no needs. -/
theorem Paired.head {prev : Option α} {l : List α}
    (h : Paired needs partner prev l)
    (hprev : ∀ r ∈ prev, ∀ a ∈ l, partner r a = false) :
    ∀ a ∈ l.head?, needs a = false := by
  cases l with
  | nil => simp
  | cons a l =>
    intro a' ha'
    cases ha'
    cases hneeds : needs a with
    | false => rfl
    | true =>
      have hany := h.1 hneeds
      cases prev with
      | none => cases hany
      | some r =>
        rw [Option.any_some, hprev r rfl a (by simp)] at hany
        cases hany

/-- The element behind the one at the end of `P`. -/
theorem getElem?_behind (P Q : List α) (a : α) :
    (P ++ a :: Q)[P.length + 1]? = Q.head? := by
  rw [List.getElem?_append_right (by omega), Nat.add_sub_cancel_left,
    List.getElem?_cons_succ, List.head?_eq_getElem?]

/-! ## Lists with elements left out -/

/-- Elements may be left out together with their partners. -/
theorem Paired.filter {q : α → Bool} {prev prev' : Option α} {l : List α}
    (hq : ∀ r w, partner r w → q r = q w) (h : Paired needs partner prev l)
    (hprev : ∀ r, prev = some r → q r → prev' = some r) :
    Paired needs partner prev' (l.filter q) := by
  induction l generalizing prev prev' with
  | nil => trivial
  | cons a l ih =>
    cases hqa : q a with
    | false =>
      have hrest : Paired needs partner prev' (l.filter q) := ih h.2 fun r hr hqr => by
        cases hr
        rw [hqa] at hqr
        cases hqr
      simpa [hqa] using hrest
    | true =>
      rw [List.filter_cons_of_pos hqa]
      refine ⟨fun ha => ?_, ih h.2 fun r hr _ => hr⟩
      have hany := h.1 ha
      cases prev with
      | none => cases hany
      | some r =>
        rw [Option.any_some] at hany
        rw [hprev r rfl ((hq r a hany).trans hqa), Option.any_some, hany]

/-- An element without its partner may be left out. -/
theorem Paired.erase [DecidableEq α] {prev : Option α} {l : List α} {x : α}
    (hx : ∀ a ∈ l, partner x a = false) (h : Paired needs partner prev l) :
    Paired needs partner prev (l.erase x) := by
  induction l generalizing prev with
  | nil => trivial
  | cons a l ih =>
    have hxl : ∀ b ∈ l, partner x b = false := fun b hb =>
      hx b (List.mem_cons_of_mem a hb)
    by_cases ha : a = x
    · subst ha
      rw [List.erase_cons_head]
      refine h.2.of_head (h.2.head fun r hr b hb => ?_)
      cases hr
      exact hxl b hb
    · rw [List.erase_cons_tail (by simpa using ha)]
      exact ⟨h.1, ih hxl h.2⟩

/-! ## Shifting elements behind a segment -/

theorem mem_of_getLast?_or {l : List α} {a x : α}
    (h : l.getLast?.or (some a) = some x) : x ∈ a :: l := by
  cases hl : l.getLast? with
  | none =>
    rw [hl] at h
    cases h
    simp
  | some y =>
    rw [hl] at h
    cases h
    exact List.mem_cons_of_mem a (List.mem_of_getLast? hl)

/-- A shift of the segment `a :: M` keeps the pairs exactly if it does not
take `a` from its partner, does not put it between `last` and what needs
`last`, and does not take the partner of `last` from it. -/
theorem paired_behind_iff {mine : α → Bool} {P M Q : List α} {a last : α}
    (hpartner : ∀ r w, partner r w → mine r = mine w)
    (hunique : ∀ r r' w, partner r w → partner r' w → r = r')
    (hnodup : (P ++ (a :: M ++ last :: Q)).Nodup) (hmine : mine a)
    (h : Paired needs partner none (P ++ (a :: M ++ last :: Q))) :
    Paired needs partner none (P ++ (behind mine last (a :: M) ++ Q)) ↔
      needs a = false ∧ (∀ w ∈ Q.head?, needs w = false) ∧
        (needs last → mine last = false) := by
  have hbehind : P ++ (behind mine last (a :: M) ++ Q) =
      (P ++ M.filter (fun b => !mine b)) ++ last :: (a :: M.filter mine ++ Q) := by
    simp [behind, hmine]
  have hdisj := List.nodup_append.mp hnodup
  have hlastM : last ∉ a :: M := fun hmem =>
    (List.nodup_append.mp hdisj.2.1).2.2 last hmem last (by simp) rfl
  rw [List.cons_append, paired_insert, paired_insert] at h
  obtain ⟨hP, ha, hM, hlast, hQ⟩ := h
  -- the parts that are paired in any case
  have hN : Paired needs partner none (P ++ M.filter (fun b => !mine b)) := by
    have haM : Paired needs partner (P.getLast?.or none) (a :: M) := ⟨ha, hM⟩
    have hfilter : Paired needs partner (P.getLast?.or none)
        ((a :: M).filter (fun b => !mine b)) :=
      haM.filter (fun r w hrw => by rw [hpartner r w hrw]) (fun r hr _ => hr)
    rw [List.filter_cons_of_neg (by simp [hmine])] at hfilter
    exact paired_append.mpr ⟨hP, hfilter⟩
  have hM' : Paired needs partner (some a) (M.filter mine) :=
    hM.filter hpartner fun r hr _ => hr
  have hsplit : Paired needs partner (some last) (a :: M.filter mine ++ Q) ↔
      (needs a → partner last a) ∧ Paired needs partner (some a) (M.filter mine) ∧
        Paired needs partner ((M.filter mine).getLast?.or (some a)) Q := by
    rw [List.cons_append, Paired, paired_append, Option.any_some]
  rw [hbehind, paired_insert, hsplit]
  constructor
  · rintro ⟨_, hlast', ha', _, hQ'⟩
    refine ⟨?_, ?_, ?_⟩
    · -- the partner of `a` would stand in `P` and be `last`
      rw [Bool.eq_false_iff]
      intro hneeds
      obtain ⟨r, hr, hra⟩ := (Option.any_eq_true _ _).mp (ha hneeds)
      have hrP : r ∈ P := List.mem_of_getLast? (by simpa using hr)
      exact hdisj.2.2 r hrP last (by simp) (hunique r last a hra (ha' hneeds))
    · -- `last` would stand in the segment
      intro w hw
      rw [Bool.eq_false_iff]
      intro hneeds
      obtain ⟨Q', rfl⟩ := List.head?_eq_some_iff.mp hw
      obtain ⟨r, hr, hrw⟩ := (Option.any_eq_true _ _).mp (hQ'.1 hneeds)
      have heq : r = last := hunique r last w hrw (hQ.1 hneeds)
      have hra : r ∈ a :: M.filter mine := mem_of_getLast?_or hr
      exact hlastM (heq ▸ (List.filter_sublist.cons_cons a).subset hra)
    · intro hneeds
      rw [Bool.eq_false_iff]
      intro hml
      obtain ⟨x, hx, hxl⟩ := (Option.any_eq_true _ _).mp (hlast hneeds)
      obtain ⟨y, hy, hyl⟩ := (Option.any_eq_true _ _).mp (hlast' hneeds)
      have hxM : x ∈ a :: M := mem_of_getLast?_or hx
      have hyx : y = x := hunique y x last hyl hxl
      have hyPN : y ∈ P ++ M.filter (fun b => !mine b) :=
        List.mem_of_getLast? (by simpa using hy)
      rcases List.mem_append.mp hyPN with hyP | hyN
      · exact hdisj.2.2 y hyP x (List.mem_append_left _ hxM) hyx
      · have hother := (List.mem_filter.mp hyN).2
        rw [hpartner y last hyl, hml] at hother
        cases hother
  · rintro ⟨ha', hQ', hlast'⟩
    refine ⟨hN, ?_, ?_, hM', hQ.of_head hQ'⟩
    · -- the partner of `last` is not shifted
      intro hneeds
      obtain ⟨x, hx, hxl⟩ := (Option.any_eq_true _ _).mp (hlast hneeds)
      have hother : mine x = false := (hpartner x last hxl).trans (hlast' hneeds)
      have hxlast : M.getLast? = some x := by
        cases hl : M.getLast? with
        | none =>
          rw [hl] at hx
          cases hx
          rw [hmine] at hother
          cases hother
        | some y =>
          rw [hl] at hx
          exact hx
      obtain ⟨M₀, rfl⟩ := List.getLast?_eq_some_iff.mp hxlast
      simp [hother, hxl]
    · intro hneeds
      rw [ha'] at hneeds
      cases hneeds

end Adjacency
