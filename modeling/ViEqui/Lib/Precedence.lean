import Mathlib.Data.List.Basic
import Mathlib.Data.List.Induction
import Mathlib.Data.List.Nodup

/-!
# Order of occurrence in a list

* `Precedes l x y`: some occurrence of `x` stands before one of `y`.
* `latest p l`: the last element of `l` with `p`.
* `latestBefore stop p l`: the same for the part of `l` before the first
  element with `stop`.

A memory location has at each point of an execution the value of the latest
write before that point, so `latestBefore` is what reads-from relations are
made of.
-/

namespace Precedence

variable {α β : Type*}

/-! ## Precedence -/

/-- Some occurrence of `x` stands before one of `y`. -/
def Precedes (l : List α) (x y : α) : Prop := [x, y].Sublist l

theorem precedes_append_cons {P Q : List α} {x y : α} (hx : x ∈ P) :
    Precedes (P ++ y :: Q) x y := by
  have hleft : [x].Sublist P := List.singleton_sublist.mpr hx
  have hright : [y].Sublist (y :: Q) := List.singleton_sublist.mpr (by simp)
  exact hleft.append hright

/-- An occurrence of `y` is the head or one of the tail. -/
theorem exists_split_cons {a y : α} {l : List α} {R : List α → List α → Prop} :
    (∃ P Q, a :: l = P ++ y :: Q ∧ R P Q) ↔
      (a = y ∧ R [] l) ∨ ∃ P Q, l = P ++ y :: Q ∧ R (a :: P) Q := by
  constructor
  · rintro ⟨P, Q, heq, hR⟩
    cases P with
    | nil =>
      simp only [List.nil_append, List.cons.injEq] at heq
      exact .inl ⟨heq.1, heq.2 ▸ hR⟩
    | cons p P =>
      simp only [List.cons_append, List.cons.injEq] at heq
      exact .inr ⟨P, Q, heq.2, heq.1 ▸ hR⟩
  · rintro (⟨rfl, hR⟩ | ⟨P, Q, rfl, hR⟩)
    · exact ⟨[], l, rfl, hR⟩
    · exact ⟨a :: P, Q, rfl, hR⟩

/-- In a list without duplicates, the elements that precede `y` are those of
the part before `y`. -/
theorem precedes_iff_mem {P Q : List α} {x y : α}
    (hnodup : (P ++ y :: Q).Nodup) :
    Precedes (P ++ y :: Q) x y ↔ x ∈ P := by
  constructor
  · intro h
    rw [Precedes, List.sublist_append_iff] at h
    obtain ⟨l1, l2, heq, h1, h2⟩ := h
    have hy : y ∉ Q := (List.nodup_cons.mp hnodup.of_append_right).1
    match l1, heq, h1 with
    | [], heq, _ =>
      -- both would have to stand in `y :: Q`
      rw [List.nil_append] at heq
      subst heq
      rcases List.cons_sublist_cons'.mp h2 with h2 | ⟨rfl, h2⟩
      · exact absurd (h2.subset (by simp)) hy
      · exact absurd (h2.subset (by simp)) hy
    | a :: l1, heq, h1 =>
      rw [List.cons_append] at heq
      injection heq with hax _
      subst hax
      exact h1.subset (by simp)
  · exact precedes_append_cons

theorem Precedes.mem_left {l : List α} {x y : α} (h : Precedes l x y) : x ∈ l :=
  h.subset (by simp)

theorem Precedes.mem_right {l : List α} {x y : α} (h : Precedes l x y) : y ∈ l :=
  h.subset (by simp)

theorem Precedes.sublist {l l' : List α} {x y : α} (h : Precedes l x y)
    (hsub : l.Sublist l') : Precedes l' x y := List.Sublist.trans h hsub

theorem idxOf_append_cons [DecidableEq α] {P Q : List α} {x : α} (hx : x ∉ P) :
    (P ++ x :: Q).idxOf x = P.length := by
  rw [List.idxOf_append_of_notMem hx, List.idxOf_cons_self, Nat.add_zero]

/-- Split a list at the first occurrences of two elements. -/
theorem exists_between [DecidableEq α] {l : List α} {x y : α} (hy : y ∈ l)
    (hlt : l.idxOf x < l.idxOf y) :
    ∃ P M Q, l = P ++ (x :: M ++ y :: Q) ∧ x ∉ P ∧ y ∉ P ++ x :: M := by
  obtain ⟨R, Q, rfl, hyR⟩ := List.eq_append_cons_of_mem hy
  rw [idxOf_append_cons hyR] at hlt
  have hx : x ∈ R := by
    by_contra hx
    rw [List.idxOf_append_of_notMem hx] at hlt
    omega
  obtain ⟨P, M, rfl, hxP⟩ := List.eq_append_cons_of_mem hx
  exact ⟨P, M, Q, by simp, hxP, hyR⟩

/-- In a list without duplicates, precedence is the order of places. -/
theorem precedes_iff_idxOf [DecidableEq α] {l : List α} {x y : α}
    (hnodup : l.Nodup) (hy : y ∈ l) :
    Precedes l x y ↔ l.idxOf x < l.idxOf y := by
  obtain ⟨P, Q, rfl⟩ := List.append_of_mem hy
  have hyP : y ∉ P := fun h => (List.nodup_append.mp hnodup).2.2 y h y (by simp) rfl
  rw [precedes_iff_mem hnodup, idxOf_append_cons hyP]
  constructor
  · intro hx
    rw [List.idxOf_append_of_mem hx]
    exact List.idxOf_lt_length_of_mem hx
  · intro hlt
    by_contra hx
    rw [List.idxOf_append_of_notMem hx] at hlt
    omega

theorem Precedes.map {l : List α} {x y : α} (f : α → β) (h : Precedes l x y) :
    Precedes (l.map f) (f x) (f y) :=
  List.Sublist.map f h

/-- What precedes in an image comes from elements that precede. -/
theorem exists_of_precedes_map {l : List α} {f : α → β} {x y : β}
    (h : Precedes (l.map f) x y) :
    ∃ a b, Precedes l a b ∧ f a = x ∧ f b = y := by
  obtain ⟨l', hsub, heq⟩ := List.sublist_map_iff.mp h
  match l', heq with
  | [a, b], heq =>
    simp only [List.map_cons, List.map_nil, List.cons.injEq, and_true] at heq
    exact ⟨a, b, hsub, heq.1.symm, heq.2.symm⟩

/-! ## The latest element with a property -/

/-- The last element of `l` with `p`. -/
def latest (p : α → Bool) (l : List α) : Option α := l.reverse.find? p

theorem latest_eq_some_iff {p : α → Bool} {l : List α} {x : α} :
    latest p l = some x ↔
      p x ∧ ∃ P Q, l = P ++ x :: Q ∧ ∀ y ∈ Q, p y = false := by
  rw [latest, List.find?_eq_some_iff_append]
  refine and_congr_right fun _ => ?_
  constructor
  · rintro ⟨P, Q, heq, hP⟩
    refine ⟨Q.reverse, P.reverse, ?_, fun y hy => ?_⟩
    · have := congrArg List.reverse heq
      simpa using this
    · simpa using hP y (List.mem_reverse.mp hy)
  · rintro ⟨P, Q, rfl, hQ⟩
    refine ⟨Q.reverse, P.reverse, by simp, fun y hy => ?_⟩
    simpa using hQ y (List.mem_reverse.mp hy)

@[simp]
theorem latest_eq_none {p : α → Bool} {l : List α} :
    latest p l = none ↔ ∀ x ∈ l, p x = false := by
  simp [latest]

theorem of_latest {p : α → Bool} {l : List α} {x : α}
    (h : latest p l = some x) : p x := (latest_eq_some_iff.mp h).1

theorem mem_of_latest {p : α → Bool} {l : List α} {x : α}
    (h : latest p l = some x) : x ∈ l := by
  obtain ⟨_, P, Q, rfl, _⟩ := latest_eq_some_iff.mp h
  simp

theorem latest_isSome {p : α → Bool} {l : List α} :
    (latest p l).isSome ↔ ∃ x ∈ l, p x := by
  simp [latest]

theorem latest_concat (p : α → Bool) (l : List α) (a : α) :
    latest p (l ++ [a]) = if p a then some a else latest p l := by
  rw [latest, List.reverse_append, List.reverse_singleton, List.singleton_append,
    List.find?_cons, latest]
  cases p a <;> rfl

theorem latest_cons (p : α → Bool) (a : α) (l : List α) :
    latest p (a :: l) = (latest p l).or (if p a then some a else none) := by
  rw [latest, List.reverse_cons, List.find?_append, latest]
  cases h : p a <;> simp [h]

theorem latest_append (p : α → Bool) (l l' : List α) :
    latest p (l ++ l') = (latest p l').or (latest p l) := by
  rw [latest, List.reverse_append, List.find?_append]
  rfl

/-- The latest element with a property, or what was found before the list. -/
theorem latest_cons_or (p : α → Bool) (a : α) (l : List α) (before : Option α) :
    (latest p (a :: l)).or before =
      (latest p l).or (if p a then some a else before) := by
  rw [latest_cons]
  cases latest p l <;> cases p a <;> rfl

/-- The last `p` and the last `q` of a list are one element, if each of them
has the other property too. -/
theorem latest_unique {p q : α → Bool} {l : List α} {x y : α}
    (hx : latest p l = some x) (hy : latest q l = some y) (hqx : q x)
    (hpy : p y) : x = y := by
  induction l using List.reverseRecOn with
  | nil => simp [latest] at hx
  | append_singleton l a ih =>
    rw [latest_concat] at hx hy
    split at hx
    · cases hx
      rw [if_pos hqx] at hy
      exact Option.some.inj hy
    · next hpa =>
      split at hy
      · cases hy
        exact absurd hpy hpa
      · exact ih hx hy

/-- The latest elements of two lists that are related element by element are
related. -/
theorem latest_forall₂ {r : α → β → Prop} {p : α → Bool} {q : β → Bool} {l : List α}
    {l' : List β} (h : List.Forall₂ r l l') (hpq : ∀ a b, r a b → p a = q b) :
    (latest p l = none ∧ latest q l' = none) ∨
      ∃ a b, latest p l = some a ∧ latest q l' = some b ∧ r a b := by
  induction h with
  | nil => exact .inl ⟨rfl, rfl⟩
  | @cons a b l l' hab _ ih =>
    rw [latest_cons, latest_cons, hpq a b hab]
    rcases ih with ⟨hp, hq⟩ | ⟨a', b', hp, hq, hab'⟩
    · rw [hp, hq]
      cases hb : q b with
      | true => exact .inr ⟨a, b, rfl, rfl, hab⟩
      | false => exact .inl ⟨rfl, rfl⟩
    · rw [hp, hq]
      exact .inr ⟨a', b', rfl, rfl, hab'⟩

/-! ## The latest element before a point -/

/-- The last element with `p` before the first one with `stop`. -/
def latestBefore (stop p : α → Bool) (l : List α) : Option α :=
  latest p (l.takeWhile (fun a => !stop a))

theorem takeWhile_not_append {stop : α → Bool} {P Q : List α} {x : α}
    (hP : ∀ y ∈ P, stop y = false) (hx : stop x) :
    (P ++ x :: Q).takeWhile (fun a => !stop a) = P := by
  rw [List.takeWhile_append_of_pos (by simpa using hP), List.takeWhile_cons]
  simp [hx]

theorem latestBefore_append {stop p : α → Bool} {P Q : List α} {x : α}
    (hP : ∀ y ∈ P, stop y = false) (hx : stop x) :
    latestBefore stop p (P ++ x :: Q) = latest p P := by
  rw [latestBefore, takeWhile_not_append hP hx]

theorem of_latestBefore {stop p : α → Bool} {l : List α} {x : α}
    (h : latestBefore stop p l = some x) : p x := of_latest h

theorem latestBefore_unique {stop p q : α → Bool} {l : List α} {x y : α}
    (hx : latestBefore stop p l = some x) (hy : latestBefore stop q l = some y)
    (hqx : q x) (hpy : p y) : x = y :=
  latest_unique hx hy hqx hpy

/-- Split a list at the first element with `stop`. -/
theorem exists_first {stop : α → Bool} {l : List α} (h : ∃ x ∈ l, stop x) :
    ∃ P x Q, l = P ++ x :: Q ∧ stop x ∧ ∀ y ∈ P, stop y = false := by
  obtain ⟨x, hx⟩ : ∃ x, l.find? stop = some x :=
    Option.isSome_iff_exists.mp (List.find?_isSome.mpr h)
  obtain ⟨hstop, P, Q, rfl, hP⟩ := List.find?_eq_some_iff_append.mp hx
  exact ⟨P, x, Q, rfl, hstop, fun y hy => by simpa using hP y hy⟩

/-- In a list without duplicates, an element with `p` precedes `x` exactly if
there is a latest one. -/
theorem latestBefore_isSome_iff {stop p : α → Bool} {l : List α} {x : α}
    (hnodup : l.Nodup) (hx : x ∈ l) (hstop : ∀ a ∈ l, stop a ↔ a = x) :
    (latestBefore stop p l).isSome ↔ ∃ y, p y ∧ Precedes l y x := by
  obtain ⟨P, z, Q, rfl, hz, hP⟩ := exists_first ⟨x, hx, (hstop x hx).mpr rfl⟩
  have hzx : z = x := (hstop z (by simp)).mp hz
  subst hzx
  rw [latestBefore_append hP hz, latest_isSome]
  simp only [precedes_iff_mem hnodup]
  exact ⟨fun ⟨y, hy, hp⟩ => ⟨y, hp, hy⟩, fun ⟨y, hp, hy⟩ => ⟨y, hy, hp⟩⟩

end Precedence
