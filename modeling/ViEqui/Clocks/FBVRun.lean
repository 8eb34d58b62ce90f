import ViEqui.Clocks.FBVSettles

/-!
# Lazy clocks and reachability

The states of one clock system: the clocks with their distinct indices, and the `+=` made so
far.  In each of them a query that ends tells which clocks are reachable; it ends exactly
when the calls of the update are well-founded.
-/

namespace ViEqui.Clocks

open Relation ClockSystem GetD

namespace ClockSystem

variable {idx idx' : Nat → Nat} {E : Nat → Nat → Prop} {CS : ClockSystem} {x y p q c i : Nat}

/-! ## New clocks -/

theorem length_create : (CS.create i).clocks.length = CS.clocks.length + 1 := by
  show (CS.clocks ++ [_]).length = _
  rw [List.length_append]
  rfl

theorem clock_create : (CS.create i).clock x =
    if x = CS.clocks.length then (List.replicate (i + 1) false).set i true else CS.clock x :=
  getD_concat _ _

theorem bit_create : (CS.create i).bit x y =
    if x = CS.clocks.length then decide (y = i) else CS.bit x y := by
  unfold bit
  rw [clock_create]
  split_ifs with hx
  · rw [getD_set _ _ (by rw [List.length_replicate]; omega)]
    split_ifs with hy
    · rw [decide_eq_true hy]
    · rw [decide_eq_false hy]
      exact getD_replicate_self (i + 1) y false
  · rfl

theorem changed_create (h : CS.changeTs.length = CS.clocks.length) :
    (CS.create i).changed x = if x = CS.clocks.length then CS.time else CS.changed x := by
  rw [← h]
  exact getD_concat _ _

theorem updated_create (h : CS.updateTs.length = CS.clocks.length) :
    (CS.create i).updated x = if x = CS.clocks.length then CS.time else CS.updated x := by
  rw [← h]
  exact getD_concat _ _

theorem length_idxToId_create :
    (CS.create i).idxToId.length = max CS.idxToId.length (i + 1) := by
  unfold create
  rw [List.length_set]
  split_ifs with hi
  · rw [length_resize _ _ _ (by omega)]
    omega
  · omega

theorem getElem?_idxToId_create_self :
    (CS.create i).idxToId[i]? = some CS.clocks.length := by
  have hlt : i < (CS.create i).idxToId.length := by
    rw [length_idxToId_create]
    omega
  unfold create at hlt ⊢
  rw [List.length_set] at hlt
  exact List.getElem?_set_self hlt

theorem getElem?_idxToId_create (h : CS.idxToId[y]? = some p) (hy : y ≠ i) :
    (CS.create i).idxToId[y]? = some p := by
  unfold create
  rw [List.getElem?_set_ne (Ne.symm hy)]
  split_ifs with hi
  · unfold resize
    obtain ⟨hlt, -⟩ := List.getElem?_eq_some_iff.mp h
    rw [List.take_of_length_le (by omega), List.getElem?_append_left hlt]
    exact h
  · exact h

theorem Inv.congr_idx (h : Inv idx E CS) (hidx : ∀ p, p < CS.clocks.length → idx' p = idx p) :
    Inv idx' E CS where
  changeTs := h.changeTs
  updateTs := h.updateTs
  id p hp := by
    rw [hidx p hp]
    exact h.id p hp
  length_clock := h.length_clock
  edge_lt := h.edge_lt
  reach x i hi := by
    obtain ⟨p, hp, heq, hr⟩ := h.reach x i hi
    exact ⟨p, hp, by rwa [hidx p hp], hr⟩
  self x hx := by
    rw [hidx x hx]
    exact h.self x hx
  edge x q hq := by
    rw [hidx q (h.edge_lt x q hq).2]
    exact h.edge x q hq
  stale x p q hp hq := by
    rw [hidx p (h.edge_lt p q hq).1] at hp
    rw [hidx q (h.edge_lt p q hq).2]
    exact h.stale x p q hp hq
  updated_le := h.updated_le
  changed_le := h.changed_le

/-- A new clock has its own index, which no other clock has. -/
theorem Inv.create (h : Inv idx E CS) (hi : idx CS.clocks.length = i)
    (hnew : ∀ p, p < CS.clocks.length → idx p ≠ i) : Inv idx E (CS.create i) where
  changeTs := by
    rw [length_create, ← h.changeTs]
    show (CS.changeTs ++ [_]).length = _
    rw [List.length_append]
    rfl
  updateTs := by
    rw [length_create, ← h.updateTs]
    show (CS.updateTs ++ [_]).length = _
    rw [List.length_append]
    rfl
  id p hp := by
    rw [length_create] at hp
    rcases Nat.lt_succ_iff_lt_or_eq.mp hp with hlt | heq
    · exact getElem?_idxToId_create (h.id p hlt) (hnew p hlt)
    · rw [heq, hi]
      exact getElem?_idxToId_create_self
  length_clock x := by
    rw [clock_create, length_idxToId_create]
    have hle := h.length_clock x
    split_ifs
    · rw [List.length_set, List.length_replicate]
      omega
    · omega
  edge_lt p q hq := by
    rw [length_create]
    have hlt := h.edge_lt p q hq
    omega
  reach x y hy := by
    rw [length_create]
    rw [bit_create] at hy
    split_ifs at hy with hx
    · exact ⟨x, by omega, by rw [hx, hi, of_decide_eq_true hy], .refl⟩
    · obtain ⟨p, hp, heq, hr⟩ := h.reach x y hy
      exact ⟨p, by omega, heq, hr⟩
  self x hx := by
    rw [length_create] at hx
    rw [bit_create]
    split_ifs with heq
    · rw [heq, hi, decide_eq_true rfl]
    · exact h.self x (by omega)
  edge x q hq := by
    have hlt := h.edge_lt x q hq
    rw [bit_create, if_neg (by omega)]
    exact h.edge x q hq
  stale x p q hp hq := by
    have hlt := h.edge_lt p q hq
    rw [bit_create] at hp ⊢
    rw [updated_create h.updateTs, changed_create h.changeTs]
    split_ifs at hp ⊢ with hx hpn
    · exact absurd (of_decide_eq_true hp) (hnew p hlt.1)
    · exact absurd (of_decide_eq_true hp) (hnew p hlt.1)
    · omega
    · exact h.stale x p q hp hq
  updated_le x := by
    rw [updated_create h.updateTs]
    split_ifs
    · exact Nat.le_refl _
    · exact h.updated_le x
  changed_le x := by
    rw [changed_create h.changeTs]
    split_ifs
    · exact Nat.le_refl _
    · exact h.changed_le x

/-! ## New edges -/

theorem bit_link (hx : x < CS.clocks.length) : (CS.link x c).bit y i =
    if y = x then CS.bit x i || CS.bit c i else CS.bit y i :=
  bit_addTo hx

theorem updated_link (hc : c < CS.updateTs.length) :
    (CS.link x c).updated y = if y = c then CS.time + 1 else CS.updated y :=
  getD_set _ _ hc

/-- The relation with one more edge. -/
def withEdge (E : Nat → Nat → Prop) (x c : Nat) (p q : Nat) : Prop :=
  E p q ∨ p = x ∧ q = c

theorem reach_withEdge (hr : ReflTransGen E p q) : ReflTransGen (withEdge E x c) p q :=
  ReflTransGen.mono (fun _ _ he => .inl he) _ _ hr

/-- A clock that is up to date is added to another clock. -/
theorem Inv.link (h : Inv idx E CS) (hx : x < CS.clocks.length) (hc : c < CS.clocks.length)
    (hne : x ≠ c) (hu : CS.updated c = CS.time) : Inv idx (withEdge E x c) (CS.link x c) where
  changeTs := by
    show (CS.changeTs.set _ _).length = (CS.clocks.set _ _).length
    rw [List.length_set, List.length_set, h.changeTs]
  updateTs := by
    show (CS.updateTs.set _ _).length = (CS.clocks.set _ _).length
    rw [List.length_set, List.length_set, h.updateTs]
  id p hp := by
    rw [show (CS.link x c).clocks.length = _ from List.length_set] at hp
    exact h.id p hp
  length_clock y := by
    rw [show (CS.link x c).clock y = _ from clock_addTo hx]
    show _ ≤ CS.idxToId.length
    have hlx := h.length_clock x
    have hlc := h.length_clock c
    split_ifs
    · rw [length_addClock]
      exact Nat.max_le.mpr ⟨hlx, hlc⟩
    · exact h.length_clock y
  edge_lt p q hq := by
    rw [show (CS.link x c).clocks.length = _ from List.length_set]
    rcases hq with hq | ⟨rfl, rfl⟩
    · exact h.edge_lt p q hq
    · exact ⟨hx, hc⟩
  reach y j hj := by
    rw [show (CS.link x c).clocks.length = _ from List.length_set]
    rw [bit_link hx] at hj
    split_ifs at hj with hy
    · subst hy
      rcases Bool.or_eq_true_iff.mp hj with hj | hj
      · obtain ⟨p, hp, heq, hr⟩ := h.reach y j hj
        exact ⟨p, hp, heq, reach_withEdge hr⟩
      · obtain ⟨p, hp, heq, hr⟩ := h.reach c j hj
        exact ⟨p, hp, heq, ReflTransGen.head (.inr ⟨rfl, rfl⟩) (reach_withEdge hr)⟩
    · obtain ⟨p, hp, heq, hr⟩ := h.reach y j hj
      exact ⟨p, hp, heq, reach_withEdge hr⟩
  self y hy := by
    rw [show (CS.link x c).clocks.length = _ from List.length_set] at hy
    rw [bit_link hx]
    split_ifs with hyx
    · rw [← hyx, h.self y hy, Bool.true_or]
    · exact h.self y hy
  edge y q hq := by
    rw [bit_link hx]
    rcases hq with hq | ⟨rfl, rfl⟩
    · split_ifs with hyx
      · rw [← hyx, h.edge y q hq, Bool.true_or]
      · exact h.edge y q hq
    · rw [if_pos rfl, h.self q hc, Bool.or_true]
  stale y p q hp hq := by
    have hcx : ¬x = c := hne
    rw [bit_link hx] at hp ⊢
    rw [updated_link (by rwa [h.updateTs]), changed_link (by rwa [h.changeTs])]
    have hupd := h.updated_le y
    -- `c` has the edges of its clocks, and the new edge when it has `x`
    have hclosed : CS.bit c (idx p) = true → CS.bit c (idx q) = true := by
      intro hbit
      rcases hq with hq | ⟨rfl, rfl⟩
      · exact h.closed_of_updated hu hbit q hq
      · exact h.self q hc
    by_cases hy : y = x
    · rw [if_pos hy] at hp ⊢
      rcases Bool.or_eq_true_iff.mp hp with hp | hp
      · rcases hq with hq | ⟨rfl, rfl⟩
        · rcases h.stale x p q hp hq with hbit | hlt
          · exact .inl (by rw [hbit, Bool.true_or])
          · refine .inr ?_
            rw [hy] at hupd ⊢
            rw [if_neg hcx]
            split_ifs <;> omega
        · exact .inl (by rw [h.self q hc, Bool.or_true])
      · exact .inl (by rw [hclosed hp, Bool.or_true])
    · rw [if_neg hy] at hp ⊢
      by_cases hyc : y = c
      · rw [hyc] at hp ⊢
        exact .inl (hclosed hp)
      · rw [if_neg hyc]
        split_ifs with hpx
        · exact .inr (by omega)
        · rcases hq with hq | ⟨rfl, rfl⟩
          · exact h.stale y p q hp hq
          · exact absurd rfl hpx
  updated_le y := by
    rw [updated_link (by rwa [h.updateTs])]
    show _ ≤ CS.time + 1
    have hle := h.updated_le y
    split_ifs <;> omega
  changed_le y := by
    rw [changed_link (by rwa [h.changeTs])]
    show _ ≤ CS.time + 1
    have hle := h.changed_le y
    split_ifs <;> omega

end ClockSystem

/-- The clocks of one clock system and the `+=` that were made. -/
structure LazyClocks where
  cs : ClockSystem := {}
  idxs : List Nat := []
  added : List (Nat × Nat) := []

namespace LazyClocks

/-- The index of a clock. -/
def idx (S : LazyClocks) (x : Nat) : Nat := S.idxs.getD x 0

/-- The clock `c` was added to the clock `x`. -/
def Added (S : LazyClocks) (x c : Nat) : Prop := (x, c) ∈ S.added

/-- The states that creations, `+=` and queries lead to. -/
inductive Reachable : LazyClocks → Prop where
  | start : Reachable {}
  | create {S : LazyClocks} (i : Nat) : Reachable S → i ∉ S.idxs →
      Reachable { S with cs := S.cs.create i, idxs := S.idxs ++ [i] }
  | addAssign {S : LazyClocks} {cs : ClockSystem} (x c fuel : Nat) : Reachable S →
      x < S.idxs.length → c < S.idxs.length → S.cs.addAssign fuel x c (S.idx c) = some cs →
      Reachable { S with cs := cs, added := (x, c) :: S.added }
  | query {S : LazyClocks} {cs : ClockSystem} {b : Bool} (x i fuel : Nat) : Reachable S →
      x < S.idxs.length → S.cs.query fuel x i = some (cs, b) → Reachable { S with cs := cs }

/-- The query `x[i]` ends, and it tells whether `i` is the index of a clock that is
reachable from `x`. -/
def Answers (S : LazyClocks) (x i : Nat) : Prop :=
  ∃ fuel cs b, S.cs.query fuel x i = some (cs, b) ∧
    (b = true ↔ i = S.idx x ∨ ∃ p, p < S.idxs.length ∧ S.idx p = i ∧ TransGen S.Added x p)

variable {S : LazyClocks} {E E' : Nat → Nat → Prop} {x c p q i : Nat}

/-- The edges `E` that the stored bits know of lead to the same clocks as the `+=` made. -/
structure Fits (S : LazyClocks) (E : Nat → Nat → Prop) : Prop where
  inv : Inv S.idx E S.cs
  length : S.cs.clocks.length = S.idxs.length
  reach : ∀ p q, ReflTransGen E p q ↔ ReflTransGen S.Added p q

theorem reach_withEdge_mono (h : ∀ p q, ReflTransGen E p q → ReflTransGen E' p q)
    (hr : ReflTransGen (withEdge E x c) p q) : ReflTransGen (withEdge E' x c) p q := by
  induction hr with
  | refl => exact .refl
  | tail _ he ih =>
    rcases he with he | he
    · exact ih.trans (reach_withEdge (h _ _ (.single he)))
    · exact ih.tail (.inr he)

/-- An edge to a clock that is reached already. -/
theorem reach_withEdge_iff (h : ReflTransGen E x c) :
    ReflTransGen (withEdge E x c) p q ↔ ReflTransGen E p q := by
  constructor
  · intro hr
    induction hr with
    | refl => exact .refl
    | tail _ he ih =>
      rcases he with he | ⟨rfl, rfl⟩
      · exact ih.tail he
      · exact ih.trans h
  · exact reach_withEdge

theorem added_cons {cs : ClockSystem} :
    Added { S with cs := cs, added := (x, c) :: S.added } = withEdge S.Added x c := by
  funext p q
  apply propext
  show (p, q) ∈ (x, c) :: S.added ↔ _
  rw [List.mem_cons, Prod.mk.injEq, or_comm]
  rfl

namespace Fits

theorem create (h : S.Fits E) (hi : i ∉ S.idxs) :
    Fits { S with cs := S.cs.create i, idxs := S.idxs ++ [i] } E where
  inv := by
    have hidx : ∀ p, (S.idxs ++ [i]).getD p 0 = if p = S.idxs.length then i else S.idx p :=
      fun p => getD_concat _ _
    refine Inv.create (h.inv.congr_idx fun p hp => ?_) ?_ fun p hp => ?_
    · rw [h.length] at hp
      exact (hidx p).trans (if_neg (by omega))
    · exact (hidx _).trans (if_pos h.length)
    · rw [h.length] at hp
      intro heq
      have hold : S.idx p = i := by
        rw [← heq]
        exact ((hidx p).trans (if_neg (by omega))).symm
      rw [LazyClocks.idx, List.getD_eq_getElem _ _ hp] at hold
      exact hi (hold ▸ List.getElem_mem hp)
  length := by
    rw [length_create, List.length_append, h.length]
    rfl
  reach := h.reach

theorem update {cs : ClockSystem} {fuel : Nat} (h : S.Fits E)
    (hu : S.cs.update fuel x = some cs) : Fits { S with cs := cs } E := by
  have hpost := update_correct fuel S.cs x cs h.inv hu
  exact ⟨hpost.inv, hpost.grown.length.trans h.length, h.reach⟩

theorem addAssign {cs : ClockSystem} {fuel : Nat} (h : S.Fits E) (hx : x < S.idxs.length)
    (hc : c < S.idxs.length) (ha : S.cs.addAssign fuel x c (S.idx c) = some cs) :
    ∃ E', Fits { S with cs := cs, added := (x, c) :: S.added } E' := by
  rw [← h.length] at hx hc
  unfold ClockSystem.addAssign at ha
  split_ifs at ha with hhas
  · cases ha
    have hreach : ReflTransGen S.Added x c := (h.reach x c).mp (h.inv.reach_idx hc hhas.2)
    refine ⟨E, h.inv, h.length, fun p q => ?_⟩
    rw [added_cons, reach_withEdge_iff hreach]
    exact h.reach p q
  · obtain ⟨cs₁, hu, rfl⟩ := Option.map_eq_some_iff.mp ha
    have hpost := update_correct fuel S.cs c cs₁ h.inv hu
    have hne : x ≠ c := by
      rintro rfl
      have hself := h.inv.self x hx
      exact hhas ⟨lt_length_of_bit hself, hself⟩
    rw [← hpost.grown.length] at hx hc
    refine ⟨withEdge E x c, ?_, ?_, fun p q => ?_⟩
    · exact hpost.inv.link hx hc hne (hpost.updated.trans hpost.grown.time.symm)
    · exact (show (cs₁.link x c).clocks.length = _ from List.length_set).trans
        (hpost.grown.length.trans h.length)
    · rw [added_cons]
      exact ⟨reach_withEdge_mono fun p q => (h.reach p q).mp,
        reach_withEdge_mono fun p q => (h.reach p q).mpr⟩

end Fits

/-- In each state the stored bits know of edges that lead to the same clocks. -/
theorem Reachable.fits (h : Reachable S) : ∃ E, S.Fits E := by
  induction h with
  | start =>
    refine ⟨Added {}, ⟨rfl, rfl, ?_, ?_, ?_, ?_, ?_, ?_, ?_, ?_, ?_⟩, rfl, fun _ _ => Iff.rfl⟩
    · exact fun p hp => absurd hp (Nat.not_lt_zero p)
    · exact fun x => Nat.le_refl 0
    · exact fun p q hq => absurd hq List.not_mem_nil
    · exact fun x i hi => absurd (lt_length_of_bit hi) (Nat.not_lt_zero i)
    · exact fun x hx => absurd hx (Nat.not_lt_zero x)
    · exact fun x q hq => absurd hq List.not_mem_nil
    · exact fun x p q _ hq => absurd hq List.not_mem_nil
    · exact fun x => Nat.le_refl 0
    · exact fun x => Nat.le_refl 0
  | create i _ hi ih =>
    obtain ⟨E, h⟩ := ih
    exact ⟨E, h.create hi⟩
  | addAssign x c fuel _ hx hc ha ih =>
    obtain ⟨E, h⟩ := ih
    exact h.addAssign hx hc ha
  | query x i fuel _ _ hq ih =>
    obtain ⟨E, h⟩ := ih
    obtain ⟨cs₁, hu, heq⟩ := Option.map_eq_some_iff.mp hq
    cases heq
    exact ⟨E, h.update hu⟩

/-! ## The answers -/

theorem calls_congr {idx : Nat → Nat} {CS : ClockSystem}
    (h : ∀ p q, ReflTransGen E p q → ReflTransGen E' p q) (hc : Calls idx E CS x p) :
    Calls idx E' CS x p := by
  induction hc with
  | stored hne hlt hp hbit => exact .stored hne hlt hp hbit
  | found hne hlt hp _ hidx hreach ih => exact .found hne hlt hp ih hidx (h _ _ hreach)

theorem ends_congr {idx : Nat → Nat} {CS : ClockSystem}
    (h : ∀ p q, ReflTransGen E p q ↔ ReflTransGen E' p q) :
    Ends idx E CS x ↔ Ends idx E' CS x := by
  have hcalls : (fun p x => Calls idx E CS x p) = fun p x => Calls idx E' CS x p := by
    funext p x
    apply propext
    exact ⟨calls_congr fun p q => (h p q).mp, calls_congr fun p q => (h p q).mpr⟩
  rw [Ends, hcalls]
  rfl

/-- An update ends exactly when the calls over the `+=` made are well-founded. -/
theorem Reachable.update_ends (h : Reachable S) (hx : x < S.idxs.length) :
    (∃ fuel cs, S.cs.update fuel x = some cs) ↔ Ends S.idx S.Added S.cs x := by
  obtain ⟨E, hfits⟩ := h.fits
  rw [← ends_congr hfits.reach]
  exact update_ends_iff hfits.inv (by rwa [hfits.length])

/-- A query that ends answers which clocks are reachable. -/
theorem Reachable.query_exact {fuel : Nat} {cs : ClockSystem} {b : Bool} (h : Reachable S)
    (hx : x < S.idxs.length) (hq : S.cs.query fuel x i = some (cs, b)) :
    b = true ↔ i = S.idx x ∨ ∃ p, p < S.idxs.length ∧ S.idx p = i ∧ TransGen S.Added x p := by
  obtain ⟨E, hfits⟩ := h.fits
  obtain ⟨cs₁, hu, heq⟩ := Option.map_eq_some_iff.mp hq
  cases heq
  have hpost := update_correct fuel S.cs x cs hfits.inv hu
  have hlen : cs.clocks.length = S.idxs.length := hpost.grown.length.trans hfits.length
  have hbit : (decide (i < (cs.clock x).length) && cs.bit x i) = true ↔ cs.bit x i = true := by
    rw [Bool.and_eq_true, decide_eq_true_iff]
    exact ⟨And.right, fun hb => ⟨lt_length_of_bit hb, hb⟩⟩
  rw [hbit]
  constructor
  · intro hb
    obtain ⟨p, hp, heq, hr⟩ := hpost.inv.reach x i hb
    rw [hfits.reach, reflTransGen_iff_eq_or_transGen] at hr
    rcases hr with rfl | hr
    · exact .inl heq.symm
    · exact .inr ⟨p, by omega, heq, hr⟩
  · have hup : cs.updated x = cs.time := hpost.updated.trans hpost.grown.time.symm
    rw [← hlen] at hx
    rintro (rfl | ⟨p, hp, rfl, hr⟩)
    · exact hpost.inv.self x hx
    · rw [← hlen] at hp
      exact (hpost.inv.bit_iff_reach hx hup hp).mpr ((hfits.reach x p).mpr hr.to_reflTransGen)

/-- A query answers exactly when the calls of its update are well-founded. -/
theorem answers_iff (h : Reachable S) (hx : x < S.idxs.length) :
    S.Answers x i ↔ Ends S.idx S.Added S.cs x := by
  rw [← h.update_ends hx]
  constructor
  · rintro ⟨fuel, cs, b, hq, -⟩
    obtain ⟨cs₁, hu, -⟩ := Option.map_eq_some_iff.mp hq
    exact ⟨fuel, cs₁, hu⟩
  · rintro ⟨fuel, cs, hu⟩
    have hq : S.cs.query fuel x i =
        some (cs, decide (i < (cs.clock x).length) && cs.bit x i) := by
      rw [query, hu]
      rfl
    exact ⟨fuel, cs, _, hq, h.query_exact hx hq⟩

/-- Two clocks, the second of which was added to the first. -/
def pair : LazyClocks where
  cs :=
    { time := 1
      changeTs := [1, 0]
      updateTs := [0, 1]
      clocks := [[true, true], [false, true]]
      idxToId := [0, 1] }
  idxs := [0, 1]
  added := [(0, 1)]

theorem reachable_pair : Reachable pair := by
  have h₂ := (Reachable.start.create 0 (by decide)).create 1 (by decide)
  exact h₂.addAssign 0 1 1 (by decide) (by decide) rfl

/-- The query of the clock that misses no change ends. -/
theorem answers_pair : pair.Answers 0 1 := by
  refine (answers_iff reachable_pair (by decide)).mpr (Acc.intro 0 fun p hc => ?_)
  have hmissed : ∀ p, p < 2 → p ≠ 0 → ¬pair.cs.updated 0 < pair.cs.changed p := by decide
  exact absurd hc.missed (hmissed p hc.lt hc.ne)

/-- Two clocks that include each other, each with a clock that was added to it afterwards. -/
def included : LazyClocks where
  cs :=
    { time := 4
      changeTs := [3, 4, 0, 0]
      updateTs := [2, 1, 3, 4]
      clocks := [[true, true, true], [true, true, false, true], [false, false, true],
        [false, false, false, true]]
      idxToId := [0, 1, 2, 3] }
  idxs := [0, 1, 2, 3]
  added := [(1, 3), (0, 2), (1, 0), (0, 1)]

theorem reachable_included : Reachable included := by
  have h₄ := (((Reachable.start.create 0 (by decide)).create 1 (by decide)).create 2
    (by decide)).create 3 (by decide)
  have h₅ := h₄.addAssign 0 1 2 (by decide) (by decide) rfl
  have h₆ := h₅.addAssign 1 0 2 (by decide) (by decide) rfl
  have h₇ := h₆.addAssign 0 2 2 (by decide) (by decide) rfl
  exact h₇.addAssign 1 3 2 (by decide) (by decide) rfl

/-- The update of each of the two clocks calls that of the other one. -/
theorem not_answers_included :
    Reachable included ∧ 0 < included.idxs.length ∧ ¬included.Answers 0 1 := by
  refine ⟨reachable_included, by decide, ?_⟩
  rintro ⟨fuel, cs, b, hq, -⟩
  obtain ⟨cs₁, hu, -⟩ := Option.map_eq_some_iff.mp hq
  have hends := (reachable_included.update_ends (x := 0) (by decide)).mp ⟨fuel, cs₁, hu⟩
  have h₀₁ : Calls included.idx included.Added included.cs 0 1 :=
    .stored (by decide) (by decide) (by decide) (by decide)
  have h₁₀ : Calls included.idx included.Added included.cs 1 0 :=
    .stored (by decide) (by decide) (by decide) (by decide)
  exact hends.not_cycle ((TransGen.single h₀₁).tail h₁₀)

end LazyClocks

end ViEqui.Clocks
