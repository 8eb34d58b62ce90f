import ViEqui.Power.Event
import ViEqui.Lib.ExchangeSort
import Mathlib.Data.List.Pairwise

/-!
# Normalised branches

`normalise_branch` sorts the events of a branch by cb, and those that cb does not
order by their identifiers.  The events at the end of the branch stay where they
are.  The order that comes out respects cb.  It is the same for all orders of the
same events if and only if no three events are entangled
(`normaliseBranch_canonical_iff`): there the comparison goes round in a circle.
-/

namespace ViEqui.Power

open List

/-- The number of events at the end of a branch that are not moved. -/
def Branch.fixedCount (B : Branch) : Nat :=
  match B.paramType with
  | .wr => 2
  | .star => 1

/-- `last_event`. -/
def Branch.lastEvent (B : Branch) : Nat := B.branch.length - B.fixedCount

namespace TB

/-- `a` is before `b` in cb, or the same event. -/
def cbBefore (tb : TB) (a b : IID) : Bool := (tb.getEvt b).cbBwd.get (tb.getEvt a).clockIndex

/-- The comparison of `normalise_branch`.  It asserts that the second event is not
before the first one in cb. -/
def branchLt (tb : TB) (A B : PEvent) : Bool := tb.cbBefore A.iid B.iid || A.iid < B.iid

/-- `choices[i]`. -/
def choiceAt (choices : List Choice) (i : Nat) : Choice := choices.getD i { coPos := -1 }

/-- Corrects the coherence positions of two stores to the same byte, of which the
second one is moved before the first one. -/
def nudgeAt (a b : Nat) (cs : List Choice × List Choice) : List Choice × List Choice :=
  if (choiceAt cs.1 a).coPos < (choiceAt cs.2 b).coPos then
    (cs.1, cs.2.modify b fun c => { c with coPos := c.coPos - 1 })
  else (cs.1.modify a fun c => { c with coPos := c.coPos + 1 }, cs.2)

/-- The choices of two events after the second one is moved before the first one. -/
def nudge (tb : TB) (P Q : PEvent) : List Choice × List Choice :=
  (tb.getEvt P.iid).baccesses.zipIdx.foldl (fun cs (A, a) =>
    if A.type = .store then
      (tb.getEvt Q.iid).baccesses.zipIdx.foldl (fun cs (B, b) =>
        if B.type = .store ∧ A.addr = B.addr then nudgeAt a b cs else cs) cs
    else cs) (P.choices, Q.choices)

/-- The two events of an exchange, with their choices corrected. -/
def exchange (tb : TB) (P Q : PEvent) : PEvent × PEvent :=
  ({ P with choices := (tb.nudge P Q).1 }, { Q with choices := (tb.nudge P Q).2 })

/-- `normalise_branch`. -/
def normaliseBranch (tb : TB) (B : Branch) : Branch :=
  { B with branch := ExchangeSort.sort tb.branchLt tb.exchange B.lastEvent B.branch }

end TB

/-! ## The order of the events -/

/-- The events of a branch. -/
def Branch.order (B : Branch) : List IID := B.branch.map PEvent.iid

/-- The events that are sorted. -/
def Branch.body (B : Branch) : List IID := B.order.take B.lastEvent

/-- The events at the end. -/
def Branch.tail (B : Branch) : List IID := B.order.drop B.lastEvent

namespace TB

/-- Different events in an order that respects cb. -/
structure CbOrder (tb : TB) (L : List IID) : Prop where
  nodup : L.Nodup
  respects : L.Pairwise fun a b => tb.cbBefore b a = false

/-- `B'` has the events of `B` in an order that respects cb, with the same end. -/
structure Rearranged (tb : TB) (B B' : Branch) : Prop where
  paramType : B'.paramType = B.paramType
  body : B'.body.Perm B.body
  tail : B'.tail = B.tail
  order : tb.CbOrder B'.order

/-- The identifiers of `a`, `b` and `c` ascend, and `c` is before `a` in cb, but `b`
is not ordered with the other two. -/
structure Entangled (tb : TB) (L : List IID) (a b c : IID) : Prop where
  mem : a ∈ L ∧ b ∈ L ∧ c ∈ L
  ascend : a < b ∧ b < c
  back : tb.cbBefore c a = true
  first : tb.cbBefore a b = false ∧ tb.cbBefore b a = false
  last : tb.cbBefore b c = false ∧ tb.cbBefore c b = false

/-- `x` has to stay behind `p`, as the comparison sees it. -/
def Behind (tb : TB) (x p : IID) : Prop := tb.cbBefore p x = true ∨ p < x

instance (tb : TB) : DecidableRel tb.Behind := fun _ _ => inferInstanceAs (Decidable (_ ∨ _))

instance (tb : TB) (L : List IID) : Decidable (tb.CbOrder L) :=
  decidable_of_iff (L.Nodup ∧ L.Pairwise fun a b => tb.cbBefore b a = false)
    ⟨fun h => ⟨h.1, h.2⟩, fun h => ⟨h.1, h.2⟩⟩

variable {tb : TB} {B B' : Branch}

theorem order_eq (B : Branch) : B.order = B.body ++ B.tail := (take_append_drop _ _).symm

theorem order_normaliseBranch (tb : TB) (B : Branch) :
    (tb.normaliseBranch B).order = (B.body.reverse.insertionSort tb.Behind).reverse ++ B.tail :=
  ExchangeSort.map_sort (fun p x => by simp [branchLt, Behind]) (fun _ _ => rfl)
    (fun _ _ => rfl) B.lastEvent B.branch (Nat.sub_le _ _)

/-- An exchange does not move an event before what is before it in cb. -/
theorem CbOrder.normaliseBranch (h : tb.CbOrder B.order) :
    tb.CbOrder (tb.normaliseBranch B).order := by
  refine ExchangeSort.sort_induct (P := fun l => tb.CbOrder (l.map PEvent.iid)) ?_ _ _ h
  intro pre p x post hlt h
  have hperm : (pre ++ (tb.exchange p x).2 :: (tb.exchange p x).1 :: post).map PEvent.iid =
      pre.map PEvent.iid ++ x.iid :: p.iid :: post.map PEvent.iid := by simp [exchange]
  rw [map_append, map_cons, map_cons] at h
  rw [hperm]
  refine ⟨(Perm.append_left _ (Perm.swap x.iid p.iid _)).nodup h.nodup, ?_⟩
  have hswap : tb.cbBefore p.iid x.iid = false := (Bool.or_eq_false_iff.mp hlt).1
  have hresp := h.respects
  rw [pairwise_append, pairwise_cons, pairwise_cons] at hresp ⊢
  obtain ⟨hpre, ⟨hp, hx, hpost⟩, hcross⟩ := hresp
  refine ⟨hpre, ⟨?_, fun b hb => hp b (mem_cons_of_mem _ hb), hpost⟩, ?_⟩
  · exact forall_mem_cons.mpr ⟨hswap, hx⟩
  · intro a ha b hb
    refine hcross a ha b ?_
    rw [mem_cons, mem_cons] at hb ⊢
    tauto

/-! ## Entangled events -/

/-- Two events of a list that respects cb are not before each other. -/
theorem CbOrder.antisymm {L : List IID} (h : tb.CbOrder L) {a b : IID} (ha : a ∈ L) (hb : b ∈ L)
    (hne : a ≠ b) : ¬ (tb.cbBefore a b = true ∧ tb.cbBefore b a = true) := by
  let R (a b : IID) : Prop := ¬ (tb.cbBefore a b = true ∧ tb.cbBefore b a = true)
  have hsymm : Std.Symm R := ⟨fun a b h h' => h h'.symm⟩
  have hpair : L.Pairwise R := h.respects.imp fun {a b} h => by
    rintro ⟨-, hba⟩
    exact Bool.false_ne_true (h.symm.trans hba)
  exact hpair.forall ha hb hne

/-- An event that is before another one in cb stands before it. -/
theorem CbOrder.pair {L : List IID} (h : tb.CbOrder L) {a b : IID} (ha : a ∈ L) (hb : b ∈ L)
    (hne : a ≠ b) (hab : tb.cbBefore a b = true) : [a, b] <+ L := by
  obtain ⟨pre, post, rfl⟩ := append_of_mem ha
  rcases mem_append.mp hb with hb | hb
  · have := (pairwise_append.mp h.respects).2.2 b hb a mem_cons_self
    exact absurd hab (Bool.eq_false_iff.mp this)
  · have hb := (mem_cons.mp hb).resolve_left hne.symm
    exact sublist_append_of_sublist_right (Sublist.cons_cons a (singleton_sublist.mpr hb))

/-- A pair that stands in the order of the comparison keeps its order. -/
theorem pair_normaliseBranch {a b : IID} (hab : [a, b] <+ B.body)
    (hlt : tb.cbBefore a b = true ∨ a < b) : [a, b] <+ (B.body.reverse.insertionSort tb.Behind).reverse := by
  have hrev : [b, a] <+ B.body.reverse := reverse_sublist.mpr hab
  exact reverse_sublist.mpr (pair_sublist_insertionSort (r := tb.Behind) hlt hrev)

/-- The branch with the events of `L` in front of its end. -/
def withBody (B : Branch) (L : List IID) : Branch :=
  { B with branch := (L ++ B.tail).map fun e => { iid := e } }

theorem body_withBody {L : List IID} (h : L.Perm B.body) :
    (withBody B L).body = L ∧ (withBody B L).tail = B.tail := by
  have horder : (withBody B L).order = L ++ B.tail := by
    unfold withBody Branch.order
    rw [map_map]
    exact map_id _
  have hlast : (withBody B L).lastEvent = L.length := by
    have hlen : (withBody B L).branch.length = B.branch.length := by
      unfold withBody
      have := congrArg length (order_eq B)
      rw [length_append, ← h.length_eq] at this
      rw [length_map, length_append, ← this]
      exact length_map _
    have hbody : B.body.length = B.lastEvent := by
      unfold Branch.body Branch.order
      rw [length_take, length_map]
      exact Nat.min_eq_left (Nat.sub_le _ _)
    rw [h.length_eq, hbody]
    unfold Branch.lastEvent
    rw [hlen]
    rfl
  unfold Branch.body Branch.tail
  rw [horder, hlast]
  exact ⟨take_left' rfl, drop_left' rfl⟩

/-- The events with `e` and what is before it in cb at the front. -/
def toFront (tb : TB) (L : List IID) (e : IID) : List IID :=
  L.filter (fun x => x = e || tb.cbBefore x e) ++ L.filter fun x => !(x = e || tb.cbBefore x e)

/-- Events that are before others in cb can be moved to the front. -/
theorem rearranged_toFront (h : tb.CbOrder B.order)
    (htrans : ∀ a ∈ B.body, ∀ b ∈ B.body, ∀ c ∈ B.body, tb.cbBefore a b = true →
      tb.cbBefore b c = true → tb.cbBefore a c = true) {e : IID} (he : e ∈ B.body) :
    tb.Rearranged B (withBody B (tb.toFront B.body e)) := by
  have hperm : (tb.toFront B.body e).Perm B.body := filter_append_perm _ _
  obtain ⟨hbody, htail⟩ := body_withBody hperm
  refine ⟨rfl, by rwa [hbody], htail, ?_⟩
  rw [order_eq, hbody, htail]
  rw [order_eq] at h
  refine ⟨(hperm.append_right B.tail).nodup_iff.mpr h.nodup, ?_⟩
  obtain ⟨hresp, htailresp, hcross⟩ := pairwise_append.mp h.respects
  refine pairwise_append.mpr ⟨pairwise_append.mpr ⟨hresp.filter _, hresp.filter _, ?_⟩, htailresp,
    fun a ha b hb => hcross a (hperm.mem_iff.mp ha) b hb⟩
  intro x hx y hy
  obtain ⟨hx, hxe⟩ := mem_filter.mp hx
  obtain ⟨hy, hye⟩ := mem_filter.mp hy
  rw [Bool.not_eq_true', Bool.or_eq_false_iff, decide_eq_false_iff_not] at hye
  by_contra hyx
  have hyx : tb.cbBefore y x = true := Bool.not_eq_false _ ▸ hyx
  rcases Bool.or_eq_true_iff.mp hxe with hxe | hxe
  · rw [of_decide_eq_true hxe] at hyx
    exact Bool.false_ne_true (hye.2.symm.trans hyx)
  · exact Bool.false_ne_true (hye.2.symm.trans (htrans y hy x hx e he hyx hxe))

/-- An event that is moved to the front stands before those that cb does not put
before it. -/
theorem pair_toFront {L : List IID} {e x : IID} (he : e ∈ L) (hx : x ∈ L) (hne : x ≠ e)
    (hxe : tb.cbBefore x e = false) : [e, x] <+ tb.toFront L e := by
  have hfront : [e] <+ L.filter fun x => x = e || tb.cbBefore x e :=
    singleton_sublist.mpr (mem_filter.mpr ⟨he, by simp⟩)
  have hback : [x] <+ L.filter fun x => !(x = e || tb.cbBefore x e) :=
    singleton_sublist.mpr (mem_filter.mpr ⟨hx, by simp [hne, hxe]⟩)
  exact hfront.append hback

/-- Of three entangled events, the order at the start decides how they end up. -/
theorem not_canonical_of_entangled (h : tb.CbOrder B.order)
    (htrans : ∀ a ∈ B.body, ∀ b ∈ B.body, ∀ c ∈ B.body, tb.cbBefore a b = true →
      tb.cbBefore b c = true → tb.cbBefore a c = true) {a b c : IID}
    (hent : tb.Entangled B.body a b c)
    (hsame : ∀ B', tb.Rearranged B B' → (tb.normaliseBranch B').order =
      (tb.normaliseBranch B).order) : False := by
  obtain ⟨ha, hb, hc⟩ := hent.mem
  have hirrefl (x : IID) : ¬ x < x := irrefl_of (· < ·) x
  have hac : a ≠ c := by
    rintro rfl
    exact hirrefl a (trans_of (· < ·) hent.ascend.1 hent.ascend.2)
  have hab : a ≠ b := fun heq => hirrefl a (heq ▸ hent.ascend.1)
  have hbc : b ≠ c := fun heq => hirrefl b (heq ▸ hent.ascend.2)
  -- the events that are sorted come out the same for each start
  have hsorted {e : IID} (he : e ∈ B.body) {x y : IID} (hxy : [x, y] <+ tb.toFront B.body e)
      (hlt : tb.cbBefore x y = true ∨ x < y) :
      [x, y] <+ (B.body.reverse.insertionSort tb.Behind).reverse := by
    have hperm : (tb.toFront B.body e).Perm B.body := filter_append_perm _ _
    have heq := hsame _ (rearranged_toFront h htrans he)
    obtain ⟨hbody, htail⟩ := body_withBody hperm
    rw [order_normaliseBranch, order_normaliseBranch, htail] at heq
    rw [← append_cancel_right heq]
    refine pair_normaliseBranch ?_ hlt
    rwa [hbody]
  have hnodup : (B.body.reverse.insertionSort tb.Behind).reverse.Nodup := by
    have hbody : B.body.Nodup := h.nodup.sublist (take_sublist _ _)
    exact ((reverse_perm _).trans ((perm_insertionSort tb.Behind _).trans
      (reverse_perm _))).nodup_iff.mpr hbody
  refine ExchangeSort.not_cyclic_of_nodup hnodup
    (hsorted ha (pair_toFront ha hb hab.symm hent.first.2) (Or.inr hent.ascend.1))
    (hsorted hb (pair_toFront hb hc hbc.symm hent.last.2) (Or.inr hent.ascend.2))
    (hsorted ha ?_ (Or.inl hent.back))
  have horder := (rearranged_toFront h htrans ha).order
  have hperm : (tb.toFront B.body a).Perm B.body := filter_append_perm _ _
  obtain ⟨hbody, htail⟩ := body_withBody hperm
  rw [order_eq, hbody, htail] at horder
  have hfront : tb.CbOrder (tb.toFront B.body a) :=
    ⟨(nodup_append.mp horder.nodup).1, (pairwise_append.mp horder.respects).1⟩
  exact hfront.pair (hperm.mem_iff.mpr hc) (hperm.mem_iff.mpr ha) hac.symm hent.back

/-! ## Events that are not entangled -/

/-- `x` has to stay behind `p`: the comparison, where it is consistent. -/
def After (tb : TB) (x p : IID) : Prop :=
  x = p ∨ tb.cbBefore p x = true ∨ tb.cbBefore x p = false ∧ p < x

instance (tb : TB) : DecidableRel tb.After := fun _ _ => inferInstanceAs (Decidable (_ ∨ _))

theorem after_total (x p : IID) : tb.After x p ∨ tb.After p x := by
  unfold After
  by_cases hpx : tb.cbBefore p x = true
  · exact Or.inl (Or.inr (Or.inl hpx))
  · by_cases hxp : tb.cbBefore x p = true
    · exact Or.inr (Or.inr (Or.inl hxp))
    · rcases IID.lt_trichotomy x p with hlt | heq | hlt
      · exact Or.inr (Or.inr (Or.inr ⟨Bool.eq_false_iff.mpr hpx, hlt⟩))
      · exact Or.inl (Or.inl heq)
      · exact Or.inl (Or.inr (Or.inr ⟨Bool.eq_false_iff.mpr hxp, hlt⟩))

/-- A circle of the comparison has one step against the identifiers, and the two
others along them. -/
theorem CbOrder.after_trans {L : List IID} (h : tb.CbOrder L)
    (htrans : ∀ a ∈ L, ∀ b ∈ L, ∀ c ∈ L, tb.cbBefore a b = true →
      tb.cbBefore b c = true → tb.cbBefore a c = true)
    (hent : ∀ a b c, ¬ tb.Entangled L a b c) {x y z : IID} (hx : x ∈ L) (hy : y ∈ L) (hz : z ∈ L)
    (hxy : tb.After x y) (hyz : tb.After y z) : tb.After x z := by
  have hanti {a b : IID} (ha : a ∈ L) (hb : b ∈ L) (hne : a ≠ b)
      (hab : tb.cbBefore a b = true) : tb.cbBefore b a = false := by
    by_contra hba
    exact h.antisymm ha hb hne ⟨hab, Bool.not_eq_false _ ▸ hba⟩
  have hlt {a b c : IID} (hab : a < b) (hbc : b < c) (hca : c < a) : False :=
    irrefl_of (· < ·) a (trans_of (· < ·) hab (trans_of (· < ·) hbc hca))
  -- one step against the identifiers, and no other edge of cb
  have hone {a b c : IID} (ha : a ∈ L) (hb : b ∈ L) (hc : c ∈ L) (hab : a < b) (hbc : b < c)
      (hca : tb.cbBefore c a = true) (hba : tb.cbBefore b a = false)
      (hcb : tb.cbBefore c b = false) : False := by
    refine hent a b c ⟨⟨ha, hb, hc⟩, ⟨hab, hbc⟩, hca, ⟨?_, hba⟩, ?_, hcb⟩
    · by_contra hab'
      have hcb' := htrans c hc a ha b hb hca (Bool.not_eq_false _ ▸ hab')
      exact Bool.false_ne_true (hcb.symm.trans hcb')
    · by_contra hbc'
      have hba' := htrans b hb c hc a ha (Bool.not_eq_false _ ▸ hbc') hca
      exact Bool.false_ne_true (hba.symm.trans hba')
  have htwo {a b c : IID} (ha : a ∈ L) (hb : b ∈ L) (hc : c ∈ L) (hac : a ≠ c)
      (hab : tb.cbBefore a b = true) (hbc : tb.cbBefore b c = true)
      (hca : tb.cbBefore c a = true ∨ tb.cbBefore a c = false ∧ c < a) : False := by
    have hac' := htrans a ha b hb c hc hab hbc
    rcases hca with hca | ⟨hac'', -⟩
    · exact h.antisymm ha hc hac ⟨hac', hca⟩
    · exact Bool.false_ne_true (hac''.symm.trans hac')
  rcases after_total x z with hxz | hzx
  · exact hxz
  · by_cases hxy' : x = y
    · exact hxy' ▸ hyz
    · by_cases hyz' : y = z
      · exact hyz' ▸ hxy
      · by_cases hxz' : x = z
        · exact Or.inl hxz'
        · exfalso
          have hyx := hxy.resolve_left hxy'
          have hzy := hyz.resolve_left hyz'
          have hxz := hzx.resolve_left (Ne.symm hxz')
          rcases hyx with hyx | ⟨hyx, hlt1⟩
          · rcases hzy with hzy | ⟨hzy, hlt2⟩
            · exact htwo hz hy hx (Ne.symm hxz') hzy hyx hxz
            · rcases hxz with hxz | ⟨hxz, hlt3⟩
              · exact htwo hy hx hz hyz' hyx hxz (Or.inr ⟨hzy, hlt2⟩)
              · exact hone hx hz hy hlt3 hlt2 hyx hxz hzy
          · rcases hzy with hzy | ⟨hzy, hlt2⟩
            · rcases hxz with hxz | ⟨hxz, hlt3⟩
              · exact htwo hx hz hy hxy' hxz hzy (Or.inr ⟨hyx, hlt1⟩)
              · exact hone hy hx hz hlt1 hlt3 hzy hyx hxz
            · rcases hxz with hxz | ⟨hxz, hlt3⟩
              · exact hone hz hy hx hlt2 hlt1 hxz hzy hyx
              · exact hlt hlt3 hlt2 hlt1

theorem CbOrder.sort_eq_of_perm {L L' : List IID} (h : tb.CbOrder L) (h' : tb.CbOrder L')
    (htrans : ∀ a ∈ L, ∀ b ∈ L, ∀ c ∈ L, tb.cbBefore a b = true →
      tb.cbBefore b c = true → tb.cbBefore a c = true)
    (hent : ∀ a b c, ¬ tb.Entangled L a b c) (hperm : L'.Perm L) :
    L'.reverse.insertionSort tb.Behind = L.reverse.insertionSort tb.Behind := by
  have hbehind {L : List IID} (h : tb.CbOrder L) :
      L.reverse.insertionSort tb.Behind = L.reverse.insertionSort tb.After := by
    refine ExchangeSort.insertionSort_congr (pairwise_reverse.mpr ?_)
    refine (h.nodup.and h.respects).imp fun {p x} ⟨hne, hpx⟩ => ?_
    unfold Behind After
    rw [hpx]
    simp [Ne.symm hne]
  rw [hbehind h, hbehind h']
  have hmem {a : IID} (ha : a ∈ L'.reverse) : a ∈ L := hperm.mem_iff.mp (mem_reverse.mp ha)
  refine ExchangeSort.insertionSort_eq_of_perm (fun a _ b _ => after_total a b)
    (fun a ha b hb c hc => h.after_trans htrans hent (hmem ha) (hmem hb) (hmem hc))
    (fun a ha b hb hab hba => ?_)
    ((reverse_perm _).trans (hperm.trans (reverse_perm _).symm))
  by_contra hne
  have hanti := h.antisymm (hmem ha) (hmem hb) hne
  rcases hab with heq | hba' | ⟨hab', hlt⟩
  · exact hne heq
  · rcases hba with heq | hab' | ⟨hba'', -⟩
    · exact hne heq.symm
    · exact hanti ⟨hab', hba'⟩
    · exact Bool.false_ne_true (hba''.symm.trans hba')
  · rcases hba with heq | hab'' | ⟨-, hlt'⟩
    · exact hne heq.symm
    · exact Bool.false_ne_true (hab'.symm.trans hab'')
    · exact irrefl_of (· < ·) a (trans_of (· < ·) hlt' hlt)

/-- `normalise_branch` brings all orders of the same events that respect cb into the
same order, which respects cb as well, if and only if no three of the events that it
sorts are entangled. -/
theorem normaliseBranch_canonical_iff (h : tb.CbOrder B.order)
    (htrans : ∀ a ∈ B.body, ∀ b ∈ B.body, ∀ c ∈ B.body, tb.cbBefore a b = true →
      tb.cbBefore b c = true → tb.cbBefore a c = true) :
    (∀ B', tb.Rearranged B B' →
      (tb.normaliseBranch B').order = (tb.normaliseBranch B).order ∧
        tb.CbOrder (tb.normaliseBranch B').order) ↔
    ∀ a b c, ¬ tb.Entangled B.body a b c := by
  have hbody {B : Branch} (h : tb.CbOrder B.order) : tb.CbOrder B.body :=
    ⟨h.nodup.sublist (take_sublist _ _), h.respects.sublist (take_sublist _ _)⟩
  constructor
  · intro hall a b c hent
    exact not_canonical_of_entangled h htrans hent fun B' hB' => (hall B' hB').1
  · intro hent B' hB'
    refine ⟨?_, hB'.order.normaliseBranch⟩
    rw [order_normaliseBranch, order_normaliseBranch, hB'.tail,
      (hbody h).sort_eq_of_perm (hbody hB'.order) htrans hent hB'.body]

/-- The clock of the events with these clock indices. -/
def clockOf (ds : List Nat) : BVClock := ds.foldl BVClock.set {}

/-- The first thread loads what the third one has stored, and stores it; the last
thread loads that and what the second one has stored, and stores the sum, which the
first thread has loaded before. -/
def sumOfTwo : TB where
  threads := [{ fchCount := 3 }, { fchCount := 1 }, { fchCount := 1 }, { fchCount := 3 }]
  fch := [
    [{ clockIndex := 1, cbBwd := clockOf [0, 1] },
     { clockIndex := 2, cbBwd := clockOf [0, 1, 2] },
     { clockIndex := 3, cbBwd := clockOf [3] }],
    [{ clockIndex := 4, cbBwd := clockOf [4] }],
    [{ clockIndex := 0, cbBwd := clockOf [0] }],
    [{ clockIndex := 5, cbBwd := clockOf [0, 1, 2, 5] },
     { clockIndex := 6, cbBwd := clockOf [4, 6] },
     { clockIndex := 7, cbBwd := clockOf [0, 1, 2, 4, 5, 6, 7] }]]

/-- The events before the sum and the load that it conflicts with, in an order in
which they can be committed. -/
def branchOf (body : List IID) : Branch where
  branch := body.map (fun e => { iid := e }) ++ [{ iid := ⟨3, 3⟩ }, { iid := ⟨0, 3⟩ }]

theorem normaliseBranch_canonical_iff_sumOfTwo :
    (∀ B', sumOfTwo.Rearranged (branchOf [⟨2, 1⟩, ⟨0, 1⟩, ⟨0, 2⟩, ⟨3, 1⟩]) B' →
      (sumOfTwo.normaliseBranch B').order =
          (sumOfTwo.normaliseBranch (branchOf [⟨2, 1⟩, ⟨0, 1⟩, ⟨0, 2⟩, ⟨3, 1⟩])).order ∧
        sumOfTwo.CbOrder (sumOfTwo.normaliseBranch B').order) ↔
    ∀ a b c, ¬ sumOfTwo.Entangled (branchOf [⟨2, 1⟩, ⟨0, 1⟩, ⟨0, 2⟩, ⟨3, 1⟩]).body a b c :=
  normaliseBranch_canonical_iff (by decide) (by decide)

/-- The store of the second thread is not ordered with the store of the third one and
the load of it, and comes out behind them or before them. -/
theorem normaliseBranch_sumOfTwo :
    sumOfTwo.CbOrder (branchOf [⟨2, 1⟩, ⟨0, 1⟩, ⟨0, 2⟩, ⟨1, 1⟩, ⟨3, 1⟩, ⟨3, 2⟩]).order ∧
      sumOfTwo.Rearranged (branchOf [⟨2, 1⟩, ⟨0, 1⟩, ⟨0, 2⟩, ⟨1, 1⟩, ⟨3, 1⟩, ⟨3, 2⟩])
        (branchOf [⟨1, 1⟩, ⟨2, 1⟩, ⟨0, 1⟩, ⟨0, 2⟩, ⟨3, 1⟩, ⟨3, 2⟩]) ∧
      (sumOfTwo.normaliseBranch
          (branchOf [⟨2, 1⟩, ⟨0, 1⟩, ⟨0, 2⟩, ⟨1, 1⟩, ⟨3, 1⟩, ⟨3, 2⟩])).order ≠
        (sumOfTwo.normaliseBranch
          (branchOf [⟨1, 1⟩, ⟨2, 1⟩, ⟨0, 1⟩, ⟨0, 2⟩, ⟨3, 1⟩, ⟨3, 2⟩])).order := by
  refine ⟨by decide, ⟨rfl, by decide, by decide, by decide⟩, by decide +kernel⟩

end TB

end ViEqui.Power
