import ViEqui.Power.Event
import Mathlib.Data.List.Nodup
import Mathlib.Logic.Relation

/-!
# Event structures with a new event

The committed events and the relations that they record are an event structure.
The checks of a candidate look at the structure that has one more event: `evt`,
which is not committed, with relations `rel` that are not entered into the other
events.  `Related` is a relation of that larger structure, and
`relOf` the set of relations that the code reads for an event.
-/

namespace ViEqui.Power

namespace TB

/-- An event of the structure. -/
def Committed (tb : TB) (e : IID) : Prop := e ∈ tb.fetched ∧ (tb.getEvt e).committed = true

instance (tb : TB) (e : IID) : Decidable (tb.Committed e) :=
  inferInstanceAs (Decidable (_ ∧ _))

/-- An event that can be added to the structure. -/
structure New (tb : TB) (evt : IID) : Prop where
  fetched : evt ∈ tb.fetched
  uncommitted : (tb.getEvt evt).committed = false

/-- The relations of `e` where the new event `evt` has the relations `rel`. -/
def relOf (tb : TB) (evt : IID) (rel : Relations) (e : IID) : Relations :=
  if e = evt then rel else (tb.getEvt e).rel

/-- The relation `r` is recorded in both directions. -/
structure Mutual (tb : TB) (r : Relations → Rel) : Prop where
  fwd : ∀ a, tb.Committed a → ∀ b ∈ (r (tb.getEvt a).rel).fwd,
    tb.Committed b ∧ a ∈ (r (tb.getEvt b).rel).bwd
  bwd : ∀ b, tb.Committed b → ∀ a ∈ (r (tb.getEvt b).rel).bwd,
    tb.Committed a ∧ b ∈ (r (tb.getEvt a).rel).fwd

instance (tb : TB) (evt : IID) : Decidable (tb.New evt) :=
  decidable_of_iff (evt ∈ tb.fetched ∧ (tb.getEvt evt).committed = false)
    ⟨fun h => ⟨h.1, h.2⟩, fun h => ⟨h.1, h.2⟩⟩

instance (tb : TB) (r : Relations → Rel) : Decidable (tb.Mutual r) :=
  decidable_of_iff
    (∀ a ∈ tb.fetched, tb.Committed a →
      (∀ b ∈ (r (tb.getEvt a).rel).fwd.vec,
        tb.Committed b ∧ a ∈ (r (tb.getEvt b).rel).bwd) ∧
      ∀ b ∈ (r (tb.getEvt a).rel).bwd.vec, tb.Committed b ∧ a ∈ (r (tb.getEvt b).rel).fwd)
    ⟨fun h => ⟨fun a ha => (h a ha.1 ha).1, fun a ha => (h a ha.1 ha).2⟩,
      fun h a _ ha => ⟨h.fwd a ha, h.bwd a ha⟩⟩

/-- The events related to the new event are in the structure. -/
structure Among (tb : TB) (R : Rel) : Prop where
  fwd : ∀ b ∈ R.fwd, tb.Committed b
  bwd : ∀ a ∈ R.bwd, tb.Committed a

instance (tb : TB) (R : Rel) : Decidable (tb.Among R) :=
  decidable_of_iff ((∀ b ∈ R.fwd.vec, tb.Committed b) ∧ ∀ a ∈ R.bwd.vec, tb.Committed a)
    ⟨fun h => ⟨h.1, h.2⟩, fun h => ⟨h.1, h.2⟩⟩

/-- `a` and `b` are related in the structure with the new event. -/
inductive Related (tb : TB) (evt : IID) (rel : Relations) (r : Relations → Rel) :
    IID → IID → Prop where
  | recorded {a b : IID} (ha : tb.Committed a) (hb : tb.Committed b)
    (h : b ∈ (r (tb.getEvt a).rel).fwd) : Related tb evt rel r a b
  | before {a : IID} (h : a ∈ (r rel).bwd) : Related tb evt rel r a evt
  | behind {b : IID} (h : b ∈ (r rel).fwd) : Related tb evt rel r evt b

instance (tb : TB) (evt : IID) (rel : Relations) (r : Relations → Rel) (a b : IID) :
    Decidable (tb.Related evt rel r a b) :=
  decidable_of_iff (tb.Committed a ∧ tb.Committed b ∧ b ∈ (r (tb.getEvt a).rel).fwd ∨
      b = evt ∧ a ∈ (r rel).bwd ∨ a = evt ∧ b ∈ (r rel).fwd) <| by
    constructor
    · rintro (⟨ha, hb, h⟩ | ⟨rfl, h⟩ | ⟨rfl, h⟩)
      · exact .recorded ha hb h
      · exact .before h
      · exact .behind h
    · rintro (⟨ha, hb, h⟩ | h | h)
      · exact Or.inl ⟨ha, hb, h⟩
      · exact Or.inr (Or.inl ⟨rfl, h⟩)
      · exact Or.inr (Or.inr ⟨rfl, h⟩)

/-- The events of the larger structure. -/
def Present (tb : TB) (evt e : IID) : Prop := e = evt ∨ tb.Committed e

instance (tb : TB) (evt e : IID) : Decidable (tb.Present evt e) :=
  inferInstanceAs (Decidable (_ ∨ _))

def present (tb : TB) (evt : IID) : List IID := tb.fetched.filter fun e => tb.Present evt e

variable {tb : TB} {evt : IID} {rel : Relations} {r : Relations → Rel}

theorem New.ne (h : tb.New evt) {e : IID} (he : tb.Committed e) : e ≠ evt := by
  rintro rfl
  exact Bool.false_ne_true (h.uncommitted.symm.trans he.2)

theorem relOf_self : tb.relOf evt rel evt = rel := if_pos rfl

theorem New.relOf (h : tb.New evt) {e : IID} (he : tb.Committed e) :
    tb.relOf evt rel e = (tb.getEvt e).rel :=
  if_neg (h.ne he)

variable (rel) in
theorem New.present_cases (h : tb.New evt) {e : IID} (he : tb.Present evt e) :
    e = evt ∧ tb.relOf evt rel e = rel ∨
      e ≠ evt ∧ tb.Committed e ∧ tb.relOf evt rel e = (tb.getEvt e).rel := by
  rcases he with rfl | he
  · exact Or.inl ⟨rfl, relOf_self⟩
  · exact Or.inr ⟨h.ne he, he, h.relOf he⟩

theorem Related.present (hr : tb.Among (r rel)) {a b : IID} (hab : tb.Related evt rel r a b) :
    tb.Present evt a ∧ tb.Present evt b := by
  cases hab with
  | recorded ha hb _ => exact ⟨Or.inr ha, Or.inr hb⟩
  | before ha => exact ⟨Or.inr (hr.bwd _ ha), Or.inl rfl⟩
  | behind hb => exact ⟨Or.inl rfl, Or.inr (hr.fwd _ hb)⟩

/-- What the code reads behind an event is related. -/
theorem related_of_fwd (hnew : tb.New evt) (hm : tb.Mutual r) {a b : IID}
    (ha : tb.Present evt a) (h : b ∈ (r (tb.relOf evt rel a)).fwd) :
    tb.Related evt rel r a b := by
  rcases hnew.present_cases rel ha with ⟨rfl, heq⟩ | ⟨-, ha, heq⟩
  · rw [heq] at h
    exact .behind h
  · rw [heq] at h
    exact .recorded ha (hm.fwd a ha b h).1 h

/-- What the code reads behind an event. -/
theorem mem_relOf_fwd (hnew : tb.New evt) (hm : tb.Mutual r) (hr : tb.Among (r rel)) {a b : IID}
    (ha : tb.Present evt a) (h : b ∈ (r (tb.relOf evt rel a)).fwd) :
    tb.Committed b ∧ tb.Related evt rel r a b := by
  refine ⟨?_, related_of_fwd hnew hm ha h⟩
  rcases hnew.present_cases rel ha with ⟨rfl, heq⟩ | ⟨-, ha, heq⟩
  · exact hr.fwd b (heq ▸ h)
  · exact (hm.fwd a ha b (heq ▸ h)).1

/-- What the code reads before an event. -/
theorem mem_relOf_bwd (hnew : tb.New evt) (hm : tb.Mutual r) (hr : tb.Among (r rel)) {a b : IID}
    (hb : tb.Present evt b) (h : a ∈ (r (tb.relOf evt rel b)).bwd) :
    tb.Committed a ∧ tb.Related evt rel r a b := by
  rcases hnew.present_cases rel hb with ⟨rfl, heq⟩ | ⟨-, hb, heq⟩
  · rw [heq] at h
    exact ⟨hr.bwd a h, .before h⟩
  · rw [heq] at h
    obtain ⟨ha, hfwd⟩ := hm.bwd b hb a h
    exact ⟨ha, .recorded ha hb hfwd⟩

/-- An edge is read from its source, unless it ends in the new event. -/
theorem Related.fwd (hnew : tb.New evt) {a b : IID} (h : tb.Related evt rel r a b) :
    b ∈ (r (tb.relOf evt rel a)).fwd ∨ b = evt ∧ a ∈ (r rel).bwd := by
  cases h with
  | recorded ha hb h =>
    rw [hnew.relOf ha]
    exact Or.inl h
  | before h => exact Or.inr ⟨rfl, h⟩
  | behind h =>
    rw [relOf_self]
    exact Or.inl h

/-- An edge is read from its target, unless it starts in the new event. -/
theorem Related.bwd (hnew : tb.New evt) (hm : tb.Mutual r) {a b : IID}
    (h : tb.Related evt rel r a b) :
    a ∈ (r (tb.relOf evt rel b)).bwd ∨ a = evt ∧ b ∈ (r rel).fwd := by
  cases h with
  | recorded ha hb h =>
    rw [hnew.relOf hb]
    exact Or.inl (hm.fwd _ ha _ h).2
  | before h =>
    rw [relOf_self]
    exact Or.inl h
  | behind h => exact Or.inr ⟨rfl, h⟩

theorem New.present (h : tb.New evt) {e : IID} : e ∈ tb.present evt ↔ tb.Present evt e := by
  unfold TB.present
  rw [List.mem_filter, decide_eq_true_iff]
  constructor
  · exact fun h => h.2
  · rintro (rfl | he)
    · exact ⟨h.fetched, Or.inl rfl⟩
    · exact ⟨he.1, Or.inr he⟩

theorem nodup_fetched (tb : TB) : tb.fetched.Nodup := by
  unfold TB.fetched
  rw [List.nodup_flatMap]
  constructor
  · intro p _
    refine List.Nodup.map (fun i j h => ?_) List.nodup_range
    rw [IID.mk.injEq] at h
    omega
  · refine List.nodup_range.imp fun {p q} hpq => ?_
    show List.Disjoint _ _
    intro e hep heq
    obtain ⟨i, -, rfl⟩ := List.mem_map.mp hep
    obtain ⟨j, -, hj⟩ := List.mem_map.mp heq
    rw [IID.mk.injEq] at hj
    exact hpq hj.1.symm

theorem mem_fetched {e : IID} :
    e ∈ tb.fetched ↔
      e.pid < tb.threads.length ∧ 1 ≤ e.idx ∧ e.idx ≤ (tb.thread e.pid).fchCount := by
  unfold TB.fetched
  simp only [List.mem_flatMap, List.mem_map, List.mem_range]
  constructor
  · rintro ⟨p, hp, i, hi, rfl⟩
    exact ⟨hp, by show 1 ≤ i + 1; omega, by show i + 1 ≤ (tb.thread p).fchCount; omega⟩
  · rintro ⟨hp, h1, hi⟩
    refine ⟨e.pid, hp, e.idx - 1, by omega, ?_⟩
    rw [Nat.sub_add_cancel h1]

end TB

end ViEqui.Power
