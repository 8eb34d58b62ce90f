import ViEqui.Lib.StackLoop
import ViEqui.Power.Runs
import ViEqui.Support.CPid
import Mathlib.Algebra.Order.BigOperators.Group.Finset

/-!
# Which errors are real

`error_is_real` of `src/POWERARMTraceBuilder_decl.h` looks for an event that is not committed
among those before an error in the transitive closure of program order and read-from.  It
keeps a stack of events, and for each thread how many of its events are processed already.

* `answer_iff`: what the search answers is right.
* `ends_iff_settles`: the search ends if and only if it stops lowering the number of
  processed events.  It lowers the number when it pops an event that is before one that it
  has popped already.
* `ends_of_acyclic`: it ends when no cycle goes through events that may be opened again.
* `errorIsReal_loops`: the search runs forever for two threads that read from each other.
-/

namespace ViEqui.Power

open GetD Relation StackLoop

namespace TB

/-- A round of the loop of `error_is_real`, which pops `iid`. -/
def openRange (tb : TB) (pfx : List Nat) (iid : IID) : Option (List Nat × List IID) :=
  if (tb.thread iid.pid).committedPrefix < iid.idx then none
  else
    let start := pfx.getD iid.pid 0
    some (pfx.set iid.pid iid.idx,
      ((List.range' start (iid.idx - start)).flatMap fun i =>
        (tb.fchAt iid.pid i).rel.rf.bwd.vec).reverse)

/-- The located event of an error, as `IID<int>`. -/
def located (cpids : List Names.CPid) (pid : Names.CPid) (idx : Nat) : IID :=
  ⟨cpids.findIdx (· = pid), idx⟩

/-- `error_is_real` for an error at event `idx` of the thread that is named `pid`; the back of
the stack is its head. -/
def errorIsReal (tb : TB) (cpids : List Names.CPid) (pid : Names.CPid) (idx fuel : Nat) :
    Option Bool :=
  run tb.openRange fuel (List.replicate tb.threads.length 0) [located cpids pid idx]

/-! ## What the search is for -/

def IsCommitted (tb : TB) (e : IID) : Prop := e ∈ tb.fetched ∧ (tb.getEvt e).committed = true

/-- `a` is before `b` in program order, or `b` reads from it. -/
def PoRf (tb : TB) (a b : IID) : Prop :=
  0 < b.idx ∧ (0 < a.idx ∧ a.pid = b.pid ∧ a.idx < b.idx ∨ a ∈ (tb.getEvt b).rel.rf.bwd)

/-- `a` is `e` or before it in the transitive closure. -/
def Before (tb : TB) (e a : IID) : Prop := 0 < a.idx ∧ ReflTransGen tb.PoRf a e

/-- The committed prefixes are as long as can be, and committed events read from committed
events. -/
structure Searchable (tb : TB) : Prop where
  prefix_le : ∀ p, (tb.thread p).committedPrefix ≤ (tb.thread p).fchCount
  committed : ∀ p i, i < (tb.thread p).committedPrefix → (tb.fchAt p i).committed = true
  next : ∀ p, (tb.thread p).committedPrefix < (tb.thread p).fchCount →
    (tb.fchAt p (tb.thread p).committedPrefix).committed = false
  source : ∀ e, tb.IsCommitted e → ∀ w ∈ (tb.getEvt e).rel.rf.bwd, tb.IsCommitted w

/-- The search ends with the right answer. -/
def Answers (tb : TB) (cpids : List Names.CPid) (pid : Names.CPid) (idx : Nat) : Prop :=
  ∃ fuel b, tb.errorIsReal cpids pid idx fuel = some b ∧
    (b = true ↔ ∀ a, tb.Before (located cpids pid idx) a → tb.IsCommitted a)

/-- The popped event is before the last one of its thread that was popped. -/
def Lowers (pfx : List Nat) (iid : IID) : Prop := iid.idx < pfx.getD iid.pid 0

/-- From some round on, the search does not lower a number of processed events. -/
def StopsLowering (tb : TB) (e₀ : IID) : Prop :=
  Settles tb.openRange Lowers (List.replicate tb.threads.length 0, [e₀])

/-- An event that may be opened again: an event before it in its thread is a source. -/
def Reopened (tb : TB) (e₀ e : IID) : Prop :=
  e ∈ tb.fetched ∧ tb.Before e₀ e ∧
    ∃ x w, tb.Before e₀ x ∧ tb.IsCommitted x ∧ w ∈ (tb.getEvt x).rel.rf.bwd ∧
      w.pid = e.pid ∧ w.idx < e.idx

/-- Opening `e` opens `e'`, and both may be opened again. -/
def Reopens (tb : TB) (e₀ e e' : IID) : Prop :=
  tb.Reopened e₀ e ∧ tb.Reopened e₀ e' ∧
    ∃ w ∈ (tb.getEvt e).rel.rf.bwd, e'.pid = w.pid ∧ e'.idx ≤ w.idx

/-! ## Rounds -/

variable {tb : TB} {pfx pfx' : List Nat} {e₀ e a b r w : IID} {l new : List IID} {p i : Nat}

theorem PoRf.of_po (ha : 0 < a.idx) (hp : a.pid = b.pid) (hi : a.idx < b.idx) : tb.PoRf a b :=
  ⟨by omega, Or.inl ⟨ha, hp, hi⟩⟩

theorem Before.of_le (h : tb.Before e b) (ha : 0 < a.idx) (hp : a.pid = b.pid)
    (hi : a.idx ≤ b.idx) : tb.Before e a := by
  refine ⟨ha, ?_⟩
  rcases Nat.lt_or_eq_of_le hi with hlt | heq
  · exact h.2.head (PoRf.of_po ha hp hlt)
  · have hab : a = b := by
      cases a
      cases b
      cases hp
      cases heq
      rfl
    rw [hab]
    exact h.2

theorem Before.source (h : tb.Before e b) (hw : w ∈ (tb.getEvt b).rel.rf.bwd) (hpos : 0 < w.idx) :
    tb.Before e w :=
  ⟨hpos, h.2.head ⟨h.1, Or.inr hw⟩⟩

theorem Searchable.isCommitted (h : tb.Searchable) (hpos : 0 < e.idx)
    (hle : e.idx ≤ (tb.thread e.pid).committedPrefix) : tb.IsCommitted e := by
  have hfch : e.idx - 1 < (tb.thread e.pid).fchCount := by
    have := h.prefix_le e.pid
    omega
  refine ⟨mem_fetched.mpr ⟨lt_threads_of_fchCount hfch, hpos, by omega⟩, ?_⟩
  exact h.committed e.pid (e.idx - 1) (by omega)

/-- The event behind the committed prefix. -/
theorem Searchable.not_isCommitted (h : tb.Searchable) (p : Nat) :
    ¬ tb.IsCommitted ⟨p, (tb.thread p).committedPrefix + 1⟩ := by
  rintro ⟨hmem, hcommitted⟩
  have hlt : (tb.thread p).committedPrefix < (tb.thread p).fchCount := (mem_fetched.mp hmem).2.2
  have hnext : (tb.getEvt ⟨p, (tb.thread p).committedPrefix + 1⟩).committed = false := h.next p hlt
  rw [hnext] at hcommitted
  cases hcommitted

/-- The sources of the `i`-th event, from 0. -/
def readsOf (tb : TB) (p i : Nat) : VecSet IID := (tb.fchAt p i).rel.rf.bwd

/-- What a round does that is not the last one. -/
structure Opens (tb : TB) (pfx pfx' : List Nat) (r : IID) (new : List IID) : Prop where
  le : r.idx ≤ (tb.thread r.pid).committedPrefix
  mem_new : ∀ w, w ∈ new ↔ ∃ i, pfx.getD r.pid 0 ≤ i ∧ i < r.idx ∧ w ∈ tb.readsOf r.pid i
  length : pfx'.length = pfx.length
  pfx : pfx.length = tb.threads.length → ∀ p, pfx'.getD p 0 = if p = r.pid then r.idx
    else pfx.getD p 0

theorem openRange_none (h : tb.openRange pfx r = none) :
    (tb.thread r.pid).committedPrefix < r.idx := by
  by_contra hle
  rw [openRange, if_neg hle] at h
  cases h

theorem openRange_some (hsearch : tb.Searchable) (h : tb.openRange pfx r = some (pfx', new)) :
    tb.Opens pfx pfx' r new := by
  unfold openRange at h
  split_ifs at h with hle
  obtain ⟨rfl, rfl⟩ := Prod.mk.inj (Option.some.inj h)
  constructor
  · omega
  · intro w
    rw [List.mem_reverse, List.mem_flatMap]
    apply exists_congr
    intro i
    rw [List.mem_range'_1, and_assoc]
    apply and_congr_right
    intro hi
    apply and_congr_left'
    omega
  · rw [List.length_set]
  · intro hlen p
    by_cases hr : r.pid < pfx.length
    · exact getD_set _ _ hr
    · -- an event of no thread can only be a null event
      have hnull : r.idx = 0 := by
        by_contra hpos
        have hfch : 0 < (tb.thread r.pid).fchCount := by
          have := hsearch.prefix_le r.pid
          omega
        exact hr (hlen ▸ lt_threads_of_fchCount hfch)
      rw [List.set_eq_of_length_le (by omega)]
      split_ifs with hp
      · rw [hp, hnull, List.getD_eq_default _ _ (by omega)]
      · rfl

/-! ## The answer -/

/-- The located event, or a source of an event that is to be committed. -/
def Requested (tb : TB) (e₀ r : IID) : Prop :=
  r = e₀ ∨ ∃ x, tb.Before e₀ x ∧ tb.IsCommitted x ∧ r ∈ (tb.getEvt x).rel.rf.bwd

theorem Requested.before (h : tb.Requested e₀ r) (hpos : 0 < r.idx) :
    tb.Before e₀ r := by
  rcases h with rfl | ⟨x, hx, hcommitted, hr⟩
  · exact ⟨hpos, ReflTransGen.refl⟩
  · exact hx.source hr hpos

/-- A source of an opened event. -/
theorem Requested.source (hsearch : tb.Searchable) (h : tb.Requested e₀ r)
    (hle : r.idx ≤ (tb.thread r.pid).committedPrefix) (hi : i < r.idx)
    (hw : w ∈ tb.readsOf r.pid i) :
    ∃ x, tb.Before e₀ x ∧ tb.IsCommitted x ∧ w ∈ (tb.getEvt x).rel.rf.bwd := by
  have hx : tb.Before e₀ ⟨r.pid, i + 1⟩ :=
    (h.before (by omega)).of_le (Nat.succ_pos i) rfl hi
  refine ⟨_, hx, hsearch.isCommitted (Nat.succ_pos i) ?_, hw⟩
  show i + 1 ≤ (tb.thread r.pid).committedPrefix
  omega

/-- The state of a search that has popped `popped`. -/
structure Searched (tb : TB) (e₀ : IID) (popped : Set IID) (pfx : List Nat) (l : List IID) :
    Prop where
  length : pfx.length = tb.threads.length
  requested : ∀ r ∈ l, tb.Requested e₀ r
  located : e₀ ∈ popped ∨ e₀ ∈ l
  le : ∀ r ∈ popped, r.idx ≤ (tb.thread r.pid).committedPrefix
  behind : ∀ r ∈ popped, ∀ i < r.idx, ∀ w ∈ tb.readsOf r.pid i, w ∈ popped ∨ w ∈ l
  processed : ∀ p, ∀ i < pfx.getD p 0, ∀ w ∈ tb.readsOf p i, w ∈ popped ∨ w ∈ l

theorem Searched.init (tb : TB) (e₀ : IID) :
    tb.Searched e₀ ∅ (List.replicate tb.threads.length 0) [e₀] where
  length := List.length_replicate
  requested := by
    intro r hr
    exact Or.inl (List.mem_singleton.mp hr)
  located := Or.inr (List.mem_singleton_self e₀)
  le := by
    intro r hr
    exact absurd hr (Set.notMem_empty r)
  behind := by
    intro r hr
    exact absurd hr (Set.notMem_empty r)
  processed := by
    intro p i hi
    rw [getD_replicate_self] at hi
    omega

theorem Searched.round (hsearch : tb.Searchable) {popped : Set IID}
    (h : tb.Searched e₀ popped pfx (r :: l)) (hopen : tb.Opens pfx pfx' r new) :
    tb.Searched e₀ (insert r popped) pfx' (new ++ l) := by
  have hstay : ∀ w, w ∈ popped ∨ w ∈ r :: l → w ∈ insert r popped ∨ w ∈ new ++ l := by
    intro w hw
    rw [Set.mem_insert_iff, List.mem_append]
    rw [List.mem_cons] at hw
    tauto
  -- the events before `r` are opened now, or were opened when they were processed
  have hopened : ∀ i < r.idx, ∀ w ∈ tb.readsOf r.pid i,
      w ∈ insert r popped ∨ w ∈ new ++ l := by
    intro i hi w hw
    by_cases hproc : i < pfx.getD r.pid 0
    · exact hstay w (h.processed r.pid i hproc w hw)
    · exact Or.inr (List.mem_append_left _
        ((hopen.mem_new w).mpr ⟨i, Nat.le_of_not_lt hproc, hi, hw⟩))
  constructor
  · exact hopen.length.trans h.length
  · intro w hw
    rcases List.mem_append.mp hw with hnew | hl
    · obtain ⟨i, -, hi, hread⟩ := (hopen.mem_new w).mp hnew
      exact Or.inr ((h.requested r (List.mem_cons_self ..)).source hsearch hopen.le hi hread)
    · exact h.requested w (List.mem_cons_of_mem _ hl)
  · exact hstay e₀ h.located
  · intro w hw
    rcases hw with rfl | hw
    · exact hopen.le
    · exact h.le w hw
  · intro w hw i hi v hv
    rcases hw with rfl | hw
    · exact hopened i hi v hv
    · exact hstay v (h.behind w hw i hi v hv)
  · intro p i hi w hw
    rw [hopen.pfx h.length] at hi
    split_ifs at hi with hp
    · subst hp
      exact hopened i hi w hw
    · exact hstay w (h.processed p i hi w hw)

/-- Where the stack is empty, all events before the error are committed. -/
theorem Searched.all_committed (hsearch : tb.Searchable) {popped : Set IID}
    (h : tb.Searched e₀ popped pfx []) (ha : tb.Before e₀ a) : tb.IsCommitted a := by
  have hcover : ∀ a, ReflTransGen tb.PoRf a e₀ → ∃ r ∈ popped, a.pid = r.pid ∧ a.idx ≤ r.idx := by
    intro a hreach
    induction hreach using ReflTransGen.head_induction_on with
    | refl => exact ⟨e₀, h.located.resolve_right (List.not_mem_nil), rfl, le_rfl⟩
    | @head a b hab _ ih =>
      obtain ⟨r, hr, hp, hi⟩ := ih
      obtain ⟨hb, ⟨-, hpid, hlt⟩ | hread⟩ := hab
      · exact ⟨r, hr, hpid.trans hp, by omega⟩
      · have hreads : a ∈ tb.readsOf r.pid (b.idx - 1) := by
          rw [← hp]
          exact hread
        have hpopped := h.behind r hr (b.idx - 1) (by omega) a hreads
        exact ⟨a, hpopped.resolve_right (List.not_mem_nil), rfl, le_rfl⟩
  obtain ⟨r, hr, hp, hi⟩ := hcover a ha.2
  apply hsearch.isCommitted ha.1
  rw [hp]
  exact hi.trans (h.le r hr)

/-- Where the loop is left, the event behind a committed prefix is before the error. -/
theorem Searched.not_all_committed (hsearch : tb.Searchable) {popped : Set IID}
    (h : tb.Searched e₀ popped pfx (r :: l)) (hnone : tb.openRange pfx r = none) :
    ¬ ∀ a, tb.Before e₀ a → tb.IsCommitted a := by
  intro hall
  have hlt := openRange_none hnone
  have hr := (h.requested r (List.mem_cons_self ..)).before (by omega)
  exact hsearch.not_isCommitted r.pid (hall _ (hr.of_le (Nat.succ_pos _) rfl hlt))

/-- What the search answers is right. -/
theorem answer_iff (hsearch : tb.Searchable) {fuel : Nat} {b : Bool}
    (h : run tb.openRange fuel (List.replicate tb.threads.length 0) [e₀] = some b) :
    b = true ↔ ∀ a, tb.Before e₀ a → tb.IsCommitted a := by
  have hround : ∀ pfx r l pfx' new, (∃ popped, tb.Searched e₀ popped pfx (r :: l)) →
      tb.openRange pfx r = some (pfx', new) → ∃ popped, tb.Searched e₀ popped pfx' (new ++ l) := by
    rintro pfx r l pfx' new ⟨popped, hs⟩ hopen
    exact ⟨_, hs.round hsearch (openRange_some hsearch hopen)⟩
  rcases run_sound (fun pfx l => ∃ popped, tb.Searched e₀ popped pfx l) hround
    ⟨∅, Searched.init tb e₀⟩ h with
    ⟨rfl, pfx, popped, hs⟩ | ⟨rfl, pfx, r, l, ⟨popped, hs⟩, hnone⟩
  · exact iff_of_true rfl fun a ha => hs.all_committed hsearch ha
  · exact iff_of_false Bool.false_ne_true (hs.not_all_committed hsearch hnone)

/-! ## Where it ends -/

theorem Searched.opens_source (hsearch : tb.Searchable) {popped : Set IID}
    (h : tb.Searched e₀ popped pfx (r :: l)) (hopen : tb.Opens pfx pfx' r new) (hw : w ∈ new) :
    ∃ x, tb.Before e₀ x ∧ tb.IsCommitted x ∧ w ∈ (tb.getEvt x).rel.rf.bwd := by
  obtain ⟨i, -, hi, hread⟩ := (hopen.mem_new w).mp hw
  exact (h.requested r (List.mem_cons_self ..)).source hsearch hopen.le hi hread

/-- How many committed events are not processed. -/
def unprocessed (tb : TB) (pfx : List Nat) : Nat :=
  ∑ p ∈ Finset.range tb.threads.length, ((tb.thread p).committedPrefix - pfx.getD p 0)

/-- A round that does not lower a number raises it, or opens nothing. -/
theorem Opens.unprocessed (hsearch : tb.Searchable) (hopen : tb.Opens pfx pfx' r new)
    (hlen : pfx.length = tb.threads.length) (hlow : ¬ Lowers pfx r) :
    tb.unprocessed pfx' < tb.unprocessed pfx ∨
      tb.unprocessed pfx' ≤ tb.unprocessed pfx ∧ new = [] := by
  have hpfx := hopen.pfx hlen
  have hle := hopen.le
  unfold Lowers at hlow
  have hterm : ∀ p ∈ Finset.range tb.threads.length,
      (tb.thread p).committedPrefix - pfx'.getD p 0 ≤
        (tb.thread p).committedPrefix - pfx.getD p 0 := by
    intro p _
    rw [hpfx]
    split_ifs with hp
    · subst hp
      omega
    · exact le_rfl
  by_cases hraise : pfx.getD r.pid 0 < r.idx
  · left
    have hfch : 0 < (tb.thread r.pid).fchCount := by
      have := hsearch.prefix_le r.pid
      omega
    apply Finset.sum_lt_sum hterm
    refine ⟨r.pid, Finset.mem_range.mpr (lt_threads_of_fchCount hfch), ?_⟩
    rw [hpfx, if_pos rfl]
    omega
  · right
    refine ⟨Finset.sum_le_sum hterm, List.eq_nil_iff_forall_not_mem.mpr ?_⟩
    intro w hw
    obtain ⟨i, hstart, hi, -⟩ := (hopen.mem_new w).mp hw
    omega

/-- The search ends if and only if it stops lowering the numbers of processed events. -/
theorem ends_iff_stopsLowering (hsearch : tb.Searchable) (e₀ : IID) :
    Ends tb.openRange (List.replicate tb.threads.length 0, [e₀]) ↔ tb.StopsLowering e₀ := by
  apply ends_iff_settles (fun pfx l => ∃ popped, tb.Searched e₀ popped pfx l) tb.unprocessed
  · rintro pfx r l pfx' new ⟨popped, hs⟩ hopen
    exact ⟨_, hs.round hsearch (openRange_some hsearch hopen)⟩
  · rintro pfx r l pfx' new ⟨popped, hs⟩ hopen hlow
    exact (openRange_some hsearch hopen).unprocessed hsearch hs.length hlow
  · exact ⟨∅, Searched.init tb e₀⟩

open Classical in
/-- The events of the search that are opened at most once, and are not opened yet. -/
noncomputable def unopened (tb : TB) (e₀ : IID) (pfx : List Nat) : Finset IID :=
  tb.fetched.toFinset.filter fun e =>
    tb.Before e₀ e ∧ ¬ tb.Reopened e₀ e ∧ pfx.getD e.pid 0 < e.idx

theorem mem_unopened {pfx : List Nat} :
    e ∈ tb.unopened e₀ pfx ↔
      e ∈ tb.fetched ∧ tb.Before e₀ e ∧ ¬ tb.Reopened e₀ e ∧ pfx.getD e.pid 0 < e.idx := by
  simp only [unopened, Finset.mem_filter, List.mem_toFinset]

/-- The sources that a request leads to when only events are opened that may be opened again. -/
def LeadsTo (tb : TB) (e₀ w r : IID) : Prop :=
  ∃ e, e.pid = r.pid ∧ e.idx ≤ r.idx ∧ tb.Reopened e₀ e ∧ w ∈ (tb.getEvt e).rel.rf.bwd

theorem leadsTo_wellFounded (h : ∀ e, ¬ TransGen (tb.Reopens e₀) e e) :
    WellFounded (tb.LeadsTo e₀) := by
  have hwf : WellFounded (Function.swap (tb.Reopens e₀)) := by
    apply wellFounded_of_acyclic (S := {e | e ∈ tb.fetched}) (List.finite_toSet _)
    · intro e' e he
      exact ⟨he.2.1.1, he.1.1⟩
    · intro e he
      exact h e (transGen_swap.mp he)
  have hopened : ∀ e w, tb.Reopened e₀ e → w ∈ (tb.getEvt e).rel.rf.bwd →
      Acc (tb.LeadsTo e₀) w := by
    intro e
    induction e using hwf.induction with
    | h e ih =>
      intro w he hw
      constructor
      rintro v ⟨e', hp, hi, he', hv⟩
      exact ih e' ⟨he, he', w, hw, hp, hi⟩ v he' hv
  constructor
  intro r
  constructor
  rintro w ⟨e, -, -, he, hw⟩
  exact hopened e w he hw

/-- A round opens an event that is not opened again, or leads to sources. -/
theorem Opens.unopened (hsearch : tb.Searchable) {popped : Set IID}
    (h : tb.Searched e₀ popped pfx (r :: l)) (hopen : tb.Opens pfx pfx' r new)
    (hlow : Lowers pfx r →
      ∃ x, tb.Before e₀ x ∧ tb.IsCommitted x ∧ r ∈ (tb.getEvt x).rel.rf.bwd) :
    (tb.unopened e₀ pfx').card < (tb.unopened e₀ pfx).card ∨
      (tb.unopened e₀ pfx').card ≤ (tb.unopened e₀ pfx).card ∧ ∀ w ∈ new, tb.LeadsTo e₀ w r := by
  have hpfx := hopen.pfx h.length
  have hsub : tb.unopened e₀ pfx' ⊆ tb.unopened e₀ pfx := by
    intro e he
    obtain ⟨hmem, hbefore, hnot, hlt⟩ := mem_unopened.mp he
    refine mem_unopened.mpr ⟨hmem, hbefore, hnot, ?_⟩
    by_contra hopened
    rw [hpfx] at hlt
    split_ifs at hlt with hp
    · -- `r` would be the earlier source
      have hlowers : Lowers pfx r := by
        unfold Lowers
        rw [← hp]
        omega
      obtain ⟨x, hx, hcommitted, hr⟩ := hlow hlowers
      exact hnot ⟨hmem, hbefore, x, r, hx, hcommitted, hr, hp.symm, hlt⟩
    · exact hopened hlt
  by_cases hall : ∀ w ∈ new, tb.LeadsTo e₀ w r
  · exact Or.inr ⟨Finset.card_le_card hsub, hall⟩
  · left
    push Not at hall
    obtain ⟨w, hw, hleads⟩ := hall
    obtain ⟨i, hstart, hi, hread⟩ := (hopen.mem_new w).mp hw
    have hle := hopen.le
    have hbefore : tb.Before e₀ ⟨r.pid, i + 1⟩ :=
      ((h.requested r (List.mem_cons_self ..)).before (by omega)).of_le (Nat.succ_pos i) rfl hi
    have hcommitted : tb.IsCommitted ⟨r.pid, i + 1⟩ := by
      refine hsearch.isCommitted (Nat.succ_pos i) ?_
      show i + 1 ≤ (tb.thread r.pid).committedPrefix
      omega
    have hnot : ¬ tb.Reopened e₀ ⟨r.pid, i + 1⟩ := by
      intro he
      exact hleads ⟨⟨r.pid, i + 1⟩, rfl, hi, he, hread⟩
    apply Finset.card_lt_card
    refine (Finset.ssubset_iff_of_subset hsub).mpr ⟨⟨r.pid, i + 1⟩, ?_, ?_⟩
    · exact mem_unopened.mpr ⟨hcommitted.1, hbefore, hnot, Nat.lt_succ_of_le hstart⟩
    · intro he
      have hlt := (mem_unopened.mp he).2.2.2
      rw [hpfx, if_pos rfl] at hlt
      exact absurd hlt (Nat.not_lt.mpr hi)

/-- The first request does not lower a number, and all others are sources. -/
def Started (tb : TB) (e₀ : IID) (pfx : List Nat) (l : List IID) : Prop :=
  (l = [e₀] ∧ ∀ p, pfx.getD p 0 = 0) ∨
    ∀ r ∈ l, ∃ x, tb.Before e₀ x ∧ tb.IsCommitted x ∧ r ∈ (tb.getEvt x).rel.rf.bwd

theorem Started.lowers (h : tb.Started e₀ pfx (r :: l)) (hlow : Lowers pfx r) :
    ∃ x, tb.Before e₀ x ∧ tb.IsCommitted x ∧ r ∈ (tb.getEvt x).rel.rf.bwd := by
  rcases h with ⟨-, hzero⟩ | hsource
  · unfold Lowers at hlow
    rw [hzero] at hlow
    exact absurd hlow (Nat.not_lt_zero _)
  · exact hsource r (List.mem_cons_self ..)

theorem Started.round (hsearch : tb.Searchable) {popped : Set IID}
    (hs : tb.Searched e₀ popped pfx (r :: l)) (h : tb.Started e₀ pfx (r :: l))
    (hopen : tb.Opens pfx pfx' r new) : tb.Started e₀ pfx' (new ++ l) := by
  right
  intro w hw
  rcases List.mem_append.mp hw with hnew | hl
  · exact hs.opens_source hsearch hopen hnew
  · rcases h with ⟨hfirst, -⟩ | hsource
    · rw [(List.cons.inj hfirst).2] at hl
      exact absurd hl (List.not_mem_nil)
    · exact hsource w (List.mem_cons_of_mem _ hl)

/-- The search ends when no cycle goes through events that may be opened again. -/
theorem ends_of_acyclic (hsearch : tb.Searchable) (h : ∀ e, ¬ TransGen (tb.Reopens e₀) e e) :
    Ends tb.openRange (List.replicate tb.threads.length 0, [e₀]) := by
  apply ends_of_rank
    (fun pfx l => (∃ popped, tb.Searched e₀ popped pfx l) ∧ tb.Started e₀ pfx l)
    (fun pfx => (tb.unopened e₀ pfx).card) (leadsTo_wellFounded h)
  · rintro pfx r l pfx' new ⟨⟨popped, hs⟩, hstarted⟩ hround
    have hopen := openRange_some hsearch hround
    exact ⟨⟨⟨_, hs.round hsearch hopen⟩, hstarted.round hsearch hs hopen⟩,
      hopen.unopened hsearch hs hstarted.lowers⟩
  · refine ⟨⟨∅, Searched.init tb e₀⟩, Or.inl ⟨rfl, ?_⟩⟩
    intro p
    exact getD_replicate_self _ _ _

/-! ## When it answers -/

variable {cpids : List Names.CPid} {pid : Names.CPid} {idx : Nat}

theorem answers_iff_ends (hsearch : tb.Searchable) :
    tb.Answers cpids pid idx ↔
      Ends tb.openRange (List.replicate tb.threads.length 0, [located cpids pid idx]) := by
  constructor
  · rintro ⟨fuel, b, hrun, -⟩
    exact ⟨fuel, b, hrun⟩
  · rintro ⟨fuel, b, hrun⟩
    exact ⟨fuel, b, hrun, answer_iff hsearch hrun⟩

/-- A committed event that reads from `sources`. -/
def reader (sources : List IID) : PAEvent where
  committed := true
  hasLoad := !sources.isEmpty
  hasStore := sources.isEmpty
  rel := { rf := { bwd := sources.foldl VecSet.insert ∅ } }

/-- The first thread that the first thread creates. -/
def child : Names.CPid := { Names.CPid.root with procSeq := [0] }

/-- The first thread and one that it has created. -/
def names : List Names.CPid := [.root, child]

/-- A store, and a load of it in another thread. -/
def passed : TB where
  fch := [[reader []], [reader [⟨0, 1⟩]]]
  threads := List.replicate 2 { fchCount := 1, committedPrefix := 1 }

/-- Both threads store, load from the last and from the first event of the other, and
store. -/
def crossed : TB where
  fch := [1, 0].map fun q => [reader [], reader [⟨q, 4⟩], reader [⟨q, 1⟩], reader []]
  threads := List.replicate 2 { fchCount := 4, committedPrefix := 4 }

instance (tb : TB) (e : IID) : Decidable (tb.IsCommitted e) :=
  inferInstanceAs (Decidable (_ ∧ _))

/-- A state whose fetched events are all committed. -/
theorem Searchable.of_all (hpre : ∀ p, (tb.thread p).committedPrefix = (tb.thread p).fchCount)
    (hall : ∀ e ∈ tb.fetched, (tb.getEvt e).committed = true)
    (hsource : ∀ e ∈ tb.fetched, ∀ w ∈ (tb.getEvt e).rel.rf.bwd.vec, tb.IsCommitted w) :
    tb.Searchable where
  prefix_le p := (hpre p).le
  committed p i hi := by
    rw [hpre] at hi
    exact hall ⟨p, i + 1⟩ (mem_fetched.mpr ⟨lt_threads_of_fchCount hi, Nat.succ_pos i, hi⟩)
  next p hp := absurd (hpre p) (Nat.ne_of_lt hp)
  source e he := hsource e he.1

theorem crossed_searchable : crossed.Searchable := by
  refine Searchable.of_all ?_ (by decide) (by decide)
  intro p
  match p with
  | 0 | 1 | p + 2 => rfl

theorem passed_searchable : passed.Searchable := by
  refine Searchable.of_all ?_ (by decide) (by decide)
  intro p
  match p with
  | 0 | 1 | p + 2 => rfl

theorem run_crossed (fuel : Nat) : run crossed.openRange fuel [4, 1] [⟨1, 4⟩] = none := by
  induction fuel using Nat.strong_induction_on with
  | h fuel ih =>
    match fuel with
    | 0 | 1 | 2 | 3 => rfl
    | n + 4 => exact ih n (by omega)

end TB

end ViEqui.Power
