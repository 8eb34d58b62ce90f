import ViEqui.Power.CommittedPrefix

/-!
# The fences before and behind an event

Each fetched event records where the last fence of a kind before it is, and where the first
one behind it is; -1 stands for no fence.  `FenceInv` relates both to the fences that the run
has fetched.  It holds in every run.
-/

namespace ViEqui.Power

open GetD

/-- The events before the last fence of a kind that was fetched. -/
def Thread.lastFence (T : Thread) : FenceType → Int
  | .isync => -1
  | .eieio => T.lastFetchedEieioIdx
  | .lwsync => T.lastFetchedLwsyncIdx
  | .sync => T.lastFetchedSyncIdx

namespace PAEvent

/-- The events before the last fence of a kind that is before the event. -/
def fenceBefore (evt : PAEvent) : FenceType → Int
  | .isync => -1
  | .eieio => evt.eieioIdxBefore
  | .lwsync => evt.lwsyncIdxBefore
  | .sync => evt.syncIdxBefore

/-- The events before the first fence of a kind that is behind the event. -/
def fenceAfter (evt : PAEvent) : FenceType → Int
  | .isync => -1
  | .eieio => evt.eieioIdxAfter
  | .lwsync => evt.lwsyncIdxAfter
  | .sync => evt.syncIdxAfter

/-- Sets the first fence behind the event. -/
def setFenceAfter (evt : PAEvent) (n : Int) : FenceType → PAEvent
  | .isync => evt
  | .eieio => { evt with eieioIdxAfter := n }
  | .lwsync => { evt with lwsyncIdxAfter := n }
  | .sync => { evt with syncIdxAfter := n }

end PAEvent

/-! ## Positions before and behind an entry -/

/-- A sequence of `count` entries with marks at the positions `pos`, where a mark at `n` is
behind the first `n` entries.  `last` is the last mark, and `before` and `after` are the marks
that are closest to an entry, with -1 for no mark. -/
structure Indices (pos : Nat → Prop) (count : Nat) (last : Int) (before after : Nat → Int) :
    Prop where
  le : ∀ n, pos n → n ≤ count
  last : ∀ i : Nat, i < last ↔ ∃ n, pos n ∧ i < n
  before : ∀ k < count, ∀ i : Nat, i < before k ↔ ∃ n, pos n ∧ i < n ∧ n ≤ k
  none : ∀ k < count, after k = -1 ↔ ¬∃ n, pos n ∧ k < n
  after : ∀ k < count, after k ≠ -1 → ∀ i : Nat, after k ≤ i ↔ ∃ n, pos n ∧ k < n ∧ n ≤ i

namespace Indices

variable {pos pos' : Nat → Prop} {count : Nat} {last last' : Int}
  {before before' after after' : Nat → Int}

theorem congr (h : Indices pos count last before after) (hpos : ∀ n, pos' n ↔ pos n)
    (hlast : last' = last) (hbefore : ∀ k < count, before' k = before k)
    (hafter : ∀ k < count, after' k = after k) : Indices pos' count last' before' after' := by
  obtain rfl : pos' = pos := funext fun n => propext (hpos n)
  subst hlast
  refine ⟨h.le, h.last, fun k hk => ?_, fun k hk => ?_, fun k hk => ?_⟩
  · rw [hbefore k hk]
    exact h.before k hk
  · rw [hafter k hk]
    exact h.none k hk
  · rw [hafter k hk]
    exact h.after k hk

/-- A new entry is behind all marks. -/
theorem enter (h : Indices pos count last before after) (hold : ∀ k < count, before' k = before k)
    (hnew : before' count = last) (hold' : ∀ k < count, after' k = after k)
    (hnew' : after' count = -1) : Indices pos (count + 1) last before' after' := by
  have hcases : ∀ k < count + 1, k < count ∨ k = count := by
    intro k hk
    omega
  refine ⟨fun n hn => Nat.le_succ_of_le (h.le n hn), h.last, fun k hk => ?_, fun k hk => ?_,
    fun k hk => ?_⟩
  · rcases hcases k hk with hk | rfl
    · rw [hold k hk]
      exact h.before k hk
    · intro i
      rw [hnew, h.last]
      refine exists_congr fun n => and_congr_right fun hn => ?_
      have hle := h.le n hn
      omega
  · rcases hcases k hk with hk | rfl
    · rw [hold' k hk]
      exact h.none k hk
    · refine iff_of_true hnew' fun hmark => ?_
      obtain ⟨n, hn, hlt⟩ := hmark
      have hle := h.le n hn
      omega
  · rcases hcases k hk with hk | rfl
    · rw [hold' k hk]
      exact h.after k hk
    · exact fun hne => absurd hnew' hne

/-- A new mark is behind all entries, and it is the closest one for those that have no mark
behind them. -/
theorem mark (h : Indices pos count last before after) :
    Indices (fun n => n = count ∨ pos n) count count before
      fun k => if last ≤ k then (count : Int) else after k := by
  have hbehind : ∀ k : Nat, last ≤ k ↔ ¬∃ n, pos n ∧ k < n := by
    intro k
    rw [← h.last, not_lt]
  refine ⟨fun n hn => ?_, fun i => ?_, fun k hk i => ?_, fun k hk => ?_, fun k hk hne i => ?_⟩
  · rcases hn with rfl | hn
    · exact Nat.le_refl _
    · exact h.le n hn
  · constructor
    · intro hi
      exact ⟨count, Or.inl rfl, by omega⟩
    · rintro ⟨n, rfl | hn, hlt⟩
      · omega
      · have hle := h.le n hn
        omega
  · rw [h.before k hk]
    refine exists_congr fun n => ?_
    constructor
    · exact fun hn => ⟨Or.inr hn.1, hn.2⟩
    · rintro ⟨rfl | hn, hlt, hle⟩
      · omega
      · exact ⟨hn, hlt, hle⟩
  · refine iff_of_false ?_ fun hnone => hnone ⟨count, Or.inl rfl, hk⟩
    split_ifs with hlast
    · intro hnone
      omega
    · intro hnone
      exact hlast ((hbehind k).mpr ((h.none k hk).mp hnone))
  · split_ifs at hne ⊢ with hlast
    · constructor
      · intro hle
        exact ⟨count, Or.inl rfl, hk, by omega⟩
      · rintro ⟨n, rfl | hn, hlt, hle⟩
        · omega
        · exact absurd ⟨n, hn, hlt⟩ ((hbehind k).mp hlast)
    · rw [h.after k hk hne]
      constructor
      · rintro ⟨n, hn, hlt, hle⟩
        exact ⟨n, Or.inr hn, hlt, hle⟩
      · rintro ⟨n, rfl | hn, hlt, hle⟩
        · rw [hbehind, not_not] at hlast
          obtain ⟨m, hm, hlt'⟩ := hlast
          exact ⟨m, hm, hlt', (h.le m hm).trans hle⟩
        · exact ⟨n, hn, hlt, hle⟩

end Indices

/-! ## The fences of a run -/

/-- A fence of the kind in the thread, behind the first `pos` events. -/
def HasFence (fences : List Fence) (p : Nat) (t : FenceType) (pos : Nat) : Prop :=
  ∃ f ∈ fences, f.proc = p ∧ f.type = t ∧ f.pos = pos

namespace TB

variable {cfg : Config} {tb tb' : TB} {fences : List Power.Fence} {proc : Nat}

/-- The indices of a thread and of its events are those of the fences. -/
def FenceInv (fences : List Power.Fence) (tb : TB) : Prop :=
  ∀ p t, t ≠ .isync → Indices (HasFence fences p t) (tb.thread p).fchCount
    ((tb.thread p).lastFence t) (fun k => (tb.fchAt p k).fenceBefore t)
    fun k => (tb.fchAt p k).fenceAfter t

/-- The fences of an event. -/
def fenceIndices (evt : PAEvent) : (FenceType → Int) × (FenceType → Int) :=
  (evt.fenceBefore, evt.fenceAfter)

theorem fenceIndices_settled (evt : PAEvent) : fenceIndices (settled evt) = fenceIndices evt := rfl

theorem fenceIndices_core (evt : PAEvent) : fenceIndices evt.core = fenceIndices evt := rfl

theorem FenceInv.of_same (h : FenceInv fences tb)
    (hcount : ∀ p, (tb'.thread p).fchCount = (tb.thread p).fchCount)
    (hlast : ∀ p, (tb'.thread p).lastFence = (tb.thread p).lastFence)
    (he : ∀ p k, fenceIndices (tb'.fchAt p k) = fenceIndices (tb.fchAt p k)) :
    FenceInv fences tb' := by
  intro p t htype
  rw [hcount]
  refine (h p t htype).congr (fun n => Iff.rfl) (congrFun (hlast p) t) (fun k _ => ?_) fun k _ => ?_
  · exact congrFun (congrArg Prod.fst (he p k)) t
  · exact congrFun (congrArg Prod.snd (he p k)) t

theorem FenceInv.quiet (h : FenceInv fences tb) (hq : Quiet tb tb') : FenceInv fences tb' := by
  refine h.of_same hq.fchCount (fun p => ?_) fun p k => ?_
  · have hthread := congrArg Thread.lastFence (hq.thread p)
    exact hthread
  · rw [← fenceIndices_settled, hq.evt, fenceIndices_settled]

theorem FenceInv.kept (h : FenceInv fences tb) (hk : Kept PAEvent.core tb tb') :
    FenceInv fences tb' := by
  refine h.of_same (fun p => by rw [hk.thread]) (fun p => by rw [hk.thread]) fun p k => ?_
  rw [← fenceIndices_core, hk.evt, fenceIndices_core]

theorem FenceInv.marks {e : IID} (h : FenceInv fences tb) (hm : Marks tb e tb') :
    FenceInv fences tb' := by
  refine h.of_same (fun p => ?_) (fun p => ?_) fun p k => ?_
  · obtain ⟨n, hn⟩ := hm.thread p
    rw [hn]
  · obtain ⟨n, hn⟩ := hm.thread p
    rw [hn]
    rfl
  · rw [← fenceIndices_core, hm.evt]
    split_ifs <;> rfl

/-- A new event is behind all fences of its thread. -/
theorem FenceInv.enters {l s : Nat} {addrDeps dataDeps : VecSet Nat} {evt : PAEvent}
    (h : FenceInv fences tb) (hf : Fresh tb proc l s addrDeps dataDeps evt)
    (he : Enters tb proc evt tb') : FenceInv fences tb' := by
  obtain ⟨c, -, hself⟩ := he.self
  have hcount : ∀ p, (tb'.thread p).fchCount = if p = proc then (tb.thread p).fchCount + 1
      else (tb.thread p).fchCount := by
    intro p
    split_ifs with hp
    · rw [hp, hself]
    · rw [he.other p hp]
  have hlast : ∀ p, (tb'.thread p).lastFence = (tb.thread p).lastFence := by
    intro p
    by_cases hp : p = proc
    · rw [hp, hself]
      funext t
      cases t <;> rfl
    · rw [he.other p hp]
  have hbefore : evt.fenceBefore = (tb.thread proc).lastFence := by
    funext t
    cases t with
    | isync => rfl
    | eieio => exact hf.eieioIdxBefore
    | lwsync => exact hf.lwsyncIdxBefore
    | sync => exact hf.syncIdxBefore
  have hafter : ∀ t, evt.fenceAfter t = -1 := by
    intro t
    cases t with
    | isync => rfl
    | eieio => exact hf.eieioIdxAfter
    | lwsync => exact hf.lwsyncIdxAfter
    | sync => exact hf.syncIdxAfter
  intro p t ht
  rw [hlast]
  by_cases hp : p = proc
  · subst hp
    have hold : ∀ k < (tb.thread p).fchCount, tb'.fchAt p k = tb.fchAt p k := by
      intro k hk
      rw [he.evt, if_neg fun h => Nat.ne_of_lt hk h.2]
    have hnew : tb'.fchAt p (tb.thread p).fchCount = evt := by rw [he.evt, if_pos ⟨rfl, rfl⟩]
    rw [hcount, if_pos rfl]
    refine (h p t ht).enter (fun k hk => ?_) ?_ (fun k hk => ?_) ?_
    · rw [hold k hk]
    · rw [hnew, hbefore]
    · rw [hold k hk]
    · rw [hnew, hafter]
  · rw [hcount, if_neg hp]
    refine (h p t ht).congr (fun n => Iff.rfl) rfl (fun k _ => ?_) fun k _ => ?_
    · rw [he.evt, if_neg fun h => hp h.1]
    · rw [he.evt, if_neg fun h => hp h.1]

/-! ## Fetching a fence -/

/-- Sets the last fence of a kind. -/
def setLastFence (T : Thread) (n : Int) : FenceType → Thread
  | .isync => T
  | .eieio => { T with lastFetchedEieioIdx := n }
  | .lwsync => { T with lastFetchedLwsyncIdx := n }
  | .sync => { T with lastFetchedSyncIdx := n }

theorem lastFence_setLastFence (T : Thread) (n : Int) {t : FenceType} (ht : t ≠ .isync)
    (u : FenceType) :
    (setLastFence T n t).lastFence u = if u = t then n else T.lastFence u := by
  cases t <;> cases u <;> first | rfl | exact absurd rfl ht

theorem fenceAfter_setFenceAfter (evt : PAEvent) (n : Int) {t : FenceType} (ht : t ≠ .isync)
    (u : FenceType) :
    (evt.setFenceAfter n t).fenceAfter u = if u = t then n else evt.fenceAfter u := by
  cases t <;> cases u <;> first | rfl | exact absurd rfl ht

theorem fenceBefore_setFenceAfter (evt : PAEvent) (n : Int) (t : FenceType) :
    (evt.setFenceAfter n t).fenceBefore = evt.fenceBefore := by
  funext u
  cases t <;> cases u <;> rfl

/-- The three kinds of fences are fetched alike. -/
theorem fetchFence_eq (proc : Nat) {t : FenceType} (ht : t ≠ .isync) :
    tb.fetchFence proc t =
      (tb.modifySince proc ((tb.thread proc).lastFence t) fun evt =>
        evt.setFenceAfter (tb.thread proc).fchCount t).modifyThread proc fun T =>
          setLastFence T (tb.thread proc).fchCount t := by
  cases t with
  | isync => exact absurd rfl ht
  | eieio | lwsync | sync => rfl

/-- What a fence of kind `t` changes in the indices of kind `u`. -/
theorem fetchFence_indices (hproc : proc < tb.threads.length)
    (hlen : (tb.thread proc).fchCount ≤ (tb.evtsOf proc).length) (t : FenceType) {u : FenceType}
    (hu : u ≠ .isync) :
    (∀ p, ((tb.fetchFence proc t).thread p).lastFence u = if p = proc ∧ u = t then
      ((tb.thread proc).fchCount : Int) else (tb.thread p).lastFence u) ∧
    (∀ p k, ((tb.fetchFence proc t).fchAt p k).fenceBefore u = (tb.fchAt p k).fenceBefore u) ∧
    ∀ p k, ((tb.fetchFence proc t).fchAt p k).fenceAfter u = if p = proc ∧ u = t ∧
      (tb.thread proc).lastFence t ≤ k ∧ k < (tb.thread proc).fchCount then
      ((tb.thread proc).fchCount : Int) else (tb.fchAt p k).fenceAfter u := by
  by_cases ht : t = .isync
  · subst ht
    refine ⟨fun p => ?_, fun p k => rfl, fun p k => ?_⟩
    · rw [if_neg fun h => hu h.2]
      show ((tb.modifyThread proc _).thread p).lastFence u = _
      rw [thread_modifyThread]
      split_ifs with hp
      · rw [hp.1]
        cases u <;> rfl
      · rfl
    · rw [if_neg fun h => hu h.2.1]
      rfl
  · rw [fetchFence_eq proc ht]
    refine ⟨fun p => ?_, fun p k => ?_, fun p k => ?_⟩
    · rw [thread_modifyThread]
      by_cases hp : p = proc
      · subst hp
        rw [if_pos ⟨rfl, hproc⟩, lastFence_setLastFence _ _ ht]
        simp only [true_and]
        rfl
      · rw [if_neg fun h => hp h.1, if_neg fun h => hp h.1]
        rfl
    · show ((tb.modifySince proc _ _).fchAt p k).fenceBefore u = _
      rw [fchAt_modifySince]
      split_ifs
      · rw [fenceBefore_setFenceAfter]
      · rfl
    · show ((tb.modifySince proc _ _).fchAt p k).fenceAfter u = _
      rw [fchAt_modifySince]
      by_cases hp : p = proc ∧ (tb.thread proc).lastFence t ≤ k ∧ k < (tb.thread proc).fchCount
      · obtain ⟨rfl, hlast, hk⟩ := hp
        rw [if_pos ⟨rfl, by omega, hk, by omega⟩, fenceAfter_setFenceAfter _ _ ht]
        simp only [true_and, hlast, hk, and_true]
      · rw [if_neg fun h => hp ⟨h.1, by omega, h.2.2.1⟩, if_neg fun h => hp ⟨h.1, h.2.2⟩]

theorem hasFence_cons {p n m : Nat} {t u : FenceType} :
    HasFence (⟨proc, t, n⟩ :: fences) p u m ↔
      p = proc ∧ u = t ∧ m = n ∨ HasFence fences p u m := by
  unfold HasFence
  simp only [List.mem_cons, exists_eq_or_imp]
  refine or_congr_left ?_
  constructor
  · rintro ⟨rfl, rfl, rfl⟩
    exact ⟨rfl, rfl, rfl⟩
  · rintro ⟨rfl, rfl, rfl⟩
    exact ⟨rfl, rfl, rfl⟩

/-- The new fence is behind all events of its thread. -/
theorem FenceInv.fetchFence (h : FenceInv fences tb) (hproc : proc < tb.threads.length)
    (hlen : (tb.thread proc).fchCount ≤ (tb.evtsOf proc).length) (t : FenceType) :
    FenceInv (⟨proc, t, (tb.thread proc).fchCount⟩ :: fences) (tb.fetchFence proc t) := by
  intro p u hu
  obtain ⟨hlast, hbefore, hafter⟩ := fetchFence_indices hproc hlen t hu
  rw [(calm_fetchFence t).fchCount p]
  by_cases hpu : p = proc ∧ u = t
  · obtain ⟨rfl, rfl⟩ := hpu
    refine (h p u hu).mark.congr (fun n => ?_) ?_ (fun k hk => hbefore p k) fun k hk => ?_
    · rw [hasFence_cons]
      simp only [true_and]
    · rw [hlast, if_pos ⟨rfl, rfl⟩]
    · rw [hafter]
      simp only [true_and, hk, and_true]
  · refine (h p u hu).congr (fun n => ?_) ?_ (fun k hk => hbefore p k) fun k hk => ?_
    · rw [hasFence_cons, or_iff_right fun h => hpu ⟨h.1, h.2.1⟩]
    · rw [hlast, if_neg hpu]
    · rw [hafter, if_neg fun h => hpu ⟨h.1, h.2.1⟩]

/-! ## Runs -/

theorem FenceInv.act {S : Session} {a : Action} (h : FenceInv S.fences S.tb)
    (hsound : S.tb.Sound) (hallowed : S.tb.Allowed a) (ha : S.tb.act cfg a = some tb') :
    FenceInv (S.fencesAfter a) tb' := by
  cases a with
  | spawn proc =>
    obtain ⟨-, -, hthread, hevts⟩ := spawn_same ha
    refine h.of_same (fun p => ?_) (fun p => ?_) fun p k => ?_
    · rw [hthread]
    · rw [hthread]
    · rw [fchAt_of_evtsOf hevts]
  | fetch proc l s addrDeps dataDeps =>
    obtain ⟨evt, hf, he⟩ := fetch_enters ha
    exact h.enters hf he
  | fetchFence proc type =>
    cases ha
    exact h.fetchFence hallowed (hsound.shape.fetched proc) type
  | schedule =>
    obtain ⟨⟨s, tb₁⟩, hs, rfl⟩ := Option.map_eq_some_iff.mp ha
    rcases hsound.schedule hs with ⟨-, -, hkept⟩ | ⟨e, tb₀, -, hkept, -, -, -, hmarks, -⟩
    · exact h.kept hkept
    · exact (h.kept hkept).marks hmarks
  | _ => exact h.quiet (act_quiet rfl ha)

/-- Nothing is fetched. -/
theorem FenceInv.of_start (h : ∀ p, tb.thread p = {}) : FenceInv [] tb := by
  intro p t ht
  have hnone : ∀ n, ¬HasFence [] p t n := by
    rintro n ⟨f, hf, -⟩
    exact absurd hf List.not_mem_nil
  have hlast : ({} : Thread).lastFence t = -1 := by cases t <;> rfl
  rw [h, hlast]
  refine ⟨fun n hn => absurd hn (hnone n), fun i => iff_of_false (by omega) ?_,
    fun k hk => absurd hk (Nat.not_lt_zero k), fun k hk => absurd hk (Nat.not_lt_zero k),
    fun k hk => absurd hk (Nat.not_lt_zero k)⟩
  exact fun hn => hn.elim fun n hn => hnone n hn.1

end TB

/-- The indices are those of the fences that the run has fetched. -/
theorem Run.fenceInv {cfg : Config} {S : Session} (h : Run cfg S) : TB.FenceInv S.fences S.tb := by
  induction h with
  | start => exact .of_start fun p => by cases p <;> rfl
  | act a hrun hallowed ha ih => exact ih.act hrun.sound hallowed ha
  | replay _ _ => exact .of_start TB.thread_clearData
  | reset hrun hr _ =>
    obtain ⟨tb₁, n, -, rfl⟩ := hrun.sound.reset hr
    exact .of_start fun p => by cases p <;> rfl

end ViEqui.Power
