import ViEqui.Lib.SwapRemove
import ViEqui.Tso.RaceDetect

/-!
# The scan of a sleep set

`obs_sleep_wake` of `src/TSOTraceBuilder.cpp` deletes from the vectors of a
sleep set while it goes over them, so each deletion puts the last element into
the place that is looked at next.  Here the loops stand as in the source.

* `obsSleepWakeScan_same`: the loops wake the sleepers that `obsSleepWake`
  filters out, and the order of the sleepers plays no part.
* `sequenceClearsSleepScan_iff`: without observers a sequence clears a sleep set
  if it wakes each sleeper before it runs it.
-/

namespace ViEqui.Tso

open SwapRemove

/-! ## The loops of the source -/

/-- The first loop of `obs_sleep_wake` for one event.  `unordered_vector_delete`
is `removeAt`. -/
def wakeReadersScan (s : ObsSleep) (e : SymEv) : Option ObsSleep :=
  let mustRead :=
    if e.kind = .fullmem then []
    else if e.doesLoad then
      eraseScan (fun a => a.overlaps e.addr) s.mustRead.length 0 s.mustRead
    else s.mustRead
  if e.isStore then
    if mustRead.any fun a => a.subsetof e.addr then none
    else some ⟨s.sleep.map fun sl =>
      if sl.sym.any fun f => f.isStore && f.addr = e.addr then
        { sl with notIfRead := some e.addr }
      else sl, mustRead⟩
  else some { s with mustRead }

/-- The second loop of `obs_sleep_wake` from position `i`, with `todo` sleepers
left. -/
def wakeSleepersScan (p : Nat) (sym : Sym) : Nat → Nat → ObsSleep → Option ObsSleep
  | 0, _, s => some s
  | todo + 1, i, s =>
    match s.sleep[i]? with
    | none => some s
    | some sl =>
      if sl.pid = p then
        match sl.notIfRead with
        | some a => wakeSleepersScan p sym todo i ⟨removeAt s.sleep i, s.mustRead ++ [a]⟩
        | none => none
      else if doEventsConflict p sym sl.pid sl.sym then
        wakeSleepersScan p sym todo i { s with sleep := removeAt s.sleep i }
      else wakeSleepersScan p sym todo (i + 1) s

/-- `obs_sleep_wake`, which returns early for `BLOCK`. -/
def obsSleepWakeScan (conf : DporAlgorithm) (s : ObsSleep) (p : Nat) (sym : Sym) :
    ObsWakeRes :=
  match if conf = .observers then sym.foldlM wakeReadersScan s else some s with
  | none => .block
  | some s =>
    match wakeSleepersScan p sym s.sleep.length 0 s with
    | none => .block
    | some s => if s.sleep.isEmpty && s.mustRead.isEmpty then .clear else .continue s

/-- `sequence_clears_sleep`. -/
def sequenceClearsSleepScan (conf : DporAlgorithm) : List Branch → ObsSleep → Bool
  | [], _ => false
  | b :: seq, s =>
    match obsSleepWakeScan conf s b.pid b.sym with
    | .clear => true
    | .continue s' => sequenceClearsSleepScan conf seq s'
    | .block => false

/-! ## The order does not matter -/

/-- Two sleep sets that differ in the order of their vectors. -/
def ObsSleep.Same (s t : ObsSleep) : Prop :=
  s.sleep.Perm t.sleep ∧ s.mustRead.Perm t.mustRead

theorem ObsSleep.Same.refl (s : ObsSleep) : s.Same s := ⟨List.Perm.refl _, List.Perm.refl _⟩

/-- The same outcome, up to the order of the sleep set that goes on. -/
inductive ObsWakeRes.Same : ObsWakeRes → ObsWakeRes → Prop where
  | clear : Same .clear .clear
  | continue {s t : ObsSleep} (h : s.Same t) : Same (.continue s) (.continue t)
  | block : Same .block .block

namespace Sleeper

/-- `p` runs while it sleeps. -/
def blocks (p : Nat) (s : Sleeper) : Bool := s.pid = p && s.notIfRead.isNone

/-- The step of `p` does not wake the sleeper. -/
def stays (p : Nat) (sym : Sym) (s : Sleeper) : Bool :=
  s.pid ≠ p && !doEventsConflict p sym s.pid s.sym

/-- What must be read when `p` runs and the sleeper is one of `p`. -/
def pending (p : Nat) (s : Sleeper) : Option SymAddrSize :=
  if s.pid = p then s.notIfRead else none

end Sleeper

theorem wakeSleepers_eq (p : Nat) (sym : Sym) (l : List Sleeper) :
    wakeSleepers p sym l =
      if l.any (Sleeper.blocks p) then none
      else some (l.filter (Sleeper.stays p sym), l.filterMap (Sleeper.pending p)) := by
  induction l with
  | nil => rfl
  | cons s rest ih =>
    unfold wakeSleepers
    rw [ih, List.any_cons]
    by_cases hrest : rest.any (Sleeper.blocks p) = true
    · rw [if_pos hrest, hrest, Bool.or_true, if_pos rfl]
      rfl
    rw [if_neg hrest, Option.bind_some, Bool.eq_false_iff.mpr hrest, Bool.or_false]
    by_cases hp : s.pid = p
    · cases hread : s.notIfRead with
      | none => simp [hp, hread, Sleeper.blocks]
      | some a => simp [hp, hread, Sleeper.blocks, Sleeper.stays, Sleeper.pending]
    · by_cases hconf : doEventsConflict p sym s.pid s.sym = true
      · simp [hp, hconf, Sleeper.blocks, Sleeper.stays, Sleeper.pending]
      · simp [hp, hconf, Sleeper.blocks, Sleeper.stays, Sleeper.pending]

/-- A result of the scan of `rest` behind the sleepers `front` that stay. -/
def SleepScanned (p : Nat) (sym : Sym) (front rest : List Sleeper) (must : List SymAddrSize) :
    Option ObsSleep → Prop
  | none => rest.any (Sleeper.blocks p) = true
  | some s => rest.any (Sleeper.blocks p) = false ∧
      ∃ stay must', s = ⟨front ++ stay, must ++ must'⟩ ∧
        stay.Perm (rest.filter (Sleeper.stays p sym)) ∧
        must'.Perm (rest.filterMap (Sleeper.pending p))

namespace SleepScanned

variable {p : Nat} {sym : Sym} {front rest rest' : List Sleeper} {must : List SymAddrSize}
  {s : Sleeper} {r : Option ObsSleep}

/-- A sleeper is deleted, and the others are in another order. -/
theorem delete (hblocks : s.blocks p = false) (hstays : s.stays p sym = false)
    (hperm : rest'.Perm rest)
    (h : SleepScanned p sym front rest' (must ++ (s.pending p).toList) r) :
    SleepScanned p sym front (s :: rest) must r := by
  have hany : (s :: rest).any (Sleeper.blocks p) = rest'.any (Sleeper.blocks p) := by
    rw [List.any_cons, hblocks, Bool.false_or, hperm.any_eq]
  cases r with
  | none => exact hany.trans h
  | some t =>
    obtain ⟨hrest, stay, must', ht, hstay, hmust⟩ := h
    refine ⟨hany.trans hrest, stay, (s.pending p).toList ++ must', ?_, ?_, ?_⟩
    · rw [ht, List.append_assoc]
    · rw [List.filter_cons_of_neg (by simp [hstays])]
      exact hstay.trans (hperm.filter _)
    · have hmust := hmust.trans (hperm.filterMap _)
      cases hpending : s.pending p with
      | none =>
        rw [List.filterMap_cons_none hpending]
        exact hmust
      | some a =>
        rw [List.filterMap_cons_some hpending]
        exact hmust.cons a

/-- A sleeper stays. -/
theorem keep (hblocks : s.blocks p = false) (hstays : s.stays p sym = true)
    (hpending : s.pending p = none) (h : SleepScanned p sym (front ++ [s]) rest must r) :
    SleepScanned p sym front (s :: rest) must r := by
  have hany : (s :: rest).any (Sleeper.blocks p) = rest.any (Sleeper.blocks p) := by
    rw [List.any_cons, hblocks, Bool.false_or]
  cases r with
  | none => exact hany.trans h
  | some t =>
    obtain ⟨hrest, stay, must', ht, hstay, hmust⟩ := h
    refine ⟨hany.trans hrest, s :: stay, must', ?_, ?_, ?_⟩
    · rw [ht, List.append_assoc, List.singleton_append]
    · rw [List.filter_cons_of_pos hstays]
      exact hstay.cons s
    · rw [List.filterMap_cons_none hpending]
      exact hmust

end SleepScanned

theorem sleepScanned_wakeSleepersScan (p : Nat) (sym : Sym) (todo : Nat) (front rest : List Sleeper)
    (must : List SymAddrSize) (h : rest.length = todo) :
    SleepScanned p sym front rest must
      (wakeSleepersScan p sym todo front.length ⟨front ++ rest, must⟩) := by
  induction todo generalizing front rest must with
  | zero =>
    obtain rfl := List.length_eq_zero_iff.mp h
    refine ⟨rfl, [], [], ?_, List.Perm.refl [], List.Perm.refl []⟩
    rw [List.append_nil, List.append_nil]
  | succ todo ih =>
    cases rest with
    | nil => cases h
    | cons s rest =>
      have hlength : rest.length = todo := Nat.succ.inj h
      have hget : (front ++ s :: rest)[front.length]? = some s := by simp
      -- what is behind a deleted sleeper
      obtain ⟨rest', hremove, hperm⟩ := removeAt_append_cons front s rest
      have hlength' : rest'.length = todo := hperm.length_eq.trans hlength
      unfold wakeSleepersScan
      dsimp only
      rw [hget]
      dsimp only
      by_cases hp : s.pid = p
      · rw [if_pos hp]
        cases hread : s.notIfRead with
        | none => simp [SleepScanned, Sleeper.blocks, hp, hread]
        | some a =>
          dsimp only
          rw [hremove]
          refine .delete (by simp [Sleeper.blocks, hread]) (by simp [Sleeper.stays, hp]) hperm ?_
          rw [Sleeper.pending, if_pos hp, hread]
          exact ih front rest' (must ++ [a]) hlength'
      · rw [if_neg hp]
        have hpending : s.pending p = none := if_neg hp
        by_cases hconf : doEventsConflict p sym s.pid s.sym = true
        · rw [if_pos hconf, hremove]
          refine .delete (by simp [Sleeper.blocks, hp]) (by simp [Sleeper.stays, hconf]) hperm ?_
          rw [hpending, Option.toList_none, List.append_nil]
          exact ih front rest' must hlength'
        · rw [if_neg hconf]
          refine .keep (by simp [Sleeper.blocks, hp]) (by simp [Sleeper.stays, hp, hconf])
            hpending ?_
          have hscan := ih (front ++ [s]) rest must hlength
          rw [List.length_append, List.length_singleton, List.append_assoc,
            List.singleton_append] at hscan
          exact hscan

theorem wakeReadersScan_same {s t : ObsSleep} (h : s.Same t) (e : SymEv) :
    Option.Rel ObsSleep.Same (wakeReadersScan s e) (wakeReaders t e) := by
  obtain ⟨hsleep, hmust⟩ := h
  have hread : (if e.kind = .fullmem then []
      else if e.doesLoad then
        eraseScan (fun a => a.overlaps e.addr) s.mustRead.length 0 s.mustRead
      else s.mustRead).Perm
      (if e.kind = .fullmem then []
      else if e.doesLoad then t.mustRead.filter fun a => !a.overlaps e.addr
      else t.mustRead) := by
    split
    · exact List.Perm.refl []
    · split
      · exact (eraseScan_perm _ _).trans (hmust.filter _)
      · exact hmust
  have hstore : ∀ m m' : List SymAddrSize, m.Perm m' →
      Option.Rel ObsSleep.Same
        (if e.isStore then
          if m.any fun a => a.subsetof e.addr then none
          else some ⟨s.sleep.map fun sl =>
            if sl.sym.any fun f => f.isStore && f.addr = e.addr then
              { sl with notIfRead := some e.addr }
            else sl, m⟩
        else some { s with mustRead := m })
        (if e.isStore then
          if m'.any fun a => a.subsetof e.addr then none
          else some ⟨t.sleep.map fun sl =>
            if sl.sym.any fun f => f.isStore && f.addr = e.addr then
              { sl with notIfRead := some e.addr }
            else sl, m'⟩
        else some { t with mustRead := m' }) := by
    intro m m' hm
    rw [hm.any_eq]
    split
    · split
      · exact .none
      · exact .some ⟨hsleep.map _, hm⟩
    · exact .some ⟨hsleep, hm⟩
  exact hstore _ _ hread

theorem wakeReadersScans_same (sym : Sym) {s t : ObsSleep} (h : s.Same t) :
    Option.Rel ObsSleep.Same (sym.foldlM wakeReadersScan s) (sym.foldlM wakeReaders t) := by
  induction sym generalizing s t with
  | nil => exact .some h
  | cons e sym ih =>
    have hstep := wakeReadersScan_same h e
    rw [List.foldlM_cons, List.foldlM_cons]
    revert hstep
    cases wakeReadersScan s e <;> cases wakeReaders t e <;> intro hstep <;> cases hstep
    · exact .none
    · next h' => exact ih h'

/-- The loops have the outcome of the filters. -/
theorem obsSleepWakeScan_same (conf : DporAlgorithm) {s t : ObsSleep} (h : s.Same t) (p : Nat)
    (sym : Sym) :
    (obsSleepWakeScan conf s p sym).Same (obsSleepWake conf t p sym) := by
  have hreaders : Option.Rel ObsSleep.Same
      (if conf = .observers then sym.foldlM wakeReadersScan s else some s)
      (if conf = .observers then sym.foldlM wakeReaders t else some t) := by
    split
    · exact wakeReadersScans_same sym h
    · exact .some h
  unfold obsSleepWakeScan obsSleepWake
  revert hreaders
  cases (if conf = .observers then sym.foldlM wakeReadersScan s else some s) <;>
    cases (if conf = .observers then sym.foldlM wakeReaders t else some t) <;>
    intro hreaders <;> cases hreaders
  · exact .block
  next s t h =>
  obtain ⟨hsleep, hmust⟩ := h
  have hscan := sleepScanned_wakeSleepersScan p sym s.sleep.length [] s.sleep s.mustRead rfl
  rw [List.length_nil, List.nil_append] at hscan
  dsimp only
  rw [wakeSleepers_eq]
  revert hscan
  cases wakeSleepersScan p sym s.sleep.length 0 ⟨s.sleep, s.mustRead⟩ with
  | none =>
    intro hscan
    rw [if_pos (hsleep.any_eq.symm.trans hscan)]
    exact .block
  | some s' =>
    intro ⟨hrest, stay, must', hs', hstay, hmust'⟩
    have hstay := hstay.trans (hsleep.filter _)
    have hmust' := hmust.append (hmust'.trans (hsleep.filterMap _))
    rw [if_neg (by rw [← hsleep.any_eq, hrest]; decide), hs']
    dsimp only
    have hempty : (([] ++ stay).isEmpty && (s.mustRead ++ must').isEmpty) =
        ((t.sleep.filter (Sleeper.stays p sym)).isEmpty && t.mustRead.isEmpty &&
          (t.sleep.filterMap (Sleeper.pending p)).isEmpty) := by
      rw [List.nil_append, hstay.isEmpty_eq, hmust'.isEmpty_eq, Bool.and_assoc]
      cases t.mustRead <;> simp
    rw [hempty]
    split
    · exact .clear
    · exact .continue ⟨hstay, hmust'⟩

theorem sequenceClearsSleepScan_eq (conf : DporAlgorithm) (v : List Branch) {s t : ObsSleep}
    (h : s.Same t) : sequenceClearsSleepScan conf v s = sequenceClearsSleep conf v t := by
  induction v generalizing s t with
  | nil => rfl
  | cons b v ih =>
    have hstep := obsSleepWakeScan_same conf h b.pid b.sym
    unfold sequenceClearsSleepScan sequenceClearsSleep
    revert hstep
    cases obsSleepWakeScan conf s b.pid b.sym <;> cases obsSleepWake conf t b.pid b.sym <;>
      intro hstep <;> cases hstep
    · rfl
    · next h' => exact ih h'
    · rfl

/-! ## Redundancy -/

/-- A branch by another thread conflicts with the sleeper, and no branch of the
sleeper stands in front of it. -/
def WokenIn (v : List Branch) (s : Sleeper) : Prop :=
  ∃ front b back, v = front ++ b :: back ∧ b.pid ≠ s.pid ∧
    doEventsConflict b.pid b.sym s.pid s.sym = true ∧ ∀ b' ∈ front, b'.pid ≠ s.pid

theorem not_wokenIn_nil (s : Sleeper) : ¬WokenIn [] s := by
  intro ⟨front, b, back, h, _⟩
  simp at h

theorem wokenIn_cons {b : Branch} {v : List Branch} {s : Sleeper} :
    WokenIn (b :: v) s ↔ b.pid ≠ s.pid ∧
      (doEventsConflict b.pid b.sym s.pid s.sym = true ∨ WokenIn v s) := by
  constructor
  · intro ⟨front, b', back, h, hpid, hconf, hfront⟩
    cases front with
    | nil =>
      cases h
      exact ⟨hpid, .inl hconf⟩
    | cons c front =>
      cases h
      exact ⟨hfront b List.mem_cons_self, .inr ⟨front, b', back, rfl, hpid, hconf,
        fun c hc => hfront c (List.mem_cons_of_mem b hc)⟩⟩
  · intro ⟨hpid, hwoken⟩
    rcases hwoken with hconf | ⟨front, b', back, rfl, hpid', hconf, hfront⟩
    · exact ⟨[], b, v, rfl, hpid, hconf, by simp⟩
    · refine ⟨b :: front, b', back, rfl, hpid', hconf, ?_⟩
      intro c hc
      rcases List.mem_cons.mp hc with rfl | hc
      · exact hpid
      · exact hfront c hc

/-- One step on a sleep set with nothing to be observed. -/
theorem obsSleepWake_plain {conf : DporAlgorithm} (hconf : conf ≠ .observers)
    {l : List Sleeper} (hl : ∀ s ∈ l, s.notIfRead = none) (p : Nat) (sym : Sym) :
    obsSleepWake conf ⟨l, []⟩ p sym =
      if l.any fun s => s.pid = p then .block
      else if (l.filter (Sleeper.stays p sym)).isEmpty then .clear
      else .continue ⟨l.filter (Sleeper.stays p sym), []⟩ := by
  have hblocks : l.any (Sleeper.blocks p) = l.any fun s => s.pid = p := by
    rw [Bool.eq_iff_iff, List.any_eq_true, List.any_eq_true]
    refine exists_congr fun s => and_congr_right fun hs => ?_
    rw [Sleeper.blocks, hl s hs]
    simp
  have hpending : l.filterMap (Sleeper.pending p) = [] := by
    refine List.filterMap_eq_nil_iff.mpr fun s hs => ?_
    rw [Sleeper.pending, hl s hs, ite_self]
  unfold obsSleepWake
  rw [if_neg hconf]
  dsimp only
  rw [wakeSleepers_eq, hblocks, hpending]
  by_cases hany : (l.any fun s => s.pid = p) = true
  · rw [if_pos hany, if_pos hany]
  · rw [if_neg hany, if_neg hany]
    simp only [List.isEmpty_nil, Bool.and_true, List.append_nil]

/-- The filter of a step keeps exactly the sleepers that are not woken by it. -/
theorem wokenIn_of_stays {b : Branch} {v : List Branch} {l : List Sleeper}
    (hl : ∀ s ∈ l, b.pid ≠ s.pid) :
    (∀ s ∈ l, WokenIn (b :: v) s) ↔
      ∀ s ∈ l.filter (Sleeper.stays b.pid b.sym), WokenIn v s := by
  constructor
  · intro h s hs
    obtain ⟨hmem, hstays⟩ := List.mem_filter.mp hs
    rcases (wokenIn_cons.mp (h s hmem)).2 with hconf | hwoken
    · simp [Sleeper.stays, hconf] at hstays
    · exact hwoken
  · intro h s hs
    refine wokenIn_cons.mpr ⟨hl s hs, ?_⟩
    by_cases hconf : doEventsConflict b.pid b.sym s.pid s.sym = true
    · exact .inl hconf
    · refine .inr (h s (List.mem_filter.mpr ⟨hs, ?_⟩))
      simp [Sleeper.stays, hconf, (hl s hs).symm]

theorem sequenceClearsSleep_iff {conf : DporAlgorithm} (hconf : conf ≠ .observers)
    (v : List Branch) (l : List Sleeper) (hl : ∀ s ∈ l, s.notIfRead = none)
    (hne : v ≠ [] ∨ l ≠ []) :
    sequenceClearsSleep conf v ⟨l, []⟩ = true ↔ ∀ s ∈ l, WokenIn v s := by
  induction v generalizing l with
  | nil =>
    have hl : l ≠ [] := hne.resolve_left (fun h => h rfl)
    refine iff_of_false (by simp [sequenceClearsSleep]) fun h => ?_
    obtain ⟨s, hs⟩ := List.exists_mem_of_ne_nil l hl
    exact not_wokenIn_nil s (h s hs)
  | cons b v ih =>
    unfold sequenceClearsSleep
    rw [obsSleepWake_plain hconf hl]
    by_cases hany : (l.any fun s => s.pid = b.pid) = true
    · rw [if_pos hany]
      -- the thread runs while it sleeps
      obtain ⟨s, hs, hpid⟩ := List.any_eq_true.mp hany
      refine iff_of_false (by simp) fun h => ?_
      exact (wokenIn_cons.mp (h s hs)).1 (of_decide_eq_true hpid).symm
    have hothers : ∀ s ∈ l, b.pid ≠ s.pid := by
      intro s hs heq
      exact hany (List.any_eq_true.mpr ⟨s, hs, by simp [heq]⟩)
    rw [if_neg hany, wokenIn_of_stays hothers]
    by_cases hempty : (l.filter (Sleeper.stays b.pid b.sym)).isEmpty = true
    · rw [if_pos hempty, List.isEmpty_iff.mp hempty]
      exact iff_of_true rfl (fun s hs => nomatch hs)
    · rw [if_neg hempty]
      refine ih _ (fun s hs => hl s (List.mem_of_mem_filter hs)) (.inr ?_)
      intro h
      exact hempty (List.isEmpty_iff.mpr h)

/-- A sequence clears a sleep set without pending observations exactly if each
sleeper is woken in it before it runs. -/
theorem sequenceClearsSleepScan_iff (conf : DporAlgorithm) (hconf : conf ≠ .observers)
    (v : List Branch) (hv : v ≠ []) (sleep : ObsSleep) (hmust : sleep.mustRead = [])
    (hread : ∀ s ∈ sleep.sleep, s.notIfRead = none) :
    sequenceClearsSleepScan conf v sleep = true ↔ ∀ s ∈ sleep.sleep, WokenIn v s := by
  rw [sequenceClearsSleepScan_eq conf v (.refl sleep)]
  obtain ⟨l, must⟩ := sleep
  obtain rfl := hmust
  exact sequenceClearsSleep_iff hconf v l hread (.inl hv)

/-- Threads 2 and 4 sleep in front of loads of the bytes 0 and 8. -/
def sleepingLoads : ObsSleep :=
  ⟨[{ pid := 2, sym := [.load ⟨.global 0, 0, 1⟩] },
    { pid := 4, sym := [.load ⟨.global 0, 8, 1⟩] }], []⟩

/-- Thread 0 stores to both, and then thread 2 runs. -/
def storesToBoth : List Branch :=
  [{ pid := 0, sym := [storeAt 0 none, storeAt 8 none] }, { pid := 2 }]

theorem sequenceClearsSleepScan_iff_loads :
    sequenceClearsSleepScan .optimal storesToBoth sleepingLoads = true ↔
      ∀ s ∈ sleepingLoads.sleep, WokenIn storesToBoth s :=
  sequenceClearsSleepScan_iff .optimal (by decide) storesToBoth (by decide) sleepingLoads rfl
    (by decide)

end ViEqui.Tso
