import ViEqui.Buffered.Bytes
import ViEqui.Buffered.Progress

/-!
# The store buffer of `TSOInterpreter`

`TSOThread` of `src/TSOInterpreter.h`, with the `available` flag of the auxiliary
thread in `TSOTraceBuilder`, which has a copy of the buffer.

* `tso_lawful`: the buffer is one from which the oldest store leaves first.
-/

namespace ViEqui.Buffered

open Function (update)
open Tso (SymAddr)

/-- `TSOThread`. -/
structure TSOThread where
  storeBuffer : List SymData := []
  partialBufferFlush : Int := -1
  auxAvailable : Bool := false

namespace TSOThread

/-- The loop of `checkRefuse` over the buffer, from the newest store on, of which
`newer` have been passed. -/
def blockedBy (ml : SymAddrSize) : List SymAddrSize → Nat → Option Nat
  | [], _ => none
  | ref :: older, newer =>
    if ml.overlaps ref then
      if ml ≠ ref then some newer else none
    else blockedBy ml older (newer + 1)

def refuseLoad (t : TSOThread) (ml : SymAddrSize) : Option TSOThread :=
  (blockedBy ml (t.storeBuffer.reverse.map SymData.ref) 0).map fun newer : Nat =>
    { t with partialBufferFlush := newer }

/-- `visitLoadInst`: the newest store to the address is read early. -/
def load (t : TSOThread) (memory : SymAddr → UInt8) (ml : SymAddrSize) :
    Except Failure (List UInt8) :=
  match t.storeBuffer.reverse.find? fun sd => ml.addr = sd.ref.addr with
  | some sd => if ml.size = sd.ref.size then .ok sd.block else .error .assertion
  | none => .ok (ml.bytes.map memory)

def store (t : TSOThread) (sd : SymData) : TSOThread :=
  { t with storeBuffer := t.storeBuffer ++ [sd], auxAvailable := true }

/-- `runAux`. -/
def runAux (t : TSOThread) (aux : Nat) : Except Failure (SymData × TSOThread × Bool) :=
  if aux ≠ 0 then .error .assertion
  else
    match t.storeBuffer with
    | [] => .error .assertion
    | sd :: rest =>
      let wake := decide ((rest.length : Int) ≤ t.partialBufferFlush)
      .ok (sd, {
        storeBuffer := rest
        partialBufferFlush := if wake then -1 else t.partialBufferFlush
        auxAvailable := t.auxAvailable && !rest.isEmpty }, wake)

end TSOThread

/-- `TSOInterpreter`. -/
def tso : Buffering TSOThread where
  init := {}
  allEmpty t := t.storeBuffer.isEmpty
  awaitAll t := { t with partialBufferFlush := 0 }
  refuseLoad := TSOThread.refuseLoad
  load := TSOThread.load
  store := TSOThread.store
  schedulable t aux := aux == 0 && t.auxAvailable
  runAux := TSOThread.runAux

namespace TSOThread

/-- What `partial_buffer_flush` says about the pending stores. -/
def Waits (t : TSOThread) (ws : List Store) : Await → Prop
  | .no => t.partialBufferFlush = -1
  | .full => t.partialBufferFlush = 0 ∧ ws ≠ []
  | .load ml => ∃ older e newer, ws = older ++ e :: newer ∧
      t.partialBufferFlush = newer.length ∧ ml.overlaps e.ref = true ∧ e.ref ≠ ml ∧
      ∀ w ∈ newer, ml.overlaps w.ref = false

/-- The thread has the stores `ws` pending and waits for `a`. -/
structure Holds (t : TSOThread) (ws : List Store) (a : Await) : Prop where
  storeBuffer : t.storeBuffer = ws.map Store.toSymData
  auxAvailable : t.auxAvailable = !ws.isEmpty
  waits : t.Waits ws a

theorem blockedBy_eq_none {ml : SymAddrSize} (l : List Store) (n : Nat) :
    blockedBy ml (l.map fun e => e.ref) n = none ↔
      ∀ e, l.find? (fun e => ml.overlaps e.ref) = some e → e.ref = ml := by
  induction l generalizing n with
  | nil => exact iff_of_true rfl nofun
  | cons e l ih => grind [blockedBy]

theorem blockedBy_eq_some {ml : SymAddrSize} {l : List Store} {n k : Nat}
    (h : blockedBy ml (l.map fun e => e.ref) n = some k) :
    ∃ newer e older, l = newer ++ e :: older ∧ k = n + newer.length ∧
      ml.overlaps e.ref = true ∧ e.ref ≠ ml ∧ ∀ w ∈ newer, ml.overlaps w.ref = false := by
  induction l generalizing n with
  | nil => cases h
  | cons e l ih =>
    rw [List.map_cons, blockedBy] at h
    cases ho : ml.overlaps e.ref with
    | false =>
      rw [ho, if_neg nofun] at h
      obtain ⟨newer, e', older, rfl, hk, ho', hne, hall⟩ := ih h
      exact ⟨e :: newer, e', older, by grind⟩
    | true => exact ⟨[], e, l, by grind⟩

/-- The last test decides, when whatever passes the second passes the first. -/
theorem find?_congr_of_imp {α : Type} {p q : α → Bool} {l : List α} (hqp : ∀ a, q a → p a)
    (h : ∀ a, l.find? p = some a → q a) : l.find? q = l.find? p := by
  induction l with
  | nil => rfl
  | cons a l ih => grind

variable {t : TSOThread} {ws : List Store} {a : Await} {ml : SymAddrSize}

theorem Holds.reverse_refs (h : Holds t ws a) :
    t.storeBuffer.reverse.map SymData.ref = ws.reverse.map fun e => e.ref := by
  rw [h.storeBuffer, ← List.map_reverse, List.map_map]
  rfl

theorem Holds.load_eq (h : Holds t ws a) (memory : SymAddr → UInt8) (hsize : 0 < ml.size)
    (hread : Readable ml ws) : t.load memory ml = .ok (ml.bytes.map (sees memory ws)) := by
  have hsame : t.storeBuffer.reverse.find? (fun sd => ml.addr = sd.ref.addr) =
      (ws.reverse.find? fun e => ml.overlaps e.ref).map Store.toSymData := by
    rw [h.storeBuffer, ← List.map_reverse, List.find?_map]
    congr 1
    apply find?_congr_of_imp
    · intro e he
      have haddr : ml.addr = e.ref.addr := of_decide_eq_true he
      exact SymAddrSize.overlaps_of_includes (SymAddrSize.includes_addr hsize)
        (haddr ▸ SymAddrSize.includes_addr e.size_pos)
    · intro e he
      exact decide_eq_true (congrArg SymAddrSize.addr (hread e he)).symm
  unfold load
  rw [hsame]
  rcases hread.cases with ⟨hnone, hall⟩ | ⟨older, e, newer, hsome, rfl, rfl, hall⟩
  · rw [hnone, map_sees_memory memory hall]
    rfl
  · rw [hsome, map_sees_newest memory _ _ e hall]
    exact if_pos rfl

theorem Holds.unmet (h : Holds t ws a) (ha : a ≠ .no) : ¬ a.Met ws := by
  cases a with
  | no => exact absurd rfl ha
  | full => exact h.waits.2
  | load ml =>
    obtain ⟨older, e, newer, rfl, -, ho, hne, hall⟩ := h.waits
    intro hread
    refine hne (hread e ?_)
    rw [List.find?_eq_some_iff_append]
    refine ⟨ho, newer.reverse, older.reverse, by simp, fun w hw => ?_⟩
    rw [hall w (List.mem_reverse.1 hw)]
    rfl

/-- The oldest store leaves the buffer. -/
theorem Holds.runAux (h : Holds t ws a) {i : Nat} (hs : tso.schedulable t i = true) :
    ∃ older e newer b' wake, ws = older ++ e :: newer ∧ StoreBuffer.Oldest older e ∧
      t.runAux i = .ok (e.toSymData, b', wake) ∧
      Holds b' (older ++ newer) (if wake then .no else a) ∧
      (wake = true → a ≠ .no ∧ a.Met (older ++ newer)) := by
  obtain ⟨hi, hav⟩ := Bool.and_eq_true_iff.1 hs
  have hi : i = 0 := by simpa using hi
  subst hi
  rw [h.auxAvailable] at hav
  cases ws with
  | nil => cases hav
  | cons e ws =>
    have hbuf : t.storeBuffer = e.toSymData :: ws.map Store.toSymData := h.storeBuffer
    have hrun : t.runAux 0 = .ok (e.toSymData, {
        storeBuffer := ws.map Store.toSymData
        partialBufferFlush := if (ws.length : Int) ≤ t.partialBufferFlush then -1
          else t.partialBufferFlush
        auxAvailable := !ws.isEmpty }, decide ((ws.length : Int) ≤ t.partialBufferFlush)) := by
      unfold TSOThread.runAux
      rw [if_neg (not_not_intro rfl), hbuf, h.auxAvailable]
      simp
    have hw := h.waits
    refine ⟨[], e, ws, _, _, rfl, rfl, hrun, ⟨rfl, rfl, ?_⟩, fun hwake => ?_⟩
    · by_cases hle : (ws.length : Int) ≤ t.partialBufferFlush
      · rw [if_pos hle, decide_eq_true hle, if_pos rfl]
        rfl
      · rw [if_neg hle, decide_eq_false hle, if_neg nofun]
        cases a with
        | no => exact hw
        | full =>
          refine ⟨hw.1, ?_⟩
          rintro rfl
          exact hle (by rw [hw.1]; exact Int.le_refl 0)
        | load ml =>
          obtain ⟨older, e', newer, hws, hflush, hrest⟩ := hw
          cases older with
          | nil => grind
          | cons w older => exact ⟨older, e', newer, (List.cons.inj hws).2, hflush, hrest⟩
    · have hle := of_decide_eq_true hwake
      cases a with
      | no =>
        rw [show t.partialBufferFlush = -1 from hw] at hle
        omega
      | full =>
        rw [hw.1] at hle
        exact ⟨nofun, (List.length_eq_zero_iff.1 (by omega) : ws = [])⟩
      | load ml =>
        obtain ⟨older, e', newer, hws, hflush, -, -, hall⟩ := hw
        have hnil : older = [] := by
          have hlen := congrArg List.length hws
          simp only [List.length_cons, List.length_append] at hlen
          exact List.length_eq_zero_iff.1 (by omega)
        subst hnil
        injection hws with he hnewer
        subst hnewer
        refine ⟨nofun, fun e'' he'' => ?_⟩
        have ho := List.find?_some he''
        rw [hall e'' (List.mem_reverse.1 (List.mem_of_find?_eq_some he''))] at ho
        cases ho

end TSOThread

/-- The store buffer of `TSOInterpreter` is first-in, first-out. -/
theorem tso_lawful : tso.Lawful StoreBuffer.Oldest TSOThread.Holds where
  init := ⟨rfl, rfl, rfl⟩
  allEmpty {b ws a} h := by
    show b.storeBuffer.isEmpty = true ↔ _
    rw [h.storeBuffer, List.isEmpty_iff, List.map_eq_nil_iff]
  unmet h := h.unmet
  awaitAll h hne := ⟨h.storeBuffer, h.auxAvailable, rfl, hne⟩
  refuseLoad_none {b ws a ml} h _ := by
    show (TSOThread.blockedBy ml _ 0).map _ = none ↔ _
    rw [Option.map_eq_none_iff, h.reverse_refs]
    exact TSOThread.blockedBy_eq_none ws.reverse 0
  refuseLoad_some {b ws ml b'} h _ hsome := by
    obtain ⟨k, hk, rfl⟩ := Option.map_eq_some_iff.1 hsome
    rw [h.reverse_refs] at hk
    obtain ⟨newer, e, older, hsplit, hk, ho, hne, hall⟩ := TSOThread.blockedBy_eq_some hk
    refine ⟨h.storeBuffer, h.auxAvailable, older.reverse, e, newer.reverse, ?_, ?_, ho, hne, ?_⟩
    · rw [← List.reverse_reverse ws, hsplit]
      simp
    · rw [List.length_reverse, hk, Nat.zero_add]
    · exact fun w hw => hall w (List.mem_reverse.1 hw)
  load memory h := h.load_eq memory
  store {b ws} e h := by
    refine ⟨?_, ?_, h.waits⟩
    · show b.storeBuffer ++ [e.toSymData] = _
      rw [h.storeBuffer, List.map_append]
      rfl
    · show true = !(ws ++ [e]).isEmpty
      cases ws <;> rfl
  runAux h := h.runAux

theorem TSOThread.Holds.flushes {t : TSOThread} {ws : List Store} {a : Await} (h : t.Holds ws a) :
    Flushes tso StoreBuffer.Oldest TSOThread.Holds t ws a := by
  rintro older e newer hws rfl
  have hsched : tso.schedulable t 0 = true := by
    show (0 == 0 && t.auxAvailable) = true
    rw [h.auxAvailable, hws]
    rfl
  obtain ⟨older', e', newer', b, wake, hws', hleaves, hrest⟩ := h.runAux hsched
  have hnil : older' = [] := hleaves
  subst hnil
  rw [hws] at hws'
  injection hws' with he hnewer
  subst he hnewer
  exact ⟨0, b, wake, hsched, hrest⟩

/-! ## Runs -/

def oneByte : Store := ⟨⟨⟨.global 0, 0, 1⟩, [1]⟩, by decide, rfl⟩

/-- A store with a fence after it. -/
def storeFence : Nat → Instr Nat
  | 0 => .store oneByte false 1
  | 1 => .fence 2
  | _ => .ret

/-- A mutex that is locked twice. -/
def lockTwice (_ : Nat) : Instr Nat := .mutexLock ⟨.global 0, 0⟩ 0

/-- The store is pending. -/
def afterStore : State Nat TSOThread :=
  run tso storeFence (initial tso 0 fun _ => 0) [.thread 0 0]

/-- The second lock is refused. -/
def afterLocks : State Nat TSOThread :=
  run tso lockTwice (initial tso 0 fun _ => 0) [.thread 0 0, .thread 0 0]

/-- `ws` are the stores in the buffers of the threads. -/
def TSOPending {σ : Type} (s : State σ TSOThread) (ws : Nat → List Store) : Prop :=
  ∀ q, (s.buffers q).storeBuffer = (ws q).map Store.toSymData

variable {σ : Type} {code : σ → Instr σ} {main : σ} {memory : SymAddr → UInt8}
  {s : State σ TSOThread}

theorem Inv.tsoPending {r : Nat → Reason} {ws : Nat → List Store}
    (h : Inv TSOThread.Holds code s r ws) : TSOPending s ws :=
  fun q => (h.holds q).storeBuffer

/-- A run of the interpreter under TSO is one of the program. -/
theorem tso_refines (h : Reachable tso code main memory s) :
    ∃ ws, TSOPending s ws ∧
      Reference.Reachable StoreBuffer.Oldest code main memory (s.reference ws) := by
  obtain ⟨r, ws, hinv, hreach⟩ := h.inv tso_lawful
  exact ⟨ws, hinv.tsoPending, hreach⟩

theorem tso_refines_store :
    ∃ ws, TSOPending afterStore ws ∧
      Reference.Reachable StoreBuffer.Oldest storeFence 0 (fun _ => 0)
        (afterStore.reference ws) :=
  tso_refines (Reachable.initial.run _)

/-- Without condition variables the interpreter comes to every state of the
program. -/
theorem tso_complete (hcode : ∀ f, (code f).usesCond = false) {c : Reference σ}
    (h : Reference.Reachable StoreBuffer.Oldest code main memory c) :
    ∃ s ws, Reachable tso code main memory s ∧ TSOPending s ws ∧ s.reference ws = c := by
  obtain ⟨s, r, ws, hs, hinv, hsame⟩ :=
    Reachable.complete tso_lawful hcode (fun _ _ _ _ _ hb => hb.flushes) h
  exact ⟨s, ws, hs, hinv.tsoPending, hsame⟩

theorem storeFence_usesCond (f : Nat) : (storeFence f).usesCond = false := by
  match f with
  | 0 | 1 | _ + 2 => rfl

theorem tso_complete_store :
    ∃ s ws, Reachable tso storeFence 0 (fun _ => 0) s ∧ TSOPending s ws ∧
      s.reference ws = Reference.goOn
        { Reference.initial 0 fun _ => 0 with pending := update (fun _ => []) 0 [oneByte] } 0 1 :=
  tso_complete storeFence_usesCond (.single (.visit (p := 0) (i := storeFence 0) ⟨rfl, rfl⟩ rfl))

/-- A thread is scheduled, and not refused, exactly when its instruction can be
executed and it is not suspended by `pthread_cond_wait`. -/
theorem tso_available_iff (h : Reachable tso code main memory s) :
    ∃ ws, TSOPending s ws ∧ ∀ p i, s.next code p = some i →
      (s.available p = true ∧ checkRefuse tso s p i = none ↔
        (s.reference ws).Goes p i ∧ ∀ cnd l, s.condVars cnd = some l → p ∉ l) := by
  obtain ⟨r, ws, hinv, -⟩ := h.inv tso_lawful
  exact ⟨ws, hinv.tsoPending, fun p i hi => hinv.available_iff tso_lawful hi⟩

theorem tso_available_iff_store :
    ∃ ws, TSOPending afterStore ws ∧ ∀ p i, afterStore.next storeFence p = some i →
      (afterStore.available p = true ∧ checkRefuse tso afterStore p i = none ↔
        (afterStore.reference ws).Goes p i ∧
          ∀ cnd l, afterStore.condVars cnd = some l → p ∉ l) :=
  tso_available_iff (Reachable.initial.run _)

/-- How a run fails. -/
theorem tso_failure_iff (h : Reachable tso code main memory s) {c : Choice}
    (hc : schedulable tso s c = true) :
    ∃ ws, TSOPending s ws ∧ ∀ e, step tso code s c = .error e ↔
      ∃ p alt i, c = .thread p alt ∧ s.next code p = some i ∧ (s.reference ws).Goes p i ∧
        failure (s.awoken p) p alt i = some e := by
  obtain ⟨r, ws, hinv, -⟩ := h.inv tso_lawful
  obtain ⟨f, hfollows, hf⟩ := hinv.step_spec tso_lawful hc
  exact ⟨ws, hinv.tsoPending, fun e => hfollows.error_iff.trans (hf e)⟩

theorem tso_failure_iff_store :
    ∃ ws, TSOPending afterStore ws ∧
      ∀ e, step tso storeFence afterStore (.thread 0 0) = .error e ↔
        ∃ p alt i, Choice.thread 0 0 = .thread p alt ∧ afterStore.next storeFence p = some i ∧
          (afterStore.reference ws).Goes p i ∧
            failure (afterStore.awoken p) p alt i = some e :=
  tso_failure_iff (Reachable.initial.run _) rfl

/-- A run ends when all stores are in memory, and each thread has ended or waits for
something that has not come. -/
theorem tso_blocked (h : Reachable tso code main memory s)
    (hstuck : ∀ c, schedulable tso s c = false) :
    (∀ q, (s.buffers q).storeBuffer = []) ∧ ∀ q i, s.next code q = some i →
      ¬ (s.reference fun _ => []).Goes q i ∨ ∃ cnd l, s.condVars cnd = some l ∧ q ∈ l := by
  obtain ⟨r, ws, hinv, -⟩ := h.inv tso_lawful
  obtain ⟨hempty, hwait⟩ := hinv.blocked tso_lawful hstuck fun q hne => by
    refine ⟨0, ?_⟩
    show (0 == 0 && (s.buffers q).auxAvailable) = true
    rw [(hinv.holds q).auxAvailable]
    simpa using hne
  have hws : ws = fun _ => [] := by
    funext q
    exact (tso_lawful.allEmpty (hinv.holds q)).1 (hempty q)
  subst hws
  exact ⟨hinv.tsoPending, hwait⟩

theorem afterLocks_stuck (c : Choice) : schedulable tso afterLocks c = false := by
  cases c with
  | thread p alt =>
    show (decide (p < 1) && update (update (fun _ => false) 0 true) 0 false p) = false
    simp [Function.update_apply]
  | aux p i =>
    show (decide (p < 1) && (i == 0 && false)) = false
    simp

theorem tso_blocked_locks :
    (∀ q, (afterLocks.buffers q).storeBuffer = []) ∧
      ∀ q i, afterLocks.next lockTwice q = some i →
        ¬ (afterLocks.reference fun _ => []).Goes q i ∨
          ∃ cnd l, afterLocks.condVars cnd = some l ∧ q ∈ l :=
  tso_blocked (Reachable.initial.run _) afterLocks_stuck

end ViEqui.Buffered
