import ViEqui.Event

/-!
# Symbolic events of the TSO builder

`SymAddr`, `SymAddrSize` and `SymEv` of `src/SymAddr.h` and `src/SymEv.h`, and
the conflict relation of `src/TSOTraceBuilder.cpp`.

* `SymAddrSize.overlaps`, `subsetof`, `includes` and `bytes`.
* `SymEv.doSymevsConflict` and `doEventsConflict`: whether two steps can be
  swapped.  The relation is symmetric, and it does not see the bytes that a
  step reads or writes (`doEventsConflict_comm`, `doEventsConflict_congr`).
-/

namespace ViEqui

/-! ## Addresses -/

/-- `SymAddr`: one byte of a block.  Offsets do not wrap here. -/
structure Tso.SymAddr where
  block : SymMBlock
  offset : Nat
deriving DecidableEq, Repr, Inhabited

namespace SymAddrSize

open Tso (SymAddr)

/-- `begin()`. -/
def addr (a : SymAddrSize) : SymAddr := ⟨a.block, a.offset⟩

/-- `subsetof`: all bytes of `a` are bytes of `b`. -/
def subsetof (a b : SymAddrSize) : Bool :=
  a.block = b.block && b.offset ≤ a.offset && a.offset + a.size ≤ b.offset + b.size

/-- `overlaps`: `a` and `b` have a byte in common. -/
def overlaps (a b : SymAddrSize) : Bool :=
  a.block = b.block && b.offset < a.offset + a.size && a.offset < b.offset + b.size

/-- `includes`. -/
def includes (a : SymAddrSize) (x : SymAddr) : Bool :=
  a.block = x.block && a.offset ≤ x.offset && x.offset < a.offset + a.size

/-- The bytes from `begin()` to `end()`. -/
def bytes (a : SymAddrSize) : List SymAddr :=
  (List.range a.size).map fun k => ⟨a.block, a.offset + k⟩

theorem overlaps_comm (a b : SymAddrSize) : a.overlaps b = b.overlaps a := by
  unfold overlaps
  rw [Bool.and_assoc, Bool.and_assoc, Bool.and_comm (decide (b.offset < _))]
  congr 2
  exact propext eq_comm

@[simp] theorem mem_bytes {a : SymAddrSize} {x : SymAddr} :
    x ∈ a.bytes ↔ a.includes x = true := by
  simp only [bytes, includes, List.mem_map, List.mem_range, Bool.and_eq_true,
    decide_eq_true_eq]
  constructor
  · rintro ⟨k, hk, rfl⟩
    exact ⟨⟨rfl, by simp⟩, by simpa using hk⟩
  · rintro ⟨⟨hblock, hlow⟩, hhigh⟩
    refine ⟨x.offset - a.offset, by omega, ?_⟩
    show (⟨a.block, a.offset + (x.offset - a.offset)⟩ : SymAddr) = x
    rw [hblock, Nat.add_sub_cancel' hlow]

end SymAddrSize

namespace Tso

/-- The algorithms of the configuration. -/
inductive DporAlgorithm where
  | source | optimal | observers
deriving DecidableEq, Repr

/-! ## Symbolic events -/

/-- The kinds of symbolic events. -/
inductive SymEv.Kind where
  | none | nondet | load | store | fullmem | rmw | cmpxhg | cmpxhgFail
  | mInit | mLock | mTryLock | mTryLockFail | mUnlock | mDelete
  | cInit | cSignal | cBrdcst | cWait | cAwake | cDelete
  | spawn | join | unobsStore
deriving DecidableEq, Repr

/-- A block of bytes, absent after `purge_data`. -/
abbrev Block := Option (List UInt8)

/-- `SymEv`.  The union `arg` is the address or the number, and the other one
keeps its default. -/
structure SymEv where
  kind : SymEv.Kind := .none
  addr : SymAddrSize := default
  num : Nat := 0
  expected : Block := none
  written : Block := none
deriving DecidableEq, Repr

namespace SymEv

def nondet (count : Nat) : SymEv := { kind := .nondet, num := count }
def load (addr : SymAddrSize) : SymEv := { kind := .load, addr }
def store (addr : SymAddrSize) (written : Block) : SymEv :=
  { kind := .store, addr, written }
def unobsStore (addr : SymAddrSize) (written : Block) : SymEv :=
  { kind := .unobsStore, addr, written }
def cmpXhg (addr : SymAddrSize) (written expected : Block) : SymEv :=
  { kind := .cmpxhg, addr, written, expected }
def cmpXhgFail (addr : SymAddrSize) (written expected : Block) : SymEv :=
  { kind := .cmpxhgFail, addr, written, expected }
def fullmem : SymEv := { kind := .fullmem }
def mInit (addr : SymAddrSize) : SymEv := { kind := .mInit, addr }
def mLock (addr : SymAddrSize) : SymEv := { kind := .mLock, addr }
def mUnlock (addr : SymAddrSize) : SymEv := { kind := .mUnlock, addr }
def mDelete (addr : SymAddrSize) : SymEv := { kind := .mDelete, addr }
def cInit (addr : SymAddrSize) : SymEv := { kind := .cInit, addr }
def cSignal (addr : SymAddrSize) : SymEv := { kind := .cSignal, addr }
def cBrdcst (addr : SymAddrSize) : SymEv := { kind := .cBrdcst, addr }
def cWait (addr : SymAddrSize) : SymEv := { kind := .cWait, addr }
def cAwake (addr : SymAddrSize) : SymEv := { kind := .cAwake, addr }
def cDelete (addr : SymAddrSize) : SymEv := { kind := .cDelete, addr }
def spawn (proc : Nat) : SymEv := { kind := .spawn, num := proc }
def join (proc : Nat) : SymEv := { kind := .join, num := proc }

/-- `has_addr`. -/
def hasAddr (e : SymEv) : Bool :=
  match e.kind with
  | .none | .fullmem | .nondet | .spawn | .join => false
  | _ => true

/-- `has_num`. -/
def hasNum (e : SymEv) : Bool :=
  match e.kind with
  | .spawn | .join | .nondet => true
  | _ => false

/-- `operator==`, which does not look at the data. -/
def same (e f : SymEv) : Bool :=
  e.kind = f.kind && (!e.hasAddr || e.addr = f.addr) && (!e.hasNum || e.num = f.num)

/-- `is_compatible_with`: the event can be `other` in a replay. -/
def isCompatibleWith (e other : SymEv) : Bool :=
  (e.kind = other.kind || (e.kind = .store && other.kind = .unobsStore) ||
    (e.kind = .mTryLock && other.kind = .mTryLockFail) ||
    (e.kind = .mTryLockFail && other.kind = .mTryLock)) &&
  (!e.hasAddr || e.addr = other.addr) && (!e.hasNum || e.num = other.num)

/-- `purge_data`. -/
def purgeData (e : SymEv) : SymEv := { e with written := none, expected := none }

/-- `clear_observed`. -/
def clearObserved (e : SymEv) : SymEv :=
  if e.kind = .store then { e with kind := .unobsStore } else e

/-! ## Kinds of effects -/

/-- `symev_is_load`. -/
def isLoad (e : SymEv) : Bool := e.kind = .load || e.kind = .cmpxhgFail

/-- `symev_is_unobs_store`. -/
def isUnobsStore (e : SymEv) : Bool := e.kind = .unobsStore

/-- `symev_is_store`. -/
def isStore (e : SymEv) : Bool := e.kind = .unobsStore || e.kind = .store

/-- `symev_does_load`. -/
def doesLoad (e : SymEv) : Bool :=
  e.kind = .load || e.kind = .cmpxhg || e.kind = .cmpxhgFail || e.kind = .fullmem

/-- `symev_has_pid`. -/
def hasPid (e : SymEv) : Bool := e.kind = .spawn || e.kind = .join

/-- `do_symevs_conflict`.  The source passes the threads too and does not
read them. -/
def doSymevsConflict (e f : SymEv) : Bool :=
  if e.kind = .nondet ∨ f.kind = .nondet then false
  else if e.kind = .fullmem ∨ f.kind = .fullmem then true
  else if e.isLoad && f.isLoad then false
  else if e.isUnobsStore && f.isUnobsStore && e.addr = f.addr then false
  else e.hasAddr && f.hasAddr && e.addr.overlaps f.addr

theorem doSymevsConflict_comm (e f : SymEv) :
    e.doSymevsConflict f = f.doSymevsConflict e := by
  unfold doSymevsConflict
  rw [SymAddrSize.overlaps_comm, Bool.and_comm e.hasAddr, Bool.and_comm e.isLoad,
    Bool.and_comm e.isUnobsStore]
  simp only [or_comm (a := e.kind = _), eq_comm (a := e.addr)]

/-- The kind decides all tests on an event but those on `arg`. -/
theorem same_iff {e f : SymEv} :
    e.same f = true ↔ e.kind = f.kind ∧ (e.hasAddr = true → e.addr = f.addr) ∧
      (e.hasNum = true → e.num = f.num) := by
  unfold same
  cases e.hasAddr <;> cases e.hasNum <;> simp [and_assoc]

theorem hasAddr_of_isUnobsStore {e : SymEv} (h : e.isUnobsStore = true) :
    e.hasAddr = true := by
  simp only [isUnobsStore, decide_eq_true_eq] at h
  simp [hasAddr, h]

theorem hasNum_of_hasPid {e : SymEv} (h : e.hasPid = true) : e.hasNum = true := by
  simp only [hasPid, Bool.or_eq_true, decide_eq_true_eq] at h
  rcases h with h | h <;> simp [hasNum, h]

theorem doSymevsConflict_congr {e e' : SymEv} (h : e.same e' = true) (f : SymEv) :
    e.doSymevsConflict f = e'.doSymevsConflict f := by
  obtain ⟨hkind, haddr, -⟩ := same_iff.mp h
  have hload : e.isLoad = e'.isLoad := by unfold isLoad; rw [hkind]
  have hunobs : e.isUnobsStore = e'.isUnobsStore := by unfold isUnobsStore; rw [hkind]
  have hhas : e.hasAddr = e'.hasAddr := by unfold hasAddr; rw [hkind]
  unfold doSymevsConflict
  by_cases hE : e.hasAddr = true
  · rw [hkind, hload, hunobs, hhas, haddr hE]
  · have hU : e.isUnobsStore = false := by
      by_contra hU
      exact hE (hasAddr_of_isUnobsStore (by simpa using hU))
    rw [Bool.not_eq_true] at hE
    rw [← hkind, ← hload, ← hunobs, ← hhas, hU, hE]
    rfl

end SymEv

/-! ## Steps -/

/-- `sym_ty`: the symbolic events of one step. -/
abbrev Sym := List SymEv

namespace Sym

/-- `operator==` of two lists of symbolic events. -/
def same : Sym → Sym → Bool
  | [], [] => true
  | e :: es, f :: fs => e.same f && same es fs
  | _, _ => false

/-- `clear_observed`. -/
def clearObserved (es : Sym) : Sym := es.map SymEv.clearObserved

/-- Some event names the thread of `pid`: real and auxiliary threads alternate. -/
def namesThread (es : Sym) (pid : Nat) : Bool :=
  es.any fun e => e.hasPid && e.num = pid / 2

theorem namesThread_congr {es fs : Sym} (h : es.same fs = true) (pid : Nat) :
    es.namesThread pid = fs.namesThread pid := by
  induction es generalizing fs with
  | nil =>
    cases fs with
    | nil => rfl
    | cons f fs => cases h
  | cons e es ih =>
    cases fs with
    | nil => cases h
    | cons f fs =>
      obtain ⟨hef, hrest⟩ := (Bool.and_eq_true_iff).mp h
      obtain ⟨hkind, -, hnum⟩ := SymEv.same_iff.mp hef
      have hpid : e.hasPid = f.hasPid := by unfold SymEv.hasPid; rw [hkind]
      have hhead : (e.hasPid && decide (e.num = pid / 2)) =
          (f.hasPid && decide (f.num = pid / 2)) := by
        rw [← hpid]
        cases hE : e.hasPid with
        | false => rfl
        | true => rw [hnum (SymEv.hasNum_of_hasPid hE)]
      unfold namesThread at ih ⊢
      rw [List.any_cons, List.any_cons, hhead, ih hrest]

theorem any_congr {es fs : Sym} {p : SymEv → Bool}
    (hp : ∀ e f : SymEv, e.same f = true → p e = p f) (h : es.same fs = true) :
    es.any p = fs.any p := by
  induction es generalizing fs with
  | nil =>
    cases fs with
    | nil => rfl
    | cons f fs => cases h
  | cons e es ih =>
    cases fs with
    | nil => cases h
    | cons f fs =>
      obtain ⟨hef, hrest⟩ := (Bool.and_eq_true_iff).mp h
      rw [List.any_cons, List.any_cons, hp e f hef, ih hrest]

end Sym

/-- `do_events_conflict`: the first loop looks for a spawn or join of the other
thread and for a conflict of two symbolic events, the second one for a spawn
or join the other way. -/
def doEventsConflict (fstPid : Nat) (fst : Sym) (sndPid : Nat) (snd : Sym) : Bool :=
  fstPid = sndPid ||
  (fst.any fun fe => (fe.hasPid && fe.num = sndPid / 2) ||
    snd.any fun se => fe.doSymevsConflict se) ||
  (snd.any fun se => se.hasPid && se.num = fstPid / 2)

/-- The two loops are three tests. -/
theorem doEventsConflict_eq (fstPid : Nat) (fst : Sym) (sndPid : Nat) (snd : Sym) :
    doEventsConflict fstPid fst sndPid snd =
      (fstPid = sndPid || fst.namesThread sndPid || snd.namesThread fstPid ||
        fst.any fun fe => snd.any fun se => fe.doSymevsConflict se) := by
  have hsplit : (fst.any fun fe => (fe.hasPid && decide (fe.num = sndPid / 2)) ||
      snd.any fun se => fe.doSymevsConflict se) =
      (fst.namesThread sndPid || fst.any fun fe => snd.any fun se => fe.doSymevsConflict se) := by
    rw [Bool.eq_iff_iff]
    simp only [Sym.namesThread, List.any_eq_true, Bool.or_eq_true]
    constructor
    · rintro ⟨fe, hmem, hnames | hconf⟩
      · exact .inl ⟨fe, hmem, hnames⟩
      · exact .inr ⟨fe, hmem, hconf⟩
    · rintro (⟨fe, hmem, hnames⟩ | ⟨fe, hmem, hconf⟩)
      · exact ⟨fe, hmem, .inl hnames⟩
      · exact ⟨fe, hmem, .inr hconf⟩
  unfold doEventsConflict
  rw [hsplit]
  show (_ || (_ || _) || snd.namesThread fstPid) = _
  cases decide (fstPid = sndPid) <;> cases fst.namesThread sndPid <;>
    cases snd.namesThread fstPid <;> simp

/-- The steps of one thread are in order. -/
@[simp] theorem doEventsConflict_self (pid : Nat) (fst snd : Sym) :
    doEventsConflict pid fst pid snd = true := by
  simp [doEventsConflict]

theorem doEventsConflict_comm (fstPid : Nat) (fst : Sym) (sndPid : Nat) (snd : Sym) :
    doEventsConflict fstPid fst sndPid snd = doEventsConflict sndPid snd fstPid fst := by
  rw [doEventsConflict_eq, doEventsConflict_eq]
  have hany : (fst.any fun fe => snd.any fun se => fe.doSymevsConflict se) =
      (snd.any fun se => fst.any fun fe => se.doSymevsConflict fe) := by
    rw [Bool.eq_iff_iff]
    simp only [List.any_eq_true]
    constructor
    · rintro ⟨fe, hfe, se, hse, h⟩
      exact ⟨se, hse, fe, hfe, SymEv.doSymevsConflict_comm se fe ▸ h⟩
    · rintro ⟨se, hse, fe, hfe, h⟩
      exact ⟨fe, hfe, se, hse, SymEv.doSymevsConflict_comm fe se ▸ h⟩
  rw [hany, Bool.or_assoc _ (fst.namesThread _), Bool.or_comm (fst.namesThread _),
    ← Bool.or_assoc]
  simp only [eq_comm (a := fstPid)]

/-- A conflict does not depend on the data of a step. -/
theorem doEventsConflict_congr {fst fst' : Sym} (h : fst.same fst' = true)
    (fstPid sndPid : Nat) (snd : Sym) :
    doEventsConflict fstPid fst sndPid snd = doEventsConflict fstPid fst' sndPid snd := by
  rw [doEventsConflict_eq, doEventsConflict_eq, Sym.namesThread_congr h]
  congr 1
  refine Sym.any_congr ?_ h
  intro e f hef
  congr 1
  funext se
  exact SymEv.doSymevsConflict_congr hef se

end Tso

end ViEqui
