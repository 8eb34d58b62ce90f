import ViEqui.Tso.SymEv

/-!
# What wakes a sleeper

A sleeping thread is remembered twice: by the symbolic events of its next step,
and by the bytes that the step reads and writes.  The operations record the
one, and `wakeup` reads the other.

* `Role`: the symbolic events by what they note for a sleeper, and by the
  calls of `wakeup` that they come with.
* `SymEv.hits`: an event wakes a thread that sleeps with another one.
* `SymEv.doSymevsConflict_eq`: an event conflicts with another one exactly
  when it hits it, but for pairs of events that are `overlooked` or
  `spurious`.
-/

namespace ViEqui.Tso

/-- The events by their effect on sleep sets: `init` are the initialisations,
`sync` the other operations of mutexes and condition variables. -/
inductive Role where
  | other | fullmem | thread | load | store | unobsStore | cmpxhg | init | sync | wait | awake
deriving DecidableEq, Repr

namespace Role

/-- A dry run notes the bytes as read. -/
def notesRead : Role → Bool
  | load | cmpxhg | wait => true
  | _ => false

/-- A dry run notes the bytes as written. -/
def notesWrite : Role → Bool
  | store | unobsStore | cmpxhg | init | sync => true
  | _ => false

/-- The operation calls `wakeup` with a read of its bytes. -/
def wakesRead : Role → Bool
  | load | cmpxhg | wait => true
  | _ => false

/-- The operation calls `wakeup` with a write of its bytes. -/
def wakesWrite : Role → Bool
  | store | unobsStore | cmpxhg | sync => true
  | _ => false

def hasAddr : Role → Bool
  | other | fullmem | thread => false
  | _ => true

/-- An event of role `e` wakes a thread that sleeps with an event of role `f`,
where `o` says if their bytes overlap. -/
def hits (e f : Role) (o : Bool) : Bool :=
  if e = fullmem then f = fullmem || f.notesRead || f.notesWrite
  else (e.wakesRead || e.wakesWrite) &&
    (f = fullmem || o && (f.notesWrite || e.wakesWrite && f.notesRead))

/-- The conflicts that wake nobody: an initialisation never calls `wakeup`, and
neither does the end of a wait for its condition variable; of a sleeper, a dry
run notes nothing for the end of a wait, a spawn or a join; and a wait only
reads its condition variable. -/
def overlooked : Role → Role → Bool → Bool
  | init, fullmem, _ | awake, fullmem, _ => true
  | init, f, o | awake, f, o => f.hasAddr && o
  | fullmem, awake, _ | fullmem, thread, _ => true
  | e, awake, o => e.hasAddr && o
  | wait, load, o | wait, wait, o | load, wait, o => o
  | _, _, _ => false

theorem hasAddr_of_notesRead {f : Role} (h : f.notesRead = true) : f.hasAddr = true := by
  cases f <;> first | rfl | cases h

theorem hasAddr_of_notesWrite {f : Role} (h : f.notesWrite = true) : f.hasAddr = true := by
  cases f <;> first | rfl | cases h

theorem hasAddr_of_wakes {e : Role} (h : e.wakesRead = true ∨ e.wakesWrite = true) :
    e.hasAddr = true := by
  cases e <;> first | rfl | (simp [wakesRead, wakesWrite] at h)

end Role

namespace SymEv

/-- The role of an event that the builder records. -/
def role (e : SymEv) : Role :=
  match e.kind with
  | .fullmem => .fullmem
  | .spawn | .join => .thread
  | .load | .cmpxhgFail => .load
  | .store => .store
  | .unobsStore => .unobsStore
  | .cmpxhg => .cmpxhg
  | .mInit | .cInit => .init
  | .mLock | .mUnlock | .mDelete | .cSignal | .cBrdcst | .cDelete => .sync
  | .cWait => .wait
  | .cAwake => .awake
  | _ => .other

/-- The kinds of events that the builder records. -/
def recorded (e : SymEv) : Bool :=
  match e.kind with
  | .none | .rmw | .mTryLock | .mTryLockFail => false
  | _ => true

/-- `e` wakes a thread that sleeps with `f`. -/
def hits (e f : SymEv) : Bool := e.role.hits f.role (e.addr.overlaps f.addr)

def overlooked (e f : SymEv) : Bool := e.role.overlooked f.role (e.addr.overlaps f.addr)

/-- Two unobserved stores to the same bytes do not conflict, but `wakeup` makes
no difference between them and other stores. -/
def spurious (e f : SymEv) : Bool :=
  e.role = .unobsStore && f.role = .unobsStore && e.addr = f.addr && e.addr.overlaps f.addr

theorem hasAddr_eq_role {e : SymEv} (h : e.recorded = true) :
    e.hasAddr = e.role.hasAddr := by
  unfold hasAddr role
  unfold recorded at h
  cases hk : e.kind <;> simp [hk, Role.hasAddr] at h ⊢

theorem nondet_iff_role {e : SymEv} (h : e.recorded = true) :
    e.kind = .nondet ↔ e.role = .other := by
  unfold role
  unfold recorded at h
  cases hk : e.kind <;> simp [hk] at h ⊢

theorem fullmem_iff_role (e : SymEv) : e.kind = .fullmem ↔ e.role = .fullmem := by
  unfold role
  cases e.kind <;> simp

theorem isLoad_eq_role (e : SymEv) : e.isLoad = decide (e.role = .load) := by
  unfold isLoad role
  cases e.kind <;> rfl

theorem isUnobsStore_eq_role (e : SymEv) :
    e.isUnobsStore = decide (e.role = .unobsStore) := by
  unfold isUnobsStore role
  cases e.kind <;> rfl

theorem hasPid_eq_role (e : SymEv) : e.hasPid = decide (e.role = .thread) := by
  unfold hasPid role
  cases e.kind <;> rfl

/-- An event of an operation conflicts with the event of a sleeper when it hits
it, or the conflict is overlooked. -/
theorem doSymevsConflict_eq {e f : SymEv} (he : e.recorded = true) (hf : f.recorded = true)
    (hop : e.role ≠ .other ∧ e.role ≠ .thread) :
    e.doSymevsConflict f = (e.hits f && !e.spurious f || e.overlooked f) := by
  unfold doSymevsConflict hits spurious overlooked
  simp only [nondet_iff_role he, nondet_iff_role hf, fullmem_iff_role, isLoad_eq_role,
    isUnobsStore_eq_role, hasAddr_eq_role he, hasAddr_eq_role hf]
  generalize e.role = er at hop ⊢
  generalize f.role = fr
  generalize e.addr.overlaps f.addr = o
  generalize decide (e.addr = f.addr) = same
  revert o same
  cases er with
  | other => exact absurd rfl hop.1
  | thread => exact absurd rfl hop.2
  | _ =>
    cases fr <;> decide

end SymEv

end ViEqui.Tso
