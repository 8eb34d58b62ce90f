import ViEqui.Tso.Builder
import ViEqui.Tso.Conflicts

/-!
# A sleeping thread

What a dry run notes of a thread, and which accesses wake it.

* `Thread.Notes t fs`: the bytes and the flag of `t` are those of the symbolic
  events `fs`.
* `Thread.noteEvent`: one more event.
* `Thread.Notes.woken_iff`: a thread is woken by the accesses of an event
  exactly when the event hits one of those that it sleeps with.
* `getElem?_wakeThreads`: several accesses, one after the other.
-/

namespace ViEqui

theorem SymAddrSize.includes_addr {a : SymAddrSize} (ha : 0 < a.size) :
    a.includes a.addr = true := by
  simp only [includes, addr, Bool.and_eq_true, decide_eq_true_eq]
  exact ⟨⟨trivial, by simp⟩, by simpa using ha⟩

theorem SymAddrSize.overlaps_iff {a b : SymAddrSize} (ha : 0 < a.size) (hb : 0 < b.size) :
    a.overlaps b = true ↔ ∃ x, a.includes x = true ∧ b.includes x = true := by
  simp only [overlaps, includes, Bool.and_eq_true, decide_eq_true_eq]
  constructor
  · rintro ⟨⟨hblock, hba⟩, hab⟩
    refine ⟨⟨a.block, max a.offset b.offset⟩, ⟨⟨rfl, ?_⟩, ?_⟩, ⟨hblock.symm, ?_⟩, ?_⟩ <;>
      simp only <;> omega
  · rintro ⟨x, ⟨⟨hax, hlow⟩, hhigh⟩, ⟨hbx, hlow'⟩, hhigh'⟩
    exact ⟨⟨hax.trans hbx.symm, by omega⟩, by omega⟩

namespace Tso

/-! ## Accesses -/

/-- The calls of `wakeup` that come with an event. -/
def SymEv.accesses (e : SymEv) : List Access :=
  if e.role = .fullmem then [.wAllMemory]
  else (if e.role.wakesRead then e.addr.bytes.map .r else []) ++
    if e.role.wakesWrite then e.addr.bytes.map .w else []

/-- The event can be noted: it is one that the builder records, and its bytes
are at least one. -/
def SymEv.Notable (e : SymEv) : Prop :=
  e.recorded = true ∧ (e.role.hasAddr = true → 0 < e.addr.size)

namespace Thread

/-! ## Notes of a dry run -/

/-- What a dry run of an event leaves. -/
def noteEvent (t : Thread) (e : SymEv) : Thread :=
  { t with
    sleepSym := t.sleepSym.map (· ++ [e])
    sleepAccessesR := t.sleepAccessesR ++ if e.role.notesRead then e.addr.bytes else []
    sleepAccessesW := t.sleepAccessesW ++ if e.role.notesWrite then e.addr.bytes else []
    sleepFullMemoryConflict := t.sleepFullMemoryConflict || decide (e.role = .fullmem) }

/-- The bytes `bs` are those of the events of `fs` with a role in `notes`. -/
def Noted (bs : List SymAddr) (fs : Sym) (notes : Role → Bool) : Prop :=
  ∀ b, b ∈ bs ↔ ∃ f ∈ fs, notes f.role = true ∧ f.addr.includes b = true

/-- The notes of a sleeping thread are those of its symbolic events. -/
structure Notes (t : Thread) (fs : Sym) : Prop where
  sym : t.sleepSym = some fs
  notable : ∀ f ∈ fs, f.Notable
  read : Noted t.sleepAccessesR fs Role.notesRead
  written : Noted t.sleepAccessesW fs Role.notesWrite
  full : t.sleepFullMemoryConflict = true ↔ ∃ f ∈ fs, f.role = .fullmem

/-- Only a sleeping thread has notes, and no store is pending. -/
structure Consistent (t : Thread) : Prop where
  noStores : t.storeBuffer = []
  awake : t.sleeping = false → t.sleepAccessesR = [] ∧ t.sleepAccessesW = [] ∧
    t.sleepFullMemoryConflict = false
  asleep : t.sleeping = true → ∃ fs, t.Notes fs

theorem consistent_new : ({} : Thread).Consistent :=
  ⟨rfl, fun _ => ⟨rfl, rfl, rfl⟩, fun h => by cases h⟩

theorem Consistent.woken {t : Thread} (h : t.Consistent) : t.woken.Consistent :=
  ⟨h.noStores, fun _ => ⟨rfl, rfl, rfl⟩, fun h => by cases h⟩

theorem Consistent.putToSleep {t : Thread} (h : t.Consistent) (hawake : t.sleeping = false) :
    ({ t with sleeping := true, sleepSym := some [] } : Thread).Consistent := by
  obtain ⟨hr, hw, hfull⟩ := h.awake hawake
  refine ⟨h.noStores, fun h => (by cases h), fun _ => ⟨[], rfl, ?_, ?_, ?_, ?_⟩⟩
  · simp
  · simp [Noted, hr]
  · simp [Noted, hw]
  · simp [hfull]

theorem Notes.noteEvent {t : Thread} {fs : Sym} (h : t.Notes fs) {e : SymEv} (he : e.Notable) :
    (t.noteEvent e).Notes (fs ++ [e]) := by
  refine ⟨by simp [Thread.noteEvent, h.sym], ?_, ?_, ?_, ?_⟩
  · intro f hf
    rcases List.mem_append.mp hf with hf | hf
    · exact h.notable f hf
    · obtain rfl := List.mem_singleton.mp hf
      exact he
  · intro b
    cases hnote : e.role.notesRead <;>
      simp [Thread.noteEvent, hnote, h.read b, or_and_right, exists_or]
  · intro b
    cases hnote : e.role.notesWrite <;>
      simp [Thread.noteEvent, hnote, h.written b, or_and_right, exists_or]
  · simp [Thread.noteEvent, h.full, or_and_right, exists_or]

theorem Consistent.noteEvent {t : Thread} (h : t.Consistent) (hsleep : t.sleeping = true)
    {e : SymEv} (he : e.Notable) : (t.noteEvent e).Consistent := by
  obtain ⟨fs, hfs⟩ := h.asleep hsleep
  exact ⟨h.noStores, fun h' => absurd hsleep (by simp [show t.sleeping = false from h']),
    fun _ => ⟨fs ++ [e], hfs.noteEvent he⟩⟩

theorem Consistent.noteEvents {t : Thread} (h : t.Consistent) (hsleep : t.sleeping = true)
    {es : Sym} (hes : ∀ e ∈ es, e.Notable) :
    (es.foldl Thread.noteEvent t).Consistent ∧
      (es.foldl Thread.noteEvent t).sleeping = true := by
  induction es generalizing t with
  | nil => exact ⟨h, hsleep⟩
  | cons e es ih =>
    obtain ⟨he, hes⟩ := List.forall_mem_cons.mp hes
    exact ih (h.noteEvent hsleep he) hsleep hes

/-! ## What wakes a thread -/

theorem hasPendingStore_eq {t : Thread} (h : t.storeBuffer = []) (ml : SymAddr) :
    t.hasPendingStore ml = false := by
  unfold hasPendingStore
  rw [h]
  rfl

theorem wakesOn_wAllMemory {t : Thread} (h : t.storeBuffer = []) (p pid : Nat) :
    t.wakesOn p pid .wAllMemory = true ↔ t.sleepFullMemoryConflict = true ∨
      (∃ b, b ∈ t.sleepAccessesW) ∨ ∃ b, b ∈ t.sleepAccessesR := by
  simp only [wakesOn, hasPendingStore_eq h, Bool.or_eq_true, Bool.not_eq_true',
    List.isEmpty_eq_false_iff_exists_mem, List.any_eq_true, Bool.not_false, and_true, or_assoc]

theorem wakesOn_r {t : Thread} {p pid : Nat} (hp : p % 2 = pid % 2) (ml : SymAddr) :
    t.wakesOn p pid (.r ml) = true ↔
      t.sleepFullMemoryConflict = true ∨ ml ∈ t.sleepAccessesW := by
  have hne : p ≠ pid + 1 := by omega
  simp [wakesOn, hne]

theorem wakesOn_w {t : Thread} (h : t.storeBuffer = []) {p pid : Nat} (hp : p % 2 = pid % 2)
    (ml : SymAddr) :
    t.wakesOn p pid (.w ml) = true ↔ t.sleepFullMemoryConflict = true ∨
      ml ∈ t.sleepAccessesW ∨ ml ∈ t.sleepAccessesR := by
  have hne : p + 1 ≠ pid := by omega
  simp [wakesOn, hne, hasPendingStore_eq h]

/-- A thread that was just woken is not woken again. -/
theorem wakesOn_woken (t : Thread) (p pid : Nat) (access : Access) :
    t.woken.wakesOn p pid access = false := by
  cases access <;> simp [wakesOn, woken]

section Noted

variable {bs : List SymAddr} {fs : Sym} {notes : Role → Bool}

theorem Noted.exists_mem (h : Noted bs fs notes) (hfs : ∀ f ∈ fs, f.Notable)
    (hnotes : ∀ r, notes r = true → r.hasAddr = true) :
    (∃ b, b ∈ bs) ↔ ∃ f ∈ fs, notes f.role = true := by
  constructor
  · intro ⟨b, hb⟩
    obtain ⟨f, hf, hnote, -⟩ := (h b).mp hb
    exact ⟨f, hf, hnote⟩
  · intro ⟨f, hf, hnote⟩
    have hsize := (hfs f hf).2 (hnotes f.role hnote)
    exact ⟨f.addr.addr, (h _).mpr ⟨f, hf, hnote, SymAddrSize.includes_addr hsize⟩⟩

theorem Noted.exists_shared (h : Noted bs fs notes) (hfs : ∀ f ∈ fs, f.Notable)
    (hnotes : ∀ r, notes r = true → r.hasAddr = true) {a : SymAddrSize} (ha : 0 < a.size) :
    (∃ b, a.includes b = true ∧ b ∈ bs) ↔
      ∃ f ∈ fs, notes f.role = true ∧ a.overlaps f.addr = true := by
  constructor
  · intro ⟨b, hb, hbs⟩
    obtain ⟨f, hf, hnote, hfb⟩ := (h b).mp hbs
    have hsize := (hfs f hf).2 (hnotes f.role hnote)
    exact ⟨f, hf, hnote, (SymAddrSize.overlaps_iff ha hsize).mpr ⟨b, hb, hfb⟩⟩
  · intro ⟨f, hf, hnote, ho⟩
    have hsize := (hfs f hf).2 (hnotes f.role hnote)
    obtain ⟨b, hb, hfb⟩ := (SymAddrSize.overlaps_iff ha hsize).mp ho
    exact ⟨b, hb, (h b).mpr ⟨f, hf, hnote, hfb⟩⟩

end Noted

/-- The accesses of an event with role `fullmem`. -/
theorem Notes.woken_of_fullmem {t : Thread} {fs : Sym} (h : t.Notes fs)
    (hstores : t.storeBuffer = []) {e : SymEv} (he : e.role = .fullmem) (p pid : Nat) :
    (∃ a ∈ e.accesses, t.wakesOn p pid a = true) ↔ ∃ f ∈ fs, e.hits f = true := by
  have haccesses : e.accesses = [.wAllMemory] := if_pos he
  have hhits (f : SymEv) : e.hits f = true ↔
      f.role = .fullmem ∨ f.role.notesWrite = true ∨ f.role.notesRead = true := by
    unfold SymEv.hits
    rw [he]
    simp [Role.hits, or_assoc, or_comm (a := f.role.notesRead = true)]
  rw [haccesses]
  simp only [List.mem_singleton, exists_eq_left, wakesOn_wAllMemory hstores, h.full,
    h.written.exists_mem h.notable @Role.hasAddr_of_notesWrite,
    h.read.exists_mem h.notable @Role.hasAddr_of_notesRead, hhits, and_or_left, exists_or]

theorem SymEv.exists_access {e : SymEv} (he : e.role ≠ .fullmem) (q : Access → Prop) :
    (∃ a ∈ e.accesses, q a) ↔
      (e.role.wakesRead = true ∧ ∃ b, e.addr.includes b = true ∧ q (.r b)) ∨
      (e.role.wakesWrite = true ∧ ∃ b, e.addr.includes b = true ∧ q (.w b)) := by
  unfold SymEv.accesses
  rw [if_neg he]
  cases e.role.wakesRead <;> cases e.role.wakesWrite <;> simp [or_and_right, exists_or]

/-- An event of an operation wakes a thread exactly when it hits an event that
the thread sleeps with. -/
theorem Notes.woken_iff {t : Thread} {fs : Sym} (h : t.Notes fs) (hstores : t.storeBuffer = [])
    {e : SymEv} (he : e.Notable) {p pid : Nat} (hp : p % 2 = pid % 2) :
    (∃ a ∈ e.accesses, t.wakesOn p pid a = true) ↔ ∃ f ∈ fs, e.hits f = true := by
  by_cases hfull : e.role = .fullmem
  · exact h.woken_of_fullmem hstores hfull p pid
  have hhits : (∃ f ∈ fs, e.hits f = true) ↔
      (e.role.wakesRead = true ∨ e.role.wakesWrite = true) ∧
        (t.sleepFullMemoryConflict = true ∨
          (∃ f ∈ fs, f.role.notesWrite = true ∧ e.addr.overlaps f.addr = true) ∨
          e.role.wakesWrite = true ∧
            ∃ f ∈ fs, f.role.notesRead = true ∧ e.addr.overlaps f.addr = true) := by
    rw [h.full]
    simp only [SymEv.hits, Role.hits, if_neg hfull, Bool.and_eq_true, Bool.or_eq_true,
      decide_eq_true_eq]
    grind
  rw [SymEv.exists_access hfull, hhits]
  by_cases hwakes : e.role.wakesRead = true ∨ e.role.wakesWrite = true
  · have hsize := he.2 (Role.hasAddr_of_wakes hwakes)
    have hsome : ∃ b, e.addr.includes b = true := ⟨_, SymAddrSize.includes_addr hsize⟩
    have hwritten := h.written.exists_shared h.notable @Role.hasAddr_of_notesWrite hsize
    have hread := h.read.exists_shared h.notable @Role.hasAddr_of_notesRead hsize
    simp only [wakesOn_r hp, wakesOn_w hstores hp, and_or_left, exists_or, exists_and_right,
      hsome, true_and, hwritten, hread]
    cases hr : e.role.wakesRead <;> cases hw : e.role.wakesWrite <;>
      simp [hr, hw] at hwakes ⊢
    grind
  · simp only [not_or] at hwakes
    simp [hwakes.1, hwakes.2]

end Thread

/-- A thread is woken when one of the accesses wakes it. -/
theorem getElem?_wakeThreads (pid : Nat) (as : List Access) (threads : List Thread) (p : Nat) :
    (as.foldl (wakeThreads pid) threads)[p]? = threads[p]?.map fun t =>
      if as.any (t.wakesOn p pid) then t.woken else t := by
  induction as generalizing threads with
  | nil => simp
  | cons a as ih =>
    rw [List.foldl_cons, ih]
    simp only [wakeThreads, List.getElem?_mapIdx, Option.map_map]
    congr 1
    funext t
    show (if as.any ((if t.wakesOn p pid a then t.woken else t).wakesOn p pid) then _ else _) = _
    cases ha : t.wakesOn p pid a with
    | true =>
      have hno : as.any (t.woken.wakesOn p pid) = false := by
        simp [Thread.wakesOn_woken]
      simp [ha, hno]
    | false => simp [ha]

end Tso

end ViEqui
