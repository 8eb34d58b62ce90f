import Mathlib.Data.List.Induction
import ViEqui.Tso.RaceDetect

/-!
# Compare-exchanges that are run again

`recompute_cmpxhg_success` of `src/TSOTraceBuilder.cpp` collects the bytes that
a compare-exchange reads backwards, from the last write to each.

* `execute`: the memory that a sequence of events leaves, byte by byte.
* `Found.view`: a byte that was found, or else what the memory in front of the
  events still to come has there.  One event passes from its view after the
  event to the view before (`revRecomputeData_spec`).
* `recomputeCmpxhgSuccess_reexecutes`: the outcomes are those of a run.
-/

namespace ViEqui.Tso

/-! ## Memory -/

/-- A memory by bytes. -/
abbrev Memory := SymAddr → UInt8

namespace Memory

/-- All bytes are zero at the start. -/
def zero : Memory := fun _ => 0

/-- The bytes of an address range. -/
def contents (m : Memory) (a : SymAddrSize) : List UInt8 := a.bytes.map m

/-- The block is copied to the address range. -/
def write (m : Memory) (a : SymAddrSize) (block : Block) : Memory := fun x =>
  if a.includes x then (block.getD []).getD (x.offset - a.offset) 0 else m x

end Memory

namespace SymEv

/-- The event is a compare-exchange, successful or not. -/
def isCmpxhg (e : SymEv) : Bool := e.kind = .cmpxhg || e.kind = .cmpxhgFail

/-- The event stores its block: a plain store or a compare-exchange recorded as
a success. -/
def writes (e : SymEv) : Bool :=
  e.kind = .store || e.kind = .unobsStore || e.kind = .cmpxhg

/-- The compare-exchange succeeds on the memory. -/
def succeeds (e : SymEv) (m : Memory) : Bool :=
  (e.expected.getD []).take e.addr.size = m.contents e.addr

/-- The event with its recorded outcome. -/
def exec (m : Memory) (e : SymEv) : Memory :=
  if e.writes then m.write e.addr e.written else m

/-- The event, the memory decides on a compare-exchange. -/
def step (m : Memory) (e : SymEv) : Memory :=
  if e.isStore || (e.isCmpxhg && e.succeeds m) then m.write e.addr e.written else m

/-- Loads, stores and compare-exchanges are the only accesses, and the last two
have their data. -/
def CarriesData (e : SymEv) : Prop :=
  e.kind ≠ .rmw ∧ e.kind ≠ .fullmem ∧
  (e.isStore ∨ e.isCmpxhg → ∃ bytes, e.written = some bytes ∧ e.addr.size ≤ bytes.length) ∧
  (e.isCmpxhg → ∃ bytes, e.expected = some bytes ∧ e.addr.size ≤ bytes.length)

end SymEv

/-- The events with their recorded outcomes. -/
def execute (m : Memory) (l : Sym) : Memory := l.foldl SymEv.exec m

/-- The events, the memory decides on each compare-exchange. -/
def run (m : Memory) (l : Sym) : Memory := l.foldl SymEv.step m

/-- Each compare-exchange has the outcome that the memory in front of it
decides. -/
def RunsAsRecorded (m : Memory) (l : Sym) : Prop :=
  ∀ front e back, l = front ++ e :: back → e.isCmpxhg →
    (e.kind = .cmpxhg ↔ e.succeeds (run m front))

namespace SymEv

theorem writes_iff (e : SymEv) :
    e.writes = true ↔ e.isStore = true ∨ e.kind = .cmpxhg := by
  unfold writes isStore
  simp only [Bool.or_eq_true, decide_eq_true_eq]
  constructor
  · rintro ((h | h) | h)
    · exact .inl (.inr h)
    · exact .inl (.inl h)
    · exact .inr h
  · rintro ((h | h) | h)
    · exact .inl (.inr h)
    · exact .inl (.inl h)
    · exact .inr h

theorem isCmpxhg_of_kind {e : SymEv} (h : e.kind = .cmpxhg) : e.isCmpxhg = true := by
  simp [isCmpxhg, h]

/-- The recorded outcome is the one of the memory. -/
theorem exec_eq_step {e : SymEv} {m : Memory}
    (h : e.isCmpxhg → (e.kind = .cmpxhg ↔ e.succeeds m)) : e.exec m = e.step m := by
  have hwrites : e.writes = (e.isStore || (e.isCmpxhg && e.succeeds m)) := by
    rw [Bool.eq_iff_iff, writes_iff, Bool.or_eq_true, Bool.and_eq_true]
    refine or_congr_right ?_
    constructor
    · intro hkind
      have hx := isCmpxhg_of_kind hkind
      exact ⟨hx, (h hx).mp hkind⟩
    · intro ⟨hx, hsucceeds⟩
      exact (h hx).mpr hsucceeds
  unfold exec step
  rw [hwrites]

end SymEv

theorem run_append (m : Memory) (l l' : Sym) : run m (l ++ l') = run (run m l) l' :=
  List.foldl_append

theorem execute_append (m : Memory) (l l' : Sym) :
    execute m (l ++ l') = execute (execute m l) l' :=
  List.foldl_append

/-- A sequence with the outcomes of a run executes as it runs. -/
theorem execute_eq_run {m : Memory} {l : Sym} (h : RunsAsRecorded m l) :
    execute m l = run m l := by
  induction l using List.reverseRecOn with
  | nil => rfl
  | append_singleton l e ih =>
    have hfront : RunsAsRecorded m l := by
      intro front e' back hl
      exact h front e' (back ++ [e]) (by rw [hl, List.append_assoc, List.cons_append])
    rw [execute_append, run_append, ih hfront]
    exact SymEv.exec_eq_step (h l e [] rfl)

/-! ## Bytes found backwards -/

namespace Found

/-- The bytes as they are when the memory in front is `m`. -/
def view (ref : SymAddrSize) (f : Found) (m : Memory) (x : SymAddr) : UInt8 :=
  if x ∈ f.needed then m x else f.data.getD (x.offset - ref.offset) 0

/-- The data has the size of the range, and is zero where it is needed. -/
structure Ok (ref : SymAddrSize) (f : Found) : Prop where
  length : f.data.length = ref.size
  within : ∀ x ∈ f.needed, ref.includes x
  zero : ∀ x ∈ f.needed, f.data.getD (x.offset - ref.offset) 0 = 0

/-- What is found for the range when the search starts. -/
def start (ref : SymAddrSize) : Found := ⟨List.replicate ref.size 0, ref.bytes⟩

theorem ok_start (ref : SymAddrSize) : (start ref).Ok ref where
  length := List.length_replicate
  within x hx := SymAddrSize.mem_bytes.mp hx
  zero x _ := by
    show (List.replicate ref.size 0).getD _ 0 = 0
    rw [List.getD_eq_getElem?_getD, List.getElem?_replicate]
    split <;> rfl

theorem view_start {ref : SymAddrSize} {x : SymAddr} (m : Memory) (h : ref.includes x) :
    (start ref).view ref m x = m x :=
  if_pos (SymAddrSize.mem_bytes.mpr h)

/-- Nothing was written to what is still needed. -/
theorem Ok.data_eq {ref : SymAddrSize} {f : Found} (h : f.Ok ref) :
    f.data = ref.bytes.map (f.view ref .zero) := by
  refine List.ext_getElem ?_ fun k hk hk' => ?_
  · rw [h.length, List.length_map, SymAddrSize.bytes, List.length_map, List.length_range]
  · have hat : f.data[k] = f.data.getD (ref.offset + k - ref.offset) 0 := by
      rw [Nat.add_sub_cancel_left, List.getD_eq_getElem?_getD, List.getElem?_eq_getElem hk]
      rfl
    rw [List.getElem_map]
    simp only [SymAddrSize.bytes, List.getElem_map, List.getElem_range]
    rw [view]
    split
    · next hneeded => exact hat.trans (h.zero _ hneeded)
    · exact hat

end Found

theorem offset_lt_of_includes {a : SymAddrSize} {x : SymAddr} (h : a.includes x = true) :
    x.offset - a.offset < a.size := by
  simp only [SymAddrSize.includes, Bool.and_eq_true, decide_eq_true_eq] at h
  omega

/-- Two bytes of a range are the same when they have the same place in it. -/
theorem eq_of_sub_eq {a : SymAddrSize} {x y : SymAddr} (hx : a.includes x = true)
    (hy : a.includes y = true) (h : x.offset - a.offset = y.offset - a.offset) : x = y := by
  simp only [SymAddrSize.includes, Bool.and_eq_true, decide_eq_true_eq] at hx hy
  obtain ⟨xblock, xoffset⟩ := x
  obtain ⟨yblock, yoffset⟩ := y
  dsimp only at hx hy h
  congr 1
  · exact hx.1.1.symm.trans hy.1.1
  · omega

/-- One byte is taken from the block, if it is needed. -/
theorem takeByte_spec {ref : SymAddrSize} {p : SymEv} {f : Found} {a : SymAddr}
    {bytes : List UInt8} (hok : f.Ok ref) (hwritten : p.written = some bytes)
    (hsize : p.addr.size ≤ bytes.length) (ha : p.addr.includes a) :
    ∃ f', takeByte ref p f a = some f' ∧ f'.Ok ref ∧
      ∀ m x, ref.includes x → f'.view ref m x =
        f.view ref (fun y => if y = a then bytes.getD (a.offset - p.addr.offset) 0 else m y) x := by
  have hlt : a.offset - p.addr.offset < bytes.length :=
    Nat.lt_of_lt_of_le (offset_lt_of_includes ha) hsize
  have hget : bytes[a.offset - p.addr.offset]? =
      some (bytes.getD (a.offset - p.addr.offset) 0) := by
    rw [List.getD_eq_getElem?_getD, List.getElem?_eq_getElem hlt]
    rfl
  by_cases hneeded : a ∈ f.needed
  · have hwithin := hok.within a hneeded
    have hplace : a.offset - ref.offset < f.data.length := by
      rw [hok.length]
      exact offset_lt_of_includes hwithin
    have hother : ∀ x, ref.includes x → x ≠ a → ∀ byte,
        (f.data.set (a.offset - ref.offset) byte).getD (x.offset - ref.offset) 0 =
          f.data.getD (x.offset - ref.offset) 0 := by
      intro x hx hne byte
      rw [List.getD_eq_getElem?_getD, List.getD_eq_getElem?_getD, List.getElem?_set_ne]
      intro heq
      exact hne (eq_of_sub_eq hwithin hx heq).symm
    refine ⟨⟨f.data.set (a.offset - ref.offset) (bytes.getD (a.offset - p.addr.offset) 0),
      f.needed.filter (· ≠ a)⟩, ?_, ⟨?_, ?_, ?_⟩, ?_⟩
    · rw [takeByte, if_pos hneeded, hwritten, Option.bind_some, hget]
      rfl
    · rw [List.length_set, hok.length]
    · intro x hx
      exact hok.within x (List.mem_of_mem_filter hx)
    · intro x hx
      obtain ⟨hmem, hne⟩ := List.mem_filter.mp hx
      rw [hother x (hok.within x hmem) (by simpa using hne)]
      exact hok.zero x hmem
    · intro m x hx
      unfold Found.view
      by_cases hxa : x = a
      · subst hxa
        rw [if_neg (by simp), if_pos hneeded]
        dsimp only
        rw [if_pos rfl, List.getD_eq_getElem?_getD, List.getElem?_set_self hplace]
        rfl
      · simp only [List.mem_filter, decide_eq_true_eq, hxa, ne_eq, not_false_eq_true,
          and_true, if_false]
        rw [hother x hx hxa]
  · refine ⟨f, by rw [takeByte, if_neg hneeded], hok, ?_⟩
    intro m x _
    unfold Found.view
    by_cases hx : x ∈ f.needed
    · have hxa : x ≠ a := fun h => hneeded (h ▸ hx)
      rw [if_pos hx, if_pos hx]
      exact (if_neg hxa).symm
    · rw [if_neg hx, if_neg hx]

/-- The loop over the bytes of a store. -/
theorem takeBytes_spec {ref : SymAddrSize} {p : SymEv} {bytes : List UInt8}
    (hwritten : p.written = some bytes) (hsize : p.addr.size ≤ bytes.length)
    (as : List SymAddr) (has : ∀ a ∈ as, p.addr.includes a) (f : Found) (hok : f.Ok ref) :
    ∃ f', as.foldlM (takeByte ref p) f = some f' ∧ f'.Ok ref ∧
      ∀ m x, ref.includes x → f'.view ref m x =
        f.view ref (fun y => if y ∈ as then bytes.getD (y.offset - p.addr.offset) 0 else m y) x := by
  induction as generalizing f with
  | nil => exact ⟨f, rfl, hok, fun m x _ => by simp [Found.view]⟩
  | cons a as ih =>
    obtain ⟨f₁, htake, hok₁, hview₁⟩ :=
      takeByte_spec hok hwritten hsize (has a List.mem_cons_self)
    obtain ⟨f', hfold, hok', hview'⟩ :=
      ih (fun b hb => has b (List.mem_cons_of_mem a hb)) f₁ hok₁
    refine ⟨f', by rw [List.foldlM_cons, htake]; exact hfold, hok', ?_⟩
    intro m x hx
    rw [hview' m x hx, hview₁ _ x hx]
    congr 1
    funext y
    by_cases hya : y = a
    · subst hya
      simp
    · simp [hya]

theorem not_includes_of_not_overlaps {a b : SymAddrSize} {x : SymAddr}
    (h : a.overlaps b = false) (hx : a.includes x = true) : b.includes x = false := by
  rw [← Bool.not_eq_true] at h ⊢
  intro hb
  apply h
  simp only [SymAddrSize.overlaps, SymAddrSize.includes, Bool.and_eq_true,
    decide_eq_true_eq] at hx hb ⊢
  refine ⟨⟨hx.1.1.trans hb.1.1.symm, ?_⟩, ?_⟩ <;> omega

/-- One event takes the view behind it to the view in front of it. -/
theorem revRecomputeData_spec {ref : SymAddrSize} {p : SymEv} {f : Found} (hok : f.Ok ref)
    (hp : p.CarriesData) :
    ∃ f', revRecomputeData ref f p = some f' ∧ f'.Ok ref ∧
      ∀ m x, ref.includes x → f'.view ref m x = f.view ref (p.exec m) x := by
  by_cases hwrites : p.writes = true
  · have hbody : revRecomputeData ref f p =
        if ref.overlaps p.addr then p.addr.bytes.foldlM (takeByte ref p) f else some f := by
      unfold revRecomputeData
      simp only [SymEv.writes, Bool.or_eq_true, decide_eq_true_eq] at hwrites
      rcases hwrites with (h | h) | h <;> rw [h]
    have hdata : p.isStore = true ∨ p.isCmpxhg = true :=
      ((p.writes_iff).mp hwrites).imp_right SymEv.isCmpxhg_of_kind
    obtain ⟨bytes, hwritten, hsize⟩ := hp.2.2.1 hdata
    have hexec : ∀ m, p.exec m = m.write p.addr p.written := fun m => if_pos hwrites
    rw [hbody]
    by_cases hoverlaps : ref.overlaps p.addr = true
    · obtain ⟨f', hfold, hok', hview⟩ := takeBytes_spec hwritten hsize p.addr.bytes
        (fun a ha => SymAddrSize.mem_bytes.mp ha) f hok
      refine ⟨f', by rw [if_pos hoverlaps]; exact hfold, hok', ?_⟩
      intro m x hx
      rw [hview m x hx, hexec m]
      congr 1
      funext y
      simp only [SymAddrSize.mem_bytes, Memory.write, hwritten, Option.getD_some]
    · rw [Bool.not_eq_true] at hoverlaps
      refine ⟨f, by rw [hoverlaps]; rfl, hok, ?_⟩
      intro m x hx
      have hout := not_includes_of_not_overlaps hoverlaps hx
      have hsame : p.exec m x = m x := by
        rw [hexec m, Memory.write, hout]
        rfl
      unfold Found.view
      rw [hsame]
  · have hbody : revRecomputeData ref f p = some f := by
      unfold revRecomputeData
      split
      · next h => exact absurd (by simp [SymEv.writes, h]) hwrites
      · next h => exact absurd (by simp [SymEv.writes, h]) hwrites
      · next h => exact absurd (by simp [SymEv.writes, h]) hwrites
      · rfl
    refine ⟨f, hbody, hok, ?_⟩
    intro m x _
    rw [SymEv.exec, if_neg hwrites]

/-- The scan backwards over a sequence. -/
theorem revRecompute_spec {ref : SymAddrSize} (l : Sym) (hl : ∀ e ∈ l, e.CarriesData)
    (f : Found) (hok : f.Ok ref) :
    ∃ f', l.reverse.foldlM (revRecomputeData ref) f = some f' ∧ f'.Ok ref ∧
      ∀ m x, ref.includes x → f'.view ref m x = f.view ref (execute m l) x := by
  induction l using List.reverseRecOn generalizing f with
  | nil => exact ⟨f, rfl, hok, fun _ _ _ => rfl⟩
  | append_singleton l p ih =>
    obtain ⟨f₁, hstep, hok₁, hview₁⟩ := revRecomputeData_spec hok (hl p (by simp))
    obtain ⟨f', hfold, hok', hview'⟩ :=
      ih (fun e he => hl e (List.mem_append_left [p] he)) f₁ hok₁
    refine ⟨f', ?_, hok', ?_⟩
    · rw [List.reverse_append, List.reverse_singleton, List.singleton_append,
        List.foldlM_cons, hstep]
      exact hfold
    · intro m x hx
      rw [hview' m x hx, hview₁ _ x hx, execute_append]
      rfl

/-- What is found for a range is what the execution leaves there. -/
theorem revRecompute_contents (ref : SymAddrSize) {l : Sym} (hl : ∀ e ∈ l, e.CarriesData) :
    ∃ f', l.reverse.foldlM (revRecomputeData ref) (Found.start ref) = some f' ∧
      f'.data = (execute .zero l).contents ref := by
  obtain ⟨f', hfold, hok, hview⟩ := revRecompute_spec l hl _ (Found.ok_start ref)
  refine ⟨f', hfold, ?_⟩
  rw [hok.data_eq]
  refine List.map_congr_left fun x hx => ?_
  have hx := SymAddrSize.mem_bytes.mp hx
  rw [hview _ x hx, Found.view_start _ hx]

/-! ## The outcomes -/

/-- A compare-exchange with the outcome that the memory decides. -/
def SymEv.redo (m : Memory) (e : SymEv) : SymEv :=
  if e.isCmpxhg then
    if e.succeeds m then .cmpXhg e.addr e.written e.expected
    else .cmpXhgFail e.addr e.written e.expected
  else e

namespace SymEv

theorem redo_of_not_isCmpxhg {e : SymEv} (m : Memory) (h : e.isCmpxhg = false) :
    e.redo m = e := by
  rw [redo, h]
  rfl

/-- Only the kind of a compare-exchange may change. -/
theorem redo_of_isCmpxhg {e : SymEv} (m : Memory) (h : e.isCmpxhg = true) :
    (e.redo m).isCmpxhg = true ∧ (e.redo m).addr = e.addr ∧
      (e.redo m).written = e.written ∧ (e.redo m).expected = e.expected ∧
      ((e.redo m).kind = .cmpxhg ↔ e.succeeds m = true) := by
  unfold redo
  rw [if_pos h]
  split
  · next hs => exact ⟨rfl, rfl, rfl, rfl, fun _ => hs, fun _ => rfl⟩
  · next hs => exact ⟨rfl, rfl, rfl, rfl, (fun h => nomatch h), fun h => absurd h hs⟩

/-- The outcome is also the one of the event that is made. -/
theorem kind_redo_iff {e : SymEv} {m : Memory} (h : (e.redo m).isCmpxhg = true) :
    (e.redo m).kind = .cmpxhg ↔ (e.redo m).succeeds m = true := by
  by_cases hx : e.isCmpxhg = true
  · obtain ⟨_, haddr, _, hexpected, hkind⟩ := redo_of_isCmpxhg m hx
    unfold succeeds
    rw [haddr, hexpected]
    exact hkind
  · rw [redo_of_not_isCmpxhg m (by simpa using hx)] at h
    exact absurd h hx

theorem CarriesData.redo {e : SymEv} (h : e.CarriesData) (m : Memory) :
    (e.redo m).CarriesData := by
  by_cases hx : e.isCmpxhg = true
  · obtain ⟨hx', haddr, hwritten, hexpected, _⟩ := redo_of_isCmpxhg m hx
    have hkind : (e.redo m).kind = .cmpxhg ∨ (e.redo m).kind = .cmpxhgFail := by
      simpa [isCmpxhg] using hx'
    refine ⟨?_, ?_, ?_, ?_⟩
    · rcases hkind with h | h <;> simp [h]
    · rcases hkind with h | h <;> simp [h]
    · intro _
      rw [hwritten, haddr]
      exact h.2.2.1 (.inr hx)
    · intro _
      rw [hexpected, haddr]
      exact h.2.2.2 hx
  · rw [redo_of_not_isCmpxhg m (by simpa using hx)]
    exact h

end SymEv

/-- The events of a branch, behind those that were run again. -/
theorem recomputeCmpxhgSuccess_redo (history : Sym) (hhistory : ∀ e ∈ history, e.CarriesData)
    (es : Sym) (hes : ∀ e ∈ es, e.CarriesData) (before : Sym)
    (hbefore : ∀ e ∈ before, e.CarriesData) :
    ∃ es', recomputeCmpxhgSuccess history before es = some (before ++ es') ∧
      es'.length = es.length ∧ ∀ (k : Nat) (e : SymEv), es[k]? = some e →
        es'[k]? = some (e.redo (execute .zero (history ++ (before ++ es'.take k)))) := by
  induction es generalizing before with
  | nil => exact ⟨[], by rw [List.append_nil]; rfl, rfl, fun _ _ h => by cases h⟩
  | cons e es ih =>
    have he := hes e List.mem_cons_self
    have hrest : ∀ f ∈ es, f.CarriesData := fun f hf => hes f (List.mem_cons_of_mem e hf)
    have hall : ∀ f ∈ history ++ before, f.CarriesData := by
      intro f hf
      rcases List.mem_append.mp hf with hf | hf
      · exact hhistory f hf
      · exact hbefore f hf
    have hredo : recomputeCmpxhgSuccess history before (e :: es) =
        recomputeCmpxhgSuccess history
          (before ++ [e.redo (execute .zero (history ++ before))]) es := by
      by_cases hx : e.isCmpxhg = true
      · obtain ⟨f', hfound, hdata⟩ := revRecompute_contents e.addr hall
        obtain ⟨bytes, hexpected, _⟩ := he.2.2.2 hx
        have hkind : e.kind = .cmpxhg ∨ e.kind = .cmpxhgFail := by
          simpa [SymEv.isCmpxhg] using hx
        unfold Found.start at hfound
        rw [recomputeCmpxhgSuccess, if_pos hkind, hfound, Option.bind_some, hexpected,
          Option.bind_some, hdata, SymEv.redo, if_pos hx]
        simp only [SymEv.succeeds, hexpected, Option.getD_some, decide_eq_true_eq]
      · have hkind : ¬(e.kind = .cmpxhg ∨ e.kind = .cmpxhgFail) := by
          simpa [SymEv.isCmpxhg] using hx
        rw [recomputeCmpxhgSuccess, if_neg hkind,
          SymEv.redo_of_not_isCmpxhg _ (by simpa using hx)]
    obtain ⟨es', hsome, hlength, hat⟩ := ih hrest
      (before ++ [e.redo (execute .zero (history ++ before))]) (by
        intro f hf
        rcases List.mem_append.mp hf with hf | hf
        · exact hbefore f hf
        · rw [List.mem_singleton.mp hf]
          exact he.redo _)
    refine ⟨e.redo (execute .zero (history ++ before)) :: es', ?_, ?_, ?_⟩
    · rw [hredo, hsome, List.append_assoc, List.singleton_append]
    · rw [List.length_cons, List.length_cons, hlength]
    · intro k f hk
      cases k with
      | zero =>
        cases hk
        rw [List.take_zero, List.append_nil]
        rfl
      | succ k =>
        have := hat k f hk
        rw [List.append_assoc, List.singleton_append] at this
        exact this

/-- What `recompute_cmpxhg_success` makes of `es` behind `history`: the
compare-exchanges get the outcomes of an execution, in a history with the
outcomes of a run those of the run. -/
def Reexecutes (history es es' : Sym) : Prop :=
  es'.length = es.length ∧
  (∀ (k : Nat) (e : SymEv), es[k]? = some e → ∃ e', es'[k]? = some e' ∧
    (e.isCmpxhg = false → e' = e) ∧
    (e.isCmpxhg = true → e'.isCmpxhg = true ∧ e'.addr = e.addr ∧ e'.written = e.written ∧
      e'.expected = e.expected ∧
      (e'.kind = .cmpxhg ↔
        (e.expected.getD []).take e.addr.size =
          (execute .zero (history ++ es'.take k)).contents e.addr))) ∧
  (RunsAsRecorded .zero history → RunsAsRecorded .zero (history ++ es'))

/-- Events with the outcomes of the execution in front of them. -/
theorem runsAsRecorded_append {history es' : Sym} (h : RunsAsRecorded .zero history)
    (hes' : ∀ (k : Nat) (e' : SymEv), es'[k]? = some e' → e'.isCmpxhg = true →
      (e'.kind = .cmpxhg ↔ e'.succeeds (execute .zero (history ++ es'.take k)) = true)) :
    RunsAsRecorded .zero (history ++ es') := by
  induction es' using List.reverseRecOn with
  | nil =>
    rw [List.append_nil]
    exact h
  | append_singleton l e ih =>
    have hl : RunsAsRecorded .zero (history ++ l) := by
      refine ih fun k e' hk hx => ?_
      have hlt := (List.getElem?_eq_some_iff.mp hk).1
      have hat := hes' k e' (by rw [List.getElem?_append_left hlt, hk]) hx
      rwa [List.take_append_of_le_length (Nat.le_of_lt hlt)] at hat
    intro front f back hsplit hx
    rw [← List.append_assoc] at hsplit
    rcases List.eq_nil_or_concat back with rfl | ⟨back, g, rfl⟩
    · obtain ⟨hfront, hf⟩ := List.append_inj' hsplit rfl
      obtain rfl := List.head_eq_of_cons_eq hf
      have hat := hes' l.length e (by simp) hx
      rw [List.take_left, execute_eq_run hl, hfront] at hat
      exact hat
    · rw [List.concat_eq_append, ← List.cons_append, ← List.append_assoc] at hsplit
      exact hl front f back (List.append_inj' hsplit rfl).1 hx

/-- A compare-exchange of `es` is a success exactly if the memory that the
execution up to `i`, then `v` and then the events in front of it leave has the
expected bytes. -/
theorem recomputeCmpxhgSuccess_reexecutes (events : List Event) (i : Nat) (v : List Branch)
    (es : Sym) (hevents : ∀ e ∈ (events.take i).flatMap Event.sym, e.CarriesData)
    (hv : ∀ e ∈ v.flatMap Branch.sym, e.CarriesData) (hes : ∀ e ∈ es, e.CarriesData) :
    ∃ es', recomputeCmpxhgSuccess
        ((events.take i).flatMap Event.sym ++ v.flatMap Branch.sym) [] es = some es' ∧
      Reexecutes ((events.take i).flatMap Event.sym ++ v.flatMap Branch.sym) es es' := by
  have hhistory : ∀ e ∈ (events.take i).flatMap Event.sym ++ v.flatMap Branch.sym,
      e.CarriesData := by
    intro e he
    rcases List.mem_append.mp he with he | he
    · exact hevents e he
    · exact hv e he
  generalize (events.take i).flatMap Event.sym ++ v.flatMap Branch.sym = history at hhistory ⊢
  obtain ⟨es', hsome, hlength, hat⟩ :=
    recomputeCmpxhgSuccess_redo history hhistory es hes [] (by simp)
  refine ⟨es', hsome, hlength, ?_, ?_⟩
  · intro k e hk
    refine ⟨_, hat k e hk, SymEv.redo_of_not_isCmpxhg _, ?_⟩
    intro hx
    obtain ⟨hx', haddr, hwritten, hexpected, hkind⟩ := SymEv.redo_of_isCmpxhg
      (execute .zero (history ++ es'.take k)) hx
    refine ⟨hx', haddr, hwritten, hexpected, hkind.trans ?_⟩
    simp only [SymEv.succeeds, decide_eq_true_eq]
  · intro hruns
    refine runsAsRecorded_append hruns fun k e' hk hx => ?_
    have hlt := (List.getElem?_eq_some_iff.mp hk).1
    rw [hlength] at hlt
    have hredo : es'[k]? = some (es[k].redo (execute .zero (history ++ es'.take k))) :=
      hat k _ (List.getElem?_eq_getElem hlt)
    obtain rfl := Option.some.inj (hredo.symm.trans hk)
    exact SymEv.kind_redo_iff hx

/-- A store to the bytes 0 and 1. -/
def storedPair : List Event := [{ iid := ⟨0, 1⟩, sym := [.store ⟨.global 0, 0, 2⟩ (some [1, 2])] }]

/-- A store to the bytes 1 and 2. -/
def shiftedStore : List Branch := [{ pid := 2, sym := [.store ⟨.global 0, 1, 2⟩ (some [3, 4])] }]

/-- A compare-exchange of the bytes 0 and 1 that turns into a success, and one
of the bytes 1 and 2, which then reads a byte of it and fails. -/
def overlappingCmpxhgs : Sym :=
  [.cmpXhgFail ⟨.global 0, 0, 2⟩ (some [5, 6]) (some [1, 3]),
    .cmpXhg ⟨.global 0, 1, 2⟩ (some [7, 8]) (some [3, 4])]

theorem recomputeCmpxhgSuccess_reexecutes_overlap :
    ∃ es', recomputeCmpxhgSuccess
        ((storedPair.take 1).flatMap Event.sym ++ shiftedStore.flatMap Branch.sym) []
        overlappingCmpxhgs = some es' ∧
      Reexecutes ((storedPair.take 1).flatMap Event.sym ++ shiftedStore.flatMap Branch.sym)
        overlappingCmpxhgs es' :=
  recomputeCmpxhgSuccess_reexecutes storedPair 1 shiftedStore overlappingCmpxhgs
    (by simp [storedPair, SymEv.CarriesData, SymEv.store, SymEv.isStore, SymEv.isCmpxhg])
    (by simp [shiftedStore, SymEv.CarriesData, SymEv.store, SymEv.isStore, SymEv.isCmpxhg])
    (by simp [overlappingCmpxhgs, SymEv.CarriesData, SymEv.cmpXhg, SymEv.cmpXhgFail,
      SymEv.isStore, SymEv.isCmpxhg])

end ViEqui.Tso
