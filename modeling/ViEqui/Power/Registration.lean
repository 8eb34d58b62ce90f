import ViEqui.Power.Bytes
import Mathlib.Data.Finset.Max

/-!
# Registering the accesses of an event

The addresses and the data of an event are registered access by access, in any order.
`Registered` relates what the event holds to the calls that were made, and each call keeps
it.  `fetch_registered` says what a fetched event holds after all of them.
-/

namespace ViEqui.Power

/-! ## The calls -/

/-- A call that registers the address or the data of an access. -/
inductive Call where
  | addr (a : Nat) (m : MRef)
  | data (a : Nat) (d : List UInt8)
deriving DecidableEq

section Registered

variable (l s : Nat) (addr : Nat → MRef) (data : Nat → List UInt8)

/-- All calls for an event with `l` loads and `s` stores. -/
def allCalls : List Call :=
  (List.range (l + s)).map (fun a => .addr a (addr a)) ++
    (List.range' l s).map fun a => .data a (data a)

variable (done : List Call)

/-- Access `k` is known to go to the byte. -/
def Covers (k p : Nat) : Prop := .addr k (addr k) ∈ done ∧ (addr k).includes p = true

/-- Store `k` is the last one that is known to go to the byte. -/
structure Last (k p : Nat) : Prop where
  store : l ≤ k ∧ k < l + s
  covers : Covers addr done k p
  last : ∀ k', l ≤ k' → k' < l + s → Covers addr done k' p → k' ≤ k

/-- The accesses have what was registered for them. -/
structure Known (evt : PAEvent) : Prop where
  length : evt.accesses.length = l + s
  loadCount : evt.loadCount = l
  type : ∀ k, k < l + s → (evt.access k).type = if k < l then .load else .store
  addrKnown : ∀ k, k < l + s → ((evt.access k).addrKnown = true ↔ .addr k (addr k) ∈ done)
  addr : ∀ k, k < l + s → .addr k (addr k) ∈ done → (evt.access k).addr = addr k
  dataKnown : ∀ k, k < l + s → ((evt.access k).dataKnown = true ↔ .data k (data k) ∈ done)
  data : ∀ k, k < l + s → .data k (data k) ∈ done → (evt.access k).data = data k

/-- What an event holds for a byte, after the calls that are done: a store has the data of
the last one as soon as these are there. -/
structure ByteInv (p : Nat) (b : ByteState) : Prop where
  tgt : b.isTgt ↔ ∃ k, k < l + s ∧ Covers addr done k p
  load : (∃ k, k < l ∧ Covers addr done k p) → b.loads = [{ type := .load, addr := p }]
  no_load : (¬ ∃ k, k < l ∧ Covers addr done k p) → b.loads = []
  store : ∀ k, Last l s addr done k p → ∃ B, b.stores = [B] ∧ B.type = .store ∧ B.addr = p ∧
    (.data k (data k) ∈ done →
      B.data = (data k).getD (p - (addr k).ref) 0 ∧ B.dataKnown = true)
  no_store : (∀ k, ¬ Last l s addr done k p) → b.stores = []

/-- An event after the calls that are done. -/
structure Registered (evt : PAEvent) : Prop where
  known : Known l s addr data done evt
  byte : ∀ p, ByteInv l s addr data done p (evt.byteAt p)

end Registered

variable {l s : Nat} {addr : Nat → MRef} {data : Nat → List UInt8} {done : List Call}
  {evt evt' : PAEvent} {a k p : Nat} {b : ByteState}

/-- There is a last store if there is one. -/
theorem exists_last (h : ∃ k, (l ≤ k ∧ k < l + s) ∧ Covers addr done k p) :
    ∃ k, Last l s addr done k p := by
  classical
  obtain ⟨k, hk, hcovers⟩ := h
  have hmem : k ∈ (Finset.range (l + s)).filter fun k => l ≤ k ∧ Covers addr done k p := by
    simp [hk, hcovers]
  obtain ⟨m, hm, hmax⟩ := Finset.exists_max_image _ id ⟨k, hmem⟩
  simp only [Finset.mem_filter, Finset.mem_range] at hm hmax
  exact ⟨m, ⟨hm.2.1, hm.1⟩, hm.2.2, fun k' hl hk' hc => hmax k' ⟨hk', hl, hc⟩⟩

theorem Last.unique {k' : Nat} (h : Last l s addr done k p) (h' : Last l s addr done k' p) :
    k = k' :=
  le_antisymm (h'.last k h.store.1 h.store.2 h.covers) (h.last k' h'.store.1 h'.store.2 h'.covers)

/-- The last element of a filtered range. -/
theorem getLast?_filter_range {P : Nat → Bool} {n : Nat}
    (h : ((List.range n).filter P).getLast? = some k) :
    (k < n ∧ P k = true) ∧ ∀ k', k' < n → P k' = true → k' ≤ k := by
  have hmem := List.mem_of_getLast? h
  rw [List.mem_filter, List.mem_range] at hmem
  refine ⟨hmem, fun k' hk' hP => ?_⟩
  have hk'mem : k' ∈ (List.range n).filter P := List.mem_filter.mpr ⟨List.mem_range.mpr hk', hP⟩
  have hsorted : ((List.range n).filter P).Pairwise (· < ·) := List.pairwise_lt_range.filter _
  obtain ⟨init, hinit⟩ := List.getLast?_eq_some_iff.mp h
  rw [hinit] at hk'mem hsorted
  rcases List.mem_append.mp hk'mem with hk'mem | hk'mem
  · exact ((List.pairwise_append.mp hsorted).2.2 k' hk'mem k (List.mem_singleton_self k)).le
  · exact (List.mem_singleton.mp hk'mem).le

/-! ## One call -/

theorem addr_mem_cons_data {d : List UInt8} (m : MRef) :
    Call.addr k m ∈ Call.data a d :: done ↔ Call.addr k m ∈ done := by simp

theorem data_mem_cons_addr {m : MRef} (d : List UInt8) :
    Call.data k d ∈ Call.addr a m :: done ↔ Call.data k d ∈ done := by simp

theorem addr_mem_cons_of_ne {m m' : MRef} (h : k ≠ a) :
    Call.addr k m ∈ Call.addr a m' :: done ↔ Call.addr k m ∈ done := by simp [h]

theorem data_mem_cons_of_ne {d d' : List UInt8} (h : k ≠ a) :
    Call.data k d ∈ Call.data a d' :: done ↔ Call.data k d ∈ done := by simp [h]

theorem Known.same (h : Known l s addr data done evt) (hsame : PAEvent.SameAccesses evt evt') :
    Known l s addr data done evt' where
  length := by rw [hsame.accesses, h.length]
  loadCount := hsame.loadCount.trans h.loadCount
  type := by rw [hsame.access]; exact h.type
  addrKnown := by rw [hsame.access]; exact h.addrKnown
  addr := by rw [hsame.access]; exact h.addr
  dataKnown := by rw [hsame.access]; exact h.dataKnown
  data := by rw [hsame.access]; exact h.data

theorem Known.withAddr (h : Known l s addr data done evt) (ha : a < l + s) :
    Known l s addr data (.addr a (addr a) :: done) (evt.withAddr a (addr a)) := by
  have hget := PAEvent.access_withAddr (show a < evt.accesses.length by rwa [h.length]) (addr a)
  refine ⟨?_, h.loadCount, ?_, ?_, ?_, ?_, ?_⟩
  · exact (List.length_modify _ _ _).trans h.length
  · intro k hk
    rw [← h.type k hk, hget k]
    split_ifs <;> rfl
  · intro k hk
    rw [hget k]
    by_cases hka : k = a
    · subst hka
      simp
    · rw [if_neg hka, addr_mem_cons_of_ne hka]
      exact h.addrKnown k hk
  · intro k hk hmem
    rw [hget k]
    by_cases hka : k = a
    · subst hka
      rw [if_pos rfl]
    · rw [if_neg hka]
      exact h.addr k hk ((addr_mem_cons_of_ne hka).mp hmem)
  · intro k hk
    rw [hget k, data_mem_cons_addr]
    split_ifs with hka
    · exact h.dataKnown k hk
    · exact h.dataKnown k hk
  · intro k hk hmem
    rw [hget k]
    split_ifs with hka
    · exact h.data k hk ((data_mem_cons_addr _).mp hmem)
    · exact h.data k hk ((data_mem_cons_addr _).mp hmem)

theorem Known.withData (h : Known l s addr data done evt) (ha : a < l + s) :
    Known l s addr data (.data a (data a) :: done) (evt.withData a (data a)) := by
  have hget := PAEvent.access_withData (show a < evt.accesses.length by rwa [h.length]) (data a)
  refine ⟨?_, h.loadCount, ?_, ?_, ?_, ?_, ?_⟩
  · exact (List.length_modify _ _ _).trans h.length
  · intro k hk
    rw [← h.type k hk, hget k]
    split_ifs <;> rfl
  · intro k hk
    rw [hget k, addr_mem_cons_data]
    split_ifs with hka
    · exact h.addrKnown k hk
    · exact h.addrKnown k hk
  · intro k hk hmem
    rw [hget k]
    split_ifs with hka
    · exact h.addr k hk ((addr_mem_cons_data _).mp hmem)
    · exact h.addr k hk ((addr_mem_cons_data _).mp hmem)
  · intro k hk
    rw [hget k]
    by_cases hka : k = a
    · subst hka
      simp
    · rw [if_neg hka, data_mem_cons_of_ne hka]
      exact h.dataKnown k hk
  · intro k hk hmem
    rw [hget k]
    by_cases hka : k = a
    · subst hka
      rw [if_pos rfl]
    · rw [if_neg hka]
      exact h.data k hk ((data_mem_cons_of_ne hka).mp hmem)

theorem covers_cons_addr :
    Covers addr (.addr a (addr a) :: done) k p ↔
      (k = a ∧ (addr a).includes p = true) ∨ Covers addr done k p := by
  unfold Covers
  by_cases hka : k = a
  · subst hka
    simp only [List.mem_cons_self, true_and]
    constructor
    · exact Or.inl
    · rintro (h | h)
      · exact h
      · exact h.2
  · rw [addr_mem_cons_of_ne hka]
    simp [hka]

theorem covers_cons_data {d : List UInt8} :
    Covers addr (.data a d :: done) k p ↔ Covers addr done k p := by
  unfold Covers
  rw [addr_mem_cons_data]

theorem last_congr {done' : List Call} (h : ∀ k, l ≤ k → k < l + s →
    (Covers addr done' k p ↔ Covers addr done k p)) :
    Last l s addr done' k p ↔ Last l s addr done k p := by
  constructor
  · intro hk
    exact ⟨hk.store, (h k hk.store.1 hk.store.2).mp hk.covers,
      fun k' hl hs hc => hk.last k' hl hs ((h k' hl hs).mpr hc)⟩
  · intro hk
    exact ⟨hk.store, (h k hk.store.1 hk.store.2).mpr hk.covers,
      fun k' hl hs hc => hk.last k' hl hs ((h k' hl hs).mp hc)⟩

/-- A call that is not about the byte. -/
theorem ByteInv.congr {done' : List Call} (h : ByteInv l s addr data done p b)
    (hcovers : ∀ k, k < l + s → (Covers addr done' k p ↔ Covers addr done k p))
    (hdata : ∀ k, Last l s addr done k p → .data k (data k) ∈ done' → .data k (data k) ∈ done) :
    ByteInv l s addr data done' p b := by
  have hlast (k : Nat) : Last l s addr done' k p ↔ Last l s addr done k p :=
    last_congr fun k _ hk => hcovers k hk
  have hloads : (∃ k, k < l ∧ Covers addr done' k p) ↔ ∃ k, k < l ∧ Covers addr done k p := by
    apply exists_congr
    intro k
    apply and_congr_right
    intro hk
    exact hcovers k (by omega)
  refine ⟨?_, ?_, ?_, ?_, ?_⟩
  · rw [h.tgt]
    apply exists_congr
    intro k
    apply and_congr_right
    intro hk
    exact (hcovers k hk).symm
  · intro hk
    exact h.load (hloads.mp hk)
  · intro hk
    exact h.no_load fun hk' => hk (hloads.mpr hk')
  · intro k hk
    obtain ⟨B, hB, htype, haddr, hBdata⟩ := h.store k ((hlast k).mp hk)
    exact ⟨B, hB, htype, haddr, fun hmem => hBdata (hdata k ((hlast k).mp hk) hmem)⟩
  · intro hk
    exact h.no_store fun k hk' => hk k ((hlast k).mpr hk')

/-- Which other accesses go to the byte, while access `a` is entered. -/
theorem Known.overlaps_iff (h : Known l s addr data (.addr a (addr a) :: done) evt)
    (hnew : .addr a (addr a) ∉ done) (hk : k < l + s) :
    evt.overlaps a p k = true ↔ Covers addr done k p := by
  unfold PAEvent.overlaps Covers
  by_cases hka : k = a
  · subst hka
    simp [hnew]
  · have hknown := h.addrKnown k hk
    rw [addr_mem_cons_of_ne hka] at hknown
    rw [Bool.and_eq_true, Bool.and_eq_true, hknown, decide_eq_true_eq]
    constructor
    · rintro ⟨⟨_, hmem⟩, hp⟩
      rw [h.addr k hk ((addr_mem_cons_of_ne hka).mpr hmem)] at hp
      exact ⟨hmem, hp⟩
    · rintro ⟨hmem, hp⟩
      rw [h.addr k hk ((addr_mem_cons_of_ne hka).mpr hmem)]
      exact ⟨⟨hka, hmem⟩, hp⟩

theorem Known.lastOther_cases (h : Known l s addr data (.addr a (addr a) :: done) evt)
    (hnew : .addr a (addr a) ∉ done) :
    (evt.lastOther a p = none ∧ ∀ k, ¬ Last l s addr done k p) ∨
      ∃ k, evt.lastOther a p = some k ∧ Last l s addr done k p := by
  have htest : ∀ k, k < l + s → ((decide (evt.loadCount ≤ k) && evt.overlaps a p k) = true ↔
      l ≤ k ∧ Covers addr done k p) := by
    intro k hk
    rw [Bool.and_eq_true, decide_eq_true_eq, h.loadCount, h.overlaps_iff hnew hk]
  cases hlast : evt.lastOther a p with
  | none =>
    refine Or.inl ⟨rfl, fun k hk => ?_⟩
    rw [PAEvent.lastOther, List.getLast?_eq_none_iff, List.filter_eq_nil_iff, h.length] at hlast
    exact hlast k (List.mem_range.mpr hk.store.2)
      ((htest k hk.store.2).mpr ⟨hk.store.1, hk.covers⟩)
  | some k =>
    refine Or.inr ⟨k, rfl, ?_⟩
    rw [PAEvent.lastOther, h.length] at hlast
    obtain ⟨⟨hk, hP⟩, hmax⟩ := getLast?_filter_range hlast
    obtain ⟨hlk, hcovers⟩ := (htest k hk).mp hP
    exact ⟨⟨hlk, hk⟩, hcovers, fun k' hl' hk' hc => hmax k' hk' ((htest k' hk').mpr ⟨hl', hc⟩)⟩

/-- A load is entered. -/
theorem ByteInv.enter_load (h : ByteInv l s addr data done p b)
    (hknown : Known l s addr data (.addr a (addr a) :: done) evt)
    (hnew : .addr a (addr a) ∉ done) (ha : a < l) (hp : (addr a).includes p = true) (i : Nat) :
    ByteInv l s addr data (.addr a (addr a) :: done) p (evt.enterByte a p i b) := by
  have hlast (k : Nat) :
      Last l s addr (.addr a (addr a) :: done) k p ↔ Last l s addr done k p := by
    apply last_congr
    intro k hl _
    rw [covers_cons_addr]
    exact or_iff_right fun hk => by omega
  have hany : (List.range evt.loadCount).any (evt.overlaps a p) = true ↔
      ∃ k, k < l ∧ Covers addr done k p := by
    rw [List.any_eq_true, hknown.loadCount]
    apply exists_congr
    intro k
    rw [List.mem_range]
    apply and_congr_right
    intro hk
    exact hknown.overlaps_iff hnew (by omega)
  have hload : ∃ k, k < l ∧ Covers addr (.addr a (addr a) :: done) k p :=
    ⟨a, ha, covers_cons_addr.mpr (Or.inl ⟨rfl, hp⟩)⟩
  have htgt : ∃ k, k < l + s ∧ Covers addr (.addr a (addr a) :: done) k p := by
    obtain ⟨k, hk, hcovers⟩ := hload
    exact ⟨k, by omega, hcovers⟩
  have hstore : ∀ k, Last l s addr (.addr a (addr a) :: done) k p → ∃ B, b.stores = [B] ∧
      B.type = .store ∧ B.addr = p ∧ (.data k (data k) ∈ Call.addr a (addr a) :: done →
        B.data = (data k).getD (p - (addr k).ref) 0 ∧ B.dataKnown = true) := by
    intro k hk
    obtain ⟨B, hB, htype, haddr, hdata⟩ := h.store k ((hlast k).mp hk)
    exact ⟨B, hB, htype, haddr, fun hmem => hdata ((data_mem_cons_addr _).mp hmem)⟩
  have hno_store : (∀ k, ¬ Last l s addr (.addr a (addr a) :: done) k p) → b.stores = [] :=
    fun hk => h.no_store fun k hk' => hk k ((hlast k).mpr hk')
  unfold PAEvent.enterByte
  rw [hknown.type a (by omega), if_pos ha]
  dsimp only
  split_ifs with hold
  · exact ⟨iff_of_true trivial htgt, fun _ => h.load (hany.mp hold),
      fun hnone => absurd hload hnone, hstore, hno_store⟩
  · refine ⟨iff_of_true trivial htgt, fun _ => ?_, fun hnone => absurd hload hnone, hstore,
      hno_store⟩
    show b.loads ++ _ = _
    rw [h.no_load fun hk => hold (hany.mpr hk)]
    rfl

/-- The last store, when store `a` is known as well. -/
theorem Last.eq_of_cons (k₀ : Nat) (hk : Last l s addr (.addr a (addr a) :: done) k p)
    (hal : l ≤ a) (has : a < l + s) (hp : (addr a).includes p = true)
    (hk₀ : ∀ k, l ≤ k → k < l + s → Covers addr done k p → k ≤ k₀) (hle : k₀ ≤ a) : k = a := by
  have hak : a ≤ k := hk.last a hal has (covers_cons_addr.mpr (Or.inl ⟨rfl, hp⟩))
  rcases covers_cons_addr.mp hk.covers with hka | hcovers
  · exact hka.1
  · have := hk₀ k hk.store.1 hk.store.2 hcovers
    omega

theorem Last.eq_of_cons_of_lt (hk : Last l s addr (.addr a (addr a) :: done) k p) {k₀ : Nat}
    (hk₀ : Last l s addr done k₀ p) (hlt : a < k₀) : k = k₀ := by
  have hle : k₀ ≤ k :=
    hk.last k₀ hk₀.store.1 hk₀.store.2 (covers_cons_addr.mpr (Or.inr hk₀.covers))
  rcases covers_cons_addr.mp hk.covers with hka | hcovers
  · omega
  · have := hk₀.last k hk.store.1 hk.store.2 hcovers
    omega

/-- A store is entered. -/
theorem ByteInv.enter_store (h : ByteInv l s addr data done p b)
    (hknown : Known l s addr data (.addr a (addr a) :: done) evt)
    (hnew : .addr a (addr a) ∉ done) (hal : l ≤ a) (has : a < l + s)
    (hp : (addr a).includes p = true) :
    ByteInv l s addr data (.addr a (addr a) :: done) p
      (evt.enterByte a p (p - (addr a).ref) b) := by
  have hcovers : Covers addr (.addr a (addr a) :: done) a p :=
    covers_cons_addr.mpr (Or.inl ⟨rfl, hp⟩)
  have hloads : (∃ k, k < l ∧ Covers addr (.addr a (addr a) :: done) k p) ↔
      ∃ k, k < l ∧ Covers addr done k p := by
    apply exists_congr
    intro k
    apply and_congr_right
    intro hk
    rw [covers_cons_addr]
    exact or_iff_right fun hka => by omega
  have htgt : ∃ k, k < l + s ∧ Covers addr (.addr a (addr a) :: done) k p := ⟨a, has, hcovers⟩
  have hdata : evt.access a |>.dataKnown → (evt.access a).data = data a := by
    intro hdk
    exact hknown.data a has ((hknown.dataKnown a has).mp hdk)
  have hload : (∃ k, k < l ∧ Covers addr (.addr a (addr a) :: done) k p) →
      b.loads = [{ type := .load, addr := p }] := fun hk => h.load (hloads.mp hk)
  have hno_load : (¬ ∃ k, k < l ∧ Covers addr (.addr a (addr a) :: done) k p) → b.loads = [] :=
    fun hk => h.no_load fun hk' => hk (hloads.mpr hk')
  obtain ⟨m, hm⟩ := exists_last ⟨a, ⟨hal, has⟩, hcovers⟩
  have hno_store {stores : List ByteAccess} :
      (∀ k, ¬ Last l s addr (.addr a (addr a) :: done) k p) → stores = [] :=
    fun hk => absurd hm (hk m)
  unfold PAEvent.enterByte
  rw [hknown.type a has, if_neg (by omega)]
  dsimp only
  rcases hknown.lastOther_cases hnew (p := p) with ⟨hother, hnone⟩ | ⟨k₀, hother, hk₀⟩
  · -- the first store to the byte
    rw [hother]
    refine ⟨iff_of_true trivial htgt, hload, hno_load, ?_, hno_store⟩
    intro k hk
    have hka : k = a := by
      apply hk.eq_of_cons 0 hal has hp _ (Nat.zero_le a)
      intro k' hl' hs' hc'
      obtain ⟨m', hm'⟩ := exists_last ⟨k', ⟨hl', hs'⟩, hc'⟩
      exact absurd hm' (hnone m')
    subst hka
    show ∃ B, b.stores ++ [evt.newStore k p _] = [B] ∧ _
    rw [h.no_store hnone]
    refine ⟨_, rfl, ?_, ?_, ?_⟩
    · unfold PAEvent.newStore
      split_ifs <;> rfl
    · unfold PAEvent.newStore
      split_ifs <;> rfl
    · intro hmem
      have hdk := (hknown.dataKnown k has).mpr hmem
      rw [PAEvent.newStore, if_pos hdk, hdata hdk]
      exact ⟨rfl, rfl⟩
  · rw [hother]
    dsimp only
    have hne : k₀ ≠ a := by
      rintro rfl
      exact hnew hk₀.covers.1
    obtain ⟨B, hB, htype, haddr, hBdata⟩ := h.store k₀ hk₀
    split_ifs with hover
    · -- the store overwrites the previous one
      refine ⟨iff_of_true trivial htgt, hload, hno_load, ?_, hno_store⟩
      intro k hk
      have hka := hk.eq_of_cons k₀ hal has hp hk₀.last hover.1.le
      subst hka
      refine ⟨{ B with data := (evt.access k).data.getD (p - (addr k).ref) 0, dataKnown := true },
        ?_, htype, haddr, fun _ => ⟨?_, rfl⟩⟩
      · show b.stores.modifyHead _ = _
        rw [hB]
        rfl
      · rw [hdata hover.2]
    · refine ⟨iff_of_true trivial htgt, hload, hno_load, ?_, hno_store⟩
      intro k hk
      refine ⟨B, hB, htype, haddr, fun hmem => ?_⟩
      rcases Nat.lt_or_gt_of_ne hne with hlt | hgt
      · -- its data are not there yet
        have hka := hk.eq_of_cons k₀ hal has hp hk₀.last hlt.le
        subst hka
        exact absurd ⟨hlt, (hknown.dataKnown k has).mpr hmem⟩ hover
      · have hkk₀ := hk.eq_of_cons_of_lt hk₀ hgt
        subst hkk₀
        exact hBdata ((data_mem_cons_addr _).mp hmem)

/-- `register_addr` on an access that was not registered. -/
theorem Registered.registerAddr (h : Registered l s addr data done evt)
    (hnew : .addr a (addr a) ∉ done) (ha : a < l + s) :
    Registered l s addr data (.addr a (addr a) :: done) (evt.registerAddr a (addr a)) := by
  obtain ⟨hsame, hbytes⟩ := PAEvent.registerAddr_bytes (m := addr a)
    (show a < evt.accesses.length by rwa [h.known.length])
  have hknown := h.known.withAddr ha
  refine ⟨hknown.same hsame, fun p => ?_⟩
  rw [hbytes p]
  split_ifs with hp
  · rcases Nat.lt_or_ge a l with hal | hal
    · exact (h.byte p).enter_load hknown hnew hal hp _
    · exact (h.byte p).enter_store hknown hnew hal ha hp
  · apply (h.byte p).congr
    · intro k _
      rw [covers_cons_addr]
      exact or_iff_right fun hk => hp hk.2
    · intro k _ hmem
      exact (data_mem_cons_addr _).mp hmem

/-- The data are written to the bytes that no later store is known to go to. -/
theorem Known.writes_iff (h : Known l s addr data done evt) (hal : l ≤ a) (has : a < l + s)
    (hcovers : Covers addr done a p) :
    evt.writes a (p - (addr a).ref) = true ↔ Last l s addr done a p := by
  have hp : (evt.access a).addr.ref + (p - (addr a).ref) = p := by
    have hin := hcovers.2
    simp only [MRef.includes, Bool.and_eq_true, decide_eq_true_eq] at hin
    rw [h.addr a has hcovers.1]
    omega
  have htest : ∀ k, k < l + s → ((decide (a < k) && (evt.access k).addrKnown &&
      (evt.access k).addr.includes p) = true ↔ a < k ∧ Covers addr done k p) := by
    intro k hk
    rw [Bool.and_eq_true, Bool.and_eq_true, decide_eq_true_eq, h.addrKnown k hk, and_assoc]
    apply and_congr_right
    intro _
    apply and_congr_right
    intro hmem
    rw [h.addr k hk hmem]
  unfold PAEvent.writes
  rw [hp, Bool.not_eq_true', List.any_eq_false, h.length]
  constructor
  · intro hall
    refine ⟨⟨hal, has⟩, hcovers, fun k hl hs hc => ?_⟩
    by_contra hlt
    exact hall k (List.mem_range.mpr hs) ((htest k hs).mpr ⟨by omega, hc⟩)
  · intro hlast k hk htrue
    rw [List.mem_range] at hk
    obtain ⟨hak, hc⟩ := (htest k hk).mp htrue
    have := hlast.last k (by omega) hk hc
    omega

/-- The data of the last store. -/
theorem ByteInv.write_data (h : ByteInv l s addr data done p b) (hlast : Last l s addr done a p) :
    ByteInv l s addr data (.data a (data a) :: done) p
      (PAEvent.setData ((data a).getD (p - (addr a).ref) 0) b) := by
  have hcovers (k : Nat) :
      Covers addr (.data a (data a) :: done) k p ↔ Covers addr done k p := covers_cons_data
  have hlast' (k : Nat) :
      Last l s addr (.data a (data a) :: done) k p ↔ Last l s addr done k p :=
    last_congr fun k _ _ => hcovers k
  refine ⟨?_, ?_, ?_, ?_, ?_⟩
  · simp only [hcovers]
    exact h.tgt
  · simp only [hcovers]
    exact h.load
  · simp only [hcovers]
    exact h.no_load
  · intro k hk
    have hka := ((hlast' k).mp hk).unique hlast
    subst hka
    obtain ⟨B, hB, htype, haddr, _⟩ := h.store k hlast
    refine ⟨{ B with data := (data k).getD (p - (addr k).ref) 0, dataKnown := true }, ?_, htype,
      haddr, fun _ => ⟨rfl, rfl⟩⟩
    show b.stores.modifyHead _ = _
    rw [hB]
    rfl
  · intro hnone
    exact absurd ((hlast' a).mpr hlast) (hnone a)

/-- `register_data` on a store that has no data yet. -/
theorem Registered.registerData (h : Registered l s addr data done evt) (hal : l ≤ a)
    (has : a < l + s) :
    Registered l s addr data (.data a (data a) :: done) (evt.registerData a (data a)) := by
  obtain ⟨hsame, hbytes⟩ := PAEvent.registerData_bytes evt a (data a)
  have hknown := h.known.withData has
  refine ⟨hknown.same hsame, fun p => ?_⟩
  have hother (hnot : ¬ Last l s addr done a p) :
      ByteInv l s addr data (.data a (data a) :: done) p (evt.byteAt p) := by
    apply (h.byte p).congr
    · intro k _
      exact covers_cons_data
    · intro k hk hmem
      apply (data_mem_cons_of_ne _).mp hmem
      rintro rfl
      exact hnot hk
  have hcond : (((evt.withData a (data a)).access a).addrKnown = true ∧
      ((evt.withData a (data a)).access a).addr.includes p = true) ↔ Covers addr done a p := by
    rw [hknown.addrKnown a has, addr_mem_cons_data]
    apply and_congr_right
    intro hmem
    rw [hknown.addr a has ((addr_mem_cons_data _).mpr hmem)]
  rw [hbytes p]
  by_cases hcovers : Covers addr done a p
  · rw [if_pos (hcond.mpr hcovers),
      hknown.addr a has ((addr_mem_cons_data _).mpr hcovers.1), PAEvent.dataByte]
    have hwrites := hknown.writes_iff hal has (covers_cons_data.mpr hcovers)
    rw [last_congr fun k _ _ => covers_cons_data] at hwrites
    split_ifs with hw
    · exact (h.byte p).write_data (hwrites.mp hw)
    · exact hother fun hlast => hw (hwrites.mpr hlast)
  · rw [if_neg (fun hc => hcovers (hcond.mp hc))]
    exact hother fun hlast => hcovers hlast.covers

/-- The byte access that `register_data` looks for is there. -/
theorem Registered.exists_store (h : Registered l s addr data done evt) (hal : l ≤ a)
    (has : a < l + s) (hcovers : Covers addr done a p)
    (hwrites : evt.writes a (p - (addr a).ref) = true) :
    ∃ B ∈ evt.baccesses, B.type = .store ∧ B.addr = p := by
  obtain ⟨B, hB, htype, haddr, _⟩ :=
    (h.byte p).store a ((h.known.writes_iff hal has hcovers).mp hwrites)
  have hmem : B ∈ evt.baccesses.filter (PAEvent.isStoreTo p) := by
    show B ∈ (evt.byteAt p).stores
    rw [hB]
    exact List.mem_singleton_self B
  exact ⟨B, (List.mem_filter.mp hmem).1, htype, haddr⟩

/-! ## All calls for an event -/

/-- The builder has the event. -/
def HasEvent (tb : TB) (iid : IID) : Prop :=
  iid.pid < tb.fch.length ∧ iid.idx - 1 < (tb.fch.getD iid.pid []).length

variable {tb tb' : TB} {iid : IID} {calls : List Call}

theorem HasEvent.modifyEvt (h : HasEvent tb iid) (f : PAEvent → PAEvent) :
    HasEvent (tb.modifyEvt iid f) iid ∧ (tb.modifyEvt iid f).getEvt iid = f (tb.getEvt iid) := by
  obtain ⟨hpid, hidx⟩ := h
  have hget : (tb.modifyEvt iid f).fch.getD iid.pid [] =
      (tb.fch.getD iid.pid []).modify (iid.idx - 1) f := by
    show (tb.fch.modify iid.pid _).getD iid.pid [] = _
    rw [List.getD_eq_getElem _ _ (by rw [List.length_modify]; exact hpid),
      List.getElem_modify_eq, List.getD_eq_getElem _ _ hpid]
  constructor
  · constructor
    · exact (List.length_modify _ _ _).symm ▸ hpid
    · rw [hget, List.length_modify]
      exact hidx
  · rw [TB.getEvt, TB.fchAt, hget,
      List.getD_eq_getElem _ _ (by rw [List.length_modify]; exact hidx),
      List.getElem_modify_eq, TB.getEvt, TB.fchAt, List.getD_eq_getElem _ _ hidx]

/-- A call on the builder. -/
def Call.apply (tb : TB) (iid : IID) : Call → Option TB
  | .addr a m => tb.registerAddr iid a m
  | .data a d => tb.registerData iid a d

/-- The calls of a list, one after another. -/
def runCalls (iid : IID) : List Call → TB → Option TB
  | [], tb => some tb
  | c :: calls, tb => (c.apply tb iid).bind (runCalls iid calls)

/-- Each call that was not made yet keeps the invariant. -/
theorem Registered.apply (h : Registered l s addr data done (tb.getEvt iid))
    (hevt : HasEvent tb iid) {c : Call} (hc : c ∈ allCalls l s addr data) (hnew : c ∉ done) :
    ∃ tb', c.apply tb iid = some tb' ∧ HasEvent tb' iid ∧
      Registered l s addr data (c :: done) (tb'.getEvt iid) := by
  rcases List.mem_append.mp hc with hc | hc
  · obtain ⟨a, ha, rfl⟩ := List.mem_map.mp hc
    rw [List.mem_range] at ha
    obtain ⟨hevt', hget⟩ := hevt.modifyEvt fun evt => evt.registerAddr a (addr a)
    have hunknown : ((tb.getEvt iid).access a).addrKnown = false := by
      rw [Bool.eq_false_iff]
      exact fun hknown => hnew ((h.known.addrKnown a ha).mp hknown)
    refine ⟨_, if_pos ⟨by rwa [h.known.length], hunknown⟩, hevt', ?_⟩
    show Registered l s addr data _ ((tb.modifyEvt iid _).getEvt iid)
    rw [hget]
    exact h.registerAddr hnew ha
  · obtain ⟨a, ha, rfl⟩ := List.mem_map.mp hc
    rw [List.mem_range'_1] at ha
    obtain ⟨hevt', hget⟩ := hevt.modifyEvt fun evt => evt.registerData a (data a)
    have hunknown : ((tb.getEvt iid).access a).dataKnown = false := by
      rw [Bool.eq_false_iff]
      exact fun hknown => hnew ((h.known.dataKnown a ha.2).mp hknown)
    have htype : ((tb.getEvt iid).access a).type = .store := by
      rw [h.known.type a ha.2, if_neg (by omega)]
    have hbytes : ((tb.getEvt iid).access a).addrKnown = true →
        ∀ i ∈ List.range ((tb.getEvt iid).access a).addr.size, (tb.getEvt iid).writes a i = true →
        ∃ B ∈ (tb.getEvt iid).baccesses,
          B.type = .store ∧ B.addr = ((tb.getEvt iid).access a).addr.ref + i := by
      intro hknown i hi hwrites
      have hmem := (h.known.addrKnown a ha.2).mp hknown
      rw [h.known.addr a ha.2 hmem, List.mem_range] at hi
      rw [h.known.addr a ha.2 hmem]
      apply h.exists_store ha.1 ha.2
      · refine ⟨hmem, ?_⟩
        simp only [MRef.includes, Bool.and_eq_true, decide_eq_true_eq]
        omega
      · rwa [Nat.add_sub_cancel_left]
    have hload : (tb.getEvt iid).loadCount ≤ a := by
      rw [h.known.loadCount]
      exact ha.1
    have hlength : a < (tb.getEvt iid).accesses.length := by
      rw [h.known.length]
      exact ha.2
    refine ⟨_, if_pos ⟨hload, hlength, htype, hunknown, hbytes⟩, hevt', ?_⟩
    rw [hget]
    exact h.registerData ha.1 ha.2

theorem Registered.runCalls (h : Registered l s addr data done (tb.getEvt iid))
    (hevt : HasEvent tb iid) (hcalls : ∀ c ∈ calls, c ∈ allCalls l s addr data)
    (hnew : ∀ c ∈ calls, c ∉ done) (hnodup : calls.Nodup) :
    ∃ tb', runCalls iid calls tb = some tb' ∧
      Registered l s addr data (calls.reverse ++ done) (tb'.getEvt iid) := by
  induction calls generalizing tb done with
  | nil => exact ⟨tb, rfl, h⟩
  | cons c calls ih =>
    obtain ⟨hc, hnodup⟩ := List.nodup_cons.mp hnodup
    obtain ⟨tb', happly, hevt', h'⟩ :=
      h.apply hevt (hcalls c List.mem_cons_self) (hnew c List.mem_cons_self)
    have hnew' : ∀ c' ∈ calls, c' ∉ c :: done := by
      intro c' hc'
      rw [List.mem_cons, not_or]
      exact ⟨fun heq => hc (heq ▸ hc'), hnew c' (List.mem_cons_of_mem _ hc')⟩
    obtain ⟨tb'', hrun, h''⟩ := ih h' hevt' (fun c' hc' => hcalls c' (List.mem_cons_of_mem _ hc'))
      hnew' hnodup
    refine ⟨tb'', ?_, ?_⟩
    · rw [Power.runCalls, happly]
      exact hrun
    · rwa [List.reverse_cons, List.append_assoc]

/-! ## Fetched events -/

/-- An event of which nothing is registered. -/
structure Fresh (l s : Nat) (evt : PAEvent) : Prop where
  accesses : evt.accesses =
    List.replicate l { type := .load } ++ List.replicate s { type := .store }
  loadCount : evt.loadCount = l
  baccesses : evt.baccesses = []
  accessTgts : evt.accessTgts = ∅

theorem Fresh.registered (h : Fresh l s evt) : Registered l s addr data [] evt := by
  have haccess (k : Nat) (hk : k < l + s) :
      evt.access k = if k < l then { type := .load } else { type := .store } := by
    rw [PAEvent.access, h.accesses]
    split_ifs with hkl
    · rw [List.getD_append _ _ _ _ (by simpa using hkl), List.getD_replicate _ hkl]
    · rw [List.getD_append_right _ _ _ _ (by simpa using hkl), List.length_replicate,
        List.getD_replicate _ (by omega)]
  have hunknown (k : Nat) (hk : k < l + s) :
      (evt.access k).addrKnown = false ∧ (evt.access k).dataKnown = false := by
    rw [haccess k hk]
    split_ifs <;> exact ⟨rfl, rfl⟩
  refine ⟨⟨?_, h.loadCount, ?_, ?_, ?_, ?_, ?_⟩, fun p => ⟨?_, ?_, ?_, ?_, ?_⟩⟩
  · rw [h.accesses, List.length_append, List.length_replicate, List.length_replicate]
  · intro k hk
    rw [haccess k hk]
    split_ifs <;> rfl
  · intro k hk
    rw [(hunknown k hk).1]
    exact iff_of_false Bool.false_ne_true List.not_mem_nil
  · exact fun k _ hmem => absurd hmem List.not_mem_nil
  · intro k hk
    rw [(hunknown k hk).2]
    exact iff_of_false Bool.false_ne_true List.not_mem_nil
  · exact fun k _ hmem => absurd hmem List.not_mem_nil
  · show p ∈ evt.accessTgts ↔ _
    rw [h.accessTgts]
    refine iff_of_false (VecSet.not_mem_empty p) ?_
    rintro ⟨k, _, hk⟩
    exact absurd hk.1 List.not_mem_nil
  · rintro ⟨k, _, hk⟩
    exact absurd hk.1 List.not_mem_nil
  · intro _
    show evt.baccesses.filter _ = []
    rw [h.baccesses]
    rfl
  · exact fun k hk => absurd hk.covers.1 List.not_mem_nil
  · intro _
    show evt.baccesses.filter _ = []
    rw [h.baccesses]
    rfl

theorem fresh_refill {new : PAEvent} (hnew : Fresh l s new) (h : evt.Refillable new) :
    Fresh l s (evt.refill new) := by
  unfold PAEvent.refill
  unfold PAEvent.Refillable at h
  cases hstatus : evt.filledStatus with
  | empty => exact hnew
  | parameter => exact ⟨hnew.accesses, hnew.loadCount, hnew.baccesses, hnew.accessTgts⟩
  | complete =>
    rw [hstatus] at h
    exact ⟨hnew.accesses, h.1.trans hnew.loadCount, rfl, rfl⟩

variable {proc : Nat} {addrDeps dataDeps : VecSet Nat}

/-- Where an event is entered at the end of what a thread has fetched. -/
theorem enter_fresh {evts : List PAEvent} (hproc : proc < tb.fch.length)
    (hn : (tb.thread proc).fchCount < evts.length)
    (h : Fresh l s (evts.getD (tb.thread proc).fchCount {})) :
    HasEvent (tb.enter proc evts) ⟨proc, (tb.thread proc).fchCount + 1⟩ ∧
      Fresh l s ((tb.enter proc evts).getEvt ⟨proc, (tb.thread proc).fchCount + 1⟩) := by
  have hget : ∃ f : PAEvent → PAEvent, (∀ evt, (f evt).accesses = evt.accesses ∧
      (f evt).loadCount = evt.loadCount ∧ (f evt).baccesses = evt.baccesses ∧
      (f evt).accessTgts = evt.accessTgts) ∧
      (tb.enter proc evts).fch.getD proc [] = evts.modify (tb.thread proc).fchCount f := by
    refine ⟨fun evt => { evt with
      iid := ⟨proc, (tb.thread proc).fchCount + 1⟩
      ctrlDeps := (tb.thread proc).ctrlDeps
      ctrlIsyncDeps := (tb.thread proc).ctrlIsyncDeps }, fun evt => ⟨rfl, rfl, rfl, rfl⟩, ?_⟩
    show (tb.fch.set proc _).getD proc [] = _
    rw [List.getD_eq_getElem _ _ (by rwa [List.length_set]), List.getElem_set_self]
  obtain ⟨f, hf, hget⟩ := hget
  constructor
  · constructor
    · show proc < (tb.fch.set proc _).length
      rwa [List.length_set]
    · show (tb.thread proc).fchCount < ((tb.enter proc evts).fch.getD proc []).length
      rwa [hget, List.length_modify]
  · show Fresh l s (((tb.enter proc evts).fch.getD proc []).getD (tb.thread proc).fchCount {})
    rw [hget, List.getD_eq_getElem _ _ (by rwa [List.length_modify]), List.getElem_modify_eq]
    rw [List.getD_eq_getElem _ _ hn] at h
    obtain ⟨haccesses, hload, hbytes, htgts⟩ := hf evts[(tb.thread proc).fchCount]
    exact ⟨haccesses.trans h.accesses, hload.trans h.loadCount, hbytes.trans h.baccesses,
      htgts.trans h.accessTgts⟩

/-- A fetched event is there, and nothing is registered for it. -/
theorem fetch_fresh (h : tb.fetch proc l s addrDeps dataDeps = some tb') :
    HasEvent tb' ⟨proc, (tb.thread proc).fchCount + 1⟩ ∧
      Fresh l s (tb'.getEvt ⟨proc, (tb.thread proc).fchCount + 1⟩) := by
  have hnew : Fresh l s (tb.newEvent proc l s addrDeps dataDeps) := ⟨rfl, rfl, rfl, rfl⟩
  unfold TB.fetch at h
  dsimp only at h
  split_ifs at h with hproc hold hrefill hend
  · cases h
    apply enter_fresh (hproc.1.trans_le hproc.2) (by rwa [List.length_modify])
    rw [List.getD_eq_getElem _ _ (by rwa [List.length_modify]), List.getElem_modify_eq]
    apply fresh_refill hnew
    rwa [List.getD_eq_getElem _ _ hold] at hrefill
  · cases h
    apply enter_fresh (hproc.1.trans_le hproc.2)
    · rw [List.length_append, ← hend]
      exact Nat.lt_succ_self _
    · rw [hend, List.getD_append_right _ _ _ _ le_rfl, Nat.sub_self]
      exact hnew

/-- What an event holds for the bytes, after all calls. -/
structure ByteAccesses (l s : Nat) (addr : Nat → MRef) (data : Nat → List UInt8)
    (evt : PAEvent) : Prop where
  load : ∀ p, (∃ k, k < l ∧ (addr k).includes p = true) →
    evt.baccesses.filter (PAEvent.isLoadOf p) = [{ type := .load, addr := p }]
  no_load : ∀ p, (¬ ∃ k, k < l ∧ (addr k).includes p = true) →
    evt.baccesses.filter (PAEvent.isLoadOf p) = []
  store : ∀ p k, l ≤ k → k < l + s → (addr k).includes p = true →
    (∀ k', k < k' → k' < l + s → (addr k').includes p = false) →
    evt.baccesses.filter (PAEvent.isStoreTo p) =
      [{ type := .store, addr := p, data := (data k).getD (p - (addr k).ref) 0, dataKnown := true }]
  no_store : ∀ p, (∀ k, l ≤ k → k < l + s → (addr k).includes p = false) →
    evt.baccesses.filter (PAEvent.isStoreTo p) = []
  accessTgts : ∀ p, p ∈ evt.accessTgts ↔ ∃ k, k < l + s ∧ (addr k).includes p = true

/-- All calls were made. -/
theorem Registered.byteAccesses (h : Registered l s addr data done evt)
    (hdone : ∀ c, c ∈ allCalls l s addr data → c ∈ done) : ByteAccesses l s addr data evt := by
  have haddr (k : Nat) (hk : k < l + s) : Call.addr k (addr k) ∈ done :=
    hdone _ (List.mem_append_left _ (List.mem_map.mpr ⟨k, List.mem_range.mpr hk, rfl⟩))
  have hcovers (k p : Nat) (hk : k < l + s) :
      Covers addr done k p ↔ (addr k).includes p = true := and_iff_right (haddr k hk)
  have hloads (p : Nat) : (∃ k, k < l ∧ Covers addr done k p) ↔
      ∃ k, k < l ∧ (addr k).includes p = true := by
    apply exists_congr
    intro k
    apply and_congr_right
    intro hk
    exact hcovers k p (by omega)
  refine ⟨?_, ?_, ?_, ?_, ?_⟩
  · intro p hp
    exact (h.byte p).load ((hloads p).mpr hp)
  · intro p hp
    exact (h.byte p).no_load fun hk => hp ((hloads p).mp hk)
  · intro p k hl hs hp hlater
    have hlast : Last l s addr done k p := by
      refine ⟨⟨hl, hs⟩, (hcovers k p hs).mpr hp, fun k' _ hs' hc => ?_⟩
      by_contra hlt
      have hno := hlater k' (by omega) hs'
      rw [(hcovers k' p hs').mp hc] at hno
      cases hno
    obtain ⟨B, hB, htype, hBaddr, hdata⟩ := (h.byte p).store k hlast
    have hmem : Call.data k (data k) ∈ done :=
      hdone _ (List.mem_append_right _ (List.mem_map.mpr ⟨k, List.mem_range'_1.mpr ⟨hl, hs⟩, rfl⟩))
    obtain ⟨hBdata, hBknown⟩ := hdata hmem
    have hstores : evt.baccesses.filter (PAEvent.isStoreTo p) = [B] := hB
    rw [hstores, ← hBdata, ← hBknown, ← hBaddr, ← htype]
  · intro p hnone
    apply (h.byte p).no_store
    intro k hk
    have hno := hnone k hk.store.1 hk.store.2
    rw [hk.covers.2] at hno
    cases hno
  · intro p
    have htgt := (h.byte p).tgt
    rw [show p ∈ evt.accessTgts ↔ _ from htgt]
    apply exists_congr
    intro k
    apply and_congr_right
    intro hk
    exact hcovers k p hk

/-- An event that is fetched and then registered, each address and each data once and in
any order, holds one load for each byte of its loads, and one store for each byte of its
stores, with the byte of the last one. -/
theorem fetch_registered (hfetch : tb.fetch proc l s addrDeps dataDeps = some tb')
    (hcalls : calls.Perm (allCalls l s addr data)) :
    ∃ tb'', runCalls ⟨proc, (tb.thread proc).fchCount + 1⟩ calls tb' = some tb'' ∧
      ByteAccesses l s addr data (tb''.getEvt ⟨proc, (tb.thread proc).fchCount + 1⟩) := by
  obtain ⟨hevt, hfresh⟩ := fetch_fresh hfetch
  have hnodup : (allCalls l s addr data).Nodup := by
    rw [allCalls, List.nodup_append]
    refine ⟨?_, ?_, ?_⟩
    · exact List.nodup_range.map fun a b hab => by cases hab; rfl
    · exact (List.nodup_range' 1 Nat.one_pos).map fun a b hab => by cases hab; rfl
    · intro c hc d hd heq
      obtain ⟨a, _, rfl⟩ := List.mem_map.mp hc
      obtain ⟨b, _, rfl⟩ := List.mem_map.mp hd
      cases heq
  have hnone : Registered l s addr data [] (tb'.getEvt ⟨proc, (tb.thread proc).fchCount + 1⟩) :=
    hfresh.registered
  obtain ⟨tb'', hrun, h⟩ := hnone.runCalls hevt
    (fun c hc => hcalls.mem_iff.mp hc) (fun _ _ => List.not_mem_nil)
    (hcalls.nodup_iff.mpr hnodup)
  refine ⟨tb'', hrun, h.byteAccesses fun c hc => ?_⟩
  rw [List.append_nil, List.mem_reverse]
  exact hcalls.mem_iff.mpr hc

/-- A load of two bytes and a store that overlaps with it, with the data first. -/
theorem fetch_registered_pair :
    ∃ tb' tb'', TB.fetch {} 0 1 1 ∅ ∅ = some tb' ∧
      runCalls ⟨0, 1⟩ [.data 1 [5, 6], .addr 1 ⟨1, 2⟩, .addr 0 ⟨0, 2⟩] tb' = some tb'' ∧
      ByteAccesses 1 1 (fun k => ⟨k, 2⟩) (fun _ => [5, 6]) (tb''.getEvt ⟨0, 1⟩) := by
  have hfetch : ∃ tb', TB.fetch {} 0 1 1 ∅ ∅ = some tb' := ⟨_, rfl⟩
  obtain ⟨tb', hfetch⟩ := hfetch
  have hcalls : [.data 1 [5, 6], .addr 1 ⟨1, 2⟩, .addr 0 ⟨0, 2⟩].Perm
      (allCalls 1 1 (fun k => ⟨k, 2⟩) fun _ => [5, 6]) := by decide
  obtain ⟨tb'', hrun, h⟩ := fetch_registered hfetch hcalls
  exact ⟨tb', tb'', hfetch, hrun, h⟩

end ViEqui.Power
