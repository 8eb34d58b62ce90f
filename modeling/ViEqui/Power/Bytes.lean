import ViEqui.Power.Operations
import Mathlib.Data.List.Basic
import Mathlib.Data.List.GetD

/-!
# The bytes of an event

What the registration of an address or of data does to the byte accesses of an event, byte
by byte: `PAEvent.byteAt` is what an event holds for one byte, and a byte is entered,
overwritten or left alone, as the accesses that are known so far say.  `registerAddr_bytes`
and `registerData_bytes` are the two calls, on all bytes.
-/

namespace ViEqui.Power

/-! ## The first element of a list with a property -/

section First

variable {α : Type} {P Q : α → Bool} {f : α → α}

theorem filter_modify_findIdx (hf : ∀ x, P x = true → P (f x) = true) (l : List α) :
    (l.modify (l.findIdx P) f).filter P = (l.filter P).modifyHead f := by
  induction l with
  | nil => rfl
  | cons x l ih =>
    rw [List.findIdx_cons]
    by_cases hx : P x = true
    · rw [hx, cond_true, List.modify_zero_cons, List.filter_cons_of_pos (hf x hx),
        List.filter_cons_of_pos hx]
      rfl
    · rw [Bool.eq_false_iff.mpr hx, cond_false, List.modify_succ_cons, List.filter_cons_of_neg hx,
        List.filter_cons_of_neg hx, ih]

/-- Elements without the property stay. -/
theorem filter_modify_findIdx_of_disjoint (hf : ∀ x, P x = true → P (f x) = true)
    (hPQ : ∀ x, P x = true → Q x = false) (l : List α) :
    (l.modify (l.findIdx P) f).filter Q = l.filter Q := by
  induction l with
  | nil => rfl
  | cons x l ih =>
    rw [List.findIdx_cons]
    by_cases hx : P x = true
    · rw [hx, cond_true, List.modify_zero_cons,
        List.filter_cons_of_neg (by simp [hPQ _ (hf x hx)]),
        List.filter_cons_of_neg (by simp [hPQ x hx])]
    · rw [Bool.eq_false_iff.mpr hx, cond_false, List.modify_succ_cons, List.filter_cons,
        List.filter_cons, ih]

end First

/-! ## One byte of an event -/

/-- What an event holds for one byte. -/
structure ByteState where
  loads : List ByteAccess
  stores : List ByteAccess
  isTgt : Prop

namespace PAEvent

/-- The test for a store to the byte `p`. -/
def isStoreTo (p : Nat) (B : ByteAccess) : Bool := B.type = .store && B.addr = p

/-- The test for a load of the byte `p`. -/
def isLoadOf (p : Nat) (B : ByteAccess) : Bool := B.type = .load && B.addr = p

def byteAt (evt : PAEvent) (p : Nat) : ByteState where
  loads := evt.baccesses.filter (isLoadOf p)
  stores := evt.baccesses.filter (isStoreTo p)
  isTgt := p ∈ evt.accessTgts

/-- Sets the data of the first store. -/
def setData (d : UInt8) (b : ByteState) : ByteState :=
  { b with stores := b.stores.modifyHead fun B => { B with data := d, dataKnown := true } }

theorem byteAt_writeByte (evt : PAEvent) (p q : Nat) (d : UInt8) :
    (evt.writeByte p d).byteAt q = if q = p then setData d (evt.byteAt q) else evt.byteAt q := by
  have hkeep : ∀ B, isStoreTo p B = true →
      isStoreTo p { B with data := d, dataKnown := true } = true := fun _ h => h
  have hloads : (evt.writeByte p d).baccesses.filter (isLoadOf q) =
      evt.baccesses.filter (isLoadOf q) := by
    apply filter_modify_findIdx_of_disjoint hkeep
    intro B hB
    simp only [isStoreTo, Bool.and_eq_true, decide_eq_true_eq] at hB
    simp [isLoadOf, hB.1]
  by_cases hq : q = p
  · subst hq
    rw [if_pos rfl, byteAt, hloads]
    have hstores := filter_modify_findIdx hkeep evt.baccesses
    exact congrArg (fun l => ByteState.mk _ l _) hstores
  · rw [if_neg hq, byteAt, hloads]
    have hstores : (evt.writeByte p d).baccesses.filter (isStoreTo q) =
        evt.baccesses.filter (isStoreTo q) := by
      apply filter_modify_findIdx_of_disjoint hkeep
      intro B hB
      simp only [isStoreTo, Bool.and_eq_true, decide_eq_true_eq] at hB
      simp [isStoreTo, hB.2, Ne.symm hq]
    exact congrArg (fun l => ByteState.mk _ l _) hstores

/-- The last other store to the byte. -/
def lastOther (evt : PAEvent) (a p : Nat) : Option Nat :=
  ((List.range evt.accesses.length).filter fun k =>
    evt.loadCount ≤ k && evt.overlaps a p k).getLast?

/-- The access for byte `i` of store `a`. -/
def newStore (evt : PAEvent) (a p i : Nat) : ByteAccess :=
  if (evt.access a).dataKnown then
    { type := .store, addr := p, data := (evt.access a).data.getD i 0, dataKnown := true }
  else { type := .store, addr := p }

/-- What `registerByte` does to its byte. -/
def enterByte (evt : PAEvent) (a p i : Nat) (b : ByteState) : ByteState :=
  match (evt.access a).type with
  | .load =>
    if (List.range evt.loadCount).any (evt.overlaps a p) then { b with isTgt := True }
    else { b with loads := b.loads ++ [{ type := .load, addr := p }], isTgt := True }
  | .store =>
    match evt.lastOther a p with
    | none => { b with stores := b.stores ++ [evt.newStore a p i], isTgt := True }
    | some k =>
      if k < a ∧ (evt.access a).dataKnown then
        { setData ((evt.access a).data.getD i 0) b with isTgt := True }
      else { b with isTgt := True }

/-- The accesses of both events are the same. -/
structure SameAccesses (evt evt' : PAEvent) : Prop where
  accesses : evt'.accesses = evt.accesses
  loadCount : evt'.loadCount = evt.loadCount

variable {evt evt' : PAEvent} {a p q i : Nat}

theorem SameAccesses.access (h : SameAccesses evt evt') : evt'.access = evt.access := by
  funext k
  rw [PAEvent.access, PAEvent.access, h.accesses]

theorem SameAccesses.enterByte (h : SameAccesses evt evt') (a p i : Nat) (b : ByteState) :
    evt'.enterByte a p i b = evt.enterByte a p i b := by
  unfold PAEvent.enterByte PAEvent.lastOther PAEvent.newStore PAEvent.overlaps
  rw [h.access, h.accesses, h.loadCount]

theorem sameAccesses_registerByte (a : Nat) (evt : PAEvent) (i : Nat) :
    SameAccesses evt (evt.registerByte a i) := by
  unfold registerByte
  dsimp only
  split
  · split <;> exact ⟨rfl, rfl⟩
  · split
    · exact ⟨rfl, rfl⟩
    · split <;> exact ⟨rfl, rfl⟩

/-- The event with a byte among its targets. -/
def target (evt : PAEvent) (p : Nat) : PAEvent :=
  { evt with accessTgts := evt.accessTgts.insert p }

/-- The event with a byte access more. -/
def append (evt : PAEvent) (B : ByteAccess) : PAEvent :=
  { evt with baccesses := evt.baccesses ++ [B] }

theorem registerByte_eq (a : Nat) (evt : PAEvent) (i p : Nat)
    (hp : p = (evt.access a).addr.ref + i) :
    evt.registerByte a i =
      match (evt.access a).type with
      | .load =>
        if (List.range evt.loadCount).any (evt.overlaps a p) then evt.target p
        else (evt.target p).append { type := .load, addr := p }
      | .store =>
        match evt.lastOther a p with
        | none => (evt.target p).append (evt.newStore a p i)
        | some k =>
          if k < a ∧ (evt.access a).dataKnown then
            (evt.target p).writeByte p ((evt.access a).data.getD i 0)
          else evt.target p := by
  subst hp
  rfl

theorem byteAt_target (evt : PAEvent) (p q : Nat) :
    (evt.target p).byteAt q =
      if q = p then { evt.byteAt q with isTgt := True } else evt.byteAt q := by
  have hmem : (q ∈ evt.accessTgts.insert p) = (q = p ∨ q ∈ evt.accessTgts) :=
    propext VecSet.mem_insert
  unfold target byteAt
  rw [hmem]
  split_ifs with hq
  · simp [hq]
  · simp [hq]

/-- A byte access at the end. -/
theorem byteAt_append (evt : PAEvent) (B : ByteAccess) (q : Nat) :
    (evt.append B).byteAt q =
      { evt.byteAt q with
        loads := (evt.byteAt q).loads ++ [B].filter (isLoadOf q)
        stores := (evt.byteAt q).stores ++ [B].filter (isStoreTo q) } := by
  unfold append
  rw [byteAt, List.filter_append, List.filter_append]
  rfl

theorem isStoreTo_newStore (evt : PAEvent) (a p i q : Nat) :
    isStoreTo q (evt.newStore a p i) = decide (p = q) ∧
      isLoadOf q (evt.newStore a p i) = false := by
  unfold newStore
  split_ifs <;> simp [isStoreTo, isLoadOf]

/-- Another byte stays. -/
theorem byteAt_registerByte_of_ne {evt : PAEvent} {a i q : Nat}
    (hq : q ≠ (evt.access a).addr.ref + i) : (evt.registerByte a i).byteAt q = evt.byteAt q := by
  have htarget := byteAt_target evt ((evt.access a).addr.ref + i) q
  rw [if_neg hq] at htarget
  rw [registerByte_eq a evt i _ rfl]
  cases (evt.access a).type with
  | load =>
    dsimp only
    split_ifs
    · exact htarget
    · rw [byteAt_append, htarget]
      simp [isStoreTo, isLoadOf, Ne.symm hq]
  | store =>
    dsimp only
    cases evt.lastOther a ((evt.access a).addr.ref + i) with
    | none =>
      dsimp only
      obtain ⟨hstore, hload⟩ := isStoreTo_newStore evt a ((evt.access a).addr.ref + i) i q
      rw [byteAt_append, htarget]
      simp [hstore, hload, Ne.symm hq]
    | some k =>
      dsimp only
      split_ifs
      · rw [byteAt_writeByte, if_neg hq, htarget]
      · exact htarget

/-- A byte is entered. -/
theorem byteAt_registerByte_self {evt : PAEvent} {a i p : Nat}
    (hp : p = (evt.access a).addr.ref + i) :
    (evt.registerByte a i).byteAt p = evt.enterByte a p i (evt.byteAt p) := by
  have htarget := byteAt_target evt p p
  rw [if_pos rfl] at htarget
  rw [registerByte_eq a evt i p hp]
  unfold enterByte
  cases (evt.access a).type with
  | load =>
    dsimp only
    split_ifs
    · exact htarget
    · rw [byteAt_append, htarget]
      simp [isStoreTo, isLoadOf]
  | store =>
    dsimp only
    cases evt.lastOther a p with
    | none =>
      dsimp only
      obtain ⟨hstore, hload⟩ := isStoreTo_newStore evt a p i p
      rw [byteAt_append, htarget]
      simp [hstore, hload]
    | some k =>
      dsimp only
      split_ifs
      · rw [byteAt_writeByte, if_pos rfl, htarget]
        rfl
      · exact htarget

/-! ## All bytes of an access -/

theorem SameAccesses.refl (evt : PAEvent) : SameAccesses evt evt := ⟨rfl, rfl⟩

theorem SameAccesses.trans {evt'' : PAEvent} (h : SameAccesses evt evt')
    (h' : SameAccesses evt' evt'') : SameAccesses evt evt'' :=
  ⟨h'.accesses.trans h.accesses, h'.loadCount.trans h.loadCount⟩

/-- A loop whose round `i` changes byte `base + i` only. -/
theorem foldl_range_bytes (evt : PAEvent) (base : Nat) {f : PAEvent → Nat → PAEvent}
    (g : Nat → ByteState → ByteState) (hsame : ∀ e i, SameAccesses e (f e i))
    (hne : ∀ e i q, SameAccesses evt e → q ≠ base + i → (f e i).byteAt q = e.byteAt q)
    (hself : ∀ e i, SameAccesses evt e →
      (f e i).byteAt (base + i) = g i (e.byteAt (base + i))) (n : Nat) :
    SameAccesses evt ((List.range n).foldl f evt) ∧
      ∀ q, ((List.range n).foldl f evt).byteAt q =
        if base ≤ q ∧ q < base + n then g (q - base) (evt.byteAt q) else evt.byteAt q := by
  induction n with
  | zero =>
    refine ⟨SameAccesses.refl evt, fun q => ?_⟩
    rw [if_neg (by omega)]
    rfl
  | succ n ih =>
    rw [List.range_succ, List.foldl_append]
    refine ⟨ih.1.trans (hsame _ n), fun q => ?_⟩
    show (f _ n).byteAt q = _
    by_cases hq : q = base + n
    · subst hq
      rw [hself _ n ih.1, ih.2, if_neg (by omega), if_pos (by omega), Nat.add_sub_cancel_left]
    · rw [hne _ n q ih.1 hq, ih.2]
      by_cases hrange : base ≤ q ∧ q < base + n
      · rw [if_pos hrange, if_pos (by omega)]
      · rw [if_neg hrange, if_neg (by omega)]

/-- The event with the address of an access. -/
def withAddr (evt : PAEvent) (a : Nat) (addr : MRef) : PAEvent :=
  { evt with
    accesses := evt.accesses.modify a fun A => { A with addr, addrKnown := true }
    unknownAddrCount := evt.unknownAddrCount - 1 }

/-- The event with the data of an access. -/
def withData (evt : PAEvent) (a : Nat) (data : List UInt8) : PAEvent :=
  { evt with
    accesses := evt.accesses.modify a fun A => { A with data, dataKnown := true }
    unknownDataCount := evt.unknownDataCount - 1 }

theorem access_modify {f : Access → Access} {evt evt' : PAEvent}
    (hevt' : evt'.accesses = evt.accesses.modify a f) (ha : a < evt.accesses.length) (k : Nat) :
    evt'.access k = if k = a then f (evt.access k) else evt.access k := by
  unfold access
  rw [hevt']
  by_cases hk : k = a
  · subst hk
    rw [if_pos rfl, List.getD_eq_getElem _ _ (by rwa [List.length_modify]),
      List.getElem_modify_eq, List.getD_eq_getElem _ _ ha]
  · rw [if_neg hk, List.getD_eq_getElem?_getD, List.getD_eq_getElem?_getD,
      List.getElem?_modify_ne _ _ (Ne.symm hk)]

theorem access_withAddr (ha : a < evt.accesses.length) (m : MRef) (k : Nat) :
    (evt.withAddr a m).access k =
      if k = a then { evt.access k with addr := m, addrKnown := true } else evt.access k := by
  have hmodify : (evt.withAddr a m).accesses =
      evt.accesses.modify a fun A => { A with addr := m, addrKnown := true } := rfl
  exact access_modify hmodify ha k

theorem access_withData (ha : a < evt.accesses.length) (data : List UInt8) (k : Nat) :
    (evt.withData a data).access k =
      if k = a then { evt.access k with data, dataKnown := true } else evt.access k := by
  have hmodify : (evt.withData a data).accesses =
      evt.accesses.modify a fun A => { A with data, dataKnown := true } := rfl
  exact access_modify hmodify ha k

theorem registerAddr_bytes {m : MRef} (ha : a < evt.accesses.length) :
    SameAccesses (evt.withAddr a m) (evt.registerAddr a m) ∧
      ∀ p, (evt.registerAddr a m).byteAt p =
        if m.includes p then (evt.withAddr a m).enterByte a p (p - m.ref) (evt.byteAt p)
        else evt.byteAt p := by
  have haddr : ((evt.withAddr a m).access a).addr = m := by
    rw [access_withAddr ha, if_pos rfl]
  have hfold := foldl_range_bytes (evt.withAddr a m) m.ref
    (fun i b => (evt.withAddr a m).enterByte a (m.ref + i) i b)
    (sameAccesses_registerByte a) (by
      intro e i q he hq
      apply byteAt_registerByte_of_ne
      rwa [he.access, haddr]) (by
      intro e i he
      rw [byteAt_registerByte_self (by rw [he.access, haddr]), he.enterByte]) m.size
  refine ⟨hfold.1, fun p => ?_⟩
  rw [registerAddr, ← withAddr, hfold.2 p]
  by_cases hp : m.ref ≤ p ∧ p < m.ref + m.size
  · rw [if_pos hp, if_pos (by simpa [MRef.includes] using hp), Nat.add_sub_cancel' hp.1]
    rfl
  · rw [if_neg hp, if_neg (by simpa [MRef.includes] using hp)]
    rfl

/-- A byte of the data is written unless a later store to the byte is known. -/
def dataByte (evt : PAEvent) (a i : Nat) (d : UInt8) (b : ByteState) : ByteState :=
  if evt.writes a i then setData d b else b

theorem sameAccesses_writeByte (evt : PAEvent) (p : Nat) (d : UInt8) :
    SameAccesses evt (evt.writeByte p d) := ⟨rfl, rfl⟩

theorem SameAccesses.writes (h : SameAccesses evt evt') : evt'.writes a i = evt.writes a i := by
  unfold PAEvent.writes
  rw [h.access, h.accesses]

theorem registerData_bytes (evt : PAEvent) (a : Nat) (data : List UInt8) :
    SameAccesses (evt.withData a data) (evt.registerData a data) ∧
      ∀ p, (evt.registerData a data).byteAt p =
        if ((evt.withData a data).access a).addrKnown ∧
            ((evt.withData a data).access a).addr.includes p then
          (evt.withData a data).dataByte a (p - ((evt.withData a data).access a).addr.ref)
            (data.getD (p - ((evt.withData a data).access a).addr.ref) 0) (evt.byteAt p)
        else evt.byteAt p := by
  have hdef : evt.registerData a data =
      if ((evt.withData a data).access a).addrKnown then
        (List.range ((evt.withData a data).access a).addr.size).foldl (fun e i =>
          if e.writes a i then e.writeByte ((e.access a).addr.ref + i) (data.getD i 0) else e)
          (evt.withData a data)
      else evt.withData a data := rfl
  rw [hdef]
  by_cases hknown : ((evt.withData a data).access a).addrKnown = true
  · rw [if_pos hknown]
    have hfold := foldl_range_bytes (evt.withData a data)
      ((evt.withData a data).access a).addr.ref
      (f := fun e i =>
        if e.writes a i then e.writeByte ((e.access a).addr.ref + i) (data.getD i 0) else e)
      (fun i b => (evt.withData a data).dataByte a i (data.getD i 0) b) (by
        intro e i
        split_ifs
        · exact sameAccesses_writeByte _ _ _
        · exact SameAccesses.refl _) (by
        intro e i q he hq
        split_ifs
        · rw [byteAt_writeByte, he.access, if_neg hq]
        · rfl) (by
        intro e i he
        rw [dataByte, he.writes, he.access]
        split_ifs
        · rw [byteAt_writeByte, if_pos rfl]
        · rfl) ((evt.withData a data).access a).addr.size
    refine ⟨hfold.1, fun p => ?_⟩
    rw [hfold.2 p]
    simp only [hknown, true_and, MRef.includes, Bool.and_eq_true, decide_eq_true_eq]
    rfl
  · rw [if_neg hknown]
    refine ⟨SameAccesses.refl _, fun p => ?_⟩
    rw [if_neg (fun h => hknown h.1)]
    rfl

end PAEvent

end ViEqui.Power
