import ViEqui.Tso.RaceDetect

/-!
# Observed stores

`recompute_observed` of `src/TSOTraceBuilder.cpp` goes through a sequence
backwards, with the set of the bytes that are read behind the current event, or
its complement behind a full memory conflict.

* `ReadIn`: a byte is read in a sequence before a plain store overwrites it.
* `live_recomputeObservedSym`: the set is right at every point.
* `observes_iff`: the test of a store, by this set.
* `recomputesLiveness_iff`: when the stores are marked right.
-/

namespace ViEqui.Tso

/-! ## Reading and overwriting -/

namespace SymEv

/-- The event reads the byte. -/
def readsByte (e : SymEv) (x : SymAddr) : Bool :=
  e.kind = .fullmem || (e.doesLoad && e.addr.includes x)

/-- The event is a plain store of the byte. -/
def overwrites (e : SymEv) (x : SymAddr) : Bool := e.isStore && e.addr.includes x

theorem kind_clearObserved (e : SymEv) :
    e.clearObserved.kind = if e.kind = .store then .unobsStore else e.kind := by
  unfold clearObserved
  split <;> rfl

theorem addr_clearObserved (e : SymEv) : e.clearObserved.addr = e.addr := by
  unfold clearObserved
  split <;> rfl

theorem isStore_clearObserved (e : SymEv) : e.clearObserved.isStore = e.isStore := by
  unfold isStore
  rw [kind_clearObserved]
  split
  · next h => simp [h]
  · rfl

theorem readsByte_clearObserved (e : SymEv) (x : SymAddr) :
    e.clearObserved.readsByte x = e.readsByte x := by
  unfold readsByte doesLoad
  rw [kind_clearObserved, addr_clearObserved]
  split
  · next h => simp [h]
  · rfl

theorem overwrites_clearObserved (e : SymEv) (x : SymAddr) :
    e.clearObserved.overwrites x = e.overwrites x := by
  unfold overwrites
  rw [isStore_clearObserved, addr_clearObserved]

end SymEv

/-- The byte is read in the sequence before a plain store overwrites it. -/
def ReadIn (x : SymAddr) (l : Sym) : Prop :=
  ∃ front e back, l = front ++ e :: back ∧ e.readsByte x ∧
    ∀ f ∈ front, f.overwrites x = false

theorem not_readIn_nil (x : SymAddr) : ¬ReadIn x [] := by
  intro ⟨front, e, back, h, _⟩
  simp at h

theorem readIn_cons {x : SymAddr} {e : SymEv} {l : Sym} :
    ReadIn x (e :: l) ↔ e.readsByte x ∨ e.overwrites x = false ∧ ReadIn x l := by
  constructor
  · intro ⟨front, f, back, h, hread, hfront⟩
    cases front with
    | nil =>
      cases h
      exact .inl hread
    | cons g front =>
      cases h
      exact .inr ⟨hfront e List.mem_cons_self, front, f, back, rfl, hread,
        fun f' hf' => hfront f' (List.mem_cons_of_mem e hf')⟩
  · intro h
    rcases h with hread | ⟨hkeep, front, f, back, rfl, hread, hfront⟩
    · exact ⟨[], e, l, rfl, hread, fun f hf => absurd hf List.not_mem_nil⟩
    · exact ⟨e :: front, f, back, rfl, hread, List.forall_mem_cons.mpr ⟨hkeep, hfront⟩⟩

theorem readIn_clearObserved {x : SymAddr} {l : Sym} :
    ReadIn x l.clearObserved ↔ ReadIn x l := by
  induction l with
  | nil => exact Iff.rfl
  | cons e l ih =>
    have hcons : Sym.clearObserved (e :: l) = e.clearObserved :: Sym.clearObserved l := rfl
    rw [hcons, readIn_cons, readIn_cons, ih, SymEv.readsByte_clearObserved,
      SymEv.overwrites_clearObserved]

/-! ## The set of the bytes that are read -/

namespace LastReads

/-- The byte is read behind this point. -/
def Live (r : LastReads) (x : SymAddr) : Prop :=
  if r.readAll then x ∉ r.lastReads else x ∈ r.lastReads

theorem live_insert_erase {r : LastReads} {a : SymAddrSize} {x : SymAddr} :
    (if r.readAll then r.erase a else r.insert a).Live x ↔ a.includes x ∨ r.Live x := by
  unfold Live
  by_cases hall : r.readAll = true
  · simp only [hall, if_true, erase, List.mem_filter, not_and, Bool.not_eq_true',
      Bool.not_eq_false]
    tauto
  · simp only [hall, if_false, Bool.false_eq_true, insert, List.mem_append, SymAddrSize.mem_bytes]

theorem live_erase_insert {r : LastReads} {a : SymAddrSize} {x : SymAddr} :
    (if r.readAll then r.insert a else r.erase a).Live x ↔
      a.includes x = false ∧ r.Live x := by
  unfold Live
  by_cases hall : r.readAll = true
  · simp only [hall, if_true, insert, List.mem_append, SymAddrSize.mem_bytes, not_or,
      Bool.not_eq_true]
  · simp only [hall, if_false, Bool.false_eq_true, erase, List.mem_filter, Bool.not_eq_true']
    tauto

end LastReads

theorem live_recomputeObservedEvent {e : SymEv} (he : e.kind ≠ .store) {r : LastReads}
    {x : SymAddr} :
    (recomputeObservedEvent e r).2.Live x ↔
      e.readsByte x ∨ e.overwrites x = false ∧ r.Live x := by
  unfold recomputeObservedEvent SymEv.readsByte SymEv.overwrites SymEv.doesLoad SymEv.isStore
  cases hkind : e.kind with
  | load => simp [LastReads.live_insert_erase]
  | cmpxhg => simp [LastReads.live_insert_erase]
  | cmpxhgFail => simp [LastReads.live_insert_erase]
  | unobsStore => simp [LastReads.live_erase_insert]
  | fullmem => simp [LastReads.Live]
  | store => exact absurd hkind he
  | _ => exact ⟨fun h => .inr ⟨rfl, h⟩, fun h => h.elim (fun h => nomatch h) And.right⟩

/-! ## The loop -/

theorem recomputeObservedSym_cons (e : SymEv) (l : Sym) (r : LastReads) :
    recomputeObservedSym (e :: l) r =
      ((recomputeObservedEvent e (recomputeObservedSym l r).2).1 ::
        (recomputeObservedSym l r).1,
      (recomputeObservedEvent e (recomputeObservedSym l r).2).2) := rfl

theorem recomputeObservedSym_append (l l' : Sym) (r : LastReads) :
    recomputeObservedSym (l ++ l') r =
      ((recomputeObservedSym l (recomputeObservedSym l' r).2).1 ++
        (recomputeObservedSym l' r).1,
      (recomputeObservedSym l (recomputeObservedSym l' r).2).2) := by
  induction l with
  | nil => rfl
  | cons e l ih => rw [List.cons_append, recomputeObservedSym_cons, ih,
      recomputeObservedSym_cons]; rfl

/-- The loop over the branches is the loop over all events. -/
theorem flatMap_recomputeObserved (v : List Branch) :
    (recomputeObserved v).flatMap Branch.sym =
      (recomputeObservedSym (Sym.clearObserved (v.flatMap Branch.sym)) {}).1 := by
  have hboth : ∀ v : List Branch,
      let done := v.foldr (fun b (acc : List Branch × LastReads) =>
        let done := recomputeObservedSym b.sym.clearObserved acc.2
        ({ b with sym := done.1 } :: acc.1, done.2)) ([], {})
      recomputeObservedSym (Sym.clearObserved (v.flatMap Branch.sym)) {} =
        (done.1.flatMap Branch.sym, done.2) := by
    intro v
    induction v with
    | nil => rfl
    | cons b v ih =>
      have hclear : Sym.clearObserved ((b :: v).flatMap Branch.sym) =
          b.sym.clearObserved ++ Sym.clearObserved (v.flatMap Branch.sym) := by
        rw [List.flatMap_cons]
        exact List.map_append
      rw [hclear, recomputeObservedSym_append, ih]
      rfl
  rw [hboth v]
  rfl

/-- What the loop does to the event at a position. -/
theorem getElem?_recomputeObservedSym (l : Sym) (r : LastReads) (k : Nat) :
    (recomputeObservedSym l r).1[k]? = l[k]?.map fun e =>
      (recomputeObservedEvent e (recomputeObservedSym (l.drop (k + 1)) r).2).1 := by
  induction l generalizing k with
  | nil => rfl
  | cons e l ih =>
    rw [recomputeObservedSym_cons]
    cases k with
    | zero => rfl
    | succ k =>
      rw [List.getElem?_cons_succ, List.getElem?_cons_succ, List.drop_succ_cons]
      exact ih k

/-- The set is right at every point. -/
theorem live_recomputeObservedSym {l : Sym} (hl : ∀ e ∈ l, e.kind ≠ .store) (x : SymAddr) :
    (recomputeObservedSym l {}).2.Live x ↔ ReadIn x l := by
  induction l with
  | nil => exact iff_of_false (by simp [recomputeObservedSym, LastReads.Live]) (not_readIn_nil x)
  | cons e l ih =>
    rw [recomputeObservedSym_cons, readIn_cons,
      live_recomputeObservedEvent (hl e List.mem_cons_self),
      ih fun f hf => hl f (List.mem_cons_of_mem e hf)]

theorem readAll_recomputeObservedEvent (e : SymEv) (r : LastReads) :
    (recomputeObservedEvent e r).2.readAll = (decide (e.kind = .fullmem) || r.readAll) := by
  have hkeep : ∀ a, (r.insert a).readAll = r.readAll ∧ (r.erase a).readAll = r.readAll :=
    fun _ => ⟨rfl, rfl⟩
  unfold recomputeObservedEvent
  cases e.kind <;> simp only [reduceCtorEq, decide_false, Bool.false_or, decide_true,
    Bool.true_or]
  all_goals split <;> simp [hkeep]

theorem readAll_recomputeObservedSym (l : Sym) :
    (recomputeObservedSym l {}).2.readAll = l.any fun e => e.kind = .fullmem := by
  induction l with
  | nil => rfl
  | cons e l ih => rw [recomputeObservedSym_cons, readAll_recomputeObservedEvent, ih,
      List.any_cons]

/-- The test of a store.  Behind a full memory conflict it asks whether all of
its bytes are read. -/
theorem observes_iff (r : LastReads) (a : SymAddrSize) :
    (r.readAll ^^ r.intersects a) = true ↔
      if r.readAll then ∀ x ∈ a.bytes, r.Live x else ∃ x ∈ a.bytes, r.Live x := by
  have hmeets : r.intersects a = true ↔ ∃ x ∈ a.bytes, x ∈ r.lastReads := by
    unfold LastReads.intersects
    rw [List.any_eq_true]
    simp only [SymAddrSize.mem_bytes]
    exact exists_congr fun x => and_comm
  unfold LastReads.Live
  by_cases hall : r.readAll = true
  · simp only [hall, if_true, Bool.true_xor, Bool.not_eq_true']
    rw [← Bool.not_eq_true, hmeets]
    push Not
    exact Iff.rfl
  · rw [Bool.not_eq_true] at hall
    simp only [hall, Bool.false_xor, Bool.false_eq_true, if_false]
    exact hmeets

/-! ## The stores -/

/-- After `recompute_observed` a plain store is marked as observed, exactly if
one of its bytes is read behind it before it is overwritten. -/
def RecomputesLiveness (v : List Branch) : Prop :=
  ∀ k e, (v.flatMap Branch.sym)[k]? = some e → e.isStore →
    ∃ e', ((recomputeObserved v).flatMap Branch.sym)[k]? = some e' ∧ e'.addr = e.addr ∧
      e'.isStore ∧
      (e'.kind = .store ↔ ∃ x ∈ e.addr.bytes, ReadIn x ((v.flatMap Branch.sym).drop (k + 1)))

/-- Of a plain store in front of a full memory conflict all bytes are read
behind it, or none. -/
def ReadsWhole (v : List Branch) : Prop :=
  ∀ k e, (v.flatMap Branch.sym)[k]? = some e → e.isStore →
    (∃ f ∈ (v.flatMap Branch.sym).drop (k + 1), f.kind = .fullmem) →
    ((∃ x ∈ e.addr.bytes, ReadIn x ((v.flatMap Branch.sym).drop (k + 1))) ↔
      ∀ x ∈ e.addr.bytes, ReadIn x ((v.flatMap Branch.sym).drop (k + 1)))

/-- What `recompute_observed` makes of a plain store. -/
theorem recomputeObserved_store {v : List Branch} {k : Nat} {e : SymEv}
    (he : (v.flatMap Branch.sym)[k]? = some e) (hstore : e.isStore) :
    ∃ e', ((recomputeObserved v).flatMap Branch.sym)[k]? = some e' ∧ e'.addr = e.addr ∧
      e'.isStore ∧ (e'.kind = .store ↔
        if ∃ f ∈ (v.flatMap Branch.sym).drop (k + 1), f.kind = .fullmem then
          ∀ x ∈ e.addr.bytes, ReadIn x ((v.flatMap Branch.sym).drop (k + 1))
        else ∃ x ∈ e.addr.bytes, ReadIn x ((v.flatMap Branch.sym).drop (k + 1))) := by
  generalize hL : v.flatMap Branch.sym = L at he
  have hclear : e.clearObserved.kind = .unobsStore := by
    rw [SymEv.kind_clearObserved]
    simp only [SymEv.isStore, Bool.or_eq_true, decide_eq_true_eq] at hstore
    rcases hstore with hkind | hkind <;> simp [hkind]
  have hdrop : (Sym.clearObserved L).drop (k + 1) = Sym.clearObserved (L.drop (k + 1)) :=
    List.map_drop.symm
  have hcleared : ∀ f ∈ Sym.clearObserved (L.drop (k + 1)), f.kind ≠ .store := by
    intro f hf
    obtain ⟨g, _, rfl⟩ := List.mem_map.mp hf
    rw [SymEv.kind_clearObserved]
    split
    · decide
    · next hne => exact hne
  -- the set behind the store
  generalize hr : (recomputeObservedSym (Sym.clearObserved (L.drop (k + 1))) {}).2 = r
  have hlive : ∀ x, r.Live x ↔ ReadIn x (L.drop (k + 1)) := by
    intro x
    rw [← hr, live_recomputeObservedSym hcleared, readIn_clearObserved]
  have hall : r.readAll = true ↔ ∃ f ∈ L.drop (k + 1), f.kind = .fullmem := by
    rw [← hr, readAll_recomputeObservedSym, List.any_eq_true]
    simp only [Sym.clearObserved, List.mem_map, decide_eq_true_eq, exists_exists_and_eq_and]
    refine exists_congr fun f => and_congr_right fun _ => ?_
    rw [SymEv.kind_clearObserved]
    split
    · next hkind => simp [hkind]
    · exact Iff.rfl
  have htest := observes_iff r e.addr
  simp only [hlive, hall] at htest
  rw [flatMap_recomputeObserved, hL, getElem?_recomputeObservedSym, hdrop, hr]
  have hget : (Sym.clearObserved L)[k]? = some e.clearObserved := by
    rw [Sym.clearObserved, List.getElem?_map, he]
    rfl
  rw [hget, Option.map_some]
  refine ⟨_, rfl, ?_⟩
  unfold recomputeObservedEvent
  rw [hclear]
  dsimp only
  rw [SymEv.addr_clearObserved, ← htest]
  split
  · next hobserved => exact ⟨rfl, rfl, iff_of_true rfl hobserved⟩
  · next hobserved =>
    refine ⟨SymEv.addr_clearObserved e, by simp [SymEv.isStore, hclear], ?_⟩
    exact iff_of_false (by rw [hclear]; decide) hobserved

/-- The stores are marked right, exactly if those in front of a full memory
conflict are read as a whole or not at all. -/
theorem recomputesLiveness_iff (v : List Branch) : RecomputesLiveness v ↔ ReadsWhole v := by
  constructor
  · intro h k e he hstore hfull
    obtain ⟨e', hget, _, _, hkind⟩ := h k e he hstore
    obtain ⟨e'', hget', _, _, hkind'⟩ := recomputeObserved_store he hstore
    obtain rfl := Option.some.inj (hget.symm.trans hget')
    rw [if_pos hfull] at hkind'
    exact hkind.symm.trans hkind'
  · intro h k e he hstore
    obtain ⟨e', hget, haddr, hstays, hkind⟩ := recomputeObserved_store he hstore
    refine ⟨e', hget, haddr, hstays, hkind.trans ?_⟩
    split
    · next hfull => exact (h k e he hstore hfull).symm
    · exact Iff.rfl

/-- A store of two bytes of which one is overwritten, and a full memory
conflict. -/
def halfRead : List Branch :=
  [{ pid := 0, sym := [.store ⟨.global 0, 0, 2⟩ none, .store ⟨.global 0, 0, 1⟩ none, .fullmem] }]

/-- The other byte is read, and the store is not marked. -/
theorem not_recomputesLiveness : ¬∀ v : List Branch, RecomputesLiveness v := by
  intro h
  obtain ⟨e', hget, _, _, hkind⟩ := h halfRead 0 (.store ⟨.global 0, 0, 2⟩ none) rfl rfl
  have hunobs : ((recomputeObserved halfRead).flatMap Branch.sym)[0]? =
      some (.unobsStore ⟨.global 0, 0, 2⟩ none) := by decide +kernel
  obtain rfl := Option.some.inj (hunobs.symm.trans hget)
  have hread : ReadIn ⟨.global 0, 1⟩ [.store ⟨.global 0, 0, 1⟩ none, .fullmem] :=
    ⟨[.store ⟨.global 0, 0, 1⟩ none], .fullmem, [], rfl, rfl, by decide⟩
  exact absurd (hkind.mpr ⟨⟨.global 0, 1⟩, by decide, hread⟩) (by decide)

end ViEqui.Tso
