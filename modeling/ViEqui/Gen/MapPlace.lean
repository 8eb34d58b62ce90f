import Mathlib.Data.Option.Basic
import ViEqui.Gen.MapDisambiguate

/-!
# `mut` as a whole

`place_spec` is the end of `mut`, at a chain, and `mutFrom_spec` the whole of it
below a slot, by induction on the trie.  At level 13 the chain is empty or has
the key, unless the key is a `Clash`.
-/

namespace ViEqui.Gen.Map

open KeyedPairs (Present Distinct)

variable {K T : Type} {g : Nat} {st : Store K T} {child : Slot}

theorem hashKey_lt (hash : K → BitVec 64) (k : K) : hashKey hash k < 2 ^ 64 :=
  (hash k).isLt

/-- The hash of the existing key without the bits that were used. -/
theorem hashKey_shiftRight (hash : K → BitVec 64) (k : K) (level : Nat) :
    hashKey hash k >>> (5 * level) = hashKey hash k / 32 ^ level := by
  rw [Nat.shiftRight_eq_div_pow, Nat.pow_mul]

theorem findLeaf_next [BEq K] {leaves : List (Leaf K T)}
    (hat : At st child (.chain leaves)) (k : K) :
    findLeaf st.cells k st.cells.next (chainPtr leaves) =
      some ((leaves.find? fun x => k == x.key).map Leaf.addr) :=
  findLeaf_spec hat.cells k (length_le_next hat.cells hat.sep)

section

variable [BEq K] [Inhabited T] {hash : K → BitVec 64} {k : K}
  {all : List (K × T)} {level : Nat}

/-- A chain with other leaves for the same pairs. -/
theorem mutOf_of_pairs {h : K → Nat} {leaves leaves' : List (Leaf K T)}
    {x : Leaf K T} (hpairs : pairs leaves' = pairs leaves) (hx : x ∈ leaves')
    (hkey : (k == x.key) = true) (hg : x.generation = g)
    (hwf : (Tree.chain leaves).Wf h level) :
    (Tree.chain leaves').Wf h level ∧
      MutOf k g (.chain leaves) (.chain leaves') x.addr false := by
  have hitems : (Tree.chain leaves').items = (Tree.chain leaves).items := hpairs
  constructor
  · rw [Tree.wf_chain, hitems, ← Tree.wf_chain]
    exact hwf
  · refine ⟨?_, ?_, x.key, x.value, hkey, ?_⟩
    · rw [hitems]
      exact List.Perm.refl _
    · have hpresent : Present k (Tree.chain leaves).items := by
        rw [← hitems]
        exact ⟨(x.key, x.value), List.mem_map_of_mem hx, hkey⟩
      exact ⟨fun h => absurd h Bool.false_ne_true, fun h => absurd hpresent h⟩
    · rw [← hg]
      exact hx

/-- The key has a leaf in the chain. -/
theorem place_found {h : K → Nat} (hash : K → BitVec 64)
    {leaves : List (Leaf K T)} {x : Leaf K T}
    (hat : At st child (.chain leaves))
    (hfind : (leaves.find? fun x => k == x.key) = some x) (rest depth : Nat)
    (hwf : (Tree.chain leaves).Wf h level) :
    ∃ st' t' n, place hash g st child rest depth k = some (st', n, false) ∧
      Step g st child (.chain leaves) st' t' ∧ t'.Wf h level ∧
      MutOf k g (.chain leaves) t' n false := by
  obtain ⟨hkey, before, after, hleaves, _⟩ :=
    List.find?_eq_some_iff_append.mp hfind
  have hx : x ∈ leaves := List.mem_of_find?_eq_some hfind
  have hptr : st.get child = some (chainPtr leaves) := hat.get
  have hloop := findLeaf_next hat k
  rw [hfind, Option.map_some] at hloop
  obtain ⟨cell, hread, hcell⟩ := hat.cells.read ⟨x, hx, rfl, rfl⟩
  unfold place
  simp only [hptr, hloop, hread, Option.bind_eq_bind, Option.bind_some,
    Option.pure_def]
  by_cases hg : x.generation = g
  · rw [if_neg (fun hne => hne (hcell.trans hg))]
    obtain ⟨hwf', hmut⟩ := mutOf_of_pairs rfl hx hkey hg hwf
    exact ⟨st, _, x.addr, rfl, Step.refl hat, hwf', hmut⟩
  · rw [if_pos (fun heq => hg (hcell.symm.trans heq))]
    have hlong := length_le_next hat.cells hat.sep
    subst hleaves
    have hshort : before.length < (before ++ x :: after).length := by
      rw [List.length_append, List.length_cons]
      omega
    obtain ⟨st', n, before', hrun, hstep, hpairs⟩ :=
      uncowTo_spec before hg (st.cells.next + 1) (st.cells.next + 1) (by omega)
        (by omega) hat
    have hpairs' : pairs (before' ++ ⟨n, g, x.key, x.value⟩ :: after) =
        pairs (before ++ x :: after) := by
      unfold pairs at hpairs ⊢
      rw [List.map_append, List.map_append, hpairs]
      rfl
    obtain ⟨hwf', hmut⟩ := mutOf_of_pairs hpairs'
      (x := ⟨n, g, x.key, x.value⟩)
      (List.mem_append_right _ List.mem_cons_self) hkey rfl hwf
    refine ⟨st', _, n, ?_, hstep, hwf', hmut⟩
    rw [Option.bind_eq_some_iff] at hrun
    obtain ⟨child₁, hskip, hrun⟩ := hrun
    rw [Option.bind_eq_some_iff] at hrun
    obtain ⟨r, hbefore, hleaf⟩ := hrun
    rw [hskip, Option.bind_some, hbefore, Option.bind_some, hleaf]
    rfl

/-- The key has no leaf in the chain. -/
theorem place_absent [EquivBEq K]
    (hcons : ∀ k k', (k == k') = true → hashKey hash k = hashKey hash k')
    {leaves : List (Leaf K T)} (hat : At st child (.chain leaves))
    (habsent : ¬ Present k (Tree.chain leaves).items)
    (hlevel : leaves ≠ [] → level < 13)
    (hwf : (Tree.chain leaves).Wf (hashKey hash) level) :
    ∃ st' t' n, place hash g st child (hashKey hash k / 32 ^ level) (5 * level) k =
        some (st', n, true) ∧
      Step g st child (.chain leaves) st' t' ∧ t'.Wf (hashKey hash) level ∧
      MutOf k g (.chain leaves) t' n true := by
  have hptr : st.get child = some (chainPtr leaves) := hat.get
  have hfind : (leaves.find? fun x => k == x.key) = none := by
    rw [List.find?_eq_none]
    intro x hx hkey
    exact habsent ⟨(x.key, x.value), List.mem_map_of_mem hx, hkey⟩
  have hloop := findLeaf_next hat k
  rw [hfind, Option.map_none] at hloop
  have hwf' := Tree.wf_chain.mp hwf
  obtain ⟨st', t', n, hrun, hstep, ⟨new, hnew, hitems⟩, hmut⟩ :=
    insertLeaf_mutOf (g := g) hat habsent
  -- A leaf in front of a chain with the rest of the hash of `k`.
  have hwfNew : (∀ p ∈ (Tree.chain leaves).items,
      hashKey hash p.1 / 32 ^ level = hashKey hash k / 32 ^ level) →
      t'.Wf (hashKey hash) level := by
    intro hrest
    rw [hnew] at hitems ⊢
    apply Tree.wf_chain_of_rest (hashKey hash k / 32 ^ level)
    · rw [hitems]
      refine List.pairwise_cons.mpr ⟨fun p hp => ?_, hwf'.2⟩
      rw [← Bool.not_eq_true]
      exact fun hkey => habsent ⟨p, hp, hkey⟩
    · intro p hp
      rw [hitems] at hp
      cases List.mem_cons.mp hp with
      | inl heq => rw [heq]
      | inr hold => exact hrest p hold
  cases leaves with
  | nil =>
    refine ⟨st', t', n, ?_, hstep, hwfNew (fun p hp => by cases hp), hmut⟩
    unfold place
    simp only [hptr, hloop, Option.bind_eq_bind, Option.bind_some]
    show (insertLeaf g st child k).bind _ = _
    rw [hrun]
    rfl
  | cons x rest =>
    have hread : st.cells.read x.addr =
        some (.leaf x.generation x.key x.value (chainPtr rest)) := hat.cells.1
    have hlevel := hlevel (List.cons_ne_nil x rest)
    have hfirst : ∀ p ∈ (Tree.chain (x :: rest)).items,
        hashKey hash p.1 / 32 ^ level = hashKey hash x.key / 32 ^ level :=
      fun p hp => hwf'.1 p hp (x.key, x.value) List.mem_cons_self
    have hguard : (guard (5 * level < 64) : Option Unit) = some () := by
      rw [guard, if_pos (by omega)]
      rfl
    by_cases heq : hashKey hash x.key / 32 ^ level = hashKey hash k / 32 ^ level
    · rw [heq] at hfirst
      refine ⟨st', t', n, ?_, hstep, hwfNew hfirst, hmut⟩
      unfold place
      simp only [hptr, hloop, Option.bind_eq_bind, Option.bind_some]
      show (st.cells.read x.addr).bind _ = _
      rw [hread, Option.bind_some]
      simp only [hguard, Option.bind_some]
      rw [if_neg (fun hne => hne (by rw [hashKey_shiftRight, heq])), hrun]
      rfl
    · obtain ⟨st', t', n, hrun, hstep, hwf'', hmut⟩ :=
        disambiguate_spec (g := g) hcons (hashKey_lt hash)
          (List.ne_nil_of_mem (a := (x.key, x.value)) List.mem_cons_self) hwf'.2
          (show 13 ≤ level + maxLevels by
            unfold maxLevels
            omega) hat hfirst heq
      refine ⟨st', t', n, ?_, hstep, hwf'', hmut⟩
      rw [Option.bind_eq_some_iff] at hrun
      obtain ⟨r, hnodes, hleaf⟩ := hrun
      unfold place
      simp only [hptr, hloop, Option.bind_eq_bind, Option.bind_some]
      show (st.cells.read x.addr).bind _ = _
      rw [hread, Option.bind_some]
      simp only [hguard, Option.bind_some]
      rw [hashKey_shiftRight, if_pos heq, hnodes, Option.bind_some, hleaf]
      rfl

theorem place_spec [EquivBEq K]
    (hcons : ∀ k k', (k == k') = true → hashKey hash k = hashKey hash k')
    {leaves : List (Leaf K T)} (hat : At st child (.chain leaves))
    (hlevel : level ≤ 13) (hwf : (Tree.chain leaves).Wf (hashKey hash) level)
    (hpath : OnPath (hashKey hash) k all level (.chain leaves))
    (hclash : ¬ Clash (hashKey hash) k all) :
    ∃ st' t' n inserted,
      place hash g st child (hashKey hash k / 32 ^ level) (5 * level) k =
        some (st', n, inserted) ∧
      Step g st child (.chain leaves) st' t' ∧ t'.Wf (hashKey hash) level ∧
      MutOf k g (.chain leaves) t' n inserted := by
  cases hfind : leaves.find? fun x => k == x.key with
  | some x =>
    obtain ⟨st', t', n, hspec⟩ := place_found (g := g) hash hat hfind
      (hashKey hash k / 32 ^ level) (5 * level) hwf
    exact ⟨st', t', n, false, hspec⟩
  | none =>
    have habsent : ¬ Present k (Tree.chain leaves).items := by
      intro hpresent
      obtain ⟨p, hp, hkey⟩ := hpresent
      obtain ⟨x, hx, rfl⟩ := List.mem_map.mp hp
      exact List.find?_eq_none.mp hfind x hx hkey
    have hdeep : leaves ≠ [] → level < 13 := by
      intro hne
      by_contra hge
      have heq : level = 13 := by omega
      obtain ⟨x, hx⟩ := List.exists_mem_of_ne_nil leaves hne
      have hp : (x.key, x.value) ∈ (Tree.chain leaves).items :=
        List.mem_map_of_mem hx
      apply hclash
      refine ⟨fun hall => habsent (hpath.present hall), (x.key, x.value),
        hpath.mem _ hp, ?_, hpath.deep heq⟩
      apply eq_of_low (hpath.low _ hp)
      rw [Tree.div_eq_zero (hashKey_lt hash x.key) (by omega),
        Tree.div_eq_zero (hashKey_lt hash k) (by omega)]
    obtain ⟨st', t', n, hspec⟩ := place_absent (g := g) hcons hat habsent hdeep hwf
    exact ⟨st', t', n, true, hspec⟩

/-! ## The loop over the nodes -/

/-- `mut` from a slot on. -/
def mutFrom (hash : K → BitVec 64) (g fuel : Nat) (st : Store K T)
    (child : Slot) (rest depth : Nat) (k : K) :
    Option (Store K T × Nat × Bool) :=
  (descend g fuel st child rest depth).bind fun r =>
    place hash g r.1 r.2.1 r.2.2.1 r.2.2.2 k

theorem mutFrom_chain {leaves : List (Leaf K T)}
    (hat : At st child (.chain leaves)) (fuel rest depth : Nat) :
    mutFrom hash g (fuel + 1) st child rest depth k =
      place hash g st child rest depth k := by
  have hptr : st.get child = some (chainPtr leaves) := hat.get
  unfold mutFrom
  rw [descend, hptr]
  cases leaves with
  | nil => rfl
  | cons x rest =>
    have hread : st.cells.read x.addr =
        some (.leaf x.generation x.key x.value (chainPtr rest)) := hat.cells.1
    show Option.bind ((st.cells.read x.addr).bind _) _ = _
    rw [hread]
    rfl

/-- A round of the loop at a node of another generation. -/
theorem mutFrom_uncow {a y : Nat} {bitmap : BitVec 32} {c : Nat → Tree K T}
    (hat : At st child (.node a y bitmap c)) {rest : Nat}
    (hbit : bitmap.getLsbD (rest % 32) = true) (hy : y ≠ g) (fuel depth : Nat) :
    mutFrom hash g (fuel + 1) st child rest depth k =
      (uncowNode g st child).bind fun r => mutFrom hash g fuel r.1
        (.elem r.2 (BitSlots.above bitmap.getLsbD (rest % 32) 32 - 1))
        (rest / 32) (depth + 5) k := by
  have hptr : st.get child = some (some a) := hat.get
  have hread := hat.cells.1
  have hhas : hasBit bitmap (rest % arity) = true :=
    (hasBit_eq bitmap _).trans hbit
  unfold mutFrom
  rw [descend, hptr]
  simp only [hread, Option.bind_eq_bind, Option.bind_some, if_pos hhas,
    if_pos hy, Option.bind_assoc, position_eq]
  rfl

/-- A round of the loop at a node of this generation. -/
theorem mutFrom_own {a : Nat} {bitmap : BitVec 32} {c : Nat → Tree K T}
    (hat : At st child (.node a g bitmap c)) {rest : Nat}
    (hbit : bitmap.getLsbD (rest % 32) = true) (fuel depth : Nat) :
    mutFrom hash g (fuel + 1) st child rest depth k =
      mutFrom hash g fuel st
        (.elem a (BitSlots.above bitmap.getLsbD (rest % 32) 32 - 1))
        (rest / 32) (depth + 5) k := by
  have hptr : st.get child = some (some a) := hat.get
  have hread := hat.cells.1
  have hhas : hasBit bitmap (rest % arity) = true :=
    (hasBit_eq bitmap _).trans hbit
  unfold mutFrom
  rw [descend, hptr]
  simp only [hread, Option.bind_eq_bind, Option.bind_some, if_pos hhas,
    position_eq]
  rw [if_neg (fun hne => hne rfl)]
  rfl

/-- The last round of the loop, at a node without a child for the key. -/
theorem mutFrom_grow {a y : Nat} {bitmap : BitVec 32} {c : Nat → Tree K T}
    (hat : At st child (.node a y bitmap c)) {rest : Nat}
    (hbit : bitmap.getLsbD (rest % 32) = false) (fuel depth : Nat) :
    mutFrom hash g (fuel + 1) st child rest depth k =
      (growNode g st child (rest % 32)).bind fun r => place hash g r.1
        (.elem r.2 (BitSlots.above bitmap.getLsbD (rest % 32) 32))
        (rest / 32) (depth + 5) k := by
  have hptr : st.get child = some (some a) := hat.get
  have hread := hat.cells.1
  have hhas : ¬ hasBit bitmap (rest % arity) = true := by
    rw [hasBit_eq]
    exact fun heq => Bool.false_ne_true (hbit.symm.trans heq)
  unfold mutFrom
  rw [descend, hptr]
  simp only [hread, Option.bind_eq_bind, Option.bind_some, if_neg hhas,
    Option.bind_assoc, position_eq]
  rfl

/-- `mut` at a node without a child for the key. -/
theorem mutFrom_grow_spec [EquivBEq K]
    (hcons : ∀ k k', (k == k') = true → hashKey hash k = hashKey hash k')
    {a y : Nat} {bitmap : BitVec 32} {c : Nat → Tree K T}
    (hat : At st child (.node a y bitmap c))
    (hbit : bitmap.getLsbD (hashKey hash k / 32 ^ level % 32) = false)
    (hwf : (Tree.node a y bitmap c).Wf (hashKey hash) level) (fuel : Nat) :
    ∃ st' t' n,
      mutFrom hash g (fuel + 1) st child (hashKey hash k / 32 ^ level) (5 * level)
        k = some (st', n, true) ∧
      Step g st child (.node a y bitmap c) st' t' ∧
      t'.Wf (hashKey hash) level ∧ MutOf k g (.node a y bitmap c) t' n true := by
  generalize hkey : hashKey hash k / 32 ^ level % 32 = i at hbit
  have hi : i < 32 := hkey ▸ Nat.mod_lt _ (by omega)
  have hdepth : 5 * level + 5 = 5 * (level + 1) := by omega
  obtain ⟨st₁, n₁, hrun₁, hstep₁⟩ := growNode_spec (g := g) hat hi hbit
  have hat₁ := hstep₁.at_after hat
  have hbit₁ := getLsbD_withBit_self bitmap hi
  have habove := BitSlots.above_insert hi hbit hbit₁
    (fun j hj => getLsbD_withBit_ne bitmap hj)
  have hat₂ := hat₁.elem hi hbit₁
  rw [habove, Nat.add_sub_cancel, Function.update_self] at hat₂
  have habsent : ¬ Present k (Tree.chain ([] : List (Leaf K T))).items := by
    intro hpresent
    obtain ⟨p, hp, _⟩ := hpresent
    cases hp
  have hwfNil : (Tree.chain ([] : List (Leaf K T))).Wf (hashKey hash)
      (level + 1) :=
    Tree.wf_chain_of_rest 0 List.Pairwise.nil
      fun p hp => by cases hp
  obtain ⟨st₂, t₂, n₂, hrun₂, hstep₂, hwf₂, hmut₂⟩ := place_absent
    (g := g) hcons hat₂ habsent (fun hne => absurd rfl hne) hwfNil
  have hstep₂' : Step g st₁
      (.elem n₁ (BitSlots.above (withBit bitmap i).getLsbD i 32 - 1))
      (Function.update c i (.chain []) i) st₂ t₂ := by
    rw [habove, Nat.add_sub_cancel, Function.update_self]
    exact hstep₂
  have hmut₂' : MutOf k g (Function.update c i (.chain []) i) t₂ n₂ true := by
    rw [Function.update_self]
    exact hmut₂
  have hold : ∀ j, (withBit bitmap i).getLsbD j = true → j ≠ i →
      bitmap.getLsbD j = true ∧
        Function.update c i (.chain []) j = c j := by
    intro j hj hji
    rw [getLsbD_withBit_ne bitmap hji] at hj
    exact ⟨hj, Function.update_of_ne hji _ c⟩
  have hindex₁ : ∀ j, (withBit bitmap i).getLsbD j = true →
      ∀ p ∈ (Function.update c i (.chain []) j).items,
        hashKey hash p.1 / 32 ^ level % 32 = j := by
    intro j hj p hp
    by_cases hji : j = i
    · rw [hji, Function.update_self] at hp
      cases hp
    · obtain ⟨hj', hsame⟩ := hold j hj hji
      rw [hsame] at hp
      exact (hwf.2.1 j hj').2.2 p hp
  have hmut := hmut₂'.lift (a := n₁) hcons hbit₁ hkey hindex₁
  have hitems := Tree.items_withBit (a := n₁) (g := g) (c := c) hi hbit
  refine ⟨st₂, _, n₂, ?_,
    hstep₁.trans (hstep₂'.lift_elem hat₁ hi hbit₁), ?_, ?_⟩
  · rw [mutFrom_grow hat (by rw [hkey]; exact hbit), hkey, hrun₁, hdepth, ← Tree.div_succ]
    exact hrun₂
  · apply Tree.Wf.update hwf.1
    · intro j hj hji
      obtain ⟨hj', hsame⟩ := hold j hj hji
      rw [hsame]
      exact hwf.2.1 j hj'
    · exact hmut₂.items_ne_nil
    · exact hwf₂
    · intro p hp
      cases hmut₂.mem hp with
      | inl hp => cases hp
      | inr hp => rw [hp, hkey]
    · obtain ⟨p, hp, q, hq, hdiff⟩ := hwf.2.2
      refine ⟨p, hmut.mem_old ?_, q, hmut.mem_old ?_, hdiff⟩
      · rw [hitems]
        exact hp
      · rw [hitems]
        exact hq
  · exact hmut.of_items_eq hitems

theorem mutFrom_spec [EquivBEq K]
    (hcons : ∀ k k', (k == k') = true → hashKey hash k = hashKey hash k')
    (hclash : ¬ Clash (hashKey hash) k all) {t : Tree K T} (fuel : Nat)
    (hat : At st child t) (hlevel : level ≤ 13) (hfuel : 14 ≤ level + fuel)
    (hwf : t.Wf (hashKey hash) level)
    (hpath : OnPath (hashKey hash) k all level t) :
    ∃ st' t' n inserted,
      mutFrom hash g fuel st child (hashKey hash k / 32 ^ level) (5 * level) k =
        some (st', n, inserted) ∧
      Step g st child t st' t' ∧ t'.Wf (hashKey hash) level ∧
      MutOf k g t t' n inserted := by
  induction t generalizing level fuel st child with
  | chain leaves =>
    cases fuel with
    | zero => omega
    | succ fuel =>
      rw [mutFrom_chain hat]
      exact place_spec hcons hat hlevel hwf hpath hclash
  | node a y bitmap c ih =>
    cases fuel with
    | zero => omega
    | succ fuel =>
      let i := hashKey hash k / 32 ^ level % 32
      have hi : i < 32 := Nat.mod_lt _ (by omega)
      have hdepth : 5 * level + 5 = 5 * (level + 1) := by omega
      have hindex : ∀ j, bitmap.getLsbD j = true → ∀ p ∈ (c j).items,
          hashKey hash p.1 / 32 ^ level % 32 = j :=
        fun j hj => (hwf.2.1 j hj).2.2
      cases hbit : bitmap.getLsbD i with
      | true =>
        have hmem := Tree.mem_items_index (a := a) (g := y) hbit hindex
        have hpath' := hpath.down hcons hwf hmem
        -- The node is copied if it is of another generation.
        have hown : ∃ st₁ n₁, mutFrom hash g (fuel + 1) st child
              (hashKey hash k / 32 ^ level) (5 * level) k =
              mutFrom hash g fuel st₁
                (.elem n₁ (BitSlots.above bitmap.getLsbD i 32 - 1))
                (hashKey hash k / 32 ^ (level + 1)) (5 * (level + 1)) k ∧
            Step g st child (.node a y bitmap c) st₁ (.node n₁ g bitmap c) := by
          rw [Tree.div_succ, ← hdepth]
          by_cases hy : y = g
          · subst hy
            exact ⟨st, a, mutFrom_own hat hbit fuel _, Step.refl hat⟩
          · obtain ⟨st₁, n₁, hrun, hstep⟩ := uncowNode_spec (g := g) hat hi hbit
            refine ⟨st₁, n₁, ?_, hstep⟩
            rw [mutFrom_uncow hat hbit hy, hrun]
            rfl
        obtain ⟨st₁, n₁, hrun₁, hstep₁⟩ := hown
        have hat₁ := hstep₁.at_after hat
        obtain ⟨st₂, t₂, n₂, inserted, hrun₂, hstep₂, hwf₂, hmut₂⟩ :=
          ih i fuel (hat₁.elem hi hbit) (Nat.succ_le_of_lt hwf.1)
            (by omega) (hwf.2.1 i hbit).2.1 hpath'
        have hmut := hmut₂.lift (a := n₁) hcons hbit rfl hindex
        refine ⟨st₂, _, n₂, inserted, by rw [hrun₁, hrun₂],
          hstep₁.trans (hstep₂.lift_elem hat₁ hi hbit), ?_, hmut.items,
          hmut.inserted, hmut.leaf⟩
        apply Tree.Wf.update hwf.1
        · exact fun j hj _ => hwf.2.1 j hj
        · exact hmut₂.items_ne_nil
        · exact hwf₂
        · intro p hp
          cases hmut₂.mem hp with
          | inl hp => exact hindex i hbit p hp
          | inr hp => rw [hp]
        · obtain ⟨p, hp, q, hq, hdiff⟩ := hwf.2.2
          exact ⟨p, hmut.mem_old hp, q, hmut.mem_old hq, hdiff⟩
      | false =>
        obtain ⟨st', t', n, hgrow⟩ :=
          mutFrom_grow_spec (g := g) hcons hat hbit hwf fuel
        exact ⟨st', t', n, true, hgrow⟩

/-- `mut` on a map that the key is no `Clash` for. -/
theorem mutLeaf_spec [EquivBEq K]
    (hcons : ∀ k k', (k == k') = true → hashKey hash k = hashKey hash k')
    {t : Tree K T} (hat : At st .root t) (hwf : t.Wf (hashKey hash) 0)
    (hclash : ¬ Clash (hashKey hash) k t.items) :
    ∃ st' t' n inserted, mutLeaf hash g st k = some (st', n, inserted) ∧
      Step g st .root t st' t' ∧ t'.Wf (hashKey hash) 0 ∧
      MutOf k g t t' n inserted := by
  have hpath : OnPath (hashKey hash) k t.items 0 t := by
    refine ⟨fun _ hp => hp, id, ?_, fun h => by cases h⟩
    intro p _
    rw [Nat.pow_zero, Nat.mod_one, Nat.mod_one]
  obtain ⟨st', t', n, inserted, hrun, hspec⟩ := mutFrom_spec (g := g)
    hcons hclash maxLevels hat (by omega) (by unfold maxLevels; omega)
    hwf hpath
  refine ⟨st', t', n, inserted, ?_, hspec⟩
  rw [Nat.pow_zero, Nat.div_one] at hrun
  exact hrun

end

end ViEqui.Gen.Map
