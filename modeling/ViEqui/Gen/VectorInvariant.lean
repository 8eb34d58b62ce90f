import ViEqui.Gen.VectorFamily
import ViEqui.Gen.VectorOps

/-!
# The invariant of a family of vectors

A limb and a root have one owner (`limbOwner`, `rootOwner`).  A vector that
does not own a limb shares it with its source (`linked`), and the counters of
the sources count their copies (`counted`).

* `root_of` and `limb_of` follow the sources of a vector to the owner of what
  it reads: the vector itself, or an older vector that has a copy.
* `Inv.rewrite` is the step of a change.  A vector without copies may be
  rewritten, and no other vector reads what changes.
* `Inv.release` and `Inv.addCopy` are the steps of destruction and of copies,
  and `Inv.swap` is that of a move.
-/

namespace ViEqui.Gen

namespace Family

variable {T : Type} {limbSize : Nat}

def Live (F : Family T) (v : Vector) : Prop := ∃ i, F.vector i = some v

/-- The vectors that were copied from the vector with this counter. -/
def copies (F : Family T) (count : Nat) : Nat :=
  F.vectors.countP fun v => v.any fun v => v.debugParent == some count

def HasCopy (F : Family T) (v : Vector) : Prop :=
  ∃ w, F.Live w ∧ w.debugParent = some v.debugRefcount

/-- What a vector shares, it shares with its source. -/
structure Linked (limbSize : Nat) (F : Family T) (v : Vector) : Prop where
  noSource : v.debugParent = none → v.start ≠ none →
    v.last ≠ none ∧ ∀ k < v.limbCount limbSize, v.cow F.memory k = false
  source : ∀ count, v.debugParent = some count → ∃ p, F.Live p ∧
    p.debugRefcount = count ∧ count < v.debugRefcount ∧
    (v.last = none → v.start = p.start) ∧
    ∀ k < v.limbCount limbSize, v.cow F.memory k = true →
      k < p.limbCount limbSize ∧ v.limbAt F.memory k = p.limbAt F.memory k

structure Inv (limbSize : Nat) (F : Family T) : Prop where
  shape : ∀ v, F.Live v → v.Shape limbSize F.memory
  pos : ∀ v, F.Live v → v.start ≠ none → 0 < v.size
  counted : ∀ v, F.Live v →
    F.memory.counts.read v.debugRefcount = some (F.copies v.debugRefcount)
  distinct : ∀ i j v w, F.vector i = some v → F.vector j = some w →
    v.debugRefcount = w.debugRefcount → i = j
  linked : ∀ v, F.Live v → F.Linked limbSize v
  rootOwner : ∀ v w r, F.Live v → F.Live w → v.OwnsRoot r → w.OwnsRoot r → v = w
  limbOwner : ∀ v w j k a, F.Live v → F.Live w →
    v.Owns limbSize F.memory j a → w.Owns limbSize F.memory k a → v = w

/-! ## Places in the list of vectors -/

theorem vector_lt {F : Family T} {i : Nat} {v : Vector}
    (h : F.vector i = some v) : i < F.vectors.length := by
  by_cases hi : i < F.vectors.length
  · exact hi
  · rw [vector, List.getElem?_eq_none (Nat.le_of_not_lt hi)] at h
    cases h

theorem mem_vectors {F : Family T} {i : Nat} {v : Vector}
    (h : F.vector i = some v) : some v ∈ F.vectors := by
  rw [vector, Option.join_eq_some_iff] at h
  exact List.mem_of_getElem? h

theorem vector_set {F : Family T} {i : Nat} (hi : i < F.vectors.length)
    (m : Memory T) (x : Option Vector) (j : Nat) :
    vector ⟨m, F.vectors.set i x⟩ j = if j = i then x else F.vector j := by
  show ((F.vectors.set i x)[j]?).join = _
  by_cases heq : j = i
  · rw [if_pos heq, heq, List.getElem?_set_self hi]
    rfl
  · rw [if_neg heq, List.getElem?_set_ne (Ne.symm heq)]
    rfl

/-- The vectors after place `i` was given `x`. -/
theorem live_set {F : Family T} {i : Nat} (hi : i < F.vectors.length)
    (m : Memory T) (x : Option Vector) (w : Vector) :
    Live ⟨m, F.vectors.set i x⟩ w ↔
      x = some w ∨ ∃ j, j ≠ i ∧ F.vector j = some w := by
  constructor
  · intro h
    obtain ⟨j, hj⟩ := h
    rw [vector_set hi] at hj
    by_cases heq : j = i
    · rw [if_pos heq] at hj
      exact Or.inl hj
    · rw [if_neg heq] at hj
      exact Or.inr ⟨j, heq, hj⟩
  · intro h
    cases h with
    | inl hx => exact ⟨i, by rw [vector_set hi, if_pos rfl, hx]⟩
    | inr h =>
      obtain ⟨j, hne, hj⟩ := h
      exact ⟨j, by rw [vector_set hi, if_neg hne, hj]⟩

/-- The copies after place `i` was given `x`. -/
theorem copies_set {F : Family T} {i : Nat} (hi : i < F.vectors.length)
    (m : Memory T) (x : Option Vector) (count : Nat) :
    copies ⟨m, F.vectors.set i x⟩ count +
        (if ((F.vector i).any fun v => v.debugParent == some count) then 1 else 0) =
      F.copies count +
        (if (x.any fun v => v.debugParent == some count) then 1 else 0) := by
  have hvector : F.vector i = F.vectors[i] := by
    rw [vector, List.getElem?_eq_getElem hi]
    rfl
  rw [copies, copies, List.countP_set hi, ← hvector]
  by_cases hold : ((F.vector i).any fun v => v.debugParent == some count) = true
  · have hpos : 0 < F.vectors.countP
        fun v => v.any fun v => v.debugParent == some count := by
      rw [List.countP_pos_iff]
      exact ⟨_, List.getElem_mem hi, by rw [← hvector]; exact hold⟩
    rw [if_pos hold]
    omega
  · rw [if_neg hold]
    omega

theorem copies_eq_zero_iff {F : Family T} {v : Vector} :
    F.copies v.debugRefcount = 0 ↔ ¬ F.HasCopy v := by
  rw [copies, List.countP_eq_zero]
  constructor
  · intro h hcopy
    obtain ⟨w, ⟨i, hi⟩, hparent⟩ := hcopy
    apply h _ (mem_vectors hi)
    rw [Option.any_some, hparent]
    exact beq_self_eq_true _
  · intro h x hx hany
    cases x with
    | none => cases hany
    | some w =>
      rw [Option.any_some, beq_iff_eq] at hany
      obtain ⟨i, hi, hget⟩ := List.mem_iff_getElem.mp hx
      refine h ⟨w, ⟨i, ?_⟩, hany⟩
      rw [vector, List.getElem?_eq_getElem hi, hget]
      rfl

/-! ## Owners -/

namespace Inv

variable {F : Family T}

/-- A root that is read is owned by the reader or by an older vector that has
a copy. -/
theorem root_of (hinv : F.Inv limbSize) {w : Vector} (hw : F.Live w) {r : Nat}
    (hr : w.start = some r) : ∃ u, F.Live u ∧ u.OwnsRoot r ∧
      (u = w ∨ F.HasCopy u ∧ u.debugRefcount < w.debugRefcount) := by
  induction hn : w.debugRefcount using Nat.strongRecOn generalizing w with
  | ind n ih =>
    by_cases hlast : w.last = none
    · have hstart : w.start ≠ none := by
        rw [hr]
        exact Option.some_ne_none r
      cases hparent : w.debugParent with
      | none => exact absurd hlast ((hinv.linked w hw).noSource hparent hstart).1
      | some count =>
        obtain ⟨p, hp, hcount, hlt, hshared, _⟩ :=
          (hinv.linked w hw).source count hparent
        rw [← hcount] at hlt hparent
        obtain ⟨u, hu, hown, hor⟩ := ih p.debugRefcount (hn ▸ hlt) hp
          ((hshared hlast).symm.trans hr) rfl
        refine ⟨u, hu, hown, Or.inr ?_⟩
        cases hor with
        | inl heq =>
          rw [heq]
          exact ⟨⟨w, hw, hparent⟩, hn ▸ hlt⟩
        | inr h => exact ⟨h.1, Nat.lt_trans h.2 (hn ▸ hlt)⟩
    · exact ⟨w, hw, ⟨hlast, hr⟩, Or.inl rfl⟩

/-- The same for limbs. -/
theorem limb_of (hinv : F.Inv limbSize) {w : Vector} (hw : F.Live w) {k a : Nat}
    (hk : k < w.limbCount limbSize) (ha : w.limbAt F.memory k = some a) :
    ∃ u, F.Live u ∧ (∃ j, u.Owns limbSize F.memory j a) ∧
      (u = w ∨ F.HasCopy u ∧ u.debugRefcount < w.debugRefcount) := by
  induction hn : w.debugRefcount using Nat.strongRecOn generalizing w with
  | ind n ih =>
    cases hcow : w.cow F.memory k with
    | false => exact ⟨w, hw, ⟨k, hk, ha, hcow⟩, Or.inl rfl⟩
    | true =>
      have hstart : w.start ≠ none := by
        intro h
        rw [Vector.limbAt, Vector.root, h] at ha
        cases ha
      cases hparent : w.debugParent with
      | none =>
        have hclear := ((hinv.linked w hw).noSource hparent hstart).2 k hk
        rw [hcow] at hclear
        cases hclear
      | some count =>
        obtain ⟨p, hp, hcount, hlt, _, hshared⟩ :=
          (hinv.linked w hw).source count hparent
        obtain ⟨hkp, hat⟩ := hshared k hk hcow
        rw [← hcount] at hlt hparent
        obtain ⟨u, hu, hown, hor⟩ := ih p.debugRefcount (hn ▸ hlt) hp hkp
          (hat.symm.trans ha) rfl
        refine ⟨u, hu, hown, Or.inr ?_⟩
        cases hor with
        | inl heq =>
          rw [heq]
          exact ⟨⟨w, hw, hparent⟩, hn ▸ hlt⟩
        | inr h => exact ⟨h.1, Nat.lt_trans h.2 (hn ▸ hlt)⟩

/-- Nobody else reads the root of a vector without copies. -/
theorem not_ownsRoot (hinv : F.Inv limbSize) {v w : Vector} (hv : F.Live v)
    (hcopy : ¬ F.HasCopy v) (hw : F.Live w) (hne : w ≠ v) {r : Nat}
    (hr : w.start = some r) : ¬ v.OwnsRoot r := by
  intro hown
  obtain ⟨u, hu, hownU, hor⟩ := hinv.root_of hw hr
  have heq := hinv.rootOwner v u r hv hu hown hownU
  rw [← heq] at hor
  exact hor.elim (fun h => hne h.symm) (fun h => hcopy h.1)

/-- Nobody else reads the limbs of a vector without copies. -/
theorem not_owns (hinv : F.Inv limbSize) {v w : Vector} (hv : F.Live v)
    (hcopy : ¬ F.HasCopy v) (hw : F.Live w) (hne : w ≠ v) {k a : Nat}
    (hk : k < w.limbCount limbSize) (ha : w.limbAt F.memory k = some a)
    (j : Nat) : ¬ v.Owns limbSize F.memory j a := by
  intro hown
  obtain ⟨u, hu, ⟨i, hownU⟩, hor⟩ := hinv.limb_of hw hk ha
  have heq := hinv.limbOwner v u j i a hv hu hown hownU
  rw [← heq] at hor
  exact hor.elim (fun h => hne h.symm) (fun h => hcopy h.1)

/-- Memory that changes only where `v` owns it is the same for the others. -/
theorem agree (hinv : F.Inv limbSize) {v w : Vector} (hv : F.Live v)
    (hcopy : ¬ F.HasCopy v) (hw : F.Live w) (hne : w ≠ v) {m' : Memory T}
    (hroots : ∀ r, F.memory.roots.read r ≠ none → ¬ v.OwnsRoot r →
      m'.roots.read r = F.memory.roots.read r)
    (hlimbs : ∀ a, F.memory.limbs.read a ≠ none →
      (∀ k, ¬ v.Owns limbSize F.memory k a) →
      m'.limbs.read a = F.memory.limbs.read a) :
    w.Agree limbSize F.memory m' where
  root := by
    unfold Vector.root
    cases hr : w.start with
    | none => rfl
    | some r =>
      obtain ⟨root, hread⟩ := (hinv.shape w hw).read r hr
      rw [Option.bind_some, Option.bind_some]
      apply hroots r
      · rw [hread]
        exact Option.some_ne_none root
      · exact hinv.not_ownsRoot hv hcopy hw hne hr
  limbs := by
    intro k hk a ha
    obtain ⟨b, limb, hb, hread, _⟩ := (hinv.shape w hw).limb k hk
    rw [ha] at hb
    cases hb
    apply hlimbs a
    · rw [hread]
      exact Option.some_ne_none limb
    · exact hinv.not_owns hv hcopy hw hne hk ha

/-! ## One change -/

theorem ne_of_ne (hinv : F.Inv limbSize) {i j : Nat} {v w : Vector}
    (hi : F.vector i = some v) (hj : F.vector j = some w) (hne : j ≠ i) :
    w ≠ v := by
  intro heq
  exact hne (hinv.distinct j i w v hj hi (by rw [heq]))

theorem rewrite (hinv : F.Inv limbSize) {i : Nat} {v : Vector}
    (hi : F.vector i = some v) (hcopy : ¬ F.HasCopy v) {m' : Memory T}
    {v' : Vector} (h : Vector.Rewrites limbSize F.memory v m' v')
    (hshape : v'.Shape limbSize m') (hpos : 0 < v'.size) :
    (F.put i m' v').Inv limbSize := by
  have hv : F.Live v := ⟨i, hi⟩
  have hother : ∀ j w, j ≠ i → F.vector j = some w →
      w ≠ v ∧ w.Agree limbSize F.memory m' := by
    intro j w hne hj
    have hwv := hinv.ne_of_ne hi hj hne
    exact ⟨hwv, hinv.agree hv hcopy ⟨j, hj⟩ hwv h.roots h.limbs⟩
  have hlive : ∀ w, (F.put i m' v').Live w ↔
      some v' = some w ∨ ∃ j, j ≠ i ∧ F.vector j = some w :=
    live_set (vector_lt hi) m' (some v')
  have hcopies : ∀ count, (F.put i m' v').copies count = F.copies count := by
    intro count
    have hset := copies_set (vector_lt hi) m' (some v') count
    rw [hi, Option.any_some, Option.any_some, h.debugParent] at hset
    show copies ⟨m', F.vectors.set i (some v')⟩ count = _
    omega
  -- The source of a vector stands in another place than its copy.
  have hsource : ∀ p, F.Live p → p ≠ v →
      (F.put i m' v').Live p ∧ p.Agree limbSize F.memory m' := by
    intro p hp hne
    obtain ⟨l, hl⟩ := hp
    have hli : l ≠ i := by
      intro heq
      rw [heq, hi] at hl
      exact hne (Option.some.inj hl).symm
    exact ⟨(hlive p).mpr (Or.inr ⟨l, hli, hl⟩), (hother l p hli hl).2⟩
  have hrootCross : ∀ j w r, j ≠ i → F.vector j = some w → v'.OwnsRoot r →
      ¬ w.OwnsRoot r := by
    intro j w r hne hj hown hownW
    cases h.ownRoot r hown with
    | inl hownV =>
      exact (hother j w hne hj).1 (hinv.rootOwner w v r ⟨j, hj⟩ hv hownW hownV)
    | inr hdead =>
      obtain ⟨root, hread⟩ := (hinv.shape w ⟨j, hj⟩).read r hownW.2
      rw [hdead] at hread
      cases hread
  have hlimbCross : ∀ j w k l a, j ≠ i → F.vector j = some w →
      v'.Owns limbSize m' k a → ¬ w.Owns limbSize F.memory l a := by
    intro j w k l a hne hj hown hownW
    cases h.own k a hown with
    | inl hownV =>
      obtain ⟨k', hownV⟩ := hownV
      exact (hother j w hne hj).1
        (hinv.limbOwner w v l k' a ⟨j, hj⟩ hv hownW hownV)
    | inr hdead =>
      obtain ⟨b, limb, hb, hread, _⟩ := (hinv.shape w ⟨j, hj⟩).limb l hownW.1
      rw [hownW.2.1] at hb
      rw [← Option.some.inj hb, hdead] at hread
      cases hread
  constructor
  · intro w hw
    cases (hlive w).mp hw with
    | inl heq =>
      cases heq
      exact hshape
    | inr hold =>
      obtain ⟨j, hne, hj⟩ := hold
      exact (hother j w hne hj).2.shape (hinv.shape w ⟨j, hj⟩)
  · intro w hw hstart
    cases (hlive w).mp hw with
    | inl heq =>
      cases heq
      exact hpos
    | inr hold =>
      obtain ⟨j, hne, hj⟩ := hold
      exact hinv.pos w ⟨j, hj⟩ hstart
  · intro w hw
    show m'.counts.read w.debugRefcount = _
    rw [h.counts, hcopies]
    cases (hlive w).mp hw with
    | inl heq =>
      cases heq
      rw [h.debugRefcount]
      exact hinv.counted v hv
    | inr hold =>
      obtain ⟨j, _, hj⟩ := hold
      exact hinv.counted w ⟨j, hj⟩
  · intro j l w u hj hl heq
    have hback : ∀ k x, (F.put i m' v').vector k = some x →
        ∃ y, F.vector k = some y ∧ y.debugRefcount = x.debugRefcount := by
      intro k x hk
      have hk' := hk
      rw [put, vector_set (vector_lt hi)] at hk'
      by_cases hki : k = i
      · rw [if_pos hki] at hk'
        cases hk'
        exact ⟨v, by rw [hki, hi], h.debugRefcount.symm⟩
      · rw [if_neg hki] at hk'
        exact ⟨x, hk', rfl⟩
    obtain ⟨w₀, hw₀, hwref⟩ := hback j w hj
    obtain ⟨u₀, hu₀, huref⟩ := hback l u hl
    exact hinv.distinct j l w₀ u₀ hw₀ hu₀ (by rw [hwref, huref, heq])
  · intro w hw
    cases (hlive w).mp hw with
    | inl heq =>
      cases heq
      have hlinked := hinv.linked v hv
      constructor
      · intro hparent _
        rw [h.debugParent] at hparent
        refine ⟨h.last, ?_⟩
        intro k hk
        cases hcow : v'.cow m' k with
        | false => exact hcow
        | true =>
          obtain ⟨hkv, hcowV, _⟩ := h.shared k hk hcow
          have hstart : v.start ≠ none := by
            intro hnull
            obtain ⟨a, _, hat, _⟩ := (hinv.shape v hv).limb k hkv
            rw [Vector.limbAt, Vector.root, hnull] at hat
            cases hat
          rw [(hlinked.noSource hparent hstart).2 k hkv] at hcowV
          cases hcowV
      · intro count hparent
        rw [h.debugParent] at hparent
        obtain ⟨p, hp, hcount, hlt, _, hshared⟩ := hlinked.source count hparent
        have hpv : p ≠ v := by
          intro heq
          rw [← hcount, heq] at hlt
          exact Nat.lt_irrefl _ hlt
        obtain ⟨hp', hagree⟩ := hsource p hp hpv
        refine ⟨p, hp', hcount, by rw [h.debugRefcount]; exact hlt,
          fun hnone => absurd hnone h.last, ?_⟩
        intro k hk hcow
        obtain ⟨hkv, hcowV, hat⟩ := h.shared k hk hcow
        obtain ⟨hkp, hatP⟩ := hshared k hkv hcowV
        refine ⟨hkp, ?_⟩
        show v'.limbAt m' k = p.limbAt m' k
        rw [hat, hatP, hagree.limbAt]
    | inr hold =>
      obtain ⟨j, hne, hj⟩ := hold
      obtain ⟨_, hagree⟩ := hother j w hne hj
      have hlinked := hinv.linked w ⟨j, hj⟩
      constructor
      · intro hparent hstart
        obtain ⟨hlast, hclear⟩ := hlinked.noSource hparent hstart
        refine ⟨hlast, fun k hk => ?_⟩
        show w.cow m' k = false
        rw [hagree.cow]
        exact hclear k hk
      · intro count hparent
        obtain ⟨p, hp, hcount, hlt, hroot, hshared⟩ :=
          hlinked.source count hparent
        have hpv : p ≠ v := by
          intro heq
          exact hcopy ⟨w, ⟨j, hj⟩, by rw [hparent, ← hcount, heq]⟩
        obtain ⟨hp', hagreeP⟩ := hsource p hp hpv
        refine ⟨p, hp', hcount, hlt, hroot, ?_⟩
        intro k hk hcow
        have hcow' : w.cow m' k = true := hcow
        rw [hagree.cow] at hcow'
        obtain ⟨hkp, hat⟩ := hshared k hk hcow'
        refine ⟨hkp, ?_⟩
        show w.limbAt m' k = p.limbAt m' k
        rw [hagree.limbAt, hagreeP.limbAt, hat]
  · intro w u r hw hu hownW hownU
    cases (hlive w).mp hw with
    | inl hw' =>
      cases hw'
      cases (hlive u).mp hu with
      | inl hu' =>
        cases hu'
        rfl
      | inr hold =>
        obtain ⟨j, hne, hj⟩ := hold
        exact absurd hownU (hrootCross j u r hne hj hownW)
    | inr hold =>
      obtain ⟨j, hne, hj⟩ := hold
      cases (hlive u).mp hu with
      | inl hu' =>
        cases hu'
        exact absurd hownW (hrootCross j w r hne hj hownU)
      | inr hold' =>
        obtain ⟨l, _, hl⟩ := hold'
        exact hinv.rootOwner w u r ⟨j, hj⟩ ⟨l, hl⟩ hownW hownU
  · intro w u k l a hw hu hownW hownU
    cases (hlive w).mp hw with
    | inl hw' =>
      cases hw'
      cases (hlive u).mp hu with
      | inl hu' =>
        cases hu'
        rfl
      | inr hold =>
        obtain ⟨j, hne, hj⟩ := hold
        have hown := ((hother j u hne hj).2.owns l a).mp hownU
        exact absurd hown (hlimbCross j u k l a hne hj hownW)
    | inr hold =>
      obtain ⟨j, hne, hj⟩ := hold
      have hown := ((hother j w hne hj).2.owns k a).mp hownW
      cases (hlive u).mp hu with
      | inl hu' =>
        cases hu'
        exact absurd hown (hlimbCross j w l k a hne hj hownU)
      | inr hold' =>
        obtain ⟨j', hne', hj'⟩ := hold'
        have hown' := ((hother j' u hne' hj').2.owns l a).mp hownU
        exact hinv.limbOwner w u k l a ⟨j, hj⟩ ⟨j', hj'⟩ hown hown'

/-! ## Destruction -/

/-- The memory after a destruction of `v`. -/
structure Releases (limbSize : Nat) (m : Memory T) (v : Vector)
    (m' : Memory T) : Prop where
  roots : ∀ r, ¬ v.OwnsRoot r → m'.roots.read r = m.roots.read r
  limbs : ∀ a, (∀ k, ¬ v.Owns limbSize m k a) →
    m'.limbs.read a = m.limbs.read a
  counts : ∀ count n, count ≠ v.debugRefcount → m.counts.read count = some n →
    m'.counts.read count =
      some (if v.debugParent = some count then n - 1 else n)

theorem release (hinv : F.Inv limbSize) {i : Nat} {v : Vector}
    (hi : F.vector i = some v) (hcopy : ¬ F.HasCopy v) {m' : Memory T}
    (h : Releases limbSize F.memory v m') :
    Inv limbSize ⟨m', F.vectors.set i none⟩ := by
  have hlive : ∀ w, Live ⟨m', F.vectors.set i none⟩ w ↔
      ∃ j, j ≠ i ∧ F.vector j = some w := by
    intro w
    rw [live_set (vector_lt hi)]
    exact ⟨fun h => h.resolve_left (by simp), Or.inr⟩
  have hother : ∀ w, Live ⟨m', F.vectors.set i none⟩ w →
      F.Live w ∧ w ≠ v ∧ w.Agree limbSize F.memory m' := by
    intro w hw
    obtain ⟨j, hne, hj⟩ := (hlive w).mp hw
    have hwv := hinv.ne_of_ne hi hj hne
    exact ⟨⟨j, hj⟩, hwv, hinv.agree ⟨i, hi⟩ hcopy ⟨j, hj⟩ hwv
      (fun r _ => h.roots r) (fun a _ => h.limbs a)⟩
  have hkept : ∀ p, F.Live p → p ≠ v → Live ⟨m', F.vectors.set i none⟩ p := by
    intro p hp hne
    obtain ⟨l, hl⟩ := hp
    refine (hlive p).mpr ⟨l, ?_, hl⟩
    intro heq
    rw [heq, hi] at hl
    exact hne (Option.some.inj hl).symm
  constructor
  · intro w hw
    obtain ⟨hw₀, _, hagree⟩ := hother w hw
    exact hagree.shape (hinv.shape w hw₀)
  · intro w hw
    exact hinv.pos w (hother w hw).1
  · intro w hw
    obtain ⟨hw₀, hne, _⟩ := hother w hw
    have href : w.debugRefcount ≠ v.debugRefcount := by
      intro heq
      obtain ⟨j, hj⟩ := hw₀
      have hji := hinv.distinct j i w v hj hi heq
      rw [hji, hi] at hj
      exact hne (Option.some.inj hj).symm
    have hset := copies_set (vector_lt hi) m' none w.debugRefcount
    rw [hi, Option.any_some] at hset
    show m'.counts.read _ = _
    rw [h.counts _ _ href (hinv.counted w hw₀)]
    by_cases hparent : v.debugParent = some w.debugRefcount
    · rw [hparent, beq_self_eq_true, if_pos rfl] at hset
      rw [if_pos hparent]
      congr 1
      have hzero : (if (none : Option Vector).any
        (fun v => v.debugParent == some w.debugRefcount) = true then 1 else 0) =
          0 := rfl
      omega
    · rw [if_neg (by rw [beq_iff_eq]; exact hparent)] at hset
      rw [if_neg hparent]
      congr 1
      exact hset.symm
  · intro j l w u hj hl heq
    rw [vector_set (vector_lt hi)] at hj hl
    by_cases hji : j = i
    · rw [if_pos hji] at hj
      cases hj
    · by_cases hli : l = i
      · rw [if_pos hli] at hl
        cases hl
      · rw [if_neg hji] at hj
        rw [if_neg hli] at hl
        exact hinv.distinct j l w u hj hl heq
  · intro w hw
    obtain ⟨hw₀, _, hagree⟩ := hother w hw
    have hlinked := hinv.linked w hw₀
    constructor
    · intro hparent hstart
      obtain ⟨hlast, hclear⟩ := hlinked.noSource hparent hstart
      refine ⟨hlast, fun k hk => ?_⟩
      show w.cow m' k = false
      rw [hagree.cow]
      exact hclear k hk
    · intro count hparent
      obtain ⟨p, hp, hcount, hlt, hroot, hshared⟩ := hlinked.source count hparent
      have hpv : p ≠ v := by
        intro heq
        exact hcopy ⟨w, hw₀, by rw [hparent, ← hcount, heq]⟩
      have hp' := hkept p hp hpv
      refine ⟨p, hp', hcount, hlt, hroot, ?_⟩
      intro k hk hcow
      have hcow' : w.cow m' k = true := hcow
      rw [hagree.cow] at hcow'
      obtain ⟨hkp, hat⟩ := hshared k hk hcow'
      refine ⟨hkp, ?_⟩
      show w.limbAt m' k = p.limbAt m' k
      rw [hagree.limbAt, (hother p hp').2.2.limbAt, hat]
  · intro w u r hw hu
    exact hinv.rootOwner w u r (hother w hw).1 (hother u hu).1
  · intro w u k l a hw hu hownW hownU
    exact hinv.limbOwner w u k l a (hother w hw).1 (hother u hu).1
      (((hother w hw).2.2.owns k a).mp hownW)
      (((hother u hu).2.2.owns l a).mp hownU)

/-! ## New vectors -/

/-- A counter that was not given out has no copies. -/
theorem copies_next (hinv : F.Inv limbSize) :
    F.copies F.memory.counts.next = 0 := by
  rw [copies, List.countP_eq_zero]
  intro x hx hany
  cases x with
  | none => cases hany
  | some w =>
    rw [Option.any_some, beq_iff_eq] at hany
    obtain ⟨i, hi, hget⟩ := List.mem_iff_getElem.mp hx
    have hw : F.Live w := by
      refine ⟨i, ?_⟩
      rw [vector, List.getElem?_eq_getElem hi, hget]
      rfl
    obtain ⟨p, hp, hcount, _⟩ := (hinv.linked w hw).source _ hany
    have hread := Heap.lt_next (hinv.counted p hp)
    rw [hcount] at hread
    exact Nat.lt_irrefl _ hread

/-- A vector that shares its root, with a new counter, in an empty place. -/
theorem add (hinv : F.Inv limbSize) {j : Nat} (hj : j < F.vectors.length)
    (hdead : F.vector j = none) (m' : Memory T) (v : Vector)
    (hroots : m'.roots = F.memory.roots) (hlimbs : m'.limbs = F.memory.limbs)
    (hlast : v.last = none) (href : v.debugRefcount = F.memory.counts.next)
    (hshape : v.Shape limbSize F.memory) (hpos : v.start ≠ none → 0 < v.size)
    (hlinked : F.Linked limbSize v)
    (hnew : m'.counts.read v.debugRefcount = some 0)
    (hcounts : ∀ count n, F.memory.counts.read count = some n →
      m'.counts.read count =
        some (n + if v.debugParent = some count then 1 else 0)) :
    (F.put j m' v).Inv limbSize := by
  have hagree : ∀ w : Vector, w.Agree limbSize F.memory m' := by
    intro w
    constructor
    · unfold Vector.root
      rw [hroots]
    · intro k _ a _
      rw [hlimbs]
  have hlive : ∀ w, (F.put j m' v).Live w ↔ v = w ∨ F.Live w := by
    intro w
    rw [put, live_set hj, Option.some.injEq]
    constructor
    · exact Or.imp_right fun ⟨l, _, hl⟩ => ⟨l, hl⟩
    · refine Or.imp_right fun ⟨l, hl⟩ => ⟨l, ?_, hl⟩
      intro heq
      rw [heq, hdead] at hl
      cases hl
  have hfresh : ∀ w, F.Live w → w.debugRefcount ≠ v.debugRefcount := by
    intro w hw heq
    have hlt := Heap.lt_next (hinv.counted w hw)
    rw [heq, href] at hlt
    exact Nat.lt_irrefl _ hlt
  have hcopies : ∀ count, (F.put j m' v).copies count =
      F.copies count + if v.debugParent = some count then 1 else 0 := by
    intro count
    have hset := copies_set hj m' (some v) count
    rw [hdead, Option.any_some] at hset
    show copies ⟨m', F.vectors.set j (some v)⟩ count = _
    have hnone : (if (none : Option Vector).any
      (fun v => v.debugParent == some count) = true then 1 else 0) = 0 := rfl
    rw [hnone, Nat.add_zero] at hset
    rw [hset]
    congr 1
    exact if_congr beq_iff_eq rfl rfl
  have hmem : (F.put j m' v).memory = m' := rfl
  have howns : ∀ k a, ¬ v.Owns limbSize m' k a := by
    intro k a hown
    have hclear := hown.2.2
    rw [Vector.cow_of_last_none m' hlast] at hclear
    cases hclear
  constructor
  · intro w hw
    cases (hlive w).mp hw with
    | inl heq => exact heq ▸ (hagree v).shape hshape
    | inr hw => exact (hagree w).shape (hinv.shape w hw)
  · intro w hw
    cases (hlive w).mp hw with
    | inl heq => exact heq ▸ hpos
    | inr hw => exact hinv.pos w hw
  · intro w hw
    rw [hcopies, hmem]
    cases (hlive w).mp hw with
    | inl heq =>
      have hparent : v.debugParent ≠ some v.debugRefcount := by
        intro h
        obtain ⟨_, _, _, hlt, _⟩ := hlinked.source _ h
        exact Nat.lt_irrefl _ hlt
      rw [← heq, hnew, if_neg hparent, href, hinv.copies_next]
    | inr hw => exact hcounts _ _ (hinv.counted w hw)
  · intro k l w u hk hl heq
    rw [put, vector_set hj] at hk hl
    by_cases hkj : k = j
    · by_cases hlj : l = j
      · rw [hkj, hlj]
      · rw [if_pos hkj] at hk
        rw [if_neg hlj] at hl
        cases hk
        exact absurd heq.symm (hfresh u ⟨l, hl⟩)
    · by_cases hlj : l = j
      · rw [if_neg hkj] at hk
        rw [if_pos hlj] at hl
        cases hl
        exact absurd heq (hfresh w ⟨k, hk⟩)
      · rw [if_neg hkj] at hk
        rw [if_neg hlj] at hl
        exact hinv.distinct k l w u hk hl heq
  · intro w hw
    have hlinked' : F.Linked limbSize w := by
      cases (hlive w).mp hw with
      | inl heq => exact heq ▸ hlinked
      | inr hw => exact hinv.linked w hw
    constructor
    · intro hparent hstart
      rw [hmem]
      obtain ⟨hlast, hclear⟩ := hlinked'.noSource hparent hstart
      exact ⟨hlast, fun k hk => ((hagree w).cow k).trans (hclear k hk)⟩
    · intro count hparent
      obtain ⟨p, hp, hcount, hlt, hroot, hshared⟩ :=
        hlinked'.source count hparent
      refine ⟨p, (hlive p).mpr (Or.inr hp), hcount, hlt, hroot, ?_⟩
      intro k hk hcow
      rw [hmem, (hagree w).cow] at hcow
      rw [hmem, (hagree w).limbAt, (hagree p).limbAt]
      exact hshared k hk hcow
  · intro w u r hw hu hownW hownU
    cases (hlive w).mp hw with
    | inl heq => exact absurd hlast (heq ▸ hownW.1)
    | inr hw =>
      cases (hlive u).mp hu with
      | inl heq => exact absurd hlast (heq ▸ hownU.1)
      | inr hu => exact hinv.rootOwner w u r hw hu hownW hownU
  · intro w u k l a hw hu hownW hownU
    rw [hmem] at hownW hownU
    cases (hlive w).mp hw with
    | inl heq => exact absurd (heq ▸ hownW) (howns k a)
    | inr hw =>
      cases (hlive u).mp hu with
      | inl heq => exact absurd (heq ▸ hownU) (howns l a)
      | inr hu =>
        exact hinv.limbOwner w u k l a hw hu (((hagree w).owns k a).mp hownW)
          (((hagree u).owns l a).mp hownU)

/-- The vectors in other places. -/
theorem of_places (hinv : F.Inv limbSize) (G : Family T) (place : Nat → Nat)
    (hmem : G.memory = F.memory) (hplace : Function.Bijective place)
    (hvector : ∀ i, G.vector i = F.vector (place i))
    (hcopies : ∀ count, G.copies count = F.copies count) : G.Inv limbSize := by
  have hlive : ∀ w, G.Live w ↔ F.Live w := by
    intro w
    constructor
    · intro h
      obtain ⟨i, hi⟩ := h
      exact ⟨place i, (hvector i).symm.trans hi⟩
    · intro h
      obtain ⟨i, hi⟩ := h
      obtain ⟨k, hk⟩ := hplace.2 i
      exact ⟨k, by rw [hvector, hk, hi]⟩
  constructor
  · intro w hw
    rw [hmem]
    exact hinv.shape w ((hlive w).mp hw)
  · intro w hw
    exact hinv.pos w ((hlive w).mp hw)
  · intro w hw
    rw [hmem, hcopies]
    exact hinv.counted w ((hlive w).mp hw)
  · intro i j v w hi hj heq
    rw [hvector] at hi hj
    exact hplace.1 (hinv.distinct _ _ v w hi hj heq)
  · intro w hw
    have hlinked := hinv.linked w ((hlive w).mp hw)
    constructor
    · rw [hmem]
      exact hlinked.noSource
    · intro count hparent
      obtain ⟨p, hp, h⟩ := hlinked.source count hparent
      rw [hmem]
      exact ⟨p, (hlive p).mpr hp, h⟩
  · intro v w r hv hw
    exact hinv.rootOwner v w r ((hlive v).mp hv) ((hlive w).mp hw)
  · intro v w j k a hv hw
    rw [hmem]
    exact hinv.limbOwner v w j k a ((hlive v).mp hv) ((hlive w).mp hw)

end Inv

end Family

end ViEqui.Gen
