import Mathlib.Data.List.GetD
import ViEqui.Gen.Vector

/-!
# The limbs of one vector

What a vector reads through its root, and what one operation does to it.

* The bits of a root.  `Root.bit` is the bit that `limb_is_cow` tests, and
  there is a lemma for the bits of a fresh root, of a larger root and of a root
  in which one bit was cleared.
* `Shape` is the invariant that a vector keeps on its own: its limbs are
  allocated and different, and a root of its own has room for them and no bit
  behind them.
* `Rewrites` is what a change of one vector may do to memory.  It changes only
  the root and the limbs that the vector owns, and what the vector owns
  afterwards it owned before or allocated.  `Rewrites.trans` chains the steps of
  an operation.
-/

namespace ViEqui.Gen

variable {T : Type}

/-! ## Raw cells and slots -/

theorem copyInto_spec {α : Type} {source : List (Option α)} {n length : Nat}
    (hle : n ≤ length) (hsome : ∀ k < n, (source[k]?).join.isSome) :
    ∃ cells, copyInto source n length = some cells ∧ cells.length = length ∧
      ∀ k, (cells[k]?).join = if k < n then (source[k]?).join else none := by
  refine ⟨(List.range length).map fun k =>
    if k < n then (source[k]?).join else none, ?_, ?_, ?_⟩
  · unfold copyInto
    rw [guard, if_pos ⟨hle, hsome⟩]
    rfl
  · rw [List.length_map, List.length_range]
  · intro k
    by_cases hk : k < length
    · rw [List.getElem?_map, List.getElem?_range hk]
      rfl
    · have hout : length ≤ k := Nat.le_of_not_lt hk
      rw [List.getElem?_eq_none (by simpa using hout),
        if_neg (Nat.not_lt.mpr (Nat.le_trans hle hout))]
      rfl

/-- Placement new writes one slot. -/
theorem Memory.construct_spec {m : Memory T} {a k : Nat} {limb : List (Option T)}
    (x : T) (hread : m.limbs.read a = some limb) (hk : k < limb.length) :
    m.construct a k x = some
      { m with limbs := m.limbs.write a (limb.set k (some x)) } := by
  unfold Memory.construct
  rw [hread, Option.bind_eq_bind, Option.bind_some, guard, if_pos hk]
  rfl

theorem Memory.assign_of_slot {m : Memory T} {a k : Nat} {y : T} (x : T)
    (hslot : m.slot a k = some y) : m.assign a k x = m.construct a k x := by
  unfold Memory.assign
  rw [hslot]
  rfl

/-! ## Bits -/

/-- The bit for limb `k`. -/
def Root.bit (root : Root) (k : Nat) : Bool :=
  (root.bitmap.getD (k / Vector.bitsPerUint) 0#8).getLsbD
    (k % Vector.bitsPerUint)

namespace Vector

theorem mod_bits_lt (k : Nat) : k % bitsPerUint < 8 :=
  Nat.mod_lt k (show 0 < 8 by omega)

theorem shift_and_one (byte : BitVec 8) (k : Nat) :
    (byte >>> k &&& 1#8 == 1#8) = byte.getLsbD k := by
  rw [BitVec.and_one_eq_setWidth_ofBool_getLsbD, BitVec.getLsbD_ushiftRight,
    Nat.add_zero]
  cases byte.getLsbD k <;> rfl

theorem getLsbD_ones : ∀ k < 8, (~~~0#8).getLsbD k = true := by
  decide

theorem getLsbD_mask : ∀ r < 8, ∀ k < 8,
    (1#8 <<< r - 1#8).getLsbD k = decide (k < r) := by
  decide

theorem getLsbD_clear (byte : BitVec 8) {k j : Nat} (hj : j < 8) :
    (byte &&& ~~~(1#8 <<< k)).getLsbD j = (byte.getLsbD j && decide (j ≠ k)) := by
  have hshift : (1#8 <<< k).getLsbD j = decide (j = k) := by
    by_cases hjk : j < k
    · simp [hjk, Nat.ne_of_lt hjk]
    · by_cases heq : j = k
      · subst heq
        simp [hj]
      · have hsub : j - k ≠ 0 := by omega
        simp [hj, hjk, heq, hsub]
  rw [BitVec.getLsbD_and, BitVec.getLsbD_not, hshift]
  simp [hj]

theorem div_eq_and_mod_eq {j k : Nat}
    (hdiv : j / bitsPerUint = k / bitsPerUint)
    (hmod : j % bitsPerUint = k % bitsPerUint) : j = k := by
  unfold bitsPerUint at hdiv hmod
  omega

/-- Clearing bit `k`. -/
theorem bit_clear {root : Root} {k : Nat} {byte : BitVec 8} (limbs)
    (hbyte : root.bitmap[k / bitsPerUint]? = some byte) (j : Nat) :
    Root.bit ⟨limbs, root.bitmap.set (k / bitsPerUint)
        (byte &&& ~~~(1#8 <<< (k % bitsPerUint)))⟩ j =
      (root.bit j && decide (j ≠ k)) := by
  have hlt : k / bitsPerUint < root.bitmap.length :=
    (List.getElem?_eq_some_iff.mp hbyte).1
  unfold Root.bit
  rw [List.getD_eq_getElem?_getD, List.getD_eq_getElem?_getD]
  by_cases hdiv : j / bitsPerUint = k / bitsPerUint
  · rw [hdiv, List.getElem?_set_self hlt, hbyte]
    rw [Option.getD_some, Option.getD_some, getLsbD_clear byte (mod_bits_lt j)]
    congr 2
    rw [ne_eq, ne_eq, eq_iff_iff, not_iff_not]
    exact ⟨div_eq_and_mod_eq hdiv, fun heq => by rw [heq]⟩
  · have hne : j ≠ k := fun heq => hdiv (by rw [heq])
    rw [List.getElem?_set_ne (Ne.symm hdiv), decide_eq_true hne, Bool.and_true]

/-- The bits of a root that shares its limbs: the first `oldCapacity`. -/
theorem bit_cowBitmap (limbs) {oldCapacity bitmapUints : Nat} (k : Nat) :
    Root.bit ⟨limbs, cowBitmap oldCapacity bitmapUints⟩ k =
      decide (k < oldCapacity) := by
  have hdm := Nat.div_add_mod k bitsPerUint
  have hodm := Nat.div_add_mod oldCapacity bitsPerUint
  have hk := mod_bits_lt k
  have hold := mod_bits_lt oldCapacity
  unfold Root.bit cowBitmap
  rw [List.getD_eq_getElem?_getD]
  show BitVec.getLsbD ((_ : Option (BitVec 8)).getD _) _ = _
  unfold bitsPerUint at *
  by_cases hlt : k / 8 < oldCapacity / 8
  · rw [List.getElem?_append_left (by rwa [List.length_replicate]),
      List.getElem?_replicate_of_lt hlt, Option.getD_some, getLsbD_ones _ hk,
      decide_eq_true (Nat.lt_of_div_lt_div hlt)]
  · have hge := Nat.not_lt.mp hlt
    rw [List.getElem?_append_right (by rwa [List.length_replicate]), List.length_replicate]
    by_cases heq : k / 8 = oldCapacity / 8
    · rw [heq, Nat.sub_self, List.getElem?_cons_zero, Option.getD_some,
        getLsbD_mask _ hold _ hk]
      congr 1
      conv_rhs => rw [← hdm, ← hodm, heq, Nat.add_lt_add_iff_left]
    · have hpos : 1 ≤ k / 8 - oldCapacity / 8 :=
        Nat.sub_pos_of_lt (Nat.lt_of_le_of_ne hge (Ne.symm heq))
      have hnot : ¬k < oldCapacity := fun hlt =>
        heq (Nat.le_antisymm (Nat.div_le_div_right (Nat.le_of_lt hlt)) hge)
      rw [← Nat.sub_add_cancel hpos, List.getElem?_cons_succ, decide_eq_false hnot]
      rw [List.getElem?_replicate]
      split <;> exact BitVec.getLsbD_zero

/-- The bits of a larger root: the old ones. -/
theorem bit_append_zeros {root : Root} (limbs) (n k : Nat) :
    Root.bit ⟨limbs, root.bitmap ++ List.replicate n 0#8⟩ k = root.bit k := by
  unfold Root.bit
  rw [List.getD_eq_getElem?_getD, List.getD_eq_getElem?_getD]
  by_cases hlt : k / bitsPerUint < root.bitmap.length
  · rw [List.getElem?_append_left hlt]
  · rw [List.getElem?_append_right (Nat.le_of_not_lt hlt),
      List.getElem?_eq_none (Nat.le_of_not_lt hlt), List.getElem?_replicate]
    split <;> rfl

/-! ## Limb numbers -/

theorem lt_limbCount {limbSize : Nat} (hpos : 0 < limbSize) (v : Vector)
    (k : Nat) : k < v.limbCount limbSize ↔ k * limbSize < v.size := by
  show k + 1 ≤ (v.size + limbSize - 1) / limbSize ↔ _
  rw [Nat.le_div_iff_mul_le hpos, Nat.add_mul, Nat.one_mul]
  omega

/-- An element in use is in a limb in use. -/
theorem div_lt_limbCount {limbSize : Nat} (hpos : 0 < limbSize) {v : Vector}
    {ix : Nat} (hix : ix < v.size) : ix / limbSize < v.limbCount limbSize := by
  rw [lt_limbCount hpos]
  exact Nat.lt_of_le_of_lt (Nat.div_mul_le_self ix limbSize) hix

theorem limbCount_congr {limbSize : Nat} {v w : Vector} (h : v.size = w.size) :
    v.limbCount limbSize = w.limbCount limbSize := by
  rw [limbCount, limbCount, h]

/-! ## The invariant of one vector -/

/-- The limb is shared: through a shared root, or by its bit. -/
def cow (m : Memory T) (v : Vector) (k : Nat) : Bool :=
  match v.last with
  | none => true
  | some _ => (v.limbIsCow m k).getD false

/-- The limb at `a` is in use as number `k` and not shared. -/
def Owns (limbSize : Nat) (m : Memory T) (v : Vector) (k a : Nat) : Prop :=
  k < v.limbCount limbSize ∧ v.limbAt m k = some a ∧ v.cow m k = false

def OwnsRoot (v : Vector) (r : Nat) : Prop := v.last ≠ none ∧ v.start = some r

/-- A root with room for `capacity` limbs, of which `count` are in use. -/
structure RootFits (root : Root) (capacity count : Nat) : Prop where
  limbs : root.limbs.length = capacity
  bitmap : root.bitmap.length = bitmapSize capacity
  room : count ≤ capacity
  bits : ∀ k, count ≤ k → root.bit k = false

theorem bitmapSize_mono {c c' : Nat} (h : c ≤ c') : bitmapSize c ≤ bitmapSize c' :=
  Nat.div_le_div_right (Nat.sub_le_sub_right (Nat.add_le_add_right h _) 1)

theorem div_lt_bitmapSize {k c : Nat} (h : k < c) : k / bitsPerUint < bitmapSize c := by
  unfold bitmapSize bitsPerUint
  omega

/-- The bit of a limb in use is inside the bitmap. -/
theorem RootFits.byte_lt {root : Root} {capacity count k : Nat}
    (h : RootFits root capacity count) (hk : k < count) :
    k / bitsPerUint < root.bitmap.length := by
  rw [h.bitmap]
  exact div_lt_bitmapSize (Nat.lt_of_lt_of_le hk h.room)

structure Shape (limbSize : Nat) (m : Memory T) (v : Vector) : Prop where
  null : v.start = none → v.size = 0 ∧ v.last = none
  read : ∀ start, v.start = some start → ∃ root, m.roots.read start = some root
  limb : ∀ k < v.limbCount limbSize, ∃ a limb, v.limbAt m k = some a ∧
    m.limbs.read a = some limb ∧ limb.length = limbSize
  distinct : ∀ j < v.limbCount limbSize, ∀ k < v.limbCount limbSize,
    v.limbAt m j = v.limbAt m k → j = k
  ownRoot : ∀ capacity, v.last = some capacity → ∃ root, v.root m = some root ∧
    RootFits root capacity (v.limbCount limbSize)

/-- The slots in use hold elements. -/
def Filled (limbSize : Nat) (m : Memory T) (v : Vector) : Prop :=
  ∀ ix < v.size, (v.deref limbSize m ix).isSome

theorem limbAt_of_root {m : Memory T} {v : Vector} {root : Root}
    (hroot : v.root m = some root) (k : Nat) :
    v.limbAt m k = (root.limbs[k]?).join := by
  rw [limbAt, hroot, Option.bind_some]

theorem limbIsCow_eq {m : Memory T} {v : Vector} {root : Root}
    (hlast : v.last ≠ none) (hroot : v.root m = some root) (k : Nat) :
    v.limbIsCow m k = (root.bitmap[k / bitsPerUint]?).map fun _ => root.bit k := by
  obtain ⟨capacity, hcapacity⟩ := Option.ne_none_iff_exists'.mp hlast
  unfold limbIsCow Root.bit
  rw [hcapacity, hroot, List.getD_eq_getElem?_getD]
  simp only [Option.bind_eq_bind, Option.bind_some]
  cases root.bitmap[k / bitsPerUint]? with
  | none => rfl
  | some byte =>
    show some (byte >>> (k % bitsPerUint) &&& 1#8 == 1#8) =
      some (((some byte).getD 0#8).getLsbD (k % bitsPerUint))
    rw [shift_and_one, Option.getD_some]

theorem cow_of_root {m : Memory T} {v : Vector} {root : Root}
    (hlast : v.last ≠ none) (hroot : v.root m = some root) (k : Nat) :
    v.cow m k = root.bit k := by
  have hcow : v.cow m k = (v.limbIsCow m k).getD false := by
    obtain ⟨capacity, hcapacity⟩ := Option.ne_none_iff_exists'.mp hlast
    unfold cow
    rw [hcapacity]
  rw [hcow, limbIsCow_eq hlast hroot]
  unfold Root.bit
  rw [List.getD_eq_getElem?_getD]
  cases root.bitmap[k / bitsPerUint]? with
  | none => exact BitVec.getLsbD_zero.symm
  | some byte => rfl

theorem cow_of_last_none {v : Vector} (m : Memory T) (hlast : v.last = none)
    (k : Nat) : v.cow m k = true := by
  unfold cow
  rw [hlast]

theorem Shape.root {limbSize : Nat} {m : Memory T} {v : Vector}
    (hshape : v.Shape limbSize m) (hlast : v.last ≠ none) :
    ∃ capacity start root, v.last = some capacity ∧ v.start = some start ∧
      m.roots.read start = some root ∧ v.root m = some root ∧
      RootFits root capacity (v.limbCount limbSize) := by
  obtain ⟨capacity, hcapacity⟩ := Option.ne_none_iff_exists'.mp hlast
  obtain ⟨root, hroot, hfits⟩ := hshape.ownRoot capacity hcapacity
  cases hstart : v.start with
  | none => exact absurd (hshape.null hstart).2 hlast
  | some start =>
    have hread : m.roots.read start = some root := by
      rw [Vector.root, hstart, Option.bind_some] at hroot
      exact hroot
    exact ⟨capacity, start, root, hcapacity, rfl, hread, hroot, hfits⟩

/-- The bit of a limb in use can be read. -/
theorem Shape.limbIsCow {limbSize : Nat} {m : Memory T} {v : Vector}
    (hshape : v.Shape limbSize m) (hlast : v.last ≠ none) {k : Nat}
    (hk : k < v.limbCount limbSize) : v.limbIsCow m k = some (v.cow m k) := by
  obtain ⟨capacity, start, root, _, _, _, hroot, hfits⟩ := hshape.root hlast
  rw [limbIsCow_eq hlast hroot, cow_of_root hlast hroot,
    List.getElem?_eq_getElem (hfits.byte_lt hk)]
  rfl

/-! ## What an operation on one vector may do -/

structure Rewrites (limbSize : Nat) (m : Memory T) (v : Vector) (m' : Memory T)
    (v' : Vector) : Prop where
  debugParent : v'.debugParent = v.debugParent
  debugRefcount : v'.debugRefcount = v.debugRefcount
  counts : m'.counts = m.counts
  last : v'.last ≠ none
  roots : ∀ r, m.roots.read r ≠ none → ¬ v.OwnsRoot r →
    m'.roots.read r = m.roots.read r
  limbs : ∀ a, m.limbs.read a ≠ none → (∀ k, ¬ v.Owns limbSize m k a) →
    m'.limbs.read a = m.limbs.read a
  ownRoot : ∀ r, v'.OwnsRoot r → v.OwnsRoot r ∨ m.roots.read r = none
  own : ∀ k a, v'.Owns limbSize m' k a →
    (∃ j, v.Owns limbSize m j a) ∨ m.limbs.read a = none
  shared : ∀ k < v'.limbCount limbSize, v'.cow m' k = true →
    k < v.limbCount limbSize ∧ v.cow m k = true ∧ v'.limbAt m' k = v.limbAt m k

theorem Rewrites.refl {limbSize : Nat} (m : Memory T) {v : Vector}
    (hlast : v.last ≠ none) : Rewrites limbSize m v m v where
  debugParent := rfl
  debugRefcount := rfl
  counts := rfl
  last := hlast
  roots := fun _ _ _ => rfl
  limbs := fun _ _ _ => rfl
  ownRoot := fun _ h => Or.inl h
  own := fun k _ h => Or.inl ⟨k, h⟩
  shared := fun _ hk hcow => ⟨hk, hcow, rfl⟩

theorem Rewrites.trans {limbSize : Nat} {m m₁ m₂ : Memory T} {v v₁ v₂ : Vector}
    (h₁ : Rewrites limbSize m v m₁ v₁) (h₂ : Rewrites limbSize m₁ v₁ m₂ v₂) :
    Rewrites limbSize m v m₂ v₂ where
  debugParent := h₂.debugParent.trans h₁.debugParent
  debugRefcount := h₂.debugRefcount.trans h₁.debugRefcount
  counts := h₂.counts.trans h₁.counts
  last := h₂.last
  roots := by
    intro r hlive hown
    have heq := h₁.roots r hlive hown
    have hown₁ : ¬ v₁.OwnsRoot r := fun h =>
      (h₁.ownRoot r h).elim hown hlive
    rw [h₂.roots r (by rwa [heq]) hown₁, heq]
  limbs := by
    intro a hlive hown
    have heq := h₁.limbs a hlive hown
    have hown₁ : ∀ k, ¬ v₁.Owns limbSize m₁ k a := fun k h =>
      (h₁.own k a h).elim (fun ⟨j, hj⟩ => hown j hj) hlive
    rw [h₂.limbs a (by rwa [heq]) hown₁, heq]
  ownRoot := by
    intro r h
    cases h₂.ownRoot r h with
    | inl hown => exact h₁.ownRoot r hown
    | inr hdead =>
      by_cases hlive : m.roots.read r = none
      · exact Or.inr hlive
      · by_cases hown : v.OwnsRoot r
        · exact Or.inl hown
        · rw [h₁.roots r hlive hown] at hdead
          exact Or.inr hdead
  own := by
    intro k a h
    cases h₂.own k a h with
    | inl hown =>
      obtain ⟨j, hj⟩ := hown
      exact h₁.own j a hj
    | inr hdead =>
      by_cases hlive : m.limbs.read a = none
      · exact Or.inr hlive
      · by_cases hown : ∃ j, v.Owns limbSize m j a
        · exact Or.inl hown
        · rw [h₁.limbs a hlive (not_exists.mp hown)] at hdead
          exact Or.inr hdead
  shared := by
    intro k hk hcow
    obtain ⟨hk₁, hcow₁, hat₁⟩ := h₂.shared k hk hcow
    obtain ⟨hk₀, hcow₀, hat₀⟩ := h₁.shared k hk₁ hcow₁
    exact ⟨hk₀, hcow₀, hat₁.trans hat₀⟩

/-! ## Memory that agrees on what a vector reads -/

structure Agree (limbSize : Nat) (v : Vector) (m m' : Memory T) : Prop where
  root : v.root m' = v.root m
  limbs : ∀ k < v.limbCount limbSize, ∀ a, v.limbAt m k = some a →
    m'.limbs.read a = m.limbs.read a

namespace Agree

variable {limbSize : Nat} {v : Vector} {m m' : Memory T}

theorem limbAt (h : v.Agree limbSize m m') (k : Nat) :
    v.limbAt m' k = v.limbAt m k := by
  rw [Vector.limbAt, Vector.limbAt, h.root]

theorem limbIsCow (h : v.Agree limbSize m m') (k : Nat) :
    v.limbIsCow m' k = v.limbIsCow m k := by
  unfold Vector.limbIsCow
  rw [h.root]

theorem cow (h : v.Agree limbSize m m') (k : Nat) : v.cow m' k = v.cow m k := by
  unfold Vector.cow
  rw [h.limbIsCow]

theorem owns (h : v.Agree limbSize m m') (k a : Nat) :
    v.Owns limbSize m' k a ↔ v.Owns limbSize m k a := by
  unfold Vector.Owns
  rw [h.limbAt, h.cow]

theorem element (h : v.Agree limbSize m m') {k : Nat}
    (hk : k < v.limbCount limbSize) (i : Nat) :
    v.element m' (k, i) = v.element m (k, i) := by
  show (v.limbAt m' k).bind _ = (v.limbAt m k).bind _
  rw [h.limbAt]
  cases hat : v.limbAt m k with
  | none => rfl
  | some a =>
    show m'.slot a i = m.slot a i
    rw [Memory.slot, Memory.slot, h.limbs k hk a hat]

theorem deref (hpos : 0 < limbSize) (h : v.Agree limbSize m m') {ix : Nat}
    (hix : ix < v.size) : v.deref limbSize m' ix = v.deref limbSize m ix :=
  h.element (div_lt_limbCount hpos hix) (ix % limbSize)

theorem shape (h : v.Agree limbSize m m') (hshape : v.Shape limbSize m) :
    v.Shape limbSize m' where
  null := hshape.null
  read := by
    intro start hstart
    obtain ⟨root, hread⟩ := hshape.read start hstart
    have hroot := h.root
    rw [Vector.root, Vector.root, hstart, Option.bind_some, Option.bind_some]
      at hroot
    exact ⟨root, by rw [hroot, hread]⟩
  limb := by
    intro k hk
    obtain ⟨a, limb, hat, hread, hlength⟩ := hshape.limb k hk
    exact ⟨a, limb, by rw [h.limbAt, hat], by rw [h.limbs k hk a hat, hread],
      hlength⟩
  distinct := by
    intro j hj k hk heq
    rw [h.limbAt, h.limbAt] at heq
    exact hshape.distinct j hj k hk heq
  ownRoot := by
    intro capacity hcapacity
    rw [h.root]
    exact hshape.ownRoot capacity hcapacity

theorem filled (hpos : 0 < limbSize) (h : v.Agree limbSize m m')
    (hfilled : v.Filled limbSize m) : v.Filled limbSize m' := by
  intro ix hix
  rw [h.deref hpos hix]
  exact hfilled ix hix

end Agree

end Vector

end ViEqui.Gen
