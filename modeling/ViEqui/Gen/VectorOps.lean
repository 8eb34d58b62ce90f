import ViEqui.Gen.VectorLimbs

/-!
# The operations on one vector

One lemma for each operation on a vector with the invariant `Shape`: it has a
result, which has the invariant again, memory changes as `Rewrites` allows, and
the elements are those of the list operation.
-/

namespace ViEqui.Gen

namespace Vector

variable {T : Type} {limbSize : Nat}

/-- Elements in the same places of the same limbs. -/
theorem deref_congr {m m' : Memory T} {v v' : Vector} {ix : Nat}
    (hat : v'.limbAt m' (ix / limbSize) = v.limbAt m (ix / limbSize))
    (hread : m'.limbs = m.limbs) :
    v'.deref limbSize m' ix = v.deref limbSize m ix := by
  unfold deref Memory.slot
  rw [hat, hread]

theorem lt_nextCapacity (capacity : Nat) : capacity + 2 ≤ nextCapacity capacity :=
  Nat.le_max_left _ _

theorem length_cowBitmap {oldCapacity bitmapUints : Nat}
    (h : oldCapacity / bitsPerUint < bitmapUints) :
    (cowBitmap oldCapacity bitmapUints).length = bitmapUints := by
  unfold cowBitmap
  rw [List.length_append, List.length_cons, List.length_replicate,
    List.length_replicate]
  omega

/-! ## A root of its own -/

theorem uncowRoot_spec {m : Memory T} {v : Vector}
    (hshape : v.Shape limbSize m) (hlast : v.last = none)
    (hstart : v.start ≠ none) :
    ∃ m' v', v.uncowRoot limbSize m = some (m', v') ∧ v'.Shape limbSize m' ∧
      Rewrites limbSize m v m' v' ∧ v'.size = v.size ∧ m'.limbs = m.limbs ∧
      ∀ k < v.limbCount limbSize, v'.limbAt m' k = v.limbAt m k := by
  obtain ⟨start, hsome⟩ := Option.ne_none_iff_exists'.mp hstart
  obtain ⟨source, hread⟩ := hshape.read start hsome
  have hroot : v.root m = some source := by
    rw [root, hsome, Option.bind_some, hread]
  have hroom := Nat.lt_of_succ_lt (lt_nextCapacity (v.limbCount limbSize))
  have hle := Nat.le_of_lt hroom
  have hbits := div_lt_bitmapSize hroom
  have hcopied : ∀ k < v.limbCount limbSize,
      ((source.limbs[k]?).join).isSome := by
    intro k hk
    obtain ⟨a, _, hat, _, _⟩ := hshape.limb k hk
    rw [limbAt_of_root hroot] at hat
    rw [hat]
    rfl
  obtain ⟨limbs, hlimbs, hlength, hget⟩ := copyInto_spec hle hcopied
  let root' : Root := ⟨limbs, cowBitmap (v.limbCount limbSize)
    (bitmapSize (nextCapacity (v.limbCount limbSize)))⟩
  let m' : Memory T := { m with roots := m.roots.alloc root' }
  let v' : Vector := { v with
    start := some m.roots.next
    last := some (nextCapacity (v.limbCount limbSize)) }
  have hroot' : v'.root m' = some root' := Heap.read_alloc_next m.roots root'
  have hcount : v'.limbCount limbSize = v.limbCount limbSize := rfl
  have hlast' : v'.last ≠ none := Option.some_ne_none _
  have hat : ∀ k < v.limbCount limbSize, v'.limbAt m' k = v.limbAt m k := by
    intro k hk
    rw [limbAt_of_root hroot', limbAt_of_root hroot, hget, if_pos hk]
  have hcow : ∀ k, v'.cow m' k = decide (k < v.limbCount limbSize) := by
    intro k
    rw [cow_of_root hlast' hroot']
    exact bit_cowBitmap limbs k
  refine ⟨m', v', ?_, ?_, ?_, rfl, rfl, hat⟩
  · unfold uncowRoot
    simp only [hlast, hroot, hlimbs, hbits, guard, if_true, Option.bind_eq_bind,
      Option.pure_def, Option.bind_some]
    rfl
  · constructor
    · intro h
      cases h
    · intro start' hstart'
      cases hstart'
      exact ⟨root', Heap.read_alloc_next m.roots root'⟩
    · intro k hk
      rw [hat k hk]
      exact hshape.limb k hk
    · intro j hj k hk
      rw [hat j hj, hat k hk]
      exact hshape.distinct j hj k hk
    · intro capacity hcapacity
      cases hcapacity
      refine ⟨root', hroot', hlength, length_cowBitmap hbits, hle, ?_⟩
      intro k hk
      rw [← cow_of_root hlast' hroot', hcow]
      exact decide_eq_false (Nat.not_lt.mpr hk)
  · constructor
    · rfl
    · rfl
    · rfl
    · exact hlast'
    · intro r hlive _
      obtain ⟨root, hr⟩ := Option.ne_none_iff_exists'.mp hlive
      show (m.roots.alloc root').read r = m.roots.read r
      rw [Heap.read_alloc_of_read root' hr, hr]
    · intro a _ _
      rfl
    · intro r hown
      right
      have hr : m.roots.next = r := Option.some.inj hown.2
      rw [← hr, Heap.read_next]
    · intro k a hown
      obtain ⟨hk, _, hclear⟩ := hown
      rw [hcow, decide_eq_false_iff_not] at hclear
      exact absurd hk hclear
    · intro k hk _
      exact ⟨hk, cow_of_last_none m hlast k, hat k hk⟩

/-! ## A limb of its own -/

theorem mul_add_div_limb {k i : Nat} (hi : i < limbSize) :
    (k * limbSize + i) / limbSize = k := by
  rw [Nat.mul_comm, Nat.mul_add_div (by omega), Nat.div_eq_of_lt hi, Nat.add_zero]

theorem mul_add_mod_limb {k i : Nat} (hi : i < limbSize) :
    (k * limbSize + i) % limbSize = i := by
  rw [Nat.mul_comm, Nat.mul_add_mod, Nat.mod_eq_of_lt hi]

/-- Slot `i` of limb `k` is an element when it is in use. -/
theorem Filled.slot {m : Memory T} {v : Vector} (hfilled : v.Filled limbSize m)
    {k a i : Nat} (hat : v.limbAt m k = some a) (hi : i < limbSize)
    (hlt : k * limbSize + i < v.size) : (m.slot a i).isSome := by
  have h := hfilled (k * limbSize + i) hlt
  rw [deref, mul_add_div_limb hi, mul_add_mod_limb hi, hat, Option.bind_some] at h
  exact h

theorem uncow_spec {m : Memory T} {v : Vector} (hpos : 0 < limbSize)
    (hshape : v.Shape limbSize m) (hfilled : v.Filled limbSize m)
    (hlast : v.last ≠ none) {k : Nat} (hk : k < v.limbCount limbSize)
    (hcow : v.cow m k = true) :
    ∃ m', v.uncow limbSize m k = some m' ∧ v.Shape limbSize m' ∧
      Rewrites limbSize m v m' v ∧
      (∀ ix < v.size, v.deref limbSize m' ix = v.deref limbSize m ix) ∧
      v.cow m' k = false := by
  obtain ⟨capacity, start, root, hcapacity, hstart, hread, hroot, hfits⟩ :=
    hshape.root hlast
  obtain ⟨a, limb, hat, hlimb, hlength⟩ := hshape.limb k hk
  have hvalid : k * limbSize < v.size := (lt_limbCount hpos v k).mp hk
  let valid := min (v.size - k * limbSize) limbSize
  have hvalidPos : 0 < valid := Nat.lt_min.mpr ⟨Nat.sub_pos_of_lt hvalid, hpos⟩
  have helements : ∀ i < valid, ((limb[i]?).join).isSome := by
    intro i hi
    obtain ⟨hsize, hi⟩ := Nat.lt_min.mp hi
    have h := hfilled.slot hat hi (Nat.add_comm _ _ ▸ Nat.add_lt_of_lt_sub hsize)
    rw [Memory.slot, hlimb, Option.bind_some] at h
    exact h
  obtain ⟨newLimb, hnew, hnewLength, hget⟩ :=
    copyInto_spec (Nat.min_le_right _ limbSize) helements
  have hbyteLt := hfits.byte_lt hk
  have hbyte := List.getElem?_eq_getElem hbyteLt
  let byte := root.bitmap[k / bitsPerUint]
  let root' : Root := ⟨root.limbs.set k (some m.limbs.next),
    root.bitmap.set (k / bitsPerUint)
      (byte &&& ~~~(1#8 <<< (k % bitsPerUint)))⟩
  let m' : Memory T := { m with
    limbs := m.limbs.alloc newLimb, roots := m.roots.write start root' }
  have hroot' : v.root m' = some root' := by
    rw [Vector.root, hstart, Option.bind_some]
    exact Heap.read_write_self root' hread
  have hkRoom : k < root.limbs.length := by
    rw [hfits.limbs]
    exact Nat.lt_of_lt_of_le hk hfits.room
  have hatSelf : v.limbAt m' k = some m.limbs.next := by
    rw [limbAt_of_root hroot']
    show ((root.limbs.set k (some m.limbs.next))[k]?).join = _
    rw [List.getElem?_set_self hkRoom]
    rfl
  have hatNe : ∀ j, j ≠ k → v.limbAt m' j = v.limbAt m j := by
    intro j hne
    rw [limbAt_of_root hroot', limbAt_of_root hroot]
    show ((root.limbs.set k (some m.limbs.next))[j]?).join = _
    rw [List.getElem?_set_ne (Ne.symm hne)]
  have hcow' : ∀ j, v.cow m' j = (v.cow m j && decide (j ≠ k)) := by
    intro j
    rw [cow_of_root hlast hroot', cow_of_root hlast hroot]
    exact bit_clear _ hbyte j
  have hold : ∀ b l, m.limbs.read b = some l → m'.limbs.read b = some l :=
    fun b l h => Heap.read_alloc_of_read newLimb h
  -- The limb of another number is an old one.
  have hneNext : ∀ j < v.limbCount limbSize, v.limbAt m j ≠ some m.limbs.next := by
    intro j hj heq
    obtain ⟨b, l, hb, hl, _⟩ := hshape.limb j hj
    rw [hb] at heq
    rw [Option.some.inj heq, Heap.read_next] at hl
    cases hl
  refine ⟨m', ?_, ?_, ?_, ?_, ?_⟩
  · unfold uncow
    have hvalid' : 0 < min (v.size - k * limbSize) limbSize := hvalidPos
    rw [hshape.limbIsCow hlast hk, hcow]
    simp only [guard, if_true, Option.bind_eq_bind, Option.bind_some,
      Option.pure_def, hvalid', hat, hlimb, hnew, hstart, hread, hbyte]
    rfl
  · constructor
    · exact hshape.null
    · intro start' hstart'
      rw [hstart] at hstart'
      cases hstart'
      exact ⟨root', Heap.read_write_self root' hread⟩
    · intro j hj
      by_cases heq : j = k
      · subst heq
        exact ⟨_, newLimb, hatSelf, Heap.read_alloc_next _ _, hnewLength⟩
      · obtain ⟨b, l, hb, hl, hlen⟩ := hshape.limb j hj
        exact ⟨b, l, by rw [hatNe j heq, hb], hold b l hl, hlen⟩
    · intro i hi j hj heq
      by_cases hik : i = k
      · by_cases hjk : j = k
        · rw [hik, hjk]
        · rw [hik, hatSelf, hatNe j hjk] at heq
          exact absurd heq.symm (hneNext j hj)
      · by_cases hjk : j = k
        · rw [hjk, hatSelf, hatNe i hik] at heq
          exact absurd heq (hneNext i hi)
        · rw [hatNe i hik, hatNe j hjk] at heq
          exact hshape.distinct i hi j hj heq
    · intro capacity' hcapacity'
      rw [hcapacity] at hcapacity'
      cases hcapacity'
      refine ⟨root', hroot', ?_, ?_, hfits.room, ?_⟩
      · exact (List.length_set).trans hfits.limbs
      · exact (List.length_set).trans hfits.bitmap
      · intro j hj
        rw [← cow_of_root hlast hroot', hcow', cow_of_root hlast hroot,
          hfits.bits j hj, Bool.false_and]
  · constructor
    · rfl
    · rfl
    · rfl
    · exact hlast
    · intro r _ hown
      have hne : r ≠ start := by
        intro heq
        exact hown ⟨hlast, by rw [hstart, heq]⟩
      exact Heap.read_write_ne m.roots root' hne
    · intro b hlive _
      obtain ⟨l, hl⟩ := Option.ne_none_iff_exists'.mp hlive
      rw [hold b l hl, hl]
    · intro r hown
      exact Or.inl hown
    · intro j b hown
      obtain ⟨hj, hb, hclear⟩ := hown
      by_cases heq : j = k
      · rw [heq, hatSelf] at hb
        right
        rw [← Option.some.inj hb, Heap.read_next]
      · rw [hcow', decide_eq_true heq, Bool.and_true] at hclear
        rw [hatNe j heq] at hb
        exact Or.inl ⟨j, hj, hb, hclear⟩
    · intro j hj hset
      rw [hcow', Bool.and_eq_true, decide_eq_true_eq] at hset
      exact ⟨hj, hset.1, hatNe j hset.2⟩
  · intro ix hix
    have hdm := Nat.div_add_mod ix limbSize
    have hmod := Nat.mod_lt ix hpos
    unfold deref
    by_cases heq : ix / limbSize = k
    · rw [heq, hatSelf, hat, Option.bind_some, Option.bind_some, Memory.slot,
        Memory.slot, Heap.read_alloc_next, hlimb, Option.bind_some,
        Option.bind_some, hget, if_pos]
      rw [heq, Nat.mul_comm] at hdm
      refine Nat.lt_min.mpr ⟨Nat.lt_sub_of_add_lt ?_, hmod⟩
      rwa [Nat.add_comm, hdm]
    · have hlt := div_lt_limbCount hpos hix
      obtain ⟨b, l, hb, hl, _⟩ := hshape.limb _ hlt
      rw [hatNe _ heq, hb, Option.bind_some, Option.bind_some, Memory.slot,
        Memory.slot, hold b l hl, hl]
  · rw [hcow', decide_eq_false (fun h => h rfl), Bool.and_false]

/-! ## Room for one more limb -/

/-- What `grow` finds in the root of a vector with all its pointers in use. -/
theorem growRoot_source {m : Memory T} {v : Vector} (hshape : v.Shape limbSize m)
    (howned : v.last ≠ none ∨ v.start = none) (hsize : v.start = none →
      v.limbCount limbSize = 0) :
    ∃ source, v.rootOrEmpty m = some source ∧
      RootFits source (v.last.getD 0) (v.limbCount limbSize) ∧
      ∀ k < v.limbCount limbSize, v.limbAt m k = (source.limbs[k]?).join ∧
        v.cow m k = source.bit k := by
  unfold rootOrEmpty
  cases hstart : v.start with
  | none =>
    have hcount := hsize hstart
    refine ⟨⟨[], []⟩, rfl, ?_, ?_⟩
    · rw [(hshape.null hstart).2, hcount]
      exact ⟨rfl, rfl, Nat.le_refl _, fun _ _ => BitVec.getLsbD_zero⟩
    · intro k hk
      omega
  | some start =>
    have hlast : v.last ≠ none := howned.resolve_right (by
      rw [hstart]
      exact Option.some_ne_none start)
    obtain ⟨capacity, start', root, hcapacity, hstart', hread, hroot, hfits⟩ :=
      hshape.root hlast
    rw [hstart] at hstart'
    cases hstart'
    refine ⟨root, hread, ?_, ?_⟩
    · rw [hcapacity, Option.getD_some]
      exact hfits
    · intro k _
      exact ⟨limbAt_of_root hroot k, cow_of_root hlast hroot k⟩

theorem growRoot_spec {m : Memory T} {v : Vector} (hshape : v.Shape limbSize m)
    (howned : v.last ≠ none ∨ v.start = none) (hsize : v.start = none →
      v.limbCount limbSize = 0)
    (hfull : v.limbCount limbSize = v.last.getD 0) :
    ∃ m' v', v.growRoot m = some (m', v') ∧ v'.Shape limbSize m' ∧
      Rewrites limbSize m v m' v' ∧ v'.size = v.size ∧ m'.limbs = m.limbs ∧
      (∀ k < v.limbCount limbSize, v'.limbAt m' k = v.limbAt m k) ∧
      v.limbCount limbSize < v'.last.getD 0 := by
  obtain ⟨source, hsource, hfits, hview⟩ := growRoot_source hshape howned hsize
  have hroom := Nat.lt_of_succ_lt (lt_nextCapacity (v.last.getD 0))
  have hle := Nat.le_of_lt hroom
  have hcopied : ∀ k < v.last.getD 0, ((source.limbs[k]?).join).isSome := by
    intro k hk
    rw [← hfull] at hk
    obtain ⟨a, _, hat, _, _⟩ := hshape.limb k hk
    rw [← (hview k hk).1, hat]
    rfl
  obtain ⟨limbs, hlimbs, hlength, hget⟩ := copyInto_spec hle hcopied
  let zeros := bitmapSize (nextCapacity (v.last.getD 0)) -
    bitmapSize (v.last.getD 0)
  have hbitmap : source.bitmap.take (bitmapSize (v.last.getD 0)) =
      source.bitmap := List.take_of_length_le (Nat.le_of_eq hfits.bitmap)
  let root' : Root := ⟨limbs, source.bitmap ++ List.replicate zeros 0⟩
  let roots' := v.deleteRoot (m.roots.alloc root')
  let m' : Memory T := { m with roots := roots' }
  let v' : Vector := { v with
    start := some m.roots.next, last := some (nextCapacity (v.last.getD 0)) }
  -- The new root is not the one that is deleted.
  have hread' : roots'.read m.roots.next = some root' := by
    show (v.deleteRoot (m.roots.alloc root')).read _ = _
    unfold deleteRoot
    cases hstart : v.start with
    | none => exact Heap.read_alloc_next m.roots root'
    | some start =>
      obtain ⟨root, hread⟩ := hshape.read start hstart
      have hne : m.roots.next ≠ start := by
        have := Heap.lt_next hread
        omega
      rw [Heap.read_free_ne _ hne, Heap.read_alloc_next]
  have hroot' : v'.root m' = some root' := hread'
  have hlast' : v'.last ≠ none := Option.some_ne_none _
  have hat : ∀ k < v.limbCount limbSize, v'.limbAt m' k = v.limbAt m k := by
    intro k hk
    rw [limbAt_of_root hroot', hget, if_pos (hfull ▸ hk), (hview k hk).1]
  have hbit : ∀ k, v'.cow m' k = source.bit k := by
    intro k
    rw [cow_of_root hlast' hroot']
    exact bit_append_zeros limbs zeros k
  refine ⟨m', v', ?_, ?_, ?_, rfl, rfl, hat, ?_⟩
  · unfold growRoot
    simp only [hsource, Option.bind_eq_bind, Option.bind_some, hlimbs, hfits.bitmap,
      hbitmap, guard, Nat.le_refl, if_true]
    rfl
  · constructor
    · intro h
      cases h
    · intro start' hstart'
      cases hstart'
      exact ⟨root', hread'⟩
    · intro k hk
      rw [hat k hk]
      exact hshape.limb k hk
    · intro j hj k hk
      rw [hat j hj, hat k hk]
      exact hshape.distinct j hj k hk
    · intro capacity hcapacity
      cases hcapacity
      refine ⟨root', hroot', hlength, ?_, ?_, ?_⟩
      · show (source.bitmap ++ List.replicate zeros 0).length = _
        rw [List.length_append, List.length_replicate, hfits.bitmap]
        exact Nat.add_sub_cancel' (bitmapSize_mono hle)
      · exact Nat.le_trans (Nat.le_of_eq hfull) hle
      · intro k hk
        rw [← cow_of_root hlast' hroot', hbit]
        exact hfits.bits k hk
  · constructor
    · rfl
    · rfl
    · rfl
    · exact hlast'
    · intro r hlive hown
      obtain ⟨root, hr⟩ := Option.ne_none_iff_exists'.mp hlive
      show (v.deleteRoot (m.roots.alloc root')).read _ = _
      unfold deleteRoot
      cases hstart : v.start with
      | none =>
        show (m.roots.alloc root').read r = _
        rw [Heap.read_alloc_of_read root' hr, hr]
      | some start =>
        have hlast : v.last ≠ none := howned.resolve_right (by
          rw [hstart]
          exact Option.some_ne_none start)
        have hne : r ≠ start := by
          intro heq
          exact hown ⟨hlast, by rw [hstart, heq]⟩
        show ((m.roots.alloc root').free start).read r = _
        rw [Heap.read_free_ne _ hne, Heap.read_alloc_of_read root' hr, hr]
    · intro a _ _
      rfl
    · intro r hown
      right
      have hr : m.roots.next = r := Option.some.inj hown.2
      rw [← hr, Heap.read_next]
    · intro k a hown
      obtain ⟨hk, hka, hclear⟩ := hown
      rw [hbit, ← (hview k hk).2] at hclear
      rw [hat k hk] at hka
      exact Or.inl ⟨k, hk, hka, hclear⟩
    · intro k hk hset
      rw [hbit, ← (hview k hk).2] at hset
      exact ⟨hk, hset, hat k hk⟩
  · exact Nat.lt_of_le_of_lt (Nat.le_of_eq hfull) hroom

/-- The vector with one more element in use. -/
def grown (v : Vector) : Vector := { v with size := v.size + 1 }

theorem limbCount_eq_div (hpos : 0 < limbSize) {v : Vector}
    (hmod : v.size % limbSize = 0) :
    v.limbCount limbSize = v.size / limbSize := by
  have hcount : ∀ j, j < v.limbCount limbSize ↔ j < v.size / limbSize := by
    intro j
    rw [lt_limbCount hpos, Nat.lt_div_iff_mul_lt' (Nat.dvd_of_mod_eq_zero hmod),
      Nat.mul_comm]
  have hnot : ¬ v.limbCount limbSize < v.size / limbSize := fun h =>
    Nat.lt_irrefl _ ((hcount _).mpr h)
  have hnot' : ¬ v.size / limbSize < v.limbCount limbSize := fun h =>
    Nat.lt_irrefl _ ((hcount _).mp h)
  omega

/-- Behind full limbs the next element begins a limb. -/
theorem lt_limbCount_grown (hpos : 0 < limbSize) {v : Vector}
    (hmod : v.size % limbSize = 0) (k : Nat) :
    k < v.grown.limbCount limbSize ↔ k ≤ v.limbCount limbSize := by
  rw [lt_limbCount hpos, limbCount_eq_div hpos hmod,
    Nat.le_div_iff_mul_le hpos]
  show k * limbSize < v.size + 1 ↔ _
  omega

/-- Inside a limb the next element needs no other. -/
theorem limbCount_grown (hpos : 0 < limbSize) {v : Vector}
    (hmod : v.size % limbSize ≠ 0) :
    v.grown.limbCount limbSize = v.limbCount limbSize := by
  have hiff : ∀ k, k < v.grown.limbCount limbSize ↔ k < v.limbCount limbSize := by
    intro k
    rw [lt_limbCount hpos, lt_limbCount hpos]
    show k * limbSize < v.size + 1 ↔ _
    have hne : k * limbSize ≠ v.size := by
      intro heq
      rw [← heq, Nat.mul_mod_left] at hmod
      exact hmod rfl
    omega
  have h1 := (hiff (v.limbCount limbSize)).mp
  have h2 := (hiff (v.grown.limbCount limbSize)).mpr
  omega

/-- The memory in which `start[limb_count()]` is a raw limb. -/
def withLimb (limbSize : Nat) (m : Memory T) (v : Vector) (start : Nat)
    (root : Root) : Memory T :=
  { m with
    limbs := m.limbs.alloc (List.replicate limbSize none)
    roots := m.roots.write start
      { root with
        limbs := root.limbs.set (v.limbCount limbSize) (some m.limbs.next) } }

theorem withLimb_spec {m : Memory T} {v : Vector} (hpos : 0 < limbSize)
    (hshape : v.Shape limbSize m) (hmod : v.size % limbSize = 0) {start : Nat}
    {root : Root} {capacity : Nat} (hcapacity : v.last = some capacity)
    (hstart : v.start = some start) (hread : m.roots.read start = some root)
    (hroom : v.limbCount limbSize < capacity) :
    v.grown.Shape limbSize (v.withLimb limbSize m start root) ∧
      Rewrites limbSize m v (v.withLimb limbSize m start root) v.grown ∧
      (∀ ix < v.size, v.deref limbSize (v.withLimb limbSize m start root) ix =
        v.deref limbSize m ix) ∧
      v.grown.Owns limbSize (v.withLimb limbSize m start root)
        (v.limbCount limbSize) m.limbs.next := by
  have hlast : v.last ≠ none := by
    rw [hcapacity]
    exact Option.some_ne_none capacity
  obtain ⟨root₀, hroot, hfits⟩ := hshape.ownRoot capacity hcapacity
  have hsame : root₀ = root := by
    rw [Vector.root, hstart, Option.bind_some, hread] at hroot
    exact (Option.some.inj hroot).symm
  rw [hsame] at hroot hfits
  let m' := v.withLimb limbSize m start root
  let root' : Root := { root with
    limbs := root.limbs.set (v.limbCount limbSize) (some m.limbs.next) }
  have hread' : m'.roots.read start = some root' :=
    Heap.read_write_self root' hread
  have hroot' : v.grown.root m' = some root' := by
    show v.start.bind _ = _
    rw [hstart, Option.bind_some, hread']
  have hlast' : v.grown.last ≠ none := hlast
  have hatSelf : v.grown.limbAt m' (v.limbCount limbSize) =
      some m.limbs.next := by
    rw [limbAt_of_root hroot']
    show ((root.limbs.set _ _)[_]?).join = _
    rw [List.getElem?_set_self (by rw [hfits.limbs]; exact hroom)]
    rfl
  have hatOld : ∀ j < v.limbCount limbSize, v.grown.limbAt m' j = v.limbAt m j := by
    intro j hj
    rw [limbAt_of_root hroot', limbAt_of_root hroot]
    show ((root.limbs.set _ _)[j]?).join = _
    rw [List.getElem?_set_ne (Nat.ne_of_gt hj)]
  have hcow : ∀ j, v.grown.cow m' j = v.cow m j := by
    intro j
    rw [cow_of_root hlast' hroot', cow_of_root hlast hroot]
    rfl
  have hclear : v.cow m (v.limbCount limbSize) = false := by
    rw [cow_of_root hlast hroot]
    exact hfits.bits _ (Nat.le_refl _)
  have hold : ∀ b l, m.limbs.read b = some l → m'.limbs.read b = some l :=
    fun b l h => Heap.read_alloc_of_read _ h
  have hcases : ∀ j, j < v.grown.limbCount limbSize →
      j < v.limbCount limbSize ∨ j = v.limbCount limbSize := by
    intro j hj
    have := (lt_limbCount_grown hpos hmod j).mp hj
    omega
  have hneNext : ∀ j < v.limbCount limbSize, v.limbAt m j ≠ some m.limbs.next := by
    intro j hj heq
    obtain ⟨b, l, hb, hl, _⟩ := hshape.limb j hj
    rw [hb] at heq
    rw [Option.some.inj heq, Heap.read_next] at hl
    cases hl
  refine ⟨?_, ?_, ?_, ?_, hatSelf, ?_⟩
  · constructor
    · intro h
      have h' : v.start = none := h
      rw [hstart] at h'
      cases h'
    · intro start' hstart'
      have h' : v.start = some start' := hstart'
      rw [hstart] at h'
      cases h'
      exact ⟨root', hread'⟩
    · intro j hj
      cases hcases j hj with
      | inl hlt =>
        obtain ⟨b, l, hb, hl, hlen⟩ := hshape.limb j hlt
        exact ⟨b, l, by rw [hatOld j hlt, hb], hold b l hl, hlen⟩
      | inr heq =>
        rw [heq]
        exact ⟨_, _, hatSelf, Heap.read_alloc_next _ _, List.length_replicate⟩
    · intro i hi j hj heq
      cases hcases i hi with
      | inl hi' =>
        cases hcases j hj with
        | inl hj' =>
          rw [hatOld i hi', hatOld j hj'] at heq
          exact hshape.distinct i hi' j hj' heq
        | inr hj' =>
          rw [hj', hatSelf, hatOld i hi'] at heq
          exact absurd heq (hneNext i hi')
      | inr hi' =>
        cases hcases j hj with
        | inl hj' =>
          rw [hi', hatSelf, hatOld j hj'] at heq
          exact absurd heq.symm (hneNext j hj')
        | inr hj' => rw [hi', hj']
    · intro capacity' hcapacity'
      have h' : v.last = some capacity' := hcapacity'
      rw [hcapacity] at h'
      cases h'
      have hcount : v.grown.limbCount limbSize ≤ capacity := by
        by_cases h : capacity < v.grown.limbCount limbSize
        · have := (lt_limbCount_grown hpos hmod capacity).mp h
          omega
        · omega
      refine ⟨root', hroot', (List.length_set).trans hfits.limbs, hfits.bitmap,
        hcount, ?_⟩
      intro j hj
      apply hfits.bits
      by_cases h : j < v.limbCount limbSize
      · have := (lt_limbCount_grown hpos hmod j).mpr (by omega)
        omega
      · omega
  · constructor
    · rfl
    · rfl
    · rfl
    · exact hlast
    · intro r _ hown
      have hne : r ≠ start := by
        intro heq
        exact hown ⟨hlast, by rw [hstart, heq]⟩
      exact Heap.read_write_ne m.roots root' hne
    · intro b hlive _
      obtain ⟨l, hl⟩ := Option.ne_none_iff_exists'.mp hlive
      rw [hold b l hl, hl]
    · intro r hown
      exact Or.inl hown
    · intro j b hown
      obtain ⟨hj, hb, hbclear⟩ := hown
      cases hcases j hj with
      | inl hlt =>
        rw [hatOld j hlt] at hb
        rw [hcow] at hbclear
        exact Or.inl ⟨j, hlt, hb, hbclear⟩
      | inr heq =>
        rw [heq, hatSelf] at hb
        right
        rw [← Option.some.inj hb, Heap.read_next]
    · intro j hj hset
      rw [hcow] at hset
      cases hcases j hj with
      | inl hlt => exact ⟨hlt, hset, hatOld j hlt⟩
      | inr heq =>
        rw [heq, hclear] at hset
        cases hset
  · intro ix hix
    have hlt := div_lt_limbCount hpos hix
    obtain ⟨b, l, hb, hl, _⟩ := hshape.limb _ hlt
    show (v.grown.limbAt m' (ix / limbSize)).bind _ = _
    rw [deref, hatOld _ hlt, hb, Option.bind_some, Option.bind_some, Memory.slot,
      Memory.slot, hold b l hl, hl]
  · exact (lt_limbCount_grown hpos hmod _).mpr (Nat.le_refl _)
  · rw [hcow]
    exact hclear

theorem grow_spec {m : Memory T} {v : Vector} (hpos : 0 < limbSize)
    (hshape : v.Shape limbSize m) (howned : v.last ≠ none ∨ v.start = none)
    (hmod : v.size % limbSize = 0) :
    ∃ m' v', v.grow limbSize m = some (m', v') ∧ v'.size = v.size ∧
      v'.grown.Shape limbSize m' ∧ Rewrites limbSize m v m' v'.grown ∧
      (∀ ix < v.size, v'.deref limbSize m' ix = v.deref limbSize m ix) ∧
      ∃ a, v'.grown.Owns limbSize m' (v.size / limbSize) a := by
  have hnull : v.start = none → v.limbCount limbSize = 0 := by
    intro hstart
    apply Nat.eq_zero_of_not_pos
    rw [lt_limbCount hpos, (hshape.null hstart).1]
    omega
  have hcount := limbCount_eq_div hpos hmod
  -- Room is there, or a larger root makes it.
  have hroom : ∃ m₁ v₁, (if v.limbCount limbSize = v.last.getD 0 then v.growRoot m
        else some (m, v)) = some (m₁, v₁) ∧
      v₁.Shape limbSize m₁ ∧ Rewrites limbSize m v m₁ v₁ ∧ v₁.size = v.size ∧
      m₁.limbs = m.limbs ∧
      (∀ k < v.limbCount limbSize, v₁.limbAt m₁ k = v.limbAt m k) ∧
      v.limbCount limbSize < v₁.last.getD 0 := by
    by_cases hfull : v.limbCount limbSize = v.last.getD 0
    · rw [if_pos hfull]
      exact growRoot_spec hshape howned hnull hfull
    · have hlast : v.last ≠ none := by
        intro h
        cases howned with
        | inl hne => exact hne h
        | inr hstart =>
          rw [h, hnull hstart] at hfull
          exact hfull rfl
      obtain ⟨capacity, _, root, hcapacity, _, _, _, hfits⟩ := hshape.root hlast
      have hle := hfits.room
      rw [hcapacity, Option.getD_some] at hfull
      rw [if_neg (by rw [hcapacity, Option.getD_some]; exact hfull)]
      refine ⟨m, v, rfl, hshape, Rewrites.refl m hlast, rfl, rfl,
        fun _ _ => rfl, ?_⟩
      rw [hcapacity, Option.getD_some]
      omega
  obtain ⟨m₁, v₁, hrun, hshape₁, hrewrites, hsize, hlimbs, hat, hlt⟩ := hroom
  have hcount₁ : v₁.limbCount limbSize = v.limbCount limbSize :=
    limbCount_congr hsize
  obtain ⟨capacity, start, root, hcapacity, hstart, hread, _, _⟩ :=
    hshape₁.root hrewrites.last
  rw [hcapacity, Option.getD_some] at hlt
  obtain ⟨hshape₂, hrewrites₂, hderef, hown⟩ := withLimb_spec hpos hshape₁
    (by rw [hsize]; exact hmod) hcapacity hstart hread
    (by rw [hcount₁]; exact hlt)
  refine ⟨v₁.withLimb limbSize m₁ start root, v₁, ?_, hsize, hshape₂,
    hrewrites.trans hrewrites₂, ?_, m₁.limbs.next, ?_⟩
  · unfold grow
    have hguard : v.last ≠ none ∨ v.size = 0 :=
      howned.imp id fun h => (hshape.null h).1
    simp only [guard, hguard, hmod, if_true, Option.bind_eq_bind,
      Option.pure_def, Option.bind_some, hrun]
    rw [hcount₁, hcapacity, Option.getD_some, if_pos hlt, Option.bind_some,
      hstart, Option.bind_some, hread, Option.bind_some, withLimb, hcount₁]
  · intro ix hix
    rw [hderef ix (by rw [hsize]; exact hix)]
    exact deref_congr (hat _ (div_lt_limbCount hpos hix)) hlimbs
  · rw [← hcount, ← hcount₁]
    exact hown

/-! ## Changes -/

/-- A new element in a limb that is in use. -/
theorem Shape.grown {m : Memory T} {v : Vector} (h : v.Shape limbSize m)
    (hstart : v.start ≠ none)
    (hcount : v.grown.limbCount limbSize = v.limbCount limbSize) :
    v.grown.Shape limbSize m where
  null := fun h' => absurd h' hstart
  read := h.read
  limb := by
    rw [hcount]
    exact h.limb
  distinct := by
    rw [hcount]
    exact h.distinct
  ownRoot := by
    rw [hcount]
    exact h.ownRoot

theorem Rewrites.grown {m m' : Memory T} {v v' : Vector}
    (h : Rewrites limbSize m v m' v')
    (hcount : v'.grown.limbCount limbSize = v'.limbCount limbSize) :
    Rewrites limbSize m v m' v'.grown where
  debugParent := h.debugParent
  debugRefcount := h.debugRefcount
  counts := h.counts
  last := h.last
  roots := h.roots
  limbs := h.limbs
  ownRoot := h.ownRoot
  own := by
    intro k a hown
    exact h.own k a ⟨hcount ▸ hown.1, hown.2⟩
  shared := by
    rw [hcount]
    exact h.shared

theorem uncowIfNeeded_spec {m : Memory T} {v : Vector} (hpos : 0 < limbSize)
    (hshape : v.Shape limbSize m) (hfilled : v.Filled limbSize m)
    (hlast : v.last ≠ none) {k : Nat} (hk : k < v.limbCount limbSize) :
    ∃ m', v.uncowIfNeeded limbSize m k = some m' ∧ v.Shape limbSize m' ∧
      Rewrites limbSize m v m' v ∧
      (∀ ix < v.size, v.deref limbSize m' ix = v.deref limbSize m ix) ∧
      ∃ a, v.Owns limbSize m' k a := by
  unfold uncowIfNeeded
  rw [hshape.limbIsCow hlast hk, Option.bind_eq_bind, Option.bind_some]
  cases hcow : v.cow m k with
  | false =>
    obtain ⟨a, _, hat, _, _⟩ := hshape.limb k hk
    exact ⟨m, rfl, hshape, Rewrites.refl m hlast, fun _ _ => rfl, a, hk, hat,
      hcow⟩
  | true =>
    obtain ⟨m', hrun, hshape', hrewrites, hderef, hclear⟩ :=
      uncow_spec hpos hshape hfilled hlast hk hcow
    obtain ⟨a, _, hat, _, _⟩ := hshape'.limb k hk
    exact ⟨m', hrun, hshape', hrewrites, hderef, a, hk, hat, hclear⟩

/-- A vector with elements gets a root of its own. -/
theorem uncowRootIfNeeded_spec {m : Memory T} {v : Vector} (hpos : 0 < limbSize)
    (hshape : v.Shape limbSize m) (hstart : v.start ≠ none) :
    ∃ m' v', v.uncowRootIfNeeded limbSize m = some (m', v') ∧
      v'.Shape limbSize m' ∧ Rewrites limbSize m v m' v' ∧ v'.size = v.size ∧
      ∀ ix < v.size, v'.deref limbSize m' ix = v.deref limbSize m ix := by
  unfold uncowRootIfNeeded
  by_cases hlast : v.last = none
  · obtain ⟨m', v', hrun, hshape', hrewrites, hsize, hlimbs, hat⟩ :=
      uncowRoot_spec hshape hlast hstart
    rw [if_pos ⟨hlast, hstart⟩]
    exact ⟨m', v', hrun, hshape', hrewrites, hsize, fun ix hix =>
      deref_congr (hat _ (div_lt_limbCount hpos hix)) hlimbs⟩
  · rw [if_neg (fun h => hlast h.1)]
    exact ⟨m, v, rfl, hshape, Rewrites.refl m hlast, rfl, fun _ _ => rfl⟩

theorem uncowRootIfNeededAssumeNonempty_eq {m : Memory T} {v : Vector}
    (hstart : v.start ≠ none) : v.uncowRootIfNeededAssumeNonempty limbSize m =
      v.uncowRootIfNeeded limbSize m := by
  unfold uncowRootIfNeededAssumeNonempty uncowRootIfNeeded
  rw [guard, if_pos hstart]
  by_cases hlast : v.last = none
  · rw [if_pos hlast, if_pos ⟨hlast, hstart⟩]
    rfl
  · rw [if_neg hlast, if_neg (fun h => hlast h.1)]
    rfl

theorem Filled.of_deref {m m' : Memory T} {v v' : Vector}
    (hfilled : v.Filled limbSize m) (hsize : v'.size = v.size)
    (hderef : ∀ ix < v.size, v'.deref limbSize m' ix = v.deref limbSize m ix) :
    v'.Filled limbSize m' := by
  intro ix hix
  rw [hsize] at hix
  rw [hderef ix hix]
  exact hfilled ix hix

/-- An element is constructed in, or assigned to, a limb of the vector. -/
theorem construct_slot {m : Memory T} {v : Vector} (hshape : v.Shape limbSize m)
    (hlast : v.last ≠ none) {k a i : Nat} (hown : v.Owns limbSize m k a)
    (hi : i < limbSize) (x : T) :
    ∃ m', m.construct a i x = some m' ∧ v.Shape limbSize m' ∧
      Rewrites limbSize m v m' v ∧ m'.slot a i = some x ∧
      ∀ ix, ix / limbSize < v.limbCount limbSize →
        v.deref limbSize m' ix =
          if ix / limbSize = k ∧ ix % limbSize = i then some x
          else v.deref limbSize m ix := by
  obtain ⟨hk, hat, hclear⟩ := hown
  obtain ⟨b, limb, hb, hread, hlength⟩ := hshape.limb k hk
  rw [hat] at hb
  cases hb
  have hilt : i < limb.length := by
    rw [hlength]
    exact hi
  let m' : Memory T :=
    { m with limbs := m.limbs.write a (limb.set i (some x)) }
  have hroot : v.root m' = v.root m := rfl
  have hself : m'.limbs.read a = some (limb.set i (some x)) :=
    Heap.read_write_self _ hread
  have hne : ∀ b, b ≠ a → m'.limbs.read b = m.limbs.read b :=
    fun b h => Heap.read_write_ne m.limbs _ h
  refine ⟨m', Memory.construct_spec x hread hilt, ?_, ?_, ?_, ?_⟩
  · constructor
    · exact hshape.null
    · exact hshape.read
    · intro j hj
      obtain ⟨b, l, hb, hl, hlen⟩ := hshape.limb j hj
      by_cases heq : b = a
      · subst heq
        refine ⟨b, limb.set i (some x), hb, hself, ?_⟩
        rw [List.length_set]
        exact hlength
      · exact ⟨b, l, hb, by rw [hne b heq, hl], hlen⟩
    · exact hshape.distinct
    · exact hshape.ownRoot
  · constructor
    · rfl
    · rfl
    · rfl
    · exact hlast
    · intro r _ _
      rfl
    · intro b _ hnot
      apply hne
      intro heq
      exact hnot k ⟨hk, by rw [heq]; exact hat, hclear⟩
    · intro r h
      exact Or.inl h
    · intro j b h
      exact Or.inl ⟨j, h⟩
    · intro j hj hset
      exact ⟨hj, hset, rfl⟩
  · rw [Memory.slot, hself, Option.bind_some, List.getElem?_set_self hilt]
    rfl
  · intro ix hlt
    obtain ⟨b, l, hb, hl, _⟩ := hshape.limb _ hlt
    have hb' : v.limbAt m' (ix / limbSize) = some b := hb
    unfold deref
    rw [hb', hb, Option.bind_some, Option.bind_some, Memory.slot, Memory.slot]
    by_cases hdiv : ix / limbSize = k
    · rw [hdiv, hat] at hb
      cases hb
      rw [hself, hread, Option.bind_some, Option.bind_some]
      by_cases hmod : ix % limbSize = i
      · rw [if_pos ⟨hdiv, hmod⟩, hmod, List.getElem?_set_self hilt]
        rfl
      · rw [if_neg (fun h => hmod h.2), List.getElem?_set_ne (Ne.symm hmod)]
    · have hba : b ≠ a := by
        intro heq
        rw [heq, ← hat] at hb
        exact hdiv (hshape.distinct _ hlt k hk hb)
      rw [if_neg (fun h => hdiv h.1), hne b hba]

theorem pushBackInternal_spec {m : Memory T} {v : Vector} (hpos : 0 < limbSize)
    (hshape : v.Shape limbSize m) (hfilled : v.Filled limbSize m)
    (hcount : m.counts.read v.debugRefcount = some 0) :
    ∃ m' v' a, v.pushBackInternal limbSize m =
        some (m', v', a, v.size % limbSize) ∧ v'.size = v.size + 1 ∧
      v'.Shape limbSize m' ∧ Rewrites limbSize m v m' v' ∧
      (∀ ix < v.size, v'.deref limbSize m' ix = v.deref limbSize m ix) ∧
      v'.Owns limbSize m' (v.size / limbSize) a := by
  have hwritable : v.assertWritable m = some () := by
    rw [assertWritable, hcount]
    rfl
  unfold pushBackInternal
  rw [hwritable]
  simp only [Option.bind_eq_bind, Option.bind_some, Option.pure_def]
  by_cases hmod : v.size % limbSize = 0
  · have hroot : ∃ m₁ v₁, v.uncowRootIfNeeded limbSize m = some (m₁, v₁) ∧
        v₁.Shape limbSize m₁ ∧ (v₁.last ≠ none ∨ v₁.start = none) ∧
        v₁.size = v.size ∧
        (∀ ix < v.size, v₁.deref limbSize m₁ ix = v.deref limbSize m ix) ∧
        ∀ m₂ v₂, Rewrites limbSize m₁ v₁ m₂ v₂ → Rewrites limbSize m v m₂ v₂ := by
      by_cases hstart : v.start = none
      · refine ⟨m, v, ?_, hshape, Or.inr hstart, rfl, fun _ _ => rfl,
          fun _ _ h => h⟩
        rw [uncowRootIfNeeded, if_neg (fun h => h.2 hstart)]
      · obtain ⟨m₁, v₁, hrun, hshape₁, hrewrites, hsize, hderef⟩ :=
          uncowRootIfNeeded_spec hpos hshape hstart
        exact ⟨m₁, v₁, hrun, hshape₁, Or.inl hrewrites.last, hsize, hderef,
          fun _ _ => hrewrites.trans⟩
    obtain ⟨m₁, v₁, hrun, hshape₁, howned, hsize, hderef₁, htrans⟩ := hroot
    obtain ⟨m₂, v₂, hgrow, hsize₂, hshape₂, hrewrites, hderef₂, a, hown⟩ :=
      grow_spec hpos hshape₁ howned (by rw [hsize]; exact hmod)
    rw [hsize] at hown hderef₂ hsize₂
    refine ⟨m₂, v₂.grown, a, ?_, congrArg (· + 1) hsize₂, hshape₂,
      htrans _ _ hrewrites, ?_, hown⟩
    · rw [hrun, Option.bind_some, if_neg (fun h => h hmod), hgrow,
        Option.bind_some]
      have hat : v₂.grown.limbAt m₂ (v.size / limbSize) = some a := hown.2.1
      show (v₂.grown.limbAt m₂ (v.size / limbSize)).bind _ = _
      rw [hat]
      rfl
    · intro ix hix
      exact (hderef₂ ix hix).trans (hderef₁ ix hix)
  · have hstart : v.start ≠ none := by
      intro h
      rw [(hshape.null h).1, Nat.zero_mod] at hmod
      exact hmod rfl
    obtain ⟨m₁, v₁, hrun, hshape₁, hrewrites₁, hsize₁, hderef₁⟩ :=
      uncowRootIfNeeded_spec hpos hshape hstart
    have hmod₁ : v₁.size % limbSize ≠ 0 := by
      rw [hsize₁]
      exact hmod
    have hk : v.size / limbSize < v₁.limbCount limbSize := by
      rw [lt_limbCount hpos, hsize₁]
      have hdm := Nat.div_add_mod v.size limbSize
      rw [Nat.mul_comm] at hdm
      omega
    obtain ⟨m₂, huncow, hshape₂, hrewrites₂, hderef₂, a, hown⟩ :=
      uncowIfNeeded_spec hpos hshape₁ (hfilled.of_deref hsize₁ hderef₁)
        hrewrites₁.last hk
    have hgrown := limbCount_grown hpos hmod₁
    refine ⟨m₂, v₁.grown, a, ?_, congrArg (· + 1) hsize₁,
      hshape₂.grown ?_ hgrown, (hrewrites₁.trans hrewrites₂).grown hgrown, ?_,
      hgrown ▸ hown.1, hown.2⟩
    · rw [hrun, Option.bind_some, if_pos hmod, huncow, Option.map_some,
        Option.bind_some]
      show (v₁.limbAt m₂ (v.size / limbSize)).bind _ = _
      rw [hown.2.1]
      rfl
    · intro h
      exact hrewrites₁.last (hshape₁.null h).2
    · intro ix hix
      exact (hderef₂ ix (by rw [hsize₁]; exact hix)).trans (hderef₁ ix hix)

/-- The vector holds the list `items`. -/
structure Holds (limbSize : Nat) (m : Memory T) (v : Vector) (items : List T) :
    Prop where
  size : v.size = items.length
  item : ∀ ix < v.size, v.deref limbSize m ix = items[ix]?

theorem Holds.filled {m : Memory T} {v : Vector} {items : List T}
    (h : v.Holds limbSize m items) : v.Filled limbSize m := by
  intro ix hix
  rw [h.item ix hix, List.getElem?_eq_getElem (h.size ▸ hix)]
  rfl

theorem emplaceBack_spec {m : Memory T} {v : Vector} {items : List T}
    (hpos : 0 < limbSize) (hshape : v.Shape limbSize m)
    (hholds : v.Holds limbSize m items)
    (hcount : m.counts.read v.debugRefcount = some 0) (x : T) :
    ∃ m' v' a k, v.emplaceBack limbSize m x = some (m', v', a, k) ∧
      m'.slot a k = some x ∧ v'.Shape limbSize m' ∧
      Rewrites limbSize m v m' v' ∧ 0 < v'.size ∧
      v'.Holds limbSize m' (items ++ [x]) := by
  obtain ⟨m₁, v₁, a, hrun, hsize, hshape₁, hrewrites₁, hderef₁, hown⟩ :=
    pushBackInternal_spec hpos hshape hholds.filled hcount
  obtain ⟨m₂, hconstruct, hshape₂, hrewrites₂, hslot, hderef₂⟩ :=
    construct_slot hshape₁ hrewrites₁.last hown (Nat.mod_lt v.size hpos) x
  refine ⟨m₂, v₁, a, v.size % limbSize, ?_, hslot, hshape₂,
    hrewrites₁.trans hrewrites₂, by omega, ?_, ?_⟩
  · unfold emplaceBack
    simp only [hrun, hconstruct, Option.bind_eq_bind, Option.bind_some,
      Option.pure_def]
  · rw [hsize, hholds.size, List.length_append, List.length_singleton]
  · intro ix hix
    have hlt := div_lt_limbCount hpos hix
    rw [hderef₂ ix hlt]
    by_cases heq : ix = v.size
    · rw [if_pos (by rw [heq]; exact ⟨rfl, rfl⟩), heq, hholds.size,
        List.getElem?_concat_length]
    · have hold : ix < v.size := by omega
      rw [if_neg, hderef₁ ix hold, hholds.item ix hold,
        List.getElem?_append_left (by rw [← hholds.size]; exact hold)]
      intro h
      apply heq
      rw [← Nat.div_add_mod ix limbSize, h.1, h.2, Nat.div_add_mod]

theorem pushBack_eq (limbSize : Nat) (m : Memory T) (v : Vector) (x : T) :
    v.pushBack limbSize m x =
      (v.emplaceBack limbSize m x).map fun r => (r.1, r.2.1) := by
  unfold pushBack emplaceBack
  cases v.pushBackInternal limbSize m with
  | none => rfl
  | some r =>
    show ((r.1.construct r.2.2.1 r.2.2.2 x).bind _) =
      Option.map _ ((r.1.construct r.2.2.1 r.2.2.2 x).bind _)
    cases r.1.construct r.2.2.1 r.2.2.2 x <;> rfl

/-- `mut` gives a reference to the element, and an assignment through it
changes the element in this vector. -/
theorem mutRef_spec {m : Memory T} {v : Vector} {items : List T}
    (hpos : 0 < limbSize) (hshape : v.Shape limbSize m)
    (hholds : v.Holds limbSize m items)
    (hcount : m.counts.read v.debugRefcount = some 0) {ix : Nat} {y : T}
    (hitem : items[ix]? = some y) :
    ∃ m' v' a k, v.mutRef limbSize m ix = some (m', v', a, k) ∧
      m'.slot a k = some y ∧ ∀ x, ∃ m'', m'.assign a k x = some m'' ∧
        v'.Shape limbSize m'' ∧ Rewrites limbSize m v m'' v' ∧ 0 < v'.size ∧
        v'.Holds limbSize m'' (items.set ix x) := by
  have hixItems : ix < items.length := (List.getElem?_eq_some_iff.mp hitem).1
  have hix : ix < v.size := by
    rw [hholds.size]
    exact hixItems
  have hwritable : v.assertWritable m = some () := by
    rw [assertWritable, hcount]
    rfl
  have hstart : v.start ≠ none := by
    intro h
    rw [(hshape.null h).1] at hix
    omega
  obtain ⟨m₁, v₁, hrun, hshape₁, hrewrites₁, hsize, hderef₁⟩ :=
    uncowRootIfNeeded_spec hpos hshape hstart
  have hk : ix / limbSize < v₁.limbCount limbSize :=
    div_lt_limbCount hpos (by rw [hsize]; exact hix)
  obtain ⟨m₂, huncow, hshape₂, hrewrites₂, hderef₂, a, hown⟩ :=
    uncowIfNeeded_spec hpos hshape₁ (hholds.filled.of_deref hsize hderef₁)
      hrewrites₁.last hk
  have hderef : ∀ j < v.size, v₁.deref limbSize m₂ j = items[j]? := by
    intro j hj
    rw [hderef₂ j (by rw [hsize]; exact hj), hderef₁ j hj, hholds.item j hj]
  have hslot : m₂.slot a (ix % limbSize) = some y := by
    have h := hderef ix hix
    rw [deref, hown.2.1, Option.bind_some, hitem] at h
    exact h
  refine ⟨m₂, v₁, a, ix % limbSize, ?_, hslot, ?_⟩
  · unfold mutRef
    simp only [guard, hix, if_true, hwritable,
      uncowRootIfNeededAssumeNonempty_eq hstart, hrun, huncow, hown.2.1,
      Option.bind_eq_bind, Option.bind_some, Option.pure_def]
  · intro x
    obtain ⟨m₃, hconstruct, hshape₃, hrewrites₃, _, hderef₃⟩ :=
      construct_slot hshape₂ hrewrites₂.last hown (Nat.mod_lt ix hpos) x
    refine ⟨m₃, by rw [Memory.assign_of_slot x hslot, hconstruct], hshape₃,
      (hrewrites₁.trans hrewrites₂).trans hrewrites₃, by omega, ?_, ?_⟩
    · rw [hsize, hholds.size, List.length_set]
    · intro j hj
      rw [hderef₃ j (div_lt_limbCount hpos hj)]
      rw [hsize] at hj
      by_cases heq : j = ix
      · rw [if_pos (by rw [heq]; exact ⟨rfl, rfl⟩), heq,
          List.getElem?_set_self hixItems]
      · rw [if_neg, hderef j hj, List.getElem?_set_ne (Ne.symm heq)]
        intro h
        apply heq
        rw [← Nat.div_add_mod j limbSize, h.1, h.2, Nat.div_add_mod]

/-! ## Reads -/

theorem range_mul (limbSize q : Nat) :
    (List.range q).flatMap (fun limb => (List.range limbSize).map
        fun limbIx => (limb, limbIx)) =
      (List.range (q * limbSize)).map fun ix => (ix / limbSize, ix % limbSize) := by
  induction q with
  | zero =>
    rw [Nat.zero_mul]
    rfl
  | succ q ih =>
    rw [List.range_succ, List.flatMap_append, ih, List.flatMap_singleton,
      Nat.add_mul, Nat.one_mul, List.range_add, List.map_append, List.map_map]
    congr 1
    apply List.map_congr_left
    intro i hi
    have hi' := List.mem_range.mp hi
    show (q, i) = ((q * limbSize + i) / limbSize, (q * limbSize + i) % limbSize)
    rw [mul_add_div_limb hi', mul_add_mod_limb hi']

/-- The loops visit the elements in the order of their indices. -/
theorem positions_eq (hpos : 0 < limbSize) (size : Nat) :
    positions limbSize size =
      (List.range size).map fun ix => (ix / limbSize, ix % limbSize) := by
  have hsize := Nat.div_add_mod size limbSize
  rw [Nat.mul_comm] at hsize
  unfold positions
  rw [range_mul]
  conv => rhs; rw [← hsize]
  rw [List.range_add, List.map_append, List.map_map]
  congr 1
  apply List.map_congr_left
  intro i hi
  have hi' : i < limbSize :=
    Nat.lt_trans (List.mem_range.mp hi) (Nat.mod_lt size hpos)
  show (size / limbSize, i) = ((size / limbSize * limbSize + i) / limbSize,
    (size / limbSize * limbSize + i) % limbSize)
  rw [mul_add_div_limb hi', mul_add_mod_limb hi']

theorem mapM_eq_some {α β : Type} {f : α → Option β} {l : List α} {ys : List β}
    (hlength : l.length = ys.length)
    (hget : ∀ (i : Nat) (x : α), l[i]? = some x → f x = ys[i]?) : l.mapM f = some ys := by
  induction l generalizing ys with
  | nil =>
    cases ys with
    | nil => rfl
    | cons y ys => cases hlength
  | cons x l ih =>
    cases ys with
    | nil => cases hlength
    | cons y ys =>
      have hx : f x = some y := hget 0 x rfl
      have hrest : l.mapM f = some ys :=
        ih (Nat.succ.inj hlength) fun i z hz => hget (i + 1) z hz
      rw [List.mapM_cons, hx, hrest]
      rfl

theorem Holds.element {m : Memory T} {v : Vector} {items : List T}
    (h : v.Holds limbSize m items) {i : Nat} {p : Nat × Nat}
    (hp : ((List.range v.size).map fun ix =>
      (ix / limbSize, ix % limbSize))[i]? = some p) :
    v.element m p = items[i]? := by
  rw [List.getElem?_map] at hp
  by_cases hi : i < v.size
  · rw [List.getElem?_range hi] at hp
    cases hp
    exact h.item i hi
  · rw [List.getElem?_eq_none (by rw [List.length_range]; omega)] at hp
    cases hp

theorem forEach_spec {m : Memory T} {v : Vector} {items : List T}
    (hpos : 0 < limbSize) (h : v.Holds limbSize m items) :
    v.forEach limbSize m = some items := by
  unfold forEach
  rw [positions_eq hpos]
  apply mapM_eq_some
  · rw [List.length_map, List.length_range]
    exact h.size
  · intro i p hp
    exact h.element hp

theorem allOfLoop_eq {m : Memory T} {v : Vector} (p : T → Bool)
    {l : List (Nat × Nat)} {ys : List T}
    (h : l.mapM (v.element m) = some ys) : v.allOfLoop m p l = some (ys.all p) := by
  induction l generalizing ys with
  | nil =>
    cases h
    rfl
  | cons x l ih =>
    rw [List.mapM_cons, Option.bind_eq_bind, Option.bind_eq_some_iff] at h
    obtain ⟨y, hy, h⟩ := h
    rw [Option.bind_eq_bind, Option.bind_eq_some_iff] at h
    obtain ⟨rest, hrest, h⟩ := h
    cases h
    rw [allOfLoop, hy, Option.bind_eq_bind, Option.bind_some, List.all_cons]
    cases p y with
    | false => rfl
    | true => exact ih hrest

theorem allOf_spec {m : Memory T} {v : Vector} {items : List T}
    (hpos : 0 < limbSize) (h : v.Holds limbSize m items) (p : T → Bool) :
    v.allOf limbSize m p = some (items.all p) :=
  allOfLoop_eq p (forEach_spec hpos h)

theorem get_spec {m : Memory T} {v : Vector} {items : List T}
    (h : v.Holds limbSize m items) (ix : Nat) :
    v.get limbSize m ix = items[ix]? := by
  unfold get
  by_cases hix : ix < v.size
  · rw [guard, if_pos hix]
    exact h.item ix hix
  · rw [guard, if_neg hix, List.getElem?_eq_none (by rw [← h.size]; omega)]
    rfl

theorem atIndex_spec {m : Memory T} {v : Vector} {items : List T}
    (h : v.Holds limbSize m items) (ix : Nat) :
    v.atIndex limbSize m ix = some items[ix]? := by
  unfold atIndex
  by_cases hix : v.size ≤ ix
  · rw [if_pos hix, List.getElem?_eq_none (by rw [← h.size]; exact hix)]
  · have hlt : ix < items.length := by
      rw [← h.size]
      omega
    rw [if_neg hix, h.item ix (by omega), List.getElem?_eq_getElem hlt]
    rfl

/-! ## Destruction -/

/-- The limbs below `n` that the vector owns were deleted, and nothing else. -/
structure Freed (limbSize : Nat) (v : Vector) (m : Memory T) (n : Nat)
    (m' : Memory T) : Prop where
  roots : m'.roots = m.roots
  counts : m'.counts = m.counts
  limbs : ∀ a, (∀ k < n, ¬ v.Owns limbSize m k a) →
    m'.limbs.read a = m.limbs.read a

theorem destroyLimb_spec {m m₁ : Memory T} {v : Vector}
    (hshape : v.Shape limbSize m) (hfilled : v.Filled limbSize m)
    (hlast : v.last ≠ none) {n : Nat} (hfreed : Freed limbSize v m n m₁)
    (hn : n < v.limbCount limbSize) {elements : Nat} (hle : elements ≤ limbSize)
    (hsize : n * limbSize + elements ≤ v.size) :
    ∃ m₂, v.destroyLimb m₁ n elements = some m₂ ∧
      Freed limbSize v m (n + 1) m₂ := by
  have hroot : v.root m₁ = v.root m := by
    rw [Vector.root, Vector.root, hfreed.roots]
  have hcow : v.limbIsCow m₁ n = some (v.cow m n) := by
    rw [← hshape.limbIsCow hlast hn]
    unfold Vector.limbIsCow
    rw [hroot]
  obtain ⟨a, limb, hat, hread, _⟩ := hshape.limb n hn
  have hat₁ : v.limbAt m₁ n = some a := by
    rw [limbAt, hroot]
    exact hat
  unfold destroyLimb
  rw [hcow, Option.bind_eq_bind, Option.bind_some]
  cases hset : v.cow m n with
  | true =>
    refine ⟨m₁, rfl, hfreed.roots, hfreed.counts, ?_⟩
    intro b hnot
    exact hfreed.limbs b fun k hk => hnot k (by omega)
  | false =>
    -- The limbs that are gone are other limbs of the vector.
    have hsame : m₁.limbs.read a = m.limbs.read a := by
      apply hfreed.limbs
      intro k hk hown
      have heq := hshape.distinct k hown.1 n hn (hown.2.1.trans hat.symm)
      omega
    have helements : ∀ k < elements, ((m₁.slot a k).isSome : Bool) := by
      intro k hk
      rw [Memory.slot, hsame]
      exact hfilled.slot hat (by omega) (by omega)
    refine ⟨{ m₁ with limbs := m₁.limbs.free a }, ?_, hfreed.roots,
      hfreed.counts, ?_⟩
    · simp only [hat₁, guard, if_pos helements, Option.bind_eq_bind,
        Option.bind_some, Option.pure_def]
      rfl
    · intro b hnot
      have hne : b ≠ a := by
        intro heq
        exact hnot n (by omega) ⟨hn, by rw [heq]; exact hat, hset⟩
      show (m₁.limbs.free a).read b = _
      rw [Heap.read_free_ne _ hne]
      exact hfreed.limbs b fun k hk => hnot k (by omega)

theorem destroyLimbs_spec {m : Memory T} {v : Vector} (hpos : 0 < limbSize)
    (hshape : v.Shape limbSize m) (hfilled : v.Filled limbSize m)
    (hlast : v.last ≠ none) (n : Nat) (hn : n ≤ v.size / limbSize) :
    ∃ m', (List.range n).foldlM (fun m i => v.destroyLimb m i limbSize) m =
      some m' ∧ Freed limbSize v m n m' := by
  induction n with
  | zero => exact ⟨m, rfl, rfl, rfl, fun _ _ => rfl⟩
  | succ n ih =>
    obtain ⟨m₁, hrun, hfreed⟩ := ih (by omega)
    have hmul : (n + 1) * limbSize ≤ v.size :=
      (Nat.le_div_iff_mul_le hpos).mp hn
    rw [Nat.add_mul, Nat.one_mul] at hmul
    obtain ⟨m₂, hstep, hfreed₂⟩ := destroyLimb_spec hshape hfilled hlast hfreed
      ((lt_limbCount hpos v n).mpr (by omega)) (Nat.le_refl limbSize) hmul
    refine ⟨m₂, ?_, hfreed₂⟩
    rw [List.range_succ, List.foldlM_append, hrun]
    show ((v.destroyLimb m₁ n limbSize).bind some) = some m₂
    rw [hstep]
    rfl

theorem destroyOwned_spec {m : Memory T} {v : Vector} (hpos : 0 < limbSize)
    (hshape : v.Shape limbSize m) (hfilled : v.Filled limbSize m)
    (hlast : v.last ≠ none) :
    ∃ m', v.destroyOwned limbSize m = some m' ∧ m'.counts = m.counts ∧
      (∀ r, ¬ v.OwnsRoot r → m'.roots.read r = m.roots.read r) ∧
      ∀ a, (∀ k, ¬ v.Owns limbSize m k a) →
        m'.limbs.read a = m.limbs.read a := by
  obtain ⟨_, start, _, _, hstart, _, _, _⟩ := hshape.root hlast
  obtain ⟨m₁, hrun, hfreed⟩ := destroyLimbs_spec hpos hshape hfilled hlast
    (v.size / limbSize) (Nat.le_refl _)
  have hdm := Nat.div_add_mod v.size limbSize
  rw [Nat.mul_comm] at hdm
  have hrest : ∃ m₂, (if v.size % limbSize ≠ 0 then
        v.destroyLimb m₁ (v.size / limbSize) (v.size % limbSize)
      else some m₁) = some m₂ ∧
      ∃ n, Freed limbSize v m n m₂ := by
    by_cases hmod : v.size % limbSize = 0
    · rw [if_neg (fun h => h hmod)]
      exact ⟨m₁, rfl, _, hfreed⟩
    · rw [if_pos hmod]
      obtain ⟨m₂, hstep, hfreed₂⟩ := destroyLimb_spec hshape hfilled hlast
        hfreed ((lt_limbCount hpos v _).mpr (by omega))
        (Nat.le_of_lt (Nat.mod_lt v.size hpos)) (Nat.le_of_eq hdm)
      exact ⟨m₂, hstep, _, hfreed₂⟩
  obtain ⟨m₂, hlastLimb, n, hfreed₂⟩ := hrest
  refine ⟨{ m₂ with roots := m₂.roots.free start }, ?_, hfreed₂.counts, ?_, ?_⟩
  · unfold destroyOwned
    simp only [hrun, Option.bind_eq_bind, Option.bind_some]
    rw [hlastLimb, hstart]
    rfl
  · intro r hnot
    have hne : r ≠ start := by
      intro heq
      exact hnot ⟨hlast, by rw [hstart, heq]⟩
    show (m₂.roots.free start).read r = _
    rw [Heap.read_free_ne _ hne, hfreed₂.roots]
  · intro a hnot
    exact hfreed₂.limbs a fun k _ => hnot k

end Vector

end ViEqui.Gen
