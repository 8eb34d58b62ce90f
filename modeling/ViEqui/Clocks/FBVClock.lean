import ViEqui.Lib.GetD
import Mathlib.Logic.Relation

/-!
# Lazily updated bit clocks

The clocks of one clock system of `src/FBVClock.cpp`.  A clock is its number `id` in the
vectors of the system, and it has a bit for each index.  `update` follows the changed clocks
among those that a clock has, without marks for those that it is busy with, so it takes
fuel for the depth of the recursion, and `none` stands for a recursion that goes deeper, or
for an access outside of the vectors.
-/

namespace ViEqui.Clocks

/-- `FBVClock::ClockSystem`. -/
structure ClockSystem where
  time : Nat := 0
  changeTs : List Nat := []
  updateTs : List Nat := []
  clocks : List (List Bool) := []
  idxToId : List Nat := []
deriving Inhabited

open GetD

namespace ClockSystem

/-- `clocks[id]`. -/
def clock (CS : ClockSystem) (id : Nat) : List Bool := CS.clocks.getD id []

/-- The bit of a clock for an index; behind the end it is not set. -/
def bit (CS : ClockSystem) (id i : Nat) : Bool := (CS.clock id).getD i false

/-- `change_ts[id]`. -/
def changed (CS : ClockSystem) (id : Nat) : Nat := CS.changeTs.getD id 0

/-- `update_ts[id]`. -/
def updated (CS : ClockSystem) (id : Nat) : Nat := CS.updateTs.getD id 0

/-- `resize`. -/
def resize {α : Type} (l : List α) (n : Nat) (x : α) : List α :=
  l.take n ++ List.replicate (n - l.length) x

/-- `add_clock`. -/
def addClock (dst src : List Bool) : List Bool :=
  (if dst.length < src.length then resize dst src.length false else dst).zipIdx.map fun (b, i) =>
    b || src.getD i false

/-- `add_clock` on two clocks of the system. -/
def addTo (CS : ClockSystem) (id src : Nat) : ClockSystem :=
  { CS with clocks := CS.clocks.set id (addClock (CS.clock id) (CS.clock src)) }

def setUpdated (CS : ClockSystem) (id t : Nat) : ClockSystem :=
  { CS with updateTs := CS.updateTs.set id t }

/-- One round of the loop of `update`. -/
def updateRound (rec : ClockSystem → Nat → Option ClockSystem) (id upd i : Nat)
    (CS : ClockSystem) : Option ClockSystem :=
  CS.idxToId[i]?.bind fun iId =>
    if iId ≠ id ∧ CS.bit id i = true ∧ upd < CS.changed iId then
      (rec CS iId).map fun CS => CS.addTo id iId
    else some CS

/-- The loop of `update` from `i` on, for `n` rounds at most. -/
def updateLoop (rec : ClockSystem → Nat → Option ClockSystem) (id upd : Nat) :
    Nat → Nat → ClockSystem → Option ClockSystem
  | 0, i, CS => if i < (CS.clock id).length then none else some CS
  | n + 1, i, CS =>
    if i < (CS.clock id).length then
      (updateRound rec id upd i CS).bind (updateLoop rec id upd n (i + 1))
    else some CS

/-- `update`. -/
def update : Nat → ClockSystem → Nat → Option ClockSystem
  | 0, _, _ => none
  | fuel + 1, CS, id =>
    if id < CS.clocks.length ∧ (CS.clock id).length ≤ CS.idxToId.length then
      if CS.updated id = CS.time then some CS
      else
        (updateLoop (update fuel) id (CS.updated id) CS.idxToId.length 0 CS).map fun CS =>
          CS.setUpdated id CS.time
    else none

/-- The constructor. -/
def create (CS : ClockSystem) (idx : Nat) : ClockSystem where
  time := CS.time
  changeTs := CS.changeTs ++ [CS.time]
  updateTs := CS.updateTs ++ [CS.time]
  clocks := CS.clocks ++ [(List.replicate (idx + 1) false).set idx true]
  idxToId :=
    (if CS.idxToId.length ≤ idx then resize CS.idxToId (idx + 1) 0 else CS.idxToId).set idx
      CS.clocks.length

/-- `operator[]`: the system, and the bit. -/
def query (fuel : Nat) (CS : ClockSystem) (id i : Nat) : Option (ClockSystem × Bool) :=
  (update fuel CS id).map fun CS => (CS, decide (i < (CS.clock id).length) && CS.bit id i)

/-- What `operator+=` does behind the update of `c`. -/
def link (CS : ClockSystem) (id c : Nat) : ClockSystem :=
  let CS := ({ CS with time := CS.time + 1 }.setUpdated c (CS.time + 1)).addTo id c
  { CS with changeTs := CS.changeTs.set id CS.time }

/-- `operator+=` with the clock `c` of index `cIdx`. -/
def addAssign (fuel : Nat) (CS : ClockSystem) (id c cIdx : Nat) : Option ClockSystem :=
  if cIdx < (CS.clock id).length ∧ CS.bit id cIdx = true then some CS
  else (update fuel CS c).map fun CS => CS.link id c

/-! ## Bits and time stamps after an operation -/

theorem getD_resize {α : Type} (l : List α) (n : Nat) (x : α) (i : Nat) (h : l.length ≤ n) :
    (resize l n x).getD i x = l.getD i x := by
  unfold resize
  rw [List.take_of_length_le h]
  rcases Nat.lt_or_ge i l.length with hi | hi
  · rw [List.getD_append _ _ _ _ hi]
  · rw [List.getD_append_right _ _ _ _ hi, List.getD_eq_default l x hi]
    exact getD_replicate_self _ _ x

theorem length_resize {α : Type} (l : List α) (n : Nat) (x : α) (h : l.length ≤ n) :
    (resize l n x).length = n := by
  rw [resize, List.length_append, List.length_take, List.length_replicate]
  omega

theorem length_addClock (dst src : List Bool) :
    (addClock dst src).length = max dst.length src.length := by
  rw [addClock, List.length_map, List.length_zipIdx]
  split_ifs with h
  · rw [length_resize _ _ _ (Nat.le_of_lt h)]
    omega
  · omega

theorem getD_addClock (dst src : List Bool) (i : Nat) :
    (addClock dst src).getD i false = (dst.getD i false || src.getD i false) := by
  have hresize : (if dst.length < src.length then resize dst src.length false else dst).getD i
      false = dst.getD i false := by
    split_ifs with h
    · exact getD_resize _ _ _ _ (Nat.le_of_lt h)
    · rfl
  rcases Nat.lt_or_ge i (addClock dst src).length with hi | hi
  · rw [List.getD_eq_getElem _ _ hi]
    unfold addClock at hi ⊢
    rw [List.length_map, List.length_zipIdx] at hi
    rw [List.getElem_map, List.getElem_zipIdx, ← hresize, List.getD_eq_getElem _ _ hi,
      Nat.zero_add]
  · rw [List.getD_eq_default _ _ hi]
    rw [length_addClock] at hi
    rw [List.getD_eq_default _ _ (by omega), List.getD_eq_default _ _ (by omega)]
    rfl

variable {CS CS' : ClockSystem} {x y p q i : Nat}

theorem clock_addTo (hx : x < CS.clocks.length) :
    (CS.addTo x p).clock y =
      if y = x then addClock (CS.clock x) (CS.clock p) else CS.clock y := by
  exact getD_set _ _ hx

@[simp] theorem changed_addTo : (CS.addTo x p).changed y = CS.changed y := rfl

@[simp] theorem updated_addTo : (CS.addTo x p).updated y = CS.updated y := rfl

theorem bit_addTo (hx : x < CS.clocks.length) :
    (CS.addTo x p).bit y i = if y = x then CS.bit x i || CS.bit p i else CS.bit y i := by
  unfold bit
  rw [clock_addTo hx]
  split_ifs
  · exact getD_addClock _ _ _
  · rfl

theorem updated_setUpdated {t : Nat} (hx : x < CS.updateTs.length) :
    (CS.setUpdated x t).updated y = if y = x then t else CS.updated y := by
  exact getD_set _ _ hx

theorem changed_link (hx : x < CS.changeTs.length) :
    (CS.link x p).changed y = if y = x then CS.time + 1 else CS.changed y := by
  exact getD_set _ _ hx

theorem lt_length_of_bit (h : CS.bit x i = true) : i < (CS.clock x).length := by
  by_contra hge
  rw [bit, List.getD_eq_default _ _ (Nat.le_of_not_lt hge)] at h
  cases h

end ClockSystem

end ViEqui.Clocks
