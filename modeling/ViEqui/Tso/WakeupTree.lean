import ViEqui.Lib.OrderedTree
import ViEqui.Tso.SymEv

/-!
# Insertion into a wakeup tree

The loop of `race_detect_optimal` in `src/TSOTraceBuilder.cpp`, with the trees
of `src/WakeupTrees.h`.  The source is compiled with its assertions off.

* `passChild`: what one child of a node means for the sequence `v`: the next
  child is tried (`next`), `v` ran out (`stop`), or the insertion goes on
  below the child with what is left of `v` (`recurse`).  `scanned_passChild`
  is its specification.
* `insertChildren` and `insertNode`: the insertion.
* `Descent`: a declarative trace of the loop, with the branches passed and
  the reason why it ends.
* `steps`: the number of steps of a thread.  `dropMissing`, which removes the
  rest of a longer branch from `v`, is off by `dropError`, and a descent is
  off by the sum of these (`Descent.steps`).
-/

namespace ViEqui.Tso

/-- `Branch`: `size` steps of a thread, the first of them with the alternative
`alt` and the effect `sym`. -/
structure Branch where
  pid : Nat
  alt : Nat := 0
  sym : Sym := []
  size : Nat := 1
deriving DecidableEq, Repr

namespace Branch

/-- The members that `operator==` compares. -/
def key (b : Branch) : Nat × Nat := (b.pid, b.alt)

/-- `operator==`. -/
def same (b c : Branch) : Bool := b.key = c.key

/-- `do_events_conflict` on two branches. -/
def conflicts (b c : Branch) : Bool := doEventsConflict b.pid b.sym c.pid c.sym

theorem same_iff {b c : Branch} : b.same c = true ↔ b.key = c.key := by
  simp [same]

theorem pid_eq_of_same {b c : Branch} (h : b.same c = true) : b.pid = c.pid :=
  (Prod.ext_iff.mp (same_iff.mp h)).1

theorem conflicts_comm (b c : Branch) : b.conflicts c = c.conflicts b :=
  doEventsConflict_comm _ _ _ _

theorem pid_ne_of_not_conflicts {b c : Branch} (h : b.conflicts c = false) :
    b.pid ≠ c.pid := by
  intro hpid
  rw [conflicts, hpid, doEventsConflict_self] at h
  cases h

/-- Branches that compare equal and have the same effect conflict with the
same branches. -/
theorem conflicts_congr {b c : Branch} (hsame : b.same c = true)
    (hsym : b.sym.same c.sym = true) (d : Branch) : b.conflicts d = c.conflicts d := by
  unfold conflicts
  rw [pid_eq_of_same hsame, doEventsConflict_congr hsym]

end Branch

/-! ## One child -/

/-- The loop that removes `missing` steps of `pid` from the entries behind the
matched one. -/
def dropMissing (pid : Nat) : List Branch → Nat → List Branch
  | [], _ => []
  | vr :: v, missing =>
    if missing = 0 then vr :: v
    else if vr.pid = pid then
      if missing < vr.size then { vr with size := missing } :: v
      else dropMissing pid v (missing - vr.size)
    else vr :: dropMissing pid v missing

/-- Remove the steps of `child` from its entry `ve` and the entries `after`
it. -/
def withoutChild (child ve : Branch) (after : List Branch) : List Branch :=
  if ve.size < child.size then
    dropMissing ve.pid after (child.size - ve.size)
  else if child.size < ve.size then
    { ve with size := ve.size - child.size, sym := [], alt := 0 } :: after
  else after

/-- What a child means for the insertion of a sequence. -/
inductive Step where
  | next
  | stop
  | recurse (v : List Branch)
deriving DecidableEq, Repr

/-- The loop over the entries of `v`, those `before` the current one first. -/
def scan (child : Branch) (before : List Branch) : List Branch → Step
  | [] => .recurse before
  | ve :: after =>
    if child.same ve then
      -- With observers the child can have another effect than its entry.
      if !child.sym.same ve.sym && before.any (fun pe => ve.conflicts pe) then .next
      else if before.isEmpty && after.isEmpty then .stop
      else .recurse (before ++ withoutChild child ve after)
    else if ve.conflicts child then .next
    else scan child (before ++ [ve]) after

def passChild (v : List Branch) (child : Branch) : Step := scan child [] v

/-- The outcomes of `passChild`. -/
inductive Scanned (child : Branch) : List Branch → Step → Prop where
  /-- An entry is the child, and the entries before it do not conflict with
  either. -/
  | matched {before after : List Branch} {ve : Branch} (hsame : child.same ve = true)
      (hbefore : ∀ pe ∈ before, pe.conflicts child = false ∧ pe.conflicts ve = false) :
      Scanned child (before ++ ve :: after) (.recurse (before ++ withoutChild child ve after))
  /-- No entry conflicts with the child. -/
  | independent {v : List Branch} (hv : ∀ pe ∈ v, pe.conflicts child = false) :
      Scanned child v (.recurse v)
  /-- The only entry is the child. -/
  | last {ve : Branch} (hsame : child.same ve = true) : Scanned child [ve] .stop
  /-- The first entry at least is another branch. -/
  | incompatible {ve : Branch} {after : List Branch} (hdiff : child.same ve = false) :
      Scanned child (ve :: after) .next

/-- A sequence is refused behind entries that are other branches. -/
theorem Scanned.next_of_before {child ve : Branch} {before after : List Branch}
    (hbefore : ∀ pe ∈ before, child.same pe = false)
    (hfirst : child.same ve = false ∨ before ≠ []) :
    Scanned child (before ++ ve :: after) .next := by
  cases before with
  | nil => exact .incompatible (hfirst.resolve_right (fun h => h rfl))
  | cons pe before => exact .incompatible (hbefore pe List.mem_cons_self)

theorem scanned_scan {child : Branch} (before : List Branch) {after : List Branch}
    (hbefore : ∀ pe ∈ before, child.same pe = false ∧ pe.conflicts child = false) :
    Scanned child (before ++ after) (scan child before after) := by
  induction after generalizing before with
  | nil =>
    rw [List.append_nil]
    exact .independent fun pe hpe => (hbefore pe hpe).2
  | cons ve after ih =>
    unfold scan
    split
    · next hsame =>
      split
      · next hconf =>
        refine .next_of_before (fun pe hpe => (hbefore pe hpe).1) (.inr ?_)
        rintro rfl
        simp at hconf
      · next hconf =>
        split
        · next hempty =>
          simp only [Bool.and_eq_true, List.isEmpty_iff] at hempty
          obtain ⟨rfl, rfl⟩ := hempty
          exact .last hsame
        · refine .matched hsame ?_
          intro pe hpe
          refine ⟨(hbefore pe hpe).2, ?_⟩
          by_cases hsym : child.sym.same ve.sym = true
          · rw [Branch.conflicts_comm, ← Branch.conflicts_congr hsame hsym,
              Branch.conflicts_comm]
            exact (hbefore pe hpe).2
          · rw [Branch.conflicts_comm]
            simp only [Bool.and_eq_true, Bool.not_eq_true', List.any_eq_true, not_and,
              not_exists] at hconf
            exact Bool.eq_false_iff.mpr (hconf (by simpa using hsym) pe hpe)
    · next hsame =>
      rw [Bool.not_eq_true] at hsame
      split
      · exact .next_of_before (fun pe hpe => (hbefore pe hpe).1) (.inl hsame)
      · next hconf =>
        rw [Bool.not_eq_true] at hconf
        have hbefore' : ∀ pe ∈ before ++ [ve],
            child.same pe = false ∧ pe.conflicts child = false := by
          intro pe hpe
          rcases List.mem_append.mp hpe with hpe | hpe
          · exact hbefore pe hpe
          · obtain rfl := List.mem_singleton.mp hpe
            exact ⟨hsame, hconf⟩
        have hrest := ih (before ++ [ve]) hbefore'
        rw [List.append_assoc] at hrest
        exact hrest

theorem scanned_passChild (v : List Branch) (child : Branch) :
    Scanned child v (passChild v child) :=
  scanned_scan [] fun _ hpe => absurd hpe List.not_mem_nil

/-- `b` can be executed first among the entries of `v`: no entry before the
one of `b` conflicts with it, or none at all when `v` has no such entry. -/
def WeakInitial (b : Branch) (v : List Branch) : Prop :=
  (∃ before ve after, v = before ++ ve :: after ∧ b.same ve = true ∧
    ∀ pe ∈ before, pe.conflicts b = false ∧ pe.conflicts ve = false) ∨
  ∀ pe ∈ v, pe.conflicts b = false

theorem weakInitial_of_recurse {v v' : List Branch} {child : Branch}
    (h : passChild v child = .recurse v') : WeakInitial child v := by
  have hscan := scanned_passChild v child
  rw [h] at hscan
  cases hscan with
  | matched hsame hbefore => exact .inl ⟨_, _, _, rfl, hsame, hbefore⟩
  | independent hv => exact .inr hv

/-! ## The tree -/

abbrev WakeupTree := OrderedTree Branch

/-- A branch as it is put into the tree: without data, and with observers
without the marks of observed stores. -/
def prepare (conf : DporAlgorithm) (b : Branch) : Branch :=
  let sym := if conf = .observers then b.sym.clearObserved else b.sym
  { b with sym := sym.map SymEv.purgeData }

/-- The loop over the children of a node that has children.  A sequence that
is compatible with none is put behind them. -/
def insertChildren (conf : DporAlgorithm) : WakeupTree → List Branch → WakeupTree
  | .nil, v => .path (v.map (prepare conf))
  | .cons b node siblings, v =>
    match passChild v b with
    | .next => .cons b node (insertChildren conf siblings v)
    | .stop => .cons b node siblings
    | .recurse v' =>
      .cons b (if node.isLeaf then node else insertChildren conf node v') siblings

/-- The loop from a node: a leaf is left alone. -/
def insertNode (conf : DporAlgorithm) (node : WakeupTree) (v : List Branch) : WakeupTree :=
  if node.isLeaf then node else insertChildren conf node v

/-! ## The descent -/

/-- The first child that does not refuse `v`. -/
def choose (v : List Branch) : WakeupTree → Option (Branch × WakeupTree × Step)
  | .nil => none
  | .cons b node siblings =>
    match passChild v b with
    | .next => choose v siblings
    | .stop => some (b, node, .stop)
    | .recurse v' => some (b, node, .recurse v')

/-- Why the loop ends. -/
inductive Stop where
  | leaf
  | ranOut (rest : List Branch)
  | fresh (rest : List Branch)

/-- A declarative trace of the loop: from a node and a sequence, the branches
passed and the end. -/
inductive Descent : WakeupTree → List Branch → List Branch → Stop → Prop where
  | leaf {v : List Branch} : Descent .nil v [] .leaf
  | ranOut {t node : WakeupTree} {v : List Branch} {b : Branch}
      (hchoose : choose v t = some (b, node, .stop)) : Descent t v [] (.ranOut v)
  | fresh {t : WakeupTree} {v : List Branch} (hne : t ≠ .nil) (hchoose : choose v t = none) :
      Descent t v [] (.fresh v)
  | pass {t node : WakeupTree} {v v' passed : List Branch} {b : Branch} {stop : Stop}
      (hchoose : choose v t = some (b, node, .recurse v'))
      (hrest : Descent node v' passed stop) : Descent t v (b :: passed) stop

/-- The chosen child splits the children. -/
theorem choose_spec {v : List Branch} {t node : WakeupTree} {b : Branch} {step : Step}
    (h : choose v t = some (b, node, step)) :
    passChild v b = step ∧ ∃ front siblings : WakeupTree,
      t = front.append (.cons b node siblings) ∧
      ∀ conf, insertChildren conf t v =
        front.append (insertChildren conf (.cons b node siblings) v) := by
  induction t with
  | nil => cases h
  | cons c child siblings _ ih =>
    unfold choose at h
    split at h
    · next hnext =>
      obtain ⟨hstep, front, rest, rfl, hinsert⟩ := ih h
      refine ⟨hstep, .cons c child front, rest, rfl, ?_⟩
      intro conf
      rw [insertChildren, hnext]
      exact congrArg (OrderedTree.cons c child) (hinsert conf)
    · next hstop =>
      cases h
      exact ⟨hstop, .nil, siblings, rfl, fun _ => rfl⟩
    · next hrec =>
      cases h
      exact ⟨hrec, .nil, siblings, rfl, fun _ => rfl⟩

/-- When all children refuse `v` it is put behind them. -/
theorem insertChildren_of_choose_none (conf : DporAlgorithm) {v : List Branch}
    {t : WakeupTree} (h : choose v t = none) :
    (∀ b ∈ t.labels, passChild v b = .next) ∧
      insertChildren conf t v = t.append (.path (v.map (prepare conf))) := by
  induction t with
  | nil => exact ⟨fun b hb => absurd hb List.not_mem_nil, rfl⟩
  | cons c child siblings _ ih =>
    unfold choose at h
    split at h
    · next hnext =>
      obtain ⟨hall, hinsert⟩ := ih h
      constructor
      · intro b hb
        rcases List.mem_cons.mp hb with rfl | hb
        · exact hnext
        · exact hall b hb
      · rw [insertChildren, hnext]
        exact congrArg (OrderedTree.cons c child) hinsert
    · cases h
    · cases h

/-- The loop ends, and in one way only. -/
theorem Descent.exists (t : WakeupTree) (v : List Branch) :
    ∃ passed stop, Descent t v passed stop := by
  suffices hall : (∀ v, ∃ passed stop, Descent t v passed stop) ∧
      ∀ v b node step, choose v t = some (b, node, step) →
        ∀ v', ∃ passed stop, Descent node v' passed stop from hall.1 v
  induction t with
  | nil => exact ⟨fun v => ⟨_, _, .leaf⟩, fun v b node step h => by cases h⟩
  | cons c child siblings ihChild ihSiblings =>
    have hsub : ∀ v b node step, choose v (.cons c child siblings) = some (b, node, step) →
        ∀ v', ∃ passed stop, Descent node v' passed stop := by
      intro v b node step h
      unfold choose at h
      split at h
      · exact ihSiblings.2 v b node step h
      · cases h
        exact ihChild.1
      · cases h
        exact ihChild.1
    refine ⟨?_, hsub⟩
    intro v
    cases hchoose : choose v (.cons c child siblings) with
    | none => exact ⟨_, _, .fresh (by simp) hchoose⟩
    | some r =>
      obtain ⟨b, node, step⟩ := r
      cases step with
      | next =>
        -- `choose` passes over the children that refuse `v`.
        exfalso
        have hnot : ∀ t : WakeupTree, choose v t ≠ some (b, node, .next) := by
          intro t
          induction t with
          | nil => simp [choose]
          | cons d n s _ ih =>
            unfold choose
            split
            · exact ih
            · simp
            · simp
        exact hnot _ hchoose
      | stop => exact ⟨_, _, .ranOut hchoose⟩
      | recurse v' =>
        obtain ⟨passed, stop, hrest⟩ := hsub v b node _ hchoose v'
        exact ⟨_, _, .pass hchoose hrest⟩

theorem Descent.unique {t : WakeupTree} {v passed passed' : List Branch}
    {stop stop' : Stop} (h : Descent t v passed stop) (h' : Descent t v passed' stop') :
    passed = passed' ∧ stop = stop' := by
  induction h generalizing passed' with
  | leaf =>
    cases h' with
    | leaf => exact ⟨rfl, rfl⟩
    | ranOut hchoose' => cases hchoose'
    | fresh hne _ => exact absurd rfl hne
    | pass hchoose' _ => cases hchoose'
  | ranOut hchoose =>
    cases h' with
    | leaf => cases hchoose
    | ranOut hchoose' =>
      cases hchoose.symm.trans hchoose'
      exact ⟨rfl, rfl⟩
    | fresh _ hchoose' => cases hchoose.symm.trans hchoose'
    | pass hchoose' _ => cases hchoose.symm.trans hchoose'
  | fresh hne hchoose =>
    cases h' with
    | leaf => exact absurd rfl hne
    | ranOut hchoose' => cases hchoose.symm.trans hchoose'
    | fresh _ _ => exact ⟨rfl, rfl⟩
    | pass hchoose' _ => cases hchoose.symm.trans hchoose'
  | pass hchoose _ ih =>
    cases h' with
    | leaf => cases hchoose
    | ranOut hchoose' => cases hchoose.symm.trans hchoose'
    | fresh _ hchoose' => cases hchoose.symm.trans hchoose'
    | pass hchoose' hrest' =>
      cases hchoose.symm.trans hchoose'
      obtain ⟨rfl, rfl⟩ := ih hrest'
      exact ⟨rfl, rfl⟩

/-! ## What the insertion adds -/

theorem Descent.nil_of_fresh {t : WakeupTree} {v passed rest : List Branch}
    (h : Descent t v passed (.fresh rest)) : t ≠ .nil := by
  cases h with
  | fresh hne _ => exact hne
  | pass hchoose _ =>
    rintro rfl
    cases hchoose

theorem Scanned.first_of_next {child : Branch} {v : List Branch} {step : Step}
    (h : Scanned child v step) (hnext : step = .next) :
    ∃ ve after, v = ve :: after ∧ child.same ve = false := by
  cases h with
  | incompatible hdiff => exact ⟨_, _, rfl, hdiff⟩
  | _ => cases hnext

/-- At the node where `v` is put, its first branch is no child. -/
theorem first_of_choose_none {v : List Branch} {t : WakeupTree} (hne : t ≠ .nil)
    (h : choose v t = none) :
    ∃ ve after, v = ve :: after ∧ ∀ b ∈ t.labels, b.key ≠ ve.key := by
  have hall := (insertChildren_of_choose_none .source h).1
  have hfirst : ∀ b ∈ t.labels, ∃ ve after, v = ve :: after ∧ b.same ve = false :=
    fun b hb => (scanned_passChild v b).first_of_next (hall b hb)
  cases t with
  | nil => exact absurd rfl hne
  | cons b node siblings =>
    obtain ⟨ve, after, rfl, -⟩ := hfirst b List.mem_cons_self
    refine ⟨ve, after, rfl, ?_⟩
    intro c hc hkey
    obtain ⟨ve', after', heq, hdiff⟩ := hfirst c hc
    cases heq
    rw [Branch.same_iff.mpr hkey] at hdiff
    cases hdiff

/-- A descent that ends at a leaf or runs out changes nothing. -/
theorem Descent.insertNode_eq (conf : DporAlgorithm) {t : WakeupTree}
    {v passed : List Branch} {stop : Stop} (h : Descent t v passed stop)
    (hstop : ∀ rest, stop ≠ .fresh rest) : insertNode conf t v = t := by
  induction h with
  | leaf => rfl
  | @ranOut t node v b hchoose =>
    obtain ⟨hstep, front, siblings, rfl, hinsert⟩ := choose_spec hchoose
    unfold insertNode
    split
    · rfl
    · rw [hinsert, insertChildren, hstep]
  | fresh hne hchoose => exact absurd rfl (hstop _)
  | @pass t node v v' passed b stop hchoose hrest ih =>
    obtain ⟨hstep, front, siblings, rfl, hinsert⟩ := choose_spec hchoose
    unfold insertNode
    split
    · rfl
    · rw [hinsert, insertChildren, hstep]
      show front.append (.cons b (insertNode conf node v') siblings) = _
      rw [ih hstop]

/-- A descent that finds no compatible child adds the branches passed and the
rest of `v` as one run, and keeps the children of every node distinct. -/
theorem Descent.adds (conf : DporAlgorithm) {t : WakeupTree}
    {v passed rest : List Branch} (h : Descent t v passed (.fresh rest)) :
    t.Adds (passed ++ rest.map (prepare conf)) (insertNode conf t v) ∧
      (t.Distinct Branch.key → (insertNode conf t v).Distinct Branch.key) := by
  generalize hstop : Stop.fresh rest = stop at h
  induction h with
  | leaf => cases hstop
  | ranOut _ => cases hstop
  | @fresh t v hne hchoose =>
    cases hstop
    obtain ⟨-, hinsert⟩ := insertChildren_of_choose_none conf hchoose
    obtain ⟨ve, after, rfl, hfirst⟩ := first_of_choose_none hne hchoose
    have hnode : insertNode conf t (ve :: after) =
        t.append (.path ((ve :: after).map (prepare conf))) := by
      unfold insertNode
      rw [if_neg (fun hleaf => hne (OrderedTree.isLeaf_iff.mp hleaf)), hinsert]
    rw [hnode]
    constructor
    · exact OrderedTree.adds_append_path t (List.cons_ne_nil _ _)
    · intro hdist
      refine OrderedTree.distinct_append.mpr ⟨hdist, OrderedTree.distinct_path _ _, ?_⟩
      intro b hb c hc
      obtain rfl := List.mem_singleton.mp hc
      exact hfirst b hb
  | @pass t node v v' passed b stop hchoose hrest ih =>
    obtain ⟨hadds, hdist⟩ := ih hstop
    have hne : node ≠ .nil := by
      subst hstop
      exact hrest.nil_of_fresh
    obtain ⟨hstep, front, siblings, rfl, hinsert⟩ := choose_spec hchoose
    have hleaf : (front.append (.cons b node siblings)).isLeaf = false := by
      cases front <;> rfl
    have hnode : insertNode conf (front.append (.cons b node siblings)) v =
        front.append (.cons b (insertNode conf node v') siblings) := by
      unfold insertNode
      rw [hleaf, if_neg Bool.false_ne_true, hinsert, insertChildren, hstep]
    rw [hnode]
    constructor
    · exact hadds.below hne front b siblings
    · intro h
      obtain ⟨hchild, hset⟩ := h.below
      exact hset _ (hdist hchild)

/-! ## Numbers of steps -/

/-- The number of steps of `pid` in a sequence. -/
def steps (pid : Nat) : List Branch → Nat
  | [] => 0
  | b :: v => (if b.pid = pid then b.size else 0) + steps pid v

@[simp] theorem steps_nil (pid : Nat) : steps pid [] = 0 := rfl

theorem steps_cons (pid : Nat) (b : Branch) (v : List Branch) :
    steps pid (b :: v) = (if b.pid = pid then b.size else 0) + steps pid v := rfl

@[simp] theorem steps_append (pid : Nat) (v w : List Branch) :
    steps pid (v ++ w) = steps pid v + steps pid w := by
  induction v with
  | nil => simp
  | cons b v ih =>
    rw [List.cons_append, steps_cons, steps_cons, ih]
    omega

theorem steps_eq_zero {pid : Nat} {v : List Branch} (h : ∀ b ∈ v, b.pid ≠ pid) :
    steps pid v = 0 := by
  induction v with
  | nil => rfl
  | cons b v ih =>
    rw [steps_cons, if_neg (h b List.mem_cons_self),
      ih fun c hc => h c (List.mem_cons_of_mem _ hc)]

/-- How many steps of `pid` `dropMissing` leaves too many.  An entry that is
cut keeps `missing` steps in place of its size less `missing`.  At the end of
`v` some steps may not be found. -/
def dropError (pid : Nat) : List Branch → Nat → Int
  | [], missing => missing
  | vr :: v, missing =>
    if missing = 0 then 0
    else if vr.pid = pid then
      if missing < vr.size then 2 * missing - vr.size
      else dropError pid v (missing - vr.size)
    else dropError pid v missing

theorem steps_dropMissing (pid : Nat) (v : List Branch) (missing : Nat) :
    (steps pid (dropMissing pid v missing) + missing : Int) =
      steps pid v + dropError pid v missing := by
  induction v generalizing missing with
  | nil => simp [dropMissing, dropError]
  | cons vr v ih =>
    unfold dropMissing dropError
    by_cases hzero : missing = 0
    · simp [hzero]
    · rw [if_neg hzero, if_neg hzero]
      by_cases hpid : vr.pid = pid
      · rw [if_pos hpid, if_pos hpid, steps_cons, if_pos hpid]
        by_cases hcut : missing < vr.size
        · rw [if_pos hcut, if_pos hcut, steps_cons, if_pos hpid]
          push_cast
          omega
        · rw [if_neg hcut, if_neg hcut]
          have hrest := ih (missing - vr.size)
          push_cast at hrest ⊢
          omega
      · rw [if_neg hpid, if_neg hpid, steps_cons, steps_cons, if_neg hpid]
        have hrest := ih missing
        push_cast at hrest ⊢
        omega

theorem steps_dropMissing_of_ne {pid other : Nat} (hne : other ≠ pid) (v : List Branch)
    (missing : Nat) : steps other (dropMissing pid v missing) = steps other v := by
  induction v generalizing missing with
  | nil => rfl
  | cons vr v ih =>
    unfold dropMissing
    split
    · rfl
    · split
      · next hpid =>
        have hvr : vr.pid ≠ other := fun h => hne (h.symm.trans hpid)
        split
        · rw [steps_cons, steps_cons, if_neg hvr, if_neg hvr]
        · rw [ih, steps_cons, if_neg hvr, Nat.zero_add]
      · rw [steps_cons, steps_cons, ih]

/-- How many steps of the thread of `child` are left too many when it is
passed.  A child without an entry in `v` is not taken from it at all. -/
def passError (child : Branch) : List Branch → Int
  | [] => child.size
  | ve :: after =>
    if child.same ve then
      if ve.size < child.size then dropError ve.pid after (child.size - ve.size) else 0
    else passError child after

theorem steps_withoutChild {child ve : Branch} (hsame : child.same ve = true)
    (after : List Branch) :
    (steps child.pid (withoutChild child ve after) + child.size : Int) =
      steps child.pid (ve :: after) +
        if ve.size < child.size then dropError ve.pid after (child.size - ve.size) else 0 := by
  have hpid := Branch.pid_eq_of_same hsame
  unfold withoutChild
  rw [hpid, steps_cons, if_pos rfl]
  by_cases hlong : ve.size < child.size
  · rw [if_pos hlong, if_pos hlong]
    have hdrop := steps_dropMissing ve.pid after (child.size - ve.size)
    push_cast at hdrop ⊢
    omega
  · rw [if_neg hlong, if_neg hlong]
    by_cases hshort : child.size < ve.size
    · rw [if_pos hshort, steps_cons, if_pos rfl]
      push_cast
      omega
    · rw [if_neg hshort]
      push_cast
      omega

theorem steps_withoutChild_of_ne {child ve : Branch} (hsame : child.same ve = true)
    {pid : Nat} (hne : pid ≠ child.pid) (after : List Branch) :
    steps pid (withoutChild child ve after) = steps pid (ve :: after) := by
  have hve : ve.pid ≠ pid := fun h => hne (h.symm.trans (Branch.pid_eq_of_same hsame).symm)
  unfold withoutChild
  rw [steps_cons, if_neg hve, Nat.zero_add]
  split
  · exact steps_dropMissing_of_ne hve.symm _ _
  · split
    · rw [steps_cons, if_neg hve, Nat.zero_add]
    · rfl

theorem passError_append {child ve : Branch} {before after : List Branch}
    (hbefore : ∀ pe ∈ before, child.same pe = false) (hsame : child.same ve = true) :
    passError child (before ++ ve :: after) =
      if ve.size < child.size then dropError ve.pid after (child.size - ve.size) else 0 := by
  induction before with
  | nil => exact if_pos hsame
  | cons pe before ih =>
    rw [List.cons_append, passError, hbefore pe List.mem_cons_self, if_neg Bool.false_ne_true]
    exact ih fun pe' hpe' => hbefore pe' (List.mem_cons_of_mem _ hpe')

theorem passError_of_pid_ne {child : Branch} {v : List Branch}
    (h : ∀ pe ∈ v, pe.pid ≠ child.pid) : passError child v = child.size := by
  induction v with
  | nil => rfl
  | cons pe v ih =>
    have hdiff : child.same pe = false := by
      rw [← Bool.not_eq_true]
      exact fun hsame => h pe List.mem_cons_self (Branch.pid_eq_of_same hsame).symm
    rw [passError, hdiff, if_neg Bool.false_ne_true]
    exact ih fun pe' hpe' => h pe' (List.mem_cons_of_mem _ hpe')

/-- Passing a child takes its steps from `v`, up to the error. -/
theorem steps_passChild {v v' : List Branch} {child : Branch}
    (h : passChild v child = .recurse v') (pid : Nat) :
    (steps pid v' + steps pid [child] : Int) =
      steps pid v + if child.pid = pid then passError child v else 0 := by
  have hscan := scanned_passChild v child
  rw [h] at hscan
  rw [steps_cons, steps_nil, Nat.add_zero]
  cases hscan with
  | @matched before after ve hsame hbefore =>
    have hpids : ∀ pe ∈ before, pe.pid ≠ child.pid := fun pe hpe =>
      Branch.pid_ne_of_not_conflicts (hbefore pe hpe).1
    rw [steps_append, steps_append]
    by_cases hpid : child.pid = pid
    · subst hpid
      rw [if_pos rfl, if_pos rfl, steps_eq_zero hpids, passError_append _ hsame]
      · have hrest := steps_withoutChild hsame after
        push_cast at hrest ⊢
        omega
      · intro pe hpe
        rw [← Bool.not_eq_true]
        exact fun hpe' => hpids pe hpe (Branch.pid_eq_of_same hpe').symm
    · rw [if_neg hpid, if_neg hpid, steps_withoutChild_of_ne hsame (Ne.symm hpid)]
      rfl
  | independent hv =>
    have hpids : ∀ pe ∈ v, pe.pid ≠ child.pid := fun pe hpe =>
      Branch.pid_ne_of_not_conflicts (hv pe hpe)
    by_cases hpid : child.pid = pid
    · subst hpid
      rw [if_pos rfl, if_pos rfl, steps_eq_zero hpids, passError_of_pid_ne hpids]
    · rw [if_neg hpid, if_neg hpid]
      rfl

/-- The errors of the branches passed. -/
def passedError (pid : Nat) : List Branch → List Branch → Int
  | _, [] => 0
  | v, b :: passed =>
    match passChild v b with
    | .recurse v' => (if b.pid = pid then passError b v else 0) + passedError pid v' passed
    | _ => 0

/-- The branches passed and the rest have the steps of `v`, up to the errors. -/
theorem Descent.steps {t : WakeupTree} {v passed rest : List Branch}
    (h : Descent t v passed (.fresh rest)) (pid : Nat) :
    (steps pid passed + steps pid rest : Int) = steps pid v + passedError pid v passed := by
  generalize hstop : Stop.fresh rest = stop at h
  induction h with
  | leaf => cases hstop
  | ranOut _ => cases hstop
  | fresh _ _ =>
    cases hstop
    simp [passedError]
  | @pass t node v v' passed b stop hchoose _ ih =>
    obtain ⟨hstep, -⟩ := choose_spec hchoose
    have hpass := steps_passChild hstep pid
    have hrest := ih hstop
    rw [steps_cons, steps_nil, Nat.add_zero] at hpass
    rw [passedError, hstep, steps_cons]
    push_cast at hpass ⊢
    show _ = _ + (_ + passedError pid v' passed)
    omega

end ViEqui.Tso
