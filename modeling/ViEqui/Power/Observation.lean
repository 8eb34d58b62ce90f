import ViEqui.Power.Axioms

/-!
# The observation check

`observation` looks for a load that is fre;prop;hb*-before itself in the structure
with a new event.  `observation_find_inits` collects the loads that a new edge can
lead to.  From the stores behind each of them in fre a coloured search derives prop
on the fly.

A set of pointers to events is ordered by addresses in the source; here it is ordered
like the events.
-/

namespace ViEqui.Power

open Worklist

/-- Colours of the search from fre. -/
inductive ObsMark where
  | FRE
  | RFE
  | COM
  | HB
  | HB_SYNC
deriving DecidableEq, Repr

namespace TB

/-- The events from which hb is followed from `e`, as `observation_find_inits` does. -/
def initsHbFwd (tb : TB) (evt : IID) (rel : Relations) (EHB : ExtraHB) (e : IID) : List IID :=
  (tb.relOf evt rel e).hb.fwd.vec ++
    if e ∈ EHB.I then EHB.afterI.vec ++ EHB.afterC.vec
    else if e ∈ EHB.C then EHB.afterC.vec else []

/-- Steps for a plain search over the fetched events. -/
def sweepFuel (tb : TB) (succ : IID → List IID) (stack : List IID) : Nat :=
  stack.length + (tb.fetched.map fun e => (succ e).length).sum

/-- The smallest index of a fence; without one it is the end of the thread. -/
def firstFence (idxs : List Int) (fchCount : Int) : Int :=
  (idxs.map fun i => fenceIdx i fchCount).foldl min fchCount

/-- The events behind a fence that is behind an event of `com`. -/
def behindFences (tb : TB) (com : List IID) : List IID :=
  (List.range tb.threads.length).flatMap fun p =>
    let E := (com.filter fun e => e.pid = p).map tb.getEvt
    let fchCount : Int := (tb.thread p).fchCount
    let fncStore := firstFence (E.flatMap fun e => [e.lwsyncIdxAfter, e.syncIdxAfter] ++
      if e.hasStore then [e.eieioIdxAfter] else []) fchCount
    let fncLoad := firstFence (E.flatMap fun e => [e.syncIdxAfter] ++
      if e.hasLoad then [e.lwsyncIdxAfter] else []) fchCount
    (tb.ofThread p).filter fun e => (tb.getEvt e).hasLoad ∧ fncLoad ≤ pos e ∨
      (tb.getEvt e).hasStore ∧ fncStore ≤ pos e

/-- `observation_find_inits`. -/
def observationFindInits (tb : TB) (evt : IID) (rel : Relations) (EHB : ExtraHB) : VecSet IID :=
  let comFwd (e : IID) := (tb.relOf evt rel e).com.fwd.vec
  let com := sweep comFwd (tb.sweepFuel comFwd [evt]) [] [evt]
  let hbInits := VecSet.ofList (EHB.afterI.vec ++ EHB.afterC.vec ++ evt :: tb.behindFences com)
  let hbFwd := tb.initsHbFwd evt rel EHB
  .ofList ((sweep hbFwd (tb.sweepFuel hbFwd hbInits.vec) [] hbInits.vec.reverse).filter fun e =>
    (tb.getEvt e).hasLoad)

/-- `observation_get_fre`. -/
def observationGetFre (tb : TB) (R evt : IID) (rel : Relations) : VecSet IID :=
  let rf := (tb.relOf evt rel R).rf.bwd
  .ofList (((tb.getEvt R).baccesses.filter fun B => B.type = .load).flatMap fun B =>
    ((tb.mem B.addr).coherence.reverse.takeWhile fun w => w ∉ rf).filter fun w => w.pid ≠ R.pid)

/-- Continues via rfe. -/
def followRfe (tb : TB) (evt : IID) (rel : Relations) (e : IID) (s : State IID ObsMark) :
    State IID ObsMark :=
  (((tb.relOf evt rel e).rf.fwd.vec.filter fun x => x.pid ≠ e.pid) ++
    if e ∈ rel.rf.bwd ∧ e.pid ≠ evt.pid then [evt] else []).foldl
    (fun s x => s.visit x [.RFE]) s

/-- Continues via com*. -/
def followCom (tb : TB) (evt : IID) (rel : Relations) (e : IID) (s : State IID ObsMark) :
    State IID ObsMark :=
  ((tb.relOf evt rel e).com.fwd.vec ++ if e ∈ rel.com.bwd then [evt] else []).foldl
    (fun s x => if .COM ∈ s.colour x ∨ .RFE ∈ s.colour x then s else s.visit x [.COM]) s

/-- Continues via fences. -/
def followFences (tb : TB) (evt e : IID) (s : State IID ObsMark) : State IID ObsMark :=
  (tb.fencesFrom evt e).foldl (fun s (x, sync) =>
    if .HB ∈ s.colour x then s
    else if sync ∨ .FRE ∈ s.colour e ∨ .RFE ∈ s.colour e then s.visit x [.HB, .HB_SYNC]
    else s.visit x [.HB_SYNC]) s

/-- Continues via hb. -/
def followHb (tb : TB) (evt : IID) (rel : Relations) (EHB : ExtraHB) (e : IID)
    (s : State IID ObsMark) : State IID ObsMark :=
  (tb.initsHbFwd evt rel EHB e ++ if e ∈ rel.hb.bwd then [evt] else []).foldl (fun s x =>
    let passed := (s.colour e).filter fun m => m = .HB ∨ m = .HB_SYNC
    let sync := .HB ∉ s.colour x ++ passed ∧ e.pid = x.pid ∧ (tb.getEvt e).syncIdxAfter < x.idx
    s.visit x (passed ++ if sync then [.HB] else [])) s

/-- Follows the edges from `e`. -/
def observationStep (tb : TB) (evt : IID) (rel : Relations) (EHB : ExtraHB) (e : IID)
    (s : State IID ObsMark) : State IID ObsMark :=
  let s := if .FRE ∈ s.colour e then tb.followRfe evt rel e s else s
  let s := if .COM ∈ s.colour e then tb.followCom evt rel e s else s
  let s := if .FRE ∈ s.colour e ∨ .RFE ∈ s.colour e ∨ .COM ∈ s.colour e then
    tb.followFences evt e s else s
  if .HB ∈ s.colour e ∨ .HB_SYNC ∈ s.colour e then tb.followHb evt rel EHB e s else s

/-- The search for `R`; `false` when it is found. -/
def observationSearch (tb : TB) (evt : IID) (rel : Relations) (EHB : ExtraHB) (R : IID) :
    Nat → State IID ObsMark → Bool
  | 0, _ => true
  | fuel + 1, s =>
    match s.stack with
    | [] => true
    | e :: stack =>
      if e = R then false
      else tb.observationSearch evt rel EHB R fuel
        (tb.observationStep evt rel EHB e { s with stack })

/-- `observation`. -/
def observation (tb : TB) (evt : IID) (rel : Relations) (EHB : ExtraHB) : Bool :=
  (tb.observationFindInits evt rel EHB).vec.all fun R =>
    let fre := (tb.observationGetFre R evt rel).vec
    tb.observationSearch evt rel EHB R (fre.length + 5 * tb.fetched.length)
      ⟨fre.flatMap fun e => [(e, .FRE), (e, .COM)], fre.reverse⟩

end TB

end ViEqui.Power
