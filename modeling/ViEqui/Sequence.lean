import ViEqui.Container
import ViEqui.Lib.Exchange

/-!
# Sequences of event identifiers

`ViewEqTraceBuilder::Sequence`: view adjustment, the search for conflicts and
the consistent merge.  A sequence is the vector of its identifiers; the
`container` pointer is the argument `c`.

The methods that update the sequence in place return the new sequence.  A
`while` loop takes its fuel as an argument and answers `none` when it runs
out.
-/

namespace ViEqui

open AssocMap Shift

/-- `Sequence::events`. -/
abbrev Sequence := List IID

/-- `<base, offset> → value`. -/
abbrev Memory := Map Object Value

namespace Sequence

/-! ## View adjustment -/

/-- `view_adjust(e1, e2)`: shift the events of the thread of `e1`, from `e1`
on, behind `e2`.  `none` stands for `false`, with the sequence unchanged. -/
def viewAdjust (c : Container) (s : Sequence) (e1 e2 : IID) :
    Option Sequence :=
  if c.ordered e1 e2 then none
  else
    let n1 := s.idxOf e1
    let n2 := s.idxOf e2
    shiftBehind c.rwPair (fun e => e.pid = e1.pid) n1 n2 (n2 - n1) 0 s

/-! ## Conflicts -/

/-- `conflicts_with`: the first two events, in lexicographic order of their
positions in `s`, that stand in `other` the other way round. -/
def conflictsWith : Sequence → Sequence → Option (IID × IID)
  | [], _ => none
  | a :: s, other =>
    let reversed (b : IID) : Bool :=
      a ∈ other && b ∈ other && other.idxOf b < other.idxOf a
    match s.find? reversed with
    | some b => some (a, b)
    | none => conflictsWith s other

/-! ## The merge -/

/-- The inner loop of `join_prefix`, over the primary events, for the event
`eo` of the other sequence with `later` behind it.  `pending` are the primary
events from `primary_next` on that the loop has passed over.  The answer is
the merged sequence and what is left of primary, or `none` for an abort. -/
def pullPrimary (c : Container) (eo : IID) (later : Sequence) :
    Sequence → Sequence → Sequence → Option (Sequence × Sequence)
  | pending, [], merged => some (merged, pending)
  | pending, p :: rest, merged =>
    let evo := c.getEvent eo
    let evp := c.getEvent p
    if (evo.isWrite && evo.rwPair evp) || c.ordered p eo then
      -- `p` must come before `eo`
      if (eo :: later).any (fun o => (pending ++ [p]).any (c.ordered o)) then
        none
      else if pending.any (fun p2 => (c.getEvent p2).isWrite &&
          later.any (fun o2 => c.rwPair p2 o2)) then
        none
      else if evp.isRmw then
        -- the write of an rmw goes along with its read, if it is there
        match rest with
        | [] => some (merged ++ pending ++ [p], [])
        | w :: rest' =>
          pullPrimary c eo later [] rest' (merged ++ pending ++ [p, w])
      else pullPrimary c eo later [] rest (merged ++ pending ++ [p])
    else pullPrimary c eo later (pending ++ [p]) rest merged

/-- The step of `join_prefix` that puts an rmw read along with its write.
`prev` is the event before the write in the other sequence; the source reads
past the vector when there is none, or when it is not merged yet. -/
def bringRmwRead (c : Container) (prev : Option IID) (merged : Sequence) :
    Option Sequence :=
  match prev with
  | none => some merged
  | some r =>
    let behind := (merged.dropWhile (· ≠ r)).tail
    if r ∉ merged ∨ behind = [] then some merged
    else
      let rit := c.getEvent r
      let racing := behind.filter (fun e => rit.rwPair (c.getEvent e))
      match racing.getLast? with
      | some w =>
        if (c.getEvent w).value ≠ rit.value then none
        else some (merged.erase r ++ [r])
      | none => some (merged.erase r ++ [r])

/-- The outer loop of `join_prefix`, over the other sequence.  `primary` are
the events from `primary_next` on. -/
def joinLoop (c : Container) :
    Option IID → Sequence → Sequence → Sequence → Sequence
  | _, primary, [], merged => merged ++ primary
  | prev, primary, eo :: later, merged =>
    match pullPrimary c eo later [] primary merged with
    | none => []
    | some (merged, primary) =>
      let evo := c.getEvent eo
      if evo.isWrite && evo.isRmw then
        match bringRmwRead c prev merged with
        | none => []
        | some merged => joinLoop c (some eo) primary later (merged ++ [eo])
      else joinLoop c (some eo) primary later (merged ++ [eo])

/-- `join_prefix`: append a merge of two segments without common events.  The
empty sequence stands for an abort.  `prev` is the event before the segment
of the other sequence. -/
def joinPrefix (c : Container) (merged primary : Sequence)
    (prev : Option IID) (other : Sequence) : Sequence :=
  if primary = [] then merged ++ other
  else if other = [] then merged ++ primary
  else joinLoop c prev primary other merged

/-- The loop of `join`, over the primary sequence.  `seg` are the primary
events since the last common event, `rest` what is left of the other
sequence behind it. -/
def joinCommon (c : Container) (other : Sequence) :
    Sequence → Sequence → Option IID → Sequence → Sequence → Sequence
  | [], seg, prev, rest, merged => joinPrefix c merged seg prev rest
  | p :: primary, seg, prev, rest, merged =>
    if p ∉ other then joinCommon c other primary (seg ++ [p]) prev rest merged
    else
      let oseg := rest.takeWhile (· ≠ p)
      let rest' := (rest.dropWhile (· ≠ p)).tail
      if seg = [] ∧ oseg = [] then
        joinCommon c other primary [] (some p) rest' (merged ++ [p])
      else
        let merged' := joinPrefix c merged seg prev oseg
        if merged' = [] then []
        else joinCommon c other primary [] (some p) rest' (merged' ++ [p])

/-- `join`. -/
def join (c : Container) (primary other : Sequence) : Sequence :=
  joinCommon c other primary [] none other []

/-- The loop of `get_causal_order`: the program order and reads-from edges,
in one list. -/
def causalLoop (c : Container) :
    Map Nat IID → Map Object IID → Sequence → List (IID × IID)
  | _, _, [] => []
  | previous, lastWrite, e :: s =>
    let ev := c.getEvent e
    let po := ((find? previous e.pid).map (·, e)).toList
    let rf := if ev.isRead then
        ((find? lastWrite ev.object).map (·, e)).toList else []
    let lastWrite' := if ev.isWrite then
        insert lastWrite ev.object e else lastWrite
    po ++ rf ++ causalLoop c (insert previous e.pid e) lastWrite' s

/-- `get_causal_order`. -/
def getCausalOrder (c : Container) (s : Sequence) : List (IID × IID) :=
  causalLoop c [] [] s

/-- `co_sanity`: the causal order of `s` is the union of those of `s1` and
`s2`. -/
def coSanity (c : Container) (s s1 s2 : Sequence) : Bool :=
  let co := getCausalOrder c s
  let co1 := getCausalOrder c s1
  let co2 := getCausalOrder c s2
  s ≠ [] && co1.all (· ∈ co) && co2.all (· ∈ co) &&
    co.all (fun e => e ∈ co1 || e ∈ co2)

/-- The `while` loop of `consistent_merge`.  The inner `none` stands for a
conflict that neither sequence can be adjusted for. -/
def resolveConflicts (c : Container) :
    Nat → Sequence → Sequence → Option (Option (Sequence × Sequence))
  | 0, _, _ => none
  | fuel + 1, primary, other =>
    match conflictsWith primary other with
    | none => some (some (primary, other))
    | some (e1, e2) =>
      match viewAdjust c primary e1 e2 with
      | some primary' => resolveConflicts c fuel primary' other
      | none =>
        match viewAdjust c other e2 e1 with
        | some other' => resolveConflicts c fuel primary other'
        | none => some none

/-- What `consistent_merge` returns, and what it leaves in its two
sequences. -/
structure Merge where
  result : Sequence
  primary : Sequence
  other : Sequence
deriving DecidableEq, Repr

/-- `consistent_merge`. -/
def consistentMerge (fuel : Nat) (c : Container) (primary other : Sequence) :
    Option Merge :=
  if primary = [] then some ⟨other, primary, other⟩
  else if other = [] then some ⟨primary, primary, other⟩
  else
    match resolveConflicts c fuel primary other with
    | none => none
    | some none => some ⟨[], primary, other⟩
    | some (some (primary', other')) =>
      let result := join c primary' other'
      if coSanity c result primary' other' then
        some ⟨result, primary', other'⟩
      else some ⟨[], primary', other'⟩

/-! ## Completion of an rmw -/

/-- Insert `e` right behind the first `r`. -/
def insertAfter {α : Type} (p : α → Bool) (e : α) : List α → List α
  | [] => []
  | a :: l => if p a then a :: e :: l else a :: insertAfter p e l

/-- `add_rmw_write`. -/
def addRmwWrite (s : Sequence) (rmwRead rmwWrite : IID) : Sequence :=
  insertAfter (· = rmwRead) rmwWrite s

end Sequence

end ViEqui
