import ViEqui.Builder

/-!
# Adding leads to a state

`forward_lead`, `prefix_analysis`, `remove_duplicate_leads` and
`consistent_union` of `ViewEqTraceBuilder`.

An unordered map from states to leads is enumerated in the order that the
environment gives.  `none` stands for a loop that ran out of fuel.
-/

namespace ViEqui

open AssocMap

namespace Builder

/-! ## Duplicates -/

/-- The test of `remove_duplicate_leads`: `l'` is taken for another instance
of `l`. -/
def duplicates (fuel : Nat) (l l' : Lead) : Option Bool :=
  if l.mergedSequence.same l'.mergedSequence then some true
  else l.vaEquivalent fuel l'

/-- The loop of `remove_duplicate_leads` over `it2`. -/
def dropDuplicatesOf (fuel : Nat) (l : Lead) : List Lead → Option (List Lead)
  | [] => some []
  | l' :: rest => do
    let dup ← duplicates fuel l l'
    let rest' ← dropDuplicatesOf fuel l rest
    return if dup then rest' else l' :: rest'

/-- The loop of `remove_duplicate_leads` over `it`, of `n` rounds. -/
def removeDuplicatesLoop (fuel : Nat) : Nat → List Lead → Option (List Lead)
  | 0, _ => some []
  | _, [] => some []
  | n + 1, l :: rest => do
    let rest ← dropDuplicatesOf fuel l rest
    let rest ← removeDuplicatesLoop fuel n rest
    return l :: rest

/-- `remove_duplicate_leads`. -/
def removeDuplicateLeads (fuel : Nat) (ls : List Lead) : Option (List Lead) :=
  removeDuplicatesLoop fuel ls.length ls

/-! ## Forwarding -/

/-- The state that follows the alpha of `state`. -/
def forwardState (b : Builder) (state : Nat) : Nat :=
  let last := ((b.stateAt state).alphaSequence.getLast?.getD default).iid
  match b.prefixStateAt (b.executionSequence.idxOf last) with
  | some i => i + 1
  | none => 0

/-- The lead that `forward_lead` queues for the state `fwd`. -/
def forwardedLead (fuel : Nat) (b : Builder) (state fwd : Nat) (lead : Lead) :
    Option Lead := do
  let f := lead.forbidden.disj (b.stateAt fwd).forbidden
  let fwdLead ← Lead.ofConstraint fuel b.toContainer
    (b.stateAt fwd).alphaSequence
    (lead.vaSuffix (b.stateAt state).alphaLead) f (b.stateAt fwd).mem
  return if lead.pendingAdditionOfRmwWrite then
      fwdLead.updatePendingRmwWrite b.toContainer lead.pendingRmwWrite
    else fwdLead

/-- The test of `forward_lead`: alpha of the state is a prefix of the
lead. -/
def forwards (b : Builder) (state : Nat) (lead : Lead) : Bool :=
  (b.stateAt state).alpha.isSome && (b.stateAt state).alphaLead.vaIsPrefix lead

/-- `forward_lead`.  The lead is consumed also when nothing is queued, for
the current state. -/
def forwardLead (fuel : Nat) (b : Builder) (state : Nat) (lead : Lead)
    (queue : Map Nat (List Lead)) : Option (Map Nat (List Lead) × Bool) :=
  if forwards b state lead then
    let fwd := b.forwardState state
    if fwd = b.currentState then some (queue, true)
    else do
      let fwdLead ← forwardedLead fuel b state fwd lead
      return (modify queue fwd [] (· ++ [fwdLead]), true)
  else some (queue, false)

/-- `forward_suffix_leads`: the queue and the leads that stay. -/
def forwardSuffixLeads (fuel : Nat) (b : Builder) (state : Nat) :
    Map Nat (List Lead) → List Lead →
      Option (Map Nat (List Lead) × List Lead)
  | queue, [] => some (queue, [])
  | queue, l :: ls => do
    let (queue, forwarded) ← b.forwardLead fuel state l queue
    let (queue, rest) ← forwardSuffixLeads fuel b state queue ls
    return (queue, if forwarded then rest else l :: rest)

/-! ## Weakly equivalent leads -/

/-- The inner loop of `prefix_analysis`, over the events before `e`.  The
formula is carried along: the source adds the pair it has just treated to
`f`, and not to the formula of the new lead. -/
def prefixPairs (fuel : Nat) (c : Container) (l1 : Lead)
    (l2Suffix : EventSequence) (mem : Memory) (e : Event) :
    SOPFormula → EventSequence → Option (SOPFormula × List Lead)
  | f, [] => some (f, [])
  | f, e2 :: rest => do
    let eread := if e.isRead then e else e2
    let ewrite := if e.isRead then e2 else e
    if !e.rwPair e2 || eread.value = ewrite.value ||
        f.checkEvaluation (eread.iid, ewrite.value) = .true then
      prefixPairs fuel c l1 l2Suffix mem e f rest
    else
      let start ← l1.mergedSequence.toIidSequence.backseq fuel c e2.iid e.iid
        l1.mergedSequence
      if start = [] then prefixPairs fuel c l1 l2Suffix mem e f rest
      else
        let constraint := l1.mergedSequence.eraseIid eread.iid ++ l2Suffix
        let lead ← Lead.ofConstraint fuel c constraint start f mem
        let (f, leads) ← prefixPairs fuel c l1 l2Suffix mem e
          (f.disjRV (eread.iid, eread.value)) rest
        return (f, lead :: leads)

/-- The outer loop of `prefix_analysis`; `before` are the events passed. -/
def prefixLoop (fuel : Nat) (c : Container) (l1 l2 : Lead)
    (l2Suffix : EventSequence) (mem : Memory) :
    SOPFormula → EventSequence → EventSequence → Option (List Lead)
  | _, _, [] => some []
  | f, before, e :: rest =>
    if l2.mergedSequence.has e.iid then
      prefixLoop fuel c l1 l2 l2Suffix mem f (before ++ [e]) rest
    else do
      let (f, leads) ← prefixPairs fuel c l1 l2Suffix mem e f before
      let more ← prefixLoop fuel c l1 l2 l2Suffix mem f (before ++ [e]) rest
      return leads ++ more

/-- `prefix_analysis`: the leads it adds. -/
def prefixAnalysis (fuel : Nat) (b : Builder) (state : Nat) (l1 l2 : Lead) :
    Option (List Lead) :=
  let l2Suffix := l2.mergedSequence.filter
    (fun e => !l1.mergedSequence.has e.iid)
  prefixLoop fuel b.toContainer l1 l2 l2Suffix (b.stateAt state).mem
    (l1.forbidden.conj l2.forbidden) [] l1.mergedSequence

/-! ## The union -/

/-- How `consistent_union` absorbs a new lead with a lead of the state. -/
inductive Absorption where
  /-- the lead at this index is replaced by a copy with this formula -/
  | replace (i : Nat) (f : SOPFormula)
  /-- nothing changes -/
  | keep
  /-- the lead at this index, and others behind it, are weakly equivalent -/
  | weak (i : Nat)
deriving DecidableEq, Repr

/-- `sl` may absorb as a prefix: it is not the sequence of alpha. -/
def notAlpha (s : State) (sl : Lead) : Bool :=
  !sl.mergedSequence.same s.alphaSequence

/-- The loop of `consistent_union` over the leads of the state, from index
`i` on, for the new lead `l`. -/
def absorb (fuel : Nat) (s : State) (l : Lead) :
    Nat → List Lead → Option (Option Absorption)
  | _, [] => some none
  | i, sl :: rest =>
    if l.same sl then some (some (.replace i (l.forbidden.disj sl.forbidden)))
    else do
      if ← sl.vaEquivalent fuel l then
        return some (if sl.isDone then .keep
          else .replace i (l.forbidden.disj sl.forbidden))
      else if notAlpha s sl && sl.vaIsPrefix l then
        return some (if sl.isDone then .keep
          else .replace i (l.forbidden.conj sl.forbidden))
      else if notAlpha s sl && sl.vaIsWeaklyEquivalent l then
        return some (.weak i)
      else absorb fuel s l (i + 1) rest

/-- `prefix_analysis` on the weakly equivalent leads of the state. -/
def weakLeads (fuel : Nat) (b : Builder) (state : Nat) (l : Lead) :
    List Lead → Option (List Lead)
  | [] => some []
  | sl :: rest =>
    if notAlpha (b.stateAt state) sl && sl.vaIsWeaklyEquivalent l then do
      let leads ← prefixAnalysis fuel b state sl l
      let more ← weakLeads fuel b state l rest
      return leads ++ more
    else weakLeads fuel b state l rest

/-- What the loop of `consistent_union` over the new leads collects. -/
structure UnionResult where
  /-- `rem`: indices to be removed from the leads of the state -/
  rem : List Nat := []
  /-- `add`: copies to be added -/
  add : List Lead := []
  /-- what is left of `L` -/
  fresh : List Lead := []
  /-- `L_`: leads of the prefix analysis -/
  derived : List Lead := []
  /-- `forward_state_leads` -/
  queue : Map Nat (List Lead) := []
deriving DecidableEq, Repr

/-- The body of the loop of `consistent_union` over the new leads. -/
def unionStep (fuel : Nat) (b : Builder) (state : Nat) (r : UnionResult)
    (l : Lead) : Option UnionResult := do
  let s := b.stateAt state
  if l.mergedSequence = [] then return r
  else
    match ← absorb fuel s l 0 s.leads with
    | some (.replace i f) =>
      return { r with
        rem := i :: r.rem
        add := r.add ++ [(s.leads.getD i default).withForbidden f] }
    | some .keep => return r
    | some (.weak i) =>
      let leads ← weakLeads fuel b state l (s.leads.drop i)
      return { r with derived := r.derived ++ leads }
    | none =>
      let (queue, forwarded) ← b.forwardLead fuel state l r.queue
      if forwarded then return { r with queue }
      else return { r with fresh := r.fresh ++ [l] }

/-- Erase the elements whose index is in `rem`. -/
def eraseIndices {α : Type} (rem : List Nat) : Nat → List α → List α
  | _, [] => []
  | i, a :: l =>
    if i ∈ rem then eraseIndices rem (i + 1) l
    else a :: eraseIndices rem (i + 1) l

/-- The leads of the state after the removals and the additions. -/
def UnionResult.leads (r : UnionResult) (leads : List Lead) : List Lead :=
  eraseIndices r.rem 0 leads ++ r.add ++ r.fresh

/-- `consistent_union(state, L)`; the first argument bounds the depth of the
recursion. -/
def consistentUnion (env : Env) :
    Nat → Builder → Nat → List Lead → Option Builder
  | 0, _, _, _ => none
  | depth + 1, b, state, ls => do
    let ls ← removeDuplicateLeads env.fuel ls
    let s := b.stateAt state
    if s.leads = [] then
      let (queue, rest) ← forwardSuffixLeads env.fuel b state [] ls
      let b ← (env.stateOrder (queue.map (·.1))).foldlM
        (fun b i => consistentUnion env depth b i (getD queue i [])) b
      return b.modifyState state (fun s => { s with leads := rest })
    else
      let r ← ls.foldlM (unionStep env.fuel b state) {}
      let b := b.modifyState state (fun s => { s with leads := r.leads s.leads })
      let b ← (env.stateOrder (r.queue.map (·.1))).foldlM
        (fun b i => consistentUnion env depth b i (getD r.queue i [])) b
      if r.derived = [] then return b
      else consistentUnion env depth b state r.derived

/-- `consistent_union(state, L)`. -/
def union (env : Env) (b : Builder) (state : Nat) (ls : List Lead) :
    Option Builder :=
  consistentUnion env env.fuel b state ls

end Builder

end ViEqui
