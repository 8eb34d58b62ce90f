import ViEqui.Lib.AssocMap
import Mathlib.Data.List.Lex
import Mathlib.Data.List.Count
import Mathlib.Data.List.Induction
import Mathlib.Data.List.Perm.Basic
import Mathlib.Order.Defs.LinearOrder
import Mathlib.Data.Int.Order.Basic

/-!
# Names of threads

`CPid` and `CPidSystem` of `src/CPid.cpp`: a thread is named by its parent and by its
number among the children of the parent, and the system keeps the children in vectors that
it reaches through a map from the names to indices.

* `compare_eq_zero_iff` and `compare_trans`: `compare` is a total order.
* `names` is what a sequence of calls returns, from the number of earlier calls with the
  same argument alone, and `run_eq` says that the system returns it.
* `names_independent`: two sequences that agree on each argument create the same names.
-/

namespace ViEqui.Names

/-! ## Names -/

/-- `CPid`: `procSeq` is the sequence behind `<0`, and `auxIdx` is -1 for a real process. -/
structure CPid where
  procSeq : List Int
  auxIdx : Int
  auxIdx_ge : -1 ≤ auxIdx

namespace CPid

@[ext] theorem ext {c d : CPid} (hseq : c.procSeq = d.procSeq) (haux : c.auxIdx = d.auxIdx) :
    c = d := by
  cases c
  cases d
  subst hseq haux
  rfl

/-- The name `<0>`. -/
def root : CPid := ⟨[], -1, le_rfl⟩

/-- `is_auxiliary`. -/
def isAuxiliary (c : CPid) : Bool := 0 ≤ c.auxIdx

/-- `has_parent`. -/
def hasParent (c : CPid) : Bool := !c.procSeq.isEmpty || c.isAuxiliary

/-- `spawn`. -/
def spawn (c : CPid) (pn1 : Int) : Option CPid :=
  if c.isAuxiliary = false ∧ 0 ≤ pn1 then some { c with procSeq := c.procSeq ++ [pn1] } else none

/-- `aux`. -/
def aux (c : CPid) (i : Int) : Option CPid :=
  if h : c.isAuxiliary = false ∧ 0 ≤ i then some ⟨c.procSeq, i, by omega⟩ else none

/-- `parent`. -/
def parent (c : CPid) : Option CPid :=
  if c.hasParent then
    if c.isAuxiliary then some ⟨c.procSeq, -1, le_rfl⟩
    else some { c with procSeq := c.procSeq.dropLast }
  else none

/-- The loop of `compare`; `aux` is the result for equal sequences. -/
def compareSeq (aux : Int) : List Int → List Int → Int
  | x :: xs, y :: ys => if x < y then -1 else if y < x then 1 else compareSeq aux xs ys
  | [], _ :: _ => -1
  | _ :: _, [] => 1
  | [], [] => aux

/-- `compare`. -/
def compare (c d : CPid) : Int :=
  compareSeq
    (if c.auxIdx = d.auxIdx ∨ (c.isAuxiliary = false ∧ d.isAuxiliary = false) then 0
      else if c.auxIdx < d.auxIdx then -1 else 1)
    c.procSeq d.procSeq

/-! ## The order -/

theorem compareSeq_eq (aux : Int) (xs ys : List Int) :
    compareSeq aux xs ys = if xs < ys then -1 else if xs = ys then aux else 1 := by
  induction xs generalizing ys with
  | nil =>
    cases ys with
    | nil => rfl
    | cons y ys => rw [compareSeq, if_pos (List.nil_lt_cons y ys)]
  | cons x xs ih =>
    cases ys with
    | nil =>
      rw [compareSeq, if_neg (List.not_lt_nil _), if_neg (List.cons_ne_nil x xs)]
    | cons y ys =>
      rw [compareSeq, ih]
      rcases lt_trichotomy x y with hlt | rfl | hgt
      · rw [if_pos hlt, if_pos (List.cons_lt_cons_iff.mpr (Or.inl hlt))]
      · simp
      · rw [if_neg hgt.not_gt, if_pos hgt, if_neg, if_neg]
        · rintro heq
          exact hgt.ne' (List.cons.inj heq).1
        · intro h
          rcases List.cons_lt_cons_iff.mp h with h | h
          · exact hgt.not_gt h
          · exact hgt.ne' h.1

variable {c d e : CPid}

/-- Two names that are not auxiliary have the same index. -/
theorem auxIdx_eq_or (c d : CPid) :
    (c.auxIdx = d.auxIdx ∨ (c.isAuxiliary = false ∧ d.isAuxiliary = false)) ↔
      c.auxIdx = d.auxIdx := by
  have hc := c.auxIdx_ge
  have hd := d.auxIdx_ge
  simp only [isAuxiliary, decide_eq_false_iff_not]
  omega

theorem auxIdx_eq (h : c.isAuxiliary = false) : c.auxIdx = -1 := by
  have := c.auxIdx_ge
  simp only [isAuxiliary, decide_eq_false_iff_not] at h
  omega

theorem compare_eq (c d : CPid) :
    compare c d =
      if c.procSeq < d.procSeq ∨ c.procSeq = d.procSeq ∧ c.auxIdx < d.auxIdx then -1
      else if c.procSeq = d.procSeq ∧ c.auxIdx = d.auxIdx then 0 else 1 := by
  unfold compare
  rw [compareSeq_eq]
  simp only [auxIdx_eq_or]
  by_cases hlt : c.procSeq < d.procSeq
  · rw [if_pos hlt, if_pos (Or.inl hlt)]
  · by_cases heq : c.procSeq = d.procSeq
    · rw [if_neg hlt, if_pos heq]
      simp only [heq, lt_irrefl, false_or, true_and]
      split_ifs with h₁ h₂ h₂
      · omega
      · rfl
      · rfl
      · rfl
    · simp [hlt, heq]

theorem compare_eq_zero_iff : compare c d = 0 ↔ c = d := by
  rw [compare_eq]
  split_ifs with hlt heq
  · constructor
    · intro h
      exact absurd h (by decide)
    · rintro rfl
      rcases hlt with h | h
      · exact absurd h (lt_irrefl _)
      · exact absurd h.2 (lt_irrefl _)
  · exact ⟨fun _ => ext heq.1 heq.2, fun _ => rfl⟩
  · constructor
    · intro h
      exact absurd h (by decide)
    · rintro rfl
      exact absurd ⟨rfl, rfl⟩ heq

/-- Names are compared with `operator==`. -/
instance : DecidableEq CPid := fun _ _ => decidable_of_iff _ compare_eq_zero_iff

theorem compare_neg_iff :
    compare c d < 0 ↔ c.procSeq < d.procSeq ∨ c.procSeq = d.procSeq ∧ c.auxIdx < d.auxIdx := by
  rw [compare_eq]
  split_ifs with hlt heq
  · exact iff_of_true (by omega) hlt
  · exact iff_of_false (by omega) hlt
  · exact iff_of_false (by omega) hlt

theorem compare_swap (c d : CPid) : compare d c = -compare c d := by
  rw [compare_eq, compare_eq]
  rcases lt_trichotomy c.procSeq d.procSeq with hseq | hseq | hseq
  · simp [hseq, hseq.not_gt, hseq.ne']
  · rcases lt_trichotomy c.auxIdx d.auxIdx with haux | haux | haux
    · simp [hseq, haux, haux.not_gt, haux.ne']
    · simp [hseq, haux]
    · simp [hseq, haux, haux.not_gt, haux.ne']
  · simp [hseq, hseq.not_gt, hseq.ne']

theorem compare_trans (hcd : compare c d < 0) (hde : compare d e < 0) : compare c e < 0 := by
  rw [compare_neg_iff] at *
  rcases hcd with hcd | ⟨hcd, hcd'⟩
  · rcases hde with hde | ⟨hde, _⟩
    · exact Or.inl (hcd.trans hde)
    · exact Or.inl (hde ▸ hcd)
  · rw [hcd]
    rcases hde with hde | ⟨hde, hde'⟩
    · exact Or.inl hde
    · exact Or.inr ⟨hde, hcd'.trans hde'⟩

end CPid

/-! ## The system -/

open AssocMap in
/-- `CPidSystem`. -/
structure CPidSystem where
  realChildren : List (List Nat)
  auxChildren : List (List Nat)
  parent : List Int
  cpids : List CPid
  identifiers : Map CPid Nat

namespace CPidSystem

/-- The constructor. -/
def init : CPidSystem where
  realChildren := [[]]
  auxChildren := [[]]
  parent := [-1]
  cpids := [CPid.root]
  identifiers := AssocMap.insert [] CPid.root 0

/-- `identifiers[c]`, which makes an entry for a name that has none. -/
def identifier (S : CPidSystem) (c : CPid) : CPidSystem × Nat :=
  ({ S with identifiers := AssocMap.modify S.identifiers c 0 id },
    AssocMap.getD S.identifiers c 0)

/-- A new name, with the vectors of the children up to date. -/
def add (S : CPidSystem) (cId : Nat) (c2 : CPid) (realChildren auxChildren : List (List Nat)) :
    CPidSystem where
  realChildren := realChildren ++ [[]]
  auxChildren := auxChildren ++ [[]]
  parent := S.parent ++ [(cId : Int)]
  cpids := S.cpids ++ [c2]
  identifiers := AssocMap.insert S.identifiers c2 S.cpids.length

/-- `spawn`. -/
def spawn (S : CPidSystem) (c : CPid) : Option (CPidSystem × CPid) :=
  let (S, cId) := S.identifier c
  S.realChildren[cId]?.bind fun children =>
    (c.spawn children.length).map fun c2 =>
      (S.add cId c2 (S.realChildren.set cId (children ++ [S.cpids.length])) S.auxChildren, c2)

/-- `new_aux`. -/
def newAux (S : CPidSystem) (c : CPid) : Option (CPidSystem × CPid) :=
  let (S, cId) := S.identifier c
  S.auxChildren[cId]?.bind fun children =>
    (c.aux children.length).map fun c2 =>
      (S.add cId c2 S.realChildren (S.auxChildren.set cId (children ++ [S.cpids.length])), c2)

end CPidSystem

/-- A call. -/
inductive Call where
  | spawn (c : CPid)
  | newAux (c : CPid)
deriving DecidableEq

namespace Call

/-- The argument. -/
def arg : Call → CPid
  | spawn c => c
  | newAux c => c

/-- The call on the system. -/
def apply (S : CPidSystem) : Call → Option (CPidSystem × CPid)
  | spawn c => S.spawn c
  | newAux c => S.newAux c

/-- What the call returns after `n` earlier ones. -/
def name : Call → Nat → CPid
  | spawn c, n => { c with procSeq := c.procSeq ++ [(n : Int)] }
  | newAux c, n => ⟨c.procSeq, n, by omega⟩

/-- The children that the call adds to. -/
def children (S : CPidSystem) : Call → List (List Nat)
  | spawn _ => S.realChildren
  | newAux _ => S.auxChildren

end Call

/-- The calls of a list, one after another, with their results. -/
def run : CPidSystem → List Call → Option (CPidSystem × List CPid)
  | S, [] => some (S, [])
  | S, call :: calls => (call.apply S).bind fun r =>
    (run r.1 calls).map fun r' => (r'.1, r.2 :: r'.2)

/-- Each argument was returned before and is not auxiliary. -/
def legalFrom (S : CPidSystem) (known : List CPid) : List Call → Bool
  | [] => true
  | call :: calls =>
    decide (call.arg ∈ known) && !call.arg.isAuxiliary &&
      match call.apply S with
      | some (S, c) => legalFrom S (known ++ [c]) calls
      | none => true

/-- A sequence of calls that the system allows. -/
def legal (calls : List Call) : Bool := legalFrom CPidSystem.init [CPid.root] calls

/-! ## Names from the calls -/

/-- What the calls return after those of `hist`. -/
def namesFrom (hist : List Call) : List Call → List CPid
  | [] => []
  | call :: calls => call.name (hist.count call) :: namesFrom (hist ++ [call]) calls

/-- What a sequence of calls returns. -/
def names (calls : List Call) : List CPid := namesFrom [] calls

variable {call : Call} {calls hist : List Call} {c : CPid}

theorem namesFrom_append (hist calls calls' : List Call) :
    namesFrom hist (calls ++ calls') =
      namesFrom hist calls ++ namesFrom (hist ++ calls) calls' := by
  induction calls generalizing hist with
  | nil => rw [List.append_nil]; rfl
  | cons call calls ih =>
    show _ :: namesFrom _ (calls ++ calls') = _ :: (_ ++ _)
    rw [ih, List.append_assoc]
    rfl

theorem names_concat (hist : List Call) (call : Call) :
    names (hist ++ [call]) = names hist ++ [call.name (hist.count call)] :=
  namesFrom_append [] hist [call]

theorem length_names (calls : List Call) : (names calls).length = calls.length := by
  induction calls using List.reverseRecOn with
  | nil => rfl
  | append_singleton calls call ih =>
    rw [names_concat, List.length_append, List.length_append, ih]
    rfl

theorem mem_names : c ∈ names calls ↔ ∃ call n, n < calls.count call ∧ c = call.name n := by
  induction calls using List.reverseRecOn with
  | nil => simp [names, namesFrom]
  | append_singleton calls call ih =>
    rw [names_concat, List.mem_append, List.mem_singleton, ih]
    constructor
    · rintro (⟨call', n, hn, hc⟩ | hc)
      · refine ⟨call', n, ?_, hc⟩
        rw [List.count_append]
        omega
      · refine ⟨call, calls.count call, ?_, hc⟩
        rw [List.count_append, List.count_singleton_self]
        omega
    · rintro ⟨call', n, hn, hc⟩
      rw [List.count_append, List.count_singleton] at hn
      by_cases hold : n < calls.count call'
      · exact Or.inl ⟨call', n, hold, hc⟩
      · have heq : call = call' := by
          by_contra hne
          rw [if_neg (by simpa using hne)] at hn
          omega
        subst heq
        rw [if_pos (by simp)] at hn
        have hcount : n = calls.count call := by omega
        exact Or.inr (hcount ▸ hc)

/-- Calls on real processes give names that tell the call and its number. -/
theorem Call.name_inj {call call' : Call} {n n' : Nat} (h : call.arg.isAuxiliary = false)
    (h' : call'.arg.isAuxiliary = false) (heq : call.name n = call'.name n') :
    call = call' ∧ n = n' := by
  have hseq := congrArg CPid.procSeq heq
  have haux := congrArg CPid.auxIdx heq
  cases call with
  | spawn c =>
    cases call' with
    | spawn c' =>
      obtain ⟨hseq, hn⟩ := List.append_inj' hseq rfl
      refine ⟨congrArg Call.spawn (CPid.ext hseq haux), ?_⟩
      exact Int.ofNat.inj (List.cons.inj hn).1
    | newAux c' =>
      have hc : c.auxIdx = (n' : Int) := haux
      rw [CPid.auxIdx_eq (c := c) h] at hc
      omega
  | newAux c =>
    cases call' with
    | spawn c' =>
      have hc : (n : Int) = c'.auxIdx := haux
      rw [CPid.auxIdx_eq (c := c') h'] at hc
      omega
    | newAux c' =>
      refine ⟨congrArg Call.newAux (CPid.ext hseq ?_), ?_⟩
      · exact (CPid.auxIdx_eq (c := c) h).trans (CPid.auxIdx_eq (c := c') h').symm
      · exact Int.ofNat.inj haux

theorem Call.name_ne_root (call : Call) (n : Nat) : call.name n ≠ CPid.root := by
  intro h
  cases call with
  | spawn c =>
    have hseq : c.procSeq ++ [(n : Int)] = [] := congrArg CPid.procSeq h
    exact absurd hseq (by simp)
  | newAux c =>
    have haux : (n : Int) = -1 := congrArg CPid.auxIdx h
    omega

theorem Call.parent_name {call : Call} (h : call.arg.isAuxiliary = false) (n : Nat) :
    (call.name n).parent = some call.arg := by
  cases call with
  | spawn c =>
    have haux : (name (spawn c) n).isAuxiliary = false := h
    have hparent : (name (spawn c) n).hasParent = true := by
      show (!(c.procSeq ++ [(n : Int)]).isEmpty || _) = true
      simp
    rw [CPid.parent, if_pos hparent, haux]
    show some _ = some c
    congr 1
    apply CPid.ext
    · exact List.dropLast_concat
    · rfl
  | newAux c =>
    have haux : (name (newAux c) n).isAuxiliary = true := by
      show decide (0 ≤ (n : Int)) = true
      simp
    have hparent : (name (newAux c) n).hasParent = true := by
      rw [CPid.hasParent, haux, Bool.or_true]
    rw [CPid.parent, if_pos hparent, if_pos haux]
    congr 1
    apply CPid.ext
    · rfl
    · exact (CPid.auxIdx_eq (c := c) h).symm

/-- All arguments are real processes. -/
def Real (calls : List Call) : Prop := ∀ call ∈ calls, call.arg.isAuxiliary = false

theorem Real.names_nodup (h : Real calls) : (names calls).Nodup := by
  induction calls using List.reverseRecOn with
  | nil => exact List.nodup_nil
  | append_singleton calls call ih =>
    have hcalls : Real calls := fun x hx => h x (List.mem_append_left _ hx)
    rw [names_concat, List.nodup_append]
    refine ⟨ih hcalls, List.nodup_singleton _, ?_⟩
    rintro c hc d hd rfl
    rw [List.mem_singleton] at hd
    obtain ⟨call', n, hn, rfl⟩ := mem_names.mp hc
    have hmem : call' ∈ calls := List.count_pos_iff.mp (by omega)
    obtain ⟨rfl, rfl⟩ := Call.name_inj (hcalls _ hmem) (h _ (by simp)) hd
    exact lt_irrefl _ hn

theorem root_notMem_names (calls : List Call) : CPid.root ∉ names calls := by
  intro h
  obtain ⟨call, n, _, heq⟩ := mem_names.mp h
  exact call.name_ne_root n heq.symm

theorem Real.parent_namesFrom (h : Real calls) (hist : List Call) :
    ∀ e ∈ calls.zip (namesFrom hist calls), e.2.parent = some e.1.arg := by
  induction calls generalizing hist with
  | nil => exact nofun
  | cons call calls ih =>
    intro e he
    rcases List.mem_cons.mp he with rfl | he
    · exact Call.parent_name (h _ List.mem_cons_self) _
    · exact ih (fun x hx => h x (List.mem_cons_of_mem _ hx)) _ e he

/-- The calls with argument `c`, with their results. -/
def callsOf (c : CPid) (calls : List Call) (rs : List CPid) : List (Call × CPid) :=
  (calls.zip rs).filter (·.1.arg = c)

/-- The results for an argument only depend on the calls with the argument. -/
theorem callsOf_namesFrom {c : CPid} (calls : List Call) {hist hist' : List Call}
    (h : ∀ call : Call, call.arg = c → hist.count call = hist'.count call) :
    callsOf c calls (namesFrom hist calls) =
      (calls.filter (·.arg = c)).zip (namesFrom hist' (calls.filter (·.arg = c))) := by
  induction calls generalizing hist hist' with
  | nil => rfl
  | cons call calls ih =>
    show List.filter _ ((call, _) :: calls.zip _) = _
    by_cases hc : call.arg = c
    · rw [List.filter_cons_of_pos (by simpa using hc), List.filter_cons_of_pos (by simpa using hc),
        h call hc]
      congr 1
      apply ih
      intro call' hcall'
      rw [List.count_append, List.count_append, h call' hcall']
    · rw [List.filter_cons_of_neg (by simpa using hc), List.filter_cons_of_neg (by simpa using hc)]
      apply ih
      intro call' hcall'
      have hne : call' ∉ [call] := by
        rw [List.mem_singleton]
        rintro rfl
        exact hc hcall'
      rw [List.count_append, List.count_eq_zero.mpr hne, Nat.add_zero]
      exact h call' hcall'

theorem count_eq_of_filter {calls calls' : List Call}
    (h : ∀ c, calls.filter (·.arg = c) = calls'.filter (·.arg = c)) (call : Call) :
    calls.count call = calls'.count call := by
  have hfilter (l : List Call) : (l.filter (·.arg = call.arg)).count call = l.count call :=
    List.count_filter (by simp)
  rw [← hfilter calls, h, hfilter]

/-! ## The system returns the names -/

open AssocMap in
/-- The state after the calls of `hist`. -/
structure Inv (S : CPidSystem) (hist : List Call) : Prop where
  cpids : S.cpids = CPid.root :: names hist
  identifiers : ∀ (i : Nat) c, S.cpids[i]? = some c → find? S.identifiers c = some i
  length : ∀ call : Call, (call.children S).length = S.cpids.length
  children : ∀ (call : Call) (i : Nat) l, S.cpids[i]? = some call.arg →
    (call.children S)[i]? = some l → l.length = hist.count call
  parent : S.parent.length = S.cpids.length ∧ ∀ (i : Nat) call, hist[i]? = some call →
    ∃ p : Nat, S.parent[i + 1]? = some (p : Int) ∧ S.cpids[p]? = some call.arg

theorem Inv.init : Inv CPidSystem.init [] where
  cpids := rfl
  identifiers := by
    intro i c hc
    cases i with
    | zero =>
      cases hc
      rfl
    | succ i => exact absurd hc (by simp [CPidSystem.init])
  length call := by cases call <;> rfl
  children := by
    intro call i l _ hl
    have hempty : call.children CPidSystem.init = [[]] := by cases call <;> rfl
    rw [hempty] at hl
    have hmem := List.mem_of_getElem? hl
    rw [List.mem_singleton] at hmem
    rw [hmem]
    rfl
  parent := ⟨rfl, fun i call hcall => absurd hcall (by simp)⟩

/-- Both calls add to the same children. -/
def Call.SameKind : Call → Call → Prop
  | spawn _, spawn _ => True
  | newAux _, newAux _ => True
  | _, _ => False

open AssocMap in
/-- What a call does to a system where its argument has index `cId` and the given
children. -/
structure Stepped (S S' : CPidSystem) (call : Call) (cId : Nat) (children : List Nat) : Prop where
  cpids : S'.cpids = S.cpids ++ [call.name children.length]
  identifiers : ∀ d, find? S'.identifiers d =
    if call.name children.length = d then some S.cpids.length else find? S.identifiers d
  same : ∀ call' : Call, call.SameKind call' → call'.children S' =
    (call'.children S).set cId (children ++ [S.cpids.length]) ++ [[]]
  other : ∀ call' : Call, ¬ call.SameKind call' → call'.children S' = call'.children S ++ [[]]
  parent : S'.parent = S.parent ++ [(cId : Int)]

open AssocMap in
theorem identifier_eq {S : CPidSystem} {cId : Nat} (h : find? S.identifiers c = some cId) :
    S.identifier c = ({ S with identifiers := insert S.identifiers c cId }, cId) := by
  have hget : getD S.identifiers c 0 = cId := by rw [getD, h, Option.getD_some]
  rw [CPidSystem.identifier, AssocMap.modify, hget]
  rfl

open AssocMap in
theorem apply_stepped {S : CPidSystem} {cId : Nat} {children : List Nat}
    (hreal : call.arg.isAuxiliary = false) (hid : find? S.identifiers call.arg = some cId)
    (hchildren : (call.children S)[cId]? = some children) :
    ∃ S', call.apply S = some (S', call.name children.length) ∧
      Stepped S S' call cId children := by
  have hfind (c2 d : CPid) :
      find? (insert (insert S.identifiers call.arg cId) c2 S.cpids.length) d =
        if c2 = d then some S.cpids.length else find? S.identifiers d := by
    rw [find?_insert, find?_insert]
    congr 1
    split_ifs with hd
    · rw [← hd, hid]
    · rfl
  cases call with
  | spawn c =>
    have happly : CPidSystem.spawn S c = some (CPidSystem.add
        { S with identifiers := insert S.identifiers c cId } cId
        (Call.name (.spawn c) children.length)
        (S.realChildren.set cId (children ++ [S.cpids.length])) S.auxChildren,
        Call.name (.spawn c) children.length) := by
      unfold CPidSystem.spawn
      rw [identifier_eq (c := c) hid]
      show Option.bind S.realChildren[cId]? _ = _
      rw [show S.realChildren[cId]? = some children from hchildren, Option.bind_some,
        CPid.spawn, if_pos ⟨hreal, by omega⟩]
      rfl
    refine ⟨_, happly, rfl, hfind _, ?_, ?_, rfl⟩
    · intro call' h
      cases call' with
      | spawn _ => rfl
      | newAux _ => exact h.elim
    · intro call' h
      cases call' with
      | spawn _ => exact absurd trivial h
      | newAux _ => rfl
  | newAux c =>
    have happly : CPidSystem.newAux S c = some (CPidSystem.add
        { S with identifiers := insert S.identifiers c cId } cId
        (Call.name (.newAux c) children.length) S.realChildren
        (S.auxChildren.set cId (children ++ [S.cpids.length])),
        Call.name (.newAux c) children.length) := by
      unfold CPidSystem.newAux
      rw [identifier_eq (c := c) hid]
      show Option.bind S.auxChildren[cId]? _ = _
      rw [show S.auxChildren[cId]? = some children from hchildren, Option.bind_some,
        CPid.aux, dif_pos ⟨hreal, by omega⟩]
      rfl
    refine ⟨_, happly, rfl, hfind _, ?_, ?_, rfl⟩
    · intro call' h
      cases call' with
      | spawn _ => exact h.elim
      | newAux _ => rfl
    · intro call' h
      cases call' with
      | spawn _ => rfl
      | newAux _ => exact absurd trivial h

theorem Call.eq_of_sameKind {call call' : Call} (h : call.SameKind call')
    (harg : call.arg = call'.arg) : call = call' := by
  cases call with
  | spawn c =>
    cases call' with
    | spawn c' => exact congrArg Call.spawn harg
    | newAux c' => exact h.elim
  | newAux c =>
    cases call' with
    | spawn c' => exact h.elim
    | newAux c' => exact congrArg Call.newAux harg

theorem Call.sameKind_refl (call : Call) : call.SameKind call := by cases call <;> trivial

variable {S S' : CPidSystem} {cId : Nat} {children : List Nat}

theorem Inv.nodup (h : Inv S hist) (hhist : Real hist) : S.cpids.Nodup := by
  rw [h.cpids]
  exact List.nodup_cons.mpr ⟨root_notMem_names _, hhist.names_nodup⟩

theorem Inv.known (h : Inv S hist) (hcall : call ∈ hist) : call.arg ∈ S.cpids := by
  obtain ⟨i, hi⟩ := List.mem_iff_getElem?.mp hcall
  obtain ⟨p, _, hp⟩ := h.parent.2 i call hi
  exact List.mem_of_getElem? hp

/-- The index of a name after the call: an earlier one, or the last for the new name. -/
theorem Stepped.cpids_cases (h : Stepped S S' call cId children) {i : Nat} {d : CPid}
    (hd : S'.cpids[i]? = some d) :
    (i < S.cpids.length ∧ S.cpids[i]? = some d) ∨
      (i = S.cpids.length ∧ d = call.name children.length) := by
  rw [h.cpids] at hd
  rcases Nat.lt_or_ge i S.cpids.length with hi | hi
  · rw [List.getElem?_append_left hi] at hd
    exact Or.inl ⟨hi, hd⟩
  · rw [List.getElem?_append_right hi, List.getElem?_singleton] at hd
    split_ifs at hd with hi0
    exact Or.inr ⟨by omega, (Option.some.inj hd).symm⟩

theorem Stepped.identifiers_inv (h : Stepped S S' call cId children) (hinv : Inv S hist)
    (hfresh : call.name children.length ∉ S.cpids) (i : Nat) (d : CPid)
    (hd : S'.cpids[i]? = some d) : AssocMap.find? S'.identifiers d = some i := by
  rw [h.identifiers]
  rcases h.cpids_cases hd with ⟨_, hd⟩ | ⟨rfl, rfl⟩
  · rw [if_neg]
    · exact hinv.identifiers i d hd
    · rintro rfl
      exact hfresh (List.mem_of_getElem? hd)
  · exact if_pos rfl

theorem Stepped.length_inv (h : Stepped S S' call cId children) (hinv : Inv S hist)
    (call' : Call) : (call'.children S').length = S'.cpids.length := by
  rw [h.cpids]
  by_cases hsame : call.SameKind call'
  · rw [h.same call' hsame, List.length_append, List.length_set, hinv.length, List.length_append]
    rfl
  · rw [h.other call' hsame, List.length_append, hinv.length, List.length_append]
    rfl

/-- The children of an earlier name. -/
theorem Stepped.children_old (h : Stepped S S' call cId children) (hinv : Inv S hist)
    (hhist : Real hist) (hcId : S.cpids[cId]? = some call.arg)
    (hcount : children.length = hist.count call) {call' : Call} {i : Nat} {l : List Nat}
    (hi : i < S.cpids.length) (harg : S.cpids[i]? = some call'.arg)
    (hl : (call'.children S')[i]? = some l) : l.length = (hist ++ [call]).count call' := by
  have hi' : i < (call'.children S).length := by rwa [hinv.length]
  rw [List.count_append, List.count_singleton]
  by_cases hsame : call.SameKind call'
  · rw [h.same call' hsame, List.getElem?_append_left (by rwa [List.length_set])] at hl
    by_cases hicId : cId = i
    · subst hicId
      have heq : call = call' :=
        Call.eq_of_sameKind hsame (Option.some.inj (hcId.symm.trans harg))
      subst heq
      rw [List.getElem?_set_self hi'] at hl
      cases hl
      rw [List.length_append, hcount, if_pos (by simp)]
      rfl
    · have hne : call ≠ call' := by
        rintro rfl
        have hlt := (List.getElem?_eq_some_iff.mp hcId).1
        exact hicId ((List.getElem?_inj hlt (hinv.nodup hhist)).mp (hcId.trans harg.symm))
      rw [List.getElem?_set_ne hicId] at hl
      rw [if_neg (by simpa using hne)]
      exact hinv.children call' i l harg hl
  · have hne : call ≠ call' := by
      rintro rfl
      exact hsame call.sameKind_refl
    rw [h.other call' hsame, List.getElem?_append_left hi'] at hl
    rw [if_neg (by simpa using hne)]
    exact hinv.children call' i l harg hl

/-- The new name has no children, and no call so far was on it. -/
theorem Stepped.children_new (h : Stepped S S' call cId children) (hinv : Inv S hist)
    (hcId : S.cpids[cId]? = some call.arg) (hfresh : call.name children.length ∉ S.cpids)
    {call' : Call} {l : List Nat} (harg : call'.arg = call.name children.length)
    (hl : (call'.children S')[S.cpids.length]? = some l) :
    l.length = (hist ++ [call]).count call' := by
  have hempty : l = [] := by
    have hlen := hinv.length call'
    by_cases hsame : call.SameKind call'
    · rw [h.same call' hsame, List.getElem?_append_right
        (by rw [List.length_set, hlen])] at hl
      exact List.mem_singleton.mp (List.mem_of_getElem? hl)
    · rw [h.other call' hsame, List.getElem?_append_right hlen.le] at hl
      exact List.mem_singleton.mp (List.mem_of_getElem? hl)
  have hnot : call' ∉ hist ++ [call] := by
    intro hmem
    rw [← harg] at hfresh
    rcases List.mem_append.mp hmem with hmem | hmem
    · exact hfresh (hinv.known hmem)
    · rw [List.mem_singleton.mp hmem] at hfresh
      exact hfresh (List.mem_of_getElem? hcId)
  rw [hempty, List.count_eq_zero.mpr hnot]
  rfl

theorem Stepped.parent_inv (h : Stepped S S' call cId children) (hinv : Inv S hist)
    (hcId : S.cpids[cId]? = some call.arg) :
    S'.parent.length = S'.cpids.length ∧ ∀ (i : Nat) call', (hist ++ [call])[i]? = some call' →
      ∃ p : Nat, S'.parent[i + 1]? = some (p : Int) ∧ S'.cpids[p]? = some call'.arg := by
  have hlength : S.parent.length = hist.length + 1 := by
    rw [hinv.parent.1, hinv.cpids, List.length_cons, length_names]
  rw [h.parent, h.cpids]
  refine ⟨by rw [List.length_append, List.length_append, hinv.parent.1]; rfl, fun i call' hi => ?_⟩
  rcases Nat.lt_or_ge i hist.length with hlt | hge
  · rw [List.getElem?_append_left hlt] at hi
    obtain ⟨p, hp, harg⟩ := hinv.parent.2 i call' hi
    refine ⟨p, ?_, ?_⟩
    · rwa [List.getElem?_append_left (by omega)]
    · rwa [List.getElem?_append_left (List.getElem?_eq_some_iff.mp harg).1]
  · rw [List.getElem?_append_right hge, List.getElem?_singleton] at hi
    split_ifs at hi with hi0
    cases hi
    refine ⟨cId, ?_, ?_⟩
    · rw [List.getElem?_append_right (by omega), List.getElem?_singleton, if_pos (by omega)]
    · rwa [List.getElem?_append_left (List.getElem?_eq_some_iff.mp hcId).1]

/-- A call on a name that is there and is real. -/
theorem Inv.step (h : Inv S hist) (hhist : Real (hist ++ [call])) (hknown : call.arg ∈ S.cpids) :
    ∃ S', call.apply S = some (S', call.name (hist.count call)) ∧ Inv S' (hist ++ [call]) := by
  obtain ⟨cId, hcId⟩ := List.mem_iff_getElem?.mp hknown
  obtain ⟨children, hchildren⟩ : ∃ l, (call.children S)[cId]? = some l :=
    ⟨_, List.getElem?_eq_getElem
      (by rw [h.length]; exact (List.getElem?_eq_some_iff.mp hcId).1)⟩
  have hcount : children.length = hist.count call := h.children call cId children hcId hchildren
  obtain ⟨S', happly, hstep⟩ := apply_stepped (hhist _ (by simp)) (h.identifiers _ _ hcId) hchildren
  have hreal : Real hist := fun x hx => hhist x (List.mem_append_left _ hx)
  have hcpids : S'.cpids = CPid.root :: names (hist ++ [call]) := by
    rw [hstep.cpids, h.cpids, names_concat, hcount]
    rfl
  have hfresh : call.name children.length ∉ S.cpids := by
    have hnodup : (CPid.root :: names (hist ++ [call])).Nodup :=
      List.nodup_cons.mpr ⟨root_notMem_names _, hhist.names_nodup⟩
    rw [← hcpids, hstep.cpids, List.nodup_append] at hnodup
    intro hmem
    exact hnodup.2.2 _ hmem _ (List.mem_singleton_self _) rfl
  refine ⟨S', hcount ▸ happly, hcpids, hstep.identifiers_inv h hfresh, hstep.length_inv h, ?_,
    hstep.parent_inv h hcId⟩
  intro call' i l harg hl
  rcases hstep.cpids_cases harg with ⟨hi, harg'⟩ | ⟨rfl, harg'⟩
  · exact hstep.children_old h hreal hcId hcount hi harg' hl
  · exact hstep.children_new h hcId hfresh harg' hl

/-- Calls that are allowed do not fail, and return the names. -/
theorem run_eq (h : Inv S hist) (hreal : Real hist) {known : List CPid}
    (hknown : ∀ c ∈ known, c ∈ S.cpids) (hlegal : legalFrom S known calls = true) :
    Real calls ∧ ∃ S', run S calls = some (S', namesFrom hist calls) ∧ Inv S' (hist ++ calls) := by
  induction calls generalizing S hist known with
  | nil => exact ⟨nofun, S, rfl, by rwa [List.append_nil]⟩
  | cons call calls ih =>
    rw [legalFrom, Bool.and_eq_true, Bool.and_eq_true, decide_eq_true_iff,
      Bool.not_eq_true'] at hlegal
    obtain ⟨⟨harg, haux⟩, hlegal⟩ := hlegal
    have hreal' : Real (hist ++ [call]) := by
      intro x hx
      rcases List.mem_append.mp hx with hx | hx
      · exact hreal x hx
      · rwa [List.mem_singleton.mp hx]
    obtain ⟨S', happly, hinv⟩ := h.step hreal' (hknown _ harg)
    rw [happly] at hlegal
    have hknown' : ∀ c ∈ known ++ [call.name (hist.count call)], c ∈ S'.cpids := by
      rw [hinv.cpids, names_concat, ← List.cons_append, ← h.cpids]
      intro c hc
      rcases List.mem_append.mp hc with hc | hc
      · exact List.mem_append_left _ (hknown c hc)
      · exact List.mem_append_right _ hc
    obtain ⟨hcalls, S'', hrun, hinv'⟩ := ih hinv hreal' hknown' hlegal
    refine ⟨?_, S'', ?_, ?_⟩
    · intro x hx
      rcases List.mem_cons.mp hx with rfl | hx
      · exact haux
      · exact hcalls x hx
    · rw [run, happly, Option.bind_some, hrun]
      rfl
    · rwa [List.append_assoc] at hinv'

/-! ## Independence of the order -/

/-- The results are distinct names other than `<0>`, each with the argument of its call as
parent. -/
structure WellNamed (calls : List Call) (rs : List CPid) : Prop where
  nodup : rs.Nodup
  ne_root : CPid.root ∉ rs
  parent : ∀ e ∈ calls.zip rs, e.2.parent = some e.1.arg

/-- `compare` is a total order that is consistent with equality. -/
structure TotalOrder : Prop where
  eq_zero_iff : ∀ c d : CPid, c.compare d = 0 ↔ c = d
  swap : ∀ c d : CPid, d.compare c = -c.compare d
  trans : ∀ c d e : CPid, c.compare d < 0 → d.compare e < 0 → c.compare e < 0

theorem totalOrder : TotalOrder where
  eq_zero_iff _ _ := CPid.compare_eq_zero_iff
  swap := CPid.compare_swap
  trans _ _ _ := CPid.compare_trans

theorem legal_run (hlegal : legal calls = true) :
    (∃ S, run CPidSystem.init calls = some (S, names calls)) ∧ WellNamed calls (names calls) := by
  have hknown : ∀ c ∈ [CPid.root], c ∈ CPidSystem.init.cpids := fun _ hc => hc
  obtain ⟨hreal, S, hrun, _⟩ := run_eq Inv.init nofun hknown hlegal
  exact ⟨⟨S, hrun⟩, hreal.names_nodup, root_notMem_names calls, hreal.parent_namesFrom []⟩

/-- Two sequences of calls that are the same for each argument create the same names, and
give the same ones to each argument. -/
theorem names_independent {calls calls' : List Call} (h : legal calls = true)
    (h' : legal calls' = true)
    (hsame : ∀ c, calls.filter (·.arg = c) = calls'.filter (·.arg = c)) :
    TotalOrder ∧ ∃ S S' rs rs', run CPidSystem.init calls = some (S, rs) ∧
      run CPidSystem.init calls' = some (S', rs') ∧ rs.Perm rs' ∧
      (∀ c, callsOf c calls rs = callsOf c calls' rs') ∧ WellNamed calls rs ∧
      WellNamed calls' rs' := by
  obtain ⟨⟨S, hrun⟩, hnamed⟩ := legal_run h
  obtain ⟨⟨S', hrun'⟩, hnamed'⟩ := legal_run h'
  refine ⟨totalOrder, S, S', _, _, hrun, hrun', ?_, ?_, hnamed, hnamed'⟩
  · rw [List.perm_ext_iff_of_nodup hnamed.nodup hnamed'.nodup]
    intro c
    rw [mem_names, mem_names]
    simp only [count_eq_of_filter hsame]
  · intro c
    rw [names, names, callsOf_namesFrom calls fun _ _ => rfl,
      callsOf_namesFrom calls' fun _ _ => rfl, hsame]

/-- The name `<0.0>`. -/
def firstChild : CPid := ⟨[0], -1, le_rfl⟩

/-- Two threads that create a child each, in both orders. -/
theorem names_independent_two :
    TotalOrder ∧ ∃ S S' rs rs',
      run CPidSystem.init [.spawn CPid.root, .spawn firstChild, .newAux CPid.root] = some (S, rs) ∧
      run CPidSystem.init [.spawn CPid.root, .newAux CPid.root, .spawn firstChild] =
        some (S', rs') ∧ rs.Perm rs' ∧
      (∀ c, callsOf c [.spawn CPid.root, .spawn firstChild, .newAux CPid.root] rs =
        callsOf c [.spawn CPid.root, .newAux CPid.root, .spawn firstChild] rs') ∧
      WellNamed [.spawn CPid.root, .spawn firstChild, .newAux CPid.root] rs ∧
      WellNamed [.spawn CPid.root, .newAux CPid.root, .spawn firstChild] rs' := by
  apply names_independent (by decide) (by decide)
  intro c
  by_cases hroot : CPid.root = c
  · subst hroot
    decide
  · simp [List.filter_cons, Call.arg, hroot]

end ViEqui.Names
