import ViEqui.Event

/-!
# Forbidden formulas

`ProductTerm` and `SOPFormula` of `src/SOPFormula.cpp`: a disjunction of
conjunctions of `(read, value)` pairs, each level with a recorded result.

The methods that update their object return the new object here.  The loops
of the source that erase through an iterator are recursions over the part of
the vector that is still to be visited, with the part already passed over in
an accumulator, since `unit()` looks at the whole vector.
-/

namespace ViEqui

/-- `RESULT`. -/
inductive Result where
  | true | false | dependent
deriving DecidableEq, Repr

/-- `std::pair<IID<IPid>, int>`. -/
abbrev RV := IID × Value

/-- A conjunction of `(read, value)` pairs. -/
structure ProductTerm where
  terms : List RV := []
  result : Result := .false
deriving DecidableEq, Repr

namespace ProductTerm

/-- `ProductTerm(term)`. -/
def ofTerm (term : RV) : ProductTerm := ⟨[term], .dependent⟩

def unit (p : ProductTerm) : Bool := p.terms.length = 1

def has (p : ProductTerm) (term : RV) : Bool := term ∈ p.terms

def addTerm (p : ProductTerm) (term : RV) : ProductTerm :=
  if p.has term then p else ⟨p.terms ++ [term], .dependent⟩

/-- `check_evaluation`. -/
def checkEvaluation (p : ProductTerm) (term : RV) : Result :=
  match p.terms with
  | [t] => if t = term then .true else if t.1 = term.1 then .false else p.result
  | _ => p.result

/-- The loop of `evaluate`.  The comparison of the value is
`it->second != it->second`, which never holds. -/
def evaluateLoop (term : RV) : List RV → List RV → ProductTerm × Result
  | passed, [] => (⟨passed, .dependent⟩, .dependent)
  | passed, t :: rest =>
    if t.1 ≠ term.1 then evaluateLoop term (passed ++ [t]) rest
    else if passed.length + 1 + rest.length = 1 then
      (⟨passed ++ t :: rest, .true⟩, .true)
    else evaluateLoop term passed rest

/-- `evaluate`. -/
def evaluate (p : ProductTerm) (term : RV) : ProductTerm × Result :=
  if p.result ≠ .dependent then (p, p.result)
  else evaluateLoop term [] p.terms

/-- `reduce`: the first pair of the read of `term` decides. -/
def reduceLoop (term : RV) (result : Result) :
    List RV → List RV → ProductTerm
  | passed, [] => ⟨passed, result⟩
  | passed, t :: rest =>
    if t = term then
      ⟨passed ++ rest,
        if passed.length + 1 + rest.length = 1 then .true else result⟩
    else if t.1 = term.1 then ⟨passed ++ t :: rest, .false⟩
    else reduceLoop term result (passed ++ [t]) rest

def reduce (p : ProductTerm) (term : RV) : ProductTerm :=
  reduceLoop term p.result [] p.terms

/-- `operator==`. -/
def same (p q : ProductTerm) : Bool :=
  p.terms.length = q.terms.length && p.terms.all q.has

/-- `operator&&`. -/
def conj (p q : ProductTerm) : ProductTerm := q.terms.foldl addTerm p

end ProductTerm

/-- A disjunction of product terms. -/
structure SOPFormula where
  terms : List ProductTerm := []
  result : Result := .false
deriving DecidableEq, Repr

instance : Inhabited SOPFormula := ⟨{}⟩

namespace SOPFormula

/-- `SOPFormula(term)`. -/
def ofTerm (term : RV) : SOPFormula := ⟨[.ofTerm term], .dependent⟩

/-- `check_evaluation`.  The recorded result of the formula is not read. -/
def checkEvaluation (f : SOPFormula) (term : RV) : Result :=
  let results := f.terms.map (·.checkEvaluation term)
  if Result.true ∈ results then .true
  else if Result.dependent ∈ results then .dependent
  else .false

/-- The loop of `evaluate`: a term that is `TRUE` ends it. -/
def evaluateLoop (term : RV) :
    List ProductTerm → List ProductTerm → Bool × List ProductTerm
  | passed, [] => (false, passed)
  | passed, p :: rest =>
    match p.evaluate term with
    | (_, .true) => (true, [])
    | (_, .false) => evaluateLoop term passed rest
    | (p', .dependent) => evaluateLoop term (passed ++ [p']) rest

/-- `evaluate`. -/
def evaluate (f : SOPFormula) (term : RV) : SOPFormula × Result :=
  if f.result ≠ .dependent then (f, f.result)
  else
    match evaluateLoop term [] f.terms with
    | (true, _) => (⟨[], .true⟩, .true)
    | (false, []) => (⟨[], .false⟩, .false)
    | (false, terms) => (⟨terms, f.result⟩, f.result)

/-- `has`. -/
def has (f : SOPFormula) (term : RV) : Bool :=
  f.terms.any (fun p => p.unit && p.has term)

/-- `has_product_term`. -/
def hasProductTerm (f : SOPFormula) (p : ProductTerm) : Bool :=
  f.terms.any (·.same p)

/-- The loop of `reduce`: a term that is `TRUE` ends it. -/
def reduceLoop (term : RV) :
    List ProductTerm → List ProductTerm → Bool × List ProductTerm
  | passed, [] => (false, passed)
  | passed, p :: rest =>
    let p' := p.reduce term
    match p'.result with
    | .true => (true, passed ++ p' :: rest)
    | .false => reduceLoop term passed rest
    | .dependent => reduceLoop term (passed ++ [p']) rest

/-- `reduce`. -/
def reduce (f : SOPFormula) (term : RV) : SOPFormula :=
  match reduceLoop term [] f.terms with
  | (true, _) => ⟨[], .true⟩
  | (false, terms) =>
    if f.result = .true then ⟨[], .true⟩
    else if terms = [] then ⟨[], .false⟩
    else ⟨terms, f.result⟩

/-- `operator||` with a product term. -/
def disjTerm (f : SOPFormula) (p : ProductTerm) : SOPFormula :=
  if f.result = .true then f
  else if f.hasProductTerm p then f
  else ⟨f.terms ++ [p], .dependent⟩

/-- `operator||` with a pair. -/
def disjRV (f : SOPFormula) (term : RV) : SOPFormula :=
  f.disjTerm (.ofTerm term)

/-- `operator||` with a formula. -/
def disj (f g : SOPFormula) : SOPFormula :=
  if f.result = .true ∨ g.result = .false then f
  else if g.result = .true then ⟨[], .true⟩
  else if f.result = .false then g
  else g.terms.foldl disjTerm f

/-- `operator&&` with a product term.  On a `TRUE` formula the source writes
`result == RESULT::DEPENDENT`, which changes nothing. -/
def conjTerm (f : SOPFormula) (p : ProductTerm) : SOPFormula :=
  if f.result = .false then f
  else if f.result = .true then { f with terms := f.terms ++ [p] }
  else { f with terms := f.terms.map (·.conj p) }

/-- `operator&&` with a pair. -/
def conjRV (f : SOPFormula) (term : RV) : SOPFormula :=
  if f.result = .false then f
  else if f.result = .true then { f with terms := f.terms ++ [.ofTerm term] }
  else { f with terms := f.terms.map (·.addTerm term) }

/-- `remove_terms_of_term`.  It leaves the result of the formula as it is, also
when no term remains. -/
def removeTermsOfTerm (f : SOPFormula) (term : RV) : SOPFormula :=
  { f with terms := f.terms.filter fun p => !p.has term }

/-- `operator&&` with a formula.  The source dereferences `end()` when both are
`DEPENDENT` and `g` has no terms, as `remove_terms_of_term` may leave it. -/
def conj (f g : SOPFormula) : SOPFormula :=
  if g.result = .true then f
  else if f.result = .false then f
  else if g.result = .false then ⟨[], .false⟩
  else if f.result = .true then g
  else
    match g.terms with
    | [] => f
    | p :: rest => rest.foldl (fun h q => h.disj (f.conjTerm q)) (f.conjTerm p)

end SOPFormula

end ViEqui
