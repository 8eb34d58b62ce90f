import ViEqui.Smt.SExpr

/-!
# Reading the model

`get_model` of `src/SmtlibSatSolver.cpp`.  A failed assertion, an exception, and an access
behind the end of a vector give `none`.

* `Answer` is an answer of the solver, with the values in each notation.
* `readModel_eq`: into a vector that has a place for each variable the values are read.
* `faithful_iff`: the vector of `get_model` has no places.
-/

namespace ViEqui.Smt

/-! ## The function -/

/-- A `long` or an `int` as an `unsigned`. -/
def toUnsigned (n : Int) : Nat := (n % 2 ^ 32).toNat

/-- A text that should be all number. -/
def number (base : Nat) (s : List Char) : Option Int :=
  if (strtol base s).2 = s.length then some (strtol base s).1 else none

/-- The value of `#x…` or `#b…`. -/
def hashValue : List Char → Option Int
  | '#' :: x :: s =>
    if s = [] then none else if x = 'x' then number 16 s else if x = 'b' then number 2 s else none
  | _ => none

/-- The value of `bv…`. -/
def bvValue : List Char → Option Int
  | 'b' :: 'v' :: s => if s = [] then none else number 10 s
  | _ => none

/-- The value in an entry. -/
def valueOf (clBv : Bool) : SExpr → Option Int
  | .token t => if clBv then hashValue t else none
  | .int n => if clBv then none else some n
  | .list [_, .token t, _] => if clBv then bvValue t else none
  | .list _ => none

/-- The name of a variable. -/
def varName (i : Nat) : List Char := 'e' :: Nat.toDigits 10 i

/-- The value of the entry for the variable `i`. -/
def entryValue (clBv : Bool) (i : Nat) : SExpr → Option Int
  | .list [.token name, v] => if name = varName i then valueOf clBv v else none
  | _ => none

/-- `res[i] = x`. -/
def assign (res : List Nat) (i x : Nat) : Option (List Nat) :=
  if i < res.length then some (res.set i x) else none

/-- One round of the loop. -/
def modelStep (clBv : Bool) (l : List SExpr) (res : List Nat) (i : Nat) : Option (List Nat) :=
  l[i]?.bind fun e => (entryValue clBv i e).bind fun n => assign res i (toUnsigned n)

/-- The answer is read into the vector `res`; also the text that is left. -/
def readModel (clBv : Bool) (noVars : Nat) (res : List Nat) (out : List Char) :
    Option (List Nat × List Char) :=
  match SExpr.read out with
  | .ok (.list l, rest) => ((List.range noVars).foldlM (modelStep clBv l) res).map (·, rest)
  | _ => none

/-- `get_model`: `reserve` leaves the vector empty. -/
def getModel (clBv : Bool) (noVars : Nat) (out : List Char) : Option (List Nat × List Char) :=
  readModel clBv noVars [] out

/-! ## Answers -/

/-- The notations for a value. -/
inductive Numeral where
  | decimal (s : List Char)
  | hex (s : List Char)
  | bin (s : List Char)
  | bv (s w : List Char)

namespace Numeral

/-- Decimals are for integers, and the other notations for bit vectors. -/
def Accepted : Bool → Numeral → Prop
  | false, decimal s => Digits 10 s
  | true, hex s => Digits 16 s
  | true, bin s => Digits 2 s
  | true, bv s w => Digits 10 s ∧ Digits 10 w
  | _, _ => False

def text : Numeral → List Char
  | decimal s => s
  | hex s => '#' :: 'x' :: s
  | bin s => '#' :: 'b' :: s
  | bv s w => '(' :: '_' :: ' ' :: 'b' :: 'v' :: (s ++ ' ' :: (w ++ [')']))

def value : Numeral → Nat
  | decimal s => Smt.value 10 s
  | hex s => Smt.value 16 s
  | bin s => Smt.value 2 s
  | bv s _ => Smt.value 10 s

end Numeral

/-- The entries for the variables from `i` on, with the parenthesis behind them and the
text that follows. -/
inductive Entries (clBv : Bool) (rest : List Char) : Nat → List Nat → List Char → Prop where
  | nil {i : Nat} {ws : List Char} (hws : Blank ws) : Entries clBv rest i [] (ws ++ ')' :: rest)
  | cons {i : Nat} {vs : List Nat} {is ws₁ ws₂ ws₃ ws₄ : List Char} {v : Numeral}
      (hv : v.Accepted clBv) (h₁ : Blank ws₁) (h₂ : Blank ws₂) (h₃ : Blank ws₃ ∧ ws₃ ≠ [])
      (h₄ : Blank ws₄) (h : Entries clBv rest (i + 1) vs is) :
      Entries clBv rest i (v.value :: vs)
        (ws₁ ++ '(' :: (ws₂ ++ (varName i ++ (ws₃ ++ (v.text ++ (ws₄ ++ ')' :: is))))))

/-- `((e0 v0) (e1 v1) …)` with the given values. -/
def Answer (clBv : Bool) (vs : List Nat) (out rest : List Char) : Prop :=
  ∃ ws is, Blank ws ∧ out = ws ++ '(' :: is ∧ Entries clBv rest 0 vs is

/-! ## Words -/

variable {base : Nat} {s rest is : List Char} {clBv : Bool} {vs : List Nat}

theorem blank_nil : Blank [] := fun _ hc => absurd hc List.not_mem_nil

theorem blank_space : Blank [' '] := by
  intro c hc
  rw [List.mem_singleton.mp hc]
  rfl

theorem isSpace_of_blank {ws : List Char} (h : Blank ws) {c : Char} (hc : c ∈ ws.head?) :
    endOfTok c = true := by
  rw [endOfTok, h c (List.mem_of_mem_head? hc)]
  rfl

/-- White space or a parenthesis ends a word. -/
theorem Ended.blank {ws : List Char} (h : Blank ws) (hrest : Ended rest) : Ended (ws ++ rest) := by
  intro c hc
  cases ws with
  | nil => exact hrest c hc
  | cons d ws => exact isSpace_of_blank h hc

theorem Ended.cons {c : Char} (hc : endOfTok c = true) (is : List Char) : Ended (c :: is) := by
  intro d hd
  cases hd
  exact hc

theorem endOfTok_of_digit? {c : Char} (h : (digit? base c).isSome) : endOfTok c = false := by
  have hnum := toNat_of_digit? h
  rw [endOfTok, isSpace]
  have hne (d : Char) (hd : ¬ ((48 ≤ d.toNat ∧ d.toNat ≤ 57) ∨ (97 ≤ d.toNat ∧ d.toNat ≤ 122) ∨
      (65 ≤ d.toNat ∧ d.toNat ≤ 90))) : decide (c = d) = false := by
    rw [decide_eq_false_iff_not]
    rintro rfl
    exact hd hnum
  rw [hne ' ' (by decide), hne ')' (by decide), hne '(' (by decide)]
  simp only [Bool.false_or, Bool.or_false, Bool.and_eq_false_iff, decide_eq_false_iff_not]
  omega

theorem Digits.word (h : Digits base s) : Word s :=
  ⟨h.ne_nil, fun c hc => endOfTok_of_digit? (h.digit c hc)⟩

theorem Word.single {c : Char} (hc : endOfTok c = false) : Word [c] :=
  ⟨List.cons_ne_nil _ _, fun d hd => by rwa [List.mem_singleton.mp hd]⟩

/-- A character in front. -/
theorem Word.cons {c : Char} (hc : endOfTok c = false) (h : Word s) : Word (c :: s) :=
  ⟨List.cons_ne_nil _ _, fun d hd => by
    rcases List.mem_cons.mp hd with rfl | hd
    · exact hc
    · exact h.inside d hd⟩

/-- A word is no number if it starts with something else. -/
theorem ofWord_token {c : Char} (hspace : isSpace c = false) (hminus : c ≠ '-') (hplus : c ≠ '+')
    (hdigit : digit? 10 c = none) (s : List Char) : ofWord (c :: s) = .token (c :: s) := by
  have hstrtol : strtol 10 (c :: s) = (0, 0) := by
    have hblanks : (c :: s).takeWhile isSpace = [] := List.takeWhile_cons_of_neg (by simp [hspace])
    unfold strtol
    rw [hblanks]
    simp [hminus, hplus, digits, hdigit]
  rw [ofWord, hstrtol, if_pos (by simp)]

theorem ofWord_digits (h : Digits 10 s) : ofWord s = .int (toInt (toLong (value 10 s))) := by
  rw [ofWord, h.strtol_eq (by omega), if_neg (not_not.mpr rfl)]

theorem number_eq (h : Digits base s) (hbase : base ≤ 16) :
    number base s = some (toLong (value base s)) := by
  rw [number, h.strtol_eq hbase, if_pos rfl]

/-- Values of the type are kept. -/
theorem toUnsigned_toLong {n : Nat} (h : n < 2 ^ 32) : toUnsigned (toLong n) = n := by
  have hlong : toLong n = n := by
    unfold toLong
    omega
  rw [hlong, toUnsigned]
  omega

theorem toUnsigned_toInt {n : Nat} (h : n < 2 ^ 32) : toUnsigned (toInt (toLong n)) = n := by
  have hmod : (toLong n).bmod (2 ^ 32) % ((2 ^ 32 : Nat) : Int) =
      toLong n % ((2 ^ 32 : Nat) : Int) := Int.bmod_emod
  show ((toLong n).bmod (2 ^ 32) % ((2 ^ 32 : Nat) : Int)).toNat = n
  rw [hmod]
  exact toUnsigned_toLong h

/-! ## What is read from an answer -/

theorem digit?_of_isDigit {c : Char} (h : c.isDigit = true) : (digit? 10 c).isSome := by
  have hc : '0'.toNat ≤ c.toNat ∧ c.toNat ≤ '9'.toNat := by
    rw [Char.isDigit, Bool.and_eq_true, decide_eq_true_iff, decide_eq_true_iff] at h
    exact ⟨UInt32.le_iff_toNat_le.mp h.1, UInt32.le_iff_toNat_le.mp h.2⟩
  have h0 : '0'.toNat = 48 := rfl
  have h9 : '9'.toNat = 57 := rfl
  unfold digit?
  simp only [hc, and_self, if_true]
  rw [if_pos (by omega)]
  rfl

/-- The name of a variable is read as a word. -/
theorem reads_varName (i : Nat) (hrest : Ended rest) :
    Reads (varName i ++ rest) (.token (varName i)) rest := by
  have hdigits : Digits 10 (Nat.toDigits 10 i) :=
    ⟨Nat.toDigits_ne_nil, fun c hc =>
      digit?_of_isDigit (Nat.isDigit_of_mem_toDigits (by omega) (by omega) hc)⟩
  have hword : Word (varName i) := hdigits.word.cons (by decide)
  have hreads := Reads.word hword hrest
  rwa [varName, ofWord_token (by decide) (by decide) (by decide) (by decide)] at hreads

theorem reads_token {c : Char} {str : List Char} (hword : Word (c :: str)) (hminus : c ≠ '-')
    (hplus : c ≠ '+') (hdigit : digit? 10 c = none) (hrest : Ended rest) :
    Reads (c :: str ++ rest) (.token (c :: str)) rest := by
  have hc := hword.inside c List.mem_cons_self
  rw [endOfTok, Bool.or_eq_false_iff, Bool.or_eq_false_iff] at hc
  have hreads := Reads.word hword hrest
  rwa [ofWord_token hc.1.1 hminus hplus hdigit] at hreads

/-- The notation `(_ bvN w)`. -/
theorem reads_bv {w : List Char} (hs : Digits 10 s) (hw : Digits 10 w) (rest : List Char) :
    Reads ((Numeral.bv s w).text ++ rest)
      (.list [.token ['_'], .token ('b' :: 'v' :: s), ofWord w]) rest := by
  have hspace : ∀ is, Ended (' ' :: is) := Ended.cons rfl
  have hwidth : Reads (' ' :: (w ++ ')' :: rest)) (ofWord w) (')' :: rest) :=
    (Reads.word hw.word (Ended.cons rfl rest)).skip blank_space
  have hvalue : Reads (' ' :: 'b' :: 'v' :: (s ++ ' ' :: (w ++ ')' :: rest)))
      (.token ('b' :: 'v' :: s)) (' ' :: (w ++ ')' :: rest)) :=
    (reads_token ((hs.word.cons (by decide)).cons (by decide)) (by decide) (by decide)
      (by decide) (hspace _)).skip blank_space
  have hunder : Word ['_'] := Word.single (by decide)
  have hname : Reads ('_' :: ' ' :: 'b' :: 'v' :: (s ++ ' ' :: (w ++ ')' :: rest)))
      (.token ['_']) (' ' :: 'b' :: 'v' :: (s ++ ' ' :: (w ++ ')' :: rest))) :=
    reads_token hunder (by decide) (by decide) (by decide) (hspace _)
  have hclose : ReadsList (')' :: rest) [] rest := ReadsList.nil blank_nil rest
  have hlist := Reads.list (ReadsList.cons hname
    (ReadsList.cons hvalue (ReadsList.cons hwidth hclose)))
  have htext : (Numeral.bv s w).text ++ rest =
      '(' :: '_' :: ' ' :: 'b' :: 'v' :: (s ++ ' ' :: (w ++ ')' :: rest)) := by
    simp [Numeral.text]
  rw [htext]
  exact hlist

/-- A value is read, in each notation. -/
theorem Numeral.reads {v : Numeral} (hv : v.Accepted clBv) (hsize : v.value < 2 ^ 32)
    (hrest : Ended rest) :
    ∃ e, Reads (v.text ++ rest) e rest ∧ (valueOf clBv e).map toUnsigned = some v.value := by
  cases v with
  | decimal s =>
    cases clBv with
    | true => exact hv.elim
    | false =>
      have hs : Digits 10 s := hv
      refine ⟨_, Reads.word hs.word hrest, ?_⟩
      show (valueOf false (ofWord s)).map toUnsigned = _
      rw [ofWord_digits hs]
      exact congrArg some (toUnsigned_toInt hsize)
  | hex s =>
    cases clBv with
    | false => exact hv.elim
    | true =>
      have hs : Digits 16 s := hv
      refine ⟨_, reads_token ((hs.word.cons (by decide)).cons (by decide)) (by decide) (by decide)
        (by decide) hrest, ?_⟩
      show (if s = [] then none else number 16 s).map toUnsigned = _
      rw [if_neg hs.ne_nil, number_eq hs (by omega)]
      exact congrArg some (toUnsigned_toLong hsize)
  | bin s =>
    cases clBv with
    | false => exact hv.elim
    | true =>
      have hs : Digits 2 s := hv
      refine ⟨_, reads_token ((hs.word.cons (by decide)).cons (by decide)) (by decide) (by decide)
        (by decide) hrest, ?_⟩
      show (if s = [] then none else number 2 s).map toUnsigned = _
      rw [if_neg hs.ne_nil, number_eq hs (by omega)]
      exact congrArg some (toUnsigned_toLong hsize)
  | bv s w =>
    cases clBv with
    | false => exact hv.elim
    | true =>
      refine ⟨_, reads_bv hv.1 hv.2 rest, ?_⟩
      show (if s = [] then none else number 10 s).map toUnsigned = _
      rw [if_neg hv.1.ne_nil, number_eq hv.1 (by omega)]
      exact congrArg some (toUnsigned_toLong hsize)

/-- The entries are read, and each one has the value for its variable. -/
theorem Entries.reads {i : Nat} (h : Entries clBv rest i vs is) (hsize : ∀ v ∈ vs, v < 2 ^ 32) :
    ∃ es, ReadsList is es rest ∧ es.length = vs.length ∧
      ∀ k, (es[k]?.bind (entryValue clBv (i + k))).map toUnsigned = vs[k]? := by
  induction h with
  | nil hws => exact ⟨[], ReadsList.nil hws rest, rfl, fun k => rfl⟩
  | @cons i vs is ws₁ ws₂ ws₃ ws₄ v hv h₁ h₂ h₃ h₄ h ih =>
    obtain ⟨es, hes, hlen, hvalues⟩ := ih fun x hx => hsize x (List.mem_cons_of_mem _ hx)
    have hclose : Ended (')' :: is) := Ended.cons rfl is
    obtain ⟨e, he, hvalue⟩ := v.reads hv (hsize _ List.mem_cons_self) (hclose.blank h₄)
    have hended : Ended (ws₃ ++ (v.text ++ (ws₄ ++ ')' :: is))) := by
      intro c hc
      rw [List.head?_append_of_ne_nil _ h₃.2] at hc
      exact isSpace_of_blank h₃.1 hc
    have hentry := Reads.list (ReadsList.cons ((reads_varName i hended).skip h₂)
      (ReadsList.cons (he.skip h₃.1) (ReadsList.nil h₄ is)))
    refine ⟨_ :: es, ReadsList.cons (hentry.skip h₁) hes, congrArg (· + 1) hlen, ?_⟩
    intro k
    cases k with
    | zero =>
      show (if varName i = varName i then valueOf clBv e else none).map toUnsigned = _
      rw [if_pos rfl, hvalue]
      rfl
    | succ k =>
      have hk := hvalues k
      rwa [show i + 1 + k = i + (k + 1) by omega] at hk

/-! ## The loop -/

/-- The first `k` places have their values after `k` rounds. -/
theorem foldlM_modelStep {l : List SExpr} {res : List Nat} (hlen : res.length = vs.length)
    (h : ∀ k, (l[k]?.bind (entryValue clBv k)).map toUnsigned = vs[k]?) {k : Nat}
    (hk : k ≤ vs.length) :
    (List.range k).foldlM (modelStep clBv l) res = some (vs.take k ++ res.drop k) := by
  induction k with
  | zero => rfl
  | succ k ih =>
    have hkv : k < vs.length := hk
    rw [List.range_succ, List.foldlM_append, ih (by omega)]
    show ((modelStep clBv l (vs.take k ++ res.drop k) k).bind fun res => some res) = _
    have hround := h k
    rw [List.getElem?_eq_getElem hkv] at hround
    obtain ⟨n, hn, hv⟩ := Option.map_eq_some_iff.mp hround
    obtain ⟨e, he, hn⟩ := Option.bind_eq_some_iff.mp hn
    have htake : (vs.take k).length = k := List.length_take_of_le (by omega)
    rw [modelStep, he, Option.bind_some, hn, Option.bind_some, hv, assign, if_pos
      (by rw [List.length_append, htake, List.length_drop]; omega), Option.bind_some,
      List.set_append_right _ _ (by omega), htake, Nat.sub_self,
      List.drop_eq_getElem_cons (by omega), List.set_cons_zero,
      List.take_succ_eq_append_getElem hkv, List.append_assoc]
    rfl

/-- With a place for each variable the values are read back. -/
theorem readModel_eq {out : List Char} {res : List Nat} (h : Answer clBv vs out rest)
    (hsize : ∀ v ∈ vs, v < 2 ^ 32) (hlen : res.length = vs.length) :
    readModel clBv vs.length res out = some (vs, rest) := by
  obtain ⟨ws, is, hws, rfl, hentries⟩ := h
  obtain ⟨es, hes, _, hvalues⟩ := hentries.reads hsize
  have hread := ((Reads.list hes).skip hws).read
  simp only [Nat.zero_add] at hvalues
  rw [readModel, hread]
  show ((List.range vs.length).foldlM (modelStep clBv es) res).map _ = _
  rw [foldlM_modelStep hlen hvalues le_rfl, List.take_length, ← hlen, List.drop_length,
    List.append_nil]
  rfl

/-- The result has a place for each variable, with its value in the answer. -/
def Faithful (clBv : Bool) (noVars : Nat) (out : List Char) (vs : List Nat) : Prop :=
  ∃ res rest, getModel clBv noVars out = some (res, rest) ∧ res.length = noVars ∧
    ∀ i, i < noVars → res[i]? = vs[i]?

/-- No value is stored in a vector without places. -/
theorem getModel_eq_none (clBv : Bool) (noVars : Nat) (out : List Char) :
    getModel clBv (noVars + 1) out = none := by
  have hfirst : ∀ l : List SExpr, modelStep clBv l [] 0 = none := by
    intro l
    unfold modelStep
    cases l[0]? with
    | none => rfl
    | some e =>
      rw [Option.bind_some]
      cases entryValue clBv 0 e with
      | none => rfl
      | some n => rfl
  unfold getModel readModel
  cases SExpr.read out with
  | error err => rfl
  | ok p =>
    obtain ⟨e, rest⟩ := p
    cases e with
    | token name => rfl
    | int n => rfl
    | list l =>
      show ((List.range (noVars + 1)).foldlM (modelStep clBv l) []).map _ = none
      rw [List.range_succ_eq_map, List.foldlM_cons, hfirst]
      rfl

/-- The model is read back only if there are no variables: `reserve` makes no places in the
vector that the values are stored into. -/
theorem faithful_iff {noVars : Nat} {out : List Char} (h : Answer clBv vs out rest)
    (hlen : vs.length = noVars) : Faithful clBv noVars out vs ↔ noVars = 0 := by
  constructor
  · rintro ⟨res, rest', hget, _⟩
    cases noVars with
    | zero => rfl
    | succ n =>
      rw [getModel_eq_none] at hget
      cases hget
  · rintro rfl
    have hnil : vs = [] := List.length_eq_zero_iff.mp hlen
    subst hnil
    exact ⟨[], rest, readModel_eq h nofun rfl, rfl, fun i hi => absurd hi (Nat.not_lt_zero i)⟩

/-- The answer `()` for no variables. -/
theorem faithful_empty : Faithful false 0 ['(', ')'] [] := by
  have hnone : Entries false [] 0 [] [')'] := Entries.nil blank_nil
  exact (faithful_iff ⟨[], [')'], blank_nil, rfl, hnone⟩ rfl).mpr rfl

/-- The answer `((e0 0))`. -/
theorem not_faithful_single :
    Answer false [0] ['(', '(', 'e', '0', ' ', '0', ')', ')'] [] ∧
      ¬ Faithful false 1 ['(', '(', 'e', '0', ' ', '0', ')', ')'] [0] := by
  constructor
  · have hdigits : Digits 10 ['0'] := by
      refine ⟨List.cons_ne_nil _ _, fun c hc => ?_⟩
      rw [List.mem_singleton.mp hc]
      rfl
    have hzero : Numeral.Accepted false (.decimal ['0']) := hdigits
    have hnone : Entries false [] 1 [] [')'] := Entries.nil blank_nil
    have hone := Entries.cons (i := 0) hzero blank_nil blank_nil ⟨blank_space, List.cons_ne_nil _ _⟩
      blank_nil hnone
    exact ⟨[], _, blank_nil, rfl, hone⟩
  · rintro ⟨res, rest, hget, _⟩
    rw [getModel_eq_none] at hget
    cases hget

end ViEqui.Smt
