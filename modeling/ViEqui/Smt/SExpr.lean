import Mathlib.Data.Nat.Digits.Defs
import Mathlib.Data.Int.Order.Basic
import Mathlib.Data.List.DropRight
import Mathlib.Data.List.TakeWhile

/-!
# The parser of the solver's answers

`operator>>` of `src/SExpr.cpp`: the text that is left in the stream is a list of
characters, and a stream that has failed is one without characters.  The parser takes fuel,
and `read` is the parser with enough of it.

* `parse_read`: the fuel of `read` is enough for every text.
* `Reads`: what the parser reads, whatever the fuel, from the parts of a text.
-/

namespace ViEqui.Smt

/-- `SExpr`. -/
inductive SExpr where
  | token (name : List Char)
  | int (value : Int)
  | list (elems : List SExpr)

/-! ## Characters and numbers -/

/-- `std::isspace`: the blank, and the characters from the tabulator to the carriage
return. -/
def isSpace (c : Char) : Bool := c = ' ' || (9 ≤ c.toNat && c.toNat ≤ 13)

/-- `endoftok`, for a character. -/
def endOfTok (c : Char) : Bool := isSpace c || c = ')' || c = '('

/-- `std::ws`. -/
def skipSpaces (is : List Char) : List Char := is.dropWhile isSpace

/-- The value of a character as a digit. -/
def digit? (base : Nat) (c : Char) : Option Nat :=
  let d :=
    if '0'.toNat ≤ c.toNat ∧ c.toNat ≤ '9'.toNat then c.toNat - '0'.toNat
    else if 'a'.toNat ≤ c.toNat ∧ c.toNat ≤ 'z'.toNat then c.toNat - 'a'.toNat + 10
    else if 'A'.toNat ≤ c.toNat ∧ c.toNat ≤ 'Z'.toNat then c.toNat - 'A'.toNat + 10
    else base
  if d < base then some d else none

/-- The digits at the start of a text. -/
def digits (base : Nat) : List Char → List Nat
  | [] => []
  | c :: s => match digit? base c with
    | some d => d :: digits base s
    | none => []

/-- The text starts with `0x` and a digit. -/
def hexPrefix : List Char → Bool
  | c :: x :: d :: _ => c = '0' && (x = 'x' || x = 'X') && (digit? 16 d).isSome
  | _ => false

/-- A number as a `long`, with the end of the range where it is out of range. -/
def toLong (n : Int) : Int := max (-2 ^ 63) (min n (2 ^ 63 - 1))

/-- `strtol`: the number, and how many characters it has; none if there is no number. -/
def strtol (base : Nat) (s : List Char) : Int × Nat :=
  let blanks := (s.takeWhile isSpace).length
  let s := s.drop blanks
  let signs := if s.head? = some '-' ∨ s.head? = some '+' then 1 else 0
  let start := if base = 16 ∧ hexPrefix (s.drop signs) then signs + 2 else signs
  let ds := digits base (s.drop start)
  let n : Int := (Nat.ofDigits base ds.reverse : Nat)
  if ds = [] then (0, 0)
  else (toLong (if s.head? = some '-' then -n else n), blanks + start + ds.length)

/-- A `long` as an `int`. -/
def toInt (n : Int) : Int := n.bmod (2 ^ 32)

/-! ## Texts of digits -/

/-- A text of digits. -/
structure Digits (base : Nat) (s : List Char) : Prop where
  ne_nil : s ≠ []
  digit : ∀ c ∈ s, (digit? base c).isSome

/-- The number that a text of digits stands for. -/
def value (base : Nat) (s : List Char) : Nat := Nat.ofDigits base (digits base s).reverse

/-- The characters that can be digits. -/
theorem toNat_of_digit? {base : Nat} {c : Char} (h : (digit? base c).isSome) :
    (48 ≤ c.toNat ∧ c.toNat ≤ 57) ∨ (97 ≤ c.toNat ∧ c.toNat ≤ 122) ∨
      (65 ≤ c.toNat ∧ c.toNat ≤ 90) := by
  by_contra hnot
  rw [not_or, not_or] at hnot
  have hdigit : ¬ ('0'.toNat ≤ c.toNat ∧ c.toNat ≤ '9'.toNat) := hnot.1
  have hlower : ¬ ('a'.toNat ≤ c.toNat ∧ c.toNat ≤ 'z'.toNat) := hnot.2.1
  have hupper : ¬ ('A'.toNat ≤ c.toNat ∧ c.toNat ≤ 'Z'.toNat) := hnot.2.2
  unfold digit? at h
  simp only [hdigit, hlower, hupper, if_false, lt_irrefl] at h
  cases h

variable {base : Nat} {s : List Char}

theorem length_digits (h : ∀ c ∈ s, (digit? base c).isSome) :
    (digits base s).length = s.length := by
  induction s with
  | nil => rfl
  | cons c s ih =>
    obtain ⟨d, hd⟩ := Option.isSome_iff_exists.mp (h c List.mem_cons_self)
    rw [digits, hd]
    show (d :: digits base s).length = _
    rw [List.length_cons, ih fun c' hc' => h c' (List.mem_cons_of_mem _ hc'), List.length_cons]

/-- No sign, no white space and no second character `x` in a text of digits. -/
theorem Digits.hexPrefix_eq (h : Digits base s) (hbase : base ≤ 16) : hexPrefix s = false := by
  match s, h with
  | [], _ => rfl
  | [_], _ => rfl
  | [_, _], _ => rfl
  | c :: x :: d :: s, h =>
    have hx := h.digit x (by simp)
    rw [hexPrefix]
    have hne : (x = 'x' || x = 'X') = false := by
      rw [Bool.eq_false_iff]
      intro heq
      rw [Bool.or_eq_true, decide_eq_true_iff, decide_eq_true_iff] at heq
      rcases heq with rfl | rfl
      · have hnone : digit? base 'x' = none := if_neg (by show ¬ 33 < base; omega)
        rw [hnone] at hx
        cases hx
      · have hnone : digit? base 'X' = none := if_neg (by show ¬ 33 < base; omega)
        rw [hnone] at hx
        cases hx
    rw [hne, Bool.and_false, Bool.false_and]

/-- All of a text of digits is a number. -/
theorem Digits.strtol_eq (h : Digits base s) (hbase : base ≤ 16) :
    strtol base s = (toLong (value base s), s.length) := by
  have hlen := length_digits h.digit
  have hpos := List.length_pos_of_ne_nil h.ne_nil
  have hfirst : ∀ c ∈ s.head?, isSpace c = false ∧ c ≠ '-' ∧ c ≠ '+' := by
    intro c hc
    have hnum := toNat_of_digit? (h.digit c (List.mem_of_mem_head? hc))
    refine ⟨?_, ?_, ?_⟩
    · rw [isSpace, Bool.or_eq_false_iff]
      constructor
      · rw [decide_eq_false_iff_not]
        rintro rfl
        revert hnum
        decide
      · rw [Bool.and_eq_false_iff, decide_eq_false_iff_not, decide_eq_false_iff_not]
        omega
    · rintro rfl
      revert hnum
      decide
    · rintro rfl
      revert hnum
      decide
  have hblanks : s.takeWhile isSpace = [] := by
    cases s with
    | nil => rfl
    | cons c s => exact List.takeWhile_cons_of_neg (by simp [(hfirst c rfl).1])
  have hminus : s.head? ≠ some '-' := fun hc => (hfirst _ hc).2.1 rfl
  have hplus : s.head? ≠ some '+' := fun hc => (hfirst _ hc).2.2 rfl
  have hdigits : digits base s ≠ [] := by
    intro hnil
    rw [hnil, List.length_nil] at hlen
    omega
  unfold strtol
  rw [hblanks]
  simp only [List.length_nil, List.drop_zero, hminus, hplus, or_self, if_false,
    h.hexPrefix_eq hbase, Bool.false_eq_true, and_false, hdigits, hlen, Nat.zero_add]
  rfl

/-! ## The parser -/

inductive ParseError where
  | eof
  | unmatched
deriving DecidableEq, Repr

/-- What a parser gives: nothing without fuel, an exception, or a value with the text that
is left. -/
abbrev Parsed (α : Type) := Option (Except ParseError (α × List Char))

/-- One parser after another. -/
def Parsed.andThen {α β : Type} (x : Parsed α) (f : α → List Char → Parsed β) : Parsed β :=
  match x with
  | none => none
  | some (.error err) => some (.error err)
  | some (.ok p) => f p.1 p.2

/-- A word is a number if all of it is one. -/
def ofWord (str : List Char) : SExpr :=
  if (strtol 10 str).2 ≠ str.length then .token str else .int (toInt (strtol 10 str).1)

mutual

/-- `operator>>`: what is read, and the text that is left. -/
def parse : Nat → List Char → Parsed SExpr
  | 0, _ => none
  | fuel + 1, is =>
    match skipSpaces is with
    | [] => some (.error .eof)
    | c :: is =>
      if c = ')' then some (.error .unmatched)
      else if c = '(' then (parseList fuel is).andThen fun es is => some (.ok (.list es, is))
      else some (.ok (ofWord (c :: is.takeWhile (!endOfTok ·)), is.dropWhile (!endOfTok ·)))

/-- The loop of `operator>>` over the elements of a list. -/
def parseList : Nat → List Char → Parsed (List SExpr)
  | 0, _ => none
  | fuel + 1, is =>
    if (skipSpaces is).head? = some ')' then some (.ok ([], (skipSpaces is).tail))
    else (parse fuel (skipSpaces is)).andThen fun e is =>
      (parseList fuel is).andThen fun es is => some (.ok (e :: es, is))

end

/-- The parser with enough fuel. -/
def SExpr.read (is : List Char) : Except ParseError (SExpr × List Char) :=
  (parse (2 * is.length + 1) is).getD (.error .eof)

/-! ## Fuel -/

section Fuel

variable {α β : Type} {x : Parsed α} {f : α → List Char → Parsed β}

theorem Parsed.andThen_eq_ok {p : β × List Char} (h : x.andThen f = some (.ok p)) :
    ∃ a is, x = some (.ok (a, is)) ∧ f a is = some (.ok p) := by
  cases x with
  | none => cases h
  | some r =>
    cases r with
    | error err => cases h
    | ok q => exact ⟨q.1, q.2, rfl, h⟩

/-- More fuel for the parts does not change a result. -/
theorem Parsed.andThen_mono {y : Parsed α} {g : α → List Char → Parsed β}
    {r : Except ParseError (β × List Char)} (h : x.andThen f = some r)
    (hx : ∀ r, x = some r → y = some r) (hf : ∀ a is r, f a is = some r → g a is = some r) :
    y.andThen g = some r := by
  cases x with
  | none => cases h
  | some q =>
    rw [hx q rfl]
    cases q with
    | error err => exact h
    | ok q => exact hf _ _ _ h

end Fuel

variable {is rest : List Char} {e : SExpr} {es : List SExpr} {n m : Nat}

theorem length_skipSpaces_le (is : List Char) : (skipSpaces is).length ≤ is.length :=
  List.length_dropWhile_le _ _

/-- What is read has at least one character. -/
theorem parse_shorter (n : Nat) :
    (∀ is e rest, parse n is = some (.ok (e, rest)) → rest.length < is.length) ∧
      ∀ is es rest, parseList n is = some (.ok (es, rest)) → rest.length < is.length := by
  induction n with
  | zero =>
    constructor
    · intro is e rest h
      rw [parse] at h
      cases h
    · intro is es rest h
      rw [parseList] at h
      cases h
  | succ n ih =>
    constructor
    · intro is e rest h
      rw [parse] at h
      have hle := length_skipSpaces_le is
      cases hskip : skipSpaces is with
      | nil =>
        rw [hskip] at h
        cases h
      | cons c is' =>
        rw [hskip] at h hle
        dsimp only at h
        rw [List.length_cons] at hle
        split_ifs at h with hclose hopen
        · cases h
        · obtain ⟨es, rest', hlist, heq⟩ := Parsed.andThen_eq_ok h
          cases heq
          have := ih.2 is' es rest hlist
          omega
        · cases h
          have := List.length_dropWhile_le (!endOfTok ·) is'
          omega
    · intro is es rest h
      rw [parseList] at h
      have hle := length_skipSpaces_le is
      split_ifs at h with hclose
      · cases h
        have hne : skipSpaces is ≠ [] := by
          intro hnil
          rw [hnil] at hclose
          cases hclose
        have := List.length_pos_of_ne_nil hne
        rw [List.length_tail]
        omega
      · obtain ⟨e, is', hparse, h⟩ := Parsed.andThen_eq_ok h
        obtain ⟨es', rest', hlist, heq⟩ := Parsed.andThen_eq_ok h
        cases heq
        have hfirst := ih.1 _ e is' hparse
        have hrest := ih.2 _ es' rest hlist
        omega

/-- More fuel does not change what is read. -/
theorem parse_succ (n : Nat) :
    (∀ is r, parse n is = some r → parse (n + 1) is = some r) ∧
      ∀ is r, parseList n is = some r → parseList (n + 1) is = some r := by
  induction n with
  | zero =>
    constructor
    · intro is r h
      rw [parse] at h
      cases h
    · intro is r h
      rw [parseList] at h
      cases h
  | succ n ih =>
    constructor
    · intro is r h
      rw [parse] at h ⊢
      cases hskip : skipSpaces is with
      | nil =>
        rw [hskip] at h
        exact h
      | cons c is' =>
        rw [hskip] at h
        dsimp only at h ⊢
        split_ifs at h ⊢ with hclose hopen
        · exact h
        · exact Parsed.andThen_mono h (ih.2 is') fun _ _ _ => id
        · exact h
    · intro is r h
      rw [parseList] at h ⊢
      split_ifs at h ⊢ with hclose
      · exact h
      · apply Parsed.andThen_mono h (ih.1 _)
        intro e is' r h
        exact Parsed.andThen_mono h (ih.2 is') fun _ _ _ => id

theorem parse_mono (h : n ≤ m) {r : Except ParseError (SExpr × List Char)}
    (hparse : parse n is = some r) : parse m is = some r := by
  induction h with
  | refl => exact hparse
  | step _ ih => exact (parse_succ _).1 is r ih

theorem parseList_mono (h : n ≤ m) {r : Except ParseError (List SExpr × List Char)}
    (hparse : parseList n is = some r) : parseList m is = some r := by
  induction h with
  | refl => exact hparse
  | step _ ih => exact (parse_succ _).2 is r ih

theorem Parsed.andThen_isSome {α β : Type} {x : Parsed α} {f : α → List Char → Parsed β}
    (hx : x.isSome) (hf : ∀ a is, x = some (.ok (a, is)) → (f a is).isSome) :
    (x.andThen f).isSome := by
  cases x with
  | none => cases hx
  | some r =>
    cases r with
    | error err => rfl
    | ok p => exact hf p.1 p.2 rfl

/-- Fuel for each character is enough. -/
theorem parse_isSome (n : Nat) :
    (∀ is : List Char, 2 * is.length + 1 ≤ n → (parse n is).isSome) ∧
      ∀ is : List Char, 2 * is.length + 2 ≤ n → (parseList n is).isSome := by
  induction n with
  | zero => exact ⟨fun is h => by omega, fun is h => by omega⟩
  | succ n ih =>
    constructor
    · intro is h
      rw [parse]
      have hle := length_skipSpaces_le is
      cases hskip : skipSpaces is with
      | nil => rfl
      | cons c is' =>
        rw [hskip, List.length_cons] at hle
        dsimp only
        split_ifs with hclose hopen
        · rfl
        · exact Parsed.andThen_isSome (ih.2 is' (by omega)) fun _ _ _ => rfl
        · rfl
    · intro is h
      rw [parseList]
      have hle := length_skipSpaces_le is
      split_ifs with hclose
      · rfl
      · apply Parsed.andThen_isSome (ih.1 _ (by omega))
        intro e is' hparse
        have hshort := (parse_shorter n).1 _ e is' hparse
        exact Parsed.andThen_isSome (ih.2 is' (by omega)) fun _ _ _ => rfl

/-- The parser terminates on every text, with a value or an exception. -/
theorem parse_read (is : List Char) : parse (2 * is.length + 1) is = some (SExpr.read is) := by
  obtain ⟨r, hr⟩ := Option.isSome_iff_exists.mp ((parse_isSome _).1 is le_rfl)
  rw [SExpr.read, hr]
  rfl

theorem read_of_parse {r : Except ParseError (SExpr × List Char)} (h : parse n is = some r) :
    SExpr.read is = r := by
  have hread := parse_mono (le_max_left _ n) (parse_read is)
  rw [parse_mono (le_max_right (2 * is.length + 1) n) h] at hread
  exact (Option.some.inj hread).symm

/-! ## What is read from the parts of a text -/

/-- White space. -/
def Blank (ws : List Char) : Prop := ∀ c ∈ ws, isSpace c = true

/-- A word: no white space and no parentheses. -/
structure Word (str : List Char) : Prop where
  ne_nil : str ≠ []
  inside : ∀ c ∈ str, endOfTok c = false

/-- The text does not go on with the same word. -/
def Ended (rest : List Char) : Prop := ∀ c ∈ rest.head?, endOfTok c = true

/-- A value is read from the text. -/
def Reads (is : List Char) (e : SExpr) (rest : List Char) : Prop :=
  ∃ n, parse n is = some (.ok (e, rest))

/-- The elements of a list, and the parenthesis behind them, are read from the text. -/
def ReadsList (is : List Char) (es : List SExpr) (rest : List Char) : Prop :=
  ∃ n, parseList n is = some (.ok (es, rest))

theorem Reads.read (h : Reads is e rest) : SExpr.read is = .ok (e, rest) := by
  obtain ⟨n, hn⟩ := h
  exact read_of_parse hn

variable {ws str : List Char}

theorem skipSpaces_append (hws : Blank ws) (is : List Char) :
    skipSpaces (ws ++ is) = skipSpaces is := by
  unfold skipSpaces
  rw [List.dropWhile_append, List.dropWhile_eq_nil_iff.mpr hws]
  rfl

theorem skipSpaces_of_head {c : Char} (hc : isSpace c = false) (is : List Char) :
    skipSpaces (c :: is) = c :: is := List.dropWhile_cons_of_neg (by simpa using hc)

theorem parse_skipSpaces (n : Nat) (is : List Char) : parse n (skipSpaces is) = parse n is := by
  have hidem : skipSpaces (skipSpaces is) = skipSpaces is := List.dropWhile_idempotent _ _
  cases n with
  | zero => rw [parse, parse]
  | succ n => rw [parse, parse, hidem]

/-- White space in front is skipped. -/
theorem Reads.skip (h : Reads is e rest) (hws : Blank ws) : Reads (ws ++ is) e rest := by
  obtain ⟨n, hn⟩ := h
  refine ⟨n, ?_⟩
  rwa [← parse_skipSpaces, skipSpaces_append hws, parse_skipSpaces]

theorem Word.span (h : Word str) (hrest : Ended rest) :
    (str ++ rest).takeWhile (!endOfTok ·) = str ∧ (str ++ rest).dropWhile (!endOfTok ·) = rest := by
  have hall : ∀ c ∈ str, (!endOfTok c) = true := by
    intro c hc
    rw [h.inside c hc]
    rfl
  have hstop : rest.takeWhile (!endOfTok ·) = [] ∧ rest.dropWhile (!endOfTok ·) = rest := by
    cases rest with
    | nil => exact ⟨rfl, rfl⟩
    | cons c rest =>
      have hc : endOfTok c = true := hrest c rfl
      constructor
      · exact List.takeWhile_cons_of_neg (by simp [hc])
      · exact List.dropWhile_cons_of_neg (by simp [hc])
  rw [List.takeWhile_append_of_pos hall, List.dropWhile_append_of_pos hall, hstop.1, hstop.2,
    List.append_nil]
  exact ⟨rfl, rfl⟩

theorem Reads.word (h : Word str) (hrest : Ended rest) : Reads (str ++ rest) (ofWord str) rest := by
  obtain ⟨htake, hdrop⟩ := h.span hrest
  refine ⟨1, ?_⟩
  cases str with
  | nil => exact absurd rfl h.ne_nil
  | cons c str =>
    have hc : endOfTok c = false := h.inside c List.mem_cons_self
    have hparts := hc
    simp only [endOfTok, Bool.or_eq_false_iff, decide_eq_false_iff_not] at hparts
    have hmore : (!endOfTok c) = true := by rw [hc]; rfl
    rw [List.cons_append] at htake hdrop ⊢
    rw [List.takeWhile_cons_of_pos (p := (!endOfTok ·)) hmore] at htake
    rw [List.dropWhile_cons_of_pos (p := (!endOfTok ·)) hmore] at hdrop
    rw [parse, skipSpaces_of_head hparts.1.1]
    dsimp only
    rw [if_neg hparts.1.2, if_neg hparts.2, htake, hdrop]

theorem Reads.list (h : ReadsList is es rest) : Reads ('(' :: is) (.list es) rest := by
  obtain ⟨n, hn⟩ := h
  refine ⟨n + 1, ?_⟩
  rw [parse, skipSpaces_of_head (by decide)]
  dsimp only
  rw [if_neg (by decide), if_pos rfl, hn]
  rfl

theorem ReadsList.nil (hws : Blank ws) (rest : List Char) :
    ReadsList (ws ++ ')' :: rest) [] rest := by
  refine ⟨1, ?_⟩
  rw [parseList, skipSpaces_append hws, skipSpaces_of_head (by decide)]
  exact if_pos rfl

theorem ReadsList.cons {is' : List Char} (h : Reads is e is') (hlist : ReadsList is' es rest) :
    ReadsList is (e :: es) rest := by
  obtain ⟨n, hn⟩ := h
  obtain ⟨m, hm⟩ := hlist
  have hopen : (skipSpaces is).head? ≠ some ')' := by
    -- a parenthesis makes the parser throw
    intro hclose
    cases n with
    | zero =>
      rw [parse] at hn
      cases hn
    | succ n =>
      rw [parse] at hn
      cases hskip : skipSpaces is with
      | nil =>
        rw [hskip] at hclose
        cases hclose
      | cons c is'' =>
        rw [hskip] at hclose hn
        cases hclose
        cases hn
  refine ⟨max n m + 1, ?_⟩
  rw [parseList, if_neg hopen, parse_skipSpaces, parse_mono (le_max_left n m) hn]
  show (parseList (max n m) is').andThen (fun es is => some (.ok (e :: es, is))) = _
  rw [parseList_mono (le_max_right n m) hm]
  rfl

end ViEqui.Smt
