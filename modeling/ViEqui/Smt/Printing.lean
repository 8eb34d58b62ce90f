import ViEqui.Smt.GetModel

/-!
# Printed expressions

`operator<<` of `src/SExpr.cpp`.  What it prints is read back by the parser, where a word or
the end of a list cannot run into what follows.

* `Plain`: the expressions that are printed without loss.
* `reads_print`: by induction on an expression, what is printed is read back.
-/

namespace ViEqui.Smt

/-! ## The printer -/

/-- An `int` in decimal notation. -/
def intText (n : Int) : List Char :=
  if n < 0 then '-' :: Nat.toDigits 10 n.natAbs else Nat.toDigits 10 n.natAbs

mutual

/-- `operator<<`. -/
def SExpr.print : SExpr → List Char
  | .token name => name
  | .int value => intText value
  | .list elems => '(' :: (printElems elems ++ [')'])

/-- The loop of `operator<<` over the elements of a list. -/
def printElems : List SExpr → List Char
  | [] => []
  | e :: es => e.print ++ if es.isEmpty then [] else ' ' :: printElems es

end

/-- A decimal integer: digits, and a sign or none in front. -/
inductive Decimal : List Char → Prop where
  | digits {s : List Char} : Digits 10 s → Decimal s
  | minus {s : List Char} : Digits 10 s → Decimal ('-' :: s)
  | plus {s : List Char} : Digits 10 s → Decimal ('+' :: s)

/-- Tokens are words that are not decimal integers, and numbers are in the range of `int`. -/
inductive SExpr.Plain : SExpr → Prop where
  | token {name : List Char} : Word name → ¬ Decimal name → Plain (.token name)
  | int {value : Int} : -2 ^ 31 ≤ value → value < 2 ^ 31 → Plain (.int value)
  | list {elems : List SExpr} : (∀ e ∈ elems, Plain e) → Plain (.list elems)

/-! ## Numbers -/

variable {base : Nat} {s name rest is ws : List Char} {n : Int} {es : List SExpr} {e : SExpr}

theorem digits_append (h : ∀ c ∈ s, (digit? base c).isSome) (is : List Char) :
    digits base (s ++ is) = digits base s ++ digits base is := by
  induction s with
  | nil => rfl
  | cons c s ih =>
    obtain ⟨d, hd⟩ := Option.isSome_iff_exists.mp (h c List.mem_cons_self)
    have hrest := ih fun c' hc' => h c' (List.mem_cons_of_mem _ hc')
    rw [List.cons_append, digits, digits, hd]
    exact congrArg (d :: ·) hrest

theorem digits_toDigits (n : Nat) : Digits 10 (Nat.toDigits 10 n) :=
  ⟨Nat.toDigits_ne_nil, fun _ hc =>
    digit?_of_isDigit (Nat.isDigit_of_mem_toDigits (by omega) (by omega) hc)⟩

theorem digit?_digitChar {d : Nat} (h : d < 10) : digit? 10 (Nat.digitChar d) = some d := by
  have hall : ∀ d < 10, digit? 10 (Nat.digitChar d) = some d := by decide
  exact hall d h

/-- The digits of a number stand for it. -/
theorem value_toDigits (n : Nat) : value 10 (Nat.toDigits 10 n) = n := by
  induction n using Nat.strong_induction_on with
  | h n ih =>
    by_cases hn : n < 10
    · rw [Nat.toDigits_of_lt_base hn, value, digits, digit?_digitChar hn]
      show Nat.ofDigits 10 [n] = n
      rw [Nat.ofDigits_singleton]
    · have hlast : n % 10 < 10 := Nat.mod_lt n (by omega)
      have hfirst := ih (n / 10) (by omega)
      rw [Nat.toDigits_of_base_le (by omega) (by omega), value,
        digits_append (digits_toDigits _).digit, digits, digit?_digitChar hlast]
      show Nat.ofDigits 10 (digits 10 (Nat.toDigits 10 (n / 10)) ++ [n % 10]).reverse = n
      rw [List.reverse_append, List.reverse_singleton, List.singleton_append, Nat.ofDigits_cons]
      show n % 10 + 10 * value 10 (Nat.toDigits 10 (n / 10)) = n
      rw [hfirst]
      omega

/-- `strtol` at a sign or a digit. -/
theorem strtol_cons {c : Char} (hspace : isSpace c = false) (s : List Char) :
    strtol 10 (c :: s) =
      if c = '-' ∨ c = '+' then
        if digits 10 s = [] then (0, 0)
        else (toLong (if c = '-' then -(value 10 s : Nat) else (value 10 s : Nat)),
          (digits 10 s).length + 1)
      else if digits 10 (c :: s) = [] then (0, 0)
      else (toLong (value 10 (c :: s) : Nat), (digits 10 (c :: s)).length) := by
  have hblanks : (c :: s).takeWhile isSpace = [] := List.takeWhile_cons_of_neg (by simp [hspace])
  unfold strtol value
  rw [hblanks]
  by_cases hsign : c = '-' ∨ c = '+'
  · simp [hsign, Nat.add_comm]
  · have hminus : c ≠ '-' := fun hc => hsign (.inl hc)
    have hplus : c ≠ '+' := fun hc => hsign (.inr hc)
    simp [hminus, hplus]

/-- A sign in front of digits. -/
theorem Digits.strtol_minus (h : Digits 10 s) :
    strtol 10 ('-' :: s) = (toLong (-(value 10 s : Nat)), s.length + 1) := by
  have hlen := length_digits h.digit
  have hpos := List.length_pos_of_ne_nil h.ne_nil
  have hdigits : digits 10 s ≠ [] := by
    intro hnil
    rw [hnil, List.length_nil] at hlen
    omega
  rw [strtol_cons (by decide), if_pos (.inl rfl), if_neg hdigits, if_pos rfl, hlen]

theorem toInt_toLong {n : Int} (hlo : -2 ^ 31 ≤ n) (hhi : n < 2 ^ 31) : toInt (toLong n) = n := by
  have hlong : toLong n = n := by
    unfold toLong
    omega
  rw [hlong, toInt]
  exact Int.bmod_eq_of_le (by omega) (by omega)

/-- The text of an `int` is read as that number. -/
theorem ofWord_intText (hlo : -2 ^ 31 ≤ n) (hhi : n < 2 ^ 31) : ofWord (intText n) = .int n := by
  unfold intText
  split_ifs with hneg
  · have hstrtol := (digits_toDigits n.natAbs).strtol_minus
    have habs : (-(n.natAbs : Nat) : Int) = n := by omega
    rw [value_toDigits, habs] at hstrtol
    rw [ofWord, hstrtol, if_neg (by simp), toInt_toLong hlo hhi]
  · have habs : ((n.natAbs : Nat) : Int) = n := by omega
    rw [ofWord_digits (digits_toDigits _), value_toDigits, habs, toInt_toLong hlo hhi]

theorem word_intText (n : Int) : Word (intText n) := by
  unfold intText
  split_ifs
  · exact (digits_toDigits _).word.cons (by decide)
  · exact (digits_toDigits _).word

/-! ## Tokens -/

/-- A text with as many digits as characters. -/
theorem digit_of_length (h : (digits base s).length = s.length) :
    ∀ c ∈ s, (digit? base c).isSome := by
  induction s with
  | nil => exact fun c hc => absurd hc List.not_mem_nil
  | cons c s ih =>
    rw [digits] at h
    cases hd : digit? base c with
    | none =>
      rw [hd] at h
      cases h
    | some d =>
      rw [hd] at h
      rw [List.forall_mem_cons, hd]
      exact ⟨rfl, ih (Nat.succ_inj.mp h)⟩

/-- Only decimal integers are numbers as a whole. -/
theorem decimal_of_strtol (hword : Word s) (h : (strtol 10 s).2 = s.length) : Decimal s := by
  cases s with
  | nil => exact absurd rfl hword.ne_nil
  | cons c s =>
    have hspace : isSpace c = false := by
      have hc := hword.inside c List.mem_cons_self
      rw [endOfTok, Bool.or_eq_false_iff, Bool.or_eq_false_iff] at hc
      exact hc.1.1
    rw [strtol_cons hspace] at h
    by_cases hsign : c = '-' ∨ c = '+'
    · rw [if_pos hsign] at h
      have hne : digits 10 s ≠ [] := by
        intro hnil
        rw [if_pos hnil] at h
        cases h
      rw [if_neg hne] at h
      have hdigits : Digits 10 s := by
        refine ⟨?_, digit_of_length (Nat.succ_inj.mp h)⟩
        rintro rfl
        exact hne rfl
      rcases hsign with rfl | rfl
      · exact .minus hdigits
      · exact .plus hdigits
    · rw [if_neg hsign] at h
      have hne : digits 10 (c :: s) ≠ [] := by
        intro hnil
        rw [if_pos hnil] at h
        cases h
      rw [if_neg hne] at h
      exact .digits ⟨List.cons_ne_nil _ _, digit_of_length h⟩

theorem ofWord_of_not_decimal (hword : Word name) (h : ¬ Decimal name) :
    ofWord name = .token name :=
  if_pos fun hlen => h (decimal_of_strtol hword hlen)

/-! ## Lists -/

/-- White space before the elements is skipped. -/
theorem ReadsList.skip (h : ReadsList is es rest) (hws : Blank ws) :
    ReadsList (ws ++ is) es rest := by
  obtain ⟨n, hn⟩ := h
  refine ⟨n, ?_⟩
  cases n with
  | zero => exact hn
  | succ n => rwa [parseList, skipSpaces_append hws, ← parseList]

/-- What is printed for the elements is read as far as the end of the list. -/
theorem readsList_print (h : ∀ e ∈ es, ∀ rest, Ended rest → Reads (e.print ++ rest) e rest)
    (rest : List Char) : ReadsList (printElems es ++ ')' :: rest) es rest := by
  induction es with
  | nil => exact ReadsList.nil blank_nil rest
  | cons e es ih =>
    rw [List.forall_mem_cons] at h
    have hrest := ih h.2
    rw [printElems]
    cases es with
    | nil =>
      show ReadsList ((e.print ++ []) ++ ')' :: rest) [e] rest
      rw [List.append_nil]
      exact ReadsList.cons (h.1 _ (Ended.cons rfl rest)) (ReadsList.nil blank_nil rest)
    | cons e' es =>
      show ReadsList ((e.print ++ ' ' :: printElems (e' :: es)) ++ ')' :: rest) _ rest
      rw [List.append_assoc]
      exact ReadsList.cons (h.1 _ (Ended.cons rfl _)) (hrest.skip blank_space)

/-- What is printed is read back, in front of a text that does not go on with a word. -/
theorem reads_print (h : e.Plain) (hrest : Ended rest) : Reads (e.print ++ rest) e rest := by
  induction h generalizing rest with
  | @token name hword hname =>
    have hreads := Reads.word hword hrest
    rwa [ofWord_of_not_decimal hword hname] at hreads
  | @int value hlo hhi =>
    have hreads := Reads.word (word_intText value) hrest
    rwa [ofWord_intText hlo hhi] at hreads
  | @list elems _ ih =>
    have hlist := Reads.list (readsList_print (fun e he rest hrest => ih e he hrest) rest)
    have htext : (SExpr.list elems).print ++ rest = '(' :: (printElems elems ++ ')' :: rest) := by
      rw [SExpr.print, List.cons_append, List.append_assoc]
      rfl
    rw [htext]
    exact hlist

/-- Expressions survive printing and parsing, and the parser terminates on every text. -/
theorem read_print :
    (∀ (e : SExpr) (rest : List Char), e.Plain →
      (∃ c ∈ rest.head?, isSpace c = true ∨ c = ')') →
      SExpr.read (e.print ++ rest) = .ok (e, rest)) ∧
    ∀ is : List Char, ∃ fuel r, parse fuel is = some r ∧ SExpr.read is = r := by
  constructor
  · intro e rest h hrest
    obtain ⟨c, hc, hend⟩ := hrest
    have hended : Ended rest := by
      intro c' hc'
      rw [Option.mem_unique hc' hc, endOfTok]
      rcases hend with hspace | rfl
      · rw [hspace]
        rfl
      · rfl
    exact (reads_print h hended).read
  · intro is
    exact ⟨_, _, parse_read is, rfl⟩

theorem read_print_nested :
    let e : SExpr := .list [.token ['a'], .list [], .int (-5)]
    SExpr.read (e.print ++ [' ', 'x']) = .ok (e, [' ', 'x']) := by
  have htoken : SExpr.Plain (.token ['a']) := by
    refine .token (Word.single (by decide)) ?_
    intro h
    cases h with
    | digits h => exact absurd (h.digit 'a' (List.mem_singleton_self 'a')) (by decide)
  refine read_print.1 _ _ (.list ?_) ⟨' ', rfl, .inl (by decide)⟩
  rw [List.forall_mem_cons, List.forall_mem_cons, List.forall_mem_singleton]
  refine ⟨htoken, .list ?_, .int (by decide) (by decide)⟩
  exact fun e he => absurd he List.not_mem_nil

end ViEqui.Smt
