import ViEqui.Tso.SymEv

/-!
# What an event remembers of an access

An event keeps one `value` for the bytes of a store, and the object
`<block number, offset / size>` for the bytes of an access.

* `value_makeWrite_eq_iff`: the value is the first byte of the block.
* `makeWrite_tellsApart_iff`: when the values tell two stores apart.
* `matchesBytes_iff`, `matchesBytes_iff_of_size_eq`: when the objects tell
  whether two accesses overlap.
* `matchesBytes_classified`: for which sizes and offsets they do.
-/

namespace ViEqui

/-! ## Values -/

namespace Event

theorem value_makeWrite_eq_iff {a a' : SymAddrSize} {w w' : List UInt8} :
    (makeWrite a w).value = (makeWrite a' w').value ↔ w.headD 0 = w'.headD 0 := by
  have hvalue (x : UInt8) : (Int32.ofNat x.toNat).toInt = x.toNat := by
    have := x.toNat_lt
    rw [Int32.toInt_ofNat_of_lt (by omega)]
  show Int32.ofNat _ = Int32.ofNat _ ↔ _
  rw [← Int32.toInt_inj, hvalue, hvalue, Int.ofNat_inj, UInt8.toNat_inj]

/-- Two stores get the same value exactly if they store the same bytes. -/
def TellsApart (a a' : SymAddrSize) (w w' : List UInt8) : Prop :=
  (makeWrite a w).value = (makeWrite a' w').value ↔ w = w'

theorem tellsApart_iff {a a' : SymAddrSize} {w w' : List UInt8} (h : w.length = w'.length) :
    TellsApart a a' w w' ↔ (w.head? = w'.head? → w = w') := by
  have hhead : w.headD 0 = w'.headD 0 ↔ w.head? = w'.head? := by
    cases w with
    | nil =>
      cases w' with
      | nil => simp
      | cons y w' => cases h
    | cons x w =>
      cases w' with
      | nil => cases h
      | cons y w' => simp
  unfold TellsApart
  rw [value_makeWrite_eq_iff, hhead]
  exact ⟨fun h => h.mp, fun h => ⟨h, fun heq => by rw [heq]⟩⟩

/-- The values tell two stores of one size apart exactly if different blocks
differ in their first byte.  For stores of one byte they always do, and for
larger ones not always. -/
theorem makeWrite_tellsApart_iff (a a' : SymAddrSize) (hsize : a.size = a'.size) :
    (∀ w w' : List UInt8, w.length = a.size → w'.length = a'.size →
      (TellsApart a a' w w' ↔ (w.head? = w'.head? → w = w'))) ∧
    ((∀ w w' : List UInt8, w.length = a.size → w'.length = a'.size → TellsApart a a' w w') ↔
      a.size ≤ 1) := by
  refine ⟨fun w w' hw hw' => tellsApart_iff (by rw [hw, hw', hsize]), fun h => ?_,
    fun hle w w' hw hw' => ?_⟩
  · by_contra hlarge
    have hlength (x : UInt8) : (0 :: List.replicate (a.size - 1) x : List UInt8).length =
        a.size := by
      rw [List.length_cons, List.length_replicate]
      omega
    have hapart := h _ _ (hlength 0) ((hlength 1).trans hsize)
    have hsame := (tellsApart_iff ((hlength 0).trans (hlength 1).symm)).mp hapart rfl
    obtain ⟨k, hk⟩ : ∃ k, a.size - 1 = k + 1 := ⟨a.size - 2, by omega⟩
    rw [hk] at hsame
    simp [List.replicate_succ] at hsame
  · refine (tellsApart_iff (by rw [hw, hw', hsize])).mpr fun hhead => ?_
    cases w with
    | nil => exact (List.length_eq_zero_iff.mp (by rw [hw', ← hsize, ← hw]; rfl)).symm
    | cons x w =>
      cases w' with
      | nil => cases hhead
      | cons y w' =>
        rw [List.length_cons] at hw hw'
        have hnil : w = [] := List.length_eq_zero_iff.mp (by omega)
        have hnil' : w' = [] := List.length_eq_zero_iff.mp (by omega)
        rw [hnil, hnil', Option.some.inj hhead]

theorem makeWrite_tellsApart_iff_words :
    (∀ w w' : List UInt8, w.length = 4 → w'.length = 4 →
      (TellsApart ⟨.global 1, 0, 4⟩ ⟨.global 1, 0, 4⟩ w w' ↔ (w.head? = w'.head? → w = w'))) ∧
    ((∀ w w' : List UInt8, w.length = 4 → w'.length = 4 →
        TellsApart ⟨.global 1, 0, 4⟩ ⟨.global 1, 0, 4⟩ w w') ↔ 4 ≤ 1) :=
  makeWrite_tellsApart_iff ⟨.global 1, 0, 4⟩ ⟨.global 1, 0, 4⟩ rfl

/-- The four-byte stores of `0` and `256` have the same value. -/
theorem not_makeWrite_tellsApart :
    ¬∀ (a a' : SymAddrSize) (w w' : List UInt8), objectOf a = objectOf a' →
      a.size = a'.size → w.length = a.size → w'.length = a'.size → TellsApart a a' w w' := by
  intro h
  have hsame := h ⟨.global 1, 0, 4⟩ ⟨.global 1, 0, 4⟩ [0, 0, 0, 0] [0, 1, 0, 0] rfl rfl rfl rfl
  exact absurd (hsame.mp rfl) (by decide)

end Event

/-! ## Objects -/

namespace Event

/-- The event is made of an access of these bytes. -/
def IsAccess (e : Event) (a : SymAddrSize) : Prop :=
  e = makeRead a ∨ ∃ written, e = makeWrite a written

theorem IsAccess.object {e : Event} {a : SymAddrSize} (h : e.IsAccess a) :
    e.object = objectOf a := by
  rcases h with rfl | ⟨_, rfl⟩ <;> rfl

/-- The events of two accesses have the same object exactly if the accesses
overlap. -/
def MatchesBytes (a b : SymAddrSize) : Prop :=
  ∀ e e' : Event, e.IsAccess a → e'.IsAccess b →
    (e.sameObject e' = true ↔ a.overlaps b = true)

/-- Byte ranges that meet. -/
def Meet (oa sa ob sb : Nat) : Prop := ob < oa + sa ∧ oa < ob + sb

theorem objectOf_eq (n o s : Nat) : objectOf ⟨.global n, o, s⟩ = (n, o / s) := by
  have hno : (SymMBlock.global n).getNo = n := by
    have hpos : ¬(n : Int) < 0 := by omega
    simp [SymMBlock.global, SymMBlock.getNo, hpos]
  unfold objectOf
  rw [hno]
  split
  · next h => simp [show o = 0 from h]
  · rfl

theorem matchesBytes_iff (n m oa sa ob sb : Nat) :
    MatchesBytes ⟨.global n, oa, sa⟩ ⟨.global m, ob, sb⟩ ↔
      (n = m → (oa / sa = ob / sb ↔ Meet oa sa ob sb)) := by
  have hblock : SymMBlock.global n = SymMBlock.global m ↔ n = m := by
    simp only [SymMBlock.global, SymMBlock.mk.injEq, true_and]
    exact Int.ofNat_inj
  have hoverlaps : SymAddrSize.overlaps ⟨.global n, oa, sa⟩ ⟨.global m, ob, sb⟩ = true ↔
      n = m ∧ Meet oa sa ob sb := by
    simp [SymAddrSize.overlaps, Meet, hblock, and_assoc]
  have hsame {e e' : Event} (he : e.IsAccess ⟨.global n, oa, sa⟩)
      (he' : e'.IsAccess ⟨.global m, ob, sb⟩) :
      e.sameObject e' = true ↔ n = m ∧ oa / sa = ob / sb := by
    simp [sameObject, he.object, he'.object, objectOf_eq]
  constructor
  · intro h hnm
    have := h _ _ (.inl rfl) (.inl rfl)
    rw [hsame (.inl rfl) (.inl rfl), hoverlaps] at this
    simpa [hnm] using this
  · intro h e e' he he'
    rw [hsame he he', hoverlaps]
    exact and_congr_right h

/-- An access in an earlier element meets one in a later element of the same size
only across the bound between the two. -/
theorem meet_iff_of_div_lt {oa ob s : Nat} (hs : 0 < s) (hlt : oa / s < ob / s) :
    Meet oa s ob s ↔ ob / s = oa / s + 1 ∧ ob % s < oa % s := by
  have hoa := Nat.div_add_mod oa s
  have hob := Nat.div_add_mod ob s
  have hra := Nat.mod_lt oa hs
  generalize oa / s = i at *
  generalize oa % s = ra at *
  generalize ob % s = rb at *
  obtain ⟨d, hd⟩ := Nat.exists_eq_add_of_lt hlt
  rw [hd, Nat.add_assoc, Nat.mul_add] at hob
  have hj : ob / s = i + 1 ↔ d = 0 := by omega
  have hmeet : Meet oa s ob s ↔ ob < oa + s := and_iff_left (by rw [Nat.mul_succ] at hob; omega)
  rw [hmeet, hj]
  cases d with
  | zero =>
    rw [Nat.mul_one] at hob
    omega
  | succ d =>
    rw [Nat.mul_succ, Nat.mul_succ] at hob
    omega

/-- Two accesses of one size have the same object exactly if they overlap,
unless they lie across the bound between two neighbouring elements: then the
later one starts less far into its element. -/
theorem matchesBytes_iff_of_size_eq (n oa ob : Nat) {s : Nat} (hs : 0 < s) :
    MatchesBytes ⟨.global n, oa, s⟩ ⟨.global n, ob, s⟩ ↔
      (ob / s = oa / s + 1 → oa % s ≤ ob % s) ∧ (oa / s = ob / s + 1 → ob % s ≤ oa % s) := by
  rw [matchesBytes_iff]
  rcases Nat.lt_trichotomy (oa / s) (ob / s) with hlt | heq | hlt
  · have hback : oa / s ≠ ob / s + 1 := by omega
    simp only [meet_iff_of_div_lt hs hlt, Nat.ne_of_lt hlt, hback, forall_const, false_iff,
      false_imp_iff, and_true, not_and, Nat.not_lt]
  · have hmeet : Meet oa s ob s := by
      have hoa := Nat.div_add_mod oa s
      have hob := Nat.div_add_mod ob s
      have hra := Nat.mod_lt oa hs
      have hrb := Nat.mod_lt ob hs
      rw [heq] at hoa
      exact ⟨by omega, by omega⟩
    exact iff_of_true (fun _ => iff_of_true heq hmeet) ⟨fun h => by omega, fun h => by omega⟩
  · have hback : ob / s ≠ oa / s + 1 := by omega
    have hmeet : Meet oa s ob s ↔ Meet ob s oa s := And.comm
    simp only [hmeet, meet_iff_of_div_lt hs hlt, Nat.ne_of_gt hlt, hback, forall_const, false_iff,
      false_imp_iff, true_and, not_and, Nat.not_lt]

/-- Accesses of different sizes: an element of the smaller size overlaps the
first one of the larger size, and is not the first one itself. -/
theorem not_matchesBytes_of_lt (n : Nat) {s t : Nat} (hs : 0 < s) (hst : s < t) :
    ¬MatchesBytes ⟨.global n, s, s⟩ ⟨.global n, 0, t⟩ ∧
      ¬MatchesBytes ⟨.global n, 0, t⟩ ⟨.global n, s, s⟩ := by
  have hdiv : s / s = 1 := Nat.div_self hs
  have hmeet : Meet s s 0 t := ⟨by omega, by omega⟩
  rw [matchesBytes_iff, matchesBytes_iff, hdiv, Nat.zero_div]
  constructor
  · intro h
    exact absurd ((h rfl).mpr hmeet) (by decide)
  · intro h
    exact absurd ((h rfl).mpr hmeet.symm) (by decide)

/-- For which accesses the objects tell whether they overlap: for each pair of
accesses, for two accesses of one size, for all accesses at multiples of their
sizes, and for all accesses. -/
theorem matchesBytes_classified (n m oa sa ob sb : Nat) (hsa : 0 < sa) (hsb : 0 < sb) :
    (MatchesBytes ⟨.global n, oa, sa⟩ ⟨.global m, ob, sb⟩ ↔
      (n = m → (oa / sa = ob / sb ↔ Meet oa sa ob sb))) ∧
    (sa = sb → (MatchesBytes ⟨.global n, oa, sa⟩ ⟨.global n, ob, sb⟩ ↔
      (ob / sa = oa / sa + 1 → oa % sa ≤ ob % sa) ∧
        (oa / sa = ob / sa + 1 → ob % sa ≤ oa % sa))) ∧
    ((∀ x y, sa ∣ x → sb ∣ y → MatchesBytes ⟨.global n, x, sa⟩ ⟨.global n, y, sb⟩) ↔
      sa = sb) ∧
    ((∀ x y, MatchesBytes ⟨.global n, x, sa⟩ ⟨.global n, y, sb⟩) ↔ sa = 1 ∧ sb = 1) := by
  have hsizes (h : ∀ x y, sa ∣ x → sb ∣ y →
      MatchesBytes ⟨.global n, x, sa⟩ ⟨.global n, y, sb⟩) : sa = sb := by
    rcases Nat.lt_trichotomy sa sb with hlt | heq | hlt
    · exact absurd (h sa 0 (Nat.dvd_refl sa) (Nat.dvd_zero sb)) (not_matchesBytes_of_lt n hsa hlt).1
    · exact heq
    · exact absurd (h 0 sb (Nat.dvd_zero sa) (Nat.dvd_refl sb)) (not_matchesBytes_of_lt n hsb hlt).2
  refine ⟨matchesBytes_iff n m oa sa ob sb, ?_, ⟨hsizes, ?_⟩, ?_, ?_⟩
  · intro heq
    subst heq
    exact matchesBytes_iff_of_size_eq n oa ob hsa
  · intro heq x y hx hy
    subst heq
    rw [matchesBytes_iff_of_size_eq n x y hsa, Nat.mod_eq_zero_of_dvd hx,
      Nat.mod_eq_zero_of_dvd hy]
    exact ⟨fun _ => Nat.le_refl 0, fun _ => Nat.le_refl 0⟩
  · intro h
    obtain rfl : sa = sb := hsizes fun x y _ _ => h x y
    refine ⟨?_, ?_⟩ <;>
    · by_contra hne
      -- the access at `1` reaches into the second element
      have hone := (matchesBytes_iff_of_size_eq n 1 sa hsa).mp (h 1 sa)
      have hlt : 1 < sa := by omega
      rw [Nat.div_self hsa, Nat.div_eq_of_lt hlt, Nat.mod_eq_of_lt hlt, Nat.mod_self] at hone
      exact absurd (hone.1 rfl) (by decide)
  · intro ⟨ha, hb⟩ x y
    subst ha hb
    rw [matchesBytes_iff_of_size_eq n x y Nat.one_pos, Nat.mod_one, Nat.mod_one]
    exact ⟨fun _ => Nat.le_refl 0, fun _ => Nat.le_refl 0⟩

theorem matchesBytes_classified_halves :
    (MatchesBytes ⟨.global 1, 2, 2⟩ ⟨.global 1, 0, 4⟩ ↔
      (1 = 1 → (2 / 2 = 0 / 4 ↔ Meet 2 2 0 4))) ∧
    (2 = 4 → (MatchesBytes ⟨.global 1, 2, 2⟩ ⟨.global 1, 0, 4⟩ ↔
      (0 / 2 = 2 / 2 + 1 → 2 % 2 ≤ 0 % 2) ∧ (2 / 2 = 0 / 2 + 1 → 0 % 2 ≤ 2 % 2))) ∧
    ((∀ x y, 2 ∣ x → 4 ∣ y → MatchesBytes ⟨.global 1, x, 2⟩ ⟨.global 1, y, 4⟩) ↔ 2 = 4) ∧
    ((∀ x y, MatchesBytes ⟨.global 1, x, 2⟩ ⟨.global 1, y, 4⟩) ↔ 2 = 1 ∧ 4 = 1) :=
  matchesBytes_classified 1 1 2 2 0 4 (by decide) (by decide)

/-- The second half of a word overlaps the word, and has another object. -/
theorem not_matchesBytes :
    ¬∀ (n m oa sa ob sb : Nat), 0 < sa → 0 < sb →
      MatchesBytes ⟨.global n, oa, sa⟩ ⟨.global m, ob, sb⟩ := by
  intro h
  have hmatches := h 1 1 2 2 0 4 (by decide) (by decide) _ _ (.inl rfl) (.inl rfl)
  exact absurd (hmatches.mpr (by decide)) (by decide)

end Event

end ViEqui
