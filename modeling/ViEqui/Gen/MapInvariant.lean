import ViEqui.Gen.MapAssign
import ViEqui.Gen.MapFamily
import ViEqui.Lib.Sharing

/-!
# The invariant of a family of maps

`Represents` relates a family of maps to the finite maps that it stands for.
The trie of each map is kept under the number of its value, so it moves with
the value.  A map owns the cells of its generation and shares the others with
its source (`Sharing.Linked`), and the counters of the sources count their
copies.

* `Represents.apart`: nobody else reads what a map without copies owns.
* `Represents.change`, `Represents.destroyAt` and `Represents.add` are the
  steps of a change, of destruction and of new maps.
* `Represents.of_places` is for maps that only move.
-/

namespace ViEqui.Gen

open KeyedPairs (Present Distinct)

variable {K T : Type} [BEq K]

/-- The map stands for the finite map, with the trie `t` behind its root. -/
structure Shows (hash : K → BitVec 64) (cells : Heap (Cell K T)) (M : Map)
    (v : Version (List (K × T))) (t : Tree K T) : Prop where
  id : M.debugRefcount = v.id
  source : M.debugParent = v.source
  generation : M.generation = v.generation
  size : M.size = v.contents.length
  small : v.contents.length < 2 ^ 32
  root : M.root = t.ptr
  cells : t.In cells
  sep : t.Sep
  wf : t.Wf (Map.hashKey hash) 0
  items : t.items.Perm v.contents

namespace Shows

variable {hash : K → BitVec 64} {cells cells' : Heap (Cell K T)} {M : Map}
  {v : Version (List (K × T))} {t : Tree K T}

theorem congr (h : Shows hash cells M v t)
    (hsame : ∀ a y, t.Has a y → cells'.read a = cells.read a) :
    Shows hash cells' M v t :=
  { h with cells := h.cells.congr hsame }

/-- The slot of the root. -/
theorem at_root (h : Shows hash cells M v t) : At ⟨cells, M.root⟩ .root t where
  get := congrArg some h.root
  cells := h.cells
  sep := h.sep
  outside := fun a hcell => by cases hcell

theorem root_eq_none_iff (h : Shows hash cells M v t) :
    M.root = none ↔ v.contents = [] := by
  have hnil : v.contents = [] ↔ t.items = [] := by
    constructor
    · intro heq
      have hperm := h.items
      rw [heq] at hperm
      exact hperm.eq_nil
    · intro heq
      have hperm := h.items
      rw [heq] at hperm
      exact hperm.nil_eq.symm
  rw [h.root, hnil]
  have hwf := h.wf
  cases t with
  | chain leaves => cases leaves <;> simp [Tree.ptr, chainPtr, Tree.items]
  | node a g bitmap c =>
    exact ⟨(fun heq => by cases heq), fun heq => absurd heq hwf.items_ne_nil⟩

variable [EquivBEq K] [Inhabited T]

theorem query (hcons : ∀ k k', (k == k') = true →
      Map.hashKey hash k = Map.hashKey hash k')
    (h : Shows hash cells M v t) (q : MapQuery K) :
    M.query hash cells q = some (FiniteMaps.query v.contents q) := by
  have hfind : ∀ k, Map.findValue hash cells M.root k =
      some (KeyedPairs.lookup k v.contents) := by
    intro k
    rw [h.root, Map.findValue_spec hcons h.cells h.sep h.wf,
      (h.wf.distinct hcons).lookup_perm h.items]
  cases q with
  | find k =>
    rw [Map.query, hfind]
    rfl
  | count k =>
    rw [Map.query, hfind]
    rfl
  | atKey k =>
    rw [Map.query, hfind, Option.map_some, FiniteMaps.query]
  | index k =>
    rw [Map.query, hfind]
    rfl
  | size => rw [Map.query, h.size, FiniteMaps.query]
  | forEach =>
    rw [Map.query, FiniteMaps.query]
    cases hroot : M.root with
    | none => rw [h.root_eq_none_iff.mp hroot]
    | some a =>
      have hspec := Map.forEachChild_spec Map.maxLevels h.cells h.sep
        h.wf (h.root.symm.trans hroot) (by unfold Map.maxLevels; omega) (by omega)
      show (Map.forEachChild cells Map.maxLevels a).map _ = _
      rw [hspec, Option.map_some, Multiset.coe_eq_coe.mpr h.items]

end Shows

namespace MapFamily

structure Represents (hash : K → BitVec 64) (F : MapFamily K T)
    (A : FiniteMaps K T) (tree : Nat → Tree K T) : Prop where
  wf : A.Wf
  length : F.maps.length = A.entries.length
  next : F.counts.next = A.nextId
  shows : ∀ i v, A.entry i = some v →
    ∃ M, F.map i = some M ∧ Shows hash F.cells M v (tree v.id)
  dead : ∀ i, A.entry i = none → F.map i = none
  counted : ∀ v, A.Live v → F.counts.read v.id = some (A.copies v.id)
  older : ∀ v, A.Live v → ∀ a y, (tree v.id).Has a y → y ≤ v.generation
  linked : Sharing.Linked A.Live (fun v a => (tree v.id).HasAddr a)
    (fun v a => (tree v.id).Has a v.generation)
    (fun v p => v.source = some p.id) Version.id
  owner : ∀ v w a, A.Live v → A.Live w → (tree v.id).Has a v.generation →
    (tree w.id).Has a w.generation → v = w

variable {hash : K → BitVec 64} {F : MapFamily K T} {A : FiniteMaps K T}
  {tree : Nat → Tree K T}

omit [BEq K] in
theorem map_set {i : Nat} (hi : i < F.maps.length) (cells : Heap (Cell K T))
    (counts : Heap Nat) (x : Option Map) (j : Nat) :
    map { cells := cells, counts := counts, maps := F.maps.set i x } j =
      if j = i then x else F.map j :=
  Places.get_set hi x j

omit [BEq K] in
theorem map_extend (F : MapFamily K T) (j : Nat) : F.extend.map j = F.map j :=
  Places.get_concat_none F.maps j

namespace Represents

theorem shows_of_map (h : Represents hash F A tree) {i : Nat} {M : Map}
    (hi : F.map i = some M) :
    ∃ v, A.entry i = some v ∧ Shows hash F.cells M v (tree v.id) := by
  cases hv : A.entry i with
  | none =>
    rw [h.dead i hv] at hi
    cases hi
  | some v =>
    obtain ⟨N, hN, hshows⟩ := h.shows i v hv
    rw [hi] at hN
    cases hN
    exact ⟨v, rfl, hshows⟩

theorem cells_in (h : Represents hash F A tree) {v : Version (List (K × T))}
    (hv : A.Live v) : (tree v.id).In F.cells := by
  obtain ⟨i, hi⟩ := hv
  obtain ⟨M, _, hshows⟩ := h.shows i v hi
  exact hshows.cells

/-- Nobody else reads the cells of a map without copies. -/
theorem apart (h : Represents hash F A tree) {v w : Version (List (K × T))}
    (hv : A.Live v) (hcopies : A.copies v.id = 0) (hw : A.Live w) (hne : w ≠ v)
    {a y : Nat} (ha : (tree w.id).Has a y) : ¬ (tree v.id).Has a v.generation := by
  refine h.linked.not_owns (v := v) ?_ ?_ hw hne ⟨y, ha⟩
  · intro hcopy
    obtain ⟨x, ⟨j, hj⟩, hsource⟩ := hcopy
    exact Versions.copies_eq_zero_iff.mp hcopies j x hj hsource
  · exact fun u hu hown hownU => h.owner v u a hv hu hown hownU

theorem empty (tree : Nat → Tree K T) : Represents hash {} {} tree where
  wf := Versions.Wf.empty
  length := rfl
  next := rfl
  shows := fun i v hi => by cases hi
  dead := fun _ _ => rfl
  counted := fun v hv => by
    obtain ⟨i, hi⟩ := hv
    cases hi
  older := fun v hv => by
    obtain ⟨i, hi⟩ := hv
    cases hi
  linked := fun v a hv => by
    obtain ⟨i, hi⟩ := hv
    cases hi
  owner := fun v w a hv => by
    obtain ⟨i, hi⟩ := hv
    cases hi

/-- The same values in other places. -/
theorem of_places (h : Represents hash F A tree) {A' : FiniteMaps K T}
    {maps : List (Option Map)} (hwf : A'.Wf)
    (hlength : maps.length = A'.entries.length) (hnext : A'.nextId = A.nextId)
    (hlive : ∀ v, A'.Live v ↔ A.Live v)
    (hcopies : ∀ id, A'.copies id = A.copies id)
    (hmaps : ∀ i, ∃ j, Places.get maps i = F.map j ∧ A'.entry i = A.entry j) :
    Represents hash { F with maps := maps } A' tree where
  wf := hwf
  length := hlength
  next := h.next.trans hnext.symm
  shows := by
    intro i v hi
    obtain ⟨j, hmap, hentry⟩ := hmaps i
    obtain ⟨M, hM, hshows⟩ := h.shows j v (hentry.symm.trans hi)
    exact ⟨M, hmap.trans hM, hshows⟩
  dead := by
    intro i hi
    obtain ⟨j, hmap, hentry⟩ := hmaps i
    exact hmap.trans (h.dead j (hentry.symm.trans hi))
  counted := by
    intro v hv
    rw [hcopies]
    exact h.counted v ((hlive v).mp hv)
  older := fun v hv => h.older v ((hlive v).mp hv)
  linked := by
    intro v a hv ha
    refine (h.linked v a ((hlive v).mp hv) ha).imp id ?_
    intro hshared
    obtain ⟨p, hp, hrest⟩ := hshared
    exact ⟨p, (hlive p).mpr hp, hrest⟩
  owner := fun v w a hv hw => h.owner v w a ((hlive v).mp hv) ((hlive w).mp hw)

theorem extend (h : Represents hash F A tree) :
    Represents hash F.extend A.extend tree := by
  apply h.of_places h.wf.extend
  · show (F.maps ++ [none]).length = (A.entries ++ [none]).length
    rw [List.length_append, List.length_append, h.length]
    rfl
  · rfl
  · exact fun v => Versions.live_extend
  · exact Versions.copies_extend A
  · exact fun i => ⟨i, map_extend F i, Versions.entry_extend A i⟩

/-- Two maps change places. -/
theorem swapAt (h : Represents hash F A tree) {A' : FiniteMaps K T} {i j : Nat}
    (hswap : A.swapAt i j = some A') :
    ∃ F', F.swapAt i j = some F' ∧ Represents hash F' A' tree := by
  obtain ⟨v, w, hi, hj, heq⟩ := Versions.swapAt_eq_some hswap
  subst heq
  obtain ⟨M, hM, _⟩ := h.shows i v hi
  obtain ⟨N, hN, _⟩ := h.shows j w hj
  refine ⟨{ F with maps := (F.maps.set i (some N)).set j (some M) }, ?_, ?_⟩
  · simp only [MapFamily.swapAt, hM, hN, Option.bind_eq_bind, Option.bind_some,
      Option.pure_def]
  have hmap : ∀ l, Places.get ((F.maps.set i (some N)).set j (some M)) l =
      if l = j then some M else if l = i then some N else F.map l := by
    intro l
    have hlen : j < (F.maps.set i (some N)).length := by
      rw [List.length_set]
      exact Places.lt_of_get hN
    rw [Places.get_set hlen, Places.get_set (Places.lt_of_get hM)]
    rfl
  apply h.of_places (h.wf.swap hi hj)
  · show ((F.maps.set i _).set j _).length = ((A.entries.set i _).set j _).length
    rw [List.length_set, List.length_set, List.length_set, List.length_set,
      h.length]
  · rfl
  · exact fun u => Versions.live_swap hi hj
  · exact Versions.copies_swap hi hj
  · intro l
    rw [hmap, Versions.entry_swap hi hj]
    by_cases hlj : l = j
    · exact ⟨i, by rw [if_pos hlj, hM], by rw [if_pos hlj, hi]⟩
    · rw [if_neg hlj, if_neg hlj]
      by_cases hli : l = i
      · exact ⟨j, by rw [if_pos hli, hN], by rw [if_pos hli, hj]⟩
      · exact ⟨l, by rw [if_neg hli], by rw [if_neg hli]⟩

/-! ### A change of one trie -/

section

variable {i : Nat} {M : Map} {v : Version (List (K × T))} {st' : Store K T}
  {t' : Tree K T}

/-- The other maps keep their tries. -/
theorem tree_update (h : Represents hash F A tree) (hv : A.Live v)
    {w : Version (List (K × T))} (hw : A.Live w) (hne : w ≠ v) :
    Function.update tree v.id t' w.id = tree w.id := by
  obtain ⟨i, hi⟩ := hv
  obtain ⟨j, hj⟩ := hw
  exact Function.update_of_ne (fun hid => hne (h.wf.eq_of_id hj hi hid)) _ _

/-- The other maps read the same cells as before. -/
theorem read_change (h : Represents hash F A tree) (hv : A.Live v)
    (hcopies : A.copies v.id = 0)
    (hstep : Step v.generation ⟨F.cells, M.root⟩ .root (tree v.id) st' t')
    {w : Version (List (K × T))} (hw : A.Live w) (hne : w ≠ v) {a y : Nat}
    (ha : (tree w.id).Has a y) : st'.cells.read a = F.cells.read a := by
  obtain ⟨c, hread, _⟩ := (h.cells_in hw).read ha
  have hkept := hstep.kept a c hread (h.apart hv hcopies hw hne ha)
  rw [hread, hkept, if_neg]
  intro hcell
  cases hcell

/-- What the changed map owns, no other map owns. -/
theorem own_change (h : Represents hash F A tree) (hv : A.Live v)
    (hcopies : A.copies v.id = 0)
    (hstep : Step v.generation ⟨F.cells, M.root⟩ .root (tree v.id) st' t')
    {w : Version (List (K × T))} (hw : A.Live w) (hne : w ≠ v) {a : Nat}
    (ha : t'.Has a v.generation) : ¬ (tree w.id).Has a w.generation := by
  intro haw
  cases hstep.own a ha with
  | inl hown => exact h.apart hv hcopies hw hne haw hown
  | inr hdead =>
    obtain ⟨c, hread, _⟩ := (h.cells_in hw).read haw
    have hdead : F.cells.read a = none := hdead
    rw [hread] at hdead
    cases hdead

/-- What the changed map does not own, it shares with its source as before. -/
theorem linked_change (h : Represents hash F A tree) (hv : A.Live v)
    (hstep : Step v.generation ⟨F.cells, M.root⟩ .root (tree v.id) st' t')
    {a : Nat} (ha : t'.HasAddr a) : t'.Has a v.generation ∨
      ∃ p, A.Live p ∧ v.source = some p.id ∧ p.id < v.id ∧
        (tree p.id).HasAddr a := by
  obtain ⟨y, hy⟩ := ha
  by_cases heq : y = v.generation
  · exact Or.inl (heq ▸ hy)
  · right
    have hold := hstep.shared a y hy heq
    refine (h.linked v a hv ⟨y, hold⟩).resolve_left ?_
    intro hown
    exact heq ((h.cells_in hv).generation_unique hold hown)

theorem change (h : Represents hash F A tree) (hi : A.entry i = some v)
    (hM : F.map i = some M) (hcopies : A.copies v.id = 0)
    (hstep : Step v.generation ⟨F.cells, M.root⟩ .root (tree v.id) st' t')
    (hwf : t'.Wf (Map.hashKey hash) 0) {contents : List (K × T)}
    (hitems : t'.items.Perm contents) {size : Nat} (hsize : size = contents.length)
    (hsmall : contents.length < 2 ^ 32) :
    Represents hash
      { F with
        cells := st'.cells
        maps := F.maps.set i (some { M with size := size, root := st'.root }) }
      (A.set i (some { v with contents := contents }))
      (Function.update tree v.id t') := by
  have hv : A.Live v := ⟨i, hi⟩
  have hlt := Versions.lt_of_entry hi
  have hlen : i < F.maps.length := Places.lt_of_get hM
  obtain ⟨M', hM', hshows⟩ := h.shows i v hi
  rw [hM] at hM'
  cases hM'
  have hnew : Function.update tree v.id t' v.id = t' := Function.update_self _ _ _
  have hlive : ∀ w, (A.set i (some { v with contents := contents })).Live w ↔
      w = { v with contents := contents } ∨ A.Live w ∧ w ≠ v :=
    fun w => h.wf.live_put hi
  constructor
  · exact h.wf.put hi contents
  · show (F.maps.set i _).length = (A.entries.set i _).length
    rw [List.length_set, List.length_set, h.length]
  · exact h.next
  · intro j w hj
    rw [Versions.entry_set hlt] at hj
    rw [map_set hlen]
    by_cases hji : j = i
    · rw [if_pos hji] at hj ⊢
      cases hj
      rw [hnew]
      have hroot := hstep.root
      rw [if_pos rfl] at hroot
      exact ⟨_, rfl, hshows.id, hshows.source, hshows.generation, hsize, hsmall,
        hroot, hstep.cells, hstep.sep, hwf, hitems⟩
    · rw [if_neg hji] at hj ⊢
      have hne : w ≠ v := fun heq =>
        hji (h.wf.distinct j i w v hj hi (by rw [heq]))
      obtain ⟨N, hN, hshowsN⟩ := h.shows j w hj
      rw [h.tree_update hv ⟨j, hj⟩ hne]
      exact ⟨N, hN, hshowsN.congr fun a y ha =>
        h.read_change hv hcopies hstep ⟨j, hj⟩ hne ha⟩
  · intro j hj
    rw [Versions.entry_set hlt] at hj
    rw [map_set hlen]
    by_cases hji : j = i
    · rw [if_pos hji] at hj
      cases hj
    · rw [if_neg hji] at hj ⊢
      exact h.dead j hj
  · intro w hw
    rw [Versions.copies_put hi]
    cases (hlive w).mp hw with
    | inl heq =>
      rw [heq]
      exact h.counted v hv
    | inr hw => exact h.counted w hw.1
  · intro w hw a y ha
    cases (hlive w).mp hw with
    | inl heq =>
      subst heq
      rw [hnew] at ha
      by_cases hy : y = v.generation
      · exact Nat.le_of_eq hy
      · exact h.older v hv a y (hstep.shared a y ha hy)
    | inr hw =>
      rw [h.tree_update hv hw.1 hw.2] at ha
      exact h.older w hw.1 a y ha
  · intro w a hw ha
    -- The source of a map is another map than the changed one.
    have hsource : ∀ p, A.Live p → p ≠ v → (tree p.id).HasAddr a →
        (A.set i (some { v with contents := contents })).Live p ∧
          (Function.update tree v.id t' p.id).HasAddr a := by
      intro p hp hne hpa
      refine ⟨(hlive p).mpr (Or.inr ⟨hp, hne⟩), ?_⟩
      rw [h.tree_update hv hp hne]
      exact hpa
    cases (hlive w).mp hw with
    | inl heq =>
      subst heq
      have ha : (Function.update tree v.id t' v.id).HasAddr a := ha
      show (Function.update tree v.id t' v.id).Has a v.generation ∨ _
      rw [hnew] at ha ⊢
      refine (h.linked_change hv hstep ha).imp id ?_
      intro hshared
      obtain ⟨p, hp, hps, hlt, hpa⟩ := hshared
      have hne : p ≠ v := fun heq => Nat.lt_irrefl _ (heq ▸ hlt)
      obtain ⟨hp', hpa'⟩ := hsource p hp hne hpa
      exact ⟨p, hp', hps, hlt, hpa'⟩
    | inr hw' =>
      have ha : (Function.update tree v.id t' w.id).HasAddr a := ha
      show (Function.update tree v.id t' w.id).Has a w.generation ∨ _
      rw [h.tree_update hv hw'.1 hw'.2] at ha ⊢
      refine (h.linked w a hw'.1 ha).imp id ?_
      intro hshared
      obtain ⟨p, hp, hps, hlt, hpa⟩ := hshared
      have hne : p ≠ v := by
        intro heq
        obtain ⟨j, hj⟩ := hw'.1
        exact Versions.copies_eq_zero_iff.mp hcopies j w hj (heq ▸ hps)
      obtain ⟨hp', hpa'⟩ := hsource p hp hne hpa
      exact ⟨p, hp', hps, hlt, hpa'⟩
  · intro w u a hw hu haw hau
    cases (hlive w).mp hw with
    | inl hweq =>
      cases (hlive u).mp hu with
      | inl hueq => rw [hweq, hueq]
      | inr hu' =>
        subst hweq
        rw [hnew] at haw
        rw [h.tree_update hv hu'.1 hu'.2] at hau
        exact absurd hau (h.own_change hv hcopies hstep hu'.1 hu'.2 haw)
    | inr hw' =>
      rw [h.tree_update hv hw'.1 hw'.2] at haw
      cases (hlive u).mp hu with
      | inl hueq =>
        subst hueq
        rw [hnew] at hau
        exact absurd haw (h.own_change hv hcopies hstep hw'.1 hw'.2 hau)
      | inr hu' =>
        rw [h.tree_update hv hu'.1 hu'.2] at hau
        exact h.owner w u a hw'.1 hu'.1 haw hau

end

/-! ### Destruction -/

theorem assertWritable (h : Represents hash F A tree) {M : Map}
    {v : Version (List (K × T))} (hv : A.Live v) (hid : M.debugRefcount = v.id)
    (hcopies : A.copies v.id = 0) : M.assertWritable F.counts = some () := by
  rw [Map.assertWritable, hid, h.counted v hv, hcopies]
  rfl

/-- The counter of the source goes down by one. -/
theorem releaseParent (h : Represents hash F A tree) {i : Nat} {M : Map}
    {v : Version (List (K × T))} (hi : A.entry i = some v)
    (hsource : M.debugParent = v.source) :
    ∃ counts, M.releaseParent F.counts = some counts ∧
      counts.next = F.counts.next ∧
      ∀ w, A.Live w → counts.read w.id = some ((A.set i none).copies w.id) := by
  have hremove := Versions.copies_remove hi
  unfold Map.releaseParent
  rw [hsource]
  cases hs : v.source with
  | none =>
    refine ⟨F.counts, rfl, rfl, ?_⟩
    intro w hw
    rw [h.counted w hw, ← hremove w.id, hs, if_neg (by simp), Nat.add_zero]
  | some s =>
    obtain ⟨j, p, hj, hp, _⟩ := h.wf.source i v s hi hs
    have hread := h.counted p ⟨j, hj⟩
    rw [hp] at hread
    refine ⟨F.counts.write s (A.copies s - 1), ?_, Heap.next_write _ _ _, ?_⟩
    · simp only [hread, Option.bind_eq_bind, Option.bind_some, Option.pure_def]
    · intro w hw
      have hcount := hremove w.id
      rw [hs] at hcount
      by_cases hws : w.id = s
      · rw [if_pos (by rw [hws])] at hcount
        rw [← hws] at hread ⊢
        rw [Heap.read_write_self _ hread, ← hcount, Nat.add_sub_cancel]
      · rw [if_neg (fun heq => hws (Option.some.inj heq).symm), Nat.add_zero]
          at hcount
        rw [Heap.read_write_ne _ _ hws, h.counted w hw, hcount]

theorem destroyAt (h : Represents hash F A tree) {A' : FiniteMaps K T} {i : Nat}
    (hdestroy : A.destroyAt i = some A') :
    ∃ F', F.destroyAt i = some F' ∧ Represents hash F' A' tree ∧
      i < A'.entries.length ∧ A'.entry i = none := by
  obtain ⟨v, hi, hcopies, heq⟩ := Versions.destroyAt_eq_some hdestroy
  subst heq
  have hv : A.Live v := ⟨i, hi⟩
  have hlt := Versions.lt_of_entry hi
  obtain ⟨M, hM, hshows⟩ := h.shows i v hi
  have hlen : i < F.maps.length := Places.lt_of_get hM
  have hwritable := h.assertWritable hv hshows.id hcopies
  obtain ⟨counts, hrelease, hnext, hcounts⟩ := h.releaseParent hi hshows.source
  obtain ⟨cells, hfree, hsame⟩ := Map.freeChild_spec (g := M.generation)
    Map.maxLevels hshows.cells hshows.sep hshows.wf
    (by unfold Map.maxLevels; omega) (by omega)
  rw [hshows.generation] at hsame
  have hlive : ∀ w, (A.set i none).Live w ↔ A.Live w ∧ w ≠ v :=
    fun w => h.wf.live_remove hi
  refine ⟨{ cells := cells, counts := counts.free M.debugRefcount
            maps := F.maps.set i none }, ?_, ?_, ?_, ?_⟩
  · simp only [MapFamily.destroyAt, hM, hwritable, hrelease, hshows.root, hfree,
      Option.bind_eq_bind, Option.bind_some, Option.pure_def]
  · constructor
    · exact h.wf.remove hi hcopies
    · show (F.maps.set i none).length = (A.entries.set i none).length
      rw [List.length_set, List.length_set, h.length]
    · show (counts.free M.debugRefcount).next = A.nextId
      rw [Heap.next_free, hnext, h.next]
    · intro j w hj
      rw [Versions.entry_set hlt] at hj
      rw [map_set hlen]
      by_cases hji : j = i
      · rw [if_pos hji] at hj
        cases hj
      · rw [if_neg hji] at hj ⊢
        have hne : w ≠ v := fun heq =>
          hji (h.wf.distinct j i w v hj hi (by rw [heq]))
        obtain ⟨N, hN, hshowsN⟩ := h.shows j w hj
        exact ⟨N, hN, hshowsN.congr fun a y ha =>
          hsame a (h.apart hv hcopies ⟨j, hj⟩ hne ha)⟩
    · intro j hj
      rw [Versions.entry_set hlt] at hj
      rw [map_set hlen]
      by_cases hji : j = i
      · rw [if_pos hji]
      · rw [if_neg hji] at hj ⊢
        exact h.dead j hj
    · intro w hw
      obtain ⟨⟨j, hj⟩, hne⟩ := (hlive w).mp hw
      have hid : w.id ≠ M.debugRefcount := by
        rw [hshows.id]
        exact fun hid => hne (h.wf.eq_of_id hj hi hid)
      show (counts.free M.debugRefcount).read w.id = _
      rw [Heap.read_free_ne _ hid]
      exact hcounts w ⟨j, hj⟩
    · exact fun w hw => h.older w ((hlive w).mp hw).1
    · intro w a hw ha
      obtain ⟨hw', _⟩ := (hlive w).mp hw
      refine (h.linked w a hw' ha).imp id ?_
      intro hshared
      obtain ⟨p, hp, hps, hrest⟩ := hshared
      refine ⟨p, (hlive p).mpr ⟨hp, ?_⟩, hps, hrest⟩
      intro heq
      obtain ⟨j, hj⟩ := hw'
      exact Versions.copies_eq_zero_iff.mp hcopies j w hj (heq ▸ hps)
    · exact fun w u a hw hu =>
        h.owner w u a ((hlive w).mp hw).1 ((hlive u).mp hu).1
  · show i < (A.entries.set i none).length
    rw [List.length_set]
    exact hlt
  · rw [Versions.entry_set hlt, if_pos rfl]

/-! ### New maps -/

/-- A new map that owns nothing. -/
theorem add (h : Represents hash F A tree) {j : Nat} (hj : j < A.entries.length)
    (hdead : A.entry j = none) {counts : Heap Nat} {M : Map}
    {contents : List (K × T)} {source : Option Nat} {generation : Nat}
    {t : Tree K T} (hwf : (A.addAt j contents source generation).Wf)
    (hnext : counts.next = A.nextId + 1)
    (hcounts : ∀ w, (A.addAt j contents source generation).Live w →
      counts.read w.id = some ((A.addAt j contents source generation).copies w.id))
    (hshows : Shows hash F.cells M ⟨contents, A.nextId, source, generation⟩ t)
    (hshared : ∀ a y, t.Has a y → y < generation ∧
      ∃ p, A.Live p ∧ source = some p.id ∧ (tree p.id).HasAddr a) :
    Represents hash { F with counts := counts, maps := F.maps.set j (some M) }
      (A.addAt j contents source generation) (Function.update tree A.nextId t) := by
  have hlen : j < F.maps.length := h.length ▸ hj
  have hentry := Versions.entry_addAt hj contents source generation
  have hlive : ∀ w, (A.addAt j contents source generation).Live w ↔
      w = ⟨contents, A.nextId, source, generation⟩ ∨ A.Live w :=
    fun w => Versions.live_addAt hj hdead
  have hnew : Function.update tree A.nextId t A.nextId = t :=
    Function.update_self _ _ _
  have hfresh : ∀ w, A.Live w → w.id < A.nextId := by
    intro w hw
    obtain ⟨i, hi⟩ := hw
    exact h.wf.fresh i w hi
  have hold : ∀ w, A.Live w → Function.update tree A.nextId t w.id = tree w.id :=
    fun w hw => Function.update_of_ne (Nat.ne_of_lt (hfresh w hw)) _ _
  have hnone : ∀ a, ¬ t.Has a generation :=
    fun a ha => Nat.lt_irrefl _ (hshared a generation ha).1
  constructor
  · exact hwf
  · show (F.maps.set j _).length = (A.entries.set j _).length
    rw [List.length_set, List.length_set, h.length]
  · exact hnext
  · intro i w hi
    rw [hentry] at hi
    rw [map_set hlen]
    by_cases hij : i = j
    · rw [if_pos hij] at hi ⊢
      cases hi
      exact ⟨M, rfl, by rw [hnew]; exact hshows⟩
    · rw [if_neg hij] at hi ⊢
      obtain ⟨N, hN, hshowsN⟩ := h.shows i w hi
      exact ⟨N, hN, by rw [hold w ⟨i, hi⟩]; exact hshowsN⟩
  · intro i hi
    rw [hentry] at hi
    rw [map_set hlen]
    by_cases hij : i = j
    · rw [if_pos hij] at hi
      cases hi
    · rw [if_neg hij] at hi ⊢
      exact h.dead i hi
  · exact hcounts
  · intro w hw a y ha
    cases (hlive w).mp hw with
    | inl heq =>
      subst heq
      rw [hnew] at ha
      exact Nat.le_of_lt (hshared a y ha).1
    | inr hw =>
      rw [hold w hw] at ha
      exact h.older w hw a y ha
  · intro w a hw ha
    cases (hlive w).mp hw with
    | inl heq =>
      subst heq
      right
      have ha : (Function.update tree A.nextId t A.nextId).HasAddr a := ha
      rw [hnew] at ha
      obtain ⟨y, hy⟩ := ha
      obtain ⟨_, p, hp, hps, hpa⟩ := hshared a y hy
      refine ⟨p, (hlive p).mpr (Or.inr hp), hps, hfresh p hp, ?_⟩
      show (Function.update tree A.nextId t p.id).HasAddr a
      rw [hold p hp]
      exact hpa
    | inr hw =>
      have ha : (Function.update tree A.nextId t w.id).HasAddr a := ha
      show (Function.update tree A.nextId t w.id).Has a w.generation ∨ _
      rw [hold w hw] at ha ⊢
      refine (h.linked w a hw ha).imp id ?_
      intro hshared
      obtain ⟨p, hp, hps, hlt, hpa⟩ := hshared
      refine ⟨p, (hlive p).mpr (Or.inr hp), hps, hlt, ?_⟩
      show (Function.update tree A.nextId t p.id).HasAddr a
      rw [hold p hp]
      exact hpa
  · intro w u a hw hu haw hau
    cases (hlive w).mp hw with
    | inl hweq =>
      subst hweq
      rw [hnew] at haw
      exact absurd haw (hnone a)
    | inr hw' =>
      cases (hlive u).mp hu with
      | inl hueq =>
        subst hueq
        rw [hnew] at hau
        exact absurd hau (hnone a)
      | inr hu' =>
        rw [hold w hw'] at haw
        rw [hold u hu'] at hau
        exact h.owner w u a hw' hu' haw hau

/-- Nothing is a copy of a value that is not there yet. -/
theorem copies_next (h : Represents hash F A tree) : A.copies A.nextId = 0 := by
  rw [Versions.copies_eq_zero_iff]
  intro i v hi hs
  obtain ⟨l, p, hl, hp, _⟩ := h.wf.source i v _ hi hs
  have hlt := h.wf.fresh l p hl
  omega

/-- The counters with a new one. -/
theorem counts_alloc (h : Represents hash F A tree) :
    (F.counts.alloc 0).read A.nextId = some (A.copies A.nextId) ∧
    ∀ w, A.Live w → (F.counts.alloc 0).read w.id = some (A.copies w.id) := by
  constructor
  · rw [h.copies_next, ← h.next, Heap.read_alloc_next]
  · exact fun w hw => Heap.read_alloc_of_read 0 (h.counted w hw)

theorem constructAt (h : Represents hash F A tree) {j : Nat}
    (hj : j < A.entries.length) (hdead : A.entry j = none) :
    ∃ tree', Represents hash (F.constructAt j) (A.addAt j [] none 0) tree' := by
  refine ⟨_, h.add (t := .chain []) hj hdead ?_ ?_ ?_ ?_ ?_⟩
  · exact h.wf.addAt hj hdead [] fun s hs => by cases hs
  · show (F.counts.alloc 0).next = _
    rw [Heap.next_alloc, h.next]
  · intro w hw
    rw [Versions.copies_addAt hj hdead, if_neg (by simp), Nat.add_zero]
    cases (Versions.live_addAt hj hdead).mp hw with
    | inl heq =>
      rw [heq]
      exact h.counts_alloc.1
    | inr hw => exact h.counts_alloc.2 w hw
  · exact ⟨h.next, rfl, rfl, rfl, Nat.two_pow_pos 32, rfl, trivial, List.nodup_nil,
      Tree.wf_chain_of_rest 0 List.Pairwise.nil (fun p hp => by cases hp),
      List.Perm.nil⟩
  · intro a y ha
    obtain ⟨x, hx, _⟩ := ha
    cases hx

theorem copyAt (h : Represents hash F A tree) {A' : FiniteMaps K T} {i j : Nat}
    (hj : j < A.entries.length) (hdead : A.entry j = none)
    (hgen : ∀ v, A.entry i = some v → v.generation + 1 < 2 ^ 31)
    (hcopy : A.copyAt List.isEmpty j i = some A') :
    ∃ F' tree', F.copyAt j i = some F' ∧ Represents hash F' A' tree' := by
  rw [Versions.copyAt, Option.bind_eq_bind, Option.bind_eq_some_iff] at hcopy
  obtain ⟨v, hi, hcopy⟩ := hcopy
  obtain ⟨M, hM, hshows⟩ := h.shows i v hi
  have hv : A.Live v := ⟨i, hi⟩
  have hroot := hshows.root_eq_none_iff
  cases hempty : v.contents.isEmpty with
  | true =>
    -- A copy of an empty map is a new empty map.
    have hnil : v.contents = [] := List.isEmpty_iff.mp hempty
    have hsize := hshows.size
    rw [hempty, if_pos rfl, hnil] at hcopy
    rw [hnil] at hsize
    cases hcopy
    obtain ⟨tree', hrep⟩ := h.constructAt hj hdead
    refine ⟨_, tree', ?_, hrep⟩
    simp only [MapFamily.copyAt, Map.copy, hM, hroot.mpr hnil, hsize,
      Option.bind_eq_bind, Option.bind_some, Option.pure_def]
    rfl
  | false =>
    rw [hempty, if_neg Bool.false_ne_true] at hcopy
    cases hcopy
    obtain ⟨r, hr⟩ : ∃ r, M.root = some r := by
      rw [← Option.ne_none_iff_exists', Ne, hroot]
      intro hnil
      rw [hnil] at hempty
      cases hempty
    have hread : (F.counts.alloc 0).read v.id = some (A.copies v.id) :=
      h.counts_alloc.2 v hv
    have hlt : v.id < A.nextId := h.wf.fresh i v hi
    have hguard : (guard (v.generation + 1 < 2 ^ 31) : Option Unit) = some () := by
      rw [guard, if_pos (hgen v hi)]
      rfl
    have hrun : F.copyAt j i = some
        { F with
          counts := (F.counts.alloc 0).write v.id (A.copies v.id + 1)
          maps := F.maps.set j (some
            { generation := v.generation + 1, size := M.size, root := M.root
              debugParent := some v.id, debugRefcount := F.counts.next }) } := by
      simp only [MapFamily.copyAt, Map.copy, hM, hr, hshows.id, hshows.generation,
        hread, hguard, Option.bind_eq_bind, Option.bind_some, Option.pure_def]
    refine ⟨_, _, hrun, h.add (t := tree v.id) hj hdead ?_ ?_ ?_ ?_ ?_⟩
    · apply h.wf.addAt hj hdead
      intro s hs
      cases hs
      exact ⟨i, v, hi, rfl, rfl⟩
    · rw [Heap.next_write, Heap.next_alloc, h.next]
    · intro w hw
      rw [Versions.copies_addAt hj hdead]
      cases (Versions.live_addAt hj hdead).mp hw with
      | inl heq =>
        rw [heq]
        have hne : A.nextId ≠ v.id := Nat.ne_of_gt hlt
        rw [if_neg (fun hid => hne (Option.some.inj hid).symm), Nat.add_zero,
          Heap.read_write_ne _ _ hne]
        exact h.counts_alloc.1
      | inr hw =>
        by_cases hid : w.id = v.id
        · rw [hid, if_pos rfl, Heap.read_write_self _ hread]
        · rw [if_neg (fun heq => hid (Option.some.inj heq).symm), Nat.add_zero,
            Heap.read_write_ne _ _ hid]
          exact h.counts_alloc.2 w hw
    · exact ⟨h.next, rfl, rfl, hshows.size, hshows.small, hshows.root,
        hshows.cells, hshows.sep, hshows.wf, hshows.items⟩
    · intro a y ha
      exact ⟨Nat.lt_succ_of_le (h.older v hv a y ha), v, hv, rfl, y, ha⟩

end Represents

end MapFamily

end ViEqui.Gen
