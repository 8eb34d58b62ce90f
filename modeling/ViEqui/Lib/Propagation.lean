import Mathlib.Logic.Relation

/-!
# Propagation of stores

An event structure of an axiomatic memory model has communication `com`, reads
from other threads `rfe`, fences, full fences and happens-before `hb`.  Stores
propagate in the order `Propagates`: a base that goes through a fence, and a
strong part that goes through a full fence.  As fences and `rfe` are within
`hb`, the base does not have to be iterated (`strong_iff`).

`Extends` says how a structure grows by one event and some edges of `hb`.  An
event that propagates to more events than before reaches what is new
(`Extends.found`).
-/

namespace Propagation

open Relation

variable {ε : Type}

/-- An event structure. -/
structure Structure (ε : Type) where
  store : ε → Prop
  com : ε → ε → Prop
  rfe : ε → ε → Prop
  fences : ε → ε → Prop
  ffence : ε → ε → Prop
  hb : ε → ε → Prop
  rfe_com : ∀ {a b}, rfe a b → com a b
  ffence_fences : ∀ {a b}, ffence a b → fences a b
  fences_hb : ∀ {a b}, fences a b → hb a b
  rfe_hb : ∀ {a b}, rfe a b → hb a b

namespace Structure

/-- `rfe?;fences;hb*`. -/
def Base (S : Structure ε) (a b : ε) : Prop :=
  ∃ x y, (x = a ∨ S.rfe a x) ∧ S.fences x y ∧ ReflTransGen S.hb y b

/-- `com*;base*;ffence;hb*`. -/
def Strong (S : Structure ε) (a b : ε) : Prop :=
  ∃ x y z, ReflTransGen S.com a x ∧ ReflTransGen S.Base x y ∧ S.ffence y z ∧
    ReflTransGen S.hb z b

/-- The base between stores, and the strong part. -/
def Propagates (S : Structure ε) (a b : ε) : Prop :=
  S.store a ∧ S.store b ∧ S.Base a b ∨ S.Strong a b

/-- `com*;fences;hb*`, where only the edges `follow` of `hb` are used. -/
def After (S : Structure ε) (follow : ε → ε → Prop) (a b : ε) : Prop :=
  ∃ x y, ReflTransGen S.com a x ∧ S.fences x y ∧ ReflTransGen follow y b

variable {S : Structure ε} {a b c : ε}

theorem com_of_base {x : ε} (h : x = a ∨ S.rfe a x) : ReflTransGen S.com a x := by
  rcases h with rfl | h
  · exact .refl
  · exact .single (S.rfe_com h)

theorem Base.hb (h : S.Base a b) (hbc : S.hb b c) : S.Base a c := by
  obtain ⟨x, y, hx, hxy, hpath⟩ := h
  exact ⟨x, y, hx, hxy, hpath.tail hbc⟩

theorem Base.after (h : S.Base a b) : S.After S.hb a b := by
  obtain ⟨x, y, hx, hxy, hpath⟩ := h
  exact ⟨x, y, com_of_base hx, hxy, hpath⟩

theorem After.hb (h : S.After S.hb a b) (hbc : S.hb b c) : S.After S.hb a c := by
  obtain ⟨x, y, hcom, hxy, hpath⟩ := h
  exact ⟨x, y, hcom, hxy, hpath.tail hbc⟩

theorem Strong.hb (h : S.Strong a b) (hbc : S.hb b c) : S.Strong a c := by
  obtain ⟨x, y, z, hcom, hbase, hyz, hpath⟩ := h
  exact ⟨x, y, z, hcom, hbase, hyz, hpath.tail hbc⟩

theorem After.fences (h : S.After S.hb a b) (hf : S.fences b c) : S.After S.hb a c := by
  obtain ⟨x, y, hcom, hxy, hpath⟩ := h
  exact ⟨x, y, hcom, hxy, hpath.tail (S.fences_hb hf)⟩

theorem After.base (h : S.After S.hb a b) (hbase : S.Base b c) : S.After S.hb a c := by
  obtain ⟨x, y, hcom, hxy, hpath⟩ := h
  obtain ⟨u, v, hu, huv, hpath'⟩ := hbase
  have hbu : ReflTransGen S.hb b u := by
    rcases hu with rfl | hu
    · exact .refl
    · exact .single (S.rfe_hb hu)
  exact ⟨x, y, hcom, hxy, (hpath.trans hbu).trans (.head (S.fences_hb huv) hpath')⟩

/-- One base step before the full fence is enough. -/
theorem strong_iff : S.Strong a b ↔
    ∃ y z, (ReflTransGen S.com a y ∨ S.After S.hb a y) ∧ S.ffence y z ∧
      ReflTransGen S.hb z b := by
  constructor
  · rintro ⟨x, y, z, hcom, hbase, hyz, hpath⟩
    refine ⟨y, z, ?_, hyz, hpath⟩
    clear hyz hpath
    induction hbase with
    | refl => exact Or.inl hcom
    | tail _ hstep ih =>
      rcases ih with hcom | hafter
      · obtain ⟨u, v, hu, huv, hpath⟩ := hstep
        exact Or.inr ⟨u, v, hcom.trans (com_of_base hu), huv, hpath⟩
      · exact Or.inr (hafter.base hstep)
  · rintro ⟨y, z, hcom | ⟨x, w, hcom, hxw, hwy⟩, hyz, hpath⟩
    · exact ⟨y, y, z, hcom, .refl, hyz, hpath⟩
    · exact ⟨x, y, z, hcom, .single ⟨x, w, Or.inl rfl, hxw, hwy⟩, hyz, hpath⟩

/-- A full fence from what com* or a fence reaches. -/
theorem strong_of_ffence (h : ReflTransGen S.com a b ∨ S.After S.hb a b) (hbc : S.ffence b c) :
    S.Strong a c :=
  strong_iff.mpr ⟨b, c, h, hbc, .refl⟩

theorem Strong.after (h : S.Strong a b) : S.After S.hb a b := by
  obtain ⟨y, z, hy, hyz, hpath⟩ := strong_iff.mp h
  have hf := S.ffence_fences hyz
  rcases hy with hcom | hafter
  · exact ⟨y, z, hcom, hf, hpath⟩
  · obtain ⟨u, v, hcom, huv, hpath'⟩ := hafter.fences hf
    exact ⟨u, v, hcom, huv, hpath'.trans hpath⟩

end Structure

open Structure

/-! ## Growing structures -/

/-- `S'` has one event `new` more than `S`, and edges of `hb` into `T`.  Some of
these edges are followed. -/
structure Extends (S S' : Structure ε) (new : ε) (T : ε → Prop) (follow : ε → ε → Prop) :
    Prop where
  store_le : ∀ {a}, S.store a → S'.store a
  com_le : ∀ {a b}, S.com a b → S'.com a b
  rfe_le : ∀ {a b}, S.rfe a b → S'.rfe a b
  fences_le : ∀ {a b}, S.fences a b → S'.fences a b
  ffence_le : ∀ {a b}, S.ffence a b → S'.ffence a b
  hb_le : ∀ {a b}, S.hb a b → S'.hb a b
  hb_follow : ∀ {a b}, S.hb a b → follow a b
  follow_hb : ∀ {a b}, follow a b → S'.hb a b
  store : ∀ {a}, S'.store a → S.store a ∨ a = new
  com : ∀ {a b}, S'.com a b → S.com a b ∨ a = new ∨ b = new
  fences : ∀ {a b}, S'.fences a b → S.fences a b ∨ a = new ∨ b = new
  ffence : ∀ {a b}, S'.ffence a b → S.ffence a b ∨ a = new ∨ b = new
  rfe : ∀ {a b}, S'.rfe a b → S.rfe a b ∨ a = new ∨ b = new
  hb : ∀ {a b}, S'.hb a b → S.hb a b ∨ a = new ∨ T b
  target : T new

/-- What a search backwards from what is new finds. -/
def Found (S' : Structure ε) (new : ε) (T : ε → Prop) (follow : ε → ε → Prop) (a : ε) : Prop :=
  ReflTransGen S'.com a new ∨ ∃ t, T t ∧ S'.After follow a t

/-- A path to `b` that leaves the followed edges on its way into `T`. -/
def Strays (S' : Structure ε) (T : ε → Prop) (follow : ε → ε → Prop) (a b : ε) : Prop :=
  ∃ x t, S'.After follow a x ∧ S'.hb x t ∧ ¬ follow x t ∧ T t ∧ ReflTransGen S'.hb t b

namespace Extends

variable {S S' : Structure ε} {new : ε} {T : ε → Prop} {follow : ε → ε → Prop}

theorem base_le (h : Extends S S' new T follow) {a b : ε} (hbase : S.Base a b) : S'.Base a b := by
  obtain ⟨x, y, hx, hxy, hpath⟩ := hbase
  exact ⟨x, y, hx.imp_right h.rfe_le, h.fences_le hxy, ReflTransGen.mono (fun _ _ => h.hb_le) _ _ hpath⟩

theorem propagates_le (h : Extends S S' new T follow) {a b : ε} (hprop : S.Propagates a b) :
    S'.Propagates a b := by
  rcases hprop with ⟨ha, hb, hbase⟩ | ⟨x, y, z, hcom, hbase, hyz, hpath⟩
  · exact Or.inl ⟨h.store_le ha, h.store_le hb, h.base_le hbase⟩
  · exact Or.inr ⟨x, y, z, ReflTransGen.mono (fun _ _ => h.com_le) _ _ hcom,
      ReflTransGen.mono (fun _ _ => h.base_le) _ _ hbase, h.ffence_le hyz,
      ReflTransGen.mono (fun _ _ => h.hb_le) _ _ hpath⟩

/-- A path of communication is as before, or comes to the new event. -/
theorem com_path (h : Extends S S' new T follow) {a b : ε} (hpath : ReflTransGen S'.com a b) :
    ReflTransGen S.com a b ∨ ReflTransGen S'.com a new := by
  induction hpath with
  | refl => exact Or.inl .refl
  | tail hpath hstep ih =>
    rcases ih with ih | ih
    · rcases h.com hstep with hold | rfl | rfl
      · exact Or.inl (ih.tail hold)
      · exact Or.inr hpath
      · exact Or.inr (hpath.tail hstep)
    · exact Or.inr ih

/-- A path of `hb` is as before, or comes to what is new, by followed edges or
leaving them. -/
theorem hb_path (h : Extends S S' new T follow) {a b : ε} (hpath : ReflTransGen S'.hb a b) :
    ReflTransGen S.hb a b ∧ ReflTransGen follow a b ∨
      (∃ t, T t ∧ ReflTransGen follow a t) ∨
      ∃ x t, ReflTransGen follow a x ∧ S'.hb x t ∧ ¬ follow x t ∧ T t ∧
        ReflTransGen S'.hb t b := by
  induction hpath with
  | refl => exact Or.inl ⟨.refl, .refl⟩
  | @tail b c hpath hstep ih =>
    rcases ih with ⟨hold, hfollow⟩ | hfound | ⟨x, t, hx, hxt, hno, ht, hrest⟩
    · rcases h.hb hstep with hbc | rfl | hc
      · exact Or.inl ⟨hold.tail hbc, hfollow.tail (h.hb_follow hbc)⟩
      · exact Or.inr (Or.inl ⟨b, h.target, hfollow⟩)
      · by_cases hbc : follow b c
        · exact Or.inr (Or.inl ⟨c, hc, hfollow.tail hbc⟩)
        · exact Or.inr (Or.inr ⟨b, c, hfollow, hstep, hbc, hc, .refl⟩)
    · exact Or.inr (Or.inl hfound)
    · exact Or.inr (Or.inr ⟨x, t, hx, hxt, hno, ht, hrest.tail hstep⟩)

/-- What comes after a fence is as before, or what is new is found. -/
theorem after_path (h : Extends S S' new T follow) {a x y b : ε}
    (hcom : ReflTransGen S'.com a x) (hxy : S'.fences x y) (hpath : ReflTransGen S'.hb y b) :
    (ReflTransGen S.com a x ∧ S.fences x y ∧ ReflTransGen S.hb y b ∧ ReflTransGen follow y b) ∨
      Found S' new T follow a ∨ Strays S' T follow a b := by
  rcases h.com_path hcom with hold | hnew
  · rcases h.fences hxy with hf | rfl | rfl
    · rcases h.hb_path hpath with ⟨hhb, hfollow⟩ | ⟨t, ht, hfollow⟩ | ⟨z, t, hz, hzt, hno, ht, hrest⟩
      · exact Or.inl ⟨hold, hf, hhb, hfollow⟩
      · exact Or.inr (Or.inl (Or.inr ⟨t, ht, x, y, hcom, hxy, hfollow⟩))
      · exact Or.inr (Or.inr ⟨z, t, ⟨x, y, hcom, hxy, hz⟩, hzt, hno, ht, hrest⟩)
    · exact Or.inr (Or.inl (Or.inl hcom))
    · exact Or.inr (Or.inl (Or.inr ⟨y, h.target, x, y, hcom, hxy, .refl⟩))
  · exact Or.inr (Or.inl (Or.inl hnew))

/-- The rest of a path behind a full fence. -/
theorem ffence_path (h : Extends S S' new T follow) {a x y u v b : ε}
    (hcom : ReflTransGen S'.com a x) (hxy : S'.fences x y) (hyu : ReflTransGen S'.hb y u)
    (huv : S'.ffence u v) (hvb : ReflTransGen S'.hb v b) :
    (ReflTransGen S.com a x ∧ S.fences x y ∧ ReflTransGen S.hb y u ∧ S.ffence u v ∧
        ReflTransGen S.hb v b) ∨
      Found S' new T follow a ∨ Strays S' T follow a b := by
  have hedge := S'.fences_hb (S'.ffence_fences huv)
  rcases h.after_path hcom hxy hyu with
    ⟨hc, hf, hhb, hfollow⟩ | hfound | ⟨z, t, hz, hzt, hno, ht, hrest⟩
  · rcases h.ffence huv with hff | rfl | rfl
    · have hyv := hfollow.tail (h.hb_follow (S.fences_hb (S.ffence_fences hff)))
      rcases h.hb_path hvb with ⟨hvb', -⟩ | ⟨t, ht, hvt⟩ | ⟨z, t, hz, hzt, hno, ht, hrest⟩
      · exact Or.inl ⟨hc, hf, hhb, hff, hvb'⟩
      · exact Or.inr (Or.inl (Or.inr ⟨t, ht, x, y, hcom, hxy, hyv.trans hvt⟩))
      · exact Or.inr (Or.inr ⟨z, t, ⟨x, y, hcom, hxy, hyv.trans hz⟩, hzt, hno, ht, hrest⟩)
    · exact Or.inr (Or.inl (Or.inr ⟨u, h.target, x, y, hcom, hxy, hfollow⟩))
    · by_cases huf : follow u v
      · exact Or.inr (Or.inl (Or.inr ⟨v, h.target, x, y, hcom, hxy, hfollow.tail huf⟩))
      · exact Or.inr (Or.inr ⟨u, v, ⟨x, y, hcom, hxy, hfollow⟩, hedge, huf, h.target, hvb⟩)
  · exact Or.inr (Or.inl hfound)
  · exact Or.inr (Or.inr ⟨z, t, hz, hzt, hno, ht, (hrest.tail hedge).trans hvb⟩)

/-- An event that propagates to `b` only in the larger structure is found, or
comes to `b` by a path that leaves the followed edges. -/
theorem found (h : Extends S S' new T follow) {a b : ε} (hprop : S'.Propagates a b)
    (hold : ¬ S.Propagates a b) : Found S' new T follow a ∨ Strays S' T follow a b := by
  rcases hprop with ⟨ha, hb, x, y, hx, hxy, hpath⟩ | hstrong
  · have hcom := com_of_base hx
    rcases h.after_path hcom hxy hpath with ⟨-, hf, hhb, hfollow⟩ | hrest
    · have hxold : x = a ∨ S.rfe a x ∨ ReflTransGen S'.com a new := by
        rcases hx with rfl | hx
        · exact Or.inl rfl
        · rcases h.rfe hx with hrfe | rfl | rfl
          · exact Or.inr (Or.inl hrfe)
          · exact Or.inr (Or.inr .refl)
          · exact Or.inr (Or.inr hcom)
      rcases h.store ha with hsa | rfl
      · rcases h.store hb with hsb | rfl
        · rcases hxold with hxa | hrfe | hnew
          · exact absurd (Or.inl ⟨hsa, hsb, x, y, Or.inl hxa, hf, hhb⟩) hold
          · exact absurd (Or.inl ⟨hsa, hsb, x, y, Or.inr hrfe, hf, hhb⟩) hold
          · exact Or.inl (Or.inl hnew)
        · exact Or.inl (Or.inr ⟨b, h.target, x, y, hcom, hxy, hfollow⟩)
      · exact Or.inl (Or.inl .refl)
    · exact hrest
  · obtain ⟨u, v, hu, huv, hvb⟩ := strong_iff.mp hstrong
    rcases hu with hcom | ⟨x, y, hcom, hxy, hyu⟩
    · -- the full fence is the first step
      have hf := S'.ffence_fences huv
      rcases h.after_path hcom hf hvb with ⟨hc, -, hhb, -⟩ | hrest
      · rcases h.ffence huv with hff | rfl | rfl
        · exact absurd (Or.inr (strong_iff.mpr ⟨u, v, Or.inl hc, hff, hhb⟩)) hold
        · exact Or.inl (Or.inl hcom)
        · exact Or.inl (Or.inr ⟨v, h.target, u, v, hcom, hf, .refl⟩)
      · exact hrest
    · rcases h.ffence_path hcom hxy hyu huv hvb with ⟨hc, hf, hyu', hff, hhb⟩ | hrest
      · exact absurd (Or.inr (strong_iff.mpr ⟨u, v, Or.inr ⟨x, y, hc, hf, hyu'⟩, hff, hhb⟩)) hold
      · exact hrest

end Extends

end Propagation
