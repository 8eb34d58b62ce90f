/-!
# Shared parts and their owners

A value reads parts, and owns some of them.  What it does not own it shares
with its source, which is older.  So every part that is read is owned by the
reader or by an older value that is the source of another one, and a value that
is nobody's source is the only reader of what it owns.
-/

namespace Sharing

variable {ι α : Type} {live : ι → Prop} {reads owns : ι → α → Prop}
  {source : ι → ι → Prop} {rank : ι → Nat}

/-- What a live value reads and does not own, it shares with its source. -/
def Linked (live : ι → Prop) (reads owns : ι → α → Prop) (source : ι → ι → Prop)
    (rank : ι → Nat) : Prop :=
  ∀ w a, live w → reads w a → owns w a ∨
    ∃ p, live p ∧ source w p ∧ rank p < rank w ∧ reads p a

theorem Linked.owner_of (h : Linked live reads owns source rank) {w : ι} {a : α}
    (hw : live w) (ha : reads w a) :
    ∃ u, live u ∧ owns u a ∧
      (u = w ∨ (∃ x, live x ∧ source x u) ∧ rank u < rank w) := by
  induction hn : rank w using Nat.strongRecOn generalizing w with
  | ind n ih =>
    cases h w a hw ha with
    | inl hown => exact ⟨w, hw, hown, Or.inl rfl⟩
    | inr hshared =>
      obtain ⟨p, hp, hsource, hlt, hread⟩ := hshared
      obtain ⟨u, hu, hown, hor⟩ := ih (rank p) (hn ▸ hlt) hp hread rfl
      refine ⟨u, hu, hown, Or.inr ?_⟩
      cases hor with
      | inl heq =>
        rw [heq]
        exact ⟨⟨w, hw, hsource⟩, hn ▸ hlt⟩
      | inr hold => exact ⟨hold.1, Nat.lt_trans hold.2 (hn ▸ hlt)⟩

/-- Nobody else reads what `v` owns, when `v` is nobody's source and parts have
one owner. -/
theorem Linked.not_owns (h : Linked live reads owns source rank) {v w : ι} {a : α}
    (hsource : ¬ ∃ x, live x ∧ source x v)
    (howner : ∀ u, live u → owns v a → owns u a → v = u) (hw : live w)
    (hne : w ≠ v) (ha : reads w a) : ¬ owns v a := by
  intro hown
  obtain ⟨u, hu, hownU, hor⟩ := h.owner_of hw ha
  have heq := howner u hu hown hownU
  rw [← heq] at hor
  exact hor.elim (fun heq => hne heq.symm) (fun hold => hsource hold.1)

end Sharing
