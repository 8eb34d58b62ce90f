import ViEqui.Buffered.Interpreter
import ViEqui.Tso.Sleeper

/-!
# The bytes of pending stores

What a load reads, when the newest of the pending stores that overlap it is one
to the same location: the bytes of that store (`map_sees_newest`), or memory when
none overlaps (`map_sees_memory`).
-/

namespace ViEqui

namespace SymAddrSize

open Tso (SymAddr)

theorem includes_iff {a : SymAddrSize} {x : SymAddr} : a.includes x = true ↔
    a.block = x.block ∧ a.offset ≤ x.offset ∧ x.offset < a.offset + a.size := by
  simp only [includes, Bool.and_eq_true, decide_eq_true_eq, and_assoc]

theorem overlaps_of_includes {a b : SymAddrSize} {x : SymAddr} (ha : a.includes x = true)
    (hb : b.includes x = true) : a.overlaps b = true := by
  rw [includes_iff] at ha hb
  simp only [overlaps, Bool.and_eq_true, decide_eq_true_eq]
  exact ⟨⟨ha.1.trans hb.1.symm, by omega⟩, by omega⟩

/-- A byte that is not in the location of a store without an overlap. -/
theorem includes_of_no_overlap {a b : SymAddrSize} {x : SymAddr} (hx : a.includes x = true)
    (h : a.overlaps b = false) : b.includes x = false := by
  by_contra hin
  rw [Bool.not_eq_false] at hin
  rw [overlaps_of_includes hx hin] at h
  cases h

end SymAddrSize

namespace Buffered

open Tso (SymAddr)

theorem Store.byteAt_eq_none {e : Store} {x : SymAddr} (h : e.ref.includes x = false) :
    e.byteAt x = none := by
  unfold SymData.byteAt
  rw [h]
  rfl

/-- A byte of the location has a value. -/
theorem Store.byteAt_eq_some (e : Store) {k : Nat} (hk : k < e.ref.size) :
    e.byteAt ⟨e.ref.block, e.ref.offset + k⟩ =
      some (e.block.get ⟨k, e.length_eq.symm ▸ hk⟩) := by
  have hin : e.ref.includes ⟨e.ref.block, e.ref.offset + k⟩ = true := by
    simp [SymAddrSize.includes, hk]
  unfold SymData.byteAt
  rw [hin, if_pos rfl, Nat.add_sub_cancel_left]
  exact List.getElem?_eq_getElem _

theorem Store.byteAt_of_no_overlap {ml : SymAddrSize} {e : Store} {x : SymAddr}
    (hx : ml.includes x = true) (h : ml.overlaps e.ref = false) : e.byteAt x = none :=
  Store.byteAt_eq_none (SymAddrSize.includes_of_no_overlap hx h)

/-- Without an overlap the bytes are those of memory. -/
theorem map_sees_memory (memory : SymAddr → UInt8) {ml : SymAddrSize} {ws : List Store}
    (h : ∀ e ∈ ws, ml.overlaps e.ref = false) :
    ml.bytes.map (sees memory ws) = ml.bytes.map memory := by
  apply List.map_congr_left
  intro x hx
  have hin := SymAddrSize.mem_bytes.1 hx
  exact StoreBuffer.view_of_forall_none fun e he => Store.byteAt_of_no_overlap hin (h e he)

/-- The bytes of the newest store, when it is one to this location. -/
theorem map_sees_newest (memory : SymAddr → UInt8) (older newer : List Store) (e : Store)
    (h : ∀ w ∈ newer, e.ref.overlaps w.ref = false) :
    e.ref.bytes.map (sees memory (older ++ e :: newer)) = e.block := by
  have hlen := e.length_eq
  apply List.ext_getElem
  · simp [SymAddrSize.bytes, hlen]
  intro k hk hk'
  have hlt : k < e.ref.size := hlen ▸ hk'
  have hin : e.ref.includes ⟨e.ref.block, e.ref.offset + k⟩ = true :=
    SymAddrSize.mem_bytes.1 (List.mem_map.2 ⟨k, List.mem_range.2 hlt, rfl⟩)
  simp only [SymAddrSize.bytes, List.getElem_map, List.getElem_range]
  exact StoreBuffer.view_newest (e.byteAt_eq_some hlt) fun w hw =>
    Store.byteAt_of_no_overlap hin (h w hw)

/-- The two cases of a load that is not refused. -/
theorem Readable.cases {ml : SymAddrSize} {ws : List Store} (h : Readable ml ws) :
    (ws.reverse.find? (fun e => ml.overlaps e.ref) = none ∧
      ∀ e ∈ ws, ml.overlaps e.ref = false) ∨
    ∃ older e newer, ws.reverse.find? (fun e => ml.overlaps e.ref) = some e ∧
      ws = older ++ e :: newer ∧ e.ref = ml ∧ ∀ w ∈ newer, ml.overlaps w.ref = false := by
  cases hfind : ws.reverse.find? (fun e => ml.overlaps e.ref) with
  | none =>
    refine .inl ⟨rfl, fun e he => ?_⟩
    exact eq_false_of_ne_true (List.find?_eq_none.1 hfind e (List.mem_reverse.2 he))
  | some e =>
    obtain ⟨-, as, bs, hsplit, hnot⟩ := List.find?_eq_some_iff_append.1 hfind
    refine .inr ⟨bs.reverse, e, as.reverse, rfl, ?_, h e hfind, fun w hw => ?_⟩
    · rw [← List.reverse_reverse ws, hsplit]
      simp
    · simpa using hnot w (List.mem_reverse.1 hw)

end Buffered

end ViEqui
