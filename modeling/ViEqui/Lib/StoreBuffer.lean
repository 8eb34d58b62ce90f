import Mathlib.Data.List.Basic

/-!
# Store buffers

The pending stores of one thread, oldest first, over arbitrary addresses and
values.  A store is given by the bytes that it writes.

* `view`: the memory as the thread sees it.  A byte has the value of the
  newest pending store to it (`view_newest`), and without one the value in
  memory (`view_of_forall_none`).
* `Oldest`: the store that leaves the buffer under total store order.
-/

namespace StoreBuffer

variable {A V E : Type}

/-- The memory after a store. -/
def apply (bytes : E → A → Option V) (mem : A → V) (e : E) : A → V :=
  fun a => (bytes e a).getD (mem a)

/-- The memory as the thread with the pending stores `ws` sees it. -/
def view (bytes : E → A → Option V) (mem : A → V) (ws : List E) : A → V :=
  ws.foldl (apply bytes) mem

variable {bytes : E → A → Option V} {mem : A → V}

theorem view_of_forall_none {ws : List E} {a : A} (h : ∀ e ∈ ws, bytes e a = none) :
    view bytes mem ws a = mem a := by
  induction ws generalizing mem with
  | nil => rfl
  | cons e ws ih =>
    show view bytes (apply bytes mem e) ws a = mem a
    rw [ih fun w hw => h w (List.mem_cons_of_mem e hw)]
    show (bytes e a).getD (mem a) = mem a
    rw [h e List.mem_cons_self]
    rfl

theorem view_append (older newer : List E) :
    view bytes mem (older ++ newer) = view bytes (view bytes mem older) newer :=
  List.foldl_append

theorem view_newest {older newer : List E} {e : E} {a : A} {v : V} (he : bytes e a = some v)
    (h : ∀ w ∈ newer, bytes w a = none) :
    view bytes mem (older ++ e :: newer) a = v := by
  rw [view_append]
  show view bytes (apply bytes (view bytes mem older) e) newer a = v
  rw [view_of_forall_none h]
  show (bytes e a).getD _ = v
  rw [he]
  rfl

/-! ## Which store leaves the buffer -/

/-- Total store order: no store is older. -/
def Oldest (older : List E) (_ : E) : Prop := older = []

end StoreBuffer
