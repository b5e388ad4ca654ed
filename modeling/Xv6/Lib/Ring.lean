import Mathlib
import Xv6.Lib.Word32

/-!
# Rings indexed by running counters

A ring of `N` slots is written and read at counter values taken modulo `N`. The
entries from position `start` on, `len` of them, are `view buf start len`; code that
keeps the counters `a` and `b` with `b` ahead of `a` by at most `N` holds the entries
`view buf a.toNat (dist b a)` between them. The lemmas move such views through what
ring code does: a write past the end of a view (`view_update_last`), a step of the
start (`view_cons`), and the split of one view at a counter between its ends
(`view_add`, `view_congr_start`). When `N` divides `2^32`, the slot of a 32-bit
counter does not see the counter wrap (`Word32.add_dist_mod`).
-/

namespace Ring

variable {α : Type} {N : Nat} [NeZero N]

/-- The slot of position `x`. -/
def slot (N : Nat) [NeZero N] (x : Nat) : Fin N :=
  ⟨x % N, Nat.mod_lt _ (Nat.pos_of_ne_zero (NeZero.ne N))⟩

/-- The `len` entries from position `start` on. -/
def view (buf : Fin N → α) (start len : Nat) : List α :=
  (List.range len).map fun i => buf (slot N (start + i))

@[simp] theorem length_view (buf : Fin N → α) (start len : Nat) :
    (view buf start len).length = len := by
  simp [view]

@[simp] theorem view_zero (buf : Fin N → α) (start : Nat) : view buf start 0 = [] := rfl

theorem view_add (buf : Fin N → α) (start m n : Nat) :
    view buf start (m + n) = view buf start m ++ view buf (start + m) n := by
  simp only [view, List.range_add, List.map_append, List.map_map]
  congr 1
  apply List.map_congr_left
  intro i _
  simp only [Function.comp, Nat.add_assoc]

theorem view_succ (buf : Fin N → α) (start len : Nat) :
    view buf start (len + 1) = view buf start len ++ [buf (slot N (start + len))] := by
  rw [view_add]
  rfl

theorem view_cons (buf : Fin N → α) (start len : Nat) :
    view buf start (len + 1) = buf (slot N start) :: view buf (start + 1) len := by
  rw [Nat.add_comm len 1, view_add]
  rfl

theorem view_drop (buf : Fin N → α) (start len k : Nat) (hk : k ≤ len) :
    (view buf start len).drop k = view buf (start + k) (len - k) := by
  conv => lhs; rw [show len = k + (len - k) by omega, view_add]
  exact List.drop_left' (length_view _ _ _)

/-- A view depends on its start only modulo `N`. -/
theorem view_congr_start {s t : Nat} (h : s % N = t % N) (buf : Fin N → α) (len : Nat) :
    view buf s len = view buf t len := by
  simp only [view]
  congr 1
  funext i
  congr 1
  simp only [slot, Fin.mk.injEq]
  rw [Nat.add_mod, h, ← Nat.add_mod]

/-- A write to a slot that the view does not cover leaves it alone. -/
theorem view_update_of_ne (buf : Fin N → α) (k : Fin N) (v : α) (start len : Nat)
    (h : ∀ i < len, slot N (start + i) ≠ k) :
    view (Function.update buf k v) start len = view buf start len := by
  simp only [view]
  apply List.map_congr_left
  intro i hi
  rw [Function.update_of_ne (h i (List.mem_range.mp hi))]

/-- Two positions less than `N` apart have different slots. -/
theorem slot_ne {x y : Nat} (hxy : x < y) (hy : y < x + N) : slot N x ≠ slot N y := by
  simp only [slot, ne_eq, Fin.mk.injEq]
  intro h
  have := Nat.sub_mod_eq_zero_of_mod_eq h.symm
  have hpos : 0 < y - x := by omega
  have := Nat.le_of_dvd hpos (Nat.dvd_of_mod_eq_zero this)
  omega

/-- Writing the slot just past a view of fewer than `N` entries extends the view. -/
theorem view_update_last (buf : Fin N → α) (v : α) (start len : Nat) (h : len < N) :
    view (Function.update buf (slot N (start + len)) v) start (len + 1) =
      view buf start len ++ [v] := by
  rw [view_succ, Function.update_self, view_update_of_ne]
  intro i hi
  exact slot_ne (by omega) (by omega)

end Ring
