import Mathlib.Tactic

/-!
# Ring buffers with free-running counters

The positions of a ring buffer count modulo `M`, and an item at position `p` is
kept in cell `p % n`. If the number of cells divides `M` and is smaller, the
items between the two positions are a queue, whether or not a counter wraps.
-/

namespace RingBuffer

section
variable {α : Type*} {M n r w : Nat} {buf : Nat → α} {b : α}

/-- The distance from the read to the write position. -/
def count (M r w : Nat) : Nat := (w + M - r) % M

/-- The items between the positions, the oldest first. -/
def content (M n : Nat) (buf : Nat → α) (r w : Nat) : List α :=
  (List.range (count M r w)).map fun i => buf ((r + i) % M % n)

@[simp] theorem content_length : (content M n buf r w).length = count M r w := by
  simp [content]

@[simp] theorem count_self : count M r r = 0 := by
  rw [count, Nat.add_sub_cancel_left, Nat.mod_self]

/-- The write position is the read position moved by the distance. -/
theorem add_count (hr : r < M) (hw : w < M) : (r + count M r w) % M = w := by
  rw [count, Nat.add_mod_mod, show r + (w + M - r) = w + M by omega, Nat.add_mod_right,
    Nat.mod_eq_of_lt hw]

theorem count_push (hr : r < M) (hlt : count M r w + 1 < M) :
    count M r ((w + 1) % M) = count M r w + 1 := by
  have h : ((w + 1) % M + M - r) % M = (w + M - r + 1) % M := by
    rw [show (w + 1) % M + M - r = (w + 1) % M + (M - r) by omega, Nat.mod_add_mod,
      show w + 1 + (M - r) = w + M - r + 1 by omega]
  rw [count, h, Nat.add_mod, ← count, Nat.mod_eq_of_lt (show 1 < M by omega), Nat.mod_eq_of_lt hlt]

theorem count_pop (hr : r < M) (hpos : 0 < count M r w) :
    count M ((r + 1) % M) w + 1 = count M r w := by
  have hM : count M r w < M := Nat.mod_lt _ (by omega)
  have h : count M ((r + 1) % M) w = (w + M - (r + 1)) % M := by
    by_cases hr1 : r + 1 = M
    · rw [hr1, Nat.mod_self, count]
      simp
    · rw [Nat.mod_eq_of_lt (show r + 1 < M by omega), count]
  have hsplit : count M r w = ((w + M - (r + 1)) % M + 1) % M := by
    rw [count, Nat.mod_add_mod, show w + M - (r + 1) + 1 = w + M - r by omega]
  rw [h]
  have hx : (w + M - (r + 1)) % M < M := Nat.mod_lt _ (by omega)
  by_cases htop : (w + M - (r + 1)) % M + 1 = M
  · rw [htop, Nat.mod_self] at hsplit
    omega
  · rw [Nat.mod_eq_of_lt (show (w + M - (r + 1)) % M + 1 < M by omega)] at hsplit
    exact hsplit.symm

theorem cell_ne {i j : Nat} (hn : n ∣ M) (hij : i < j) (hj : j < i + n) :
    (r + i) % M % n ≠ (r + j) % M % n := by
  rw [Nat.mod_mod_of_dvd _ hn, Nat.mod_mod_of_dvd _ hn]
  intro h
  have hdvd : n ∣ (r + j) - (r + i) := (Nat.modEq_iff_dvd' (by omega)).mp h
  have := Nat.le_of_dvd (by omega) hdvd
  omega

theorem content_push (hn : n ∣ M) (hnM : n < M) (hr : r < M) (hw : w < M) (hc : count M r w < n) :
    content M n (Function.update buf (w % n) b) r ((w + 1) % M) = content M n buf r w ++ [b] := by
  rw [content, count_push hr (by omega), List.range_succ, List.map_append, List.map_singleton,
    add_count hr hw, Function.update_self, content]
  congr 1
  refine List.map_congr_left fun i hi => Function.update_of_ne ?_ _ _
  have hi : i < count M r w := List.mem_range.mp hi
  have hne := cell_ne (r := r) hn hi (by omega)
  rwa [add_count hr hw] at hne

theorem content_pop (hr : r < M) (hpos : 0 < count M r w) :
    content M n buf r w = buf (r % n) :: content M n buf ((r + 1) % M) w := by
  rw [content, ← count_pop hr hpos, List.range_succ_eq_map, List.map_cons, List.map_map]
  congr 1
  · rw [Nat.add_zero, Nat.mod_eq_of_lt hr]
  · refine List.map_congr_left fun i _ => ?_
    rw [Function.comp_apply, Nat.mod_add_mod, show r + (i + 1) = r + 1 + i by omega]

end

end RingBuffer
