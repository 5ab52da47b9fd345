import Mathlib.Tactic

/-!
# Counting references

A finite set of cells each of which may hold a reference. How many hold a given
one is followed through changes of single cells and through new cells.
-/

namespace Cells

section
variable {κ β : Type*} [DecidableEq β] {cells cells' : Finset κ}
  {b : β} {x : κ}

def count (cells : Finset κ) (holds : κ → Option β) (b : β) : Nat :=
  (cells.filter fun x => holds x = some b).card

/-- What a single reference counts for. -/
def ones (o : Option β) (b : β) : Nat := if o = some b then 1 else 0

@[simp] theorem ones_none : ones (none : Option β) b = 0 := by simp [ones]

@[simp] theorem ones_self : ones (some b) b = 1 := by simp [ones]

theorem ones_of_ne {c : β} (h : b ≠ c) : ones (some c) b = 0 := by
  rw [ones, if_neg]
  rintro ⟨⟩
  exact h rfl

variable {f g : κ → Option β}

theorem count_congr (h : ∀ x ∈ cells, g x = f x) : count cells g b = count cells f b := by
  unfold count
  congr 1
  exact Finset.filter_congr fun x hx => by rw [h x hx]

theorem count_pos (hx : x ∈ cells) (hb : f x = some b) : 0 < count cells f b :=
  Finset.card_pos.mpr ⟨x, Finset.mem_filter.mpr ⟨hx, hb⟩⟩

theorem count_eq_zero : count cells f b = 0 ↔ ∀ x ∈ cells, f x ≠ some b := by
  rw [count, Finset.card_eq_zero, Finset.filter_eq_empty_iff]

theorem count_mono (h : cells ⊆ cells') : count cells f b ≤ count cells' f b :=
  Finset.card_le_card (Finset.filter_subset_filter _ h)

variable [DecidableEq κ]

theorem count_erase (hx : x ∈ cells) :
    count cells f b = count (cells.erase x) f b + ones (f x) b := by
  have hrest : (cells.erase x).filter (f · = some b) = (cells.filter (f · = some b)).erase x :=
    Finset.filter_erase ..
  rw [count, count, hrest, ones]
  split
  · next hb => rw [Finset.card_erase_add_one (Finset.mem_filter.mpr ⟨hx, hb⟩)]
  · next hb =>
    have hx' : x ∉ cells.filter (f · = some b) := fun hm => hb (Finset.mem_filter.mp hm).2
    rw [Finset.erase_eq_of_notMem hx', Nat.add_zero]

/-- Only the cell `x` may have changed. -/
theorem count_change (hx : x ∈ cells) (h : ∀ y ∈ cells, y ≠ x → g y = f y) :
    count cells g b + ones (f x) b = count cells f b + ones (g x) b := by
  have hrest : count (cells.erase x) g b = count (cells.erase x) f b :=
    count_congr fun y hy => h y (Finset.mem_of_mem_erase hy) (Finset.ne_of_mem_erase hy)
  rw [count_erase hx, count_erase (f := f) hx, hrest]
  omega

theorem count_insert (hx : x ∉ cells) :
    count (insert x cells) f b = count cells f b + ones (f x) b := by
  rw [count_erase (Finset.mem_insert_self x cells), Finset.erase_insert hx]

theorem count_union (h : Disjoint cells cells') :
    count (cells ∪ cells') f b = count cells f b + count cells' f b := by
  unfold count
  rw [Finset.filter_union, Finset.card_union_of_disjoint (Finset.disjoint_filter_filter h)]

end

end Cells
