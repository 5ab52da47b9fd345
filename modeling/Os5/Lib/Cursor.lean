import Mathlib.Tactic

/-!
# A cursor on a list

Reads and seeks, and the place they bring a cursor to. Reads that follow one another without a
seek in between give a piece of the list, whatever lengths they ask for.
-/

namespace Cursor

variable {α : Type*}

inductive Op (α : Type*)
  | read (len : Nat) (items : List α)
  | seek (target : Nat)

/-- The place a cursor on `l` comes to, if the reads return what is there. -/
def replay [DecidableEq α] (l : List α) : Nat → List (Op α) → Option Nat
  | o, [] => some o
  | o, .read len items :: ops =>
    if items = (l.drop o).take len then replay l (o + items.length) ops else none
  | _, .seek target :: ops => replay l target ops

def itemsRead : List (Op α) → List α
  | [] => []
  | .read _ items :: ops => items ++ itemsRead ops
  | .seek _ :: ops => itemsRead ops

def asked : List (Op α) → Nat
  | [] => 0
  | .read len _ :: ops => len + asked ops
  | .seek _ :: ops => asked ops

def Forward (ops : List (Op α)) : Prop := ∀ target, .seek target ∉ ops

theorem take_append (l : List α) (a b : Nat) :
    l.take a ++ (l.drop (l.take a).length).take b = l.take (a + b) := by
  rw [List.take_add, List.length_take]
  by_cases ha : a ≤ l.length
  · rw [Nat.min_eq_left ha]
  · have ha := Nat.le_of_not_le ha
    rw [Nat.min_eq_right ha, List.drop_of_length_le le_rfl, List.drop_of_length_le ha]

theorem replay_append [DecidableEq α] {l : List α} {o : Nat} {ops ops' : List (Op α)} :
    replay l o (ops ++ ops') = (replay l o ops).bind fun o => replay l o ops' := by
  induction ops generalizing o with
  | nil => rfl
  | cons op ops ih =>
    cases op with
    | seek target => exact ih
    | read len items =>
      rw [List.cons_append, replay, replay]
      split
      · exact ih
      · rfl

/-- Without a seek nothing is left out, and nothing is read twice. -/
theorem replay_forward [DecidableEq α] {l : List α} {o o' : Nat} {ops : List (Op α)}
    (h : replay l o ops = some o') (hforward : Forward ops) :
    itemsRead ops = (l.drop o).take (asked ops) ∧ o' = o + (itemsRead ops).length := by
  induction ops generalizing o with
  | nil =>
    obtain rfl := Option.some.inj h
    simp [itemsRead, asked]
  | cons op ops ih =>
    have hrest : Forward ops := fun target htarget => hforward target (List.mem_cons_of_mem _ htarget)
    cases op with
    | seek target => exact absurd List.mem_cons_self (hforward target)
    | read len items =>
      rw [replay] at h
      split at h
      swap
      · cases h
      next hitems =>
      obtain ⟨hrun, hend⟩ := ih h hrest
      constructor
      · rw [itemsRead, asked, hrun, ← take_append, List.drop_drop, hitems]
      · rw [hend, itemsRead, List.length_append, Nat.add_assoc]

end Cursor
