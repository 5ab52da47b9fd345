import Mathlib.Tactic

/-!
# Outcomes

`Yields x E Q`: the computation `x` returns a value in `Q` or stops for a
reason in `E`. The rules follow the structure of a program in `Except`.
-/

namespace Outcome

universe u v

def Yields {ε : Type u} {α : Type v} (x : Except ε α) (E : ε → Prop) (Q : α → Prop) : Prop :=
  match x with
  | .ok a => Q a
  | .error e => E e

section
variable {ε : Type u} {α β : Type v} {E E' : ε → Prop} {P Q : α → Prop} {R : β → Prop}

@[simp] theorem yields_ok {a : α} : Yields (.ok a : Except ε α) E Q ↔ Q a := Iff.rfl
@[simp] theorem yields_error {e : ε} : Yields (.error e : Except ε α) E Q ↔ E e := Iff.rfl
@[simp] theorem yields_pure {a : α} : Yields (pure a : Except ε α) E Q ↔ Q a := Iff.rfl
theorem Yields.mono {x : Except ε α} (h : Yields x E P) (hq : ∀ a, P a → Q a)
    (he : ∀ e, E e → E' e) : Yields x E' Q := by
  cases x with
  | ok a => exact hq a h
  | error e => exact he e h

theorem Yields.imp {x : Except ε α} (h : Yields x E P) (hq : ∀ a, P a → Q a) : Yields x E Q :=
  h.mono hq fun _ he => he

theorem Yields.bind {x : Except ε α} {f : α → Except ε β} (h : Yields x E P)
    (hf : ∀ a, P a → Yields (f a) E R) : Yields (x >>= f) E R := by
  cases x with
  | ok a => exact hf a h
  | error e => exact h

theorem Yields.of_eq_ok {x : Except ε α} {a : α} (h : Yields x E Q) (hx : x = .ok a) : Q a := by
  rw [hx] at h
  exact h

theorem Yields.of_ok {x : Except ε α} (h : ∃ a, x = .ok a ∧ Q a) : Yields x E Q := by
  obtain ⟨a, rfl, hq⟩ := h
  exact hq

theorem yields_iff {x : Except ε α} :
    Yields x E Q ↔ (∀ a, x = .ok a → Q a) ∧ ∀ e, x = .error e → E e := by
  cases x <;> simp

theorem bind_ok {x : Except ε α} {f : α → Except ε β} {b : β} :
    x >>= f = .ok b ↔ ∃ a, x = .ok a ∧ f a = .ok b := by
  cases x <;> simp [Bind.bind, Except.bind]

theorem toOption_eq_some {x : Except ε α} {a : α} : x.toOption = some a ↔ x = .ok a := by
  cases x <;> simp [Except.toOption]

/-- Both computations stop for the same reason, or return values that `R` relates. -/
inductive Alike (R : α → β → Prop) : Except ε α → Except ε β → Prop
  | ok {a b} : R a b → Alike R (.ok a) (.ok b)
  | error {e} : Alike R (.error e) (.error e)

theorem Alike.mono {R S : α → β → Prop} {x : Except ε α} {y : Except ε β} (h : Alike R x y)
    (hs : ∀ a b, R a b → S a b) : Alike S x y := by
  cases h with
  | ok hab => exact .ok (hs _ _ hab)
  | error => exact .error

theorem Alike.bind {γ δ : Type v} {R : α → β → Prop} {S : γ → δ → Prop} {x : Except ε α}
    {y : Except ε β} {f : α → Except ε γ} {g : β → Except ε δ} (h : Alike R x y)
    (hf : ∀ a b, R a b → Alike S (f a) (g b)) : Alike S (x >>= f) (y >>= g) := by
  cases h with
  | ok hab => exact hf _ _ hab
  | error => exact .error

/-- The loop rule: `I` holds of the state and the items still to come. -/
theorem Yields.foldlM {γ : Type u} {f : α → γ → Except ε α} (I : List γ → α → Prop)
    (hstep : ∀ c cs a, I (c :: cs) a → Yields (f a c) E (I cs)) {cs : List γ} {a : α}
    (h : I cs a) : Yields (cs.foldlM f a) E (I []) := by
  induction cs generalizing a with
  | nil => exact h
  | cons c cs ih =>
    rw [List.foldlM_cons]
    exact (hstep c cs a h).bind fun a' ha' => ih ha'

end

end Outcome
