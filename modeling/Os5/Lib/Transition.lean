import Mathlib.Tactic

/-!
# Runs of a transition system

A system is a partial step function: an action may be impossible in a state.
`Reach step ok init` holds of the states reached from `init` by steps each of
which meets the condition `ok` on the state before it; with `ok` always true
these are all the reachable states.
-/

namespace Transition

section
variable {σ α : Type*}

inductive Reach (step : σ → α → Option σ) (ok : σ → α → Prop) (init : σ → Prop) : σ → Prop
  | start {s} : init s → Reach step ok init s
  | next {s a s'} : Reach step ok init s → ok s a → step s a = some s' → Reach step ok init s'

/-- No condition on the steps. -/
def Any : σ → α → Prop := fun _ _ => True

variable {step : σ → α → Option σ} {ok ok' : σ → α → Prop} {init I P : σ → Prop} {s s' : σ}

/-- What holds at the start and is kept by every step holds of every state reached. -/
theorem Reach.invariant (h : Reach step ok init s) (h0 : ∀ s, init s → I s)
    (hs : ∀ s a s', I s → ok s a → step s a = some s' → I s') : I s := by
  induction h with
  | start h => exact h0 _ h
  | next _ hok hstep ih => exact hs _ _ _ ih hok hstep

theorem Reach.weaken (h : Reach step ok init s) (hok : ∀ s a, ok s a → ok' s a) :
    Reach step ok' init s := by
  induction h with
  | start h => exact .start h
  | next _ h1 h2 ih => exact .next ih (hok _ _ h1) h2

def exec (step : σ → α → Option σ) (s : σ) (as : List α) : Option σ := as.foldlM step s

@[simp] theorem exec_nil : exec step s [] = some s := rfl

@[simp] theorem exec_cons {a : α} {as : List α} :
    exec step s (a :: as) = (step s a).bind fun s' => exec step s' as := rfl

theorem exec_append {as bs : List α} :
    exec step s (as ++ bs) = (exec step s as).bind fun s' => exec step s' bs := List.foldlM_append

/-- Every action of a list meets the condition in the state it is carried out in. -/
def Along (step : σ → α → Option σ) (ok : σ → α → Prop) (s : σ) : List α → Prop
  | [] => True
  | a :: as => ok s a ∧ ∀ s', step s a = some s' → Along step ok s' as

instance Along.decidable [∀ s a, Decidable (ok s a)] :
    ∀ (s : σ) (as : List α), Decidable (Along step ok s as)
  | _, [] => .isTrue trivial
  | s, a :: as =>
    match h : step s a with
    | none => decidable_of_iff (ok s a) (by simp [Along, h])
    | some t =>
      have := Along.decidable t as
      decidable_of_iff (ok s a ∧ Along step ok t as) (by simp [Along, h])

theorem Reach.along {as : List α} (hs : Reach step ok init s) (hok : Along step ok s as)
    (h : exec step s as = some s') : Reach step ok init s' := by
  induction as generalizing s with
  | nil =>
    cases h
    exact hs
  | cons a as ih =>
    rw [exec_cons] at h
    obtain ⟨t, ht, h⟩ := Option.bind_eq_some_iff.mp h
    exact ih (hs.next hok.1 ht) (hok.2 t ht) h

theorem Reach.exec {as : List α} (hs : Reach step Any init s) (h : exec step s as = some s') :
    Reach step Any init s' := by
  induction as generalizing s with
  | nil =>
    cases h
    exact hs
  | cons a as ih =>
    rw [exec_cons] at h
    obtain ⟨t, ht, h⟩ := Option.bind_eq_some_iff.mp h
    exact ih (hs.next trivial ht) h

end

end Transition
