import Mathlib.Tactic

/-!
# Paths as byte strings

A string is the list of its bytes before the terminating zero.
-/

namespace Os5

abbrev Name := List UInt8

def slash : UInt8 := 47

/-- The tokens of repeated `strsep(path, "/")`: empty ones between adjacent
slashes and at the ends. -/
def pieces (s : Name) : List Name := s.splitOn slash

/-- The tokens of repeated `strtok(path, "/")`. -/
def tokens (s : Name) : List Name := (pieces s).filter fun t => t ≠ []

/-- `strchr(s, '/')`: the rest of the string from the first slash on. -/
def strchr (s : Name) : Option Name :=
  match s.dropWhile (· ≠ slash) with
  | [] => none
  | r => some r

theorem pieces_of_notMem {s : Name} (h : slash ∉ s) : pieces s = [s] :=
  List.splitOnP_eq_singleton fun _ hx => beq_eq_false_iff_ne.mpr (ne_of_mem_of_not_mem hx h)

theorem pieces_append {s r : Name} (h : slash ∉ s) : pieces (s ++ slash :: r) = s :: pieces r :=
  List.splitOnP_append_cons_of_forall_mem
    (fun _ hx => beq_eq_false_iff_ne.mpr (ne_of_mem_of_not_mem hx h)) slash (beq_self_eq_true _) r

theorem pieces_slash (s : Name) : pieces (slash :: s) = [] :: pieces s := pieces_append List.not_mem_nil

theorem pieces_cons {c : UInt8} (hc : c ≠ slash) (s : Name) :
    ∃ m ms, pieces s = m :: ms ∧ pieces (c :: s) = (c :: m) :: ms := by
  cases hs : pieces s with
  | nil => exact absurd hs (List.splitOn_ne_nil _ _)
  | cons m ms =>
    refine ⟨m, ms, rfl, ?_⟩
    rw [pieces] at hs
    rw [pieces, List.splitOn_cons_eq_if_modifyHead, if_neg (by simpa using hc), hs]
    rfl

theorem pieces_cases (s : Name) :
    slash ∉ s ∧ strchr s = none ∨
      ∃ a r, slash ∉ a ∧ s = a ++ slash :: r ∧ strchr s = some (slash :: r) := by
  induction s with
  | nil => exact Or.inl ⟨List.not_mem_nil, rfl⟩
  | cons c s ih =>
    by_cases hc : c = slash
    · subst hc
      exact Or.inr ⟨[], s, List.not_mem_nil, rfl, rfl⟩
    have hdrop : strchr (c :: s) = strchr s := by simp [strchr, hc]
    obtain ⟨hs, hnone⟩ | ⟨a, r, ha, rfl, hsome⟩ := ih
    · left
      exact ⟨by simp [hs, Ne.symm hc], hdrop.trans hnone⟩
    · right
      exact ⟨c :: a, r, by simp [ha, Ne.symm hc], rfl, hdrop.trans hsome⟩

theorem tokens_slash (r : Name) : tokens (slash :: r) = tokens r := by
  simp [tokens, pieces_slash]

theorem tokens_strchr {s r : Name} (hs : s.head? ≠ some slash) (h : strchr s = some r) :
    tokens r = (tokens s).tail := by
  obtain ⟨-, hnone⟩ | ⟨a, r', ha, rfl, hsome⟩ := pieces_cases s
  · rw [hnone] at h
    cases h
  rw [hsome] at h
  cases h
  have hne : a ≠ [] := by
    rintro rfl
    exact hs rfl
  rw [tokens_slash, tokens, tokens, pieces_append ha, List.filter_cons_of_pos (by simpa using hne)]
  rfl

theorem tokens_of_strchr_none {s : Name} (h : strchr s = none) : (tokens s).tail = [] := by
  obtain ⟨hs, -⟩ | ⟨a, r, -, -, hsome⟩ := pieces_cases s
  · rw [tokens, pieces_of_notMem hs]
    cases s <;> rfl
  · rw [hsome] at h
    cases h

end Os5
