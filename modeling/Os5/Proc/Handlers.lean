import Os5.Proc.Turns

/-!
# Handlers of signals

A thread that a handler was started for sleeps until the handler returns, as long as no second handler
is started for it in between: that would move it to the list of the second one, and both would have
the same stack.
-/

namespace Os5.Switching.Kernel

open Outcome Transition

/-- The thread `h` was started for a signal to `th`, and has not returned. -/
def handlerAlive (k : Kernel) (h th : Nat) : Bool :=
  (k.thread h).any fun H => decide (H.saved ≠ .exited) && decide (H.handles = some th)

def OneHandler (k : Kernel) (a : Act) : Prop :=
  ∀ th ∈ k.handled a, k.startsHandler th = true → ∀ h < k.nextTid, k.handlerAlive h th = false

instance OneHandler.decidable (k : Kernel) (a : Act) : Decidable (OneHandler k a) := by
  unfold OneHandler
  infer_instance

/-- A thread with a handler sleeps until that has returned, and has no other. -/
structure Handled (k : Kernel) : Prop where
  bound : ∀ h th, k.handlerAlive h th = true → th < k.nextTid
  asleep : ∀ h th T, k.handlerAlive h th = true → k.thread th = some T → T.on = some (.thread h) ∧ T.state ≠ .ready
  one : ∀ h h' th, k.handlerAlive h th = true → k.handlerAlive h' th = true → h' = h

section
variable {k k' k1 : Kernel} {h h' th c : Nat} {H T : Thread} {a : Act}

theorem handlerAlive_iff : k.handlerAlive h th = true ↔ ∃ H, k.thread h = some H ∧ H.saved ≠ .exited ∧ H.handles = some th := by
  unfold handlerAlive
  rw [Option.any_eq_true]
  simp only [Bool.and_eq_true, decide_eq_true_eq]

theorem Quiet.handlerAlive (hq : Quiet k k') (h' : k'.handlerAlive h th = true) : k.handlerAlive h th = true := by
  obtain ⟨H', hH', hlive, hhandles⟩ := handlerAlive_iff.mp h'
  rcases hq.thread h H' hH' with ⟨H, hH, hsame, hlive', -⟩ | ⟨-, hnone⟩
  · exact handlerAlive_iff.mpr ⟨H, hH, hlive' hlive, hsame.symm.trans hhandles⟩
  · cases hnone.symm.trans hhandles

theorem Handled.quiet (hk : k.Handled) (hq : Quiet k k') : k'.Handled where
  bound h th hh := Nat.lt_of_lt_of_le (hk.bound h th (hq.handlerAlive hh)) hq.nextTid
  asleep h th T' hh hT' := by
    have hh := hq.handlerAlive hh
    rcases hq.thread th T' hT' with ⟨T, hT, -, -, hon⟩ | ⟨hnew, -⟩
    · obtain ⟨hthread, hstate⟩ := hk.asleep h th T hh hT
      exact ⟨(hon h hthread).1, fun hready => hstate ((hon h hthread).2 hready)⟩
    · exact absurd (hk.bound h th hh) (Nat.not_lt_of_le hnew)
  one h h' th hh hh' := hk.one h h' th (hq.handlerAlive hh) (hq.handlerAlive hh')

theorem Suspended.handlerAlive (hs : Suspended k th k1) {u : Nat} (hh : k1.handlerAlive h u = true) :
    h = k.nextTid ∧ u = th ∨ h ≠ k.nextTid ∧ k.handlerAlive h u = true := by
  obtain ⟨H, hH, hlive, hhandles⟩ := handlerAlive_iff.mp hh
  by_cases hnew : h = k.nextTid
  · obtain ⟨H', hH', hhandles', -⟩ := hs.handler
    obtain rfl := Option.some.inj (hH'.symm.trans (hnew ▸ hH))
    exact .inl ⟨hnew, Option.some.inj (hhandles.symm.trans hhandles')⟩
  · refine .inr ⟨hnew, handlerAlive_iff.mpr ?_⟩
    by_cases hth : h = th
    · subst hth
      rw [hs.asleep] at hH
      obtain ⟨T, hT, rfl⟩ := Option.map_eq_some_iff.mp hH
      exact ⟨T, hT, hlive, hhandles⟩
    · exact ⟨H, (hs.others h hth hnew).symm.trans hH, hlive, hhandles⟩

theorem Handled.suspended (hk : k.Handled) (hth : th < k.nextTid) (hnone : ∀ h, k.handlerAlive h th = false)
    (hs : Suspended k th k1) : k1.Handled where
  bound h u hh := by
    rw [hs.nextTid]
    rcases hs.handlerAlive hh with ⟨-, rfl⟩ | ⟨-, hh⟩
    · exact Nat.lt_succ_of_lt hth
    · exact Nat.lt_succ_of_lt (hk.bound h u hh)
  asleep h u U hh hU := by
    rcases hs.handlerAlive hh with ⟨rfl, rfl⟩ | ⟨-, hh⟩
    · rw [hs.asleep] at hU
      obtain ⟨T, -, rfl⟩ := Option.map_eq_some_iff.mp hU
      exact ⟨rfl, nofun⟩
    · have hne : u ≠ th := by
        rintro rfl
        cases (hnone h).symm.trans hh
      exact hk.asleep h u U hh ((hs.others u hne (Nat.ne_of_lt (hk.bound h u hh))).symm.trans hU)
  one h h' u hh hh' := by
    rcases hs.handlerAlive hh with ⟨rfl, rfl⟩ | ⟨-, hh⟩
    · rcases hs.handlerAlive hh' with ⟨rfl, -⟩ | ⟨-, hh'⟩
      · rfl
      · cases (hnone h').symm.trans hh'
    · rcases hs.handlerAlive hh' with ⟨-, rfl⟩ | ⟨-, hh'⟩
      · cases (hnone h).symm.trans hh
      · exact hk.one h h' u hh hh'

theorem Resumed.handlerAlive (hr : Resumed k c k1) (hh : k1.handlerAlive h th = true) : h ≠ c ∧ k.handlerAlive h th = true := by
  obtain ⟨H, hH, hlive, hhandles⟩ := handlerAlive_iff.mp hh
  have hne : h ≠ c := by
    rintro rfl
    exact hlive (hr.ended H hH)
  refine ⟨hne, handlerAlive_iff.mpr ?_⟩
  rw [hr.others h hne] at hH
  split at hH
  · obtain ⟨T, hT, rfl⟩ := Option.map_eq_some_iff.mp hH
    exact ⟨T, hT, hlive, hhandles⟩
  · exact ⟨H, hH, hlive, hhandles⟩

theorem Handled.resumed (hk : k.Handled) (hsound : k.Sound none) (hc : k.Up c) (hr : Resumed k c k1) : k1.Handled where
  bound h th hh := hr.nextTid ▸ hk.bound h th (hr.handlerAlive hh).2
  asleep h th T hh hT := by
    obtain ⟨hne, hh⟩ := hr.handlerAlive hh
    have hth : th ≠ c := by
      rintro rfl
      obtain ⟨C, hC, hon, -⟩ := hc
      cases hon.symm.trans (hk.asleep h _ C hh hC).1
    rw [hr.others th hth] at hT
    split at hT
    · next hmem =>
      obtain ⟨U, hU, hon⟩ := hsound.listed (.thread c) th hmem
      cases hon.symm.trans (hk.asleep h th U hh hU).1
      exact absurd rfl hne
    · exact hk.asleep h th T hh hT
  one h h' th hh hh' := hk.one h h' th (hr.handlerAlive hh).2 (hr.handlerAlive hh').2

theorem Handled.step (hk : k.Handled) (hsteady : k.Steady) (hone : OneHandler k a) (hm : Moves k a k') : k'.Handled := by
  cases hm with
  | quiet hq => exact hk.quiet hq
  | suspended th k1 hth hstarts hs hq =>
    have hnone : ∀ h, k.handlerAlive h th = false := by
      intro h
      by_cases hlt : h < k.nextTid
      · exact hone th hth hstarts h hlt
      · rw [Bool.eq_false_iff]
        intro hh
        obtain ⟨H, hH, -⟩ := handlerAlive_iff.mp hh
        exact hlt (hsteady.sound.fresh h H hH)
    have hlt : th < k.nextTid := by
      obtain ⟨T, hT⟩ : ∃ T, k.thread th = some T := by
        unfold startsHandler pending at hstarts
        cases hT : k.thread th with
        | none => simp [hT] at hstarts
        | some T => exact ⟨T, rfl⟩
      exact hsteady.sound.fresh th T hT
    exact (hk.suspended hlt hnone hs).quiet hq
  | resumed c k1 hc hr hq => exact (hk.resumed hsteady.sound hc hr).quiet hq

theorem Booted.handled (hk : Booted k) : k.Handled := by
  obtain ⟨useresp, rfl⟩ := hk
  have hnone : ∀ h th, (boot useresp).handlerAlive h th = true → False := by
    intro h th hh
    obtain ⟨H, hH, -, hhandles⟩ := handlerAlive_iff.mp hh
    simp only [boot, Function.update_apply] at hH
    grind
  exact ⟨fun h th hh => (hnone h th hh).elim, fun h th T hh => (hnone h th hh).elim, fun h h' th hh => (hnone h th hh).elim⟩

/-- What a thread `th` with the handler `h` cannot do. -/
structure Waits (k : Kernel) (h th : Nat) : Prop where
  state : ∀ T, k.thread th = some T → T.state ≠ .ready
  queue : th ∉ k.lists .runQueue
  running : k.mode ≠ .running th ∧ (∀ p, k.mode ≠ .posted th p ∧ k.mode ≠ .signalling th p) ∧ ∀ c, k.mode ≠ .returning c th
  one : ∀ h', k.handlerAlive h' th = true → h' = h

theorem Handled.waits (hk : k.Handled) (hsteady : k.Steady) (hh : k.handlerAlive h th = true) : k.Waits h th := by
  have hup : ¬k.Up th := by
    rintro ⟨T, hT, hon, -⟩
    cases hon.symm.trans (hk.asleep h th T hh hT).1
  have hplace := hsteady.place
  unfold At at hplace
  refine ⟨fun T hT => (hk.asleep h th T hh hT).2, fun hmem => ?_, ⟨fun hm => ?_, fun p => ⟨fun hm => ?_, fun hm => ?_⟩, fun c hm => ?_⟩,
    fun h' hh' => hk.one h h' th hh hh'⟩
  · obtain ⟨T, hT, hon⟩ := hsteady.sound.listed _ th hmem
    cases hon.symm.trans (hk.asleep h th T hh hT).1
  all_goals
    rw [hm] at hplace
    first | exact hup hplace | exact hup hplace.1

/-- In every order of orderly steps that start no handler for a thread that has one: as long as the handler
has not returned, the thread does not run and is not ready to, and no other handler for it is alive. -/
theorem waits_for_handler (hk : Reach step (fun k a => Orderly k a ∧ OneHandler k a) Booted k)
    (hh : k.handlerAlive h th = true) : k.Waits h th := by
  have hall : k.Steady ∧ k.Handled := by
    refine hk.invariant (I := fun k => k.Steady ∧ k.Handled) (fun k hk => ⟨hk.steady, hk.handled⟩) ?_
    rintro k a k' ⟨hsteady, hhandled⟩ ⟨horderly, hone⟩ hstep
    obtain ⟨hsteady', hmoves⟩ := (hsteady.carryOut horderly).of_eq_ok (step_eq_some.mp hstep)
    exact ⟨hsteady', hhandled.step hsteady hone hmoves⟩
  exact hall.2.waits hall.1 hh

end

def handlerStarted : List Act :=
  [.schedule, .go, .signal 10 0x1000, .fork, .schedule, .schedule, .go, .sleep (.pipe 0), .kill 2 10, .go, .go]

theorem handlerStarted_waits : ∃ k, exec step (boot 0x1000) handlerStarted = some k ∧ k.Waits 4 3 := by
  have hrun : (exec step (boot 0x1000) handlerStarted).any (fun k => k.handlerAlive 4 3) = true := by decide +kernel
  obtain ⟨k, hk, halive⟩ := (Option.any_eq_true _ _).mp hrun
  have horderly : Along step (fun k a => Orderly k a ∧ OneHandler k a) (boot 0x1000) handlerStarted := by decide +kernel
  exact ⟨k, hk, waits_for_handler ((Reach.start ⟨0x1000, rfl⟩).along horderly hk) halive⟩

/-- A second signal while the first handler sleeps starts thread 5 on the stack of thread 4; when thread 5
has returned thread 3 is ready, though thread 4 has not. -/
theorem second_handler : ∃ k k', Reach step Any Booted k ∧ k.handlerAlive 4 3 = true ∧ k.handlerAlive 5 3 = true ∧
    (k.thread 4).map (·.useresp) = (k.thread 5).map (·.useresp) ∧ step k .returnFromSignal = some k' ∧
    k'.handlerAlive 4 3 = true ∧ (k'.thread 3).map (·.state) = some .ready := by
  have hrun : (exec step (boot 0x1000) (handlerStarted ++ [.schedule, .schedule, .kill 2 10, .go, .go])).any (fun k =>
      k.handlerAlive 4 3 && k.handlerAlive 5 3 && decide ((k.thread 4).map (·.useresp) = (k.thread 5).map (·.useresp)) &&
        (step k .returnFromSignal).any fun k' => k'.handlerAlive 4 3 && decide ((k'.thread 3).map (·.state) = some .ready)) = true := by
    decide +kernel
  obtain ⟨k, hk, htest⟩ := (Option.any_eq_true _ _).mp hrun
  simp only [Bool.and_eq_true, decide_eq_true_eq] at htest
  obtain ⟨⟨⟨h4, h5⟩, hstack⟩, hreturn⟩ := htest
  obtain ⟨k', hstep, htest'⟩ := (Option.any_eq_true _ _).mp hreturn
  simp only [Bool.and_eq_true, decide_eq_true_eq] at htest'
  exact ⟨k, k', (Reach.start ⟨0x1000, rfl⟩).exec hk, h4, h5, hstack, hstep, htest'⟩

end Os5.Switching.Kernel
