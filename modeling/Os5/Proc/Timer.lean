import Os5.Proc.Fairness

/-!
# The timer

Every tenth tick takes the processor from the thread that runs, so a thread of the run queue waits
for a bounded number of ticks, whatever the threads before it do.
-/

namespace Os5.Switching

open Transition Kernel

structure Timed where
  kernel : Kernel
  ticks : UInt32

def Timed.timerTick (s : Timed) : Option Timed :=
  let ticks := s.ticks + 1
  if ticks % 10 = 0 then (Kernel.step s.kernel .schedule).map fun k => ⟨k, ticks⟩ else some ⟨s.kernel, ticks⟩

inductive TimedAct where
  | tick
  | act (a : Act)
  deriving DecidableEq

/-- A tick comes while a thread runs; interrupts are off behind the end of a handler. -/
def Timed.step (s : Timed) : TimedAct → Option Timed
  | .tick =>
    match s.kernel.mode with
    | .running _ => s.timerTick
    | _ => none
  | .act a => (Kernel.step s.kernel a).map fun k => { s with kernel := k }

def Timed.call (s : Timed) : TimedAct → Option Act
  | .tick => if (s.ticks + 1) % 10 = 0 then some .schedule else none
  | .act a => some a

def ticksOf (as : List TimedAct) : Nat := as.count .tick

def StillWaits (s s' : Timed) (as : List TimedAct) (th : Nat) (ahead : List Nat) : Prop :=
  ∃ ahead' behind', s'.kernel.lists .runQueue = ahead' ++ th :: behind' ∧ ahead'.Sublist ahead ∧
    ticksOf as + s.ticks.toNat % 10 + 10 * ahead'.length ≤ 10 * ahead.length + 9

/-- The thread has left by the last of so many ticks, those before `s` counted from the last multiple of ten. -/
def LeavesInTime (s : Timed) (as : List TimedAct) (th n : Nat) : Prop :=
  ∃ before a after s1 s2 call, as = before ++ a :: after ∧ exec Timed.step s before = some s1 ∧ s1.step a = some s2 ∧
    s1.call a = some call ∧ Leaves s1.kernel call th s2.kernel ∧ ticksOf before + s.ticks.toNat % 10 ≤ 10 * n + 9

section
variable {s s' s1 : Timed} {k : Kernel} {as : List TimedAct} {a : TimedAct} {th n m : Nat} {l ahead behind : List Nat}

theorem ticks_succ (t : UInt32) (h : (t + 1) % 10 ≠ 0) : (t + 1).toNat % 10 = t.toNat % 10 + 1 := by
  have hlt := t.toNat_lt
  have hnat : (t + 1).toNat % 10 ≠ 0 := fun hzero => h (UInt32.toNat_inj.mp (by simpa using hzero))
  rw [UInt32.toNat_add] at hnat ⊢
  simp only [UInt32.reduceToNat] at hnat ⊢
  by_cases hmax : t.toNat + 1 < 2 ^ 32
  · rw [Nat.mod_eq_of_lt hmax] at hnat ⊢
    omega
  · rw [show t.toNat + 1 = 2 ^ 32 by omega] at hnat
    exact absurd rfl hnat

theorem ticksOf_cons : ticksOf (a :: as) = ticksOf as + (if a = .tick then 1 else 0) := by
  unfold ticksOf
  rw [List.count_cons]
  simp

theorem Timed.step_cases (h : s.step a = some s1) :
    (∃ call, s.call a = some call ∧ Kernel.step s.kernel call = some s1.kernel ∧
      (a = .tick → (∃ c, s.kernel.mode = .running c) ∧ call = .schedule ∧ (s.ticks + 1) % 10 = 0 ∧ s1.ticks = s.ticks + 1) ∧
      (a ≠ .tick → s1.ticks = s.ticks)) ∨
    a = .tick ∧ (s.ticks + 1) % 10 ≠ 0 ∧ s1 = ⟨s.kernel, s.ticks + 1⟩ := by
  cases a with
  | act a =>
    obtain ⟨k, hk, rfl⟩ := Option.map_eq_some_iff.mp h
    exact .inl ⟨a, rfl, hk, fun h => (by cases h), fun _ => rfl⟩
  | tick =>
    rw [Timed.step] at h
    split at h
    · next c hmode =>
      by_cases hdue : (s.ticks + 1) % 10 = 0
      · rw [Timed.timerTick, if_pos hdue] at h
        obtain ⟨k, hk, rfl⟩ := Option.map_eq_some_iff.mp h
        exact .inl ⟨.schedule, if_pos hdue, hk, fun _ => ⟨⟨c, hmode⟩, rfl, hdue, rfl⟩, fun h => absurd rfl h⟩
      · rw [Timed.timerTick, if_neg hdue] at h
        exact .inr ⟨rfl, hdue, (Option.some.inj h).symm⟩
    · cases h

theorem LeavesInTime.after (hstep : s.step a = some s1) (h : LeavesInTime s1 as th n)
    (hn : 10 * n + (if a = .tick then 1 else 0) + s.ticks.toNat % 10 ≤ 10 * m + s1.ticks.toNat % 10) :
    LeavesInTime s (a :: as) th m := by
  obtain ⟨before, b, after, s2, s3, call, rfl, hbefore, hlast, hcall, hl, hticks⟩ := h
  refine ⟨a :: before, b, after, s2, s3, call, rfl, ?_, hlast, hcall, hl, ?_⟩
  · rw [exec_cons, hstep]
    exact hbefore
  · rw [ticksOf_cons]
    omega

theorem Kernel.InLine.timed (hk : InLine (some th) l s.kernel) (hth : s.kernel.thread th ≠ none) (h : Transition.exec Timed.step s as = some s') :
    StillWaits s s' as th l ∨ LeavesInTime s as th l.length := by
  induction as generalizing s l with
  | nil =>
    obtain rfl := Option.some.inj h
    obtain ⟨ahead, behind, hsub, hqueue⟩ := hk.place th rfl hth
    have hlen := hsub.length_le
    refine .inl ⟨ahead, behind, hqueue, hsub, ?_⟩
    rw [show ticksOf [] = 0 from rfl]
    omega
  | cons a as ih =>
    rw [exec_cons] at h
    obtain ⟨s1, hstep, h⟩ := Option.bind_eq_some_iff.mp h
    obtain ⟨call, hcall, hkernel, htick, hact⟩ | ⟨rfl, hdue, rfl⟩ := Timed.step_cases hstep
    · have hfirst : Leaves s.kernel call th s1.kernel → LeavesInTime s (a :: as) th l.length := by
        intro hl
        refine ⟨[], a, as, s, s1, call, rfl, rfl, hstep, hcall, hl, ?_⟩
        rw [show ticksOf [] = 0 from rfl]
        omega
      cases hk.carryOut.of_eq_ok (step_eq_some.mp hkernel) with
      | leaves u ho hl =>
        obtain rfl := Option.some.inj ho
        exact .inr (hfirst hl)
      | waits l1 hsub hlen h1 =>
        by_cases hfreed : s1.kernel.thread th = none
        · exact .inr (hfirst (.freed hfreed))
        have hlen := hlen (Option.some_ne_none th)
        -- a tick with a call is a turn, and the count begins again
        have hcount : 10 * l1.length + (if a = .tick then 1 else 0) + s.ticks.toNat % 10 ≤
            10 * l.length + s1.ticks.toNat % 10 := by
          by_cases ha : a = .tick
          · obtain ⟨⟨c, hmode⟩, rfl, -, -⟩ := htick ha
            rw [switches, hmode] at hlen
            have hturn : l1.length + 1 ≤ l.length := hlen
            rw [if_pos ha]
            omega
          · rw [if_neg ha, hact ha]
            omega
        rcases ih h1 hfreed h with ⟨ahead, behind, hqueue, hsub', hlen'⟩ | hl
        · refine .inl ⟨ahead, behind, hqueue, hsub'.trans hsub, ?_⟩
          rw [ticksOf_cons]
          omega
        · exact .inr (hl.after hstep hcount)
    · have hcount : (⟨s.kernel, s.ticks + 1⟩ : Timed).ticks.toNat % 10 = s.ticks.toNat % 10 + 1 := ticks_succ s.ticks hdue
      rcases @ih ⟨s.kernel, s.ticks + 1⟩ l hk hth h with ⟨ahead, behind, hqueue, hsub, hlen⟩ | hl
      · refine .inl ⟨ahead, behind, hqueue, hsub, ?_⟩
        rw [ticksOf_cons, if_pos rfl]
        omega
      · refine .inr (hl.after hstep ?_)
        rw [if_pos rfl]
        omega

/-- A thread that waits in the run queue behind `n` others leaves it by the tick `10 * n + 10`. -/
theorem served_in_time (hk : Reach Kernel.step Any Kernel.Booted s.kernel) (hqueue : s.kernel.lists .runQueue = ahead ++ th :: behind)
    (h : exec Timed.step s as = some s') : StillWaits s s' as th ahead ∨ LeavesInTime s as th ahead.length := by
  obtain ⟨hline, hth⟩ := inLine_of_reach hk hqueue
  exact hline.timed hth h

end

def thirtyTicks : List TimedAct :=
  List.replicate 10 .tick ++ List.replicate 10 .tick ++ [.act .go] ++ List.replicate 10 .tick ++ [.act .go]

theorem served_in_time_threeWait : ∃ k s', exec Kernel.step (boot 0x1000) threeWait = some k ∧ k.lists .runQueue = [1, 3, 4] ∧
    exec Timed.step ⟨k, 0⟩ thirtyTicks = some s' ∧ s'.kernel.mode = .running 4 ∧
    (StillWaits ⟨k, 0⟩ s' thirtyTicks 4 [1, 3] ∨ LeavesInTime ⟨k, 0⟩ thirtyTicks 4 2) := by
  have hrun : (exec Kernel.step (boot 0x1000) threeWait).any (fun k => decide (k.lists .runQueue = [1, 3, 4]) &&
      (exec Timed.step ⟨k, 0⟩ thirtyTicks).any fun s => decide (s.kernel.mode = .running 4)) = true := by
    decide +kernel
  obtain ⟨k, hk, htest⟩ := (Option.any_eq_true _ _).mp hrun
  rw [Bool.and_eq_true] at htest
  obtain ⟨s', hs', hmode⟩ := (Option.any_eq_true _ _).mp htest.2
  have hqueue := of_decide_eq_true htest.1
  refine ⟨k, s', hk, hqueue, hs', of_decide_eq_true hmode, ?_⟩
  exact @served_in_time ⟨k, 0⟩ s' thirtyTicks 4 [1, 3] [] ((Reach.start ⟨0x1000, rfl⟩).exec hk) hqueue hs'

end Os5.Switching
