import Os5.Fs.Access

/-!
# Pending signals

`kill` puts a signal at the end of the queue of a process, and `handle_signals` takes one from
it later and looks up what to do in three tables. The loop that looks for a signal leaves a
pointer to the last one it has looked at, blocked or not.
-/

namespace Os5

open Transition

abbrev numSignals : Nat := 32

abbrev sigDfl : Nat := 0
abbrev sigIgn : Nat := 1
abbrev sigKill : Int := 9
abbrev sigStop : Int := 23

abbrev signalReturnAddress : Nat := 0xDEAD5165

inductive SigAction
  | terminate
  | coredump
  | ignore
  | stop
  | continue
  deriving DecidableEq, Repr

/-- `default_sign`, with a null pointer for signal 0. -/
def defaultSign : List (Option SigAction) :=
  [none, some .terminate, some .terminate, some .coredump, some .coredump, some .coredump, some .coredump,
    some .coredump, some .coredump, some .terminate, some .coredump, some .coredump, some .coredump,
    some .terminate, some .terminate, some .terminate, some .terminate, some .terminate, some .ignore,
    some .ignore, some .ignore, some .ignore, some .ignore, some .stop, some .stop, some .continue,
    some .stop, some .stop, some .terminate, some .terminate, some .coredump, some .coredump, some .ignore]

structure Signal where
  sig : Nat
  sender : Pid
  deriving DecidableEq, Repr

/-- What a process has for its signals. An index outside a table is the word or byte there. -/
structure Signals where
  handler : Nat → Nat
  blocked : Nat → Nat
  queue : List Signal

/-- The thread that runs a handler: where it starts, its stack, and the words put there. -/
structure HandlerThread where
  eip : Nat
  useresp : Nat
  ebp : Nat
  words : List (Nat × Nat)
  deriving DecidableEq, Repr

inductive Dispatch
  | ignore
  | default (signum : Nat)
  | custom (h : HandlerThread)
  deriving DecidableEq, Repr

def findSignal (blocked : Nat → Nat) : Option (Nat × Signal) → Nat → List Signal → Option (Nat × Signal)
  | signal, _, [] => signal
  | _, i, s :: rest =>
    if blocked s.sig ≠ 0 then findSignal blocked (some (i, s)) (i + 1) rest
    else some (i, s)

/-- The stack of the new thread is that of the old one, below its stack pointer. -/
def handlerThread (handler signum useresp : Nat) : HandlerThread :=
  let stack := wrap (useresp + 2 ^ 32 - 8)
  ⟨handler, stack, stack, [(wrap (useresp + 2 ^ 32 - 4), signum), (stack, signalReturnAddress)]⟩

def Signals.dispatch (p : Signals) (signal : Signal) (useresp : Nat) : Dispatch :=
  if p.handler signal.sig = sigIgn then .ignore
  else if p.handler signal.sig = sigDfl then .default signal.sig
  else .custom (handlerThread (p.handler signal.sig) signal.sig useresp)

def handleSignals (p : Signals) (useresp : Nat) : Option Dispatch × Signals :=
  match findSignal p.blocked none 0 p.queue with
  | none => (none, p)
  | some (i, signal) => (some (p.dispatch signal useresp), { p with queue := p.queue.eraseIdx i })

-- ---------------------------------------------------------------------------
-- The oldest signal that is not blocked
-- ---------------------------------------------------------------------------

/-- The oldest signal that is not blocked is acted on and taken out, and without one nothing
happens. -/
structure HandlesOldest (p : Signals) (useresp : Nat) : Prop where
  acts : ∀ pre signal post, p.queue = pre ++ signal :: post → (∀ s ∈ pre, p.blocked s.sig ≠ 0) →
    p.blocked signal.sig = 0 →
    handleSignals p useresp = (some (p.dispatch signal useresp), { p with queue := pre ++ post })
  rests : (∀ s ∈ p.queue, p.blocked s.sig ≠ 0) → handleSignals p useresp = (none, p)

section
variable {p : Signals} {blocked : Nat → Nat} {c : Option (Nat × Signal)} {i useresp : Nat}
  {pre post queue : List Signal} {signal : Signal}

theorem findSignal_first (hpre : ∀ s ∈ pre, blocked s.sig ≠ 0) (hfree : blocked signal.sig = 0) :
    findSignal blocked c i (pre ++ signal :: post) = some (i + pre.length, signal) := by
  induction pre generalizing c i with
  | nil => exact if_neg (not_not.mpr hfree)
  | cons s pre ih =>
    rw [List.cons_append, findSignal, if_pos (hpre s List.mem_cons_self),
      ih fun s hs => hpre s (List.mem_cons_of_mem _ hs), List.length_cons, Nat.add_assoc, Nat.add_comm 1]

/-- Through the whole queue it carries the last one along. -/
theorem findSignal_last (hall : ∀ s ∈ queue, blocked s.sig ≠ 0) (hsome : c.isSome = true ∨ queue ≠ []) :
    (findSignal blocked c i queue).isSome = true := by
  induction queue generalizing c i with
  | nil => exact hsome.resolve_right fun hne => hne rfl
  | cons s queue ih =>
    rw [findSignal, if_pos (hall s List.mem_cons_self)]
    exact ih (fun s hs => hall s (List.mem_cons_of_mem _ hs)) (.inl rfl)

/-- `handle_signals` does what it should unless there are signals, all of them blocked. -/
theorem handleSignals_law : HandlesOldest p useresp ↔ p.queue = [] ∨ ∃ s ∈ p.queue, p.blocked s.sig = 0 := by
  constructor
  · intro h
    by_contra hnot
    push Not at hnot
    obtain ⟨hne, hall⟩ := hnot
    obtain ⟨⟨i, signal⟩, hfound⟩ :=
      Option.isSome_iff_exists.mp (@findSignal_last p.blocked none 0 p.queue hall (.inr hne))
    have hrests := congrArg Prod.fst (h.rests hall)
    rw [handleSignals, hfound] at hrests
    cases hrests
  · intro h
    constructor
    · intro pre signal post hqueue hpre hfree
      have hfound := @findSignal_first p.blocked none 0 pre post signal hpre hfree
      rw [handleSignals, hqueue, hfound]
      simp only [Nat.zero_add, List.eraseIdx_append_of_length_le le_rfl, Nat.sub_self, List.eraseIdx_cons_zero]
    · intro hall
      rcases h with hnil | ⟨s, hs, hfree⟩
      · rw [handleSignals, hnil]
        rfl
      · exact absurd hfree (hall s hs)

end

def blockedSignals (queue : List Signal) : Signals where
  handler := fun i => if i = 15 then 0x1000 else 0
  blocked := fun i => if i = 2 then 1 else 0
  queue := queue

/-- Two pending signals, the older of which is blocked. -/
example : handleSignals (blockedSignals [⟨2, 1⟩, ⟨15, 1⟩]) 0xBFFFE000 =
    (some (.custom (handlerThread 0x1000 15 0xBFFFE000)), blockedSignals [⟨2, 1⟩]) := rfl

/-- The only pending signal is blocked and acted on all the same. -/
theorem handleSignals_blocked : (∀ s ∈ (blockedSignals [⟨2, 1⟩]).queue, (blockedSignals [⟨2, 1⟩]).blocked s.sig ≠ 0) ∧
    handleSignals (blockedSignals [⟨2, 1⟩]) 0xBFFFE000 = (some (.default 2), blockedSignals []) ∧
    ¬HandlesOldest (blockedSignals [⟨2, 1⟩]) 0xBFFFE000 := by
  have hblocked : ∀ s ∈ (blockedSignals [⟨2, 1⟩]).queue, (blockedSignals [⟨2, 1⟩]).blocked s.sig ≠ 0 := by decide
  have hacts : handleSignals (blockedSignals [⟨2, 1⟩]) 0xBFFFE000 = (some (.default 2), blockedSignals []) := rfl
  refine ⟨hblocked, hacts, fun h => ?_⟩
  have hrests := congrArg Prod.fst (h.rests hblocked)
  rw [hacts] at hrests
  cases hrests

-- ---------------------------------------------------------------------------
-- The numbers of signals
-- ---------------------------------------------------------------------------

/-- An entry of a table that is used; of `default_sign` it is called. -/
inductive TableUse
  | handler (i : Nat)
  | blocked (i : Nat)
  | default (i : Nat)
  deriving DecidableEq, Repr

def TableUse.InRange : TableUse → Prop
  | .handler i => i < numSignals
  | .blocked i => i < numSignals
  | .default i => ∃ a, defaultSign[i]? = some (some a)

def scanned (blocked : Nat → Nat) : List Signal → List Signal
  | [] => []
  | s :: rest => if blocked s.sig ≠ 0 then s :: scanned blocked rest else [s]

def Signals.dispatchUses (p : Signals) (signal : Signal) : List TableUse :=
  .handler signal.sig :: if p.handler signal.sig = sigDfl then [.default signal.sig] else []

def handleUses (p : Signals) : List TableUse :=
  (scanned p.blocked p.queue).map (TableUse.blocked ·.sig) ++
    match findSignal p.blocked none 0 p.queue with
    | none => []
    | some (_, signal) => p.dispatchUses signal

/-- A process, which stays in the list of processes for a while when it has finished. -/
structure SignalProcess extends Signals where
  finished : Bool

abbrev SignalSystem := Pid → Option SignalProcess

inductive SignalErrno
  | EINVAL
  | ESRCH
  deriving DecidableEq, Repr

def SignalSystem.set (s : SignalSystem) (p : Pid) (v : SignalProcess) : SignalSystem := Function.update s p (some v)

/-- `signal` by process `q` with the tables `p`; the old handler, and the entry it is in. -/
def sysSignal (s : SignalSystem) (q : Pid) (p : SignalProcess) (sig : Int) (handler : Nat) :
    Except SignalErrno (Nat × TableUse) × SignalSystem :=
  if sig > numSignals then (.error .EINVAL, s)
  else if (sig = sigKill ∨ sig = sigStop) ∧ handler ≠ 0 then (.error .EINVAL, s)
  else
    let i := asUint sig
    (.ok (p.handler i, .handler i), s.set q { p with handler := Function.update p.handler i handler })

/-- `signal_process`, up to where it has the signal handled. -/
def signalProcess (s : SignalSystem) (sender : Pid) (pid : Pid) (signum : Nat) : Int × SignalSystem :=
  match s pid with
  | none => (-1, s)
  | some p =>
    if p.finished then (-1, s)
    else (0, s.set pid { p with queue := p.queue ++ [⟨signum, sender⟩] })

def sysKill (s : SignalSystem) (sender : Pid) (pid sig : Int) : Except SignalErrno Unit × SignalSystem :=
  if pid ≤ 0 then (.error .ESRCH, s)
  else if sig > numSignals then (.error .EINVAL, s)
  else if (s pid.toNat).isNone then (.error .ESRCH, s)
  else (.ok (), (signalProcess s sender pid.toNat (asUint sig)).2)

/-- `signal` uses an entry of the table, or refuses and stores nothing. -/
def SignalRight (sig : Int) : Prop :=
  ∀ s q p handler, (∃ old use s', sysSignal s q p sig handler = (.ok (old, use), s') ∧ use.InRange) ∨
    sysSignal s q p sig handler = (.error .EINVAL, s)

def Handleable (sig : Nat) : Prop :=
  TableUse.InRange (.blocked sig) ∧ ∀ (p : Signals) (sender : Pid), ∀ u ∈ p.dispatchUses ⟨sig, sender⟩, u.InRange

def KillRight (sig : Int) : Prop :=
  ∀ (s : SignalSystem) sender (pid : Int), 0 < pid → (s pid.toNat).isSome = true →
    ((sysKill s sender pid sig).1 = .ok () ∧ Handleable (asUint sig)) ∨
      sysKill s sender pid sig = (.error .EINVAL, s)

inductive SignalAct
  | signal (q : Pid) (sig : Int) (handler : Nat)
  | kill (sender : Pid) (pid sig : Int)
  | handle (pid : Pid) (useresp : Nat)

def signalStep (s : SignalSystem) : SignalAct → Option SignalSystem
  | .signal q sig handler => (s q).map fun p => (sysSignal s q p sig handler).2
  | .kill sender pid sig => some (sysKill s sender pid sig).2
  | .handle pid useresp => (s pid).map fun p =>
    s.set pid { p with toSignals := (handleSignals p.toSignals useresp).2 }

def NumberFits (_ : SignalSystem) : SignalAct → Prop
  | .signal _ sig _ => (0 ≤ sig ∧ sig < numSignals) ∨ numSignals < sig
  | .kill _ _ sig => (1 ≤ sig ∧ sig < numSignals) ∨ numSignals < sig
  | .handle _ _ => True

instance (s : SignalSystem) : ∀ a, Decidable (NumberFits s a)
  | .signal _ _ _ => inferInstanceAs (Decidable (_ ∨ _))
  | .kill _ _ _ => inferInstanceAs (Decidable (_ ∨ _))
  | .handle _ _ => .isTrue trivial

def NonePending (s : SignalSystem) : Prop := ∀ pid p, s pid = some p → p.queue = []

def UsesInRange (s : SignalSystem) : Prop := ∀ pid p, s pid = some p → ∀ u ∈ handleUses p.toSignals, u.InRange

section
variable {s s' : SignalSystem} {p : Signals} {sig : Int} {n : Nat} {a : SignalAct}

theorem handleable_iff : Handleable n ↔ 1 ≤ n ∧ n < numSignals := by
  constructor
  · rintro ⟨hblocked, hall⟩
    refine ⟨Nat.one_le_iff_ne_zero.mpr ?_, hblocked⟩
    rintro rfl
    obtain ⟨a, ha⟩ := hall ⟨fun _ => sigDfl, fun _ => 0, []⟩ 0 (.default 0) (by simp [Signals.dispatchUses])
    cases ha
  · rintro ⟨h1, h2⟩
    refine ⟨h2, fun p sender u hu => ?_⟩
    rcases List.mem_cons.mp hu with rfl | hu
    · exact h2
    · split at hu
      · rw [List.mem_singleton.mp hu]
        have hentries : ∀ i < numSignals, 1 ≤ i → (defaultSign[i]?.bind id).isSome = true := by decide
        obtain ⟨a, ha⟩ := Option.isSome_iff_exists.mp (hentries n h2 h1)
        obtain ⟨b, hb, rfl⟩ := Option.bind_eq_some_iff.mp ha
        exact ⟨a, hb⟩
      · cases hu

theorem asUint_small (h0 : 0 ≤ sig) (hlt : sig ≤ numSignals) : asUint sig = sig.toNat := by
  have hlt32 : sig < 2 ^ 32 := hlt.trans_lt (by decide)
  rw [asUint, Int.emod_eq_of_lt h0 hlt32]

theorem asUint_outside (hint : -2 ^ 31 ≤ sig) (hneg : sig < 0) : numSignals ≤ asUint sig := by
  unfold asUint numSignals
  omega

theorem signalRight_iff (hint : -2 ^ 31 ≤ sig) : SignalRight sig ↔ (0 ≤ sig ∧ sig < numSignals) ∨ numSignals < sig := by
  constructor
  · intro h
    by_contra hnot
    push Not at hnot
    obtain ⟨hin, hle⟩ := hnot
    have hbig : ¬sig > numSignals := Int.not_lt.mpr hle
    have hout : numSignals ≤ asUint sig := by
      by_cases h0 : 0 ≤ sig
      · rw [asUint_small h0 hle]
        have := hin h0
        omega
      · exact asUint_outside hint (Int.not_le.mp h0)
    rcases h (fun _ => none) 0 ⟨⟨fun _ => 0, fun _ => 0, []⟩, false⟩ 0 with ⟨old, use, s', hok, huse⟩ | herr
    · simp only [sysSignal, if_neg hbig, ne_eq, not_true_eq_false, and_false, if_false, Prod.mk.injEq,
        Except.ok.injEq] at hok
      rw [← hok.1.2] at huse
      exact absurd huse (Nat.not_lt.mpr hout)
    · simp [sysSignal] at herr
      exact hbig herr
  · intro h s q p handler
    rcases h with ⟨h0, hlt⟩ | hbig
    · by_cases hkept : (sig = sigKill ∨ sig = sigStop) ∧ handler ≠ 0
      · exact .inr (by rw [sysSignal, if_neg (by omega), if_pos hkept])
      · refine .inl ⟨_, _, _, by rw [sysSignal, if_neg (by omega), if_neg hkept], ?_⟩
        change asUint sig < numSignals
        rw [asUint_small h0 hlt.le]
        exact (Int.toNat_lt h0).mpr hlt
    · exact .inr (if_pos hbig)

theorem killRight_iff (hint : -2 ^ 31 ≤ sig) : KillRight sig ↔ (1 ≤ sig ∧ sig < numSignals) ∨ numSignals < sig := by
  constructor
  · intro h
    by_contra hnot
    push Not at hnot
    obtain ⟨hin, hle⟩ := hnot
    have hbig : ¬sig > numSignals := Int.not_lt.mpr hle
    rcases h (fun _ => some ⟨⟨fun _ => 0, fun _ => 0, []⟩, false⟩) 1 1 (by decide) rfl with ⟨-, hok⟩ | herr
    · obtain ⟨h1, h2⟩ := handleable_iff.mp hok
      by_cases h0 : 0 ≤ sig
      · rw [asUint_small h0 hle] at h1 h2
        have := hin (by omega)
        omega
      · exact absurd h2 (Nat.not_lt.mpr (asUint_outside hint (Int.not_le.mp h0)))
    · simp [sysKill] at herr
      exact hbig herr
  · intro h s sender pid hpid hsome
    rcases h with ⟨h1, hlt⟩ | hbig
    · refine .inl ⟨?_, handleable_iff.mpr ?_⟩
      · rw [sysKill, if_neg (by omega), if_neg (by omega), if_neg (by simpa [Option.isSome_iff_ne_none] using hsome)]
      · rw [asUint_small (by omega) hlt.le]
        omega
    · exact .inr (by rw [sysKill, if_neg (by omega), if_pos hbig])

-- ---------------------------------------------------------------------------
-- Sequences of calls
-- ---------------------------------------------------------------------------

def AllHandleable (s : SignalSystem) : Prop := ∀ pid p, s pid = some p → ∀ x ∈ p.queue, Handleable x.sig

theorem AllHandleable.set {pid : Pid} {v : SignalProcess} (h : AllHandleable s) (hv : ∀ x ∈ v.queue, Handleable x.sig) :
    AllHandleable (s.set pid v) := by
  intro r p hp
  unfold SignalSystem.set at hp
  rw [Function.update_apply] at hp
  split at hp
  · rw [← Option.some.inj hp]
    exact hv
  · exact h r p hp

theorem AllHandleable.signal {q : Pid} {v : SignalProcess} {handler : Nat} (h : AllHandleable s) (hq : s q = some v) :
    AllHandleable (sysSignal s q v sig handler).2 := by
  unfold sysSignal
  split
  · exact h
  · split
    · exact h
    · exact h.set (h q v hq)

theorem AllHandleable.kill {sender : Pid} {pid : Int} (h : AllHandleable s) (hsig : numSignals < sig ∨ Handleable (asUint sig)) :
    AllHandleable (sysKill s sender pid sig).2 := by
  unfold sysKill
  split
  · exact h
  split
  · exact h
  next hbig =>
  split
  · exact h
  · change AllHandleable (signalProcess s sender pid.toNat (asUint sig)).2
    unfold signalProcess
    cases hp : s pid.toNat with
    | none => exact h
    | some v =>
      simp only
      split
      · exact h
      · refine h.set fun x hx => ?_
        rcases List.mem_append.mp hx with hx | hx
        · exact h _ v hp x hx
        · rw [List.mem_singleton.mp hx]
          exact hsig.resolve_left hbig

theorem handleSignals_queue (useresp : Nat) : (handleSignals p useresp).2.queue.Sublist p.queue := by
  unfold handleSignals
  split
  · exact .refl _
  · exact List.eraseIdx_sublist ..

theorem AllHandleable.step (h : AllHandleable s) (ha : NumberFits s a) (hs : signalStep s a = some s') :
    AllHandleable s' := by
  cases a with
  | signal q sig handler =>
    obtain ⟨v, hv, rfl⟩ := Option.map_eq_some_iff.mp hs
    exact h.signal hv
  | kill sender pid sig =>
    obtain rfl := Option.some.inj hs
    refine h.kill (ha.symm.imp_right fun ⟨h1, h2⟩ => handleable_iff.mpr ?_)
    rw [asUint_small (by omega) h2.le]
    omega
  | handle pid useresp =>
    obtain ⟨v, hv, rfl⟩ := Option.map_eq_some_iff.mp hs
    exact h.set fun x hx => h pid v hv x ((handleSignals_queue useresp).subset hx)

theorem scanned_subset {blocked : Nat → Nat} {queue : List Signal} : scanned blocked queue ⊆ queue := by
  induction queue with
  | nil => exact List.Subset.refl _
  | cons x queue ih =>
    unfold scanned
    split
    · exact List.cons_subset_cons x ih
    · exact List.cons_subset_cons x (List.nil_subset _)

theorem findSignal_mem {blocked : Nat → Nat} {c : Option (Nat × Signal)} {i : Nat} {queue : List Signal} {r : Nat × Signal}
    (h : findSignal blocked c i queue = some r) : c = some r ∨ r.2 ∈ queue := by
  induction queue generalizing c i with
  | nil => exact .inl h
  | cons x queue ih =>
    unfold findSignal at h
    split at h
    · rcases ih h with hr | hr
      · rw [← Option.some.inj hr]
        exact .inr List.mem_cons_self
      · exact .inr (List.mem_cons_of_mem _ hr)
    · rw [← Option.some.inj h]
      exact .inr List.mem_cons_self

theorem AllHandleable.uses (h : AllHandleable s) : UsesInRange s := by
  intro pid v hv u hu
  rcases List.mem_append.mp hu with hu | hu
  · obtain ⟨x, hx, rfl⟩ := List.mem_map.mp hu
    exact (h pid v hv x (scanned_subset hx)).1
  · cases hfound : findSignal v.blocked none 0 v.queue with
    | none =>
      rw [hfound] at hu
      cases hu
    | some r =>
      rw [hfound] at hu
      have hmem := (findSignal_mem hfound).resolve_left nofun
      exact (h pid v hv r.2 hmem).2 v.toSignals r.2.sender u hu

/-- `signal` is right about the numbers of its table and those it refuses, `kill` about the
same without 0, and in a run with such numbers nothing outside the tables is looked up. -/
theorem signal_numbers {sig : Int} {s : SignalSystem} (hsig : -2 ^ 31 ≤ sig) (h : Reach signalStep NumberFits NonePending s) :
    (SignalRight sig ↔ (0 ≤ sig ∧ sig < numSignals) ∨ numSignals < sig) ∧
      (KillRight sig ↔ (1 ≤ sig ∧ sig < numSignals) ∨ numSignals < sig) ∧ UsesInRange s := by
  refine ⟨signalRight_iff hsig, killRight_iff hsig, AllHandleable.uses ?_⟩
  refine h.invariant (fun s h0 pid p hp x hx => ?_) fun _ _ _ h ha hs => h.step ha hs
  rw [h0 pid p hp] at hx
  cases hx

end

def defaultSystem : SignalSystem := fun pid => if pid = 1 then some ⟨⟨fun _ => 0, fun _ => 0, []⟩, false⟩ else none

theorem defaultSystem_nonePending : NonePending defaultSystem := by
  intro pid p hp
  unfold defaultSystem at hp
  split at hp
  · rw [← Option.some.inj hp]
  · cases hp

def someSignals : List SignalAct := [.signal 1 10 0x1000, .kill 1 1 10, .kill 1 1 31, .kill 1 1 40, .handle 1 0x9000]

theorem signal_numbers_default : ∃ s, exec signalStep defaultSystem someSignals = some s ∧
    (s 1).map (fun p => p.queue.map (·.sig)) = some [31] ∧ SignalRight 31 ∧ KillRight 31 ∧ UsesInRange s := by
  have halong : Along signalStep NumberFits defaultSystem someSignals := by decide +kernel
  have hrun : (exec signalStep defaultSystem someSignals).any
      (fun s => decide ((s 1).map (fun p => p.queue.map (·.sig)) = some [31])) = true := by decide +kernel
  obtain ⟨s, hs, htest⟩ := (Option.any_eq_true _ _).mp hrun
  have h := signal_numbers (@id ((-2) ^ 31 ≤ (31 : Int)) (by decide)) ((Reach.start defaultSystem_nonePending).along halong hs)
  exact ⟨s, hs, of_decide_eq_true htest, h.1.mpr (by decide), h.2.1.mpr (by decide), h.2.2⟩

/-- The number of signals is accepted by both calls, and is behind the last entry of two tables. -/
theorem signal_32 : (sysKill defaultSystem 1 1 32).1 = .ok () ∧
    (∃ p, (sysKill defaultSystem 1 1 32).2 1 = some p ∧ TableUse.blocked 32 ∈ handleUses p.toSignals) ∧
    ¬(TableUse.blocked 32).InRange ∧ ¬SignalRight 32 ∧ ¬KillRight 32 ∧ ¬KillRight 0 ∧ ¬KillRight (-1) := by
  refine ⟨rfl, ⟨_, rfl, by decide⟩, Nat.lt_irrefl 32, ?_, ?_, ?_, ?_⟩
  · rw [signalRight_iff (by decide)]
    decide
  · rw [killRight_iff (by decide)]
    decide
  · rw [killRight_iff (by decide)]
    decide
  · rw [killRight_iff (by decide)]
    decide

end Os5
