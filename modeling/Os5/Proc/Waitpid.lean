import Os5.Proc.Family

/-!
# Waiting for a process

Threads that call `waitpid` sleep on a list of the process they wait for, with a pointer to it on
their stacks; the one that finds it finished frees it. Kernel code runs until it calls `schedule`,
so a step is what a thread does between two such calls, and the threads take turns in any order.
-/

namespace Os5.Waitpid

open Outcome Transition Family

/-- Where the thread of a `waitpid` call is: on the list of the process, on the list of a thread
that handles a signal, or in the run queue. -/
inductive Rest where
  | asleep
  | suspended
  | woken
  deriving DecidableEq

/-- In such a call a thread has a pointer to a process. -/
inductive Stage where
  | user
  | waits (proc : Nat) (rest : Rest)
  | finished
  deriving DecidableEq

structure Thread where
  proc : Nat
  stage : Stage
  eax : Nat
  deriving DecidableEq

def Thread.woken (T : Thread) : Thread :=
  match T.stage with
  | .waits p _ => { T with stage := .waits p .woken }
  | _ => T

/-- The family with the other fields of a process that matter here. A process has its pid for a
name; how often it was freed and a call for it has come back is counted besides. -/
structure State where
  family : Family
  exitCode : Nat → Nat
  threads : Nat → List Nat
  waiting : Nat → List Nat
  thread : Nat → Option Thread
  freed : Nat → Nat
  returned : Nat → Nat

inductive Act where
  | fork (th new : Nat)
  | waitpid (th pid : Nat)
  | exit (th code : Nat)
  | resume (th : Nat)
  | newThread (proc new : Nat)
  | returnFromSignal (th : Nat)
  | suspend (th : Nat)
  | wake (th : Nat)
  | clean (th : Nat)

namespace State

/-- `get_process`, with the process pointed to named by its pid. -/
def getProcess (s : State) (pid : Nat) : Option Nat := s.family.processList.find? (· = pid)

def setThread (s : State) (th : Nat) (T : Thread) : State :=
  { s with thread := Function.update s.thread th (some T) }

def schedulerRemove (s : State) (th : Nat) : State :=
  { s with waiting := fun p => (s.waiting p).filter (· ≠ th) }

def freeThread (s : State) (th : Nat) : State :=
  let s := s.schedulerRemove th
  { s with
    threads := fun p => (s.threads p).filter (· ≠ th)
    thread := Function.update s.thread th none }

def freeThreads (s : State) (current : Nat) : List Nat → State
  | [] => s
  | th :: ths => (if th ≠ current then s.freeThread th else s).freeThreads current ths

def schedulerSleep (s : State) (th p : Nat) (T : Thread) : State :=
  let s := { s with waiting := Function.update s.waiting p (s.waiting p ++ [th]) }
  s.setThread th { T with stage := .waits p .asleep }

def wakeThread (s : State) (th : Nat) : State :=
  { s with thread := Function.update s.thread th ((s.thread th).map Thread.woken) }

def schedulerWake (s : State) (p : Nat) : State :=
  let s' := (s.waiting p).foldl wakeThread s
  { s' with waiting := Function.update s'.waiting p [] }

def freeProcess (s : State) (current p : Nat) : Except Astray State := do
  let s := s.freeThreads current (s.threads p)
  let family ← s.family.freeProcess p
  return { s with family := family, freed := Function.update s.freed p (s.freed p + 1) }

def waitLoop (s : State) (th : Nat) (proc : Option Nat) (T : Thread) : Except Astray State := do
  let p ← s.family.follow proc
  if s.family.finished p then
    let ret := s.exitCode p
    let s ← s.freeProcess th p
    let s := s.setThread th { T with stage := .user, eax := ret }
    return { s with returned := Function.update s.returned p (s.returned p + 1) }
  else return s.schedulerSleep th p T

/-- Nothing asks whether there is a process of that pid. -/
def waitpid (s : State) (th pid : Nat) (T : Thread) : Except Astray State := s.waitLoop th (s.getProcess pid) T

def exitProcess (s : State) (current p code : Nat) (T : Thread) : State :=
  let s := { s with exitCode := Function.update s.exitCode p code }
  let s := s.freeThreads current (s.threads p)
  let s := { s with family := s.family.exitProcess p }
  let s := s.setThread current { T with stage := .finished }
  s.schedulerWake p

def addThread (s : State) (p new : Nat) : State :=
  let s := { s with threads := Function.update s.threads p (s.threads p ++ [new]) }
  s.setThread new ⟨p, .user, 0⟩

def forkProcess (s : State) (parent new : Nat) : Except Astray State := do
  let (child, family) ← s.family.forkProcess parent
  let s := { s with
    family := family
    threads := Function.update s.threads child []
    waiting := Function.update s.waiting child [] }
  return s.addThread child new

/-- Only a thread that is not in a `waitpid` call makes calls, and a new thread is put where there
is none. -/
def carryOut (s : State) : Act → Except Astray State
  | .fork th new =>
    match s.thread th with
    | some ⟨p, .user, _⟩ => if s.thread new = none then s.forkProcess p new else .error .refused
    | _ => .error .refused
  | .waitpid th pid =>
    match s.thread th with
    | some ⟨p, .user, eax⟩ => s.waitpid th pid ⟨p, .user, eax⟩
    | _ => .error .refused
  | .exit th code =>
    match s.thread th with
    | some ⟨p, .user, eax⟩ => do
      let p ← s.family.follow (some p)
      return s.exitProcess th p code ⟨p, .user, eax⟩
    | _ => .error .refused
  | .resume th =>
    match s.thread th with
    | some ⟨q, .waits p .woken, eax⟩ => s.waitLoop th (some p) ⟨q, .waits p .woken, eax⟩
    | _ => .error .refused
  | .newThread p new =>
    if p ∈ s.family.processList ∧ s.family.finished p = false ∧ s.thread new = none then
      .ok (s.addThread p new)
    else .error .refused
  | .returnFromSignal th =>
    match s.thread th with
    | some ⟨p, .user, eax⟩ => .ok (s.setThread th ⟨p, .finished, eax⟩)
    | _ => .error .refused
  | .suspend th =>
    match s.thread th with
    | some ⟨q, .waits p .asleep, eax⟩ => .ok ((s.schedulerRemove th).setThread th ⟨q, .waits p .suspended, eax⟩)
    | _ => .error .refused
  | .wake th =>
    match s.thread th with
    | some ⟨q, .waits p .suspended, eax⟩ => .ok (s.setThread th ⟨q, .waits p .woken, eax⟩)
    | _ => .error .refused
  | .clean th =>
    match s.thread th with
    | some ⟨p, .finished, _⟩ => if s.family.finished p then .error .refused else .ok (s.freeThread th)
    | _ => .error .refused

def step (s : State) (a : Act) : Option State := (s.carryOut a).toOption

-- ---------------------------------------------------------------------------
-- The law
-- ---------------------------------------------------------------------------

def Waits (s : State) (th p : Nat) (r : Rest) : Prop := ∃ T, s.thread th = some T ∧ T.stage = .waits p r

/-- If a process is finished it has no child and is not the first. -/
def Leaf (s : State) (p : Nat) : Prop :=
  s.family.finished p = true → s.family.child p = none ∧ s.family.parent p ≠ none

/-- A `waitpid` call is for a process that is there and that no thread is in a call for, and it
frees no process that `free_process` cannot take out of the family. -/
def Alone (s : State) : Act → Prop
  | .waitpid _ pid => pid ∈ s.family.processList ∧ (∀ u r, ¬s.Waits u pid r) ∧ s.Leaf pid
  | .resume th => ∀ p, s.Waits th p .woken → s.Leaf p
  | _ => True

def Booted (s : State) : Prop :=
  ∃ th, s = ⟨firstFamily, fun _ => 0, Function.update (fun _ => []) 1 [th], fun _ => [],
    Function.update (fun _ => none) th (some ⟨1, .user, 0⟩), fun _ => 0, fun _ => 0⟩

structure Orderly (s : State) : Prop where
  /-- A process that was made is there, or was freed once. -/
  once : ∀ p, 0 < p → p < s.family.nextPid → s.freed p = if p ∈ s.family.processList then 0 else 1
  returned : ∀ p, s.returned p = s.freed p
  /-- No thread has a pointer to a process that was freed. -/
  valid : ∀ u p r, s.Waits u p r → p ∈ s.family.processList
  awake : ∀ p ∈ s.family.processList, s.family.finished p = true →
    s.waiting p = [] ∧ ∀ u, ¬s.Waits u p .asleep
  /-- A thread that was woken for a finished process frees it and gets the exit code. -/
  frees : ∀ u p, s.Waits u p .woken → s.family.finished p = true → s.Alone (.resume u) →
    ∃ s' T, s.step (.resume u) = some s' ∧ s'.freed p = 1 ∧ p ∉ s'.family.processList ∧
      s'.thread u = some T ∧ T.stage = .user ∧ T.eax = s.exitCode p
  /-- No step follows a null pointer or one to a process that was freed. -/
  safe : ∀ a e, s.Alone a → s.carryOut a = .error e → e = .refused

-- ---------------------------------------------------------------------------
-- The loops
-- ---------------------------------------------------------------------------

section
variable {s s' : State} {th u c p q new : Nat} {ths l : List Nat} {T : Thread} {r : Rest} {a : Act}

structure FreedThreads (s : State) (c : Nat) (ths : List Nat) (s' : State) : Prop where
  thread : ∀ u, s'.thread u = if u ∈ ths ∧ u ≠ c then none else s.thread u
  threads : ∀ p u, u ∈ s'.threads p ↔ u ∈ s.threads p ∧ (u ∉ ths ∨ u = c)
  waiting : ∀ p u, u ∈ s'.waiting p ↔ u ∈ s.waiting p ∧ (u ∉ ths ∨ u = c)
  rest : s'.family = s.family ∧ s'.exitCode = s.exitCode ∧ s'.freed = s.freed ∧ s'.returned = s.returned

theorem freeThreads_freed (s : State) (c : Nat) (ths : List Nat) :
    FreedThreads s c ths (s.freeThreads c ths) := by
  induction ths generalizing s with
  | nil => constructor <;> simp [freeThreads]
  | cons th ths ih =>
    by_cases hth : th = c
    · have h := ih s
      rw [freeThreads, if_neg (not_not.mpr hth)]
      refine ⟨fun u => ?_, fun p u => ?_, fun p u => ?_, h.rest⟩
      · rw [h.thread]
        grind
      · rw [h.threads]
        grind
      · rw [h.waiting]
        grind
    · have h := ih (s.freeThread th)
      rw [freeThreads, if_pos hth]
      refine ⟨fun u => ?_, fun p u => ?_, fun p u => ?_, h.rest⟩
      · rw [h.thread]
        simp only [freeThread, schedulerRemove, Function.update_apply]
        grind
      · rw [h.threads, List.mem_cons]
        simp only [freeThread, schedulerRemove, List.mem_filter, decide_eq_true_eq]
        grind
      · rw [h.waiting, List.mem_cons]
        simp only [freeThread, schedulerRemove, List.mem_filter, decide_eq_true_eq]
        grind

theorem woken_woken (T : Thread) : T.woken.woken = T.woken := by
  rcases T with ⟨q, _ | ⟨p, r⟩ | _, eax⟩ <;> rfl

@[simp] theorem woken_proc (T : Thread) : T.woken.proc = T.proc := by
  rcases T with ⟨q, _ | ⟨p, r⟩ | _, eax⟩ <;> rfl

theorem wakeThreads_thread (s : State) (l : List Nat) (u : Nat) :
    (l.foldl wakeThread s).thread u = if u ∈ l then (s.thread u).map Thread.woken else s.thread u := by
  induction l generalizing s with
  | nil => rfl
  | cons th l ih =>
    rw [List.foldl_cons, ih]
    simp only [wakeThread, Function.update_apply, List.mem_cons]
    by_cases hu : u = th
    · subst hu
      by_cases hl : u ∈ l
      · simp [hl, woken_woken, Function.comp_def]
      · simp [hl]
    · simp [hu]

theorem wakeThreads_rest (s : State) (l : List Nat) :
    l.foldl wakeThread s = { s with thread := (l.foldl wakeThread s).thread } := by
  induction l generalizing s with
  | nil => rfl
  | cons th l ih => exact ih (s.wakeThread th)

theorem schedulerWake_eq (s : State) (p : Nat) :
    s.schedulerWake p = { s with
      thread := fun u => if u ∈ s.waiting p then (s.thread u).map Thread.woken else s.thread u
      waiting := Function.update s.waiting p [] } := by
  rw [schedulerWake, wakeThreads_rest]
  exact congrArg (fun f => { s with thread := f, waiting := Function.update s.waiting p [] })
    (funext (wakeThreads_thread s (s.waiting p)))

-- ---------------------------------------------------------------------------
-- The places of the threads
-- ---------------------------------------------------------------------------

structure Seated (s : State) : Prop where
  owner : ∀ u T, s.thread u = some T → T.proc ∈ s.family.processList ∧ u ∈ s.threads T.proc
  member : ∀ p ∈ s.family.processList, ∀ u ∈ s.threads p, ∃ T, s.thread u = some T ∧ T.proc = p
  ended : ∀ u T, s.thread u = some T → s.family.finished T.proc = true → T.stage = .finished
  target : ∀ u T p r, s.thread u = some T → T.stage = .waits p r → p ∈ s.family.processList
  sleeps : ∀ u T p, s.thread u = some T → T.stage = .waits p .asleep →
    s.family.finished p = false ∧ u ∈ s.waiting p
  sleeper : ∀ p ∈ s.family.processList, ∀ u ∈ s.waiting p, ∃ T, s.thread u = some T ∧ T.stage = .waits p .asleep
  one : ∀ u v T T' p r r', s.thread u = some T → T.stage = .waits p r →
    s.thread v = some T' → T'.stage = .waits p r' → u = v

@[simp] theorem setThread_self : (s.setThread th T).thread th = some T := Function.update_self _ _ _

theorem setThread_of_ne (h : u ≠ th) : (s.setThread th T).thread u = s.thread u := Function.update_of_ne h _ _

theorem Seated.goOn (h : s.Seated) {T' : Thread} (hth : s.thread th = some T) (hproc : T'.proc = T.proc)
    (hend : T.stage = .finished → T'.stage = .finished) (hlist : ∀ p ∈ s.family.processList, th ∉ s.waiting p)
    (hstage : ∀ p r, T'.stage = .waits p r → r ≠ .asleep ∧ ∃ r', T.stage = .waits p r') :
    (s.setThread th T').Seated := by
  have hback : ∀ {u U p r}, (s.setThread th T').thread u = some U → U.stage = .waits p r →
      ∃ V r', s.thread u = some V ∧ V.stage = .waits p r' := by
    intro u U p r hU hr
    simp only [setThread, Function.update_apply] at hU
    grind
  obtain ⟨howner, hmember, hended, htarget, hsleeps, hsleeper, hone⟩ := h
  constructor
  case one =>
    intro u v U V p r r' hU hr hV hr'
    obtain ⟨U, r, hU, hr⟩ := hback hU hr
    obtain ⟨V, r', hV, hr'⟩ := hback hV hr'
    exact hone u v U V p r r' hU hr hV hr'
  all_goals
    simp only [setThread, Function.update_apply] at *
    grind

theorem Seated.suspend (h : s.Seated) {eax : Nat} (hth : s.thread th = some ⟨q, .waits p .asleep, eax⟩) :
    ((s.schedulerRemove th).setThread th ⟨q, .waits p .suspended, eax⟩).Seated := by
  obtain ⟨howner, hmember, hended, htarget, hsleeps, hsleeper, hone⟩ := h
  constructor <;> simp only [setThread, schedulerRemove, List.mem_filter, decide_eq_true_eq, Function.update_apply] at * <;> grind

theorem Seated.freeThread (h : s.Seated) : (s.freeThread th).Seated := by
  obtain ⟨howner, hmember, hended, htarget, hsleeps, hsleeper, hone⟩ := h
  constructor <;> simp only [State.freeThread, schedulerRemove, List.mem_filter, decide_eq_true_eq, Function.update_apply] at * <;> grind

theorem Seated.addThread (h : s.Seated) (hp : p ∈ s.family.processList) (hrun : s.family.finished p = false)
    (hnew : s.thread new = none) : (s.addThread p new).Seated := by
  obtain ⟨howner, hmember, hended, htarget, hsleeps, hsleeper, hone⟩ := h
  constructor
  case member =>
    intro q hq u hu
    simp only [State.addThread, setThread, Function.update_apply] at hq hu ⊢
    by_cases hun : u = new
    · have hqp : q = p := by grind
      exact ⟨_, if_pos hun, hqp.symm⟩
    · rw [if_neg hun]
      grind
  all_goals
    simp only [State.addThread, setThread, Function.update_apply] at *
    grind

theorem Seated.not_waiting (h : s.Seated) (hp : p ∈ s.family.processList) (hth : s.thread th = some T)
    (hrun : ∀ p, T.stage ≠ .waits p .asleep) : th ∉ s.waiting p := by
  intro hw
  obtain ⟨T', hT', hstage⟩ := h.sleeper p hp th hw
  obtain rfl := Option.some.inj (hth.symm.trans hT')
  exact hrun p hstage

theorem Seated.schedulerSleep (h : s.Seated) (hp : p ∈ s.family.processList) (hth : s.thread th = some T)
    (hrun : s.family.finished p = false) (hproc : s.family.finished T.proc = false)
    (hnot : ∀ p, T.stage ≠ .waits p .asleep)
    (halone : ∀ u T r, s.thread u = some T → T.stage = .waits p r → u = th) : (s.schedulerSleep th p T).Seated := by
  have hlist : ∀ p ∈ s.family.processList, th ∉ s.waiting p := fun p hp => h.not_waiting hp hth hnot
  obtain ⟨howner, hmember, hended, htarget, hsleeps, hsleeper, hone⟩ := h
  constructor <;> simp only [State.schedulerSleep, setThread, Function.update_apply] at * <;> grind

theorem Seated.freeThreads (h : s.Seated) (c : Nat) (ths : List Nat) : (s.freeThreads c ths).Seated := by
  induction ths generalizing s with
  | nil => exact h
  | cons th ths ih =>
    by_cases hth : th = c
    · rw [State.freeThreads, if_neg (not_not.mpr hth)]
      exact ih h
    · rw [State.freeThreads, if_pos hth]
      exact ih h.freeThread

theorem woken_waits (T : Thread) (h : T.woken.stage = .waits q r) : r = .woken ∧ ∃ r', T.stage = .waits q r' := by
  rcases T with ⟨o, _ | ⟨p, r'⟩ | _, eax⟩
  · cases h
  · cases h
    exact ⟨rfl, r', rfl⟩
  · cases h

theorem schedulerWake_back {T' : Thread} (hT' : (s.schedulerWake p).thread u = some T') :
    ∃ T, s.thread u = some T ∧ T'.proc = T.proc ∧ (T.stage = .finished → T'.stage = .finished) ∧
      ∀ q r, T'.stage = .waits q r → (∃ r', T.stage = .waits q r') ∧ (r = .asleep → u ∉ s.waiting p ∧ T = T') := by
  rw [schedulerWake_eq] at hT'
  by_cases hu : u ∈ s.waiting p
  · obtain ⟨T, hT, rfl⟩ := Option.map_eq_some_iff.mp ((if_pos hu).symm.trans hT')
    refine ⟨T, hT, woken_proc T, fun hstage => by simp [Thread.woken, hstage], fun q r hr => ?_⟩
    obtain ⟨rfl, hwaits⟩ := woken_waits T hr
    exact ⟨hwaits, nofun⟩
  · exact ⟨T', (if_neg hu).symm.trans hT', rfl, id, fun q r hr => ⟨⟨r, hr⟩, fun _ => ⟨hu, rfl⟩⟩⟩

theorem schedulerWake_forth (hT : s.thread u = some T) :
    ∃ T', (s.schedulerWake p).thread u = some T' ∧ T'.proc = T.proc ∧ (u ∉ s.waiting p → T' = T) := by
  rw [schedulerWake_eq]
  by_cases hu : u ∈ s.waiting p
  · exact ⟨T.woken, (if_pos hu).trans (congrArg (Option.map Thread.woken) hT), woken_proc T, fun hnot => absurd hu hnot⟩
  · exact ⟨T, (if_neg hu).trans hT, rfl, fun _ => rfl⟩

@[simp] theorem schedulerWake_family : (s.schedulerWake p).family = s.family := by rw [schedulerWake_eq]

@[simp] theorem schedulerWake_threads : (s.schedulerWake p).threads = s.threads := by rw [schedulerWake_eq]

@[simp] theorem schedulerWake_waiting : (s.schedulerWake p).waiting = Function.update s.waiting p [] := by
  rw [schedulerWake_eq]

theorem Seated.schedulerWake (h : s.Seated) (hp : p ∈ s.family.processList) : (s.schedulerWake p).Seated := by
  constructor
  case owner =>
    intro u T' hT'
    obtain ⟨T, hT, hproc, -⟩ := schedulerWake_back hT'
    rw [schedulerWake_family, schedulerWake_threads]
    exact hproc ▸ h.owner u T hT
  case member =>
    intro q hq u hu
    rw [schedulerWake_family] at hq
    rw [schedulerWake_threads] at hu
    obtain ⟨T, hT, hproc⟩ := h.member q hq u hu
    obtain ⟨T', hT', hproc', -⟩ := schedulerWake_forth hT
    exact ⟨T', hT', hproc'.trans hproc⟩
  case ended =>
    intro u T' hT' hfin
    rw [schedulerWake_family] at hfin
    obtain ⟨T, hT, hproc, hend, -⟩ := schedulerWake_back hT'
    exact hend (h.ended u T hT (hproc ▸ hfin))
  case target =>
    intro u T' q r hT' hr
    obtain ⟨T, hT, -, -, hstage⟩ := schedulerWake_back hT'
    obtain ⟨r', hr'⟩ := (hstage q r hr).1
    rw [schedulerWake_family]
    exact h.target u T q r' hT hr'
  case sleeps =>
    intro u T' q hT' hr
    obtain ⟨T, hT, -, -, hstage⟩ := schedulerWake_back hT'
    obtain ⟨hu, rfl⟩ := (hstage q .asleep hr).2 rfl
    obtain ⟨hrun, hmem⟩ := h.sleeps u T q hT hr
    have hqp : q ≠ p := by
      rintro rfl
      exact hu hmem
    rw [schedulerWake_family, schedulerWake_waiting, Function.update_of_ne hqp]
    exact ⟨hrun, hmem⟩
  case sleeper =>
    intro q hq u hu
    rw [schedulerWake_family] at hq
    rw [schedulerWake_waiting] at hu
    have hqp : q ≠ p := by
      rintro rfl
      rw [Function.update_self] at hu
      cases hu
    rw [Function.update_of_ne hqp] at hu
    obtain ⟨T, hT, hr⟩ := h.sleeper q hq u hu
    have hup : u ∉ s.waiting p := by
      intro hup
      obtain ⟨U, hU, hrp⟩ := h.sleeper p hp u hup
      obtain rfl := Option.some.inj (hT.symm.trans hU)
      cases hr.symm.trans hrp
      exact hqp rfl
    obtain ⟨T', hT', -, hsame⟩ := schedulerWake_forth hT
    exact ⟨T', hT', hsame hup ▸ hr⟩
  case one =>
    intro u v T' U' q r r' hT' hr hU' hr'
    obtain ⟨T, hT, -, -, hstage⟩ := schedulerWake_back hT'
    obtain ⟨U, hU, -, -, hstage'⟩ := schedulerWake_back hU'
    obtain ⟨r1, hr1⟩ := (hstage q r hr).1
    obtain ⟨r2, hr2⟩ := (hstage' q r' hr').1
    exact h.one u v T U q r1 r2 hT hr1 hU hr2

theorem Seated.finish (h : s.Seated) (hwaiting : s.waiting p = [])
    (hall : ∀ u T, s.thread u = some T → T.proc = p → T.stage = .finished) :
    ({ s with family := s.family.exitProcess p } : State).Seated := by
  obtain ⟨howner, hmember, hended, htarget, hsleeps, hsleeper, hone⟩ := h
  constructor <;> simp only [Family.exitProcess, Function.update_apply] at * <;> grind

theorem Seated.depart (h : s.Seated) {f : Family} (hlist : ∀ q, q ∈ f.processList ↔ q ≠ p ∧ q ∈ s.family.processList)
    (hfinished : f.finished = s.family.finished)
    (hnone : ∀ u T, s.thread u = some T → T.proc ≠ p ∧ ∀ r, T.stage ≠ .waits p r) :
    ({ s with family := f } : State).Seated := by
  obtain ⟨howner, hmember, hended, htarget, hsleeps, hsleeper, hone⟩ := h
  constructor <;> simp only [hlist, hfinished] at * <;> grind

theorem Seated.congr (h : s.Seated) (hfamily : s'.family = s.family) (hthreads : s'.threads = s.threads)
    (hwaiting : s'.waiting = s.waiting) (hthread : s'.thread = s.thread) : s'.Seated := by
  obtain ⟨howner, hmember, hended, htarget, hsleeps, hsleeper, hone⟩ := h
  constructor <;> rw [hthread] <;> simpa only [hfamily, hthreads, hwaiting]

theorem Seated.enter (h : s.Seated) {f : Family} (hlist : f.processList = s.family.processList ++ [c])
    (hc : c ∉ s.family.processList) (hfinished : f.finished = Function.update s.family.finished c false) :
    ({ s with
      family := f
      threads := Function.update s.threads c []
      waiting := Function.update s.waiting c [] } : State).Seated := by
  obtain ⟨howner, hmember, hended, htarget, hsleeps, hsleeper, hone⟩ := h
  constructor <;> simp only [hlist, hfinished, List.mem_append, List.mem_singleton, Function.update_apply] at * <;> grind

-- ---------------------------------------------------------------------------
-- What a run keeps
-- ---------------------------------------------------------------------------

structure Inv (s : State) : Prop where
  tree : ∃ kids, s.family.Tree kids
  rooted : s.family.Rooted
  positive : 0 < s.family.nextPid ∧ ∀ p ∈ s.family.processList, 0 < p
  freed : ∀ p, s.freed p = if 0 < p ∧ p < s.family.nextPid ∧ p ∉ s.family.processList then 1 else 0
  returned : s.returned = s.freed
  seated : s.Seated

theorem Booted.inv (h : s.Booted) : s.Inv := by
  obtain ⟨th, rfl⟩ := h
  refine ⟨⟨_, firstFamily_start.tree⟩, firstFamily_start.rooted, ⟨Nat.succ_pos 1, by simp [firstFamily]⟩, fun p => ?_, rfl, ?_⟩
  · simp only [firstFamily, List.mem_singleton]
    rw [if_neg]
    omega
  · constructor
    case member =>
      intro p hp u hu
      obtain rfl := List.mem_singleton.mp hp
      obtain rfl : u = th := by simpa using hu
      exact ⟨⟨1, .user, 0⟩, by simp, rfl⟩
    all_goals
      simp only [firstFamily, List.mem_singleton, Function.update_apply]
      grind

theorem Inv.seat (h : s.Inv) (hseated : s'.Seated) (hfamily : s'.family = s.family) (hfreed : s'.freed = s.freed)
    (hreturned : s'.returned = s.returned) : s'.Inv := by
  refine ⟨?_, ?_, ?_, ?_, ?_, hseated⟩
  · exact hfamily ▸ h.tree
  · exact hfamily ▸ h.rooted
  · exact hfamily ▸ h.positive
  · rw [hfreed, hfamily]
    exact h.freed
  · rw [hreturned, hfreed]
    exact h.returned

theorem Inv.forkProcess (h : s.Inv) (hp : p ∈ s.family.processList) (hnew : s.thread new = none) :
    ∃ s', s.forkProcess p new = .ok s' ∧ s'.Inv := by
  obtain ⟨kids, htree⟩ := h.tree
  obtain ⟨f, hfork, hborn⟩ := htree.forkProcess_ok hp
  have hfresh : s.family.nextPid ∉ s.family.processList := fun hmem => htree.ne_next hmem rfl
  refine ⟨_, bind_ok.mpr ⟨(s.family.nextPid, f), hfork, rfl⟩, ⟨_, htree.born hp hborn⟩,
    Born.rooted htree h.rooted hp hborn, ?_, fun q => ?_, h.returned, ?_⟩
  · obtain ⟨hnext, hpos⟩ := h.positive
    simp only [State.addThread, setThread, hborn.list, hborn.next, List.mem_append, List.mem_singleton]
    grind
  · have hold := h.freed q
    simp only [State.addThread, setThread, hborn.list, hborn.next, List.mem_append, List.mem_singleton]
    grind
  · refine (h.seated.enter hborn.list hfresh (forkProcess_finished hfork)).addThread ?_ ?_ hnew
    · exact hborn.list ▸ List.mem_append_right _ (List.mem_singleton_self _)
    · exact (congrFun (forkProcess_finished hfork) _).trans (Function.update_self _ _ _)

theorem exitProcess_eq (s : State) (c p code : Nat) (T : Thread) :
    ∃ t : State, FreedThreads { s with exitCode := Function.update s.exitCode p code } c (s.threads p) t ∧
      (s.Seated → t.Seated) ∧
      s.exitProcess c p code T =
        let w := (t.setThread c { T with stage := .finished }).schedulerWake p
        { w with family := w.family.exitProcess p } := by
  let s1 : State := { s with exitCode := Function.update s.exitCode p code }
  refine ⟨s1.freeThreads c (s.threads p), freeThreads_freed s1 c (s.threads p), fun h => ?_, ?_⟩
  · have h1 : s1.Seated := h.congr rfl rfl rfl rfl
    exact h1.freeThreads c (s.threads p)
  · rw [State.exitProcess, schedulerWake_eq, schedulerWake_eq]
    rfl

theorem Inv.exitProcess (h : s.Inv) {code : Nat} (hth : s.thread th = some T) (hstage : T.stage = .user) :
    (s.exitProcess th T.proc code T).Inv := by
  obtain ⟨t, hfree, hseat, heq⟩ := exitProcess_eq s th T.proc code T
  have hfamily : t.family = s.family := hfree.rest.1
  have hp : T.proc ∈ t.family.processList := hfamily ▸ (h.seated.owner th T hth).1
  have hself : t.thread th = some T := by
    rw [hfree.thread, if_neg fun hne => hne.2 rfl]
    exact hth
  have hrun : ∀ p, T.stage ≠ .waits p .asleep := by simp [hstage]
  have hon : (t.setThread th { T with stage := .finished }).Seated :=
    (hseat h.seated).goOn hself rfl (fun _ => rfl) (fun p hp => (hseat h.seated).not_waiting hp hself hrun) nofun
  have hend : ∀ u U, ((t.setThread th { T with stage := .finished }).schedulerWake T.proc).thread u = some U →
      U.proc = T.proc → U.stage = .finished := by
    intro u U hU hproc
    obtain ⟨V, hV, hUV, hend, -⟩ := schedulerWake_back hU
    refine hend ?_
    by_cases hu : u = th
    · subst hu
      obtain rfl := Option.some.inj (setThread_self.symm.trans hV)
      rfl
    · have hkept := (hfree.thread u).symm.trans ((setThread_of_ne hu).symm.trans hV)
      split at hkept
      · cases hkept
      · next hnot => exact absurd ⟨hproc ▸ hUV ▸ (h.seated.owner u V hkept).2, hu⟩ hnot
  have hwake := hon.schedulerWake hp
  have hinv : ((t.setThread th { T with stage := .finished }).schedulerWake T.proc).Inv := by
    refine h.seat hwake ?_ ?_ ?_ <;> rw [schedulerWake_eq]
    · exact hfamily
    · exact hfree.rest.2.2.1
    · exact hfree.rest.2.2.2
  rw [heq]
  exact ⟨hinv.tree.imp fun _ => Tree.exit, hinv.rooted, hinv.positive, hinv.freed, hinv.returned,
    hwake.finish (by rw [schedulerWake_waiting, Function.update_self]) hend⟩

theorem getProcess_of_mem (hp : p ∈ s.family.processList) : s.getProcess p = some p := by
  rw [getProcess]
  cases hfind : s.family.processList.find? (· = p) with
  | none => exact absurd (List.find?_eq_none.mp hfind p hp) (by simp)
  | some q => exact congrArg some (by simpa using List.find?_some hfind)

theorem Inv.waitLoop (h : s.Inv) (hth : s.thread th = some T) (hp : p ∈ s.family.processList)
    (hrun : ∀ p, T.stage ≠ .waits p .asleep) (hend : T.stage ≠ .finished)
    (halone : ∀ u U r, s.thread u = some U → U.stage = .waits p r → u = th) (hleaf : s.Leaf p) :
    ∃ s', s.waitLoop th (some p) T = .ok s' ∧ s'.Inv ∧ (s.family.finished p = true →
      s'.freed p = 1 ∧ p ∉ s'.family.processList ∧ s'.thread th = some { T with stage := .user, eax := s.exitCode p }) := by
  have hproc : s.family.finished T.proc = false := by
    by_contra hfin
    exact hend (h.seated.ended th T hth (Bool.not_eq_false _ ▸ hfin))
  cases hfin : s.family.finished p with
  | false =>
    refine ⟨s.schedulerSleep th p T, bind_ok.mpr ⟨p, follow_ok hp, ?_⟩, ?_, nofun⟩
    · rw [hfin]
      rfl
    · exact h.seat (h.seated.schedulerSleep hp hth hfin hproc hrun halone) rfl rfl rfl
  | true =>
    obtain ⟨hchild, hparent⟩ := hleaf hfin
    obtain ⟨kids, htree⟩ := h.tree
    obtain ⟨f, hfree⟩ := htree.freeProcess_ok hp hchild hparent
    obtain ⟨-, q, hq, hpq, hdep⟩ := freeProcess_departed hchild (htree.older_ne hp) hfree
    let t := s.freeThreads th (s.threads p)
    let T' : Thread := { T with stage := .user, eax := s.exitCode p }
    have ht : FreedThreads s th (s.threads p) t := freeThreads_freed s th (s.threads p)
    obtain ⟨hfamily, -, hfreed, hreturned⟩ := ht.rest
    have hself : t.thread th = some T := by
      rw [ht.thread, if_neg fun hne => hne.2 rfl]
      exact hth
    have hseat : t.Seated := h.seated.freeThreads th (s.threads p)
    have hon : (t.setThread th T').Seated :=
      hseat.goOn hself rfl (fun hst => absurd hst hend) (fun p hp => hseat.not_waiting hp hself hrun) nofun
    have hmem : ∀ q, q ∈ f.processList ↔ q ≠ p ∧ q ∈ s.family.processList := fun q =>
      hdep.list ▸ htree.nodup.mem_erase_iff
    have hnone : ∀ u U, (t.setThread th T').thread u = some U → U.proc ≠ p ∧ ∀ r, U.stage ≠ .waits p r := by
      intro u U hU
      by_cases hu : u = th
      · rw [hu, setThread_self] at hU
        refine Option.some.inj hU ▸ ⟨fun hTp => ?_, nofun⟩
        cases hfin.symm.trans (hTp ▸ hproc)
      · have hkept := (ht.thread u).symm.trans ((setThread_of_ne hu).symm.trans hU)
        split at hkept
        · cases hkept
        · next hnot =>
          refine ⟨fun hUp => hnot ⟨hUp ▸ (h.seated.owner u U hkept).2, hu⟩, fun r hr => hu (halone u U r hkept hr)⟩
    have hseated : ({ t.setThread th T' with family := f } : State).Seated :=
      hon.depart (fun q => (hmem q).trans (hfamily ▸ Iff.rfl))
        ((freeProcess_finished hchild hfree).trans (congrArg Family.finished hfamily.symm)) hnone
    have hone : s.freed p = 0 := by
      rw [h.freed, if_neg fun hno => hno.2.2 hp]
    have hrun : s.freeProcess th p = .ok { t with
        family := f
        freed := Function.update t.freed p (t.freed p + 1) } :=
      bind_ok.mpr ⟨f, (congrArg (Family.freeProcess · p) hfamily).trans hfree, rfl⟩
    have hloop : s.waitLoop th (some p) T = .ok { t.setThread th T' with
        family := f
        freed := Function.update t.freed p (t.freed p + 1)
        returned := Function.update t.returned p (t.returned p + 1) } := by
      refine bind_ok.mpr ⟨p, follow_ok hp, ?_⟩
      rw [if_pos hfin]
      exact bind_ok.mpr ⟨_, hrun, rfl⟩
    refine ⟨_, hloop, ⟨⟨_, htree.departed hp hchild hq hpq hdep⟩, Departed.rooted h.rooted hpq hdep, ?_, fun q => ?_, ?_,
      hseated.congr rfl rfl rfl rfl⟩, fun _ => ⟨?_, fun hmemp => ((hmem p).mp hmemp).1 rfl, setThread_self⟩⟩
    · exact ⟨hdep.next ▸ h.positive.1, fun q hq => h.positive.2 q ((hmem q).mp hq).2⟩
    · have hold := h.freed q
      have hpos := h.positive.2 p hp
      have hlt := htree.fresh p hp
      simp only [hfreed, hdep.next, hmem, Function.update_apply]
      grind
    · change Function.update t.returned p (t.returned p + 1) = Function.update t.freed p (t.freed p + 1)
      rw [hreturned, hfreed, h.returned]
    · change Function.update t.freed p (t.freed p + 1) p = 1
      rw [Function.update_self, hfreed, hone]

theorem Inv.carryOut (h : s.Inv) (hok : s.Alone a) : Yields (s.carryOut a) (· = .refused) Inv := by
  cases a with
  | fork th new =>
    rw [State.carryOut]
    split
    · next p eax hth =>
      split
      · next hnew =>
        obtain ⟨s', hs', hinv⟩ := h.forkProcess (h.seated.owner th _ hth).1 hnew
        rwa [hs']
      · rfl
    · rfl
  | waitpid th pid =>
    rw [State.carryOut]
    split
    · next p eax hth =>
      obtain ⟨hpid, halone, hleaf⟩ := hok
      have hget : s.getProcess pid = some pid := getProcess_of_mem hpid
      obtain ⟨s', hs', hinv, -⟩ := h.waitLoop hth hpid nofun nofun (fun u U r hU hr => absurd ⟨U, hU, hr⟩ (halone u r)) hleaf
      rwa [State.waitpid, hget, hs']
    · rfl
  | exit th code =>
    rw [State.carryOut]
    split
    · next p eax hth =>
      have hp := (h.seated.owner th _ hth).1
      rw [follow_ok hp]
      exact h.exitProcess hth rfl
    · rfl
  | resume th =>
    rw [State.carryOut]
    split
    · next q p eax hth =>
      have hp := h.seated.target th _ p .woken hth rfl
      obtain ⟨s', hs', hinv, -⟩ := h.waitLoop hth hp (by simp) nofun
        (fun u U r hU hr => h.seated.one u th U _ p r .woken hU hr hth rfl) (hok p ⟨_, hth, rfl⟩)
      rwa [hs']
    · rfl
  | newThread p new =>
    rw [State.carryOut]
    split
    · next hp =>
      exact h.seat (h.seated.addThread hp.1 hp.2.1 hp.2.2) rfl rfl rfl
    · rfl
  | returnFromSignal th =>
    rw [State.carryOut]
    split
    · next p eax hth =>
      have hlist := fun p hp => h.seated.not_waiting (p := p) hp hth nofun
      exact h.seat (h.seated.goOn hth rfl (fun _ => rfl) hlist nofun) rfl rfl rfl
    · rfl
  | suspend th =>
    rw [State.carryOut]
    split
    · next q p eax hth => exact h.seat (h.seated.suspend hth) rfl rfl rfl
    · rfl
  | wake th =>
    rw [State.carryOut]
    split
    · next q p eax hth =>
      have hlist := fun p hp => h.seated.not_waiting (p := p) hp hth (by simp)
      refine h.seat (h.seated.goOn hth rfl nofun hlist fun o r hr => ?_) rfl rfl rfl
      cases hr
      exact ⟨nofun, .suspended, rfl⟩
    · rfl
  | clean th =>
    rw [State.carryOut]
    split
    · next p eax hth =>
      split
      · rfl
      · exact h.seat h.seated.freeThread rfl rfl rfl
    · rfl

theorem step_eq : s.step a = some s' ↔ s.carryOut a = .ok s' := by
  rw [step]
  cases s.carryOut a with
  | ok t => exact ⟨fun h => congrArg _ (Option.some.inj h), fun h => congrArg _ (Except.ok.inj h)⟩
  | error e => exact ⟨nofun, nofun⟩

theorem Inv.step (h : s.Inv) (hok : s.Alone a) (hstep : s.step a = some s') : s'.Inv :=
  (h.carryOut hok).of_eq_ok (step_eq.mp hstep)

theorem Inv.asleep (h : s.Inv) (hu : s.Waits u p .asleep) : s.family.finished p = false := by
  obtain ⟨T, hT, hstage⟩ := hu
  exact (h.seated.sleeps u T p hT hstage).1

theorem Inv.orderly (h : s.Inv) : s.Orderly where
  once p hpos hlt := by
    rw [h.freed]
    by_cases hp : p ∈ s.family.processList
    · rw [if_pos hp, if_neg fun hno => hno.2.2 hp]
    · rw [if_neg hp, if_pos ⟨hpos, hlt, hp⟩]
  returned p := congrFun h.returned p
  valid u p r := by
    rintro ⟨T, hT, hstage⟩
    exact h.seated.target u T p r hT hstage
  awake p hp hfin := by
    have hnone : ∀ u, ¬s.Waits u p .asleep := fun u hu => by
      cases hfin.symm.trans (h.asleep hu)
    exact ⟨List.eq_nil_iff_forall_not_mem.mpr fun u hu => hnone u (h.seated.sleeper p hp u hu), hnone⟩
  frees u p hu hfin hok := by
    obtain ⟨⟨q, stage, eax⟩, hT, rfl⟩ := hu
    have hp := h.seated.target u _ p .woken hT rfl
    obtain ⟨s', hs', -, hfreed⟩ := h.waitLoop hT hp (by simp) nofun
      (fun v V r hV hr => h.seated.one v u V _ p r .woken hV hr hT rfl) (hok p ⟨_, hT, rfl⟩)
    obtain ⟨hone, hgone, hthread⟩ := hfreed hfin
    refine ⟨s', _, step_eq.mpr ?_, hone, hgone, hthread, rfl, rfl⟩
    rw [State.carryOut, hT]
    exact hs'
  safe a e hok he := (yields_iff.mp (h.carryOut hok)).2 e he

/-- In every run in which a `waitpid` call is alone with its process, processes are freed in order. -/
theorem waitpid_orderly (h : Reach State.step Alone Booted s) : s.Orderly :=
  (h.invariant (fun _ h0 => h0.inv) fun _ _ _ hi hok hstep => hi.step hok hstep).orderly

def booted : State :=
  ⟨firstFamily, fun _ => 0, Function.update (fun _ => []) 1 [0], fun _ => [],
    Function.update (fun _ => none) 0 (some ⟨1, .user, 0⟩), fun _ => 0, fun _ => 0⟩

theorem booted_booted : Booted booted := ⟨0, rfl⟩

def childRun : List Act := [.fork 0 1, .waitpid 0 2, .exit 1 7, .resume 0]

theorem childRun_alone : Along State.step Alone booted childRun := by
  refine ⟨trivial, fun s1 h1 => ⟨⟨?_, fun u r => ?_, ?_⟩, fun s2 h2 => ⟨trivial, fun s3 h3 => ⟨fun p hp => ?_, fun _ _ => trivial⟩⟩⟩⟩
  · have hlist : [1, 2] = s1.family.processList :=
      Option.some.inj (congrArg (Option.map fun s : State => s.family.processList) h1)
    rw [← hlist]
    decide
  · have hthread : Function.update (Function.update (fun _ => none) 0 (some ⟨1, .user, 0⟩)) 1 (some ⟨2, .user, 0⟩) =
        s1.thread := Option.some.inj (congrArg (Option.map State.thread) h1)
    rintro ⟨T, hT, hr⟩
    simp only [← hthread, Function.update_apply] at hT
    grind
  · have hrun : false = s1.family.finished 2 :=
      Option.some.inj (congrArg (Option.map fun s : State => s.family.finished 2) h1)
    exact fun hfin => nomatch hrun.trans hfin
  · obtain rfl := Option.some.inj h1
    obtain rfl := Option.some.inj h2
    obtain rfl := Option.some.inj h3
    obtain ⟨T, hT, hstage⟩ := hp
    obtain rfl := Option.some.inj hT
    cases hstage
    exact fun _ => ⟨rfl, nofun⟩

theorem waitpid_orderly_child : ∃ s, exec State.step booted childRun = some s ∧ s.Orderly ∧
    s.returned 2 = 1 ∧ s.thread 0 = some ⟨1, .user, 7⟩ := by
  have hrun : (exec State.step booted childRun).isSome = true := by decide +kernel
  obtain ⟨s, hs⟩ := Option.isSome_iff_exists.mp hrun
  have hend : (exec State.step booted childRun).map (fun s => (s.returned 2, s.thread 0)) =
      some (1, some ⟨1, .user, 7⟩) := by decide +kernel
  rw [hs, Option.map_some, Option.some_inj, Prod.mk.injEq] at hend
  exact ⟨s, hs, waitpid_orderly ((Reach.start booted_booted).along childRun_alone hs), hend⟩

/-- Two processes wait for a third: the one that runs last looks at what the other has freed. And a
process waits for one that there never was. -/
def waitersRun : List Act := [.fork 0 1, .fork 0 2, .waitpid 0 2, .waitpid 2 2, .exit 1 7, .resume 0]

theorem waitpid_freed : (∃ s, Reach State.step Any Booted s ∧ s.carryOut (.resume 2) = .error .freed) ∧
    ∃ s, Reach State.step Any Booted s ∧ s.carryOut (.waitpid 0 9) = .error .null := by
  refine ⟨?_, booted, .start booted_booted, rfl⟩
  have hrun : (exec State.step booted waitersRun).isSome = true := by decide +kernel
  obtain ⟨s, hs⟩ := Option.isSome_iff_exists.mp hrun
  have hend : (exec State.step booted waitersRun).map (fun s => (s.thread 2, s.family.processList)) =
      some (some ⟨3, .waits 2 .woken, 0⟩, [1, 3]) := by decide +kernel
  rw [hs, Option.map_some, Option.some_inj, Prod.mk.injEq] at hend
  refine ⟨s, (Reach.start booted_booted).exec hs, ?_⟩
  rw [carryOut, hend.1]
  have hgone : s.family.follow (some 2) = .error .freed := by
    rw [follow, if_neg]
    rw [hend.2]
    decide
  exact congrArg (· >>= _) hgone

end

end State

end Os5.Waitpid
