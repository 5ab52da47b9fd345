import Os5.Lib.Outcome
import Os5.Proc.Scheduler
import Os5.Proc.Signals

/-!
# Threads that take turns

Kernel code runs on the stack of a thread, `current`, until it calls `schedule`, which saves where
the thread is and goes on with the next thread of the run queue. A thread that was made but never
run is returned to in user mode, and that is done on the stack of the thread before it: its signals
are handled there. A step is a piece of kernel code between two such calls. Names of threads and
processes are their numbers, which are not handed out again.
-/

namespace Os5.Switching

open Outcome Transition

/-- The heads of the lists that the `tasks` node of a thread can be on: the run queue and the
threads that wait for a thread, a process or a pipe. -/
inductive Head where
  | runQueue
  | thread (th : Nat)
  | process (p : Nat)
  | pipe (n : Nat)
  deriving DecidableEq

/-- Where `kernel_thread` of a thread goes on: in user mode, in the kernel, in `signal_process` for
a process, in `handle_signals` called by `idt_handler` for another thread, or behind the end of
`_exit`. -/
inductive Saved where
  | user
  | kernel
  | signalling (p : Nat)
  | handling (th : Nat)
  | exited
  deriving DecidableEq

structure Thread where
  proc : Nat
  state : ThreadState
  on : Option Head
  saved : Saved
  useresp : Nat
  /-- Its `waiting` node is a copy of that of another thread. -/
  copied : Bool
  /-- The thread that it handles a signal for. -/
  handles : Option Nat
  deriving DecidableEq

structure Process where
  signals : Signals
  finished : Bool
  threads : List Nat

/-- What the processor does: a thread runs, in user mode or in the kernel; it is in `signal_process`
at the call of `handle_signals` for itself, or behind it; or `idt_handler` returns on the stack of
one thread to user mode of another or the same. -/
inductive Mode where
  | running (current : Nat)
  | posted (current p : Nat)
  | signalling (current p : Nat)
  | returning (current th : Nat)
  | halted
  deriving DecidableEq

structure Kernel where
  thread : Nat → Option Thread
  process : Nat → Option Process
  lists : Head → List Nat
  nextTid : Nat
  nextPid : Nat
  mode : Mode

/-- A node that is on a list is put on one, a copy of a head is taken for one, or a step goes
somewhere else than to the next. -/
inductive Fault where
  | linked
  | copied
  | missing
  | undefined
  | refused
  deriving DecidableEq

inductive Act where
  | schedule
  | sleep (h : Head)
  | wake (h : Head)
  | fork
  | threadFork (useresp : Nat)
  | exit
  | kill (pid sig : Int)
  | signal (sig : Nat) (handler : Nat)
  | free (p : Nat)
  | returnFromSignal
  | execve (useresp : Nat)
  | user (useresp : Nat)
  | iret
  | go
  deriving DecidableEq

abbrev bootThread : Nat := 1

abbrev firstProcess : Nat := 1

namespace Kernel

def getThread (k : Kernel) (th : Nat) : Except Fault Thread :=
  match k.thread th with
  | some T => .ok T
  | none => .error .missing

def getProcess (k : Kernel) (p : Nat) : Except Fault Process :=
  match k.process p with
  | some P => .ok P
  | none => .error .missing

def setThread (k : Kernel) (th : Nat) (T : Thread) : Kernel := { k with thread := Function.update k.thread th (some T) }

def setProcess (k : Kernel) (p : Nat) (P : Process) : Kernel := { k with process := Function.update k.process p (some P) }

def setState (k : Kernel) (th : Nat) (st : ThreadState) : Kernel :=
  { k with thread := Function.update k.thread th ((k.thread th).map fun T => { T with state := st }) }

-- ---------------------------------------------------------------------------
-- The scheduler
-- ---------------------------------------------------------------------------

/-- `remove_from_list` on the `tasks` node, which may be alone. -/
def schedulerRemove (k : Kernel) (th : Nat) : Kernel :=
  match k.thread th with
  | some T =>
    match T.on with
    | some h => { k.setThread th { T with on := none } with lists := Function.update k.lists h ((k.lists h).erase th) }
    | none => k
  | none => k

def insertAt (k : Kernel) (h : Head) (th : Nat) (put : List Nat → List Nat) : Except Fault Kernel := do
  let T ← k.getThread th
  if T.on = none then
    return { k.setThread th { T with on := some h } with lists := Function.update k.lists h (put (k.lists h)) }
  else .error .linked

def append (k : Kernel) (h : Head) (th : Nat) : Except Fault Kernel := k.insertAt h th (· ++ [th])

def schedulerInsert (k : Kernel) (th : Nat) : Except Fault Kernel := k.append .runQueue th

def schedulerCheat (k : Kernel) (th : Nat) : Except Fault Kernel := k.insertAt .runQueue th (th :: ·)

def schedulerSleep (k : Kernel) (th : Nat) (h : Head) : Except Fault Kernel :=
  ((k.schedulerRemove th).setState th .waiting).append h th

def wakeTurn (k : Kernel) (th : Nat) : Except Fault Kernel := do
  let k ← (k.schedulerRemove th).append .runQueue th
  return k.setState th .ready

def schedulerWake (k : Kernel) (h : Head) : Except Fault Kernel := (k.lists h).foldlM wakeTurn k

-- ---------------------------------------------------------------------------
-- Threads
-- ---------------------------------------------------------------------------

def freeThread (k : Kernel) (th : Nat) : Kernel :=
  let k := k.schedulerRemove th
  { k with
    thread := Function.update k.thread th none
    process := fun p => (k.process p).map fun P => { P with threads := P.threads.erase th } }

def cleanThreads (k : Kernel) (current p : Nat) : Kernel :=
  match k.process p with
  | some P =>
    (P.threads.filter fun th => decide (th ≠ current) && (k.thread th).any fun T => T.state = .finished).foldl freeThread k
  | none => k

def restore (current next : Nat) : Saved → Mode
  | .user => .returning current next
  | .kernel => .running next
  | .signalling p => .signalling next p
  | .handling th => .running th
  | .exited => .halted

/-- A thread that is left goes back to the run queue, unless it is asleep or finished. -/
def requeue (k : Kernel) (current : Nat) (st : ThreadState) : Except Fault Kernel :=
  if st = .ready then k.schedulerInsert current else .ok k

/-- `schedule`. With an empty run queue the idle thread is the next. -/
def switchKernelThread (k : Kernel) (current : Nat) (saved : Saved) : Except Fault Kernel := do
  let T ← k.getThread current
  let k ← (k.setThread current { T with saved := saved }).requeue current T.state
  let next := (k.lists .runQueue).head?.getD bootThread
  let N ← k.getThread next
  let k := if (k.lists .runQueue).isEmpty then k else k.schedulerRemove next
  let k := k.cleanThreads current N.proc
  return { k with mode := restore current next N.saved }

/-- `new_thread`, and `append_to_list` for the threads of the process. -/
def newThread (k : Kernel) (p useresp : Nat) (handles : Option Nat) : Except Fault (Nat × Kernel) := do
  let P ← k.getProcess p
  let new := k.nextTid
  let k := { k.setThread new ⟨p, .ready, none, .user, useresp, false, handles⟩ with nextTid := new + 1 }
  let k ← k.schedulerInsert new
  return (new, k.setProcess p { P with threads := P.threads ++ [new] })

/-- The `memcpy` of `clone_thread` leaves the head of the threads that wait for it a copy. -/
def fork (k : Kernel) (current : Nat) : Except Fault Kernel := do
  let T ← k.getThread current
  let P ← k.getProcess T.proc
  let child := k.nextPid
  let new := k.nextTid
  let k := k.setProcess child ⟨⟨P.signals.handler, fun _ => 0, []⟩, false, [new]⟩
  let k := k.setThread new { T with proc := child, on := none, saved := .user, copied := true, handles := none }
  let k := { k with nextTid := new + 1, nextPid := child + 1 }
  k.schedulerInsert new

def exit (k : Kernel) (current : Nat) : Except Fault Kernel := do
  let T ← k.getThread current
  let P ← k.getProcess T.proc
  let k := (P.threads.filter (· ≠ current)).foldl freeThread k
  let P ← k.getProcess T.proc
  let k := k.setProcess T.proc { P with finished := true }
  let k ← (k.setState current .finished).schedulerWake (.process T.proc)
  (k.setState current .finished).switchKernelThread current .exited

def freeProcess (k : Kernel) (current p : Nat) : Except Fault Kernel := do
  let P ← k.getProcess p
  let k := (P.threads.filter (· ≠ current)).foldl freeThread k
  return { k with process := Function.update k.process p none }

-- ---------------------------------------------------------------------------
-- Signals
-- ---------------------------------------------------------------------------

def terminates (signum : Nat) : Bool :=
  match defaultSign[signum]? with
  | some (some .terminate) | some (some .coredump) => true
  | _ => false

def pending (k : Kernel) (th : Nat) : Option Dispatch :=
  match k.thread th with
  | some T =>
    match k.process T.proc with
    | some P => (handleSignals P.signals T.useresp).1
    | none => none
  | none => none

/-- A thread for the handler of a signal; the thread it is for sleeps. -/
def startHandler (k : Kernel) (current th : Nat) (h : HandlerThread) (saved : Saved) : Except Fault Kernel := do
  let T ← k.getThread th
  let (new, k) ← k.newThread T.proc h.useresp (some th)
  let k ← (k.schedulerRemove new).schedulerSleep th (.thread new)
  let k ← k.schedulerCheat new
  k.switchKernelThread current saved

/-- `handle_signals` for a thread on the stack of another or its own: where the latter goes on when
it has slept, and where if it does not. -/
def handle (k : Kernel) (current th : Nat) (saved : Saved) (go : Mode) : Except Fault Kernel := do
  let T ← k.getThread th
  let P ← k.getProcess T.proc
  let (dispatch, signals) := handleSignals P.signals T.useresp
  let k := k.setProcess T.proc { P with signals := signals }
  match dispatch with
  | none | some .ignore => return { k with mode := go }
  | some (.default signum) =>
    if terminates signum then k.exit current
    else
      match defaultSign[signum]? with
      | some (some _) => return { k with mode := go }
      | _ => .error .undefined
  | some (.custom h) => k.startHandler current th h saved

def returnFromSignal (k : Kernel) (current : Nat) : Except Fault Kernel := do
  let T ← k.getThread current
  if T.copied then .error .copied
  else
    let k ← k.schedulerWake (.thread current)
    ((k.setState current .finished).schedulerRemove current).switchKernelThread current .exited

def sleeper (k : Kernel) (p : Nat) : Option Nat :=
  match k.process p with
  | some P =>
    match P.threads.head? with
    | some th => if (k.thread th).any fun T => T.state = .waiting then some th else none
    | none => none
  | none => none

/-- `kill`, up to where `signal_process` calls `handle_signals`. -/
def kill (k : Kernel) (current : Nat) (pid sig : Int) : Except Fault Kernel := do
  let C ← k.getThread current
  if pid ≤ 0 ∨ sig > numSignals then .error .refused
  else
    match k.process pid.toNat with
    | none => .error .refused
    | some P =>
      if P.finished then .error .refused
      else
        let p := pid.toNat
        let k := k.setProcess p { P with signals := { P.signals with queue := P.signals.queue ++ [⟨asUint sig, C.proc⟩] } }
        return { k with mode := if p = C.proc then .posted current p else .signalling current p }

-- ---------------------------------------------------------------------------
-- Steps
-- ---------------------------------------------------------------------------

/-- A list of `thread_t`, other than the run queue, is slept on for a handler only. -/
def Head.forSleep : Head → Bool
  | .process _ | .pipe _ => true
  | _ => false

def call (k : Kernel) (current : Nat) : Act → Except Fault Kernel
  | .schedule => k.switchKernelThread current .kernel
  | .sleep h =>
    if Head.forSleep h then do
      let k ← k.schedulerSleep current h
      k.switchKernelThread current .kernel
    else .error .refused
  | .wake h => if Head.forSleep h then k.schedulerWake h else .error .refused
  | .fork => k.fork current
  | .threadFork useresp => do
    let T ← k.getThread current
    let (_, k) ← k.newThread T.proc useresp none
    return k
  | .exit => k.exit current
  | .kill pid sig => k.kill current pid sig
  | .signal sig handler => do
    let T ← k.getThread current
    let P ← k.getProcess T.proc
    if sig > numSignals ∨ ((sig : Int) = sigKill ∨ (sig : Int) = sigStop) ∧ handler ≠ 0 then .error .refused
    else return k.setProcess T.proc { P with signals := { P.signals with handler := Function.update P.signals.handler sig handler } }
  | .execve useresp => do
    let T ← k.getThread current
    let P ← k.getProcess T.proc
    let k := k.setProcess T.proc { P with signals := ⟨fun _ => sigDfl, fun _ => 0, []⟩ }
    return k.setThread current { T with useresp := useresp }
  | .free p => do
    let P ← k.getProcess p
    if P.finished then k.freeProcess current p else .error .refused
  | .returnFromSignal => k.returnFromSignal current
  | .user useresp => do
    let T ← k.getThread current
    return k.setThread current { T with useresp := useresp }
  | .iret => .ok { k with mode := .returning current current }
  | .go => .error .refused

def Act.interrupt : Act → Bool
  | .schedule | .sleep _ | .wake _ => true
  | _ => false

def carryOut (k : Kernel) (a : Act) : Except Fault Kernel :=
  match k.mode with
  | .running current => if current = bootThread ∧ Act.interrupt a = false then .error .refused else k.call current a
  | .posted current p => if a = .go then k.handle current current (.signalling p) (.signalling current p) else .error .refused
  | .signalling current p =>
    if a = .go then
      match k.sleeper p with
      | some th => k.handle current th .kernel (.running current)
      | none => .ok { k with mode := .running current }
    else .error .refused
  | .returning current th =>
    if a = .go then k.handle current th (if current = th then .kernel else .handling th) (.running th) else .error .refused
  | .halted => .error .refused

def step (k : Kernel) (a : Act) : Option Kernel := (k.carryOut a).toOption

/-- What `switch_kernel_thread` leaves when it is called for the first time: the idle thread runs and
the first thread of user mode is in the run queue, though not on the list of the process. -/
def boot (useresp : Nat) : Kernel where
  thread := Function.update (Function.update (fun _ => none) bootThread (some ⟨firstProcess, .ready, none, .kernel, 0, false, none⟩))
    2 (some ⟨firstProcess, .ready, some .runQueue, .user, useresp, false, none⟩)
  process := Function.update (fun _ => none) firstProcess (some ⟨⟨fun _ => sigDfl, fun _ => 0, []⟩, false, [bootThread]⟩)
  lists := Function.update (fun _ => []) .runQueue [2]
  nextTid := 3
  nextPid := 2
  mode := .running bootThread

def Booted (k : Kernel) : Prop := ∃ useresp, k = boot useresp

end Kernel

end Os5.Switching
