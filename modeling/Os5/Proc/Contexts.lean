import Os5.Lib.Transition

/-!
# A processor for each thread

An interrupt pushes the registers on the kernel stack of a thread, below the block that holds them
for its program, and the return pops what `idt_handler` gives it, which may be the frame of another
thread. The machine is the processor, the words of the pages of the threads and `esp0`; what it is
for is that each thread has a processor of its own, on which kernel code interrupts the program.
-/

namespace Os5.Contexts

open Transition

structure Cpu where
  ds : Nat
  es : Nat
  fs : Nat
  gs : Nat
  edi : Nat
  esi : Nat
  ebp : Nat
  esp : Nat
  ebx : Nat
  edx : Nat
  ecx : Nat
  eax : Nat
  eip : Nat
  cs : Nat
  eflags : Nat
  ss : Nat
  deriving DecidableEq, Repr

abbrev segKernelCode : Nat := 0x08
abbrev segKernelData : Nat := 0x10
abbrev segUserCode : Nat := 0x1B
abbrev segUserData : Nat := 0x23
abbrev eflInt : Nat := 0x200
abbrev intSchedule : Nat := 0x82

def Cpu.user (c : Cpu) : Bool := c.cs % 4 = 3

/-- Words at the addresses that are multiples of four. -/
abbrev Words := Nat → Nat

abbrev pageSize : Nat := 0x1000

/-- The block of `thread_info_t` at an address ends with the `tcb`, 104 bytes from the end. -/
def tcb (th : Nat) : Nat := th + 3992

def stackFromTcb (a : Nat) : Nat := a + 64

/-- `kernel_thread`, behind the registers, two words and two list nodes. -/
def kernelThread (th : Nat) : Nat := tcb th + 88

/-- `current_thread_info`, from where the stack is. -/
def threadInfo (esp : Nat) : Nat := esp / pageSize * pageSize

structure Machine where
  mem : Words
  cpu : Cpu
  /-- The stack that an interrupt switches to in user mode. -/
  esp0 : Nat
  /-- For each thread the arguments of the calls of `idt_handler` that are to return to it, the
  innermost first. -/
  calls : Nat → List Nat
  live : List Nat

def Machine.current (m : Machine) : Nat := threadInfo (if m.cpu.user then m.esp0 else m.cpu.esp)

def setWord (mem : Words) (a v : Nat) : Words := Function.update mem a v

def setWords (mem : Words) (stores : List (Nat × Nat)) : Words :=
  stores.foldl (fun mem s => setWord mem s.1 s.2) mem

def push (mem : Words) (esp : Nat) : List Nat → Words
  | [] => mem
  | v :: vs => push (setWord mem (esp - 4) v) (esp - 4) vs

/-- The interrupts that come with an error code have no `push $0` in their stub. -/
def withError : List Nat := [8, 10, 11, 12, 13, 14]

def vectors : List Nat := List.range 48 ++ [128, 130, 255]

/-- What the processor pushes, what the stub pushes and what `int_stub` does; `frame` is where it
ends up. -/
def frameWords (c : Cpu) (num err frame : Nat) : List Nat :=
  (if c.user then [c.ss, c.esp] else []) ++ [c.eflags, c.cs, c.eip, if num ∈ withError then err else 0, num] ++
    [c.eax, c.ecx, c.edx, c.ebx, frame + 36, c.ebp, c.esi, c.edi] ++ [c.ds]

def frameOf (c : Cpu) (esp0 : Nat) : Nat := if c.user then esp0 - 64 else c.esp - 56

def entered (c : Cpu) (frame handler : Nat) : Cpu :=
  { c with
    cs := segKernelCode, eflags := c.eflags - (c.eflags &&& eflInt), eip := handler, esp := frame, ecx := segKernelData
    ds := segKernelData, es := segKernelData, fs := segKernelData, gs := segKernelData, ss := segKernelData }

def intStub (m : Machine) (num err handler : Nat) : Machine :=
  let frame := frameOf m.cpu m.esp0
  { m with
    mem := push m.mem (if m.cpu.user then m.esp0 else m.cpu.esp) (frameWords m.cpu num err frame)
    cpu := entered m.cpu frame handler
    calls := Function.update m.calls m.current (frame :: m.calls m.current) }

/-- The registers that `int_return` pops; `iret` pops the last two for user mode only. -/
def popped (mem : Words) (a ss : Nat) : Cpu where
  ds := mem a
  es := mem a
  fs := mem a
  gs := mem a
  edi := mem (a + 4)
  esi := mem (a + 8)
  ebp := mem (a + 12)
  ebx := mem (a + 20)
  edx := mem (a + 24)
  ecx := mem (a + 28)
  eax := mem (a + 32)
  eip := mem (a + 44)
  cs := mem (a + 48)
  eflags := mem (a + 52)
  esp := if mem (a + 48) % 4 = 3 then mem (a + 56) else a + 56
  ss := if mem (a + 48) % 4 = 3 then mem (a + 60) else ss

def intReturn (m : Machine) (a : Nat) : Machine := { m with cpu := popped m.mem a m.cpu.ss }

/-- The end of `idt_handler`, which returns `ret`, and `int_return`. -/
def idtReturn (m : Machine) (ret : Nat) : Machine :=
  if m.mem (ret + 48) % 4 = 3 then
    intReturn { m with esp0 := stackFromTcb ret, mem := setWord m.mem (ret + 52) (m.mem (ret + 52) ||| eflInt) } ret
  else intReturn m ret

def allocThread (m : Machine) (new : Nat) : Machine :=
  { m with
    mem := fun x => if tcb new ≤ x ∧ x < tcb new + 104 then 0 else m.mem x
    calls := Function.update m.calls new []
    live := new :: m.live }

def newThread (m : Machine) (new func stack : Nat) : Machine :=
  let m := allocThread m new
  let r := tcb new
  { m with
    mem := setWords m.mem [(r + 44, func), (r + 56, stack), (r + 12, stack), (r + 48, segUserCode), (r, segUserData),
      (r + 60, segUserData), (kernelThread new, r)] }

def cloneThread (m : Machine) (th new : Nat) : Machine :=
  let m := allocThread m new
  let mem := fun x => if tcb new ≤ x ∧ x < tcb new + 104 then m.mem (x - tcb new + tcb th) else m.mem x
  { m with mem := setWords mem [(kernelThread new, tcb new), (tcb new + 32, 0)] }

def switchKernelThread (m : Machine) (boot next r : Nat) : Machine × Nat :=
  let mem := if r = tcb boot then m.mem else setWord m.mem (kernelThread m.current) r
  ({ m with mem := mem }, mem (kernelThread next))

def Machine.leave (m : Machine) (calls : List Nat) : Machine :=
  { m with calls := Function.update m.calls m.current calls }

inductive Act
  | run (c : Cpu)
  | interrupt (num err handler : Nat)
  | ignored (num handler : Nat)
  | work (stores : List (Nat × Nat)) (c : Cpu)
  | result (eax edx : Nat)
  | exec (eip pos : Nat)
  | fork (new : Nat)
  | thread (new func stack : Nat)
  | free (th : Nat)
  | schedule (handler : Nat)
  /-- The handler of `INT_SCHEDULE`. -/
  | switch (next : Nat)
  | back
  deriving Repr

/-- The program cannot change its rings. -/
def Cpu.inUser (c : Cpu) : Cpu := { c with cs := segUserCode, ss := segUserData }

/-- Kernel code leaves the segments alone. -/
def Cpu.inKernel (c old : Cpu) : Cpu :=
  { c with cs := old.cs, ds := old.ds, es := old.es, fs := old.fs, gs := old.gs, ss := old.ss }

def Machine.systemCall (m : Machine) : Bool :=
  m.calls m.current = [tcb m.current] && m.mem (tcb m.current + 48) % 4 = 3

/-- `boot` is the idle thread. -/
def step (boot : Nat) (m : Machine) : Act → Option Machine
  | .run c => if m.cpu.user then some { m with cpu := c.inUser } else none
  | .interrupt num err handler => if num ∈ vectors ∧ num ≠ intSchedule then some (intStub m num err handler) else none
  | .ignored num handler =>
    if 32 ≤ num ∧ num ≤ 47 then
      let m' := intStub m num 0 handler
      some { intReturn m' (frameOf m.cpu m.esp0) with calls := m.calls }
    else none
  | .work stores c =>
    match m.calls m.current with
    | [] => none
    | r :: _ =>
      if (∀ s ∈ stores, m.current ≤ s.1 ∧ s.1 + 4 ≤ r) ∧ m.current ≤ c.esp ∧ c.esp ≤ r then
        some { m with mem := setWords m.mem stores, cpu := c.inKernel m.cpu }
      else none
  | .result eax edx =>
    if m.systemCall then
      some { m with mem := setWords m.mem [(tcb m.current + 32, eax), (tcb m.current + 24, edx)] }
    else none
  | .exec eip pos =>
    if m.systemCall then
      let r := tcb m.current
      some { m with
        mem := setWords m.mem [(r + 24, 0), (r + 28, 0), (r + 20, 0), (r + 32, 0), (kernelThread m.current, r),
          (r + 12, pos), (r + 56, pos), (r + 28, pos), (r + 44, eip)] }
    else none
  | .fork new =>
    if m.systemCall ∧ new % pageSize = 0 ∧ new ∉ m.live then some (cloneThread m m.current new) else none
  | .thread new func stack =>
    if m.calls m.current ≠ [] ∧ new % pageSize = 0 ∧ new ∉ m.live then some (newThread m new func stack) else none
  | .free th => if th ∈ m.live ∧ th ≠ m.current then some { m with live := m.live.filter (· ≠ th) } else none
  | .schedule handler => if m.calls m.current ≠ [] then some (intStub m intSchedule 0 handler) else none
  | .switch next =>
    match m.calls m.current with
    | [] => none
    | r :: calls =>
      if m.mem (r + 36) = intSchedule ∧ next ∈ m.live then
        let (m', ret) := switchKernelThread m boot next r
        some (idtReturn (m'.leave calls) ret)
      else none
  | .back =>
    match m.calls m.current with
    | [] => none
    | r :: calls => if m.mem (r + 36) ≠ intSchedule then some (idtReturn (m.leave calls) r) else none

-- ---------------------------------------------------------------------------
-- What it is for
-- ---------------------------------------------------------------------------

def Cpu.reloaded (c : Cpu) : Cpu := { c with es := c.ds, fs := c.ds, gs := c.ds }

def Cpu.resumed (c : Cpu) : Cpu :=
  { c.reloaded with eflags := if c.user then c.eflags ||| eflInt else c.eflags }

def started (func stack : Nat) : Cpu where
  ds := segUserData
  es := segUserData
  fs := segUserData
  gs := segUserData
  edi := 0
  esi := 0
  ebp := stack
  esp := stack
  ebx := 0
  edx := 0
  ecx := 0
  eax := 0
  eip := func
  cs := segUserCode
  eflags := 0
  ss := segUserData

/-- Each thread has a processor, with the registers of what it interrupted behind its own; a block
without registers is not a thread. -/
structure Processors where
  current : Nat
  stack : Nat → List Cpu

def Processors.set (w : Processors) (th : Nat) (cs : List Cpu) : Processors :=
  { w with stack := Function.update w.stack th cs }

def Processors.interrupt (w : Processors) (handler : Nat) : Option Processors :=
  match w.stack w.current with
  | [] => none
  | c :: cs =>
    some (w.set w.current (entered c (frameOf c (stackFromTcb (tcb w.current))) handler :: c :: cs))

def Processors.resume (w : Processors) : Option Processors :=
  match w.stack w.current with
  | [] => none
  | c :: cs => some (w.set w.current (c.resumed :: cs))

def Processors.inCall (w : Processors) (f : Cpu → Cpu) : Option Processors :=
  match w.stack w.current with
  | [c, u] => some (w.set w.current [c, f u])
  | _ => none

def Processors.step (w : Processors) : Act → Option Processors
  | .run c => some (w.set w.current [c.inUser])
  | .interrupt _ _ handler => w.interrupt handler
  | .ignored _ _ =>
    match w.stack w.current with
    | [] => none
    | c :: cs => some (w.set w.current (c.reloaded :: cs))
  | .work _ c =>
    match w.stack w.current with
    | [] => none
    | old :: cs => some (w.set w.current (c.inKernel old :: cs))
  | .result eax edx => w.inCall fun u => { u with eax := eax, edx := edx }
  | .exec eip pos => w.inCall fun u =>
    { u with eax := 0, ebx := 0, edx := 0, ecx := pos, esp := pos, ebp := pos, eip := eip }
  | .fork new =>
    match w.stack w.current with
    | [_, u] => some (w.set new [{ u with eax := 0 }])
    | _ => none
  | .thread new func stack => some (w.set new [started func stack])
  | .free th => some (w.set th [])
  | .schedule handler => w.interrupt handler
  | .switch next => { w.set w.current (w.stack w.current).tail with current := next }.resume
  | .back => (w.set w.current (w.stack w.current).tail).resume

def HasRoom (m : Machine) : Act → Prop
  | .interrupt _ _ _ | .ignored _ _ | .schedule _ => m.cpu.user = true ∨ m.current + 56 ≤ m.cpu.esp
  | _ => True

instance HasRoom.decidable (m : Machine) : ∀ act, Decidable (HasRoom m act)
  | .interrupt _ _ _ | .ignored _ _ | .schedule _ => inferInstanceAs (Decidable (_ ∨ _))
  | .run _ | .work _ _ | .result _ _ | .exec _ _ | .fork _ | .thread _ _ _ | .free _ | .switch _ | .back =>
    .isTrue trivial

end Os5.Contexts
