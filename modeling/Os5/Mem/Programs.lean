import Os5.Lib.Transition
import Os5.Mem.Upkeep

/-!
# Programs and their memory

What any number of processes do to their areas over whole runs: `execve` with
`load_elf`, `sbrk`, the video memory, page faults, forks and exits. `execve` and
`load_elf` are taken apart into steps with one call of `new_area` each. The bytes
that `load_elf_segment` reads into a segment are left out.
-/

namespace Os5

open Machine Outcome Transition

/-- What `load_elf` looks at in a program header. -/
structure ElfPhead where
  type : Nat
  virtualAddress : Nat
  memSize : Nat
  flags : Nat
  deriving DecidableEq, Repr

structure ElfHeader where
  type : Nat
  pheads : List ElfPhead

abbrev elfTypeExecutable : Nat := 2
abbrev elfPtLoad : Nat := 1
abbrev mmTypeData : Nat := 1
abbrev mmTypeStack : Nat := 6
abbrev userStackTop : Nat := 0xBFFFF000
abbrev videoMemory : Nat := 0xB8000

def ElfPhead.writable (ph : ElfPhead) : Bool := ph.flags / 4 % 2 = 1

def ElfPhead.end (ph : ElfPhead) : Nat := wrap (ph.virtualAddress + ph.memSize)

def ElfPhead.mmFlags (ph : ElfPhead) : MmFlags := ⟨true, ph.writable, false, false, false, false, false, false⟩

def heapFlags : MmFlags := ⟨true, true, false, false, false, false, false, false⟩
def stackFlags : MmFlags := ⟨false, true, false, false, false, true, false, true⟩
def vidmemFlags : MmFlags := ⟨true, true, false, true, false, false, false, false⟩

/-- The processes and their memory. `loading p` says that `p` is in `execve`, behind
`procmm_removeall`; `exited p` that its areas were freed for good. -/
structure World where
  mem : Mem
  codeEnd : Nat → Nat
  dataEnd : Nat → Nat
  loading : Nat → Bool
  exited : Nat → Bool

inductive MemAct
  | schedule (p : Nat)
  | removeAll
  | beginLoad
  | loadSegment (ph : ElfPhead)
  | endLoad
  | newStack
  | sbrk (incr : Int)
  | vidmem
  | fault (f : PageFault)
  | fork
  | exit (p : Nat)

def loadElf (elf : ElfHeader) : List MemAct :=
  if elf.type ≠ elfTypeExecutable then []
  else .beginLoad :: (elf.pheads.filter fun ph => ph.type = elfPtLoad).map .loadSegment ++ [.endLoad]

/-- The part of `execve` that is about memory. -/
def execve (elf : ElfHeader) : List MemAct := .removeAll :: loadElf elf ++ [.newStack]

namespace World

def current (s : World) : Nat := s.mem.current

/-- `p->mm.data_end + incr` -/
def brk (s : World) (incr : Int) : Nat := ((s.dataEnd s.current + incr) % 2 ^ 32).toNat

/-- `load_elf_segment`, and what `load_elf` does for it. -/
def loadElfSegment (s : World) (ph : ElfPhead) : Except Stop World := do
  let codeEnd := if ph.end > s.codeEnd s.current then ph.end else s.codeEnd s.current
  let (_, w) ← newArea s.mem s.current ph.virtualAddress ph.end ph.mmFlags mmTypeData
  return { s with mem := w, codeEnd := Function.update s.codeEnd s.current codeEnd }

/-- The area that `usr_sbrk` extends or makes. -/
def sbrkArea (s : World) (incr : Int) : Except Stop Mem :=
  match findIncluding s.mem s.current (s.dataEnd s.current) with
  | some area =>
    if (s.mem.area area).stop > s.brk incr then .ok s.mem
    else do
      let (_, w) ← newArea s.mem s.current (s.mem.area area).stop (s.brk incr) heapFlags mmTypeData
      return w
  | none => do
    let (_, w) ← newArea s.mem s.current (s.dataEnd s.current) (s.brk incr) heapFlags mmTypeData
    return w

def usrSbrk (s : World) (incr : Int) : Except Stop World :=
  if s.brk incr > kernelOffset then .ok s
  else do
    let w ← s.sbrkArea incr
    return { s with mem := w, dataEnd := Function.update s.dataEnd s.current (s.brk incr) }

def vidmem (s : World) : Except Stop World := do
  let (_, w) ← newArea s.mem s.current videoMemory 0xB9000 vidmemFlags mmTypeData
  let m := { w.machine with free := (vmmPageGet w.machine videoMemory).frame :: w.machine.free }
  let m ← vmmPageSet m videoMemory (vmmPageVal 0xB8 ⟨true, true, true⟩)
  return { s with mem := { w with machine := m } }

/-- What `procmm_fork` copies with the memory information of the parent. -/
def fork (s : World) : Except Stop World := do
  let (child, w) ← forkProcess s.mem
  return { mem := w
           codeEnd := Function.update s.codeEnd child (s.codeEnd s.current)
           dataEnd := Function.update s.dataEnd child (s.dataEnd s.current)
           loading := Function.update s.loading child false
           exited := Function.update s.exited child false }

def whenRunning (s : World) (next : Except Stop World) : Except Stop World :=
  if s.loading s.current then .error .refused else next

def whenLoading (s : World) (next : Except Stop World) : Except Stop World :=
  if s.loading s.current then next else .error .refused

def carryOut (s : World) : MemAct → Except Stop World
  | .schedule p =>
    if s.mem.living p && !s.exited p then .ok { s with mem := switchProcess s.mem p } else .error .refused
  | .removeAll => do
    let w ← procmmRemoveall s.mem s.current
    return { s with mem := w, loading := Function.update s.loading s.current true }
  | .beginLoad => s.whenLoading (.ok { s with codeEnd := Function.update s.codeEnd s.current 0 })
  | .loadSegment ph =>
    if ph.virtualAddress < 2 ^ 32 && ph.memSize < 2 ^ 32 then s.whenLoading (s.loadElfSegment ph)
    else .error .refused
  | .endLoad =>
    s.whenLoading (.ok { s with dataEnd := Function.update s.dataEnd s.current (s.codeEnd s.current) })
  | .newStack => s.whenLoading do
    let (_, w) ← newArea s.mem s.current userStackTop userStackTop stackFlags mmTypeStack
    return { s with mem := w, loading := Function.update s.loading s.current false }
  | .sbrk incr =>
    if -2 ^ 31 ≤ incr && incr < 2 ^ 31 then s.whenRunning (s.usrSbrk incr) else .error .refused
  | .vidmem => s.whenRunning s.vidmem
  | .fault f =>
    if f.address < 2 ^ 32 then do
      let (_, w) ← procmmHandlePageFault s.mem f.address f.present f.write
      return { s with mem := w }
    else .error .refused
  | .fork => s.whenRunning s.fork
  | .exit p =>
    if s.mem.living p && !s.exited p && p ≠ s.current then
      .ok { s with mem := procmmExit s.mem p, exited := Function.update s.exited p true }
    else .error .refused

def step (s : World) (a : MemAct) : Option World := (s.carryOut a).toOption

end World

-- ---------------------------------------------------------------------------
-- What an action asks `new_area` for
-- ---------------------------------------------------------------------------

/-- The arguments of a call of `new_area` for the running process. -/
structure Request where
  start : Nat
  stop : Nat
  flags : MmFlags
  type : Nat

namespace World

def sbrkRequest (s : World) (incr : Int) : Option Request :=
  if s.brk incr > kernelOffset then none
  else
    match findIncluding s.mem s.current (s.dataEnd s.current) with
    | some area =>
      if (s.mem.area area).stop > s.brk incr then none
      else some ⟨(s.mem.area area).stop, s.brk incr, heapFlags, mmTypeData⟩
    | none => some ⟨s.dataEnd s.current, s.brk incr, heapFlags, mmTypeData⟩

def request (s : World) : MemAct → Option Request
  | .loadSegment ph => some ⟨ph.virtualAddress, ph.end, ph.mmFlags, mmTypeData⟩
  | .newStack => some ⟨userStackTop, userStackTop, stackFlags, mmTypeStack⟩
  | .sbrk incr => s.sbrkRequest incr
  | .vidmem => some ⟨videoMemory, 0xB9000, vidmemFlags, mmTypeData⟩
  | .fault f => (growing s.mem f.address).map fun above =>
      ⟨pageMask f.address, (s.mem.area above).start, (s.mem.area above).flags, (s.mem.area above).type⟩
  | _ => none

def FindsRoom (s : World) (a : MemAct) : Prop :=
  ∀ r, s.request a = some r → Room s.mem s.current (pageMask r.start) (areaStop r.stop) r.flags r.type

end World

-- ---------------------------------------------------------------------------
-- What a step does to the areas
-- ---------------------------------------------------------------------------

namespace World

inductive Moves (s : World) : MemAct → Mem → Prop
  | schedule {p} : s.mem.living p = true → s.exited p = false → Moves s (.schedule p) (switchProcess s.mem p)
  | removeAll {w} : procmmRemoveall s.mem s.current = .ok w → Moves s .removeAll w
  | nothing {a} : s.request a = none → a ≠ .removeAll → Moves s a s.mem
  | enters {a r b w} : s.request a = some r →
      newArea s.mem s.current r.start r.stop r.flags r.type = .ok (b, w) → Moves s a w
  | vidmem {b w m} : newArea s.mem s.current videoMemory 0xB9000 vidmemFlags mmTypeData = .ok (b, w) →
      vmmPageSet { w.machine with free := (vmmPageGet w.machine videoMemory).frame :: w.machine.free } videoMemory
        (vmmPageVal 0xB8 ⟨true, true, true⟩) = .ok m → Moves s .vidmem { w with machine := m }
  | fault {f r a w} : findIncluding s.mem s.current f.address = some a →
      procmmHandlePageFault s.mem f.address f.present f.write = .ok (r, w) → Moves s (.fault f) w
  | fork {child w} : forkProcess s.mem = .ok (child, w) → Moves s .fork w
  | exit {p} : Moves s (.exit p) (procmmExit s.mem p)

section
variable {s s' : World} {w : Mem} {a : MemAct} {r : Request} {p b : Nat} {ph : ElfPhead}

theorem step_some : s.step a = some s' ↔ s.carryOut a = .ok s' := by
  unfold step
  cases s.carryOut a <;> simp [Except.toOption]

theorem whenRunning_ok {next : Except Stop World} (h : s.whenRunning next = .ok s') :
    s.loading s.current = false ∧ next = .ok s' := by
  unfold whenRunning at h
  split at h
  · cases h
  · next hl => exact ⟨by simpa using hl, h⟩

theorem whenLoading_ok {next : Except Stop World} (h : s.whenLoading next = .ok s') :
    s.loading s.current = true ∧ next = .ok s' := by
  unfold whenLoading at h
  split at h
  · next hl => exact ⟨hl, h⟩
  · cases h

theorem usrSbrk_moves {incr : Int} (h : s.usrSbrk incr = .ok s') : Moves s (.sbrk incr) s'.mem ∧
    s'.loading = s.loading ∧ s'.exited = s.exited := by
  unfold usrSbrk at h
  split at h
  · next hbig =>
    obtain rfl := Except.ok.inj h
    exact ⟨.nothing (if_pos hbig) nofun, rfl, rfl⟩
  · next hbig =>
    obtain ⟨w, hw, h⟩ := bind_ok.mp h
    obtain rfl := Except.ok.inj h
    refine ⟨?_, rfl, rfl⟩
    have hreq : s.request (.sbrk incr) = _ := if_neg hbig
    unfold sbrkArea at hw
    cases hinc : findIncluding s.mem s.current (s.dataEnd s.current) with
    | none =>
      rw [hinc] at hw hreq
      obtain ⟨⟨b, v⟩, hnew, hw⟩ := bind_ok.mp hw
      obtain rfl := Except.ok.inj hw
      exact .enters hreq hnew
    | some area =>
      simp only [hinc] at hw hreq
      split at hw
      · next henough =>
        obtain rfl := Except.ok.inj hw
        exact .nothing (hreq.trans (if_pos henough)) nofun
      · next henough =>
        obtain ⟨⟨b, v⟩, hnew, hw⟩ := bind_ok.mp hw
        obtain rfl := Except.ok.inj hw
        exact .enters (hreq.trans (if_neg henough)) hnew

theorem fault_moves {f : PageFault} {resolved : Bool}
    (h : procmmHandlePageFault s.mem f.address f.present f.write = .ok (resolved, w)) : Moves s (.fault f) w := by
  cases hinc : findIncluding s.mem s.mem.current f.address with
  | some a => exact .fault hinc h
  | none =>
    rcases outsideFault_cases hinc h with ⟨hnone, rfl⟩ | ⟨above, b, hgrow, hnew⟩
    · exact .nothing (by rw [request, hnone, Option.map_none]) nofun
    · have hreq : s.request (.fault f) = some ⟨pageMask f.address, (s.mem.area above).start,
          (s.mem.area above).flags, (s.mem.area above).type⟩ := by
        rw [request, hgrow, Option.map_some]
      exact .enters hreq hnew

theorem step_moves (hs : s.step a = some s') : Moves s a s'.mem ∧
    (∀ p, s'.loading p = true → s.loading p = true ∨ (a = .removeAll ∧ p = s.current)) ∧
    (∀ p, s'.exited p = false → s.exited p = false ∨ (a = .fork ∧ p = s.mem.nextPid)) ∧
    (∀ p, s.exited p = false → s'.exited p = false ∨ a = .exit p) := by
  have hs := step_some.mp hs
  cases a with
  | schedule p =>
    simp only [carryOut] at hs
    split at hs
    · next hp =>
      obtain rfl := Except.ok.inj hs
      simp only [Bool.and_eq_true, Bool.not_eq_true'] at hp
      exact ⟨.schedule hp.1 hp.2, fun _ => .inl, fun _ => .inl, fun _ => .inl⟩
    · cases hs
  | removeAll =>
    obtain ⟨w, hw, hs⟩ := bind_ok.mp hs
    obtain rfl := Except.ok.inj hs
    refine ⟨.removeAll hw, fun p hp => ?_, fun _ => .inl, fun _ => .inl⟩
    by_cases hpc : p = s.current
    · exact .inr ⟨rfl, hpc⟩
    · exact .inl (by simpa [hpc] using hp)
  | beginLoad =>
    obtain ⟨-, hs⟩ := whenLoading_ok hs
    obtain rfl := Except.ok.inj hs
    exact ⟨.nothing rfl nofun, fun _ => .inl, fun _ => .inl, fun _ => .inl⟩
  | loadSegment ph =>
    simp only [carryOut] at hs
    split at hs
    · obtain ⟨-, hs⟩ := whenLoading_ok hs
      obtain ⟨⟨b, w⟩, hnew, hs⟩ := bind_ok.mp hs
      obtain rfl := Except.ok.inj hs
      exact ⟨.enters rfl hnew, fun _ => .inl, fun _ => .inl, fun _ => .inl⟩
    · cases hs
  | endLoad =>
    obtain ⟨-, hs⟩ := whenLoading_ok hs
    obtain rfl := Except.ok.inj hs
    exact ⟨.nothing rfl nofun, fun _ => .inl, fun _ => .inl, fun _ => .inl⟩
  | newStack =>
    obtain ⟨-, hs⟩ := whenLoading_ok hs
    obtain ⟨⟨b, w⟩, hnew, hs⟩ := bind_ok.mp hs
    obtain rfl := Except.ok.inj hs
    refine ⟨.enters rfl hnew, fun p hp => .inl ?_, fun _ => .inl, fun _ => .inl⟩
    by_cases hpc : p = s.current
    · simp [hpc] at hp
    · simpa [hpc] using hp
  | sbrk incr =>
    simp only [carryOut] at hs
    split at hs
    · obtain ⟨-, hs⟩ := whenRunning_ok hs
      obtain ⟨hmoves, hload, hexit⟩ := usrSbrk_moves hs
      exact ⟨hmoves, fun p hp => .inl (hload ▸ hp), fun p hp => .inl (hexit ▸ hp),
        fun p hp => .inl (hexit ▸ hp)⟩
    · cases hs
  | vidmem =>
    obtain ⟨-, hs⟩ := whenRunning_ok hs
    obtain ⟨⟨b, w⟩, hnew, hs⟩ := bind_ok.mp hs
    obtain ⟨m, hset, hs⟩ := bind_ok.mp hs
    obtain rfl := Except.ok.inj hs
    exact ⟨.vidmem hnew hset, fun _ => .inl, fun _ => .inl, fun _ => .inl⟩
  | fault f =>
    simp only [carryOut] at hs
    split at hs
    · obtain ⟨⟨r, w⟩, hfault, hs⟩ := bind_ok.mp hs
      obtain rfl := Except.ok.inj hs
      exact ⟨fault_moves hfault, fun _ => .inl, fun _ => .inl, fun _ => .inl⟩
    · cases hs
  | fork =>
    obtain ⟨-, hs⟩ := whenRunning_ok hs
    obtain ⟨⟨child, w⟩, hw, hs⟩ := bind_ok.mp hs
    obtain rfl := Except.ok.inj hs
    have hchild : child = s.mem.nextPid := forkProcess_child hw
    refine ⟨.fork hw, fun p hp => .inl ?_, fun p hp => ?_, fun p hp => .inl ?_⟩
    · by_cases hpc : p = child
      · simp [hpc] at hp
      · simpa [hpc] using hp
    · by_cases hpc : p = child
      · exact .inr ⟨rfl, hpc.trans hchild⟩
      · exact .inl (by simpa [hpc] using hp)
    · by_cases hpc : p = child
      · simp [hpc]
      · simpa [hpc] using hp
  | exit p =>
    simp only [carryOut] at hs
    split at hs
    · obtain rfl := Except.ok.inj hs
      refine ⟨.exit, fun _ => .inl, fun q hq => .inl ?_, fun q hq => ?_⟩
      · by_cases hqp : q = p
        · simp [hqp] at hq
        · simpa [hqp] using hq
      · by_cases hqp : q = p
        · exact .inr (hqp ▸ rfl)
        · exact .inl (by simpa [hqp] using hq)
    · cases hs

theorem loadSegment_loading (hs : s.step (.loadSegment ph) = some s') : s.loading s.current = true := by
  have hs := step_some.mp hs
  simp only [carryOut] at hs
  split at hs
  · exact (whenLoading_ok hs).1
  · cases hs

theorem fork_running (hs : s.step .fork = some s') : s.loading s.current = false :=
  (whenRunning_ok (step_some.mp hs)).1

theorem exit_exited (hs : s.step (.exit p) = some s') : s'.exited p = true ∧ p ≠ s.current := by
  have hs := step_some.mp hs
  simp only [carryOut] at hs
  split at hs
  · next hp =>
    obtain rfl := Except.ok.inj hs
    simp only [Bool.and_eq_true, decide_eq_true_eq] at hp
    exact ⟨Function.update_self .., hp.2⟩
  · cases hs

theorem fork_child (hs : s.step .fork = some s') : s'.loading s.mem.nextPid = false := by
  obtain ⟨⟨child, w⟩, hw, hs⟩ := bind_ok.mp (whenRunning_ok (step_some.mp hs)).2
  obtain rfl := Except.ok.inj hs
  rw [← forkProcess_child hw]
  exact Function.update_self ..

end

end World

-- ---------------------------------------------------------------------------
-- What every step keeps
-- ---------------------------------------------------------------------------

/-- The lists and rings of all processes are in shape, and read-only areas that touch differ. -/
structure Sound (w : Mem) : Prop where
  lists : Lists w
  texts : ∀ q, TextsApart w q

def Unshared (w : Mem) (p : Nat) : Prop :=
  ∀ a ∈ w.mem p, (w.area a).flags.readOnly = true → (w.area a).flags.shared = false

section
variable {w w' : Mem} {p q a child start stop type : Nat} {flags : MmFlags} {m : Machine} {f : Frame}

theorem Sound.congr (h : Sound w) (hmem : ∀ q, w'.mem q = w.mem q) (harea : w'.area = w.area)
    (hnext : w'.nextArea = w.nextArea) (hcopies : w'.copies = w.copies)
    (hliv : ∀ q, w.living q = true → w'.living q = true) : Sound w' where
  lists := ⟨h.lists.toLinked.congr hmem harea hnext hcopies hliv, fun {q b} hb => by
    rw [harea]
    exact h.lists.wf (hmem q ▸ hb)⟩
  texts q := (h.texts q).of_old fun b hb _ => ⟨hmem q ▸ hb, by rw [harea]⟩

theorem Sound.reworks (h : Sound w) (hr : Reworks w w') : Sound w' :=
  ⟨hr.lists, fun q => hr.texts (h.texts q)⟩

theorem Unshared.reworks (h : Unshared w p) (hr : Reworks w w') : Unshared w' p := by
  intro a ha hro
  obtain ⟨haw, hae⟩ := hr.readOnly ha hro
  rw [hae] at hro ⊢
  exact h a haw hro

/-- `new_area` keeps read-only areas apart where the new one is shared like the others. -/
theorem Sound.newArea (h : Sound w) (hl' : Lists w')
    (hshared : flags.readOnly = true → ∀ b ∈ w.mem p, (w.area b).flags.readOnly = true →
      (w.area b).flags.shared = flags.shared)
    (hnew : newArea w p start stop flags type = .ok (a, w')) : Sound w' := by
  have hl := h.lists.toLinked
  obtain ⟨-, he⟩ := hl.newArea_entered hnew
  refine ⟨hl', fun q => ?_⟩
  by_cases hq : q = p
  · subst hq
    exact he.texts hl (h.texts q) hshared
  · refine (h.texts q).of_old fun b hb _ => ?_
    rw [he.memOther hq] at hb
    exact ⟨hb, he.area (hl.fresh hb) (enteredAs_other hl hq hb)⟩

theorem Unshared.newArea (h : Unshared w q) (hl : Linked w)
    (hflags : q = p → flags.readOnly = true → flags.shared = false)
    (hnew : newArea w p start stop flags type = .ok (a, w')) : Unshared w' q := by
  obtain ⟨-, he⟩ := hl.newArea_entered hnew
  intro b hb hro
  by_cases hinto : b = enteredAs w p (pageMask start) flags type
  · have hbf : (w'.area b).flags = flags := by rw [hinto, he.entered]
    by_cases hq : q = p
    · rw [hbf] at hro ⊢
      exact hflags hq hro
    · rw [he.memOther hq] at hb
      exact absurd hinto (enteredAs_other hl hq hb)
  · obtain ⟨hbe, hbm⟩ := he.area_old hl hb hinto
    rw [hbe] at hro ⊢
    exact h b hbm hro

theorem Sound.fork (h : Sound w) (hcur : w.living w.current = true)
    (hfork : forkProcess w = .ok (child, w')) : Sound w' ∧ SameForked w w' := by
  obtain ⟨rfl, w1, m, pd, -, -, hi, rfl⟩ := forkProcess_inherits h.lists (h.texts _) hcur hfork
  have hf := h.lists.forked (h.texts _) hcur
  have hmem := forkStart_lists h.lists.toLinked
  have hstart : Sound (forkStart w) := h.congr hmem rfl rfl rfl fun _ => forkStart_living
  have hloop : Sound w1 := ⟨hi.lists hf fun _ hb => hb, hi.texts hf hstart.texts⟩
  refine ⟨hloop.congr setPd_lists rfl rfl rfl fun _ h => h, hi.frame.nextPid, hi.frame.current,
    fun hq hqc => ((setPd_lists _).trans (hi.mem hqc)).trans (hmem _), fun {q b} hq hb => ?_⟩
  have hbp : b ∉ (forkStart w).mem w.current := by
    intro hbp
    rw [hmem] at hbp
    exact hq ((h.lists.owner hb).symm.trans (h.lists.owner hbp))
  refine (hi.area (b := b) (h.lists.fresh hb)).trans ?_
  rw [if_neg hbp]
  rfl

end

-- ---------------------------------------------------------------------------
-- Runs
-- ---------------------------------------------------------------------------

namespace World

structure Fresh (s : World) : Prop where
  empty : ∀ p, s.mem.mem p = []
  living : s.mem.living s.current = true

/-- Every area is page aligned and does not end before it starts, the areas of a process do
not overlap, and its list goes by their starts. -/
structure InOrder (s : World) : Prop where
  aligned : ∀ p, ∀ a ∈ s.mem.mem p, pageMask (s.mem.area a).start = (s.mem.area a).start ∧
    pageMask (s.mem.area a).stop = (s.mem.area a).stop ∧ (s.mem.area a).start ≤ (s.mem.area a).stop
  disjoint : ∀ p x a b, At s.mem p x a → At s.mem p x b → a = b
  sorted : ∀ p, (s.mem.mem p).Pairwise fun a b => (s.mem.area a).start ≤ (s.mem.area b).start

/-- What holds of the areas in every run, and makes the next step go as planned. -/
structure Kept (s : World) : Prop where
  sound : Sound s.mem
  living : s.mem.living s.current = true
  unshared : ∀ p, s.loading p = true → Unshared s.mem p

section
variable {s s' : World} {w : Mem} {a : MemAct} {r : Request} {p b : Nat}

theorem Fresh.kept (h : Fresh s) : s.Kept where
  sound :=
    { lists :=
        { owner := fun ha => by simp [h.empty] at ha
          living := fun ha => by simp [h.empty] at ha
          nodup := fun q => by simp [h.empty]
          fresh := fun ha => by simp [h.empty] at ha
          rings := fun a ha => by simp [Live, h.empty] at ha
          copies := fun ha => by simp [Live, h.empty] at ha
          lone := fun ha => by simp [Live, h.empty] at ha
          wf := fun ha => by simp [h.empty] at ha }
      texts := fun q => ⟨fun ha => by simp [h.empty] at ha, fun ha => by simp [h.empty] at ha⟩ }
  living := h.living
  unshared p _ a ha := by simp [h.empty] at ha

theorem writable_request {f : MmFlags} (hw : f.write = true) (hro : f.readOnly = true) : False := by
  simp [MmFlags.readOnly, hw] at hro

theorem sbrkRequest_flags {incr : Int} (h : s.sbrkRequest incr = some r) : r.flags = heapFlags := by
  unfold sbrkRequest at h
  split at h
  · cases h
  · split at h
    · split at h
      · cases h
      · exact Option.some.inj h ▸ rfl
    · exact Option.some.inj h ▸ rfl

theorem Kept.request_shared (h : s.Kept) (hs : s.step a = some s') (hreq : s.request a = some r)
    (hro : r.flags.readOnly = true) :
    (∀ b ∈ s.mem.mem s.current, (s.mem.area b).flags.readOnly = true →
      (s.mem.area b).flags.shared = r.flags.shared) ∧
    (s.loading s.current = true → r.flags.shared = false) := by
  cases a with
  | loadSegment ph =>
    obtain rfl := Option.some.inj hreq
    exact ⟨h.unshared _ (loadSegment_loading hs), fun _ => rfl⟩
  | newStack =>
    obtain rfl := Option.some.inj hreq
    exact (writable_request rfl hro).elim
  | sbrk incr => exact (writable_request (sbrkRequest_flags hreq ▸ rfl) hro).elim
  | vidmem =>
    obtain rfl := Option.some.inj hreq
    exact (writable_request rfl hro).elim
  | fault f =>
    obtain ⟨above, habove, rfl⟩ := Option.map_eq_some_iff.mp hreq
    have hmem := growing_mem habove
    exact ⟨fun b hb hrob => (h.sound.texts _).together hb hmem hrob hro,
      fun hload => h.unshared _ hload above hmem hro⟩
  | schedule | removeAll | beginLoad | endLoad | fork | exit => cases hreq

theorem Kept.reworks (h : s.Kept) (hr : Reworks s.mem s'.mem) (hload : ∀ p, s'.loading p = true →
    s.loading p = true ∨ s'.mem.mem p = []) : s'.Kept where
  sound := h.sound.reworks hr
  living := by
    rw [current, Mem.living, hr.frame.nextPid, hr.frame.current]
    exact h.living
  unshared p hp := by
    rcases hload p hp with hp | hempty
    · exact (h.unshared p hp).reworks hr
    · intro a ha
      simp [hempty] at ha

theorem Kept.enters (h : s.Kept) (hs : s.step a = some s') (hreq : s.request a = some r)
    (hnew : newArea s.mem s.current r.start r.stop r.flags r.type = .ok (b, w)) (hl : Lists w) :
    Kept { s with mem := w } where
  sound := h.sound.newArea hl (fun hro => (h.request_shared hs hreq hro).1) hnew
  living := by
    have hframe := (newArea_frame hnew).1
    rw [current, Mem.living, hframe.nextPid, hframe.current]
    exact h.living
  unshared p hp := by
    refine (h.unshared p hp).newArea h.sound.lists.toLinked ?_ hnew
    rintro rfl hro
    exact (h.request_shared hs hreq hro).2 hp

theorem Kept.fork (h : s.Kept) {child : Nat} (hrun : s.loading s.current = false)
    (hfork : forkProcess s.mem = .ok (child, s'.mem))
    (hload : ∀ p, s'.loading p = true → s.loading p = true ∧ p ≠ s.mem.nextPid) : s'.Kept := by
  obtain ⟨hsound, hsame⟩ := h.sound.fork h.living hfork
  refine ⟨hsound, ?_, fun p hp => ?_⟩
  · have hlive := living_iff.mp h.living
    rw [current, hsame.current, living_iff, hsame.nextPid]
    exact ⟨hlive.1, hlive.2.trans (Nat.lt_succ_self _)⟩
  · obtain ⟨hp, hpc⟩ := hload p hp
    have hpcur : p ≠ s.mem.current := by
      rintro rfl
      rw [current, hp] at hrun
      cases hrun
    intro b hb hro
    have hb : b ∈ s.mem.mem p := hsame.mem hpcur hpc ▸ hb
    rw [hsame.area hpcur hb] at hro ⊢
    exact h.unshared p hp b hb hro

theorem Kept.step (h : s.Kept) (hs : s.step a = some s')
    (hlists : ∀ {r b w}, s.request a = some r →
      newArea s.mem s.current r.start r.stop r.flags r.type = .ok (b, w) → Lists w) : s'.Kept := by
  obtain ⟨hmoves, hload, -, -⟩ := step_moves hs
  have hold : a ≠ .removeAll → ∀ p, s'.loading p = true → s.loading p = true ∨ s'.mem.mem p = [] :=
    fun hne p hp => .inl ((hload p hp).resolve_right fun h => hne h.1)
  have hrefl := Reworks.refl h.sound.lists
  generalize hw' : s'.mem = w' at hmoves
  cases hmoves with
  | schedule hlive _ =>
    have hsound : Sound s'.mem := by
      rw [hw']
      exact h.sound.congr (fun _ => rfl) rfl rfl rfl fun _ h => h
    refine ⟨hsound, ?_, fun p hp => ?_⟩
    · rw [current, hw']
      exact hlive
    · rw [hw']
      exact h.unshared p ((hload p hp).resolve_right fun h => nomatch h.1)
  | removeAll hremove =>
    obtain ⟨hr, hempty⟩ := procmmRemoveall_reworks h.sound.lists hremove
    refine h.reworks (hw' ▸ hr) fun p hp => (hload p hp).imp_right fun hp => ?_
    rw [hw', hp.2]
    exact hempty
  | nothing _ hne => exact h.reworks (hw' ▸ hrefl) (hold hne)
  | enters hreq hnew =>
    have hl := hlists hreq hnew
    refine (h.enters hs hreq hnew hl).reworks ?_ (hold ?_)
    · rw [hw']
      exact .refl hl
    · rintro rfl
      cases hreq
  | @vidmem b w m hnew _ =>
    have hreq : s.request .vidmem = some ⟨videoMemory, 0xB9000, vidmemFlags, mmTypeData⟩ := rfl
    have hl := hlists hreq hnew
    exact (h.enters hs hreq hnew hl).reworks (hw' ▸ (hl.recuts_machine m).toReworks) (hold nofun)
  | fault hinc hfault =>
    exact h.reworks (hw' ▸ (insideFault_recuts h.sound.lists hinc hfault).toReworks) (hold nofun)
  | fork hfork =>
    refine h.fork (fork_running hs) (hw' ▸ hfork) fun p hp =>
      ⟨(hload p hp).resolve_right (fun h => nomatch h.1), ?_⟩
    rintro rfl
    rw [fork_child hs] at hp
    cases hp
  | exit => exact h.reworks (hw' ▸ (procmmExit_reworks h.sound.lists _).1) (hold nofun)

end

-- ---------------------------------------------------------------------------
-- Room for every area
-- ---------------------------------------------------------------------------

section
variable {s s' : World} {w : Mem} {a : MemAct} {r : Request} {b : Nat}

theorem Kept.enters_ordered (h : s.Kept) (ho : ∀ q, Ordered s.mem q) (hroom : s.FindsRoom a)
    (hreq : s.request a = some r) (hnew : newArea s.mem s.current r.start r.stop r.flags r.type = .ok (b, w)) :
    Lists w ∧ ∀ q, Ordered w q := by
  have hl := h.sound.lists
  have hscan := (newArea_ok hnew).1
  obtain ⟨-, he⟩ := hl.toLinked.newArea_entered hnew
  have hstart := pageMask_pageMask r.start
  have hroom := hroom r hreq
  refine ⟨he.lists hl (hl.toLinked.newArea h.living hnew) (ho _) hscan hstart pageMask_areaStop hroom,
    fun q => ?_⟩
  by_cases hq : q = s.current
  · subst hq
    exact he.ordered hl (ho _) hscan hstart hroom
  · exact he.ordered_other hl.toLinked hq (ho q)

theorem Kept.step_ordered (h : s.Kept) (ho : ∀ q, Ordered s.mem q) (hroom : s.FindsRoom a)
    (hs : s.step a = some s') (q : Nat) : Ordered s'.mem q := by
  have hmoves := (step_moves hs).1
  generalize s'.mem = w' at hmoves
  cases hmoves with
  | schedule => exact ho q
  | removeAll hremove => exact (procmmRemoveall_reworks h.sound.lists hremove).1.ordered (ho q)
  | nothing => exact ho q
  | enters hreq hnew => exact (h.enters_ordered ho hroom hreq hnew).2 q
  | vidmem hnew _ =>
    have hreq : s.request .vidmem = some ⟨videoMemory, 0xB9000, vidmemFlags, mmTypeData⟩ := rfl
    exact (h.enters_ordered ho hroom hreq hnew).2 q
  | fault hinc hfault => exact (insideFault_recuts h.sound.lists hinc hfault).ordered (ho q)
  | fork hfork =>
    obtain ⟨rfl, w1, m, pd, -, -, hi, rfl⟩ :=
      forkProcess_inherits h.sound.lists (h.sound.texts _) h.living hfork
    have hstart : ∀ q, Ordered (forkStart s.mem) q := fun q =>
      (ho q).congr (forkStart_lists h.sound.lists.toLinked q) fun _ _ => ⟨rfl, rfl⟩
    have hw1 := hi.ordered_all (h.sound.lists.forked (h.sound.texts _) h.living) hstart q
    exact hw1.congr (setPd_lists q) fun _ _ => ⟨rfl, rfl⟩
  | exit => exact (procmmExit_reworks h.sound.lists _).1.ordered (ho q)

theorem Kept.inOrder (h : s.Kept) (ho : ∀ q, Ordered s.mem q) : s.InOrder where
  aligned p a ha :=
    have hal := h.sound.lists.wf ha
    ⟨hal.start, hal.stop, hal.le⟩
  disjoint p x a b ha hb := by
    by_contra hne
    have hx := MemArea.covers_iff.mp ha.2
    have hy := MemArea.covers_iff.mp hb.2
    rcases (ho p).apart ha.1 hb.1 hne with hle | hle <;> omega
  sorted p := List.Pairwise.imp_of_mem (fun ha _ hle => (h.sound.lists.wf ha).le.trans hle) (ho p)

theorem reach_kept (h : Reach World.step FindsRoom Fresh s) : s.Kept ∧ ∀ q, Ordered s.mem q := by
  refine h.invariant (I := fun s => s.Kept ∧ ∀ q, Ordered s.mem q) (fun _ h0 => ⟨h0.kept, fun q => ?_⟩) ?_
  · rw [Ordered, h0.empty q]
    exact List.Pairwise.nil
  · rintro s a s' ⟨hk, ho⟩ hroom hs
    exact ⟨hk.step hs fun hreq hnew => (hk.enters_ordered ho hroom hreq hnew).1,
      hk.step_ordered ho hroom hs⟩

/-- In a run in which every call of `new_area` finds room, the areas of all processes are in
order in every state. -/
theorem areas_inOrder (h : Reach World.step FindsRoom Fresh s) : s.InOrder :=
  (reach_kept h).1.inOrder (reach_kept h).2

end

-- ---------------------------------------------------------------------------
-- One program
-- ---------------------------------------------------------------------------

instance (w : Mem) (p start stop : Nat) (flags : MmFlags) (type : Nat) :
    Decidable (Room w p start stop flags type) :=
  match h : leftOf w p start flags type with
  | some a => decidable_of_iff ((w.area a).start ≤ stop ∧
      ∀ b ∈ w.mem p, [a, b].Sublist (w.mem p) → stop ≤ (w.area b).start) (by simp [Room, h])
  | none => decidable_of_iff (start ≤ stop ∧ ∀ b ∈ w.mem p, start < (w.area b).start → (w.area b).start ≤ stop →
      rightOf w p start stop flags type = some b) (by simp [Room, h])

instance (s : World) (a : MemAct) : Decidable (s.FindsRoom a) :=
  match h : s.request a with
  | some r => decidable_of_iff (Room s.mem s.current (pageMask r.start) (areaStop r.stop) r.flags r.type)
      (by simp [FindsRoom, h])
  | none => .isTrue fun _ hr => by simp [h] at hr

def firstProcess : World where
  mem :=
    { machine := { cr3 := 1, kernelPd := 0, vmmRunning := true, table := fun _ _ => Entry.zero
                   byte := fun _ _ => 0, free := List.range' 2 1000 }
      proc := fun p => ⟨if p = 1 then 1 else 0, 0, []⟩
      nextPid := 2
      current := 1
      area := fun _ => ⟨0, 0, heapFlags, mmTypeData, 0⟩
      nextArea := 0
      copies := ⟨id, id⟩ }
  codeEnd _ := 0
  dataEnd _ := 0
  loading _ := false
  exited _ := false

theorem firstProcess_fresh : firstProcess.Fresh := ⟨fun _ => rfl, rfl⟩

/-- A program of one page at 0x1000. -/
def smallElf : ElfHeader := ⟨elfTypeExecutable, [⟨elfPtLoad, 0x1000, 0x1000, 6⟩]⟩

def smallRun : List MemAct := execve smallElf ++
  [.sbrk 0x1800, .fault ⟨0xBFFFEFFC, false, true⟩, .fault ⟨0xBFFFEFFC, false, true⟩, .sbrk (-0x1800)]

theorem areas_inOrder_smallRun : ∃ s, exec World.step firstProcess smallRun = some s ∧ s.InOrder := by
  have hrun : (exec World.step firstProcess smallRun).isSome = true := by decide +kernel
  obtain ⟨s, hs⟩ := Option.isSome_iff_exists.mp hrun
  have hok : Along World.step FindsRoom firstProcess smallRun := by decide +kernel
  exact ⟨s, hs, areas_inOrder ((Reach.start firstProcess_fresh).along hok hs)⟩

/-- `sbrk` takes back more than there is: the new area, which ends before it starts, is joined
to the one below. -/
theorem sbrk_below_start : ∃ s, Reach World.step Any Fresh s ∧ ¬ s.InOrder := by
  obtain ⟨s, hs⟩ : ∃ s, exec World.step firstProcess (execve smallElf ++ [.sbrk (-0x2000)]) = some s :=
    Option.isSome_iff_exists.mp (by decide +kernel)
  have hseen : (exec World.step firstProcess (execve smallElf ++ [.sbrk (-0x2000)])).map
      (fun s => (s.mem.mem 1, (s.mem.area 0).start, (s.mem.area 0).stop)) = some ([0, 1], 0x1000, 0) := by
    decide +kernel
  rw [hs, Option.map_some, Option.some_inj, Prod.mk.injEq, Prod.mk.injEq] at hseen
  obtain ⟨hmem, hstart, hstop⟩ := hseen
  refine ⟨s, (Reach.start firstProcess_fresh).exec hs, fun h => ?_⟩
  have hle := (h.aligned 1 0 (by simp [hmem])).2.2
  rw [hstart, hstop] at hle
  exact absurd hle (by decide)

end World

end Os5
