import Os5.Mem.Remove

/-!
# Copy on write against copying at once

The abstract machine copies all of a process's memory when it forks. The kernel
shares frames instead; in every run its processes read the same bytes.
-/

namespace Os5

open Machine Circular Outcome

inductive Act
  | fork
  | write (x : Nat) (b : Byte)
  | exit (p : Nat)
  | removeall (p : Nat)

structure Op where
  pid : Nat
  act : Act

-- ---------------------------------------------------------------------------
-- The kernel
-- ---------------------------------------------------------------------------

/-- Removals may be of the areas of any process; a program stores only inside
its own areas. -/
def Mem.step (w : Mem) (op : Op) : Except Stop Mem :=
  if ¬ w.living op.pid then .error .refused
  else
    let w := switchProcess w op.pid
    match op.act with
    | .fork => (forkProcess w).map (·.2)
    | .write x b =>
      if (findIncluding w op.pid x).isSome then userWrite x b maxRestarts w else .error .refused
    | .exit p => if w.living p then .ok (procmmExit w p) else .error .refused
    | .removeall p => if w.living p then procmmRemoveall w p else .error .refused

def Mem.run (w : Mem) (ops : List Op) : Except Stop Mem := ops.foldlM Mem.step w

def Mem.reads (w : Mem) (p x : Nat) : Option Byte :=
  (findIncluding w p x).bind fun _ => w.machine.userRead (w.pd p) x

-- ---------------------------------------------------------------------------
-- The abstract machine
-- ---------------------------------------------------------------------------

structure Eager where
  mem : Nat → Nat → Option Cell
  nextPid : Nat

namespace Eager

def living (e : Eager) (p : Nat) : Bool := 0 < p && p < e.nextPid

def step (e : Eager) (op : Op) : Option Eager :=
  if ¬ e.living op.pid then none
  else
    match op.act with
    | .fork => some ⟨afterFork e.mem op.pid e.nextPid, e.nextPid + 1⟩
    | .write x b =>
      match e.mem op.pid x with
      | none => none
      | some c => some { e with mem := Function.update e.mem op.pid
                                  (Function.update (e.mem op.pid) x (some { c with value := b })) }
    | .exit p | .removeall p =>
      if e.living p then some { e with mem := Function.update e.mem p fun _ => none } else none

def run (e : Eager) (ops : List Op) : Option Eager := ops.foldlM step e

def reads (e : Eager) (p x : Nat) : Option Byte := (e.mem p x).map Cell.value

end Eager

/-- The memory of all processes as a program in them reads it. -/
def Mem.eager (w : Mem) : Eager where
  mem p x := (findIncluding w p x).bind fun a =>
    (w.machine.userRead (w.pd p) x).map (Cell.mk (w.area a).flags.noshare)
  nextPid := w.nextPid

/-- Processes to start from: disjoint aligned areas, writable, never shared, and
every page of them mapped to a frame of its own. -/
structure Start (w : Mem) : Prop where
  pos : 0 < w.nextPid
  owner : ∀ {p a}, a ∈ w.mem p → (w.area a).owner = p
  living : ∀ {p a}, a ∈ w.mem p → w.living p = true
  nodup : ∀ p, (w.mem p).Nodup
  fresh : ∀ {p a}, a ∈ w.mem p → a < w.nextArea
  aligned : ∀ {p a}, a ∈ w.mem p → (w.area a).Wf
  disjoint : ∀ {p a b x}, At w p x a → At w p x b → a = b
  writable : ∀ {p a}, a ∈ w.mem p → (w.area a).flags.write = true ∧ (w.area a).flags.cow = false
  alone : ∀ {p a}, a ∈ w.mem p → w.copies.next a = a ∧ w.copies.prev a = a
  mapped : ∀ {p x a}, At w p x a → w.machine.userWritable (w.pd p) x = true
  spaces : Spaces w.machine (Dirs w w.pd)
  loaded : Dirs w w.pd w.machine.cr3
  ownDirs : OwnDirs w w.pd
  ownFrames : ∀ {p q x y a b}, At w p x a → At w q y b → w.frame w.pd p x = w.frame w.pd q y →
    p = q ∧ pageMask x = pageMask y
  inUse : ∀ {p x a}, At w p x a → w.frame w.pd p x ∉ w.machine.free

section
variable {w w' : Mem} {e : Eager} {p q x a : Nat} {img : Nat → Nat → Option Cell}

theorem Start.live (h : Start w) (ha : a ∈ w.mem p) : Live w a := by
  rwa [Live, h.owner ha]

theorem Start.ring (h : Start w) (ha : Live w a) : Ring w.copies a [] := ring_nil.mpr (h.alone ha)

theorem Start.layout (h : Start w) : Layout w where
  owner := h.owner
  living := h.living
  nodup := h.nodup
  fresh := h.fresh
  wf := h.aligned
  apart := h.disjoint
  rings a ha := ⟨[], h.ring ha, by simp⟩
  range ha hs := by
    obtain rfl : _ = _ := by simpa using (h.ring ha).sameRing.mp hs
    exact ⟨rfl, rfl⟩
  cow ha hs hne := by
    obtain rfl : _ = _ := by simpa using (h.ring ha).sameRing.mp hs
    exact absurd rfl hne
  flags ha := by
    obtain ⟨h1, h2⟩ := h.writable ha
    rw [h1, h2]
    rfl

theorem userWritable_iff {m : Machine} {d : Frame} : m.userWritable d x = true ↔
    (m.pde d x).toPageFlags = ⟨true, true, true⟩ ∧ (m.pte d x).toPageFlags = ⟨true, true, true⟩ := by
  rcases hd : (m.pde d x).toPageFlags with ⟨p1, w1, u1⟩
  rcases he : (m.pte d x).toPageFlags with ⟨p2, w2, u2⟩
  simp only [Machine.userWritable, hd, he, Bool.and_eq_true, PageFlags.mk.injEq]
  tauto

theorem Backed.userRead {dir : Nat → Frame} (hb : Backed w dir) (h : At w p x a) :
    w.machine.userRead (dir p) x = some (w.machine.byte (w.frame dir p x) (pageFlagMask x)) := by
  have h1 := hb.pde h
  have h2 := hb.pte h
  simp only [Machine.userRead, h1, h2, Bool.and_self, if_true]
  rfl

theorem Start.backed (h : Start w) : Backed w w.pd where
  spaces := h.spaces
  loaded := h.loaded
  pde ha := (userWritable_iff.mp (h.mapped ha)).1
  pte ha := by
    rw [(h.writable ha.1).1]
    exact (userWritable_iff.mp (h.mapped ha)).2
  shared ha hb heq := by
    obtain ⟨rfl, hpage⟩ := h.ownFrames ha hb heq
    obtain rfl := h.disjoint ha (h.layout.at_page hpage.symm hb)
    exact ⟨hpage, h.layout.rings.self (h.live ha.1)⟩
  same ha hb hs := by
    obtain rfl : _ = _ := by simpa using (h.ring (h.live ha.1)).sameRing.mp hs
    rw [h.layout.at_eq ha hb]
  notFree := h.inUse

theorem Start.inv (h : Start w) : Inv w w.eager.mem where
  layout := h.layout
  backed := h.backed
  agrees ha := by
    simp only [Mem.eager, (findIncluding_eq_some h.layout).mpr ha, Option.bind_some,
      h.backed.userRead ha]
    rfl
  absent hx := by simp [Mem.eager, findIncluding_eq_none.mpr hx]
  ownDirs := h.ownDirs
  pos := h.pos

theorem Inv.reads (h : Inv w img) (p x : Nat) : w.reads p x = (img p x).map Cell.value := by
  unfold Mem.reads
  cases hf : findIncluding w p x with
  | none =>
    rw [h.absent (findIncluding_eq_none.mp hf)]
    rfl
  | some a =>
    have ha := (findIncluding_eq_some h.layout).mp hf
    rw [Option.bind_some, h.backed.userRead ha, h.agrees ha]
    rfl

-- ---------------------------------------------------------------------------
-- One step
-- ---------------------------------------------------------------------------

theorem Inv.switchProcess (h : Inv w img) (hp : w.living p = true) :
    Inv (switchProcess w p) img ∧ Running (switchProcess w p) p := by
  refine ⟨⟨h.layout.congr (fun _ => rfl) rfl rfl rfl fun _ hq => hq, ?_, h.agrees, h.absent, h.ownDirs,
    h.pos⟩, rfl, hp, rfl⟩
  have hb := h.backed
  exact ⟨hb.spaces.of_tables rfl rfl, ⟨p, hp, rfl⟩, hb.pde, hb.pte, hb.shared, hb.same, hb.notFree⟩

theorem userWrite_ready (h : Inv w img) (hrun : Running w p) (ha : At w p x a)
    (hcow : (w.area a).flags.cow = false) (b : Byte) (n : Nat) :
    ∃ w', userWrite x b (n + 1) w = .ok w' ∧ Inv w' (Function.update img p (Function.update (img p) x
        (some ⟨(w.area a).flags.noshare, b⟩))) ∧ w'.nextPid = w.nextPid ∧
      w'.machine.free = w.machine.free ∧ ∀ q, Ordered w q → Ordered w' q := by
  have hw : w.machine.userWritable w.machine.cr3 x = true := by
    rw [hrun.cr3]
    refine userWritable_iff.mpr ⟨h.backed.pde ha, ?_⟩
    rw [h.backed.pte ha, h.layout.flags ha.1, hcow]
    rfl
  refine ⟨{ w with machine := w.machine.store w.machine.cr3 x b }, by rw [userWrite, if_pos hw], ?_, rfl, rfl,
    fun _ hq => hq⟩
  rw [hrun.cr3]
  refine ⟨h.layout.congr (fun _ => rfl) rfl rfl rfl fun _ hq => hq, h.backed.store _ _ _,
    Agrees.store h.agrees h.backed h.layout ha hcow b, ?_, h.ownDirs, h.pos⟩
  intro q y hy
  have hne : ¬ (q = p ∧ y = x) := by
    rintro ⟨rfl, rfl⟩
    exact hy a ha
  have habs := h.absent (w := w) hy
  by_cases hq : q = p
  · subst hq
    rw [Function.update_self, Function.update_of_ne fun e => hne ⟨rfl, e⟩]
    exact habs
  · rwa [Function.update_of_ne hq]

theorem userWrite_spec (h : Inv w img) (hrun : Running w p) (ha : At w p x a) (b : Byte) (n : Nat) :
    Yields (userWrite x b (n + 2) w) (fun s => s = .outOfMemory ∧ w.machine.free = []) fun w' =>
      Inv w' (Function.update img p (Function.update (img p) x
        (some ⟨(w.area a).flags.noshare, b⟩))) ∧ w'.nextPid = w.nextPid ∧
      w.machine.free.length ≤ w'.machine.free.length + 1 ∧ ∀ q, Ordered w q → Ordered w' q := by
  cases hcow : (w.area a).flags.cow with
  | false =>
    obtain ⟨w', hw', h1, h2, h3, h4⟩ := userWrite_ready h hrun ha hcow b (n + 1)
    rw [hw', yields_ok]
    exact ⟨h1, h2, h3 ▸ Nat.le_succ _, h4⟩
  | true =>
    have hpt := h.backed.pte ha
    rw [h.layout.flags ha.1, hcow] at hpt
    have hnw : w.machine.userWritable w.machine.cr3 x = false := by
      rw [← Bool.not_eq_true, hrun.cr3, userWritable_iff, hpt]
      simp
    have hmapped : w.machine.mapped w.machine.cr3 x = true := by
      rw [hrun.cr3, Machine.mapped, h.backed.pde_present ha, h.backed.pte_present ha]
      rfl
    rw [userWrite]
    simp only [hnw, hmapped, Bool.false_eq_true, if_false]
    refine (handleCow_spec h hrun ha hcow).bind ?_
    rintro ⟨ok, w1⟩ ⟨h1, h2, h3, h4, h5, h6, a1, ha1, hc1⟩
    simp only at h1 h2 h3 h4 h5 h6 ha1 hc1
    obtain ⟨w', hw', g1, g2, g3, g4⟩ := userWrite_ready h2 h3 ha1 hc1 b n
    simp only [h1, if_true]
    rw [hw', yields_ok]
    -- the page has kept its flag across the split
    have hns : (w1.area a1).flags.noshare = (w.area a).flags.noshare := by
      have e1 := h.agrees ha
      rw [h2.agrees ha1] at e1
      exact congrArg Cell.noshare (Option.some.inj e1)
    rw [hns] at g1
    exact ⟨g1, g2.trans h4, by rw [g3]; exact h5, fun q hq => g4 q (h6 q hq)⟩

/-- Why a step of the kernel may end without a next state. -/
def StepStop (w : Mem) (e : Eager) (op : Op) (s : Stop) : Prop :=
  s = .outOfMemory ∧ w.machine.free.length < 769 ∨ s = .hang ∧ (¬ ∀ p, Ordered w p) ∨
    s = .refused ∧ e.step op = none

/-- The kernel and the abstract machine agree. -/
structure Simulates (w : Mem) (e : Eager) : Prop where
  inv : Inv w e.mem
  nextPid : e.nextPid = w.nextPid

theorem step_spec (h : Simulates w e) (op : Op) :
    Yields (w.step op) (StepStop w e op) fun w' =>
      (∃ e', e.step op = some e' ∧ Simulates w' e') ∧
        w.machine.free.length ≤ w'.machine.free.length + 769 ∧
        ((∀ p, Ordered w p) → ∀ p, Ordered w' p) := by
  have hliv : ∀ p, e.living p = w.living p := by
    intro p
    rw [Eager.living, Mem.living, h.nextPid]
  obtain ⟨p, act⟩ := op
  unfold Mem.step Eager.step StepStop
  simp only [Eager.step, hliv]
  by_cases hp : w.living p = true
  swap
  · simp [hp]
  obtain ⟨hi, hrun⟩ := h.inv.switchProcess hp
  have hsl : ∀ q, (switchProcess w p).living q = w.living q := fun _ => rfl
  simp only [hp, not_true_eq_false, if_false, hsl]
  cases act with
  | fork =>
    have hfork := forkProcess_spec hi hrun
    cases hres : forkProcess (switchProcess w p) with
    | error s =>
      rw [hres] at hfork
      rcases hfork with ⟨rfl, hlen⟩ | ⟨rfl, ho⟩
      · exact .inl ⟨rfl, hlen⟩
      · exact .inr (.inl ⟨rfl, fun hall => ho (hall p)⟩)
    | ok r =>
      rw [hres] at hfork
      obtain ⟨h1, h2, -, h4, h5, h6, -⟩ := hfork
      refine ⟨⟨_, rfl, ?_, ?_⟩, h5, h6⟩
      · rw [h1] at h2
        rw [h.nextPid]
        exact h2
      · show e.nextPid + 1 = r.2.nextPid
        rw [h4, h.nextPid]
        rfl
  | write x b =>
    cases hf : findIncluding (switchProcess w p) p x with
    | none =>
      have habs := hi.absent (findIncluding_eq_none.mp hf)
      simp [hf, habs]
    | some a =>
      have ha := (findIncluding_eq_some hi.layout).mp hf
      have hagree := hi.agrees ha
      simp only [hf, Option.isSome_some, if_true, hagree]
      refine (userWrite_spec hi hrun ha b 2).mono ?_ ?_
      · rintro w' ⟨h1, h2, h3, h4⟩
        refine ⟨⟨_, rfl, h1, ?_⟩, ?_, fun ho q => h4 q (ho q)⟩
        · show e.nextPid = w'.nextPid
          rw [h2, h.nextPid]
          rfl
        · have : w.machine.free.length ≤ w'.machine.free.length + 1 := h3
          omega
      · rintro s ⟨rfl, hfree⟩
        refine .inl ⟨rfl, ?_⟩
        have : w.machine.free = [] := hfree
        simp [this]
  | exit q =>
    by_cases hq : w.living q = true
    · simp only [hq, if_true, yields_ok]
      have hd := procmmExit_spec hi q
      refine ⟨⟨_, rfl, hd.inv hi, ?_⟩, ?_, fun ho => hd.ordered ho⟩
      · show e.nextPid = (procmmExit (switchProcess w p) q).nextPid
        rw [hd.nextPid, h.nextPid]
        rfl
      · rw [hd.free]
        exact Nat.le_add_right _ _
    · simp [hq]
  | removeall q =>
    by_cases hq : w.living q = true
    · simp only [hq, if_true]
      obtain ⟨w', hw', hd⟩ := procmmRemoveall_spec hi q
      rw [hw', yields_ok]
      refine ⟨⟨_, rfl, hd.inv hi, ?_⟩, ?_, fun ho => hd.ordered ho⟩
      · show e.nextPid = w'.nextPid
        rw [hd.nextPid, h.nextPid]
        rfl
      · rw [hd.free]
        exact Nat.le_add_right _ _
    · simp [hq]

-- ---------------------------------------------------------------------------
-- Whole runs
-- ---------------------------------------------------------------------------

/-- A run may end early: out of frames, in the collision loop of `new_area` if some
list was not in the order of the addresses, or at an action that cannot be carried out. -/
def RunStop (w : Mem) (e : Eager) (ops : List Op) (s : Stop) : Prop :=
  s = .outOfMemory ∧ w.machine.free.length < 769 * ops.length ∨ s = .hang ∧ (¬ ∀ p, Ordered w p) ∨
    s = .refused ∧ e.run ops = none

theorem run_spec (h : Simulates w e) (ops : List Op) :
    Yields (w.run ops) (RunStop w e ops) fun w' => ∃ e', e.run ops = some e' ∧ Simulates w' e' := by
  induction ops generalizing w e with
  | nil => exact ⟨e, rfl, h⟩
  | cons op ops ih =>
    unfold Mem.run
    rw [List.foldlM_cons]
    refine ((step_spec h op).mono (fun _ h => h) ?_).bind ?_
    · rintro s (⟨rfl, hlen⟩ | ⟨rfl, ho⟩ | ⟨rfl, hn⟩)
      · refine .inl ⟨rfl, ?_⟩
        rw [List.length_cons]
        omega
      · exact .inr (.inl ⟨rfl, ho⟩)
      · refine .inr (.inr ⟨rfl, ?_⟩)
        rw [Eager.run, List.foldlM_cons, hn]
        rfl
    · rintro w1 ⟨⟨e1, he1, h1⟩, hlen, hord⟩
      refine (ih h1).mono ?_ ?_
      · rintro w' ⟨e', he', h'⟩
        refine ⟨e', ?_, h'⟩
        rw [Eager.run, List.foldlM_cons, he1]
        exact he'
      · rintro s (⟨rfl, hlen'⟩ | ⟨rfl, ho⟩ | ⟨rfl, hn⟩)
        · refine .inl ⟨rfl, ?_⟩
          rw [List.length_cons]
          omega
        · exact .inr (.inl ⟨rfl, fun hall => ho (hord hall)⟩)
        · refine .inr (.inr ⟨rfl, ?_⟩)
          rw [Eager.run, List.foldlM_cons, he1]
          exact hn

theorem Start.simulates (h : Start w) {ops : List Op} (hw : w.run ops = .ok w') :
    ∃ e, w.eager.run ops = some e ∧ Simulates w' e :=
  (run_spec ⟨h.inv, rfl⟩ ops).of_eq_ok hw

theorem Inv.fork_step (h : Inv w img) (hp : w.living p = true) (hfree : 769 ≤ w.machine.free.length)
    (ho : Ordered w p) : ∃ w', w.step ⟨p, .fork⟩ = .ok w' ∧ Layout w' ∧ w'.nextPid = w.nextPid + 1 ∧
      ∀ {x a}, At w p x a → (w.area a).flags.noshare = false →
        At w' p x a ∧ ∃ b, At w' w.nextPid x b ∧ SameRing w'.copies a b := by
  obtain ⟨hi, hrun⟩ := h.switchProcess hp
  have hfork := forkProcess_spec hi hrun
  cases hres : forkProcess (Os5.switchProcess w p) with
  | error s =>
    rw [hres] at hfork
    rcases hfork with ⟨-, hlen⟩ | ⟨-, hno⟩
    · exact absurd hfree (Nat.not_le_of_lt hlen)
    · exact absurd ho hno
  | ok r =>
    rw [hres] at hfork
    obtain ⟨h1, h2, -, h4, -, -, h7⟩ := hfork
    rw [h1] at h7
    refine ⟨r.2, ?_, h2.layout, h4, fun ha hn => h7 ha hn⟩
    rw [Mem.step, if_neg (by simp [hp])]
    simp only [hres, Except.map]

/-- The processes read what they would read had each fork copied all memory at once. -/
theorem fork_refines_eager_copy (h : Start w) (ops : List Op) :
    (∀ w', w.run ops = .ok w' →
      ∃ e', w.eager.run ops = some e' ∧ ∀ p x, w'.reads p x = e'.reads p x) ∧
    ∀ s, w.run ops = .error s → RunStop w w.eager ops s := by
  refine yields_iff.mp ((run_spec ⟨h.inv, rfl⟩ ops).imp ?_)
  rintro w' ⟨e', he', hs⟩
  exact ⟨e', he', fun p x => hs.inv.reads p x⟩

end

-- ---------------------------------------------------------------------------
-- One process with one page
-- ---------------------------------------------------------------------------

def onePageMachine : Machine where
  cr3 := 1
  kernelPd := 0
  vmmRunning := true
  table f i :=
    if f = 1 ∧ i = 0 then ⟨⟨true, true, true⟩, 2⟩
    else if f = 2 ∧ i = 1 then ⟨⟨true, true, true⟩, 3⟩
    else Entry.zero
  byte _ _ := 0
  free := List.range' 4 1000

def dataFlags : MmFlags := ⟨true, true, false, false, false, false, false, false⟩

def onePage : Mem where
  machine := onePageMachine
  proc p := if p = 1 then ⟨1, 0, [0]⟩ else ⟨0, 0, []⟩
  nextPid := 2
  current := 1
  area _ := ⟨0x1000, 0x2000, dataFlags, 1, 1⟩
  nextArea := 1
  copies := ⟨id, id⟩

section
variable {p x a : Nat}

theorem onePage_mem : a ∈ onePage.mem p ↔ p = 1 ∧ a = 0 := by
  by_cases hp : p = 1 <;> simp [onePage, Mem.mem, hp]

theorem onePage_at : At onePage p x a ↔ p = 1 ∧ a = 0 ∧ 0x1000 ≤ x ∧ x < 0x2000 := by
  unfold At
  rw [onePage_mem, MemArea.covers_iff]
  exact and_assoc

theorem onePage_pd : onePage.pd p = if p = 1 then 1 else 0 := by
  by_cases hp : p = 1 <;> simp [onePage, Mem.pd, hp]

theorem onePage_living : onePage.living p = true ↔ p = 1 := by
  have : onePage.nextPid = 2 := rfl
  simp only [Mem.living, Bool.and_eq_true, decide_eq_true_eq]
  omega

theorem onePage_dirs {f : Frame} : Dirs onePage onePage.pd f ↔ f = 1 := by
  constructor
  · rintro ⟨p, hp, rfl⟩
    rw [onePage_living.mp hp]
    rfl
  · rintro rfl
    exact ⟨1, rfl, rfl⟩

theorem onePage_idx (h : 0x1000 ≤ x ∧ x < 0x2000) : dirIdx x = 0 ∧ tableIdx x = 1 := by
  unfold dirIdx tableIdx
  omega

theorem onePage_entries (h : 0x1000 ≤ x ∧ x < 0x2000) :
    onePage.machine.pde 1 x = ⟨⟨true, true, true⟩, 2⟩ ∧
      onePage.machine.pte 1 x = ⟨⟨true, true, true⟩, 3⟩ := by
  obtain ⟨h1, h2⟩ := onePage_idx h
  simp [Machine.pte, Machine.pde, h1, h2, onePage, onePageMachine]

theorem onePage_present {i : Nat} (h : (onePage.machine.table 1 i).present = true) :
    i = 0 ∧ (onePage.machine.table 1 i).frame = 2 := by
  by_cases hi : i = 0
  · simp [hi, onePage, onePageMachine]
  · simp [hi, onePage, onePageMachine, Entry.zero] at h

theorem onePage_start : Start onePage where
  pos := by decide
  owner h := by
    obtain ⟨rfl, rfl⟩ := onePage_mem.mp h
    rfl
  living h := onePage_living.mpr (onePage_mem.mp h).1
  nodup p := by by_cases hp : p = 1 <;> simp [onePage, Mem.mem, hp]
  fresh h := by
    obtain ⟨-, rfl⟩ := onePage_mem.mp h
    decide
  aligned {p a} _ := by
    show MemArea.Wf ⟨0x1000, 0x2000, dataFlags, 1, 1⟩
    exact ⟨rfl, rfl, by decide, by decide⟩
  disjoint h h' := (onePage_at.mp h).2.1.trans (onePage_at.mp h').2.1.symm
  writable _ := ⟨rfl, rfl⟩
  alone _ := ⟨rfl, rfl⟩
  mapped h := by
    obtain ⟨rfl, -, hx⟩ := onePage_at.mp h
    obtain ⟨h1, h2⟩ := onePage_entries hx
    simp [userWritable_iff, onePage_pd, h1, h2]
  spaces := by
    have hfree : ∀ {f : Nat}, f ∈ onePage.machine.free → 4 ≤ f := fun hf => (List.mem_range'_1.mp hf).1
    refine ⟨?_, ?_, ?_, ?_, ?_, fun h => absurd (hfree h) (by decide), List.nodup_range'⟩
    · intro d hd
      rw [onePage_dirs.mp hd]
      decide
    · intro d e i hd he _ hp
      obtain rfl := onePage_dirs.mp hd
      obtain rfl := onePage_dirs.mp he
      rw [(onePage_present hp).2]
      decide
    · intro d e i j hd he _ _ hp hq _
      obtain rfl := onePage_dirs.mp hd
      obtain rfl := onePage_dirs.mp he
      exact ⟨rfl, (onePage_present hp).1.trans (onePage_present hq).1.symm⟩
    · intro f hf hd
      rw [onePage_dirs.mp hd] at hf
      exact absurd (hfree hf) (by decide)
    · intro f d i hf hd _ hp
      obtain rfl := onePage_dirs.mp hd
      rw [(onePage_present hp).2]
      rintro rfl
      exact absurd (hfree hf) (by decide)
  loaded := onePage_dirs.mpr rfl
  ownDirs hp hq _ := (onePage_living.mp hp).trans (onePage_living.mp hq).symm
  ownFrames h h' _ := by
    obtain ⟨rfl, -, hx⟩ := onePage_at.mp h
    obtain ⟨rfl, -, hy⟩ := onePage_at.mp h'
    refine ⟨rfl, samePage_iff.mpr ?_⟩
    obtain ⟨h1, h2⟩ := onePage_idx hx
    obtain ⟨h3, h4⟩ := onePage_idx hy
    exact ⟨h1.trans h3.symm, h2.trans h4.symm⟩
  inUse h := by
    obtain ⟨rfl, -, hx⟩ := onePage_at.mp h
    rw [Mem.frame, onePage_pd, if_pos rfl, (onePage_entries hx).2]
    intro hf
    exact absurd (List.mem_range'_1.mp hf).1 (by decide)

theorem onePage_ordered (p : Nat) : Ordered onePage p := by
  unfold Ordered
  by_cases hp : p = 1 <;> simp [onePage, Mem.mem, hp]

def forkThenStores : List Op := [⟨1, .fork⟩, ⟨2, .write 0x1234 7⟩, ⟨1, .write 0x1234 8⟩]

theorem fork_refines_eager_copy_onePage :
    (∀ w', onePage.run forkThenStores = .ok w' →
      ∃ e', onePage.eager.run forkThenStores = some e' ∧ ∀ p x, w'.reads p x = e'.reads p x) ∧
    ∀ s, onePage.run forkThenStores = .error s → RunStop onePage onePage.eager forkThenStores s :=
  fork_refines_eager_copy onePage_start forkThenStores

end

end Os5
