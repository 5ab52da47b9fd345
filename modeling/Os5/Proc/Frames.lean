import Os5.Proc.Contexts

/-!
# Frames on kernel stacks

What an interrupt pushes is what the return pops, and nothing in between stores to it: kernel code
stays below the frames of its thread, and other threads have other pages. So a step of the machine
is a step of the processors that each thread has of its own.
-/

namespace Os5.Contexts

open Transition

-- ---------------------------------------------------------------------------
-- Frames in memory
-- ---------------------------------------------------------------------------

/-- The registers of a program, or of kernel code. -/
def Cpu.Ringed (c : Cpu) : Prop :=
  c.cs = segUserCode ∧ c.ss = segUserData ∨ c.cs = segKernelCode ∧ c.ss = segKernelData

/-- The registers that kernel code interrupted are at these addresses of the page of a thread, the
innermost first and those of the program in the `tcb`. -/
inductive Frames (mem : Words) (th : Nat) : Nat → List Nat → List Cpu → Prop
  | nil {lo} : Frames mem th lo [] []
  | cons {lo a as c cs} : lo ≤ a → a ≤ tcb th → (c.user = true → a = tcb th) → c.Ringed →
      popped mem a segKernelData = c.reloaded → Frames mem th (a + 56) as cs → Frames mem th lo (a :: as) (c :: cs)

def WordsAt (mem : Words) : Nat → List Nat → Prop
  | _, [] => True
  | a, v :: vs => mem a = v ∧ WordsAt mem (a + 4) vs

section
variable {mem mem' : Words} {th lo a ss esp x v num err n : Nat} {as vs ws : List Nat} {c : Cpu} {cs : List Cpu}

theorem setWord_self : setWord mem a v a = v := Function.update_self ..

theorem setWord_of_ne (h : x ≠ a) : setWord mem a v x = mem x := Function.update_of_ne h ..

theorem push_outside (hroom : 4 * vs.length ≤ esp) (h : x < esp - 4 * vs.length ∨ esp ≤ x) :
    push mem esp vs x = mem x := by
  induction vs generalizing mem esp with
  | nil => rfl
  | cons v vs ih =>
    rw [List.length_cons] at hroom h
    rw [push, ih (by omega) (by omega)]
    exact setWord_of_ne (by omega)

theorem wordsAt_append : WordsAt mem a (vs ++ ws) ↔ WordsAt mem a vs ∧ WordsAt mem (a + 4 * vs.length) ws := by
  induction vs generalizing a with
  | nil => simp [WordsAt]
  | cons v vs ih =>
    have haddr : a + 4 + 4 * vs.length = a + 4 * (v :: vs).length := by
      rw [List.length_cons]
      omega
    rw [List.cons_append, WordsAt, WordsAt, ih, haddr, and_assoc]

theorem push_wordsAt (hroom : 4 * vs.length ≤ esp) : WordsAt (push mem esp vs) (esp - 4 * vs.length) vs.reverse := by
  induction vs generalizing mem esp with
  | nil => trivial
  | cons v vs ih =>
    rw [List.length_cons] at hroom
    have hstart : esp - 4 * (v :: vs).length = esp - 4 - 4 * vs.length := by
      rw [List.length_cons]
      omega
    have hlast : esp - 4 - 4 * vs.length + 4 * vs.reverse.length = esp - 4 := by
      rw [List.length_reverse]
      omega
    rw [hstart, List.reverse_cons, wordsAt_append, hlast]
    refine ⟨ih (by omega), ?_, trivial⟩
    rw [push, push_outside (by omega) (.inr le_rfl), setWord_self]

theorem Frames.congr (h : Frames mem th lo as cs) (hsame : ∀ x, lo ≤ x → x < tcb th + 64 → mem' x = mem x) :
    Frames mem' th lo as cs := by
  induction h with
  | nil => exact .nil
  | @cons lo a as c cs hlo htop huser hring hpop _ ih =>
    have hpopped : popped mem' a segKernelData = popped mem a segKernelData := by
      have hword : ∀ k, k < 64 → mem' (a + k) = mem (a + k) := fun k hk => hsame _ (by omega) (by omega)
      have h0 := hword 0 (by decide)
      rw [Nat.add_zero] at h0
      simp only [popped, h0, hword 4 (by decide), hword 8 (by decide), hword 12 (by decide), hword 20 (by decide),
        hword 24 (by decide), hword 28 (by decide), hword 32 (by decide), hword 44 (by decide),
        hword 48 (by decide), hword 52 (by decide), hword 56 (by decide), hword 60 (by decide)]
    exact .cons hlo htop huser hring (hpopped.trans hpop) (ih fun x h1 h2 => hsame x (by omega) h2)

theorem Frames.mono {lo' : Nat} (h : Frames mem th lo as cs) (hle : lo' ≤ lo) : Frames mem th lo' as cs := by
  cases h with
  | nil => exact .nil
  | cons hlo htop huser hring hpop hrest => exact .cons (hle.trans hlo) htop huser hring hpop hrest

theorem Frames.above (h : Frames mem th lo as cs) (hlo : tcb th < lo) : as = [] ∧ cs = [] := by
  cases h with
  | nil => exact ⟨rfl, rfl⟩
  | cons hle htop => omega

theorem Cpu.Ringed.kernel (h : c.Ringed) (hc : c.user = false) : c.cs = segKernelCode ∧ c.ss = segKernelData := by
  rcases h with ⟨h1, -⟩ | h
  · rw [Cpu.user, h1] at hc
    cases hc
  · exact h

theorem Cpu.Ringed.program (h : c.Ringed) (hc : c.user = true) : c.cs = segUserCode ∧ c.ss = segUserData := by
  rcases h with h | ⟨h1, -⟩
  · exact h
  · rw [Cpu.user, h1] at hc
    cases hc

theorem frameWords_length : (frameWords c num err n).length = if c.user then 16 else 14 := by
  unfold frameWords
  cases c.user <;> rfl

theorem frameWords_reverse : (frameWords c num err n).reverse =
    [c.ds, c.edi, c.esi, c.ebp, n + 36, c.ebx, c.edx, c.ecx, c.eax, num, if num ∈ withError then err else 0, c.eip, c.cs,
      c.eflags] ++ if c.user then [c.esp, c.ss] else [] := by
  unfold frameWords
  cases c.user <;> rfl

theorem popped_frame (hring : c.Ringed) (ha : c.user = false → a + 56 = c.esp)
    (h : WordsAt mem a (frameWords c num err n).reverse) : popped mem a segKernelData = c.reloaded := by
  rw [frameWords_reverse, wordsAt_append] at h
  obtain ⟨⟨h0, h1, h2, h3, -, h5, h6, h7, h8, -, -, h11, h12, h13, -⟩, hrest⟩ := h
  simp only [Nat.add_assoc, Nat.reduceAdd] at h1 h2 h3 h5 h6 h7 h8 h11 h12 h13
  have hstack : (if c.cs % 4 = 3 then mem (a + 56) else a + 56) = c.esp ∧
      (if c.cs % 4 = 3 then mem (a + 60) else segKernelData) = c.ss := by
    cases hc : c.user with
    | true =>
      rw [if_pos hc] at hrest
      rw [if_pos (of_decide_eq_true hc), if_pos (of_decide_eq_true hc)]
      exact ⟨hrest.1, hrest.2.1⟩
    | false =>
      rw [if_neg (of_decide_eq_false hc), if_neg (of_decide_eq_false hc)]
      exact ⟨ha hc, (hring.kernel hc).2.symm⟩
  simp only [popped, Cpu.reloaded, h0, h1, h2, h3, h5, h6, h7, h8, h11, h12, h13, hstack.1, hstack.2]

theorem threadInfo_of_mem (halign : th % pageSize = 0) (hlo : th ≤ x) (hhi : x < th + pageSize) : threadInfo x = th := by
  unfold threadInfo pageSize at *
  omega

end

-- ---------------------------------------------------------------------------
-- The machine does what it is for
-- ---------------------------------------------------------------------------

/-- What the processor does for the current thread: it runs the program, or kernel code on the stack
of the thread below the frames of what that interrupted. -/
inductive Running (m : Machine) (th : Nat) : List Cpu → Prop
  | program : m.cpu.cs = segUserCode → m.cpu.ss = segUserData → m.esp0 = stackFromTcb (tcb th) → m.calls th = [] →
      Running m th []
  | kernel {saved} : m.cpu.cs = segKernelCode → m.cpu.ss = segKernelData → th ≤ m.cpu.esp → m.cpu.esp ≤ tcb th + 56 →
      Frames m.mem th m.cpu.esp (m.calls th) saved → Running m th saved

/-- The thread goes on where `kernel_thread` says. -/
def Waiting (m : Machine) (th : Nat) (cs : List Cpu) : Prop :=
  Frames m.mem th th (m.mem (kernelThread th) :: m.calls th) cs

/-- The interrupt of a program, or of the idle thread, is not that of `schedule()`. -/
def Called (m : Machine) (th : Nat) : Prop := tcb th ∈ m.calls th → m.mem (tcb th + 36) ≠ intSchedule

structure Holds (w : Processors) (m : Machine) : Prop where
  aligned : ∀ th ∈ m.live, th % pageSize = 0
  threads : ∀ th, th ∈ m.live ↔ w.stack th ≠ []
  running : ∃ saved, w.stack w.current = m.cpu :: saved ∧ Running m w.current saved
  waiting : ∀ th ∈ m.live, th ≠ w.current → Waiting m th (w.stack th)
  called : ∀ th ∈ m.live, Called m th

def Keeps (th : Nat) (mem mem' : Words) : Prop := ∀ x, x < th ∨ th + pageSize ≤ x → mem' x = mem x

section
variable {boot : Nat} {w w' : Processors} {m m' : Machine} {th p lo a x v next func stack : Nat} {as : List Nat} {c : Cpu}
  {cs saved : List Cpu} {mem mem' : Words} {act : Act}

theorem Keeps.setWord (hlo : th ≤ a) (hhi : a < th + pageSize) : Keeps th mem (setWord mem a v) :=
  fun x hx => setWord_of_ne (by omega)

theorem Running.current (h : Running m th saved) (halign : th % pageSize = 0) : m.current = th := by
  cases h with
  | program hcs _ hesp0 _ =>
    have huser : m.cpu.user = true := by
      rw [Cpu.user, hcs]
      rfl
    rw [Machine.current, if_pos huser, hesp0]
    refine threadInfo_of_mem halign ?_ ?_
    · unfold stackFromTcb tcb
      omega
    · unfold stackFromTcb tcb pageSize
      omega
  | kernel hcs _ hlo hhi _ =>
    have huser : m.cpu.user = false := by
      rw [Cpu.user, hcs]
      rfl
    have hesp : (if m.cpu.user then m.esp0 else m.cpu.esp) = m.cpu.esp := by rw [huser, if_neg Bool.false_ne_true]
    rw [Machine.current, hesp]
    unfold tcb at hhi
    refine threadInfo_of_mem halign hlo ?_
    unfold pageSize
    omega

theorem Holds.mem_current (h : Holds w m) : w.current ∈ m.live := by
  obtain ⟨saved, hstack, -⟩ := h.running
  rw [h.threads, hstack]
  exact List.cons_ne_nil _ _

theorem Holds.current (h : Holds w m) : m.current = w.current := by
  obtain ⟨saved, -, hrun⟩ := h.running
  exact hrun.current (h.aligned _ h.mem_current)

theorem pages_apart (hth : th % pageSize = 0) (hp : p % pageSize = 0) (hne : th ≠ p) :
    th + pageSize ≤ p ∨ p + pageSize ≤ th := by
  unfold pageSize at *
  omega

theorem Keeps.other (h : Keeps p mem mem') (hth : th % pageSize = 0) (hp : p % pageSize = 0) (hne : th ≠ p) :
    ∀ x, th ≤ x → x < th + pageSize → mem' x = mem x := by
  intro x h1 h2
  refine h x ?_
  rcases pages_apart hth hp hne with h | h
  · exact .inl (h2.trans_le h)
  · exact .inr (h.trans h1)

theorem Waiting.keeps (h : Waiting m th cs) (hth : th % pageSize = 0) (hp : p % pageSize = 0) (hne : th ≠ p)
    (hmem : Keeps p m.mem m'.mem) (hcalls : m'.calls th = m.calls th) : Waiting m' th cs := by
  have hsame := hmem.other hth hp hne
  have hword : m'.mem (kernelThread th) = m.mem (kernelThread th) := by
    unfold kernelThread tcb at *
    exact hsame _ (by omega) (by unfold pageSize; omega)
  unfold Waiting at *
  rw [hcalls, hword]
  refine h.congr fun x h1 h2 => hsame x h1 ?_
  unfold tcb at h2
  unfold pageSize
  omega

theorem Called.keeps (h : Called m th) (hth : th % pageSize = 0) (hp : p % pageSize = 0) (hne : th ≠ p)
    (hmem : Keeps p m.mem m'.mem) (hcalls : m'.calls th = m.calls th) : Called m' th := by
  intro hin
  rw [hcalls] at hin
  have hword : m'.mem (tcb th + 36) = m.mem (tcb th + 36) := by
    refine hmem.other hth hp hne _ ?_ ?_
    · unfold tcb
      omega
    · unfold tcb pageSize
      omega
  rw [hword]
  exact h hin

theorem Frames.of_mem (h : Frames mem th lo as cs) (ha : a ∈ as) : lo ≤ a ∧ a ≤ tcb th := by
  induction h with
  | nil => cases ha
  | cons hle htop _ _ _ _ ih =>
    rcases List.mem_cons.mp ha with rfl | ha
    · exact ⟨hle, htop⟩
    · obtain ⟨hlow, hhigh⟩ := ih ha
      exact ⟨by omega, hhigh⟩

theorem Running.keeps (h : Running m th saved) (hth : th % pageSize = 0) (hp : p % pageSize = 0) (hne : th ≠ p)
    (hmem : Keeps p m.mem m'.mem) (hcpu : m'.cpu = m.cpu) (hesp0 : m'.esp0 = m.esp0)
    (hcalls : m'.calls th = m.calls th) : Running m' th saved := by
  cases h with
  | program hcs hss hold hnone => exact .program (hcpu ▸ hcs) (hcpu ▸ hss) (hesp0.trans hold) (hcalls.trans hnone)
  | kernel hcs hss hlo hhi hsaved =>
    refine .kernel (hcpu ▸ hcs) (hcpu ▸ hss) (hcpu ▸ hlo) (hcpu ▸ hhi) ?_
    rw [hcpu, hcalls]
    refine hsaved.congr fun x h1 h2 => hmem.other hth hp hne x (hlo.trans h1) ?_
    unfold tcb at h2
    unfold pageSize
    omega

@[simp] theorem Processors.set_current : (w.set th cs).current = w.current := rfl

@[simp] theorem Processors.set_self : (w.set th cs).stack th = cs := Function.update_self ..

theorem Processors.set_of_ne (h : p ≠ th) : (w.set th cs).stack p = w.stack p := Function.update_of_ne h ..

theorem threads_set (h : ∀ t, t ∈ m.live ↔ w.stack t ≠ []) (hth : th ∈ m.live) (hne : cs ≠ []) (t : Nat) :
    t ∈ m.live ↔ (w.set th cs).stack t ≠ [] := by
  by_cases ht : t = th
  · subst ht
    rw [Processors.set_self]
    exact iff_of_true hth hne
  · rw [Processors.set_of_ne ht]
    exact h t

theorem intReturn_cpu : (intReturn m a).cpu = popped m.mem a m.cpu.ss := rfl

theorem popped_program {ss : Nat} (h : mem (a + 48) % 4 = 3) : popped mem a ss = popped mem a segKernelData := by
  simp only [popped, if_pos h]

theorem popped_flags {ss : Nat} : popped (setWord mem (a + 52) v) a ss = { popped mem a ss with eflags := v } := by
  simp [popped, setWord]

theorem idtReturn_frame (hss : m.cpu.ss = segKernelData) (hf : Frames m.mem th lo (a :: m.calls th) (c :: cs))
    (hlo : th ≤ lo) : (idtReturn m a).cpu = c.resumed ∧ Running (idtReturn m a) th cs ∧
      Keeps th m.mem (idtReturn m a).mem ∧ (idtReturn m a).calls = m.calls ∧ (idtReturn m a).live = m.live ∧
      (idtReturn m a).mem (tcb th + 36) = m.mem (tcb th + 36) := by
  obtain _ | ⟨hle, htop, huser, hring, hpop, hrest⟩ := hf
  have hcs : m.mem (a + 48) = c.cs := congrArg Cpu.cs hpop
  cases hc : c.user with
  | true =>
    obtain ⟨hcode, hdata⟩ := hring.program hc
    obtain rfl := huser hc
    have hring3 : m.mem (tcb th + 48) % 4 = 3 := by
      rw [hcs]
      exact of_decide_eq_true hc
    obtain ⟨hcalls, rfl⟩ := hrest.above (by omega)
    rw [idtReturn, if_pos hring3]
    have hcpu : (intReturn { m with
        esp0 := stackFromTcb (tcb th)
        mem := setWord m.mem (tcb th + 52) (m.mem (tcb th + 52) ||| eflInt) } (tcb th)).cpu = c.resumed := by
      have hflags : m.mem (tcb th + 52) = c.eflags := congrArg Cpu.eflags hpop
      rw [intReturn_cpu, popped_flags, popped_program hring3, hpop, hflags, Cpu.resumed, if_pos hc]
    refine ⟨hcpu, .program ?_ ?_ rfl hcalls, ?_, rfl, rfl, ?_⟩
    · rw [hcpu]
      exact hcode
    · rw [hcpu]
      exact hdata
    · refine Keeps.setWord ?_ ?_
      · unfold tcb
        omega
      · unfold tcb pageSize
        omega
    · simp only [intReturn]
      rw [setWord_of_ne (by omega)]
  | false =>
    obtain ⟨hcode, hdata⟩ := hring.kernel hc
    have hring0 : ¬m.mem (a + 48) % 4 = 3 := by
      rw [hcs]
      exact of_decide_eq_false hc
    have hcpu : (intReturn m a).cpu = c.resumed := by
      rw [intReturn_cpu, hss, hpop, Cpu.resumed, hc, if_neg Bool.false_ne_true]
      rfl
    have hesp : c.esp = a + 56 := by
      have hpopped : (popped m.mem a segKernelData).esp = c.reloaded.esp := congrArg Cpu.esp hpop
      exact hpopped.symm.trans (if_neg hring0)
    rw [idtReturn, if_neg hring0]
    refine ⟨hcpu, .kernel ?_ ?_ ?_ ?_ ?_, fun _ _ => rfl, rfl, rfl, rfl⟩
    · rw [hcpu]
      exact hcode
    · rw [hcpu]
      exact hdata
    · rw [hcpu]
      change th ≤ c.esp
      omega
    · rw [hcpu]
      change c.esp ≤ _
      omega
    · rw [hcpu]
      change Frames m.mem th c.esp (m.calls th) cs
      rw [hesp]
      exact hrest

theorem Holds.idtReturn (halign : ∀ t ∈ m.live, t % pageSize = 0) (hthreads : ∀ t, t ∈ m.live ↔ w.stack t ≠ [])
    (hss : m.cpu.ss = segKernelData) (hth : th ∈ m.live) (hf : Frames m.mem th th (a :: m.calls th) (c :: cs))
    (hwait : ∀ t ∈ m.live, t ≠ th → Waiting m t (w.stack t)) (hcalled : ∀ t ∈ m.live, Called m t) :
    Holds ({ w with current := th }.set th (c.resumed :: cs)) (Contexts.idtReturn m a) := by
  obtain ⟨hcpu, hrun, hkeeps, hcalls, hlive, hnum⟩ := idtReturn_frame hss hf le_rfl
  refine ⟨?_, ?_, ⟨cs, ?_, hrun⟩, ?_, ?_⟩
  · rw [hlive]
    exact halign
  · rw [hlive]
    exact threads_set hthreads hth (List.cons_ne_nil _ _)
  · rw [hcpu]
    exact Processors.set_self
  · rw [hlive]
    intro t ht hne
    have hsame : ({ w with current := th }.set th (c.resumed :: cs)).stack t = w.stack t := Processors.set_of_ne hne
    rw [hsame]
    exact (hwait t ht hne).keeps (halign t ht) (halign th hth) hne hkeeps (congrFun hcalls t)
  · rw [hlive]
    intro t ht
    by_cases hne : t = th
    · subst hne
      unfold Called
      rw [hcalls, hnum]
      exact hcalled t ht
    · exact (hcalled t ht).keeps (halign t ht) (halign th hth) hne hkeeps (congrFun hcalls t)

theorem pushed_frame {num err frame top : Nat} (hframe : top = frame + 4 * (frameWords c num err frame).length)
    (hring : c.Ringed) (hesp : c.user = false → frame + 56 = c.esp) :
    popped (push mem top (frameWords c num err frame)) frame segKernelData = c.reloaded ∧
      push mem top (frameWords c num err frame) (frame + 36) = num := by
  have hwords := @push_wordsAt mem top (frameWords c num err frame) (by omega)
  have hstart : top - 4 * (frameWords c num err frame).length = frame := by omega
  rw [hstart] at hwords
  refine ⟨popped_frame hring hesp hwords, ?_⟩
  rw [frameWords_reverse, wordsAt_append] at hwords
  obtain ⟨⟨-, -, -, -, -, -, -, -, -, hnum, -⟩, -⟩ := hwords
  exact hnum

structure Entry (m : Machine) (th : Nat) (saved : List Cpu) (frame top : Nat) : Prop where
  frame_eq : frameOf m.cpu m.esp0 = frame ∧ frameOf m.cpu (stackFromTcb (tcb th)) = frame
  top_eq : (if m.cpu.user then m.esp0 else m.cpu.esp) = top
  size : top = frame + if m.cpu.user then 64 else 56
  ringed : m.cpu.Ringed
  low : th ≤ frame
  high : frame ≤ tcb th
  program : m.cpu.user = true → frame = tcb th
  kernel : m.cpu.user = false → frame + 56 = m.cpu.esp
  above : ∀ mem', (∀ x, top ≤ x → mem' x = m.mem x) → Frames mem' th (frame + 56) (m.calls th) saved

theorem Running.entry (h : Running m th saved) (hroom : m.cpu.user = true ∨ th + 56 ≤ m.cpu.esp) :
    ∃ frame top, Entry m th saved frame top := by
  cases h with
  | program hcs hss hesp0 hnone =>
    have huser : m.cpu.user = true := by
      rw [Cpu.user, hcs]
      rfl
    refine ⟨tcb th, m.esp0, ⟨?_, ?_⟩, if_pos huser, ?_, .inl ⟨hcs, hss⟩, ?_, le_rfl, fun _ => rfl, fun h => ?_, ?_⟩
    · rw [frameOf, if_pos huser, hesp0, stackFromTcb, Nat.add_sub_cancel]
    · rw [frameOf, if_pos huser, stackFromTcb, Nat.add_sub_cancel]
    · rw [if_pos huser]
      exact hesp0
    · unfold tcb
      omega
    · rw [huser] at h
      cases h
    · rw [hnone]
      exact fun _ _ => .nil
  | kernel hcs hss hlo hhi hsaved =>
    have huser : m.cpu.user = false := by
      rw [Cpu.user, hcs]
      rfl
    have hne : ¬m.cpu.user = true := by
      rw [huser]
      exact Bool.false_ne_true
    have hesp := hroom.resolve_left hne
    refine ⟨m.cpu.esp - 56, m.cpu.esp, ⟨if_neg hne, if_neg hne⟩, if_neg hne, ?_, .inr ⟨hcs, hss⟩, by omega, by omega,
      fun h => absurd h hne, fun _ => by omega, fun mem' hsame => ?_⟩
    · rw [if_neg hne]
      omega
    · have hback : m.cpu.esp - 56 + 56 = m.cpu.esp := by omega
      rw [hback]
      exact hsaved.congr fun x hx _ => hsame x hx

theorem intStub_frame {frame top num err handler : Nat} (halign : th % pageSize = 0) (hrun : Running m th saved)
    (h : Entry m th saved frame top) : (intStub m num err handler).cpu = entered m.cpu frame handler ∧
      Running (intStub m num err handler) th (m.cpu :: saved) ∧ Keeps th m.mem (intStub m num err handler).mem ∧
      popped (intStub m num err handler).mem frame segKernelData = m.cpu.reloaded ∧
      (∀ x, top ≤ x → (intStub m num err handler).mem x = m.mem x) ∧
      (intStub m num err handler).calls th = frame :: m.calls th ∧ (intStub m num err handler).mem (frame + 36) = num := by
  have hlength := @frameWords_length num err frame m.cpu
  have hsize : top = frame + 4 * (frameWords m.cpu num err frame).length := by
    rw [hlength, h.size]
    split <;> rfl
  have hcalls : (intStub m num err handler).calls th = frame :: m.calls th := by
    rw [← h.frame_eq.1]
    change Function.update m.calls m.current _ th = _
    rw [hrun.current halign, Function.update_self]
  have hmem : (intStub m num err handler).mem = push m.mem top (frameWords m.cpu num err frame) := by
    rw [intStub, h.frame_eq.1, h.top_eq]
  have hcpu : (intStub m num err handler).cpu = entered m.cpu frame handler := by
    rw [intStub, h.frame_eq.1]
  obtain ⟨hpop, hnum⟩ := @pushed_frame m.cpu m.mem num err frame top hsize h.ringed h.kernel
  have hout : ∀ x, x < frame ∨ top ≤ x → push m.mem top (frameWords m.cpu num err frame) x = m.mem x :=
    fun x hx => push_outside (by omega) (by omega)
  have hlow := h.low
  have hhigh := h.high
  have htop : top ≤ th + pageSize := by
    have hsize := h.size
    unfold tcb at hhigh
    unfold pageSize
    split at hsize <;> omega
  refine ⟨hcpu, .kernel ?_ ?_ ?_ ?_ ?_, fun x hx => ?_, ?_, fun x hx => ?_, hcalls, ?_⟩
  · rw [hcpu]
    rfl
  · rw [hcpu]
    rfl
  · rw [hcpu]
    exact hlow
  · rw [hcpu]
    exact hhigh.trans (Nat.le_add_right _ _)
  · rw [hcpu, hcalls, hmem]
    exact .cons le_rfl hhigh h.program h.ringed hpop (h.above _ fun x hx => hout x (.inr hx))
  · rw [hmem]
    exact hout x (by omega)
  · rw [hmem]
    exact hpop
  · rw [hmem]
    exact hout x (.inr hx)
  · rw [hmem]
    exact hnum

theorem Entry.called {frame top : Nat} (h : Entry m th saved frame top) (hcalled : Called m th) (hin : tcb th ∈ m.calls th)
    (hmem : ∀ x, top ≤ x → mem' x = m.mem x) : mem' (tcb th + 36) ≠ intSchedule := by
  have hle := ((h.above m.mem fun _ _ => rfl).of_mem hin).1
  have huser : ¬m.cpu.user = true := fun huser => by
    have hframe := h.program huser
    omega
  have hsize := h.size
  rw [if_neg huser] at hsize
  rw [hmem _ (by omega)]
  exact hcalled hin

theorem Holds.current_step (h : Holds w m) (hrun : Running m' w.current saved) (hlive : m'.live = m.live)
    (hkeeps : Keeps w.current m.mem m'.mem) (hcalls : ∀ t, t ≠ w.current → m'.calls t = m.calls t)
    (hcalled : Called m' w.current) : Holds (w.set w.current (m'.cpu :: saved)) m' := by
  refine ⟨?_, ?_, ⟨saved, Processors.set_self, hrun⟩, ?_, ?_⟩
  · rw [hlive]
    exact h.aligned
  · rw [hlive]
    exact threads_set h.threads h.mem_current (List.cons_ne_nil _ _)
  · rw [hlive]
    intro t ht (hne : t ≠ w.current)
    rw [Processors.set_of_ne hne]
    exact (h.waiting t ht hne).keeps (h.aligned t ht) (h.aligned _ h.mem_current) hne hkeeps (hcalls t hne)
  · rw [hlive]
    intro t ht
    by_cases hne : t = w.current
    · exact hne ▸ hcalled
    · exact (h.called t ht).keeps (h.aligned t ht) (h.aligned _ h.mem_current) hne hkeeps (hcalls t hne)

theorem Holds.intStub {num err handler : Nat} (h : Holds w m) (hroom : m.cpu.user = true ∨ m.current + 56 ≤ m.cpu.esp)
    (hnum : num ≠ intSchedule ∨ m.calls m.current ≠ []) : ∃ w', w.interrupt handler = some w' ∧ Holds w' (Contexts.intStub m num err handler) := by
  obtain ⟨saved, hstack, hrun⟩ := h.running
  have halign := h.aligned _ h.mem_current
  rw [h.current] at hroom hnum
  obtain ⟨frame, top, hentry⟩ := hrun.entry hroom
  obtain ⟨hcpu, hrun', hkeeps, -, habove, hcalls', hword⟩ := @intStub_frame _ _ _ _ _ num err handler halign hrun hentry
  have hcalls : ∀ t, t ≠ w.current → (Contexts.intStub m num err handler).calls t = m.calls t := by
    intro t hne
    change Function.update m.calls m.current _ t = _
    rw [h.current, Function.update_of_ne hne]
  have hnext := h.current_step hrun' rfl hkeeps hcalls fun hin => by
    rw [hcalls'] at hin
    rcases List.mem_cons.mp hin with heq | hin
    · rw [heq, hword]
      refine hnum.resolve_right fun hne => ?_
      obtain ⟨r, hr⟩ := List.exists_mem_of_ne_nil _ hne
      have hbetween := (hentry.above m.mem fun _ _ => rfl).of_mem hr
      omega
    · exact hentry.called (h.called _ h.mem_current) hin habove
  refine ⟨_, ?_, hnext⟩
  rw [Processors.interrupt, hstack, hcpu, ← hentry.frame_eq.2]

theorem Holds.ignored (h : Holds w m) (hroom : m.cpu.user = true ∨ m.current + 56 ≤ m.cpu.esp) {num handler : Nat} :
    ∃ w', w.step (.ignored num handler) = some w' ∧
      Holds w' { intReturn (Contexts.intStub m num 0 handler) (frameOf m.cpu m.esp0) with calls := m.calls } := by
  obtain ⟨saved, hstack, hrun⟩ := h.running
  have halign := h.aligned _ h.mem_current
  rw [h.current] at hroom
  obtain ⟨frame, top, hentry⟩ := hrun.entry hroom
  obtain ⟨hcpu, -, hkeeps, hpop, habove, -⟩ := @intStub_frame _ _ _ _ _ num 0 handler halign hrun hentry
  rw [hentry.frame_eq.1]
  have hcpu' : (intReturn (Contexts.intStub m num 0 handler) frame).cpu = m.cpu.reloaded := by
    rw [intReturn_cpu, hcpu]
    exact hpop
  generalize hm' : { intReturn (Contexts.intStub m num 0 handler) frame with calls := m.calls } = m'
  have hback : m'.cpu = m.cpu.reloaded ∧ m'.mem = (Contexts.intStub m num 0 handler).mem ∧ m'.calls = m.calls ∧
      m'.esp0 = m.esp0 ∧ m'.live = m.live := by
    subst hm'
    exact ⟨hcpu', rfl, rfl, rfl, rfl⟩
  obtain ⟨hcpu', hmem, hcalls, hesp0, hlive⟩ := hback
  have hrun' : Running m' w.current saved := by
    cases hrun with
    | program hcs hss hold hnone =>
      refine .program ?_ ?_ (hesp0.trans hold) ((congrFun hcalls _).trans hnone)
      · rw [hcpu']
        exact hcs
      · rw [hcpu']
        exact hss
    | kernel hcs hss hlo hhi hsaved =>
      have huser : m.cpu.user = false := by
        rw [Cpu.user, hcs]
        rfl
      have hframes := hentry.above _ habove
      rw [hentry.kernel huser] at hframes
      refine .kernel ?_ ?_ ?_ ?_ ?_
      · rw [hcpu']
        exact hcs
      · rw [hcpu']
        exact hss
      · rw [hcpu']
        exact hlo
      · rw [hcpu']
        exact hhi
      · rw [hcpu', hmem, hcalls]
        exact hframes
  have hnext := h.current_step hrun' hlive (hmem ▸ hkeeps) (fun t _ => congrFun hcalls t) fun hin => by
    rw [hmem]
    rw [hcalls] at hin
    exact hentry.called (h.called _ h.mem_current) hin habove
  refine ⟨_, ?_, hnext⟩
  rw [Processors.step, hstack, hcpu']

theorem stores_outside {stores : List (Nat × Nat)} (h : ∀ s ∈ stores, x ≠ s.1) :
    setWords mem stores x = mem x := by
  induction stores generalizing mem with
  | nil => rfl
  | cons s stores ih =>
    rw [setWords, List.foldl_cons, ← setWords, ih fun t ht => h t (List.mem_cons_of_mem _ ht), setWord_of_ne (h s List.mem_cons_self)]

theorem Holds.work (h : Holds w m) {stores : List (Nat × Nat)} (hs : Contexts.step boot m (.work stores c) = some m') :
    ∃ w', w.step (.work stores c) = some w' ∧ Holds w' m' := by
  obtain ⟨saved, hstack, hrun⟩ := h.running
  rw [Contexts.step, h.current] at hs
  cases hcalls : m.calls w.current with
  | nil =>
    rw [hcalls] at hs
    cases hs
  | cons r calls =>
    rw [hcalls] at hs
    simp only at hs
    split at hs
    · next hguard =>
      obtain ⟨hstores, hlow, hhigh⟩ := hguard
      obtain rfl := Option.some.inj hs
      cases hrun with
      | program _ _ _ hnone =>
        rw [hcalls] at hnone
        cases hnone
      | kernel hcs hss hlo hhi hsaved =>
        rw [hcalls] at hsaved
        obtain _ | ⟨hle, htop, huser, hring, hpop, hrest⟩ := hsaved
        have hframes := Frames.cons le_rfl htop huser hring hpop hrest
        have hafter : ∀ x, r ≤ x → setWords m.mem stores x = m.mem x := fun x hx => stores_outside fun s hs => by
          have hbelow := (hstores s hs).2
          omega
        refine ⟨_, by rw [Processors.step, hstack],
          h.current_step (.kernel hcs hss hlow ?_ ?_) rfl ?_ (fun _ _ => rfl) fun hin => ?_⟩
        · exact (hhigh.trans htop).trans (Nat.le_add_right _ _)
        · rw [hcalls]
          exact (hframes.congr fun x hx _ => hafter x hx).mono hhigh
        · refine fun x hx => stores_outside fun s hs => ?_
          have hin := hstores s hs
          unfold tcb at htop
          unfold pageSize at hx
          omega
        · change setWords m.mem stores _ ≠ _
          rw [hafter _ (htop.trans (Nat.le_add_right _ _))]
          exact h.called _ h.mem_current hin
    · cases hs

theorem Holds.systemCall (h : Holds w m) (hcall : m.systemCall = true) : ∃ u, w.stack w.current = [m.cpu, u] ∧
    popped m.mem (tcb w.current) segKernelData = u.reloaded ∧ u.Ringed ∧ m.mem (tcb w.current + 48) % 4 = 3 ∧
    ∀ mem' (u' : Cpu), popped mem' (tcb w.current) segKernelData = u'.reloaded → u'.Ringed →
      Running { m with mem := mem' } w.current [u'] := by
  obtain ⟨saved, hstack, hrun⟩ := h.running
  rw [Machine.systemCall, h.current, Bool.and_eq_true] at hcall
  obtain ⟨hcalls, hring3⟩ := hcall
  have hcalls : m.calls w.current = [tcb w.current] := of_decide_eq_true hcalls
  cases hrun with
  | program _ _ _ hnone =>
    rw [hcalls] at hnone
    cases hnone
  | kernel hcs hss hlo hhi hsaved =>
    rw [hcalls] at hsaved
    obtain _ | ⟨hle, htop, huser, hring, hold, _ | _⟩ := hsaved
    refine ⟨_, hstack, hold, hring, of_decide_eq_true hring3, fun mem' u' hpop hring' => ?_⟩
    refine .kernel hcs hss hlo hhi ?_
    change Frames mem' _ _ (m.calls w.current) _
    rw [hcalls]
    exact .cons hle htop (fun _ => rfl) hring' hpop .nil

theorem Holds.inCall {f : Cpu → Cpu} (h : Holds w m) (hcall : m.systemCall = true)
    (hpop : ∀ u : Cpu, m.mem (tcb w.current + 48) % 4 = 3 → popped m.mem (tcb w.current) segKernelData = u.reloaded →
      popped mem' (tcb w.current) segKernelData = (f u).reloaded ∧ (f u).cs = u.cs ∧ (f u).ss = u.ss)
    (hnum : mem' (tcb w.current + 36) = m.mem (tcb w.current + 36))
    (hkeeps : ∀ x, x < tcb w.current ∨ tcb w.current + 104 ≤ x → mem' x = m.mem x) :
    ∃ w', w.inCall f = some w' ∧ Holds w' { m with mem := mem' } := by
  obtain ⟨u, hstack, hold, hring, hring3, hrun⟩ := h.systemCall hcall
  obtain ⟨hnew, hcs, hss⟩ := hpop u hring3 hold
  have hring' : (f u).Ringed := by
    rw [Cpu.Ringed, hcs, hss]
    exact hring
  refine ⟨_, by rw [Processors.inCall, hstack],
    h.current_step (hrun mem' (f u) hnew hring') rfl (fun x hx => hkeeps x ?_) (fun _ _ => rfl) fun hin => ?_⟩
  · unfold tcb
    unfold pageSize at hx
    omega
  · change mem' _ ≠ _
    rw [hnum]
    exact h.called _ h.mem_current hin

theorem Holds.result (h : Holds w m) {eax edx : Nat} (hs : Contexts.step boot m (.result eax edx) = some m') :
    ∃ w', w.step (.result eax edx) = some w' ∧ Holds w' m' := by
  rw [Contexts.step] at hs
  split at hs
  · next hcall =>
    obtain rfl := Option.some.inj hs
    rw [h.current]
    refine h.inCall hcall (fun u _ hold => ⟨?_, rfl, rfl⟩) (stores_outside ?_) fun x hx => stores_outside ?_
    · have hpop : ∀ r, popped (setWords m.mem [(r + 32, eax), (r + 24, edx)]) r segKernelData =
          { popped m.mem r segKernelData with eax := eax, edx := edx } := fun r => by
        simp [popped, setWords, setWord]
      rw [hpop, hold]
      rfl
    · simp only [List.forall_mem_cons]
      exact ⟨by omega, by omega, List.forall_mem_nil _⟩
    · simp only [List.forall_mem_cons]
      exact ⟨by omega, by omega, List.forall_mem_nil _⟩
  · cases hs

theorem Holds.exec (h : Holds w m) {eip pos : Nat} (hs : Contexts.step boot m (.exec eip pos) = some m') :
    ∃ w', w.step (.exec eip pos) = some w' ∧ Holds w' m' := by
  rw [Contexts.step] at hs
  split at hs
  · next hcall =>
    obtain rfl := Option.some.inj hs
    rw [h.current]
    refine h.inCall hcall (fun u hring3 hold => ⟨?_, rfl, rfl⟩) (stores_outside ?_) fun x hx => stores_outside ?_
    · have hpop : ∀ r, m.mem (r + 48) % 4 = 3 → popped (setWords m.mem [(r + 24, 0), (r + 28, 0), (r + 20, 0),
            (r + 32, 0), (r + 88, r), (r + 12, pos), (r + 56, pos), (r + 28, pos), (r + 44, eip)]) r segKernelData =
          { popped m.mem r segKernelData with
            eax := 0, ebx := 0, edx := 0, ecx := pos, esp := pos, ebp := pos, eip := eip } := by
        intro r hring
        simp [popped, setWords, setWord, hring]
      rw [kernelThread, hpop _ hring3, hold]
      rfl
    · unfold kernelThread
      simp only [List.forall_mem_cons]
      exact ⟨by omega, by omega, by omega, by omega, by omega, by omega, by omega, by omega, by omega, List.forall_mem_nil _⟩
    · unfold kernelThread
      simp only [List.forall_mem_cons]
      exact ⟨by omega, by omega, by omega, by omega, by omega, by omega, by omega, by omega, by omega, List.forall_mem_nil _⟩
  · cases hs

theorem Holds.enter {new : Nat} {u : Cpu} (h : Holds w m) (hnew : new ∉ m.live) (halign : new % pageSize = 0)
    (hring : u.Ringed) (hpop : popped mem' (tcb new) segKernelData = u.reloaded)
    (hword : mem' (kernelThread new) = tcb new) (hkeeps : Keeps new m.mem mem') :
    Holds (w.set new [u]) { m with mem := mem', calls := Function.update m.calls new [], live := new :: m.live } := by
  have hne : ∀ t ∈ m.live, t ≠ new := fun t ht heq => hnew (heq ▸ ht)
  have hcurrent := hne _ h.mem_current
  obtain ⟨saved, hstack, hrun⟩ := h.running
  refine ⟨fun t ht => ?_, fun t => ?_, ⟨saved, ?_, ?_⟩, fun t ht hother => ?_, fun t ht => ?_⟩
  · rcases List.mem_cons.mp ht with rfl | ht
    · exact halign
    · exact h.aligned t ht
  · by_cases ht : t = new
    · subst ht
      rw [Processors.set_self]
      exact iff_of_true List.mem_cons_self (List.cons_ne_nil _ _)
    · rw [Processors.set_of_ne ht, ← h.threads, List.mem_cons, or_iff_right ht]
  · rw [Processors.set_current, Processors.set_of_ne hcurrent, hstack]
  · exact hrun.keeps (h.aligned _ h.mem_current) halign hcurrent hkeeps rfl rfl (Function.update_of_ne hcurrent ..)
  · rcases List.mem_cons.mp ht with rfl | ht
    · rw [Processors.set_self]
      unfold Waiting
      simp only [Function.update_self, hword]
      refine .cons ?_ le_rfl (fun _ => rfl) hring hpop .nil
      unfold tcb
      omega
    · rw [Processors.set_of_ne (hne t ht)]
      exact (h.waiting t ht hother).keeps (h.aligned t ht) halign (hne t ht) hkeeps
        (Function.update_of_ne (hne t ht) ..)
  · rcases List.mem_cons.mp ht with rfl | ht
    · intro hin
      simp only [Function.update_self] at hin
      cases hin
    · exact (h.called t ht).keeps (h.aligned t ht) halign (hne t ht) hkeeps (Function.update_of_ne (hne t ht) ..)

theorem allocThread_keeps {new : Nat} {stores : List (Nat × Nat)} (hmem : ∀ x, x < tcb new ∨ tcb new + 104 ≤ x → mem' x = mem x)
    (hstores : ∀ s ∈ stores, tcb new ≤ s.1 ∧ s.1 < tcb new + 104) : Keeps new mem (setWords mem' stores) := by
  intro x hx
  have hout : x < tcb new ∨ tcb new + 104 ≤ x := by
    unfold tcb
    unfold pageSize at hx
    omega
  rw [stores_outside fun s hs => ?_, hmem x hout]
  have hin := hstores s hs
  omega

theorem Holds.thread {new : Nat} (h : Holds w m) (hs : Contexts.step boot m (.thread new func stack) = some m') :
    ∃ w', w.step (.thread new func stack) = some w' ∧ Holds w' m' := by
  rw [Contexts.step] at hs
  split at hs
  · next hguard =>
    obtain rfl := Option.some.inj hs
    refine ⟨_, rfl, h.enter hguard.2.2 hguard.2.1 (.inl ⟨rfl, rfl⟩) ?_ ?_ (allocThread_keeps (fun x hx => ?_) ?_)⟩
    · simp [popped, setWords, setWord, allocThread, kernelThread, started, Cpu.reloaded, segUserCode]
    · simp [setWords, setWord]
    · exact if_neg (by omega)
    · simp [kernelThread]
  · cases hs

theorem cloneThread_popped {new : Nat} (hth : th % pageSize = 0) (hnew : new % pageSize = 0) (hne : th ≠ new)
    (hring : m.mem (tcb th + 48) % 4 = 3) : popped (cloneThread m th new).mem (tcb new) segKernelData =
      { popped m.mem (tcb th) segKernelData with eax := 0 } := by
  have hcopy : ∀ k, k < 64 → k ≠ 32 → (cloneThread m th new).mem (tcb new + k) = m.mem (tcb th + k) := by
    intro k hk hk32
    have hfar := pages_apart hth hnew hne
    have hcopied : (cloneThread m th new).mem (tcb new + k) = (allocThread m new).mem (tcb new + k - tcb new + tcb th) := by
      simp only [cloneThread]
      rw [stores_outside, if_pos ⟨Nat.le_add_right _ _, by omega⟩]
      simp only [List.forall_mem_cons, kernelThread]
      exact ⟨by omega, by omega, List.forall_mem_nil _⟩
    rw [hcopied, Nat.add_sub_cancel_left, Nat.add_comm]
    refine if_neg ?_
    unfold tcb
    unfold pageSize at hfar
    omega
  have h0 := hcopy 0 (by decide) (by decide)
  rw [Nat.add_zero, Nat.add_zero] at h0
  have heax : (cloneThread m th new).mem (tcb new + 32) = 0 := by
    simp [cloneThread, setWords, setWord]
  simp only [popped, h0, hcopy 4 (by decide) (by decide), hcopy 8 (by decide) (by decide), hcopy 12 (by decide) (by decide),
    hcopy 20 (by decide) (by decide), hcopy 24 (by decide) (by decide), hcopy 28 (by decide) (by decide), heax,
    hcopy 44 (by decide) (by decide), hcopy 48 (by decide) (by decide), hcopy 52 (by decide) (by decide),
    hcopy 56 (by decide) (by decide), hcopy 60 (by decide) (by decide), if_pos hring]

theorem Holds.fork {new : Nat} (h : Holds w m) (hs : Contexts.step boot m (.fork new) = some m') :
    ∃ w', w.step (.fork new) = some w' ∧ Holds w' m' := by
  rw [Contexts.step] at hs
  split at hs
  · next hguard =>
    obtain rfl := Option.some.inj hs
    obtain ⟨hcall, halign, hnew⟩ := hguard
    obtain ⟨u, hstack, hold, hring, hring3, -⟩ := h.systemCall hcall
    rw [h.current]
    refine ⟨w.set new [{ u with eax := 0 }], by rw [Processors.step, hstack],
      h.enter hnew halign hring ?_ ?_ (allocThread_keeps (fun x hx => ?_) ?_)⟩
    · have hpop := @cloneThread_popped m w.current new (h.aligned _ h.mem_current) halign
        (fun heq => hnew (heq ▸ h.mem_current)) hring3
      rw [hold] at hpop
      exact hpop
    · simp [setWords, setWord, kernelThread]
    · simp only [allocThread]
      rw [if_neg (by omega), if_neg (by omega)]
    · simp [kernelThread]
  · cases hs

theorem Holds.free (h : Holds w m) (hs : Contexts.step boot m (.free th) = some m') :
    ∃ w', w.step (.free th) = some w' ∧ Holds w' m' := by
  rw [Contexts.step] at hs
  split at hs
  · next hguard =>
    obtain rfl := Option.some.inj hs
    have hcurrent : w.current ≠ th := h.current ▸ hguard.2.symm
    obtain ⟨saved, hstack, hrun⟩ := h.running
    have hmem : ∀ t, t ∈ m.live.filter (· ≠ th) ↔ t ∈ m.live ∧ t ≠ th := fun t => by
      rw [List.mem_filter, decide_eq_true_eq]
    refine ⟨_, rfl, fun t ht => h.aligned t ((hmem t).mp ht).1, fun t => ?_, ⟨saved, ?_, ?_⟩, fun t ht hne => ?_,
      fun t ht => h.called t ((hmem t).mp ht).1⟩
    · by_cases ht : t = th
      · subst ht
        rw [Processors.set_self, hmem]
        exact iff_of_false (fun h => h.2 rfl) (not_not.mpr rfl)
      · rw [Processors.set_of_ne ht, ← h.threads, hmem, and_iff_left ht]
    · rw [Processors.set_current, Processors.set_of_ne hcurrent, hstack]
    · cases hrun with
      | program hcs hss hold hnone => exact .program hcs hss hold hnone
      | kernel hcs hss hlo hhi hsaved => exact .kernel hcs hss hlo hhi hsaved
    · obtain ⟨hlive, hth⟩ := (hmem t).mp ht
      rw [Processors.set_of_ne hth]
      exact h.waiting t hlive hne
  · cases hs

theorem Holds.inHandler {r : Nat} {calls : List Nat} (h : Holds w m) (hcalls : m.calls w.current = r :: calls) :
    ∃ c u saved, w.stack w.current = c :: u :: saved ∧ m.cpu.ss = segKernelData ∧
      Frames m.mem w.current w.current (r :: calls) (u :: saved) := by
  obtain ⟨saved, hstack, hrun⟩ := h.running
  cases hrun with
  | program _ _ _ hnone =>
    rw [hcalls] at hnone
    cases hnone
  | kernel hcs hss hlo hhi hsaved =>
    rw [hcalls] at hsaved
    obtain _ | ⟨hle, htop, huser, hring, hold, hrest⟩ := hsaved
    exact ⟨_, _, _, hstack, hss, .cons (hlo.trans hle) htop huser hring hold hrest⟩

theorem Holds.resume (halign : ∀ t ∈ m.live, t % pageSize = 0) (hthreads : ∀ t, t ∈ m.live ↔ w.stack t ≠ [])
    (hss : m.cpu.ss = segKernelData) (hth : th ∈ m.live) (hf : Frames m.mem th th (a :: m.calls th) (w.stack th))
    (hwait : ∀ t ∈ m.live, t ≠ th → Waiting m t (w.stack t)) (hcalled : ∀ t ∈ m.live, Called m t) :
    ∃ w', { w with current := th }.resume = some w' ∧ Holds w' (Contexts.idtReturn m a) := by
  obtain ⟨c, cs, hstack⟩ := List.exists_cons_of_ne_nil ((hthreads th).mp hth)
  rw [hstack] at hf
  refine ⟨_, ?_, Holds.idtReturn halign hthreads hss hth hf hwait hcalled⟩
  rw [Processors.resume]
  simp only [hstack]

structure Left (w : Processors) (m : Machine) (th r : Nat) : Prop where
  aligned : ∀ t ∈ m.live, t % pageSize = 0
  threads : ∀ t, t ∈ m.live ↔ w.stack t ≠ []
  data : m.cpu.ss = segKernelData
  mem_current : th ∈ m.live
  frames : Frames m.mem th th (r :: m.calls th) (w.stack th)
  waiting : ∀ t ∈ m.live, t ≠ th → Waiting m t (w.stack t)
  called : ∀ t ∈ m.live, Called m t

theorem Holds.left {r : Nat} {calls : List Nat} (h : Holds w m) (hcalls : m.calls w.current = r :: calls)
    (hmem : ∀ x, x ≠ kernelThread w.current → mem' x = m.mem x) :
    Left (w.set w.current (w.stack w.current).tail) ({ m with mem := mem' }.leave calls) w.current r := by
  obtain ⟨c, u, saved, hstack, hss, hframes⟩ := h.inHandler hcalls
  have hcurrent : ({ m with mem := mem' } : Machine).current = w.current := h.current
  have hself : ({ m with mem := mem' }.leave calls).calls w.current = calls := by
    rw [Machine.leave, hcurrent]
    exact Function.update_self ..
  have hother : ∀ t, t ≠ w.current → ({ m with mem := mem' }.leave calls).calls t = m.calls t := fun t ht => by
    rw [Machine.leave, hcurrent]
    exact Function.update_of_ne ht ..
  have hkeeps : Keeps w.current m.mem mem' := fun x hx => hmem x fun heq => by
    unfold kernelThread tcb at heq
    unfold pageSize at hx
    omega
  have halign := h.aligned _ h.mem_current
  rw [hstack, List.tail_cons]
  refine ⟨h.aligned, threads_set h.threads h.mem_current (List.cons_ne_nil _ _), hss, h.mem_current, ?_, fun t ht hne => ?_,
    fun t ht => ?_⟩
  · rw [hself, Processors.set_self]
    refine hframes.congr fun x _ hx => hmem x fun heq => ?_
    unfold kernelThread at heq
    omega
  · rw [Processors.set_of_ne hne]
    exact (h.waiting t ht hne).keeps (h.aligned t ht) halign hne hkeeps (hother t hne)
  · by_cases hne : t = w.current
    · subst hne
      intro hin
      rw [hself] at hin
      change mem' _ ≠ _
      rw [hmem _ (by unfold kernelThread; omega)]
      exact h.called _ ht (hcalls ▸ List.mem_cons_of_mem _ hin)
    · exact (h.called t ht).keeps (h.aligned t ht) halign hne hkeeps (hother t hne)

theorem Holds.back (h : Holds w m) (hs : Contexts.step boot m .back = some m') :
    ∃ w', w.step .back = some w' ∧ Holds w' m' := by
  rw [Contexts.step] at hs
  cases hcalls : m.calls m.current with
  | nil =>
    rw [hcalls] at hs
    cases hs
  | cons r calls =>
    rw [hcalls] at hs
    simp only at hs
    split at hs
    · obtain rfl := Option.some.inj hs
      rw [h.current] at hcalls
      have hleft := h.left hcalls fun _ _ => rfl
      exact Holds.resume hleft.aligned hleft.threads hleft.data hleft.mem_current hleft.frames hleft.waiting hleft.called
    · cases hs

theorem Holds.switch (h : Holds w m) (hboot : boot % pageSize = 0)
    (hs : Contexts.step boot m (.switch next) = some m') : ∃ w', w.step (.switch next) = some w' ∧ Holds w' m' := by
  rw [Contexts.step] at hs
  cases hcalls : m.calls m.current with
  | nil =>
    rw [hcalls] at hs
    cases hs
  | cons r calls =>
    rw [hcalls] at hs
    simp only at hs
    split at hs
    · next hguard =>
      obtain ⟨hnum, hnext⟩ := hguard
      obtain rfl := Option.some.inj hs
      rw [h.current] at hcalls
      obtain ⟨c, u, saved, -, -, hframes⟩ := h.inHandler hcalls
      have hin := hframes.of_mem List.mem_cons_self
      have halign := h.aligned _ h.mem_current
      -- the frame of `schedule()` is below the `tcb`
      have hr : r ≠ tcb boot := by
        intro heq
        obtain rfl : boot = w.current := by
          unfold tcb at heq hin
          unfold pageSize at hboot halign
          omega
        refine h.called _ h.mem_current ?_ (heq ▸ hnum)
        rw [hcalls, heq]
        exact List.mem_cons_self
      simp only [switchKernelThread, if_neg hr, h.current]
      have hself : setWord m.mem (kernelThread w.current) r (kernelThread w.current) = r := setWord_self
      have hmem : ∀ x, x ≠ kernelThread w.current → setWord m.mem (kernelThread w.current) r x = m.mem x :=
        fun x hx => setWord_of_ne hx
      generalize setWord m.mem (kernelThread w.current) r = mem' at hself hmem ⊢
      have hleft := h.left hcalls hmem
      have hwaiting : ∀ t ∈ m.live, Waiting ({ m with mem := mem' }.leave calls) t
          ((w.set w.current (w.stack w.current).tail).stack t) := fun t ht => by
        by_cases hne : t = w.current
        · subst hne
          have hframes := hleft.frames
          rwa [← hself] at hframes
        · exact hleft.waiting t ht hne
      exact Holds.resume hleft.aligned hleft.threads hleft.data hnext (hwaiting next hnext) (fun t ht _ => hwaiting t ht)
        hleft.called
    · cases hs

/-- A step of the machine is a step of the processors. -/
theorem Holds.step (h : Holds w m) (hboot : boot % pageSize = 0) (hroom : HasRoom m act)
    (hs : Contexts.step boot m act = some m') : ∃ w', w.step act = some w' ∧ Holds w' m' := by
  cases act with
  | run c =>
    rw [Contexts.step] at hs
    split at hs
    · next huser =>
      obtain rfl := Option.some.inj hs
      obtain ⟨saved, hstack, hrun⟩ := h.running
      cases hrun with
      | program hcs hss hesp0 hnone =>
        have hrun' : Running { m with cpu := c.inUser } w.current [] := .program rfl rfl hesp0 hnone
        exact ⟨_, rfl, h.current_step hrun' rfl (fun _ _ => rfl) (fun _ _ => rfl) (h.called _ h.mem_current)⟩
      | kernel hcs =>
        rw [Cpu.user, hcs] at huser
        cases huser
    · cases hs
  | interrupt num err handler =>
    rw [Contexts.step] at hs
    split at hs
    · next hguard =>
      obtain rfl := Option.some.inj hs
      exact h.intStub hroom (.inl hguard.2)
    · cases hs
  | ignored num handler =>
    rw [Contexts.step] at hs
    split at hs
    · obtain rfl := Option.some.inj hs
      exact h.ignored hroom
    · cases hs
  | work stores c => exact h.work hs
  | result eax edx => exact h.result hs
  | exec eip pos => exact h.exec hs
  | fork new => exact h.fork hs
  | thread new func stack => exact h.thread hs
  | free th => exact h.free hs
  | schedule handler =>
    rw [Contexts.step] at hs
    split at hs
    · next hguard =>
      obtain rfl := Option.some.inj hs
      exact h.intStub hroom (.inr hguard)
    · cases hs
  | switch next => exact h.switch hboot hs
  | back => exact h.back hs

end

/-- When the kernel has booted: the program of the first thread runs, and the idle thread waits in its `tcb`. -/
structure Booted (boot first : Nat) (w : Processors) (m : Machine) : Prop where
  pages : boot % pageSize = 0 ∧ first % pageSize = 0 ∧ boot ≠ first
  live : m.live = [boot, first]
  calls : ∀ th, m.calls th = []
  program : m.cpu.cs = segUserCode ∧ m.cpu.ss = segUserData
  esp0 : m.esp0 = stackFromTcb (tcb first)
  idle : m.mem (tcb boot + 48) = segKernelCode ∧ m.mem (kernelThread boot) = tcb boot
  current : w.current = first
  stack : ∀ th, w.stack th =
    if th = first then [m.cpu] else if th = boot then [popped m.mem (tcb boot) segKernelData] else []

section
variable {boot first : Nat} {w : Processors} {m m' : Machine} {acts : List Act}

theorem Booted.holds (h : Booted boot first w m) : Holds w m := by
  obtain ⟨hboot, hfirst, hne⟩ := h.pages
  have hrun : Running m first [] := .program h.program.1 h.program.2 h.esp0 (h.calls first)
  have hring : m.mem (tcb boot + 48) % 4 ≠ 3 := by
    rw [h.idle.1]
    decide
  refine ⟨fun t ht => ?_, fun t => ?_, ⟨[], ?_, h.current ▸ hrun⟩, fun t ht hother => ?_, fun t _ hin => ?_⟩
  · rw [h.live] at ht
    simp only [List.mem_cons, List.not_mem_nil, or_false] at ht
    rcases ht with rfl | rfl
    · exact hboot
    · exact hfirst
  · rw [h.live, h.stack]
    by_cases h1 : t = first
    · simp [h1]
    · by_cases h2 : t = boot
      · simp [h2, hne]
      · simp [h1, h2]
  · rw [h.current, h.stack, if_pos rfl]
  · rw [h.live] at ht
    rw [h.current] at hother
    simp only [List.mem_cons, List.not_mem_nil, or_false] at ht
    obtain rfl := ht.resolve_right hother
    unfold Waiting
    rw [h.stack, if_neg hother, if_pos rfl, h.calls, h.idle.2]
    refine .cons (by unfold tcb; omega) le_rfl (fun _ => rfl) (.inr ⟨h.idle.1, if_neg hring⟩) ?_ .nil
    rfl
  · rw [h.calls] at hin
    cases hin

/-- Whatever threads do and however they take turns, each has the registers that it would have on a
processor of its own, as long as the frames of kernel code fit into the pages of the threads. -/
theorem contexts_kept (h : Booted boot first w m) (hroom : Along (step boot) HasRoom m acts)
    (hrun : exec (step boot) m acts = some m') : ∃ w', exec Processors.step w acts = some w' ∧ Holds w' m' := by
  have hholds := h.holds
  have hboot := h.pages.1
  clear h
  induction acts generalizing w m with
  | nil =>
    cases hrun
    exact ⟨w, rfl, hholds⟩
  | cons act acts ih =>
    rw [exec_cons] at hrun
    obtain ⟨m1, hstep, hrun⟩ := Option.bind_eq_some_iff.mp hrun
    obtain ⟨w1, hw1, h1⟩ := hholds.step hboot hroom.1 hstep
    obtain ⟨w', hw', h'⟩ := ih (hroom.2 m1 hstep) hrun h1
    refine ⟨w', ?_, h'⟩
    rw [exec_cons, hw1]
    exact hw'

end

def bootedMachine : Machine where
  mem x := if x = tcb 0xE0001000 + 48 then segKernelCode else if x = kernelThread 0xE0001000 then tcb 0xE0001000 else 0
  cpu := started 0x1000 0xBFFFF000
  esp0 := stackFromTcb (tcb 0xE0002000)
  calls _ := []
  live := [0xE0001000, 0xE0002000]

def bootedProcessors : Processors where
  current := 0xE0002000
  stack th := if th = 0xE0002000 then [bootedMachine.cpu]
    else if th = 0xE0001000 then [popped bootedMachine.mem (tcb 0xE0001000) segKernelData] else []

theorem bootedMachine_booted : Booted 0xE0001000 0xE0002000 bootedProcessors bootedMachine :=
  ⟨by decide, rfl, fun _ => rfl, ⟨rfl, rfl⟩, rfl, by decide, rfl, fun _ => rfl⟩

/-- The first program forks and is preempted, the child runs, and the first program goes on. -/
def forkRun : List Act :=
  [.run { started 0x1234 0xBFFFEF00 with ebx := 7 }, .interrupt 128 0 0xC0100000, .fork 0xE0003000, .result 2 0, .back,
    .interrupt 32 0 0xC0100000, .schedule 0xC0100000, .switch 0xE0003000,
    .run { started 0x1300 0xBFFFEE00 with ebx := 8 }, .interrupt 32 0 0xC0100000, .schedule 0xC0100000,
    .switch 0xE0002000, .back]

theorem contexts_kept_fork : ∃ m' w', exec (step 0xE0001000) bootedMachine forkRun = some m' ∧
    exec Processors.step bootedProcessors forkRun = some w' ∧ Holds w' m' := by
  have hsome : (exec (step 0xE0001000) bootedMachine forkRun).isSome := by decide +kernel
  obtain ⟨m', hm'⟩ := Option.isSome_iff_exists.mp hsome
  have hroom : Along (step 0xE0001000) HasRoom bootedMachine forkRun := by decide +kernel
  obtain ⟨w', hw', h'⟩ := contexts_kept bootedMachine_booted hroom hm'
  exact ⟨m', w', hm', hw', h'⟩

/-- The parent's registers are back, with the result of `fork`. -/
example : (exec (step 0xE0001000) bootedMachine forkRun).map (fun m => (m.cpu.eip, m.cpu.ebx, m.cpu.eax)) =
    some (0x1234, 7, 2) := by decide +kernel

end Os5.Contexts
