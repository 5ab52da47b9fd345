import Os5.Proc.Nodes

/-!
# Steps of threads that take turns

What each call of the kernel leaves, and so what a step leaves: under `Orderly` no node that is on a
list is put on another.
-/

namespace Os5.Switching.Kernel

open Outcome Transition

section
variable {k k' : Kernel} {th u c n p : Nat} {h : Head} {T C : Thread} {saved : Saved} {ths l : List Nat} {a : Act}
  {put : List Nat → List Nat} {o : Option Nat}

-- ---------------------------------------------------------------------------
-- New threads
-- ---------------------------------------------------------------------------

theorem Sound.congr (hk : k.Sound o) (hthread : k'.thread = k.thread) (hprocess : k'.process = k.process)
    (hlists : k'.lists = k.lists) (htid : k'.nextTid = k.nextTid) : k'.Sound o := by
  obtain ⟨h1, h2, h3, h4, h5, h6, h7⟩ := hk
  constructor <;> simpa only [hthread, hprocess, hlists, htid]

theorem Sound.setProcess (hk : k.Sound o) {P : Process}
    (hP : ∀ th ∈ P.threads, th < k.nextTid ∧ ∀ T, k.thread th = some T → T.proc = p) : (k.setProcess p P).Sound o := by
  refine ⟨hk.nodup, hk.on, hk.listed, hk.fresh, fun q Q hQ => ?_, hk.saved, hk.boot⟩
  simp only [Kernel.setProcess, Function.update_apply] at hQ
  split at hQ
  · next hq =>
    obtain rfl := Option.some.inj hQ
    exact hq ▸ hP
  · exact hk.owner q Q hQ

def entered (k : Kernel) (T : Thread) : Kernel := { k.setThread k.nextTid T with nextTid := k.nextTid + 1 }

theorem Sound.boot_lt (hk : k.Sound o) : bootThread < k.nextTid := by
  obtain ⟨B, hB, -⟩ := hk.boot
  exact hk.fresh _ B hB

theorem Sound.entered (hk : k.Sound o) (hon : T.on = none) (hsaved : ∀ n, T.saved ≠ .handling n) (hready : T.state ≠ .finished) :
    (k.entered T).Sound o := by
  have hboot := hk.boot_lt
  obtain ⟨hnodup, hon', hlisted, hfresh, howner, hsaved', B, hB, hrest⟩ := hk
  constructor
  case boot => exact ⟨B, (setThread_of_ne (Nat.ne_of_lt hboot)).trans hB, hrest⟩
  case listed =>
    intro h th hth
    obtain ⟨U, hU, hUon⟩ := hlisted h th hth
    exact ⟨U, (setThread_of_ne (Nat.ne_of_lt (hfresh th U hU))).trans hU, hUon⟩
  all_goals
    simp only [Kernel.entered, Kernel.setThread, Function.update_apply] at *
    grind

structure Entered (k : Kernel) (o : Option Nat) (T : Thread) (k' : Kernel) : Prop where
  sound : k'.Sound o
  thread : ∀ u, k'.thread u = if u = k.nextTid then some { T with on := some .runQueue } else k.thread u
  nextTid : k'.nextTid = k.nextTid + 1

theorem Sound.enter (hk : k.Sound o) (hon : T.on = none) (hsaved : ∀ n, T.saved ≠ .handling n) (hready : T.state ≠ .finished) :
    (k.entered T).schedulerInsert k.nextTid = .ok ((k.entered T).inserted .runQueue k.nextTid (· ++ [k.nextTid]) T) ∧
      Entered k o T ((k.entered T).inserted .runQueue k.nextTid (· ++ [k.nextTid]) T) := by
  have hself : (k.entered T).thread k.nextTid = some T := setThread_self
  refine ⟨append_ok hself hon, (hk.entered hon hsaved hready).inserted (putsAtEnd_append _) hself hon fun _ => rfl, fun u => ?_, rfl⟩
  simp only [Kernel.inserted, Kernel.entered, Kernel.setThread, Function.update_apply]
  grind

theorem Entered.quiet (h : Entered k o T k') (hT : T.handles = none) : Quiet k k' := by
  refine ⟨(Nat.le_succ _).trans h.nextTid.ge, fun u U' hU' => ?_⟩
  rw [h.thread] at hU'
  split at hU'
  · next hu =>
    obtain rfl := Option.some.inj hU'
    exact .inr ⟨hu.ge, hT⟩
  · exact .inl ⟨U', hU', rfl, id, fun _ hon => ⟨hon, id⟩⟩

theorem Entered.setProcess (h : Entered k o T k') {P : Process}
    (hP : ∀ th ∈ P.threads, th < k'.nextTid ∧ ∀ T, k'.thread th = some T → T.proc = p) : Entered k o T (k'.setProcess p P) :=
  ⟨h.sound.setProcess hP, h.thread, h.nextTid⟩

theorem Sound.newThread (hk : k.Sound o) {P : Process} (hP : k.process p = some P) (useresp : Nat) (handles : Option Nat) :
    ∃ k', k.newThread p useresp handles = .ok (k.nextTid, k') ∧ k'.mode = k.mode ∧
      Entered k o ⟨p, .ready, none, .user, useresp, false, handles⟩ k' := by
  obtain ⟨hins, hent⟩ := hk.enter (T := ⟨p, .ready, none, .user, useresp, false, handles⟩) rfl nofun nofun
  refine ⟨_, bind_ok.mpr ⟨P, getProcess_ok hP, bind_ok.mpr ⟨_, hins, rfl⟩⟩, rfl, hent.setProcess fun th hth => ?_⟩
  rw [hent.nextTid, hent.thread]
  rcases List.mem_append.mp hth with hold | hnew
  · obtain ⟨hlt, hproc⟩ := hk.owner p P hP th hold
    rw [if_neg (Nat.ne_of_lt hlt)]
    exact ⟨Nat.lt_succ_of_lt hlt, hproc⟩
  · rw [if_pos (List.mem_singleton.mp hnew), List.mem_singleton.mp hnew]
    refine ⟨Nat.lt_succ_self _, fun T hT => ?_⟩
    obtain rfl := Option.some.inj hT
    rfl

theorem Sound.fork (hk : k.Sound o) (hT : k.thread c = some T) (hready : T.state ≠ .finished) {P : Process}
    (hP : k.process T.proc = some P) : ∃ k', k.fork c = .ok k' ∧ k'.mode = k.mode ∧ k'.Sound o ∧ Quiet k k' ∧
      ∀ u, u ≠ k.nextTid → k'.thread u = k.thread u := by
  let N : Thread := { T with proc := k.nextPid, on := none, saved := .user, copied := true, handles := none }
  obtain ⟨-, hent⟩ := hk.enter (T := N) rfl nofun hready
  have hset := hent.setProcess (p := k.nextPid) (P := ⟨⟨P.signals.handler, fun _ => 0, []⟩, false, [k.nextTid]⟩) fun th hth => by
    rw [List.mem_singleton.mp hth, hent.nextTid, hent.thread, if_pos rfl]
    refine ⟨Nat.lt_succ_self _, fun U hU => ?_⟩
    obtain rfl := Option.some.inj hU
    rfl
  refine ⟨_, bind_ok.mpr ⟨T, getThread_ok hT, bind_ok.mpr ⟨P, getProcess_ok hP, append_ok setThread_self rfl⟩⟩, rfl,
    hset.sound.congr rfl rfl rfl rfl, ?_, fun u hu => (hent.thread u).trans (if_neg hu)⟩
  have hquiet := hset.quiet rfl
  exact ⟨hquiet.nextTid, hquiet.thread⟩

-- ---------------------------------------------------------------------------
-- The end of a thread
-- ---------------------------------------------------------------------------

/-- Errors that are not of the lists: memory that has been freed, a default action that does not exist, a
call that is refused. -/
def Fine (e : Fault) : Prop := e ≠ .linked ∧ e ≠ .copied

theorem missing_process (hp : k.process p = none) {α : Type} {f : Process → Except Fault α} {Q : α → Prop} :
    Yields (k.getProcess p >>= f) Fine Q := by
  rw [getProcess, hp]
  exact ⟨by decide, by decide⟩

theorem bind_ok_left {α β : Type} {a : α} {f : α → Except Fault β} : ((.ok a : Except Fault α) >>= f) = f a := rfl

theorem Sound.exempt (hk : k.Sound none) (c : Nat) : k.Sound (some c) :=
  ⟨hk.nodup, hk.on, hk.listed, hk.fresh, hk.owner, fun u U hU => ⟨(hk.saved u U hU).1, fun _ => (hk.saved u U hU).2 nofun⟩, hk.boot⟩

theorem Sound.leave (hk : k.Sound none) (hC : k.thread c = some C) (hready : C.state = .ready → C.on = none)
    (hlive : C.saved ≠ .exited) (hsaved : ∀ n, saved ≠ .handling n) (hboot : c = bootThread → saved = .kernel) :
    ∃ k', k.switchKernelThread c saved = .ok k' ∧ Kept k k' := by
  have hnot : C.state ≠ .finished := fun hfin => hlive ((hk.saved c C hC).2 nofun hfin)
  have hset : (k.setThread c { C with saved := saved }).Sound none := by
    refine hk.setThread hC rfl rfl ⟨hsaved, fun _ hfin => absurd hfin hnot⟩ fun hb => ⟨?_, hboot hb⟩
    obtain ⟨B, hB, -, hstate, -⟩ := hk.boot
    obtain rfl := Option.some.inj (hB.symm.trans (hb ▸ hC))
    exact hstate
  obtain ⟨k', hswitch, hkept⟩ := hset.switch hC hready
  have hquiet : Quiet k (k.setThread c { C with saved := saved }) := quiet_setThread hC rfl (fun _ => hlive) fun _ h => ⟨h, id⟩
  exact ⟨k', hswitch, hkept.after hquiet⟩

theorem Sound.leaveForGood (hk : k.Sound (some c)) (hC : k.thread c = some C) (hfin : C.state = .finished) (hboot : c ≠ bootThread) :
    ∃ k', k.switchKernelThread c .exited = .ok k' ∧ Kept (k.setThread c { C with saved := .exited }) k' := by
  have hset : (k.setThread c { C with saved := .exited }).Sound (some c) :=
    hk.setThread hC rfl rfl ⟨nofun, fun _ _ => rfl⟩ fun hb => absurd hb hboot
  have hall : ∀ u U, (k.setThread c { C with saved := .exited }).thread u = some U → U.state = .finished → U.saved = .exited := by
    intro u U hU hfin'
    by_cases hu : u = c
    · subst hu
      obtain rfl := Option.some.inj (setThread_self.symm.trans hU)
      rfl
    · exact (hset.saved u U hU).2 (fun h => hu (Option.some.inj h)) hfin'
  refine Sound.switch ⟨hset.nodup, hset.on, hset.listed, hset.fresh, hset.owner, fun u U hU => ?_, hset.boot⟩ hC ?_
  · exact ⟨(hset.saved u U hU).1, fun _ => hall u U hU⟩
  · exact fun hready => by cases hfin.symm.trans hready

theorem quiet_exited (hC : k.thread c = some C) : Quiet k (k.setThread c { C with saved := .exited }) :=
  quiet_setThread hC rfl (fun h => absurd rfl h) fun _ h => ⟨h, id⟩

theorem Woken.quiet (hk : k.Sound o) (hh : ∀ n, h ≠ .thread n) (hw : Woken k o (k.lists h) k') : Quiet k k' := by
  refine ⟨hw.rest.nextTid.ge, fun u U' hU' => .inl ?_⟩
  rw [hw.thread] at hU'
  split at hU'
  · next hu =>
    obtain ⟨U, hU, hon⟩ := hk.listed h u hu
    rw [hU] at hU'
    obtain rfl := Option.some.inj hU'
    exact ⟨U, hU, rfl, id, fun n hn => absurd (Option.some.inj (hon.symm.trans hn)) (hh n)⟩
  · exact ⟨U', hU', rfl, id, fun _ h => ⟨h, id⟩⟩

theorem quiet_setProcess {P : Process} : Quiet k (k.setProcess p P) := ⟨le_rfl, (Quiet.refl k).thread⟩

theorem quiet_setState {st : ThreadState} (hT : k.thread th = some T) (hst : st ≠ .ready) : Quiet k (k.setState th st) := by
  rw [setState_eq hT]
  exact quiet_setThread hT rfl id fun _ hon => ⟨hon, fun h => absurd h hst⟩

theorem Sound.setFinished (hk : k.Sound (some c)) (hC : k.thread c = some C) (hboot : c ≠ bootThread) :
    (k.setState c .finished).Sound (some c) := by
  rw [setState_eq hC]
  exact hk.setThread hC rfl rfl ⟨(hk.saved c C hC).1, fun h => absurd rfl h⟩ fun hb => absurd hb hboot

theorem Sound.boot_notMem (hk : k.Sound o) {P : Process} (hP : k.process p = some P) (hp : p ≠ firstProcess) : bootThread ∉ P.threads := by
  intro hmem
  obtain ⟨B, hB, hfirst, -⟩ := hk.boot
  exact hp (((hk.owner p P hP _ hmem).2 B hB).symm.trans hfirst)

theorem setState_self {st : ThreadState} (hT : k.thread th = some T) : (k.setState th st).thread th = some { T with state := st } := by
  rw [setState_eq hT, setThread_self]

theorem Sound.finish (hk : k.Sound none) (hC : k.thread c = some C) (hboot : c ≠ bootThread) (p : Nat) :
    ∃ k1 k', (k.setState c .finished).schedulerWake (.process p) = .ok k1 ∧
      (k1.setState c .finished).switchKernelThread c .exited = .ok k' ∧ Kept k k' := by
  have hk' := (hk.exempt c).setFinished hC hboot
  obtain ⟨k1, hwake, hwoken⟩ := hk'.schedulerWake (h := .process p) nofun
  obtain ⟨C1, hC1⟩ : ∃ C1, k1.thread c = some C1 := by
    rw [hwoken.thread, setState_self hC]
    split
    · exact ⟨_, rfl⟩
    · exact ⟨_, rfl⟩
  obtain ⟨k', hswitch, hkept⟩ := (hwoken.sound.setFinished hC1 hboot).leaveForGood (setState_self hC1) rfl hboot
  refine ⟨k1, k', hwake, hswitch, hkept.after ?_⟩
  have hquiet : Quiet k (k.setState c .finished) := quiet_setState hC nofun
  have hquiet1 : Quiet k1 (k1.setState c .finished) := quiet_setState hC1 nofun
  have hhead : ∀ n, Head.process p ≠ .thread n := nofun
  exact hquiet.trans ((hwoken.quiet hk' hhead).trans (hquiet1.trans (quiet_exited (setState_self hC1))))

theorem Sound.exit (hk : k.Sound none) (hC : k.thread c = some C) (hproc : C.proc ≠ firstProcess) :
    Yields (k.exit c) Fine (Kept k) := by
  have hboot : c ≠ bootThread := by
    rintro rfl
    obtain ⟨B, hB, hfirst, -⟩ := hk.boot
    obtain rfl := Option.some.inj (hB.symm.trans hC)
    exact hproc hfirst
  cases hP : k.process C.proc with
  | none =>
    rw [Kernel.exit, getThread_ok hC, bind_ok_left]
    exact missing_process hP
  | some P =>
    have hfreed := hk.freeThreads (l := P.threads.filter (· ≠ c)) fun hb => hk.boot_notMem hP hproc (List.mem_of_mem_filter hb)
    have hP1 := hfreed.process C.proc
    rw [hP, Option.map_some] at hP1
    have hC1 := hfreed.thread c
    rw [if_neg (by simp), hC] at hC1
    have howner := hfreed.sound.owner _ _ hP1
    have hk2 := hfreed.sound.setProcess (P := ⟨P.signals, true, _⟩) howner
    obtain ⟨k3, k', hwake, hswitch, hkept⟩ := hk2.finish hC1 hboot C.proc
    refine Yields.of_ok ⟨k', ?_, hkept.after (hfreed.quiet.trans quiet_setProcess)⟩
    unfold Kernel.exit
    refine bind_ok.mpr ⟨C, getThread_ok hC, bind_ok.mpr ⟨P, getProcess_ok hP, bind_ok.mpr ⟨_, getProcess_ok hP1, ?_⟩⟩⟩
    exact bind_ok.mpr ⟨k3, hwake, hswitch⟩

theorem Sound.freeProcess (hk : k.Sound o) (hp : p ≠ firstProcess) :
    Yields (k.freeProcess c p) Fine fun k' => k'.Sound o ∧ Quiet k k' ∧ k'.mode = k.mode ∧ k'.thread c = k.thread c := by
  cases hP : k.process p with
  | none =>
    exact missing_process hP
  | some P =>
    have hfreed := hk.freeThreads (l := P.threads.filter (· ≠ c)) fun hb => hk.boot_notMem hP hp (List.mem_of_mem_filter hb)
    refine Yields.of_ok ⟨_, bind_ok.mpr ⟨P, getProcess_ok hP, rfl⟩, ?_, ⟨hfreed.quiet.nextTid, hfreed.quiet.thread⟩, hfreed.rest.2, ?_⟩
    · obtain ⟨hsound⟩ := hfreed
      refine ⟨hsound.nodup, hsound.on, hsound.listed, hsound.fresh, fun q Q hQ => ?_, hsound.saved, hsound.boot⟩
      simp only [Function.update_apply] at hQ
      split at hQ
      · cases hQ
      · exact hsound.owner q Q hQ
    · exact (hfreed.thread c).trans (if_neg (by simp))

-- ---------------------------------------------------------------------------
-- Signals
-- ---------------------------------------------------------------------------

/-- A thread sleeps for a new one, which handles a signal for it. -/
structure Suspended (k : Kernel) (th : Nat) (k' : Kernel) : Prop where
  nextTid : k'.nextTid = k.nextTid + 1
  handler : ∃ H, k'.thread k.nextTid = some H ∧ H.handles = some th ∧ H.on = some .runQueue
  asleep : k'.thread th = (k.thread th).map fun T => { T with on := some (.thread k.nextTid), state := .waiting }
  others : ∀ u, u ≠ th → u ≠ k.nextTid → k'.thread u = k.thread u

theorem newThread_missing {handles : Option Nat} {useresp : Nat} (hP : k.process p = none) :
    k.newThread p useresp handles = .error .missing := by
  rw [Kernel.newThread, getProcess, hP]
  rfl

theorem Sound.startHandler (hk : k.Sound none) (hC : k.thread c = some C) (hT : k.thread th = some T) (hth : th ≠ bootThread)
    (hc : c ≠ bootThread) (hlive : C.saved ≠ .exited) (hready : c ≠ th → C.state = .ready → C.on = none)
    (hsaved : ∀ n, saved ≠ .handling n) (h : HandlerThread) :
    Yields (k.startHandler c th h saved) Fine fun k' => k'.Sound none ∧ k'.At ∧ ∃ k1, Suspended k th k1 ∧ Quiet k1 k' := by
  cases hP : k.process T.proc with
  | none =>
    rw [Kernel.startHandler, getThread_ok hT, bind_ok_left, newThread_missing hP]
    exact ⟨nofun, nofun⟩
  | some P =>
    obtain ⟨k1, hnew, -, hent⟩ := hk.newThread hP h.useresp (some th)
    have hne : th ≠ k.nextTid := Nat.ne_of_lt (hk.fresh th T hT)
    have hcne : c ≠ k.nextTid := Nat.ne_of_lt (hk.fresh c C hC)
    have hremoved := schedulerRemove_thread k1 k.nextTid
    have hT2 : (k1.schedulerRemove k.nextTid).thread th = some T := by
      rw [hremoved, if_neg hne, hent.thread, if_neg hne, hT]
    obtain ⟨k3, hsleep, hmoved⟩ := (hent.sound.schedulerRemove k.nextTid).schedulerSleep hT2 hth (.thread k.nextTid)
    have hH3 : k3.thread k.nextTid = some ⟨T.proc, .ready, none, .user, h.useresp, false, some th⟩ := by
      rw [hmoved.thread, if_neg (Ne.symm hne), hremoved, if_pos rfl, hent.thread, if_pos rfl]
      rfl
    have hfar : ∀ u, u ≠ th → u ≠ k.nextTid → k3.thread u = k.thread u := by
      intro u hu hu'
      rw [hmoved.thread, if_neg hu, hremoved, if_neg hu', hent.thread, if_neg hu']
    have hthread3 : k3.thread th = some { T with on := some (.thread k.nextTid), state := .waiting } := by
      rw [hmoved.thread, if_pos rfl, hT2]
      rfl
    have hk4 := hmoved.sound.inserted (putsAtEnd_cons k.nextTid) hH3 rfl fun _ => (rfl : Head.runQueue = .runQueue)
    generalize hk4eq : k3.inserted .runQueue k.nextTid (k.nextTid :: ·) ⟨T.proc, .ready, none, .user, h.useresp, false, some th⟩ = k4 at hk4
    have hthread4 : ∀ u, u ≠ k.nextTid → k4.thread u = k3.thread u := by
      intro u hu
      rw [← hk4eq]
      exact setThread_of_ne hu
    obtain ⟨C4, hC4, hlive4, hready4⟩ : ∃ C4, k4.thread c = some C4 ∧ C4.saved ≠ .exited ∧ (C4.state = .ready → C4.on = none) := by
      rw [hthread4 c hcne]
      by_cases hcth : c = th
      · obtain rfl := hcth
        obtain rfl := Option.some.inj (hC.symm.trans hT)
        exact ⟨_, hthread3, hlive, nofun⟩
      · exact ⟨C, (hfar c hcth hcne).trans hC, hlive, hready hcth⟩
    obtain ⟨k', hswitch, hkept⟩ := hk4.leave hC4 hready4 hlive4 hsaved fun hb => absurd hb hc
    refine Yields.of_ok ⟨k', ?_, hkept.sound, hkept.place, k4, ⟨?_, ?_, ?_, ?_⟩, hkept.quiet⟩
    · unfold Kernel.startHandler
      refine bind_ok.mpr ⟨T, getThread_ok hT, bind_ok.mpr ⟨_, hnew, bind_ok.mpr ⟨k3, hsleep, bind_ok.mpr ⟨k4, ?_, hswitch⟩⟩⟩⟩
      rw [← hk4eq]
      exact insertAt_ok hH3 rfl
    · rw [← hk4eq]
      exact hmoved.rest.nextTid.trans ((schedulerRemove_rest k1 k.nextTid).nextTid.trans hent.nextTid)
    · refine ⟨⟨T.proc, .ready, some .runQueue, .user, h.useresp, false, some th⟩, ?_, rfl, rfl⟩
      rw [← hk4eq]
      exact setThread_self
    · rw [hthread4 th hne, hthread3, hT]
      rfl
    · intro u hu hu'
      rw [hthread4 u hu', hfar u hu hu']

/-- A handler has ended and the threads that sleep for it are woken. -/
structure Resumed (k : Kernel) (c : Nat) (k' : Kernel) : Prop where
  nextTid : k'.nextTid = k.nextTid
  ended : ∀ C, k'.thread c = some C → C.saved = .exited
  others : ∀ u, u ≠ c → k'.thread u =
    if u ∈ k.lists (.thread c) then (k.thread u).map fun T => { T with on := some .runQueue, state := .ready } else k.thread u
  handles : ∀ C', k'.thread c = some C' → ∃ C, k.thread c = some C ∧ C'.handles = C.handles

theorem Sound.returnFromSignal (hk : k.Sound none) (hC : k.thread c = some C) (hon : C.on = none) (hboot : c ≠ bootThread)
    (hcopied : C.copied = false) : ∃ k', k.returnFromSignal c = .ok k' ∧ k'.Sound none ∧ k'.At ∧ ∃ k1, Resumed k c k1 ∧ Quiet k1 k' := by
  obtain ⟨k1, hwake, hwoken⟩ := (hk.exempt c).schedulerWake (h := .thread c) nofun
  have hC1 : k1.thread c = some C := by
    rw [hwoken.thread, if_neg (hk.notMem hC hon _), hC]
  have hself : (k1.setState c .finished).thread c = some { C with state := .finished } := setState_self hC1
  have hremoved := schedulerRemove_self hself
  obtain ⟨k', hswitch, hkept⟩ := ((hwoken.sound.setFinished hC1 hboot).schedulerRemove c).leaveForGood hremoved rfl hboot
  refine ⟨k', ?_, hkept.sound, hkept.place, _, ⟨?_, ?_, ?_, ?_⟩, hkept.quiet⟩
  · unfold Kernel.returnFromSignal
    refine bind_ok.mpr ⟨C, getThread_ok hC, ?_⟩
    rw [if_neg (by simp [hcopied])]
    exact bind_ok.mpr ⟨k1, hwake, hswitch⟩
  · exact (schedulerRemove_rest _ c).nextTid.trans hwoken.rest.nextTid
  · intro C' hC'
    obtain rfl := Option.some.inj (setThread_self.symm.trans hC')
    rfl
  · intro u hu
    rw [setThread_of_ne hu, schedulerRemove_thread, if_neg hu, setState_eq hC1, setThread_of_ne hu, hwoken.thread]
  · intro C' hC'
    obtain rfl := Option.some.inj (setThread_self.symm.trans hC')
    exact ⟨C, hC, rfl⟩

def endsProcess (k : Kernel) (th : Nat) : Bool :=
  match k.pending th with
  | some (.default signum) => terminates signum
  | _ => false

def startsHandler (k : Kernel) (th : Nat) : Bool :=
  match k.pending th with
  | some (.custom _) => true
  | _ => false

theorem pending_eq {P : Process} (hT : k.thread th = some T) (hP : k.process T.proc = some P) :
    k.pending th = (handleSignals P.signals T.useresp).1 := by
  simp only [pending, hT, hP]

theorem Sound.handle (hk : k.Sound none) (hC : k.thread c = some C) (hT : k.thread th = some T) {go : Mode}
    (hgo : ({ k with mode := go } : Kernel).At) (hends : k.endsProcess th = true → C.proc ≠ firstProcess)
    (hstarts : k.startsHandler th = true → th ≠ bootThread ∧ c ≠ bootThread ∧ C.saved ≠ .exited ∧
      (c ≠ th → C.state = .ready → C.on = none) ∧ ∀ n, saved ≠ .handling n) :
    Yields (k.handle c th saved go) Fine fun k' => k'.Sound none ∧ k'.At ∧
      (Quiet k k' ∨ k.startsHandler th = true ∧ ∃ k1, Suspended k th k1 ∧ Quiet k1 k') := by
  unfold Kernel.handle
  rw [getThread_ok hT, bind_ok_left]
  cases hP : k.process T.proc with
  | none => exact missing_process hP
  | some P =>
    have hpending := pending_eq hT hP
    unfold endsProcess at hends
    unfold startsHandler at hstarts ⊢
    rw [hpending] at hends hstarts ⊢
    rw [getProcess_ok hP, bind_ok_left]
    generalize handleSignals P.signals T.useresp = d at hends hstarts ⊢
    obtain ⟨dispatch, signals⟩ := d
    have hset : (k.setProcess T.proc { P with signals := signals }).Sound none := hk.setProcess (hk.owner _ P hP)
    have hkeep : Yields (.ok { k.setProcess T.proc { P with signals := signals } with mode := go } : Except Fault Kernel) Fine
        fun k' => k'.Sound none ∧ k'.At ∧ Quiet k k' := ⟨hset.withMode go, hgo, le_rfl, (Quiet.refl k).thread⟩
    match dispatch with
    | none | some .ignore => exact hkeep.imp fun k' h => ⟨h.1, h.2.1, .inl h.2.2⟩
    | some (.default signum) =>
      simp only at hends ⊢
      split
      · next hterm =>
        exact (hset.exit hC (hends hterm)).imp fun k' h => ⟨h.sound, h.place, .inl ⟨h.quiet.nextTid, h.quiet.thread⟩⟩
      · split
        · exact hkeep.imp fun k' h => ⟨h.1, h.2.1, .inl h.2.2⟩
        · exact ⟨nofun, nofun⟩
    | some (.custom h) =>
      obtain ⟨hth, hc, hlive, hready, hsaved⟩ := hstarts rfl
      refine (hset.startHandler hC hT hth hc hlive hready hsaved h).imp ?_
      rintro k' ⟨hsound, hplace, k1, hsus, hquiet⟩
      exact ⟨hsound, hplace, .inr ⟨rfl, k1, ⟨hsus.nextTid, hsus.handler, hsus.asleep, hsus.others⟩, hquiet⟩⟩

-- ---------------------------------------------------------------------------
-- A step
-- ---------------------------------------------------------------------------

def ofFirst (k : Kernel) (c : Nat) : Bool := (k.thread c).any fun C => C.proc = firstProcess

def isCopied (k : Kernel) (c : Nat) : Bool := (k.thread c).any fun C => C.copied

/-- The idle thread does not sleep, and neither it nor its process is ended. A thread that was made by
`fork` does not return from a handler. A thread that is run for the first time has no handler to run first. -/
def Orderly (k : Kernel) (a : Act) : Prop :=
  match k.mode, a with
  | .running c, .sleep _ => c ≠ bootThread
  | .running c, .exit => k.ofFirst c = false
  | .running _, .free p => p ≠ firstProcess
  | .running c, .returnFromSignal => k.isCopied c = false
  | .posted c _, .go => k.endsProcess c = true → k.ofFirst c = false
  | .signalling c p, .go => ∀ th ∈ k.sleeper p, k.endsProcess th = true → k.ofFirst c = false
  | .returning c th, .go => (k.endsProcess th = true → k.ofFirst c = false) ∧ (c ≠ th → k.startsHandler th = false)
  | _, _ => True

instance Orderly.decidable (k : Kernel) (a : Act) : Decidable (Orderly k a) := by
  unfold Orderly
  split <;> infer_instance

def handled (k : Kernel) (a : Act) : Option Nat :=
  match k.mode, a with
  | .posted c _, .go => some c
  | .signalling _ p, .go => k.sleeper p
  | .returning _ th, .go => some th
  | _, _ => none

inductive Moves (k : Kernel) (a : Act) (k' : Kernel) : Prop
  | quiet (h : Quiet k k')
  | suspended (th : Nat) (k1 : Kernel) (hth : k.handled a = some th) (hstarts : k.startsHandler th = true)
      (h : Suspended k th k1) (hquiet : Quiet k1 k')
  | resumed (c : Nat) (k1 : Kernel) (hc : k.Up c) (h : Resumed k c k1) (hquiet : Quiet k1 k')

/-- What every step keeps. -/
structure Steady (k : Kernel) : Prop where
  sound : k.Sound none
  place : k.At

theorem at_running (hmode : k.mode = .running c) (hC : k.thread c = some C) (hon : C.on = none) (hlive : C.saved ≠ .exited) : k.At := by
  rw [At, hmode]
  exact ⟨C, hC, hon, hlive⟩

theorem proc_ne_first (hC : k.thread c = some C) (h : k.ofFirst c = false) : C.proc ≠ firstProcess := by
  intro hproc
  simp [ofFirst, hC, hproc] at h

theorem Sound.setUseresp (hk : k.Sound none) (hmode : k.mode = .running c) (hC : k.thread c = some C) (hon : C.on = none)
    (hlive : C.saved ≠ .exited) (useresp : Nat) : Kept k (k.setThread c { C with useresp := useresp }) where
  sound := by
    refine hk.setThread hC rfl rfl (hk.saved c C hC) fun hb => ?_
    obtain ⟨B, hB, -, hstate, hsaved, -⟩ := hk.boot
    obtain rfl := Option.some.inj (hB.symm.trans (hb ▸ hC))
    exact ⟨hstate, hsaved⟩
  place := at_running hmode setThread_self hon hlive
  quiet := quiet_setThread hC rfl id fun _ h => ⟨h, id⟩

theorem Sound.call (hk : k.Sound none) (hmode : k.mode = .running c) (hC : k.thread c = some C) (hon : C.on = none)
    (hlive : C.saved ≠ .exited) (hok : Orderly k a) (hidle : c = bootThread → Act.interrupt a = true) :
    Yields (k.call c a) Fine fun k' => k'.Steady ∧ Moves k a k' := by
  have hgoes : ∀ {k'}, Kept k k' → k'.Steady ∧ Moves k a k' := fun h => ⟨⟨h.sound, h.place⟩, .quiet h.quiet⟩
  have hstays : ∀ {k'}, k'.Sound none → Quiet k k' → k'.mode = k.mode → k'.thread c = some C → k'.Steady ∧ Moves k a k' :=
    fun hk' hquiet hm hC' => ⟨⟨hk', at_running (hm.trans hmode) hC' hon hlive⟩, .quiet hquiet⟩
  have hnew : c ≠ k.nextTid := Nat.ne_of_lt (hk.fresh c C hC)
  have hup : k.Up c := ⟨C, hC, hon, hlive⟩
  have hkernel : ∀ n, Saved.kernel ≠ .handling n := nofun
  unfold Orderly at hok
  rw [hmode] at hok
  cases a with
  | schedule =>
    obtain ⟨k', hswitch, hkept⟩ := hk.leave hC (fun _ => hon) hlive hkernel fun _ => rfl
    exact Yields.of_ok ⟨k', hswitch, hgoes hkept⟩
  | sleep h =>
    cases hh : Head.forSleep h with
    | false =>
      simp only [Kernel.call, hh]
      exact ⟨nofun, nofun⟩
    | true =>
      obtain ⟨k1, hsleep, hmoved⟩ := hk.schedulerSleep hC hok h
      have hthread : ∀ u, k1.thread u = if u = c then some { C with on := some h, state := .waiting } else k.thread u := by
        intro u
        rw [hmoved.thread]
        split
        · next hu =>
          rw [hu, hC]
          rfl
        · rfl
      have hC1 := (hthread c).trans (if_pos rfl)
      obtain ⟨k', hswitch, hkept⟩ := hmoved.sound.leave hC1 nofun hlive hkernel fun _ => rfl
      have hquiet : Quiet k k1 :=
        quiet_of_thread hC hmoved.rest.nextTid hthread rfl id fun u hu => by cases hon.symm.trans hu
      refine Yields.of_ok ⟨k', ?_, hgoes (hkept.after hquiet)⟩
      rw [Kernel.call, if_pos hh]
      exact bind_ok.mpr ⟨k1, hsleep, hswitch⟩
  | wake h =>
    cases hh : Head.forSleep h with
    | false =>
      simp only [Kernel.call, hh]
      exact ⟨nofun, nofun⟩
    | true =>
      have hqueue : h ≠ .runQueue := by rintro rfl; cases hh
      have hthread : ∀ n, h ≠ .thread n := by rintro n rfl; cases hh
      obtain ⟨k', hwake, hwoken⟩ := hk.schedulerWake hqueue
      have hC' : k'.thread c = some C := by
        rw [hwoken.thread, if_neg (hk.notMem hC hon h), hC]
      refine Yields.of_ok ⟨k', (if_pos hh).trans hwake, hstays hwoken.sound (hwoken.quiet hk hthread) hwoken.rest.mode hC'⟩
  | fork =>
    cases hP : k.process C.proc with
    | none =>
      rw [Kernel.call, Kernel.fork, getThread_ok hC, bind_ok_left]
      exact missing_process hP
    | some P =>
      have hnot : C.state ≠ .finished := fun hfin => hlive ((hk.saved c C hC).2 nofun hfin)
      obtain ⟨k', hfork, hm, hk', hquiet, hsame⟩ := hk.fork hC hnot hP
      exact Yields.of_ok ⟨k', hfork, hstays hk' hquiet hm ((hsame c hnew).trans hC)⟩
  | threadFork useresp =>
    rw [Kernel.call, getThread_ok hC, bind_ok_left]
    cases hP : k.process C.proc with
    | none =>
      rw [newThread_missing hP]
      exact ⟨nofun, nofun⟩
    | some P =>
      obtain ⟨k', hfork, hm, hent⟩ := hk.newThread hP useresp none
      rw [hfork]
      exact hstays hent.sound (hent.quiet rfl) hm ((hent.thread c).trans ((if_neg hnew).trans hC))
  | exit => exact (hk.exit hC (proc_ne_first hC hok)).imp fun k' h => hgoes h
  | kill pid sig =>
    have hboot : c ≠ bootThread := fun hb => by cases hidle hb
    rw [Kernel.call, Kernel.kill, getThread_ok hC, bind_ok_left]
    split
    · exact ⟨nofun, nofun⟩
    · cases hP : k.process pid.toNat with
      | none => exact ⟨nofun, nofun⟩
      | some P =>
        simp only
        split
        · exact ⟨nofun, nofun⟩
        · have hset : (k.setProcess pid.toNat { P with signals := { P.signals with queue := P.signals.queue ++ [⟨asUint sig, C.proc⟩] } }).Sound none :=
            hk.setProcess (hk.owner _ P hP)
          refine ⟨⟨hset.withMode _, ?_⟩, .quiet ⟨le_rfl, (Quiet.refl k).thread⟩⟩
          split
          · exact ⟨hup, hboot⟩
          · exact ⟨hup, hboot⟩
  | signal sig handler =>
    rw [Kernel.call, getThread_ok hC, bind_ok_left]
    cases hP : k.process C.proc with
    | none => exact missing_process hP
    | some P =>
      rw [getProcess_ok hP, bind_ok_left]
      split
      · exact ⟨nofun, nofun⟩
      · exact hstays (hk.setProcess (hk.owner _ P hP)) quiet_setProcess rfl hC
  | execve useresp =>
    rw [Kernel.call, getThread_ok hC, bind_ok_left]
    cases hP : k.process C.proc with
    | none => exact missing_process hP
    | some P =>
      rw [getProcess_ok hP, bind_ok_left]
      have hset := hk.setProcess (p := C.proc) (P := { P with signals := ⟨fun _ => sigDfl, fun _ => 0, []⟩ }) (hk.owner _ P hP)
      exact hgoes ((hset.setUseresp hmode hC hon hlive useresp).after quiet_setProcess)
  | free p =>
    rw [Kernel.call]
    cases hP : k.process p with
    | none => exact missing_process hP
    | some P =>
      rw [getProcess_ok hP, bind_ok_left]
      split
      · refine (hk.freeProcess hok).imp ?_
        rintro k' ⟨hk', hquiet, hm, hC'⟩
        exact hstays hk' hquiet hm (hC'.trans hC)
      · exact ⟨nofun, nofun⟩
  | returnFromSignal =>
    have hcopied : C.copied = false := by simpa [isCopied, hC] using hok
    have hboot : c ≠ bootThread := fun hb => by cases hidle hb
    obtain ⟨k', hreturn, hk', hplace, k1, hres, hquiet⟩ := hk.returnFromSignal hC hon hboot hcopied
    exact Yields.of_ok ⟨k', hreturn, ⟨hk', hplace⟩, .resumed c k1 hup hres hquiet⟩
  | user useresp =>
    rw [Kernel.call, getThread_ok hC, bind_ok_left]
    exact hgoes (hk.setUseresp hmode hC hon hlive useresp)
  | iret =>
    have hboot : c ≠ bootThread := fun hb => by cases hidle hb
    exact ⟨⟨hk.withMode _, hup, hboot, C, hC⟩, .quiet ⟨le_rfl, (Quiet.refl k).thread⟩⟩
  | go => exact ⟨nofun, nofun⟩

theorem Sound.handled (hk : k.Sound none) (hC : k.thread c = some C) (hT : k.thread th = some T) {go : Mode}
    (hgo : ({ k with mode := go } : Kernel).At) (ha : k.handled a = some th) (hends : k.endsProcess th = true → k.ofFirst c = false)
    (hstarts : k.startsHandler th = true → th ≠ bootThread ∧ c ≠ bootThread ∧ C.saved ≠ .exited ∧
      (c ≠ th → C.state = .ready → C.on = none) ∧ ∀ n, saved ≠ .handling n) :
    Yields (k.handle c th saved go) Fine fun k' => k'.Steady ∧ Moves k a k' := by
  refine (hk.handle hC hT hgo (fun h => proc_ne_first hC (hends h)) hstarts).imp ?_
  rintro k' ⟨hsound, hplace, hquiet | ⟨hth, k1, hsus, hquiet⟩⟩
  · exact ⟨⟨hsound, hplace⟩, .quiet hquiet⟩
  · exact ⟨⟨hsound, hplace⟩, .suspended th k1 ha hth hsus hquiet⟩

theorem sleeper_eq_some (h : k.sleeper p = some th) : ∃ T P, k.thread th = some T ∧ T.state = .waiting ∧ k.process p = some P ∧ th ∈ P.threads := by
  unfold sleeper at h
  split at h
  · next P hP =>
    split at h
    · next u hu =>
      split at h
      · next hw =>
        obtain rfl := Option.some.inj h
        obtain ⟨T, hT, hstate⟩ := (Option.any_eq_true _ _).mp hw
        exact ⟨T, P, hT, of_decide_eq_true hstate, hP, List.mem_of_mem_head? hu⟩
      · cases h
    · cases h
  · cases h

theorem Steady.carryOut (hk : k.Steady) (hok : Orderly k a) : Yields (k.carryOut a) Fine fun k' => k'.Steady ∧ Moves k a k' := by
  obtain ⟨hsound, hplace⟩ := hk
  have hrefused : Yields (.error .refused : Except Fault Kernel) Fine fun k' => k'.Steady ∧ Moves k a k' := ⟨nofun, nofun⟩
  unfold Kernel.carryOut
  unfold Kernel.At at hplace
  cases hmode : k.mode with
  | running c =>
    rw [hmode] at hplace
    obtain ⟨C, hC, hon, hlive⟩ := hplace
    simp only
    split
    · exact hrefused
    · next hidle =>
      refine hsound.call hmode hC hon hlive hok fun hb => ?_
      simpa [hb] using hidle
  | posted c p =>
    rw [hmode] at hplace
    obtain ⟨⟨C, hC, hon, hlive⟩, hboot⟩ := hplace
    simp only
    split
    · next hgo =>
      obtain rfl := hgo
      unfold Orderly at hok
      rw [hmode] at hok
      have hsaved : ∀ n, Saved.signalling p ≠ .handling n := nofun
      have ha : k.handled .go = some c := by simp only [Kernel.handled, hmode]
      exact hsound.handled hC hC ⟨⟨C, hC, hon, hlive⟩, hboot⟩ ha hok fun _ => ⟨hboot, hboot, hlive, fun h => absurd rfl h, hsaved⟩
    · exact hrefused
  | signalling c p =>
    rw [hmode] at hplace
    obtain ⟨⟨C, hC, hon, hlive⟩, hboot⟩ := hplace
    simp only
    split
    · next hgo =>
      obtain rfl := hgo
      unfold Orderly at hok
      rw [hmode] at hok
      split
      · next th hth =>
        obtain ⟨T, P, hT, hwaiting, -⟩ := sleeper_eq_some hth
        have hthboot : th ≠ bootThread := by
          rintro rfl
          obtain ⟨B, hB, -, hready, -⟩ := hsound.boot
          obtain rfl := Option.some.inj (hB.symm.trans hT)
          cases hready.symm.trans hwaiting
        have hsaved : ∀ n, Saved.kernel ≠ .handling n := nofun
        have ha : k.handled .go = some th := by simp only [Kernel.handled, hmode, hth]
        exact hsound.handled hC hT ⟨C, hC, hon, hlive⟩ ha (hok th hth) fun _ => ⟨hthboot, hboot, hlive, fun _ _ => hon, hsaved⟩
      · exact ⟨⟨hsound.withMode _, ⟨C, hC, hon, hlive⟩⟩, .quiet ⟨le_rfl, (Quiet.refl k).thread⟩⟩
    · exact hrefused
  | returning c th =>
    rw [hmode] at hplace
    obtain ⟨⟨T, hT, hon, hlive⟩, hboot, C, hC⟩ := hplace
    simp only
    split
    · next hgo =>
      obtain rfl := hgo
      unfold Orderly at hok
      rw [hmode] at hok
      have ha : k.handled .go = some th := by simp only [Kernel.handled, hmode]
      refine hsound.handled hC hT ⟨T, hT, hon, hlive⟩ ha hok.1 fun hstarts => ?_
      by_cases hcth : c = th
      · subst hcth
        obtain rfl := Option.some.inj (hC.symm.trans hT)
        have hsaved : ∀ n, Saved.kernel ≠ .handling n := nofun
        rw [if_pos rfl]
        exact ⟨hboot, hboot, hlive, fun h => absurd rfl h, hsaved⟩
      · cases (hok.2 hcth).symm.trans hstarts
    · exact hrefused
  | halted => exact hrefused

theorem Booted.steady (hk : Booted k) : k.Steady := by
  obtain ⟨useresp, rfl⟩ := hk
  constructor
  · constructor
    case boot => exact ⟨_, rfl, rfl, rfl, rfl, .inl rfl⟩
    case listed =>
      intro h th hth
      by_cases hh : h = .runQueue
      · subst hh
        obtain rfl := List.mem_singleton.mp hth
        exact ⟨_, rfl, rfl⟩
      · have hnil : (Kernel.boot useresp).lists h = [] := by simp only [Kernel.boot, Function.update_apply, if_neg hh]
        rw [hnil] at hth
        cases hth
    all_goals
      simp only [Kernel.boot, Function.update_apply]
      grind
  · exact ⟨_, rfl, rfl, nofun⟩

-- ---------------------------------------------------------------------------
-- Runs
-- ---------------------------------------------------------------------------

/-- The node of a thread is on one list at most, and there once. -/
def LinkedOnce (k : Kernel) : Prop :=
  (∀ h, (k.lists h).Nodup) ∧ ∀ h h' th, th ∈ k.lists h → th ∈ k.lists h' → h' = h

theorem Sound.linkedOnce (hk : k.Sound o) : k.LinkedOnce := by
  refine ⟨hk.nodup, fun h h' th hth hth' => ?_⟩
  obtain ⟨T, hT, hon⟩ := hk.listed h th hth
  obtain ⟨T', hT', hon'⟩ := hk.listed h' th hth'
  obtain rfl := Option.some.inj (hT.symm.trans hT')
  exact Option.some.inj (hon'.symm.trans hon)

theorem step_eq_some : step k a = some k' ↔ k.carryOut a = .ok k' := by
  unfold step
  cases k.carryOut a <;> simp [Except.toOption]

theorem steady_of_reach (hk : Reach step Orderly Booted k) : k.Steady :=
  hk.invariant (fun _ => Booted.steady) fun _ _ _ hk hok hstep => ((hk.carryOut hok).of_eq_ok (step_eq_some.mp hstep)).1

/-- In every order of orderly steps. -/
theorem reach_linkedOnce (hk : Reach step Orderly Booted k) :
    k.LinkedOnce ∧ ∀ a, Orderly k a → k.carryOut a ≠ .error .linked := by
  have hsteady := steady_of_reach hk
  refine ⟨hsteady.sound.linkedOnce, fun a hok herror => ?_⟩
  have hfine := hsteady.carryOut hok
  rw [herror] at hfine
  exact hfine.1 rfl

end

def childHandles : List Act :=
  [.schedule, .go, .signal 10 0x1000, .fork, .schedule, .schedule, .go, .sleep (.pipe 0), .kill 2 10, .go, .go]

theorem childHandles_linkedOnce : ∃ k, exec step (boot 0x1000) childHandles = some k ∧
    k.LinkedOnce ∧ ∀ a, Orderly k a → k.carryOut a ≠ .error .linked := by
  have hrun : (exec step (boot 0x1000) childHandles).isSome = true := by decide +kernel
  obtain ⟨k, hk⟩ := Option.isSome_iff_exists.mp hrun
  have horderly : Along step Orderly (boot 0x1000) childHandles := by decide +kernel
  exact ⟨k, hk, reach_linkedOnce ((Reach.start ⟨0x1000, rfl⟩).along horderly hk)⟩

def faultOf : Except Fault Kernel → Option Fault
  | .error e => some e
  | .ok _ => none

/-- The signal is sent before the child has run: its handler is started on the stack of its parent, which
is in the run queue already. -/
theorem freshChild_links_twice : ∃ k, Reach step Any Booted k ∧ k.carryOut .go = .error .linked := by
  have hrun : (exec step (boot 0x1000) [.schedule, .go, .signal 10 0x1000, .fork, .kill 2 10, .go, .schedule, .schedule]).any
      (fun k => decide (faultOf (k.carryOut .go) = some .linked)) = true := by
    decide +kernel
  obtain ⟨k, hk, hlinked⟩ := (Option.any_eq_true _ _).mp hrun
  refine ⟨k, (Reach.start ⟨0x1000, rfl⟩).exec hk, ?_⟩
  cases hgo : k.carryOut .go with
  | ok k' => simp [hgo, faultOf] at hlinked
  | error e => simpa [hgo, faultOf] using hlinked

end Os5.Switching.Kernel
