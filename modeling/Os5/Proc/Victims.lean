import Os5.Proc.Turns

/-!
# Processes that signals end

The default action of a signal calls `_exit`, which ends the process of the thread on whose stack the
kernel is, not that of the thread the signal is handled for. `Own` says when the two are the same.
-/

namespace Os5.Switching.Kernel

open Outcome Transition

def Finished (k : Kernel) (p : Nat) : Prop := ∃ P, k.process p = some P ∧ P.finished = true

instance Finished.decidable (k : Kernel) (p : Nat) : Decidable (k.Finished p) :=
  decidable_of_iff ((k.process p).any (·.finished) = true) (by simp [Finished, Option.any_eq_true])

def procOf (k : Kernel) (th : Nat) : Option Nat := (k.thread th).map (·.proc)

def current (k : Kernel) : Option Nat :=
  match k.mode with
  | .running c | .posted c _ | .signalling c _ | .returning c _ => some c
  | .halted => none

-- ---------------------------------------------------------------------------
-- What signals are to end
-- ---------------------------------------------------------------------------

/-- A signal that ends a process ends the one it is for, and else only `_exit` ends one, its caller's. -/
structure SignalsRight (k : Kernel) (a : Act) (k' : Kernel) : Prop where
  target : ∀ th ∈ k.handled a, k.endsProcess th = true → ∀ p ∈ k.procOf th, k'.Finished p
  others : ∀ p, k'.Finished p → k.Finished p ∨ (∃ th ∈ k.handled a, k.endsProcess th = true ∧ p ∈ k.procOf th) ∨
    a = .exit ∧ ∃ c ∈ k.current, p ∈ k.procOf c

/-- What `kill` leaves in the queue of the process. -/
def sent (k : Kernel) (current p : Nat) (sig : Int) : Kernel :=
  match k.thread current, k.process p with
  | some C, some P => k.setProcess p { P with signals := { P.signals with queue := P.signals.queue ++ [⟨asUint sig, C.proc⟩] } }
  | _, _ => k

/-- A signal that ends a process is sent to another one only while the first thread of that does not sleep.
A thread that is run for the first time with such a signal pending comes after a thread of its process. -/
def Proper (k : Kernel) (a : Act) : Prop :=
  match k.mode, a with
  | .running c, .kill pid sig => k.procOf c ≠ some pid.toNat → ∀ th ∈ k.sleeper pid.toNat, (k.sent c pid.toNat sig).endsProcess th = false
  | .returning c th, .go => k.endsProcess th = true → k.procOf c = k.procOf th
  | _, _ => True

/-- `Proper`, as a test. -/
def proper (k : Kernel) (a : Act) : Bool :=
  match k.mode, a with
  | .running c, .kill pid sig =>
    k.procOf c = some pid.toNat ∨ ∀ th ∈ k.sleeper pid.toNat, (k.sent c pid.toNat sig).endsProcess th = false
  | .returning c th, .go => k.endsProcess th = false ∨ k.procOf c = k.procOf th
  | _, _ => true

instance Proper.decidable (k : Kernel) (a : Act) : Decidable (Proper k a) :=
  decidable_of_iff (k.proper a = true) (by
    unfold proper Proper
    split <;> simp [or_iff_not_imp_left])

-- ---------------------------------------------------------------------------
-- Operations that end no process
-- ---------------------------------------------------------------------------

structure Same (k k' : Kernel) : Prop where
  mode : k'.mode = k.mode
  nextTid : k'.nextTid = k.nextTid
  thread : ∀ u U', k'.thread u = some U' → ∃ U, k.thread u = some U ∧ U'.proc = U.proc ∧ U'.saved = U.saved
  threads : ∀ p P', k'.process p = some P' → ∃ P, k.process p = some P ∧ P'.threads ⊆ P.threads
  finished : ∀ p, k'.Finished p ↔ k.Finished p

def Spares (k k' : Kernel) : Prop := ∀ p, k'.Finished p → k.Finished p

section
variable {k k' k1 : Kernel} {th c p u : Nat} {T C : Thread} {P : Process} {h : Head} {a : Act} {l : List Nat} {saved : Saved}
  {Q : Kernel → Prop}

theorem Same.spares (h : Same k k') : Spares k k' := fun p => (h.finished p).mp

theorem Same.refl (k : Kernel) : Same k k :=
  ⟨rfl, rfl, fun _ U hU => ⟨U, hU, rfl, rfl⟩, fun _ P hP => ⟨P, hP, List.Subset.refl _⟩, fun _ => Iff.rfl⟩

theorem Same.trans {k'' : Kernel} (h : Same k k') (h' : Same k' k'') : Same k k'' := by
  refine ⟨h'.mode.trans h.mode, h'.nextTid.trans h.nextTid, fun u U'' hU'' => ?_, fun p P'' hP'' => ?_, fun p => (h'.finished p).trans (h.finished p)⟩
  · obtain ⟨U', hU', hproc', hsaved'⟩ := h'.thread u U'' hU''
    obtain ⟨U, hU, hproc, hsaved⟩ := h.thread u U' hU'
    exact ⟨U, hU, hproc'.trans hproc, hsaved'.trans hsaved⟩
  · obtain ⟨P', hP', hsub'⟩ := h'.threads p P'' hP''
    obtain ⟨P, hP, hsub⟩ := h.threads p P' hP'
    exact ⟨P, hP, List.Subset.trans hsub' hsub⟩

theorem same_of_thread {T' : Thread} (hT : k.thread th = some T) (hproc : T'.proc = T.proc) (hsaved : T'.saved = T.saved)
    (hthread : k'.thread = Function.update k.thread th (some T')) (hprocess : k'.process = k.process) (htid : k'.nextTid = k.nextTid)
    (hmode : k'.mode = k.mode) : Same k k' := by
  refine ⟨hmode, htid, fun u U' hU' => ?_, fun p P hP => ⟨P, hprocess ▸ hP, List.Subset.refl _⟩, fun p => by rw [Finished, hprocess]; rfl⟩
  rw [hthread, Function.update_apply] at hU'
  split at hU'
  · next hu =>
    obtain rfl := Option.some.inj hU'
    exact ⟨T, hu ▸ hT, hproc, hsaved⟩
  · exact ⟨U', hU', rfl, rfl⟩

theorem yields_read {α : Type} {x : Except Fault α} {f : α → Except Fault Kernel} (hf : ∀ b, x = .ok b → Yields (f b) (fun _ => True) Q) :
    Yields (x >>= f) (fun _ => True) Q := by
  cases x with
  | ok b => exact hf b rfl
  | error e => trivial

theorem getThread_eq_ok (h : k.getThread th = .ok T) : k.thread th = some T := by
  unfold getThread at h
  split at h
  · next hT => rw [hT, Except.ok.inj h]
  · cases h

theorem getProcess_eq_ok (h : k.getProcess p = .ok P) : k.process p = some P := by
  unfold getProcess at h
  split at h
  · next hP => rw [hP, Except.ok.inj h]
  · cases h

def Moving (k : Kernel) (x : Except Fault Kernel) : Prop := Yields x (fun _ => True) (Same k)

theorem Moving.after {x : Except Fault Kernel} (h : Same k k1) (hx : Moving k1 x) : Moving k x :=
  Yields.imp hx fun _ h' => h.trans h'

theorem same_schedulerRemove : Same k (k.schedulerRemove th) := by
  unfold schedulerRemove
  split
  · next T hT =>
    split
    · exact @same_of_thread _ _ _ T { T with on := none } hT rfl rfl rfl rfl rfl rfl
    · exact Same.refl k
  · exact Same.refl k

theorem moving_insertAt {put : List Nat → List Nat} : Moving k (k.insertAt h th put) := by
  refine yields_read fun T hT => ?_
  split
  · exact @same_of_thread _ _ _ T { T with on := some h } (getThread_eq_ok hT) rfl rfl rfl rfl rfl rfl
  · trivial

theorem moving_append : Moving k (k.append h th) := moving_insertAt

theorem same_setState {st : ThreadState} : Same k (k.setState th st) := by
  cases hT : k.thread th with
  | none =>
    have hsame : Function.update k.thread th none = k.thread := by rw [← hT, Function.update_eq_self]
    rw [setState, hT, Option.map_none, hsame]
    exact Same.refl k
  | some T =>
    rw [setState_eq hT]
    exact @same_of_thread _ _ _ T { T with state := st } hT rfl rfl rfl rfl rfl rfl

theorem moving_schedulerSleep : Moving k (k.schedulerSleep th h) :=
  Moving.after (same_schedulerRemove.trans same_setState) moving_append

theorem moving_wakeTurn : Moving k (k.wakeTurn th) :=
  Yields.bind (Moving.after same_schedulerRemove moving_append) fun _ hk1 => hk1.trans same_setState

theorem moving_schedulerWake : Moving k (k.schedulerWake h) :=
  Yields.foldlM (fun _ k' => Same k k') (fun _ _ _ hk => Moving.after hk moving_wakeTurn) (Same.refl k)

theorem same_freeThread : Same k (k.freeThread th) := by
  have hremove : Same k (k.schedulerRemove th) := same_schedulerRemove
  refine hremove.trans ⟨rfl, rfl, fun u U' hU' => ?_, fun p P' hP' => ?_, fun p => ?_⟩
  · simp only [freeThread, Function.update_apply] at hU'
    split at hU'
    · cases hU'
    · exact ⟨U', hU', rfl, rfl⟩
  · obtain ⟨P, hP, rfl⟩ := Option.map_eq_some_iff.mp hP'
    exact ⟨P, hP, List.erase_subset⟩
  · simp [Finished, freeThread]

theorem same_freeThreads : Same k (l.foldl freeThread k) := by
  induction l generalizing k with
  | nil => exact Same.refl k
  | cons th l ih => exact same_freeThread.trans ih

theorem same_cleanThreads : Same k (k.cleanThreads c p) := by
  unfold cleanThreads
  split
  · exact same_freeThreads
  · exact Same.refl k

theorem moving_requeue {st : ThreadState} : Moving k (k.requeue c st) := by
  unfold requeue
  split
  · exact moving_append
  · exact Same.refl k

theorem switch_same : Yields (k.switchKernelThread c saved) (fun _ => True) fun k' => ∃ C n N, k.thread c = some C ∧
    (k.setThread c { C with saved := saved }).thread n = some N ∧ k'.mode = restore c n N.saved ∧
    Same (k.setThread c { C with saved := saved }) { k' with mode := k.mode } := by
  refine yields_read fun C hC => Yields.bind moving_requeue fun k1 hk1 => yields_read fun N hN => ?_
  obtain ⟨N', hN', -, hsaved⟩ := hk1.thread _ N (getThread_eq_ok hN)
  have hnext : ∀ next, Same k1 (if (k1.lists .runQueue).isEmpty then k1 else k1.schedulerRemove next) := by
    intro next
    split
    · exact Same.refl k1
    · exact same_schedulerRemove
  obtain ⟨-, htid, hthread, hthreads, hfinished⟩ := hk1.trans ((hnext _).trans same_cleanThreads)
  exact ⟨C, _, N', getThread_eq_ok hC, hN', congrArg (restore c _) hsaved, rfl, htid, hthread, hthreads, hfinished⟩

-- ---------------------------------------------------------------------------
-- Threads of their processes
-- ---------------------------------------------------------------------------

structure Owned (k : Kernel) : Prop where
  fresh : ∀ th T, k.thread th = some T → th < k.nextTid
  owner : ∀ p P, k.process p = some P → ∀ th ∈ P.threads, th < k.nextTid ∧ ∀ T, k.thread th = some T → T.proc = p
  saved : ∀ th T p, k.thread th = some T → T.saved = .signalling p → T.proc = p

/-- In `signal_process` the thread that runs is of the process, or the first thread of that will not end one. -/
def Placed (k : Kernel) : Prop :=
  match k.mode with
  | .posted c p => ∀ C, k.thread c = some C → C.proc = p
  | .signalling c p => (∀ C, k.thread c = some C → C.proc = p) ∨ ∀ th ∈ k.sleeper p, k.endsProcess th = false
  | _ => True

structure Own (k : Kernel) : Prop extends Owned k where
  place : k.Placed

theorem Owned.congr (hk : k.Owned) (hthread : k'.thread = k.thread) (hprocess : k'.process = k.process) (htid : k'.nextTid = k.nextTid) :
    k'.Owned := by
  obtain ⟨h1, h2, h3⟩ := hk
  constructor <;> simpa only [hthread, hprocess, htid]

theorem Owned.same (hk : k.Owned) (h : Same k k') : k'.Owned where
  fresh th T hT := by
    obtain ⟨U, hU, -⟩ := h.thread th T hT
    exact h.nextTid.symm ▸ hk.fresh th U hU
  owner p P hP th hth := by
    obtain ⟨P0, hP0, hsub⟩ := h.threads p P hP
    obtain ⟨hlt, hproc⟩ := hk.owner p P0 hP0 th (hsub hth)
    refine ⟨h.nextTid.symm ▸ hlt, fun T hT => ?_⟩
    obtain ⟨U, hU, hsame, -⟩ := h.thread th T hT
    exact hsame.trans (hproc U hU)
  saved th T p hT hs := by
    obtain ⟨U, hU, hproc, hsaved⟩ := h.thread th T hT
    exact hproc.trans (hk.saved th U p hU (hsaved.symm.trans hs))

theorem Owned.setThread (hk : k.Owned) {T' : Thread} (hT : k.thread th = some T) (hproc : T'.proc = T.proc)
    (hsaved : ∀ p, T'.saved = .signalling p → T'.proc = p) : (k.setThread th T').Owned := by
  obtain ⟨hfresh, howner, hsaved'⟩ := hk
  constructor
  all_goals
    simp only [Kernel.setThread, Function.update_apply] at *
    grind

theorem Owned.setProcess (hk : k.Owned) (hP : ∀ th ∈ P.threads, th < k.nextTid ∧ ∀ T, k.thread th = some T → T.proc = p) :
    (k.setProcess p P).Owned := by
  refine ⟨hk.fresh, fun q Q hQ => ?_, hk.saved⟩
  simp only [Kernel.setProcess, Function.update_apply] at hQ
  split at hQ
  · next hq =>
    obtain rfl := Option.some.inj hQ
    exact hq ▸ hP
  · exact hk.owner q Q hQ

theorem Owned.entered (hk : k.Owned) (hsaved : ∀ p, T.saved ≠ .signalling p) : (k.entered T).Owned := by
  obtain ⟨hfresh, howner, hsaved'⟩ := hk
  constructor
  all_goals
    simp only [Kernel.entered, Kernel.setThread, Function.update_apply] at *
    grind

theorem Spares.setProcess (h : Spares k k') {R : Process} (hfin : R.finished = true → k.Finished p) : Spares k (k'.setProcess p R) := by
  rintro q ⟨R', hR', hfin'⟩
  simp only [Kernel.setProcess, Function.update_apply] at hR'
  split at hR'
  · next hq =>
    obtain rfl := Option.some.inj hR'
    exact hq ▸ hfin hfin'
  · exact h q ⟨R', hR', hfin'⟩

-- ---------------------------------------------------------------------------
-- Calls
-- ---------------------------------------------------------------------------

theorem own_running (hk : k.Owned) (hmode : k.mode = .running c) : k.Own := ⟨hk, by rw [Placed, hmode]; trivial⟩

theorem Owned.switch (hk : k.Owned) (hsaved : ∀ p C, saved = .signalling p → k.thread c = some C → C.proc = p) :
    Yields (k.switchKernelThread c saved) (fun _ => True) fun k' => k'.Own ∧ ∀ p, k'.Finished p ↔ k.Finished p := by
  refine switch_same.imp ?_
  rintro k' ⟨C, n, N, hC, hN, hmode, hsame⟩
  have hset : (k.setThread c { C with saved := saved }).Owned := hk.setThread hC rfl fun p hs => hsaved p C hs hC
  refine ⟨⟨(hset.same hsame).congr rfl rfl rfl, ?_⟩, hsame.finished⟩
  rw [Placed, hmode]
  cases hs : N.saved with
  | signalling p =>
    refine .inl fun N' hN' => ?_
    obtain ⟨N1, hN1, hproc, -⟩ := hsame.thread n N' hN'
    obtain rfl := Option.some.inj (hN.symm.trans hN1)
    exact hproc.trans (hset.saved n N p hN hs)
  | user | kernel | handling | exited => trivial

theorem Owned.newThread (hk : k.Owned) {useresp : Nat} {handles : Option Nat} :
    Yields (k.newThread p useresp handles) (fun _ => True) fun r => r.2.Owned ∧ r.2.mode = k.mode ∧ Spares k r.2 ∧
      ∀ u U, u < k.nextTid → r.2.thread u = some U → ∃ U', k.thread u = some U' ∧ U.proc = U'.proc := by
  have hP : ∀ P, k.getProcess p = .ok P → k.process p = some P := fun P => getProcess_eq_ok
  unfold Kernel.newThread
  cases hget : k.getProcess p with
  | error e => trivial
  | ok P =>
    have hP := hP P hget
    have hnew : (k.entered ⟨p, .ready, none, .user, useresp, false, handles⟩).Owned := hk.entered nofun
    refine Yields.bind (P := Same (k.entered ⟨p, .ready, none, .user, useresp, false, handles⟩)) moving_append fun k1 hk1 => ?_
    have hold : ∀ u U, u < k.nextTid → k1.thread u = some U → ∃ U', k.thread u = some U' ∧ U.proc = U'.proc := by
      intro u U hu hU
      obtain ⟨U', hU', hproc, -⟩ := hk1.thread u U hU
      exact ⟨U', (setThread_of_ne (Nat.ne_of_lt hu)).symm.trans hU', hproc⟩
    refine ⟨(hnew.same hk1).setProcess fun th hth => ?_, hk1.mode, Spares.setProcess hk1.spares fun hfin => ⟨P, hP, hfin⟩, hold⟩
    rw [hk1.nextTid]
    rcases List.mem_append.mp hth with hth | hth
    · obtain ⟨hlt, hproc⟩ := hk.owner p P hP th hth
      refine ⟨Nat.lt_succ_of_lt hlt, fun T hT => ?_⟩
      obtain ⟨U, hU, hsame⟩ := hold th T hlt hT
      exact hsame.trans (hproc U hU)
    · rw [List.mem_singleton.mp hth]
      refine ⟨Nat.lt_succ_self _, fun T hT => ?_⟩
      obtain ⟨U, hU, hsame, -⟩ := hk1.thread _ T hT
      obtain rfl := Option.some.inj (setThread_self.symm.trans hU)
      exact hsame

theorem Owned.fork (hk : k.Owned) : Yields (k.fork c) (fun _ => True) fun k' => k'.Owned ∧ k'.mode = k.mode ∧ Spares k k' := by
  refine yields_read fun T _ => yields_read fun P _ => ?_
  have hnew : (k.entered { T with proc := k.nextPid, on := none, saved := .user, copied := true, handles := none }).Owned := hk.entered nofun
  have hset := hnew.setProcess (p := k.nextPid) (P := ⟨⟨P.signals.handler, fun _ => 0, []⟩, false, [k.nextTid]⟩) fun th hth => by
    rw [List.mem_singleton.mp hth]
    refine ⟨Nat.lt_succ_self _, fun U hU => ?_⟩
    obtain rfl := Option.some.inj (setThread_self.symm.trans hU)
    rfl
  have hspares : Spares k (k.setProcess k.nextPid ⟨⟨P.signals.handler, fun _ => 0, []⟩, false, [k.nextTid]⟩) :=
    Spares.setProcess (Same.refl k).spares nofun
  refine Yields.imp moving_append fun k' hk' => ⟨?_, hk'.mode, fun p hp => hspares p (hk'.spares p hp)⟩
  refine Owned.same ?_ hk'
  exact hset.congr rfl rfl rfl

theorem Owned.exit (hk : k.Owned) : Yields (k.exit c) (fun _ => True) fun k' => k'.Own ∧
    ∃ C, k.thread c = some C ∧ k'.Finished C.proc ∧ ∀ p, k'.Finished p → p = C.proc ∨ k.Finished p := by
  refine yields_read fun C hC => yields_read fun P0 _ => yields_read fun P hP => ?_
  have hfreed : Same k ((P0.threads.filter (· ≠ c)).foldl freeThread k) := same_freeThreads
  generalize (P0.threads.filter (· ≠ c)).foldl freeThread k = k1 at hfreed hP
  have hk1 := hk.same hfreed
  have hk2 : (k1.setProcess C.proc { P with finished := true }).Owned := hk1.setProcess (hk1.owner _ P (getProcess_eq_ok hP))
  refine Yields.bind (Moving.after same_setState moving_schedulerWake) fun k3 hk3 => ?_
  have hk4 : Same (k1.setProcess C.proc { P with finished := true }) (k3.setState c .finished) := hk3.trans same_setState
  refine ((hk2.same hk4).switch fun _ _ hs => by cases hs).imp ?_
  rintro k' ⟨hown, hfin⟩
  refine ⟨hown, C, getThread_eq_ok hC, ?_, fun p hp => ?_⟩
  · exact (hfin _).mpr ((hk4.finished _).mpr ⟨_, Function.update_self _ _ _, rfl⟩)
  · obtain ⟨R, hR, hRfin⟩ := (hk4.finished p).mp ((hfin p).mp hp)
    by_cases hpc : p = C.proc
    · exact .inl hpc
    · exact .inr (hfreed.spares p ⟨R, (Function.update_of_ne hpc _ _).symm.trans hR, hRfin⟩)

theorem Owned.freeProcess (hk : k.Owned) :
    Yields (k.freeProcess c p) (fun _ => True) fun k' => k'.Owned ∧ k'.mode = k.mode ∧ Spares k k' := by
  refine yields_read fun P _ => ?_
  have hfreed : Same k ((P.threads.filter (· ≠ c)).foldl freeThread k) := same_freeThreads
  obtain ⟨hfresh, howner, hsaved⟩ := hk.same hfreed
  refine ⟨⟨hfresh, fun q Q hQ => ?_, hsaved⟩, hfreed.mode, ?_⟩
  · simp only [Function.update_apply] at hQ
    split at hQ
    · cases hQ
    · exact howner q Q hQ
  · rintro q ⟨Q, hQ, hfin⟩
    simp only [Function.update_apply] at hQ
    split at hQ
    · cases hQ
    · exact hfreed.spares q ⟨Q, hQ, hfin⟩

theorem Owned.startHandler (hk : k.Owned) {h : HandlerThread}
    (hsaved : ∀ p, saved = .signalling p → c < k.nextTid ∧ ∀ C, k.thread c = some C → C.proc = p) :
    Yields (k.startHandler c th h saved) (fun _ => True) fun k' => k'.Own ∧ Spares k k' := by
  refine yields_read fun T _ => Yields.bind hk.newThread ?_
  rintro ⟨new, k1⟩ ⟨hk1, -, hspares, hold⟩
  have hsleep : Moving k1 ((k1.schedulerRemove new).schedulerSleep th (.thread new)) := Moving.after same_schedulerRemove moving_schedulerSleep
  refine Yields.bind hsleep fun k2 hk2 => Yields.bind (moving_insertAt (k := k2)) fun k3 hk3 => ?_
  have hsame := hk2.trans hk3
  refine ((hk1.same hsame).switch fun p C hs hC => ?_).imp fun k' h' => ⟨h'.1, fun p hp => hspares p (hsame.spares p ((h'.2 p).mp hp))⟩
  obtain ⟨hlt, hproc⟩ := hsaved p hs
  obtain ⟨U, hU, hprocU, -⟩ := hsame.thread c C hC
  obtain ⟨U', hU', hprocU'⟩ := hold c U hlt hU
  exact hprocU.trans (hprocU'.trans (hproc U' hU'))

theorem Owned.returnFromSignal (hk : k.Owned) : Yields (k.returnFromSignal c) (fun _ => True) fun k' => k'.Own ∧ Spares k k' := by
  refine yields_read fun C _ => ?_
  split
  · trivial
  · refine Yields.bind moving_schedulerWake fun k1 hk1 => ?_
    have hsame : Same k ((k1.setState c .finished).schedulerRemove c) := hk1.trans (same_setState.trans same_schedulerRemove)
    exact ((hk.same hsame).switch fun _ _ hs => by cases hs).imp fun k' h' => ⟨h'.1, fun p hp => hsame.spares p ((h'.2 p).mp hp)⟩

theorem Owned.kill (hk : k.Owned) (hmode : k.mode = .running c) {pid sig : Int} (ha : Proper k (.kill pid sig)) :
    Yields (k.kill c pid sig) (fun _ => True) fun k' => k'.Own ∧ Spares k k' := by
  unfold Proper at ha
  rw [hmode] at ha
  refine yields_read fun C hC => ?_
  have hC := getThread_eq_ok hC
  split
  · trivial
  · cases hP : k.process pid.toNat with
    | none => trivial
    | some P =>
      simp only
      split
      · trivial
      · have hset : (k.setProcess pid.toNat { P with signals := { P.signals with queue := P.signals.queue ++ [⟨asUint sig, C.proc⟩] } }).Owned :=
          hk.setProcess (hk.owner _ P hP)
        refine ⟨⟨hset.congr rfl rfl rfl, ?_⟩, Spares.setProcess (Same.refl k).spares fun hfin => ⟨P, hP, hfin⟩⟩
        rw [Placed]
        split
        · next hmode' =>
          split at hmode'
          · next hproc =>
            cases hmode'
            intro C' hC'
            obtain rfl := Option.some.inj (hC.symm.trans hC')
            exact hproc.symm
          · cases hmode'
        · next hmode' =>
          split at hmode'
          · cases hmode'
          · next hproc =>
            cases hmode'
            refine .inr fun th hth => ?_
            have hother : k.procOf c ≠ some pid.toNat := by simpa [procOf, hC] using Ne.symm hproc
            have hsleeper : k.sleeper pid.toNat = some th := by
              simp only [sleeper, Kernel.setProcess, Function.update_self, hP, Option.mem_def] at hth ⊢
              exact hth
            have hsent := ha hother th hsleeper
            simp only [sent, hC, hP] at hsent
            exact hsent
        · trivial

/-- `_exit` ends the process of the caller; the other calls end none. -/
theorem Owned.call (hk : k.Owned) (hmode : k.mode = .running c) (ha : Proper k a) : Yields (k.call c a) (fun _ => True) fun k' =>
    k'.Own ∧ ∀ p, k'.Finished p → k.Finished p ∨ a = .exit ∧ p ∈ k.procOf c := by
  have hspares : ∀ {x : Except Fault Kernel}, Yields x (fun _ => True) (fun k' => k'.Own ∧ Spares k k') →
      Yields x (fun _ => True) fun k' => k'.Own ∧ ∀ p, k'.Finished p → k.Finished p ∨ a = .exit ∧ p ∈ k.procOf c :=
    fun h => Yields.imp h fun k' hk' => ⟨hk'.1, fun p hp => .inl (hk'.2 p hp)⟩
  have hkernel : ∀ p (C : Thread), Saved.kernel = .signalling p → k.thread c = some C → C.proc = p := fun _ _ hs => by cases hs
  have hsets : ∀ {P R : Process} {p : Nat}, k.process p = some P → R.threads = P.threads → R.finished = P.finished →
      (k.setProcess p R).Owned ∧ Spares k (k.setProcess p R) := fun {P R p} hP hthreads hfin =>
    ⟨hk.setProcess (hthreads ▸ hk.owner _ P hP), Spares.setProcess (Same.refl k).spares fun h => ⟨P, hP, hfin ▸ h⟩⟩
  cases a with
  | schedule => exact hspares ((hk.switch hkernel).imp fun k' h' => ⟨h'.1, fun p => (h'.2 p).mp⟩)
  | sleep h =>
    rw [Kernel.call]
    refine hspares ?_
    split
    · refine Yields.bind moving_schedulerSleep fun k1 hk1 => ?_
      exact ((hk.same hk1).switch fun _ _ hs => by cases hs).imp fun k' h' => ⟨h'.1, fun p hp => hk1.spares p ((h'.2 p).mp hp)⟩
    · trivial
  | wake h =>
    rw [Kernel.call]
    refine hspares ?_
    split
    · exact Yields.imp moving_schedulerWake fun k' hk' => ⟨own_running (hk.same hk') (hk'.mode.trans hmode), hk'.spares⟩
    · trivial
  | fork => exact hspares (hk.fork.imp fun k' h' => ⟨own_running h'.1 (h'.2.1.trans hmode), h'.2.2⟩)
  | threadFork useresp =>
    refine hspares (yields_read fun T _ => Yields.bind hk.newThread fun r hr => ?_)
    exact ⟨own_running hr.1 (hr.2.1.trans hmode), hr.2.2.1⟩
  | exit =>
    refine hk.exit.imp ?_
    rintro k' ⟨hown, C, hC, -, hothers⟩
    refine ⟨hown, fun p hp => (hothers p hp).symm.imp_right fun hpC => ⟨rfl, ?_⟩⟩
    rw [procOf, hC, hpC]
    rfl
  | kill pid sig => exact hspares (hk.kill hmode ha)
  | signal sig handler =>
    refine hspares (yields_read fun T _ => yields_read fun P hP => ?_)
    split
    · trivial
    · obtain ⟨hown, hsp⟩ := hsets (R := { P with signals := { P.signals with handler := Function.update P.signals.handler sig handler } })
        (getProcess_eq_ok hP) rfl rfl
      exact ⟨own_running hown hmode, hsp⟩
  | execve useresp =>
    refine hspares (yields_read fun T hT => yields_read fun P hP => ?_)
    obtain ⟨hown, hsp⟩ := hsets (R := { P with signals := ⟨fun _ => sigDfl, fun _ => 0, []⟩ }) (getProcess_eq_ok hP) rfl rfl
    have hT := getThread_eq_ok hT
    exact ⟨own_running (hown.setThread hT rfl fun p hs => hk.saved c T p hT hs) hmode, hsp⟩
  | free p =>
    refine hspares (yields_read fun P _ => ?_)
    split
    · exact hk.freeProcess.imp fun k' h' => ⟨own_running h'.1 (h'.2.1.trans hmode), h'.2.2⟩
    · trivial
  | returnFromSignal => exact hspares hk.returnFromSignal
  | user useresp =>
    refine hspares (yields_read fun T hT => ?_)
    have hT := getThread_eq_ok hT
    exact ⟨own_running (hk.setThread hT rfl fun p hs => hk.saved c T p hT hs) hmode, fun p hp => hp⟩
  | iret => exact ⟨⟨hk.congr rfl rfl rfl, trivial⟩, fun p hp => .inl hp⟩
  | go => trivial

-- ---------------------------------------------------------------------------
-- Signals that end a process
-- ---------------------------------------------------------------------------

theorem Owned.handle (hk : k.Owned) {go : Mode}
    (hsaved : ∀ p, saved = .signalling p → c < k.nextTid ∧ ∀ C, k.thread c = some C → C.proc = p)
    (hgo : ∀ p P, ({ k.setProcess p P with mode := go } : Kernel).Placed) :
    Yields (k.handle c th saved go) (fun _ => True) fun k' => k'.Own ∧ (k.endsProcess th = false → Spares k k') ∧
      (k.endsProcess th = true → ∃ C, k.thread c = some C ∧ k'.Finished C.proc ∧ ∀ p, k'.Finished p → p = C.proc ∨ k.Finished p) := by
  refine yields_read fun T hT => yields_read fun P hP => ?_
  have hP := getProcess_eq_ok hP
  unfold endsProcess
  rw [pending_eq (getThread_eq_ok hT) hP]
  generalize handleSignals P.signals T.useresp = d
  obtain ⟨dispatch, signals⟩ := d
  have hset : (k.setProcess T.proc { P with signals := signals }).Owned := hk.setProcess (hk.owner _ P hP)
  have hspares : Spares k (k.setProcess T.proc { P with signals := signals }) := Spares.setProcess (Same.refl k).spares fun h => ⟨P, hP, h⟩
  have hgoes : ({ k.setProcess T.proc { P with signals := signals } with mode := go } : Kernel).Own := ⟨hset.congr rfl rfl rfl, hgo _ _⟩
  cases dispatch with
  | none => exact ⟨hgoes, fun _ => hspares, fun h => by cases h⟩
  | some d =>
    cases d with
    | ignore => exact ⟨hgoes, fun _ => hspares, fun h => by cases h⟩
    | default signum =>
      simp only
      split
      · next hterm =>
        refine hset.exit.imp ?_
        rintro k' ⟨hown, C, hC, hfin, hothers⟩
        exact ⟨hown, (fun h => by cases hterm.symm.trans h), fun _ => ⟨C, hC, hfin, fun p hp => (hothers p hp).imp_right (hspares p)⟩⟩
      · next hterm =>
        split
        · exact ⟨hgoes, fun _ => hspares, fun h => absurd h hterm⟩
        · trivial
    | custom h =>
      exact (hset.startHandler hsaved).imp fun k' h' => ⟨h'.1, fun _ p hp => hspares p (h'.2 p hp), fun h => by cases h⟩

theorem Owned.handle_right (hk : k.Owned) {go : Mode} (hth : k.handled a = some th)
    (hsaved : ∀ p, saved = .signalling p → c < k.nextTid ∧ ∀ C, k.thread c = some C → C.proc = p)
    (hgo : ∀ p P, ({ k.setProcess p P with mode := go } : Kernel).Placed)
    (hown : k.endsProcess th = true → ∀ C, k.thread c = some C → k.procOf th = some C.proc) :
    Yields (k.handle c th saved go) (fun _ => True) fun k' => k'.Own ∧ SignalsRight k a k' := by
  refine (hk.handle hsaved hgo).imp ?_
  rintro k' ⟨hown', hspares, hends⟩
  refine ⟨hown', fun u hu hu' p hp => ?_, fun p hp => ?_⟩
  · obtain rfl := Option.some.inj (hth.symm.trans hu)
    obtain ⟨C, hC, hfin, -⟩ := hends hu'
    obtain rfl := Option.some.inj ((hown hu' C hC).symm.trans hp)
    exact hfin
  · cases h : k.endsProcess th with
    | false => exact .inl (hspares h p hp)
    | true =>
      obtain ⟨C, hC, -, hothers⟩ := hends h
      refine (hothers p hp).symm.imp_right fun hpC => .inl ⟨th, hth, h, ?_⟩
      rw [hpC]
      exact hown h C hC

theorem Own.carryOut (hk : k.Own) (ha : Proper k a) : Yields (k.carryOut a) (fun _ => True) fun k' => k'.Own ∧ SignalsRight k a k' := by
  obtain ⟨hown, hplace⟩ := hk
  unfold Kernel.carryOut
  unfold Placed at hplace
  cases hmode : k.mode with
  | running c =>
    simp only
    split
    · trivial
    · have hnone : k.handled a = none := by simp only [handled, hmode]
      refine (hown.call hmode ha).imp fun k' h' => ⟨h'.1, fun th hth => ?_, fun p hp => ?_⟩
      · cases hnone.symm.trans hth
      · exact (h'.2 p hp).imp_right fun h => .inr ⟨h.1, c, by simp only [current, hmode, Option.mem_def], h.2⟩
  | posted c p =>
    rw [hmode] at hplace
    simp only
    split
    · next ha =>
      subst ha
      cases hC : k.thread c with
      | none =>
        rw [Kernel.handle, getThread, hC]
        trivial
      | some C =>
        refine hown.handle_right (by simp only [handled, hmode]) (fun q hq => ?_) (fun q P => .inl hplace) fun _ C hC => ?_
        · cases hq
          exact ⟨hown.fresh c C hC, hplace⟩
        · rw [procOf, hC]
          rfl
    · trivial
  | signalling c p =>
    rw [hmode] at hplace
    simp only
    split
    · next ha =>
      subst ha
      split
      · next th hth =>
        refine hown.handle_right (by simp only [handled, hmode, hth]) (fun _ hs => by cases hs) (fun _ _ => trivial) fun hends C hC => ?_
        rcases hplace with hproc | hnot
        · obtain ⟨T, P, hT, -, hP, hmem⟩ := sleeper_eq_some hth
          rw [procOf, hT, hproc C hC]
          exact congrArg some ((hown.owner p P hP th hmem).2 T hT)
        · cases (hnot th hth).symm.trans hends
      · next hnone =>
        have hhandled : k.handled .go = none := by simp only [handled, hmode, hnone]
        exact ⟨⟨hown.congr rfl rfl rfl, trivial⟩, (fun th hth => by cases hhandled.symm.trans hth), fun p hp => .inl hp⟩
    · trivial
  | returning c th =>
    unfold Proper at ha
    rw [hmode] at ha
    simp only
    split
    · next hgo =>
      subst hgo
      refine hown.handle_right (by simp only [handled, hmode]) (fun q hq => ?_) (fun _ _ => trivial) fun hends C hC => ?_
      · split at hq <;> cases hq
      · rw [← ha hends, procOf, hC]
        rfl
    · trivial
  | halted => trivial

theorem Booted.own (hk : Booted k) : k.Own := by
  obtain ⟨useresp, rfl⟩ := hk
  refine ⟨?_, trivial⟩
  constructor
  all_goals
    simp only [Kernel.boot, Function.update_apply]
    grind

theorem signals_end_target (hk : Reach step Proper Booted k) (ha : Proper k a) (h : step k a = some k') : SignalsRight k a k' := by
  have hown : k.Own := hk.invariant (fun _ => Booted.own) fun _ _ _ hk hok hstep => ((hk.carryOut hok).of_eq_ok (step_eq_some.mp hstep)).1
  exact ((hown.carryOut ha).of_eq_ok (step_eq_some.mp h)).2

end

/-- A process with two children. The second one sends the first, which has run and waits for its turn, a
signal, and the first one is run again and returns to user mode. -/
def killReady : List Act :=
  [.schedule, .go, .fork, .fork, .schedule, .schedule, .go, .schedule, .go, .kill 2 15, .go, .schedule, .schedule, .schedule, .iret]

theorem killReady_ends_target : ∃ k k', exec step (boot 0x1000) killReady = some k ∧ step k .go = some k' ∧
    k.handled .go = some 3 ∧ k.endsProcess 3 = true ∧ SignalsRight k .go k' := by
  have hproper : Along step Proper (boot 0x1000) killReady := by decide +kernel
  have hrun : (exec step (boot 0x1000) killReady).any (fun k => (step k .go).isSome && decide (Proper k .go) &&
      decide (k.handled .go = some 3) && k.endsProcess 3) = true := by
    decide +kernel
  obtain ⟨k, hk, htest⟩ := (Option.any_eq_true _ _).mp hrun
  simp only [Bool.and_eq_true, decide_eq_true_eq] at htest
  obtain ⟨⟨⟨hstep, ha⟩, hhandled⟩, hends⟩ := htest
  obtain ⟨k', hk'⟩ := Option.isSome_iff_exists.mp hstep
  exact ⟨k, k', hk, hk', hhandled, hends, signals_end_target ((Reach.start ⟨0x1000, rfl⟩).along hproper hk) ha hk'⟩

def killSleeping : List Act :=
  [.schedule, .go, .fork, .fork, .schedule, .schedule, .go, .sleep (.pipe 0), .go, .kill 2 15]

/-- The signal to process 2 ends process 3, which has sent it, and not process 2. -/
theorem killSleeping_ends_sender : ∃ k k', exec step (boot 0x1000) killSleeping = some k ∧ step k .go = some k' ∧
    k.handled .go = some 3 ∧ k.endsProcess 3 = true ∧ k.procOf 3 = some 2 ∧ ¬k'.Finished 2 ∧ ¬k.Finished 3 ∧ k'.Finished 3 ∧
    ¬SignalsRight k .go k' := by
  have hrun : (exec step (boot 0x1000) killSleeping).any (fun k => decide (k.handled .go = some 3) && k.endsProcess 3 &&
      decide (k.procOf 3 = some 2) && !decide (k.Finished 3) &&
      (step k .go).any fun k' => !decide (k'.Finished 2) && decide (k'.Finished 3)) = true := by
    decide +kernel
  obtain ⟨k, hk, htest⟩ := (Option.any_eq_true _ _).mp hrun
  simp only [Bool.and_eq_true, Bool.not_eq_true', decide_eq_true_eq, decide_eq_false_iff_not, Option.any_eq_true] at htest
  obtain ⟨⟨⟨⟨hhandled, hends⟩, hproc⟩, hbefore⟩, k', hk', h2, h3⟩ := htest
  exact ⟨k, k', hk, hk', hhandled, hends, hproc, h2, hbefore, h3, fun h => h2 (h.target 3 hhandled hends 2 hproc)⟩

end Os5.Switching.Kernel
