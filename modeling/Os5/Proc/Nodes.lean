import Os5.Proc.Switching

/-!
# The lists of threads that take turns

`Sound`: each node is on the list it points to, once. Every operation of the scheduler keeps it when it
is not used on a node that is on a list, and so does a switch from one thread to another.
-/

namespace Os5.Switching.Kernel

open Outcome Transition

-- ---------------------------------------------------------------------------
-- Nodes and lists
-- ---------------------------------------------------------------------------

/-- Each node is on the list it points to, once, and the idle thread is only ever in the run queue. -/
structure Sound (k : Kernel) (o : Option Nat) : Prop where
  nodup : ∀ h, (k.lists h).Nodup
  on : ∀ th T h, k.thread th = some T → T.on = some h → th ∈ k.lists h
  listed : ∀ h, ∀ th ∈ k.lists h, ∃ T, k.thread th = some T ∧ T.on = some h
  fresh : ∀ th T, k.thread th = some T → th < k.nextTid
  owner : ∀ p P, k.process p = some P → ∀ th ∈ P.threads, th < k.nextTid ∧ ∀ T, k.thread th = some T → T.proc = p
  saved : ∀ th T, k.thread th = some T → (∀ n, T.saved ≠ .handling n) ∧ (some th ≠ o → T.state = .finished → T.saved = .exited)
  boot : ∃ B, k.thread bootThread = some B ∧ B.proc = firstProcess ∧ B.state = .ready ∧ B.saved = .kernel ∧
    (B.on = none ∨ B.on = some .runQueue)

section
variable {k k' : Kernel} {th u c n p : Nat} {h : Head} {T C : Thread} {saved : Saved} {ths l : List Nat} {a : Act}
  {put : List Nat → List Nat} {o : Option Nat}

@[simp] theorem setThread_self : (k.setThread th T).thread th = some T := Function.update_self _ _ _

theorem setThread_of_ne (hu : u ≠ th) : (k.setThread th T).thread u = k.thread u := Function.update_of_ne hu _ _

theorem getThread_ok (hT : k.thread th = some T) : k.getThread th = .ok T := by rw [getThread, hT]

theorem getProcess_ok {P : Process} (hP : k.process p = some P) : k.getProcess p = .ok P := by rw [getProcess, hP]

theorem Sound.setThread (hk : k.Sound o) {T' : Thread} (hT : k.thread th = some T) (hon : T'.on = T.on) (hproc : T'.proc = T.proc)
    (hsaved : (∀ n, T'.saved ≠ .handling n) ∧ (some th ≠ o → T'.state = .finished → T'.saved = .exited))
    (hboot : th = bootThread → T'.state = .ready ∧ T'.saved = .kernel) : (k.setThread th T').Sound o := by
  obtain ⟨hnodup, hon', hlisted, hfresh, howner, hsaved', B, hB, hfirst, hready, hkernel, hqueue⟩ := hk
  constructor
  case boot =>
    by_cases hth : th = bootThread
    · subst hth
      obtain rfl := Option.some.inj (hB.symm.trans hT)
      exact ⟨T', setThread_self, hproc.trans hfirst, (hboot rfl).1, (hboot rfl).2, hon ▸ hqueue⟩
    · exact ⟨B, (setThread_of_ne (Ne.symm hth)).trans hB, hfirst, hready, hkernel, hqueue⟩
  all_goals
    simp only [Kernel.setThread, Function.update_apply] at *
    grind

theorem Sound.schedulerRemove (hk : k.Sound o) (th : Nat) : (k.schedulerRemove th).Sound o := by
  unfold Kernel.schedulerRemove
  split
  · next T hT =>
    split
    · next h hon =>
      obtain ⟨hnodup, hon', hlisted, hfresh, howner, hsaved, B, hB, hfirst, hready, hkernel, hqueue⟩ := hk
      constructor
      case boot =>
        by_cases hth : th = bootThread
        · subst hth
          obtain rfl := Option.some.inj (hB.symm.trans hT)
          exact ⟨{ B with on := none }, by simp [Kernel.setThread], hfirst, hready, hkernel, .inl rfl⟩
        · exact ⟨B, (setThread_of_ne (Ne.symm hth)).trans hB, hfirst, hready, hkernel, hqueue⟩
      case nodup =>
        intro h'
        simp only [Function.update_apply]
        split
        · exact (hnodup h).erase th
        · exact hnodup h'
      all_goals
        simp only [Kernel.setThread, Function.update_apply] at *
        grind
    · exact hk
  · exact hk

def inserted (k : Kernel) (h : Head) (th : Nat) (put : List Nat → List Nat) (T : Thread) : Kernel :=
  { k.setThread th { T with on := some h } with lists := Function.update k.lists h (put (k.lists h)) }

theorem insertAt_ok (hT : k.thread th = some T) (hon : T.on = none) :
    k.insertAt h th put = .ok (k.inserted h th put T) := by
  rw [insertAt, getThread_ok hT]
  exact if_pos hon

theorem append_ok (hT : k.thread th = some T) (hon : T.on = none) :
    k.append h th = .ok (k.inserted h th (· ++ [th]) T) := insertAt_ok hT hon

structure PutsAtEnd (th : Nat) (put : List Nat → List Nat) : Prop where
  mem : ∀ l u, u ∈ put l ↔ u ∈ l ∨ u = th
  nodup : ∀ l : List Nat, l.Nodup → th ∉ l → (put l).Nodup

theorem putsAtEnd_append (th : Nat) : PutsAtEnd th (· ++ [th]) where
  mem l u := by simp
  nodup l hl hth := List.nodup_append.mpr ⟨hl, List.nodup_singleton th, fun a ha b hb hab => by
    obtain rfl := List.mem_singleton.mp hb
    exact hth (hab ▸ ha)⟩

theorem putsAtEnd_cons (th : Nat) : PutsAtEnd th (th :: ·) where
  mem l u := by simp [or_comm]
  nodup l hl hth := List.nodup_cons.mpr ⟨hth, hl⟩

theorem Sound.notMem (hk : k.Sound o) (hT : k.thread th = some T) (hon : T.on = none) (h : Head) : th ∉ k.lists h := by
  intro hmem
  obtain ⟨U, hU, hUon⟩ := hk.listed h th hmem
  obtain rfl := Option.some.inj (hT.symm.trans hU)
  cases hon.symm.trans hUon

theorem Sound.inserted (hk : k.Sound o) (hput : PutsAtEnd th put) (hT : k.thread th = some T) (hon : T.on = none)
    (hboot : th = bootThread → h = .runQueue) : (k.inserted h th put T).Sound o := by
  have hnot := hk.notMem hT hon
  obtain ⟨hmem, hends⟩ := hput
  obtain ⟨hnodup, hon', hlisted, hfresh, howner, hsaved, B, hB, hfirst, hready, hkernel, hqueue⟩ := hk
  constructor
  case boot =>
    by_cases hth : th = bootThread
    · subst hth
      obtain rfl := Option.some.inj (hB.symm.trans hT)
      obtain rfl := hboot rfl
      exact ⟨{ B with on := some .runQueue }, by simp [Kernel.inserted, Kernel.setThread], hfirst, hready, hkernel, .inr rfl⟩
    · exact ⟨B, (setThread_of_ne (Ne.symm hth)).trans hB, hfirst, hready, hkernel, hqueue⟩
  case nodup =>
    intro h'
    simp only [Kernel.inserted, Function.update_apply]
    split
    · exact hends _ (hnodup h) (hnot h)
    · exact hnodup h'
  all_goals
    simp only [Kernel.inserted, Kernel.setThread, Function.update_apply] at *
    grind

theorem schedulerRemove_thread (k : Kernel) (th u : Nat) : (k.schedulerRemove th).thread u =
    if u = th then (k.thread u).map fun T => { T with on := none } else k.thread u := by
  unfold Kernel.schedulerRemove
  split
  · next T hT =>
    split
    · next h hon =>
      simp only [Kernel.setThread, Function.update_apply]
      grind
    · next hon =>
      by_cases hu : u = th
      · rw [if_pos hu, hu, hT, Option.map_some, ← hon]
      · rw [if_neg hu]
  · next hnone =>
    by_cases hu : u = th
    · rw [if_pos hu, hu, hnone]
      rfl
    · rw [if_neg hu]

theorem setState_eq {st : ThreadState} (hT : k.thread th = some T) : k.setState th st = k.setThread th { T with state := st } := by
  rw [setState, hT]
  rfl

/-- Fields that the lists and threads have no part in. -/
structure SameRest (k k' : Kernel) : Prop where
  process : k'.process = k.process
  nextTid : k'.nextTid = k.nextTid
  mode : k'.mode = k.mode

theorem SameRest.trans {k'' : Kernel} (h : SameRest k k') (h' : SameRest k' k'') : SameRest k k'' :=
  ⟨h'.process.trans h.process, h'.nextTid.trans h.nextTid, h'.mode.trans h.mode⟩

theorem schedulerRemove_rest (k : Kernel) (th : Nat) : SameRest k (k.schedulerRemove th) := by
  unfold Kernel.schedulerRemove
  split
  · split <;> exact ⟨rfl, rfl, rfl⟩
  · exact ⟨rfl, rfl, rfl⟩

theorem schedulerRemove_self (hT : k.thread th = some T) : (k.schedulerRemove th).thread th = some { T with on := none } := by
  rw [schedulerRemove_thread, if_pos rfl, hT]
  rfl

structure Moved (k : Kernel) (o : Option Nat) (th : Nat) (h : Head) (st : ThreadState) (k' : Kernel) : Prop where
  sound : k'.Sound o
  thread : ∀ u, k'.thread u = if u = th then (k.thread u).map fun T => { T with on := some h, state := st } else k.thread u
  rest : SameRest k k'

theorem Sound.schedulerSleep (hk : k.Sound o) (hT : k.thread th = some T) (hth : th ≠ bootThread) (h : Head) :
    ∃ k', k.schedulerSleep th h = .ok k' ∧ Moved k o th h .waiting k' := by
  have hremoved := schedulerRemove_self hT
  have hstate := @setState_eq _ _ _ .waiting hremoved
  have hsound : ((k.schedulerRemove th).setState th .waiting).Sound o := by
    rw [hstate]
    exact (hk.schedulerRemove th).setThread hremoved rfl rfl ⟨(hk.saved th T hT).1, nofun⟩ fun hb => absurd hb hth
  have hself : ((k.schedulerRemove th).setState th .waiting).thread th = some { T with on := none, state := .waiting } := by
    rw [hstate, setThread_self]
  refine ⟨_, append_ok hself rfl, hsound.inserted (putsAtEnd_append th) hself rfl fun hb => absurd hb hth, fun u => ?_, ?_⟩
  · by_cases hu : u = th
    · rw [if_pos hu, hu, hT]
      exact setThread_self
    · rw [if_neg hu]
      have hfar := schedulerRemove_thread k th u
      rw [if_neg hu] at hfar
      rw [← hfar]
      exact (setThread_of_ne hu).trans (congrArg (fun k : Kernel => k.thread u) hstate |>.trans (setThread_of_ne hu))
  · rw [hstate]
    exact (schedulerRemove_rest k th).trans ⟨rfl, rfl, rfl⟩

theorem Sound.wakeTurn (hk : k.Sound o) (hT : k.thread th = some T) (hth : th ≠ bootThread) :
    ∃ k', k.wakeTurn th = .ok k' ∧ Moved k o th .runQueue .ready k' := by
  have hremoved := schedulerRemove_self hT
  have hsound := (hk.schedulerRemove th).inserted (putsAtEnd_append th) hremoved rfl fun _ => (rfl : Head.runQueue = .runQueue)
  have hself : (Kernel.inserted (k.schedulerRemove th) .runQueue th (· ++ [th]) { T with on := none }).thread th =
      some { T with on := some .runQueue } := setThread_self
  refine ⟨_, bind_ok.mpr ⟨_, append_ok hremoved rfl, rfl⟩, ?_, fun u => ?_, ?_⟩
  · rw [setState_eq hself]
    exact hsound.setThread hself rfl rfl ⟨(hk.saved th T hT).1, nofun⟩ fun hb => absurd hb hth
  · rw [setState_eq hself]
    by_cases hu : u = th
    · rw [if_pos hu, hu, hT]
      exact setThread_self
    · rw [if_neg hu]
      have hfar := schedulerRemove_thread k th u
      rw [if_neg hu] at hfar
      rw [← hfar]
      exact (setThread_of_ne hu).trans (setThread_of_ne hu)
  · exact (schedulerRemove_rest k th).trans ⟨rfl, rfl, rfl⟩

structure Woken (k : Kernel) (o : Option Nat) (l : List Nat) (k' : Kernel) : Prop where
  sound : k'.Sound o
  thread : ∀ u, k'.thread u =
    if u ∈ l then (k.thread u).map fun T => { T with on := some .runQueue, state := .ready } else k.thread u
  rest : SameRest k k'

theorem Sound.wakeTurns (hk : k.Sound o) (hl : ∀ u ∈ l, u ≠ bootThread ∧ ∃ T, k.thread u = some T) :
    ∃ k', l.foldlM Kernel.wakeTurn k = .ok k' ∧ Woken k o l k' := by
  induction l generalizing k with
  | nil => exact ⟨k, rfl, hk, fun u => rfl, rfl, rfl, rfl⟩
  | cons th l ih =>
    obtain ⟨⟨hth, T, hT⟩, hl⟩ := List.forall_mem_cons.mp hl
    obtain ⟨k1, hturn, hmoved⟩ := hk.wakeTurn hT hth
    have hl1 : ∀ u ∈ l, u ≠ bootThread ∧ ∃ T, k1.thread u = some T := by
      intro u hu
      obtain ⟨hub, U, hU⟩ := hl u hu
      rw [hmoved.thread, hU]
      refine ⟨hub, ?_⟩
      split
      · exact ⟨_, rfl⟩
      · exact ⟨U, rfl⟩
    obtain ⟨k', hrest, hwoken⟩ := ih hmoved.sound hl1
    refine ⟨k', bind_ok.mpr ⟨k1, hturn, hrest⟩, hwoken.sound, fun u => ?_, hmoved.rest.trans hwoken.rest⟩
    rw [hwoken.thread, hmoved.thread]
    by_cases hu : u = th
    · subst hu
      rw [hT]
      by_cases hul : u ∈ l <;> simp [hul]
    · by_cases hul : u ∈ l <;> simp [hul, hu]

theorem Sound.ne_boot (hk : k.Sound o) (hh : h ≠ .runQueue) (hth : th ∈ k.lists h) : th ≠ bootThread := by
  rintro rfl
  obtain ⟨T, hT, hon⟩ := hk.listed h _ hth
  obtain ⟨B, hB, -, -, -, hqueue⟩ := hk.boot
  obtain rfl := Option.some.inj (hT.symm.trans hB)
  rcases hqueue with hnone | hrun
  · cases hon.symm.trans hnone
  · exact hh (Option.some.inj (hon.symm.trans hrun))

theorem Sound.schedulerWake (hk : k.Sound o) (hh : h ≠ .runQueue) :
    ∃ k', k.schedulerWake h = .ok k' ∧ Woken k o (k.lists h) k' :=
  hk.wakeTurns fun u hu => ⟨hk.ne_boot hh hu, (hk.listed h u hu).imp fun _ hT => hT.1⟩

-- ---------------------------------------------------------------------------
-- Threads that come and go
-- ---------------------------------------------------------------------------

theorem Sound.freeThread (hk : k.Sound o) (hth : th ≠ bootThread) : (k.freeThread th).Sound o := by
  have hremove := hk.schedulerRemove th
  have hthread := schedulerRemove_thread k th
  have hrest := schedulerRemove_rest k th
  have hnot : ∀ h, th ∉ (k.schedulerRemove th).lists h := by
    intro h hmem
    obtain ⟨T, hT, hon⟩ := hremove.listed h th hmem
    rw [hthread, if_pos rfl] at hT
    obtain ⟨U, -, rfl⟩ := Option.map_eq_some_iff.mp hT
    cases hon
  obtain ⟨hnodup, hon, hlisted, hfresh, howner, hsaved, B, hB, hboot⟩ := hremove
  constructor
  case boot => exact ⟨B, (Function.update_of_ne (Ne.symm hth) _ _).trans hB, hboot⟩
  case owner =>
    intro p P hP u hu
    obtain ⟨Q, hQ, rfl⟩ := Option.map_eq_some_iff.mp hP
    obtain ⟨hlt, hproc⟩ := howner p Q hQ u (List.mem_of_mem_erase hu)
    refine ⟨hlt, fun U hU => ?_⟩
    simp only [Kernel.freeThread, Function.update_apply] at hU
    split at hU
    · cases hU
    · exact hproc U hU
  all_goals
    simp only [Kernel.freeThread, Function.update_apply] at *
    grind

/-- What freeing a list of threads leaves. -/
structure Freed (k : Kernel) (o : Option Nat) (l : List Nat) (k' : Kernel) : Prop where
  sound : k'.Sound o
  thread : ∀ u, k'.thread u = if u ∈ l then none else k.thread u
  process : ∀ p, k'.process p = (k.process p).map fun P => { P with threads := l.foldl List.erase P.threads }
  rest : k'.nextTid = k.nextTid ∧ k'.mode = k.mode

theorem Sound.freeThreads (hk : k.Sound o) (hl : bootThread ∉ l) : Freed k o l (l.foldl Kernel.freeThread k) := by
  induction l generalizing k with
  | nil =>
    refine ⟨hk, fun u => rfl, fun p => ?_, rfl, rfl⟩
    exact (congrFun Option.map_id (k.process p)).symm
  | cons th l ih =>
    obtain ⟨hth, hl⟩ := List.ne_and_not_mem_of_not_mem_cons hl
    obtain ⟨hsound, hthread, hprocess, htid, hmode⟩ := ih (hk.freeThread (Ne.symm hth)) hl
    have hrest := schedulerRemove_rest k th
    refine ⟨hsound, fun u => ?_, fun p => ?_, htid.trans hrest.nextTid, hmode.trans hrest.mode⟩
    · rw [List.foldl_cons, hthread]
      simp only [Kernel.freeThread, Function.update_apply, schedulerRemove_thread, List.mem_cons]
      grind
    · rw [List.foldl_cons, hprocess]
      simp only [Kernel.freeThread, hrest.process, Option.map_map, List.foldl_cons]
      rfl

theorem Sound.cleanThreads (hk : k.Sound o) (c p : Nat) : ∃ l, Freed k o l (k.cleanThreads c p) ∧
    ∀ u ∈ l, u ≠ c ∧ ∃ T, k.thread u = some T ∧ T.state = .finished := by
  unfold Kernel.cleanThreads
  split
  · next P hP =>
    have hmem : ∀ u ∈ P.threads.filter fun th => decide (th ≠ c) && (k.thread th).any fun T => T.state = .finished,
        u ≠ c ∧ ∃ T, k.thread u = some T ∧ T.state = .finished := by
      intro u hu
      have hu := (List.mem_filter.mp hu).2
      rw [Bool.and_eq_true] at hu
      obtain ⟨T, hT, hfin⟩ := (Option.any_eq_true _ _).mp hu.2
      exact ⟨of_decide_eq_true hu.1, T, hT, of_decide_eq_true hfin⟩
    refine ⟨_, hk.freeThreads fun hb => ?_, hmem⟩
    obtain ⟨-, T, hT, hfin⟩ := hmem _ hb
    obtain ⟨B, hB, -, hready, -⟩ := hk.boot
    obtain rfl := Option.some.inj (hT.symm.trans hB)
    cases hfin.symm.trans hready
  · exact ⟨[], hk.freeThreads List.not_mem_nil, nofun⟩

-- ---------------------------------------------------------------------------
-- A switch
-- ---------------------------------------------------------------------------

/-- A thread that can be left or run: it is on no list. -/
def Up (k : Kernel) (c : Nat) : Prop := ∃ C, k.thread c = some C ∧ C.on = none ∧ C.saved ≠ .exited

/-- What holds of the threads that the processor is in. -/
def At (k : Kernel) : Prop :=
  match k.mode with
  | .running c => k.Up c
  | .posted c _ => k.Up c ∧ c ≠ bootThread
  | .signalling c _ => k.Up c ∧ c ≠ bootThread
  | .returning c th => k.Up th ∧ th ≠ bootThread ∧ ∃ C, k.thread c = some C
  | .halted => True

/-- No thread that sleeps for another one is woken, none that has ended goes on, and new threads handle no signal. -/
structure Quiet (k k' : Kernel) : Prop where
  nextTid : k.nextTid ≤ k'.nextTid
  thread : ∀ u U', k'.thread u = some U' →
    (∃ U, k.thread u = some U ∧ U'.handles = U.handles ∧ (U'.saved ≠ .exited → U.saved ≠ .exited) ∧
      ∀ th, U.on = some (.thread th) → U'.on = some (.thread th) ∧ (U'.state = .ready → U.state = .ready)) ∨
    (k.nextTid ≤ u ∧ U'.handles = none)

theorem Quiet.refl (k : Kernel) : Quiet k k :=
  ⟨le_rfl, fun _ U hU => .inl ⟨U, hU, rfl, id, fun _ h => ⟨h, id⟩⟩⟩

theorem Quiet.trans {k'' : Kernel} (h : Quiet k k') (h' : Quiet k' k'') : Quiet k k'' := by
  refine ⟨h.nextTid.trans h'.nextTid, fun u U'' hU'' => ?_⟩
  rcases h'.thread u U'' hU'' with ⟨U', hU', hhandles', hlive', hon'⟩ | ⟨hnew, hhandles⟩
  · rcases h.thread u U' hU' with ⟨U, hU, hhandles, hlive, hon⟩ | ⟨hnew, hhandles⟩
    · refine .inl ⟨U, hU, hhandles'.trans hhandles, hlive ∘ hlive', fun th hth => ?_⟩
      exact ⟨(hon' th (hon th hth).1).1, (hon th hth).2 ∘ (hon' th (hon th hth).1).2⟩
    · exact .inr ⟨hnew, hhandles'.trans hhandles⟩
  · exact .inr ⟨h.nextTid.trans hnew, hhandles⟩

theorem quiet_of_thread {T' : Thread} (hT : k.thread th = some T) (htid : k'.nextTid = k.nextTid)
    (hthread : ∀ u, k'.thread u = if u = th then some T' else k.thread u) (hhandles : T'.handles = T.handles)
    (hlive : T'.saved ≠ .exited → T.saved ≠ .exited)
    (hon : ∀ u, T.on = some (.thread u) → T'.on = some (.thread u) ∧ (T'.state = .ready → T.state = .ready)) : Quiet k k' := by
  refine ⟨htid.ge, fun u U' hU' => .inl ?_⟩
  rw [hthread] at hU'
  split at hU'
  · next hu =>
    obtain rfl := Option.some.inj hU'
    exact ⟨T, hu ▸ hT, hhandles, hlive, hon⟩
  · exact ⟨U', hU', rfl, id, fun _ h => ⟨h, id⟩⟩

theorem quiet_setThread {T' : Thread} (hT : k.thread th = some T) (hhandles : T'.handles = T.handles)
    (hlive : T'.saved ≠ .exited → T.saved ≠ .exited)
    (hon : ∀ u, T.on = some (.thread u) → T'.on = some (.thread u) ∧ (T'.state = .ready → T.state = .ready)) :
    Quiet k (k.setThread th T') :=
  quiet_of_thread hT rfl (fun u => Function.update_apply _ _ _ u) hhandles hlive hon

theorem Freed.quiet (h : Freed k o l k') : Quiet k k' := by
  refine ⟨h.rest.1.ge, fun u U' hU' => .inl ?_⟩
  rw [h.thread] at hU'
  split at hU'
  · cases hU'
  · exact ⟨U', hU', rfl, id, fun _ hon => ⟨hon, id⟩⟩

/-- What holds again after a step, or a part of one. -/
structure Kept (k : Kernel) (k' : Kernel) : Prop where
  sound : k'.Sound none
  place : k'.At
  quiet : Quiet k k'

theorem Sound.next (hk : k.Sound o) : ∃ N, k.thread ((k.lists .runQueue).head?.getD bootThread) = some N ∧
    let next := (k.lists .runQueue).head?.getD bootThread
    let k' := if (k.lists .runQueue).isEmpty then k else k.schedulerRemove next
    k'.Sound o ∧ k'.thread next = some { N with on := none } ∧ Quiet k k' ∧ ∀ u, k.thread u ≠ none → k'.thread u ≠ none := by
  cases hl : k.lists .runQueue with
  | nil =>
    obtain ⟨B, hB, -, -, -, hqueue⟩ := hk.boot
    have hon : B.on = none := hqueue.resolve_right fun hrun => by
      have hmem := hk.on _ B _ hB hrun
      rw [hl] at hmem
      cases hmem
    refine ⟨B, hB, hk, ?_, Quiet.refl k, fun _ hu => hu⟩
    rw [← hon]
    exact hB
  | cons next rest =>
    obtain ⟨N, hN, hon⟩ := hk.listed .runQueue next (hl ▸ List.mem_cons_self)
    have hthread : ∀ u, (k.schedulerRemove next).thread u = if u = next then some { N with on := none } else k.thread u := by
      intro u
      rw [schedulerRemove_thread]
      by_cases hu : u = next
      · rw [if_pos hu, if_pos hu, hu, hN]
        rfl
      · rw [if_neg hu, if_neg hu]
    refine ⟨N, hN, hk.schedulerRemove next, schedulerRemove_self hN, ?_, fun u hu => ?_⟩
    · refine quiet_of_thread hN (schedulerRemove_rest k next).nextTid hthread rfl id fun u hu => ?_
      cases hon.symm.trans hu
    · rw [List.isEmpty_cons, if_neg Bool.false_ne_true, List.head?_cons, Option.getD_some, hthread]
      split
      · nofun
      · exact hu

theorem Sound.requeue (hk : k.Sound o) (hC : k.thread c = some C) (hready : C.state = .ready → C.on = none) :
    ∃ k', k.requeue c C.state = .ok k' ∧ k'.Sound o ∧ Quiet k k' ∧ k'.thread c ≠ none := by
  rw [Kernel.requeue]
  by_cases hst : C.state = .ready
  · rw [if_pos hst]
    have hon := hready hst
    have hself : (k.inserted .runQueue c (· ++ [c]) C).thread c = some { C with on := some .runQueue } := setThread_self
    refine ⟨_, append_ok hC hon, hk.inserted (putsAtEnd_append c) hC hon fun _ => rfl, ?_, fun hnone => by cases hself.symm.trans hnone⟩
    refine quiet_of_thread hC rfl (fun u => Function.update_apply _ _ _ u) rfl id fun u hu => ?_
    cases hon.symm.trans hu
  · rw [if_neg hst]
    exact ⟨k, rfl, hk, Quiet.refl k, fun hnone => by cases hC.symm.trans hnone⟩

theorem Sound.withMode (hk : k.Sound o) (m : Mode) : ({ k with mode := m } : Kernel).Sound o :=
  ⟨hk.nodup, hk.on, hk.listed, hk.fresh, hk.owner, hk.saved, hk.boot⟩

theorem Sound.at_restore (hk : k.Sound o) {N : Thread} (hN : k.thread n = some N) (hon : N.on = none) (hc : k.thread c ≠ none)
    (hmode : k.mode = restore c n N.saved) : k.At := by
  have hup : N.saved ≠ .exited → k.Up n := fun hne => ⟨N, hN, hon, hne⟩
  have hboot : N.saved ≠ .kernel → n ≠ bootThread := by
    rintro hne rfl
    obtain ⟨B, hB, -, -, hkernel, -⟩ := hk.boot
    obtain rfl := Option.some.inj (hB.symm.trans hN)
    exact hne hkernel
  rw [At, hmode]
  cases hs : N.saved with
  | user => exact ⟨hup (by simp [hs]), hboot (by simp [hs]), Option.ne_none_iff_exists'.mp hc⟩
  | kernel => exact hup (by simp [hs])
  | signalling p => exact ⟨hup (by simp [hs]), hboot (by simp [hs])⟩
  | handling th => exact absurd hs ((hk.saved n N hN).1 th)
  | exited => exact trivial

theorem Kept.after {k1 : Kernel} (hq : Quiet k k1) (h : Kept k1 k') : Kept k k' := ⟨h.sound, h.place, hq.trans h.quiet⟩

theorem Sound.switch (hk : (k.setThread c { C with saved := saved }).Sound none) (hC : k.thread c = some C)
    (hready : C.state = .ready → C.on = none) :
    ∃ k', k.switchKernelThread c saved = .ok k' ∧ Kept (k.setThread c { C with saved := saved }) k' := by
  obtain ⟨k2, hinsert, hk2, hquiet2, hc2⟩ := hk.requeue setThread_self hready
  obtain ⟨N, hN, hk3, hN3, hquiet3, hall3⟩ := hk2.next
  obtain ⟨l, hfreed, hclean⟩ := hk3.cleanThreads c N.proc
  have hlast := hquiet2.trans (hquiet3.trans hfreed.quiet)
  refine ⟨_, bind_ok.mpr ⟨C, getThread_ok hC, bind_ok.mpr ⟨k2, hinsert, bind_ok.mpr ⟨N, getThread_ok hN, rfl⟩⟩⟩, ?_, ?_, ?_⟩
  · exact hfreed.sound.withMode _
  · by_cases hl : (k2.lists .runQueue).head?.getD bootThread ∈ l
    · -- it was left for good in `_exit`
      obtain ⟨-, T, hT, hfin⟩ := hclean _ hl
      obtain rfl := Option.some.inj (hN3.symm.trans hT)
      have hexited : N.saved = .exited := (hk2.saved _ N hN).2 nofun hfin
      rw [At, hexited]
      exact trivial
    · refine (hfreed.sound.withMode _).at_restore (N := { N with on := none }) ?_ rfl ?_ rfl
      · exact (hfreed.thread _).trans ((if_neg hl).trans hN3)
      · refine fun hnone => hall3 c hc2 ((if_neg fun hcl => (hclean c hcl).1 rfl).symm.trans ((hfreed.thread c).symm.trans hnone))
  · exact ⟨hlast.nextTid, hlast.thread⟩

end

end Os5.Switching.Kernel
