import Os5.Proc.Victims

/-!
# Threads that wait for the processor

The run queue is served from its head and new threads go to its end, but for the handler of a signal,
which runs at once. So no thread waits for more turns than there were threads before it when it came,
in any run and whatever the other threads do.
-/

namespace Os5.Switching.Kernel

open Outcome Transition

-- ---------------------------------------------------------------------------
-- Turns
-- ---------------------------------------------------------------------------

/-- The calls that end with a switch. -/
def Act.turns : Act → Bool
  | .schedule | .sleep _ | .exit | .returnFromSignal => true
  | _ => false

def switches (k : Kernel) (a : Act) : Bool :=
  match k.mode with
  | .running _ => Act.turns a
  | _ => (k.handled a).any k.endsProcess

def turns : Kernel → List Act → Nat
  | _, [] => 0
  | k, a :: as => (k.switches a).toNat + ((step k a).map fun k' => turns k' as).getD 0

/-- The thread that goes to sleep in the step or ends itself, or is put to sleep for the handler of a signal. -/
def withdraws (k : Kernel) (a : Act) : Option Nat :=
  match k.mode, a with
  | .running c, .sleep _ | .running c, .returnFromSignal => some c
  | _, _ => (k.handled a).filter k.startsHandler

/-- A thread has the processor after a switch on the stack of `c`. -/
def Served (c th : Nat) (k : Kernel) : Prop :=
  ∃ T, k.thread th = some T ∧ T.on = none ∧ k.mode = restore c th T.saved

/-- How a thread leaves the run queue. -/
inductive Leaves (k : Kernel) (a : Act) (th : Nat) (k' : Kernel) : Prop
  | freed (h : k'.thread th = none)
  | withdraws (h : k.withdraws a = some th)
  | served (c : Nat) (hc : k.current = some c) (h : Served c th k')

-- ---------------------------------------------------------------------------
-- A thread in the run queue
-- ---------------------------------------------------------------------------

/-- Each node is on the list it points to, once. -/
structure Linked (k : Kernel) : Prop where
  nodup : ∀ h, (k.lists h).Nodup
  on : ∀ th T h, k.thread th = some T → T.on = some h → th ∈ k.lists h
  listed : ∀ h, ∀ th ∈ k.lists h, ∃ T, k.thread th = some T ∧ T.on = some h
  fresh : ∀ th T, k.thread th = some T → th < k.nextTid

/-- A thread, if there is one to look at, waits in the run queue behind some of the threads of `l`, unless it
has been freed. -/
structure InLine (o : Option Nat) (l : List Nat) (k : Kernel) : Prop where
  linked : k.Linked
  old : ∀ th ∈ o, th < k.nextTid
  place : ∀ th ∈ o, k.thread th ≠ none → ∃ ahead behind, ahead.Sublist l ∧ k.lists .runQueue = ahead ++ th :: behind

section
variable {k k' k1 : Kernel} {th u c p : Nat} {T C : Thread} {P : Process} {h : Head} {a : Act} {l : List Nat} {o : Option Nat}

def Waiting (o : Option Nat) (l : List Nat) (x : Except Fault Kernel) : Prop := Yields x (fun _ => True) (InLine o l)

theorem Waiting.bind {x : Except Fault Kernel} {f : Kernel → Except Fault Kernel} (hx : Waiting o l x)
    (hf : ∀ k, InLine o l k → Waiting o l (f k)) : Waiting o l (x >>= f) := Yields.bind hx hf

theorem Linked.congr (hk : k.Linked) (hthread : k'.thread = k.thread) (hlists : k'.lists = k.lists)
    (htid : k'.nextTid = k.nextTid) : k'.Linked := by
  obtain ⟨h1, h2, h3, h4⟩ := hk
  constructor <;> simpa only [hthread, hlists, htid]

theorem InLine.congr (hk : InLine o l k) (hthread : k'.thread = k.thread) (hlists : k'.lists = k.lists)
    (htid : k'.nextTid = k.nextTid) : InLine o l k' := by
  refine ⟨hk.linked.congr hthread hlists htid, htid ▸ hk.old, ?_⟩
  rw [hthread, hlists]
  exact hk.place

theorem Linked.setThread (hk : k.Linked) {T' : Thread} (hT : k.thread u = some T) (hon : T'.on = T.on) : (k.setThread u T').Linked := by
  obtain ⟨hnodup, hon', hlisted, hfresh⟩ := hk
  constructor
  all_goals
    simp only [Kernel.setThread, Function.update_apply] at *
    grind

theorem setThread_ne_none {T' : Thread} (hT : k.thread u = some T) (hth : (k.setThread u T').thread th ≠ none) : k.thread th ≠ none := by
  by_cases hu : th = u
  · rw [hu, hT]
    exact Option.some_ne_none T
  · rwa [setThread_of_ne hu] at hth

theorem InLine.setThread (hk : InLine o l k) {T' : Thread} (hT : k.thread u = some T) (hon : T'.on = T.on) :
    InLine o l (k.setThread u T') :=
  ⟨hk.linked.setThread hT hon, hk.old, fun n hn hth => hk.place n hn (setThread_ne_none hT hth)⟩

theorem InLine.setState {st : ThreadState} (hk : InLine o l k) : InLine o l (k.setState u st) := by
  cases hT : k.thread u with
  | none =>
    refine hk.congr (funext fun n => ?_) rfl rfl
    rw [Kernel.setState, hT]
    by_cases hn : n = u
    · subst hn
      exact (Function.update_self _ _ _).trans hT.symm
    · exact Function.update_of_ne hn _ _
  | some T =>
    rw [setState_eq hT]
    exact hk.setThread hT rfl

theorem Linked.schedulerRemove (hk : k.Linked) (u : Nat) : (k.schedulerRemove u).Linked := by
  unfold Kernel.schedulerRemove
  split
  · next T hT =>
    split
    · next h hon =>
      obtain ⟨hnodup, hon', hlisted, hfresh⟩ := hk
      constructor
      case nodup =>
        intro h'
        simp only [Function.update_apply]
        split
        · exact (hnodup h).erase u
        · exact hnodup h'
      all_goals
        simp only [Kernel.setThread, Function.update_apply] at *
        grind
    · exact hk
  · exact hk

theorem erase_around (l r : List Nat) (hu : u ≠ th) :
    ∃ l' r', l'.Sublist l ∧ (l ++ th :: r).erase u = l' ++ th :: r' := by
  by_cases hmem : u ∈ l
  · exact ⟨l.erase u, r, List.erase_sublist, List.erase_append_left _ hmem⟩
  · refine ⟨l, r.erase u, List.Sublist.refl l, ?_⟩
    rw [List.erase_append_right _ hmem, List.erase_cons_tail (by simpa using Ne.symm hu)]

theorem schedulerRemove_lists : (k.schedulerRemove u).lists h = k.lists h ∨ (k.schedulerRemove u).lists h = (k.lists h).erase u := by
  unfold Kernel.schedulerRemove
  split
  · next T hT =>
    split
    · next h' hon =>
      simp only [Function.update_apply]
      split
      · next hh => exact .inr (by rw [hh])
      · exact .inl rfl
    · exact .inl rfl
  · exact .inl rfl

theorem InLine.schedulerRemove (hk : InLine o l k) (hu : o ≠ some u) : InLine o l (k.schedulerRemove u) := by
  refine ⟨hk.linked.schedulerRemove u, (schedulerRemove_rest k u).nextTid ▸ hk.old, fun th ho hth => ?_⟩
  have hne : u ≠ th := fun he => hu (he ▸ ho)
  rw [schedulerRemove_thread, if_neg (Ne.symm hne)] at hth
  obtain ⟨ahead, behind, hsub, hqueue⟩ := hk.place th ho hth
  rcases @schedulerRemove_lists k u .runQueue with hsame | herase
  · exact ⟨ahead, behind, hsub, hsame.trans hqueue⟩
  · obtain ⟨ahead', behind', hsub', hqueue'⟩ := erase_around ahead behind hne
    exact ⟨ahead', behind', hsub'.trans hsub, by rw [herase, hqueue, hqueue']⟩

theorem Linked.inserted (hk : k.Linked) {put : List Nat → List Nat} (hput : PutsAtEnd u put) (hT : k.thread u = some T) (hon : T.on = none) :
    (k.inserted h u put T).Linked := by
  have hnot : ∀ h, u ∉ k.lists h := by
    intro h hmem
    obtain ⟨U, hU, hUon⟩ := hk.listed h u hmem
    obtain rfl := Option.some.inj (hT.symm.trans hU)
    cases hon.symm.trans hUon
  obtain ⟨hmem, hends⟩ := hput
  obtain ⟨hnodup, hon', hlisted, hfresh⟩ := hk
  constructor
  case nodup =>
    intro h'
    simp only [Kernel.inserted, Function.update_apply]
    split
    · exact hends _ (hnodup h) (hnot h)
    · exact hnodup h'
  all_goals
    simp only [Kernel.inserted, Kernel.setThread, Function.update_apply] at *
    grind

theorem insertAt_eq_ok {put : List Nat → List Nat} (h' : k.insertAt h u put = .ok k') :
    ∃ T, k.thread u = some T ∧ T.on = none ∧ k' = k.inserted h u put T := by
  rw [Kernel.insertAt] at h'
  obtain ⟨T, hT, h'⟩ := bind_ok.mp h'
  split at h'
  · next hon => exact ⟨T, getThread_eq_ok hT, hon, (Except.ok.inj h').symm⟩
  · cases h'

theorem InLine.append (hk : InLine o l k) : Waiting o l (k.append h u) := by
  refine yields_iff.mpr ⟨fun k' hk' => ?_, fun _ _ => trivial⟩
  obtain ⟨T, hT, hon, rfl⟩ := insertAt_eq_ok hk'
  refine ⟨hk.linked.inserted (putsAtEnd_append u) hT hon, hk.old, fun th ho hth => ?_⟩
  obtain ⟨ahead, behind, hsub, hqueue⟩ := hk.place th ho (setThread_ne_none hT hth)
  by_cases hh : h = .runQueue
  · subst hh
    refine ⟨ahead, behind ++ [u], hsub, ?_⟩
    simp [Kernel.inserted, hqueue]
  · refine ⟨ahead, behind, hsub, ?_⟩
    exact (Function.update_of_ne (Ne.symm hh) _ _).trans hqueue

/-- Only `scheduler_cheat` puts a thread before the others. -/
theorem InLine.schedulerCheat (hk : InLine o l k) : Waiting o (u :: l) (k.schedulerCheat u) := by
  refine yields_iff.mpr ⟨fun k' hk' => ?_, fun _ _ => trivial⟩
  obtain ⟨T, hT, hon, rfl⟩ := insertAt_eq_ok hk'
  refine ⟨hk.linked.inserted (putsAtEnd_cons u) hT hon, hk.old, fun th ho hth => ?_⟩
  obtain ⟨ahead, behind, hsub, hqueue⟩ := hk.place th ho (setThread_ne_none hT hth)
  refine ⟨u :: ahead, behind, hsub.cons_cons u, ?_⟩
  simp [Kernel.inserted, hqueue]

theorem InLine.schedulerSleep (hk : InLine o l k) (hu : o ≠ some u) : Waiting o l (k.schedulerSleep u h) :=
  ((hk.schedulerRemove hu).setState).append

theorem InLine.notMem (hk : InLine o l k) (hh : h ≠ .runQueue) : ∀ th ∈ k.lists h, o ≠ some th := by
  intro th hmem ho
  obtain ⟨T, hT, hon⟩ := hk.linked.listed h th hmem
  obtain ⟨ahead, behind, -, hqueue⟩ := hk.place th ho (by rw [hT]; exact Option.some_ne_none T)
  obtain ⟨T', hT', hon'⟩ := hk.linked.listed .runQueue th (by rw [hqueue]; simp)
  obtain rfl := Option.some.inj (hT.symm.trans hT')
  exact hh (Option.some.inj (hon.symm.trans hon'))

theorem InLine.wakeTurn (hk : InLine o l k) (hu : o ≠ some u) : Waiting o l (k.wakeTurn u) :=
  (hk.schedulerRemove hu).append.bind fun _ hk1 => hk1.setState

theorem InLine.schedulerWake (hk : InLine o l k) (hh : h ≠ .runQueue) : Waiting o l (k.schedulerWake h) := by
  have hloop : Yields ((k.lists h).foldlM Kernel.wakeTurn k) (fun _ => True) fun k' => (∀ th ∈ ([] : List Nat), o ≠ some th) ∧ InLine o l k' := by
    refine Yields.foldlM (fun us k' => (∀ th ∈ us, o ≠ some th) ∧ InLine o l k') (fun u us k1 hk1 => ?_) ⟨hk.notMem hh, hk⟩
    obtain ⟨hne, hrest⟩ := List.forall_mem_cons.mp hk1.1
    exact (hk1.2.wakeTurn hne).imp fun k2 hk2 => ⟨hrest, hk2⟩
  exact hloop.imp fun k' hk' => hk'.2

theorem Linked.freeThread (hk : k.Linked) (u : Nat) : (k.freeThread u).Linked := by
  have hremove := hk.schedulerRemove u
  have hthread := schedulerRemove_thread k u
  have hnot : ∀ h, u ∉ (k.schedulerRemove u).lists h := by
    intro h hmem
    obtain ⟨T, hT, hon⟩ := hremove.listed h u hmem
    rw [hthread, if_pos rfl] at hT
    obtain ⟨U, -, rfl⟩ := Option.map_eq_some_iff.mp hT
    cases hon
  obtain ⟨hnodup, hon, hlisted, hfresh⟩ := hremove
  constructor
  all_goals
    simp only [Kernel.freeThread, Function.update_apply] at *
    grind

theorem InLine.freeThread (hk : InLine o l k) (u : Nat) : InLine o l (k.freeThread u) := by
  refine ⟨hk.linked.freeThread u, (schedulerRemove_rest k u).nextTid ▸ hk.old, fun th ho hth => ?_⟩
  by_cases hu : th = u
  · subst hu
    exact absurd (Function.update_self _ _ _) hth
  · have hne : o ≠ some u := fun he => hu (Option.some.inj ((Option.mem_def.mp ho).symm.trans he))
    refine (hk.schedulerRemove hne).place th ho fun hnone => hth ?_
    exact (Function.update_of_ne hu _ _).trans hnone

theorem InLine.freeThreads {us : List Nat} (hk : InLine o l k) : InLine o l (us.foldl Kernel.freeThread k) := by
  induction us generalizing k with
  | nil => exact hk
  | cons u us ih => exact ih (hk.freeThread u)

theorem InLine.cleanThreads (hk : InLine o l k) : InLine o l (k.cleanThreads c p) := by
  unfold Kernel.cleanThreads
  split
  · exact hk.freeThreads
  · exact hk

theorem freeThread_thread (k : Kernel) (u th : Nat) : (k.freeThread u).thread th = none ∨ (k.freeThread u).thread th = k.thread th := by
  by_cases hu : th = u
  · subst hu
    exact .inl (Function.update_self _ _ _)
  · refine .inr ((Function.update_of_ne hu _ _).trans ?_)
    rw [schedulerRemove_thread, if_neg hu]

theorem freeThreads_thread (us : List Nat) : (us.foldl freeThread k).thread th = none ∨ (us.foldl freeThread k).thread th = k.thread th := by
  induction us generalizing k with
  | nil => exact .inr rfl
  | cons u us ih =>
    rcases @ih (k.freeThread u) with hnone | hsame
    · exact .inl hnone
    · rcases freeThread_thread k u th with hnone' | hsame'
      · exact .inl (hsame.trans hnone')
      · exact .inr (hsame.trans hsame')

theorem cleanThreads_thread (k : Kernel) (c p th : Nat) :
    (k.cleanThreads c p).thread th = none ∨ (k.cleanThreads c p).thread th = k.thread th := by
  unfold Kernel.cleanThreads
  split
  · exact freeThreads_thread _
  · exact .inr rfl

-- ---------------------------------------------------------------------------
-- A switch
-- ---------------------------------------------------------------------------

/-- What a switch on the stack of `c` does to a thread that waits. -/
inductive Turned (c : Nat) (o : Option Nat) (l : List Nat) (k : Kernel) : Prop
  | freed (th : Nat) (ho : o = some th) (h : k.thread th = none)
  | waits (hl : o ≠ none → l ≠ []) (h : InLine o l.tail k)
  | served (th : Nat) (ho : o = some th) (h : Served c th k)

theorem InLine.requeue {st : ThreadState} (hk : InLine o l k) : Waiting o l (k.requeue c st) := by
  unfold Kernel.requeue
  split
  · exact hk.append
  · exact hk

theorem Linked.remove_head {rest : List Nat} (hk : k.Linked) (hqueue : k.lists .runQueue = u :: rest) :
    (k.schedulerRemove u).lists .runQueue = rest := by
  obtain ⟨T, hT, hon⟩ := hk.listed .runQueue u (hqueue ▸ List.mem_cons_self)
  unfold Kernel.schedulerRemove
  rw [hT]
  simp only [hon, Function.update_self, hqueue, List.erase_cons_head]

def taken (k : Kernel) (next : Nat) : Kernel := if (k.lists .runQueue).isEmpty then k else k.schedulerRemove next

theorem Linked.taken (hk : k.Linked) (next : Nat) : (k.taken next).Linked := by
  unfold Kernel.taken
  split
  · exact hk
  · exact hk.schedulerRemove next

theorem taken_none (next : Nat) (hth : k.thread th = none) : (k.taken next).thread th = none := by
  unfold taken
  split
  · exact hth
  · rw [schedulerRemove_thread, hth]
    simp

theorem InLine.taken {N : Thread} (hk : InLine (some th) l k) (hth : k.thread th ≠ none)
    (hN : k.thread ((k.lists .runQueue).head?.getD bootThread) = some N) :
    (k.lists .runQueue).head?.getD bootThread = th ∧ (k.taken th).thread th = some { N with on := none } ∨
      l ≠ [] ∧ InLine (some th) l.tail (k.taken ((k.lists .runQueue).head?.getD bootThread)) := by
  obtain ⟨ahead, behind, hsub, hqueue⟩ := hk.place th rfl hth
  have hnodup := hk.linked.nodup .runQueue
  unfold Kernel.taken
  rw [hqueue] at hN hnodup ⊢
  cases ahead with
  | nil => exact .inl ⟨rfl, schedulerRemove_self hN⟩
  | cons u rest =>
    have hne : some th ≠ some u := fun he => (List.nodup_cons.mp hnodup).1 (by simp [Option.some.inj he])
    refine .inr ⟨?_, hk.linked.schedulerRemove u, (hk.schedulerRemove hne).old, fun n hn _ => ?_⟩
    · rintro rfl
      cases hsub
    · obtain rfl := Option.some.inj hn
      exact ⟨rest, behind, hsub.tail, hk.linked.remove_head hqueue⟩

theorem InLine.switch {saved : Saved} (hk : InLine o l k) :
    Yields (k.switchKernelThread c saved) (fun _ => True) (Turned c o l) := by
  refine yields_read fun T hT => ?_
  have hset : InLine o l (k.setThread c { T with saved := saved }) := hk.setThread (getThread_eq_ok hT) rfl
  refine Yields.bind hset.requeue fun k2 hk2 => yields_read fun N hN => ?_
  have hN := getThread_eq_ok hN
  rw [yields_pure]
  cases o with
  | none =>
    have hrest : InLine none l.tail (k2.taken ((k2.lists .runQueue).head?.getD bootThread)) :=
      ⟨hk2.linked.taken _, fun th ho => (by cases ho), fun th ho => by cases ho⟩
    exact .waits (absurd rfl) (hrest.cleanThreads.congr rfl rfl rfl)
  | some th =>
    rcases cleanThreads_thread (k2.taken ((k2.lists .runQueue).head?.getD bootThread)) c N.proc th with hnone | hsame
    · exact .freed th rfl hnone
    by_cases hth : k2.thread th = none
    · exact .freed th rfl (hsame.trans (taken_none _ hth))
    rcases hk2.taken hth hN with ⟨hself, hself'⟩ | ⟨hl, hrest⟩
    · rw [hself] at hsame ⊢
      exact .served th rfl ⟨{ N with on := none }, hsame.trans hself', rfl, rfl⟩
    · exact .waits (fun _ => hl) (hrest.cleanThreads.congr rfl rfl rfl)

-- ---------------------------------------------------------------------------
-- Calls
-- ---------------------------------------------------------------------------

theorem Linked.entered (hk : k.Linked) (hon : T.on = none) : (k.entered T).Linked := by
  obtain ⟨hnodup, hon', hlisted, hfresh⟩ := hk
  constructor
  case listed =>
    intro h th hth
    obtain ⟨U, hU, hUon⟩ := hlisted h th hth
    exact ⟨U, (setThread_of_ne (Nat.ne_of_lt (hfresh th U hU))).trans hU, hUon⟩
  all_goals
    simp only [Kernel.entered, Kernel.setThread, Function.update_apply] at *
    grind

theorem InLine.entered (hk : InLine o l k) (hon : T.on = none) : InLine o l (k.entered T) := by
  refine ⟨hk.linked.entered hon, fun th ho => Nat.lt_succ_of_lt (hk.old th ho), fun th ho hth => hk.place th ho ?_⟩
  rwa [Kernel.entered, setThread_of_ne (Nat.ne_of_lt (hk.old th ho))] at hth

theorem InLine.newThread {useresp : Nat} {handles : Option Nat} (hk : InLine o l k) :
    Yields (k.newThread p useresp handles) (fun _ => True) fun r => InLine o l r.2 ∧ o ≠ some r.1 := by
  unfold Kernel.newThread
  cases hP : k.getProcess p with
  | error e => trivial
  | ok P =>
    rw [bind_ok_left]
    have hent := hk.entered (T := ⟨p, .ready, none, .user, useresp, false, handles⟩) rfl
    refine Yields.bind hent.append fun k1 hk1 => ⟨hk1.congr rfl rfl rfl, fun he => lt_irrefl _ (hk.old _ he)⟩

theorem InLine.fork (hk : InLine o l k) : Waiting o l (k.fork c) := by
  refine yields_read fun T hT => yields_read fun P hP => ?_
  have hent := hk.entered (T := { T with proc := k.nextPid, on := none, saved := .user, copied := true, handles := none }) rfl
  have hset : InLine o l { (k.setProcess k.nextPid ⟨⟨P.signals.handler, fun _ => 0, []⟩, false, [k.nextTid]⟩).setThread k.nextTid
      { T with proc := k.nextPid, on := none, saved := .user, copied := true, handles := none } with
      nextTid := k.nextTid + 1, nextPid := k.nextPid + 1 } := hent.congr rfl rfl rfl
  exact hset.append

theorem InLine.exit (hk : InLine o l k) : Yields (k.exit c) (fun _ => True) (Turned c o l) := by
  refine yields_read fun T hT => yields_read fun P hP => yields_read fun P1 hP1 => ?_
  have hfreed : InLine o l (((P.threads.filter (· ≠ c)).foldl Kernel.freeThread k).setProcess T.proc { P1 with finished := true }) :=
    hk.freeThreads.congr rfl rfl rfl
  exact Yields.bind (hfreed.setState.schedulerWake nofun) fun k1 hk1 => hk1.setState.switch

theorem InLine.freeProcess (hk : InLine o l k) : Waiting o l (k.freeProcess c p) :=
  yields_read fun P _ => InLine.congr (@InLine.freeThreads k l o (P.threads.filter (· ≠ c)) hk) rfl rfl rfl

theorem InLine.startHandler {hd : HandlerThread} {saved : Saved} (hk : InLine o l k) (hu : o ≠ some u) :
    Yields (k.startHandler c u hd saved) (fun _ => True) fun k' => ∃ new, Turned c o (new :: l) k' := by
  refine yields_read fun T hT => Yields.bind hk.newThread fun r hr => ?_
  obtain ⟨hr, hnew⟩ := hr
  refine Yields.bind ((hr.schedulerRemove hnew).schedulerSleep hu) fun k2 hk2 => ?_
  exact Yields.bind hk2.schedulerCheat fun k3 hk3 => hk3.switch.imp fun k4 h4 => ⟨r.1, h4⟩

theorem InLine.returnFromSignal (hk : InLine o l k) (hc : o ≠ some c) :
    Yields (k.returnFromSignal c) (fun _ => True) (Turned c o l) := by
  refine yields_read fun T hT => ?_
  split
  · trivial
  · exact Yields.bind (hk.schedulerWake nofun) fun k1 hk1 => (hk1.setState.schedulerRemove hc).switch

theorem InLine.kill {pid sig : Int} (hk : InLine o l k) : Waiting o l (k.kill c pid sig) := by
  refine yields_read fun C hC => ?_
  split
  · trivial
  · split
    · trivial
    · split
      · trivial
      · exact hk.congr rfl rfl rfl

-- ---------------------------------------------------------------------------
-- Steps
-- ---------------------------------------------------------------------------

/-- What a step does to a thread that waits: it leaves, or the threads before it have become fewer by the turn. -/
inductive Goes (k : Kernel) (a : Act) (o : Option Nat) (l : List Nat) (k' : Kernel) : Prop
  | leaves (th : Nat) (ho : o = some th) (h : Leaves k a th k')
  | waits (l' : List Nat) (hsub : l'.Sublist l) (hlen : o ≠ none → l'.length + (k.switches a).toNat ≤ l.length) (h : InLine o l' k')

theorem Turned.goes (hc : k.current = some c) (h : Turned c o l k') : Goes k a o l k' := by
  cases h with
  | freed th ho h => exact .leaves th ho (.freed h)
  | waits hl h =>
    refine .waits l.tail (List.tail_sublist l) (fun ho => ?_) h
    have hpos := List.length_pos_of_ne_nil (hl ho)
    have hle := Bool.toNat_le (k.switches a)
    rw [List.length_tail]
    omega
  | served th ho h => exact .leaves th ho (.served c hc h)

theorem Turned.goes_cons {new : Nat} (hc : k.current = some c) (hno : k.switches a = false) (h : Turned c o (new :: l) k') :
    Goes k a o l k' := by
  cases h with
  | freed th ho h => exact .leaves th ho (.freed h)
  | waits _ h => exact .waits l (List.Sublist.refl l) (by simp [hno]) h
  | served th ho h => exact .leaves th ho (.served c hc h)

theorem InLine.goes (hno : k.switches a = false) (h : InLine o l k') : Goes k a o l k' :=
  .waits l (List.Sublist.refl l) (by simp [hno]) h

theorem Waiting.goes {x : Except Fault Kernel} (hno : k.switches a = false) (h : Waiting o l x) :
    Yields x (fun _ => True) (Goes k a o l) := Yields.imp h fun _ h' => h'.goes hno

theorem InLine.call (hk : InLine o l k) (hmode : k.mode = .running c) :
    Yields (k.call c a) (fun _ => True) (Goes k a o l) := by
  have hc : k.current = some c := by simp only [current, hmode]
  have hno : Act.turns a = false → k.switches a = false := fun ha => by rw [switches, hmode]; exact ha
  have hself : (∃ h, a = .sleep h) ∨ a = .returnFromSignal → k.withdraws a = some c := by
    rintro (⟨h, rfl⟩ | rfl) <;> simp only [withdraws, hmode]
  by_cases hw : o ≠ none ∧ o = k.withdraws a
  · obtain ⟨th, hth⟩ := Option.ne_none_iff_exists'.mp hw.1
    exact yields_iff.mpr ⟨fun k' _ => .leaves th hth (.withdraws (hw.2.symm.trans hth)), fun _ _ => trivial⟩
  have hother : k.withdraws a = some c → o ≠ some c := fun hc ho => hw ⟨by simp [ho], ho.trans hc.symm⟩
  cases a with
  | schedule => exact hk.switch.imp fun k' h' => h'.goes hc
  | sleep h =>
    rw [Kernel.call]
    split
    · exact Yields.bind (hk.schedulerSleep (hother (hself (.inl ⟨h, rfl⟩)))) fun k1 hk1 => hk1.switch.imp fun k' h' => h'.goes hc
    · trivial
  | wake h =>
    rw [Kernel.call]
    split
    · next hh =>
      refine (hk.schedulerWake ?_).goes (hno rfl)
      rintro rfl
      cases hh
    · trivial
  | fork => exact hk.fork.goes (hno rfl)
  | threadFork useresp =>
    refine yields_read fun T hT => Yields.bind hk.newThread fun r hr => ?_
    exact hr.1.goes (hno rfl)
  | exit => exact hk.exit.imp fun k' h' => h'.goes hc
  | kill pid sig => exact hk.kill.goes (hno rfl)
  | signal sig handler =>
    refine yields_read fun T hT => yields_read fun P hP => ?_
    split
    · trivial
    · exact InLine.goes (hno rfl) (hk.congr rfl rfl rfl)
  | execve useresp =>
    refine yields_read fun T hT => yields_read fun P hP => ?_
    have hset : InLine o l (k.setThread c { T with useresp := useresp }) := hk.setThread (getThread_eq_ok hT) rfl
    exact InLine.goes (hno rfl) (hset.congr rfl rfl rfl)
  | free p =>
    refine yields_read fun P hP => ?_
    split
    · exact hk.freeProcess.goes (hno rfl)
    · trivial
  | returnFromSignal => exact (hk.returnFromSignal (hother (hself (.inr rfl)))).imp fun k' h' => h'.goes hc
  | user useresp =>
    refine yields_read fun T hT => ?_
    have hset : InLine o l (k.setThread c { T with useresp := useresp }) := hk.setThread (getThread_eq_ok hT) rfl
    exact hset.goes (hno rfl)
  | iret => exact InLine.goes (hno rfl) (hk.congr rfl rfl rfl)
  | go => trivial

theorem InLine.handle {saved : Saved} {go : Mode} (hk : InLine o l k) (hc : k.current = some c) (hu : k.handled a = some u)
    (hmode : ∀ c, k.mode ≠ .running c) : Yields (k.handle c u saved go) (fun _ => True) (Goes k a o l) := by
  have hswitches : k.switches a = k.endsProcess u := by
    unfold switches
    split
    · next c' hrun => exact absurd hrun (hmode c')
    · rw [hu, Option.any_some]
  have hwithdraws : k.withdraws a = (some u).filter k.startsHandler := by
    unfold withdraws
    split
    · next c' h' hrun => exact absurd hrun (hmode c')
    · next c' hrun => exact absurd hrun (hmode c')
    · rw [hu]
  refine yields_read fun T hT => yields_read fun P hP => ?_
  have hpending := pending_eq (getThread_eq_ok hT) (getProcess_eq_ok hP)
  unfold endsProcess at hswitches
  unfold startsHandler at hwithdraws
  rw [hpending] at hswitches
  simp only [Option.filter_some, hpending] at hwithdraws
  generalize handleSignals P.signals T.useresp = d at hswitches hwithdraws ⊢
  obtain ⟨dispatch, signals⟩ := d
  have hset : InLine o l (k.setProcess T.proc { P with signals := signals }) := hk.congr rfl rfl rfl
  have hgo : InLine o l { k.setProcess T.proc { P with signals := signals } with mode := go } := hset.congr rfl rfl rfl
  cases dispatch with
  | none => exact hgo.goes hswitches
  | some d =>
    cases d with
    | ignore => exact hgo.goes hswitches
    | default signum =>
      simp only at hswitches ⊢
      split
      · exact hset.exit.imp fun k' h' => h'.goes hc
      · next hterm =>
        split
        · exact hgo.goes (hswitches.trans (Bool.not_eq_true _ ▸ hterm))
        · trivial
    | custom h =>
      simp only [if_true] at hwithdraws
      by_cases hth : o = some u
      · exact yields_iff.mpr ⟨fun k' _ => .leaves u hth (.withdraws hwithdraws), fun _ _ => trivial⟩
      · refine (hset.startHandler hth).imp ?_
        rintro k' ⟨new, h'⟩
        exact h'.goes_cons hc hswitches

theorem InLine.carryOut (hk : InLine o l k) : Yields (k.carryOut a) (fun _ => True) (Goes k a o l) := by
  unfold Kernel.carryOut
  cases hmode : k.mode with
  | running c =>
    simp only
    split
    · trivial
    · exact hk.call hmode
  | posted c p =>
    simp only
    split
    · next ha =>
      subst ha
      exact hk.handle (by simp only [current, hmode]) (by simp only [handled, hmode]) (by simp [hmode])
    · trivial
  | signalling c p =>
    simp only
    split
    · next ha =>
      subst ha
      split
      · next u hu => exact hk.handle (by simp only [current, hmode]) (by simp only [handled, hmode, hu]) (by simp [hmode])
      · next hnone =>
        refine InLine.goes ?_ (hk.congr rfl rfl rfl)
        simp [switches, handled, hmode, hnone]
    · trivial
  | returning c u =>
    simp only
    split
    · next ha =>
      subst ha
      exact hk.handle (by simp only [current, hmode]) (by simp only [handled, hmode]) (by simp [hmode])
    · trivial
  | halted => trivial

-- ---------------------------------------------------------------------------
-- Runs
-- ---------------------------------------------------------------------------

theorem Booted.linked (hk : Booted k) : k.Linked :=
  let hsound := (Booted.steady hk).sound
  ⟨hsound.nodup, hsound.on, hsound.listed, hsound.fresh⟩

theorem reach_linked (hk : Reach step Any Booted k) : k.Linked := by
  refine hk.invariant (fun _ => Booted.linked) fun k a k' hk _ hstep => ?_
  have hlist : InLine none [] k := ⟨hk, fun th ho => (by cases ho), fun th ho => by cases ho⟩
  cases hlist.carryOut.of_eq_ok (step_eq_some.mp hstep) with
  | leaves th ho => cases ho
  | waits l' _ _ h => exact h.linked

theorem turns_cons {as : List Act} (h : step k a = some k1) : turns k (a :: as) = (k.switches a).toNat + turns k1 as := by
  rw [turns, h, Option.map_some, Option.getD_some]

/-- A thread stays behind threads of `ahead`, of which each turn takes one. -/
def KeepsPlace (k : Kernel) (as : List Act) (th : Nat) (ahead : List Nat) (k' : Kernel) : Prop :=
  ∃ ahead' behind', k'.lists .runQueue = ahead' ++ th :: behind' ∧ ahead'.Sublist ahead ∧ ahead'.length + turns k as ≤ ahead.length

/-- A thread has left after as many turns as there were threads before it, or fewer. -/
def LeavesWithin (k : Kernel) (as : List Act) (th n : Nat) : Prop :=
  ∃ before a after k1 k2, as = before ++ a :: after ∧ exec step k before = some k1 ∧ step k1 a = some k2 ∧
    turns k before ≤ n ∧ Leaves k1 a th k2

theorem LeavesWithin.after {as : List Act} {n m : Nat} (hstep : step k a = some k1) (h : LeavesWithin k1 as th n)
    (hn : n + (k.switches a).toNat ≤ m) : LeavesWithin k (a :: as) th m := by
  obtain ⟨before, b, after, k2, k3, has, hbefore, hlast, hturns, hl⟩ := h
  refine ⟨a :: before, b, after, k2, k3, by rw [has, List.cons_append], ?_, hlast, ?_, hl⟩
  · rw [exec_cons, hstep]
    exact hbefore
  · rw [turns_cons hstep]
    omega

/-- By induction on the run: what is before the thread only becomes less. -/
theorem InLine.exec {as : List Act} (hk : InLine (some th) l k) (hth : k.thread th ≠ none) (h : exec step k as = some k') :
    KeepsPlace k as th l k' ∨ LeavesWithin k as th l.length := by
  induction as generalizing k l with
  | nil =>
    obtain rfl := Option.some.inj h
    obtain ⟨ahead, behind, hsub, hqueue⟩ := hk.place th rfl hth
    exact .inl ⟨ahead, behind, hqueue, hsub, hsub.length_le⟩
  | cons a as ih =>
    rw [exec_cons] at h
    obtain ⟨k1, hstep, h⟩ := Option.bind_eq_some_iff.mp h
    have hfirst : Leaves k a th k1 → LeavesWithin k (a :: as) th l.length := fun hl =>
      ⟨[], a, as, k, k1, rfl, rfl, hstep, Nat.zero_le _, hl⟩
    cases hk.carryOut.of_eq_ok (step_eq_some.mp hstep) with
    | leaves u ho hl =>
      obtain rfl := Option.some.inj ho
      exact .inr (hfirst hl)
    | waits l1 hsub hlen h1 =>
      by_cases hfreed : k1.thread th = none
      · exact .inr (hfirst (.freed hfreed))
      have hlen := hlen (Option.some_ne_none th)
      rcases ih h1 hfreed h with ⟨ahead, behind, hqueue, hsub', hlen'⟩ | hl
      · refine .inl ⟨ahead, behind, hqueue, hsub'.trans hsub, ?_⟩
        rw [turns_cons hstep]
        omega
      · exact .inr (hl.after hstep hlen)

theorem inLine_of_reach {ahead behind : List Nat} (hk : Reach step Any Booted k)
    (hqueue : k.lists .runQueue = ahead ++ th :: behind) : InLine (some th) ahead k ∧ k.thread th ≠ none := by
  have hlinked := reach_linked hk
  obtain ⟨T, hT, -⟩ := hlinked.listed .runQueue th (by rw [hqueue]; simp)
  refine ⟨⟨hlinked, fun u hu => ?_, fun u hu _ => ?_⟩, by rw [hT]; exact Option.some_ne_none T⟩
  · obtain rfl := Option.some.inj hu
    exact hlinked.fresh _ T hT
  · obtain rfl := Option.some.inj hu
    exact ⟨ahead, behind, List.Sublist.refl ahead, hqueue⟩

/-- In every run from a reachable state a thread of the run queue keeps its place, with one thread fewer before it
for each turn, until it gets the processor, goes to sleep or is freed. -/
theorem waits_for_turns {as : List Act} {ahead behind : List Nat} (hk : Reach step Any Booted k)
    (hqueue : k.lists .runQueue = ahead ++ th :: behind) (h : exec step k as = some k') :
    KeepsPlace k as th ahead k' ∨ LeavesWithin k as th ahead.length := by
  obtain ⟨hline, hth⟩ := inLine_of_reach hk hqueue
  exact hline.exec hth h

end

/-- The first process forks twice. The parent gives way and the idle thread and the first child are run, while the
second child waits for the three of them. -/
def threeWait : List Act := [.schedule, .go, .fork, .fork]

theorem threeWait_waits : ∃ k k', exec step (boot 0x1000) threeWait = some k ∧ k.lists .runQueue = [1, 3, 4] ∧
    exec step k [.schedule, .schedule, .go, .schedule, .go] = some k' ∧ k'.mode = .running 4 ∧
    (KeepsPlace k [.schedule, .schedule, .go, .schedule, .go] 4 [1, 3] k' ∨
      LeavesWithin k [.schedule, .schedule, .go, .schedule, .go] 4 2) := by
  have hrun : (exec step (boot 0x1000) threeWait).any (fun k => decide (k.lists .runQueue = [1, 3, 4]) &&
      (exec step k [.schedule, .schedule, .go, .schedule, .go]).any fun k' => decide (k'.mode = .running 4)) = true := by
    decide +kernel
  obtain ⟨k, hk, htest⟩ := (Option.any_eq_true _ _).mp hrun
  rw [Bool.and_eq_true] at htest
  obtain ⟨k', hk', hmode⟩ := (Option.any_eq_true _ _).mp htest.2
  have hqueue := of_decide_eq_true htest.1
  refine ⟨k, k', hk, hqueue, hk', of_decide_eq_true hmode, ?_⟩
  exact @waits_for_turns k k' 4 _ [1, 3] [] ((Reach.start ⟨0x1000, rfl⟩).exec hk) hqueue hk'

end Os5.Switching.Kernel
