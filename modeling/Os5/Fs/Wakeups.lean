import Os5.Fs.Pipes

/-!
# Sleepers on a pipe

Nothing runs between a `schedule` and the next, so a call goes on until it sleeps or
returns. `pipe_read` and `pipe_write` wake the sleepers; `pipe_close` does not, and a
read of no bytes goes to sleep on any pipe.
-/

namespace Os5

open Transition

def PipeAct.actor : PipeAct → Option Tid
  | .read t _ | .write t _ | .advance t => some t
  | .openEnd _ | .closeEnd _ | .stray _ => none

def PipeRun.stopped (s : PipeRun) (t : Tid) : Bool :=
  match s.thread t with
  | none | some (_, .asleep) => true
  | some _ => false

/-- A thread goes on until it stops; the bound is on the parts of the loop it goes through. -/
def PipeRun.runOn (t : Tid) : Nat → PipeRun → Option PipeRun
  | 0, s => if s.stopped t then some s else none
  | n + 1, s => if s.stopped t then some s else (s.step (.advance t)).bind (PipeRun.runOn t n)

/-- A call, or the rest of one after its thread was woken, without an interruption. -/
def PipeRun.stepThrough (s : PipeRun) (a : PipeAct) : Option PipeRun :=
  (s.step a).bind fun s' => match a.actor with
    | some t => s'.runOn t 3
    | none => some s'

/-- A sleeping reader has an empty pipe with a writer, a sleeping writer a full one with a reader. -/
def Call.Blocked (p : Pipe) : Call → Prop
  | .read _ _ => p.unread = 0 ∧ 0 < p.writers
  | .write _ _ => p.size ≤ p.unread ∧ 0 < p.readers

def Call.needs : Call → PipeEnd
  | .read _ _ => .write
  | .write _ _ => .read

def Pipe.users (p : Pipe) : PipeEnd → Nat
  | .read => p.readers
  | .write => p.writers

/-- A read of no bytes finds nothing to read. -/
def Call.AsksEnough (p : Pipe) : Call → Prop
  | .read n _ => n = 0 → p.unread = 0 ∨ p.writers = 0
  | .write _ _ => True

instance (p : Pipe) : ∀ c : Call, Decidable (c.AsksEnough p)
  | .read n _ => inferInstanceAs (Decidable (n = 0 → _))
  | .write _ _ => .isTrue trivial

def PipeRun.sleepers (s : PipeRun) : List Call := s.waiting.filterMap fun t => (s.thread t).map (·.1)

/-- The last user of an end does not leave while somebody sleeps for it, and no read of no
bytes is at work on a pipe with bytes. -/
def Considerate (s : PipeRun) : PipeAct → Prop
  | .closeEnd e => s.pipe.users e = 1 → ∀ c ∈ s.sleepers, c.needs ≠ e
  | .read _ n => (Call.read n []).AsksEnough s.pipe
  | .advance t => ∀ c ∈ (s.thread t).map (·.1), c.AsksEnough s.pipe
  | .openEnd _ | .write _ _ | .stray _ => True

instance (s : PipeRun) : ∀ a, Decidable (Considerate s a)
  | .closeEnd e => inferInstanceAs (Decidable (s.pipe.users e = 1 → ∀ c ∈ s.sleepers, c.needs ≠ e))
  | .read _ n => inferInstanceAs (Decidable ((Call.read n []).AsksEnough s.pipe))
  | .advance t => inferInstanceAs (Decidable (∀ c ∈ (s.thread t).map (·.1), c.AsksEnough s.pipe))
  | .openEnd _ | .write _ _ | .stray _ => .isTrue trivial

-- ---------------------------------------------------------------------------
-- Where the loops end
-- ---------------------------------------------------------------------------

section
variable {p : Pipe} {n : Nat} {rest : List Byte} {e : PipeEnd}

theorem readLoop_none (h : (readLoop p n).2 = []) : (readLoop p n).1 = p ∧ (n = 0 ∨ p.unread = 0) := by
  cases n with
  | zero => exact ⟨rfl, .inl rfl⟩
  | succ n =>
    unfold readLoop at h ⊢
    split at h
    · cases h
    · next h0 =>
      rw [if_neg h0]
      exact ⟨rfl, .inr (Nat.eq_zero_of_not_pos h0)⟩

theorem writeLoop_short (h : (writeLoop p rest).2.length < rest.length) :
    (writeLoop p rest).1.size ≤ (writeLoop p rest).1.unread := by
  induction rest generalizing p with
  | nil => cases h
  | cons b rest ih =>
    unfold writeLoop at h ⊢
    split
    · next hroom =>
      rw [if_pos hroom] at h
      exact ih (Nat.lt_of_succ_lt_succ h)
    · next hfull => exact Nat.le_of_not_lt hfull

theorem writeLoop_users (rest : List Byte) (e : PipeEnd) : (writeLoop p rest).1.users e = p.users e := by
  induction rest generalizing p with
  | nil => rfl
  | cons b rest ih =>
    unfold writeLoop
    split
    · exact ih.trans (by cases e <;> rfl)
    · rfl

theorem Call.Blocked.open {c : Call} (h : c.Blocked p) : c.Blocked (pipeOpen p e) := by
  cases c <;> cases e
  · exact h
  · exact ⟨h.1, Nat.succ_pos _⟩
  · exact ⟨h.1, Nat.succ_pos _⟩
  · exact h

theorem decr_pos (h : n ≠ 1) : 0 < decr n := by
  unfold decr
  split
  · norm_num
  · omega

theorem Call.Blocked.close {c : Call} (h : c.Blocked p) (hne : p.users e = 1 → c.needs ≠ e) :
    c.Blocked (pipeClose p e) := by
  cases c <;> cases e
  · exact h
  · exact ⟨h.1, decr_pos fun h1 => hne h1 rfl⟩
  · exact ⟨h.1, decr_pos fun h1 => hne h1 rfl⟩
  · exact h

end

-- ---------------------------------------------------------------------------
-- While one thread runs
-- ---------------------------------------------------------------------------

def PipeRun.AllBlocked (s : PipeRun) : Prop :=
  ∀ t ∈ s.waiting, ∃ c, s.thread t = some (c, .asleep) ∧ c.Blocked s.pipe

/-- What is known of the sleepers while a thread is in its loop with a call: between the part
under the lock and `scheduler_wake` nothing. -/
def PipeRun.Midway (s : PipeRun) (c : Call) : Stage → Prop
  | .top => (c.more → c.AsksEnough s.pipe) ∧ s.AllBlocked
  | .wake => c.more → c.Blocked s.pipe
  | .sleep => c.Blocked s.pipe ∧ s.AllBlocked
  | .asleep => s.AllBlocked

structure PipeRun.Runs (s : PipeRun) (t : Tid) : Prop where
  others : ∀ u, u ≠ t → s.stopped u
  midway : ∀ c st, s.thread t = some (c, st) → s.Midway c st
  returned : s.thread t = none → s.AllBlocked

structure PipeRun.Rests (s : PipeRun) : Prop where
  stopped : ∀ t, s.stopped t
  blocked : s.AllBlocked

section
variable {s s' : PipeRun} {t u : Tid} {c d : Call} {st : Stage} {x : Option (Call × Stage)} {n size : Nat}

theorem PipeRun.Runs.rests (h : s.Runs t) (hstop : s.stopped t) : s.Rests where
  stopped u := by
    rcases eq_or_ne u t with rfl | hne
    · exact hstop
    · exact h.others u hne
  blocked := by
    cases hc : s.thread t with
    | none => exact h.returned hc
    | some cs =>
      obtain ⟨c, st⟩ := cs
      cases st with
      | asleep => exact h.midway c .asleep hc
      | _ => simp [PipeRun.stopped, hc] at hstop

theorem stopped_congr (h : s'.thread u = s.thread u) : s'.stopped u = s.stopped u := by
  rw [PipeRun.stopped, PipeRun.stopped, h]

theorem PipeRun.AllBlocked.congr (h : s.AllBlocked) (hwaiting : s'.waiting = s.waiting)
    (hpipe : s'.pipe = s.pipe) (hthread : ∀ u ∈ s.waiting, s'.thread u = s.thread u) :
    s'.AllBlocked := by
  intro u hu
  rw [hwaiting] at hu
  rw [hthread u hu, hpipe]
  exact h u hu

theorem PipeRun.AllBlocked.ne (h : s.AllBlocked) (hc : s.thread t = x)
    (hx : ∀ c, x ≠ some (c, .asleep)) : ∀ u ∈ s.waiting, u ≠ t := by
  rintro u hu rfl
  obtain ⟨c, hasleep, -⟩ := h u hu
  exact hx c (hc ▸ hasleep)

theorem thread_of_ne (h : u ≠ t) : (s.setThread t x).thread u = s.thread u :=
  Function.update_of_ne h _ _

theorem PipeRun.Runs.finish (h : s.Runs t) (hc : s.thread t = some (c, .top)) :
    (s.finish t d).Runs t where
  others u hu := (stopped_congr (Function.update_of_ne hu _ _)).trans (h.others u hu)
  midway c st hc' := by simp [PipeRun.finish] at hc'
  returned _ :=
    have hb := (h.midway c .top hc).2
    hb.congr rfl rfl fun u hu => Function.update_of_ne (hb.ne hc (by simp) u hu) _ _

theorem PipeRun.Runs.toWake {s' : PipeRun} (h : s.Runs t)
    (hs' : s'.thread = Function.update s.thread t (some (c, .wake)))
    (hb : c.more → c.Blocked s'.pipe) : s'.Runs t where
  others u hu := (stopped_congr (by rw [hs', Function.update_of_ne hu])).trans (h.others u hu)
  midway c' st hc' := by
    rw [hs', Function.update_self] at hc'
    cases hc'
    exact hb
  returned hc' := by simp [hs'] at hc'

theorem PipeRun.Runs.readRound {got : List Byte} (h : s.Runs t)
    (hc : s.thread t = some (.read n got, .top)) (hmore : (Call.read n got).more) :
    (s.readRound t n got).Runs t := by
  unfold PipeRun.readRound
  split
  · obtain ⟨hothers, hmidway, hreturned⟩ := h.finish (d := .read n (got ++ [eof])) hc
    exact ⟨hothers, hmidway, hreturned⟩
  · next hwriters =>
    refine h.toWake rfl fun hmore' => ?_
    have hnone : (readLoop s.pipe n).2 = [] :=
      (List.append_eq_nil_iff.mp (List.isEmpty_iff.mp hmore')).2
    obtain ⟨hpipe, hn⟩ := readLoop_none hnone
    have hempty : s.pipe.unread = 0 :=
      hn.elim (fun h0 => ((h.midway _ _ hc).1 hmore h0).resolve_right hwriters) id
    change (readLoop s.pipe n).1.unread = 0 ∧ 0 < (readLoop s.pipe n).1.writers
    rw [hpipe]
    exact ⟨hempty, Nat.pos_of_ne_zero hwriters⟩

theorem PipeRun.Runs.writeRound {data : List Byte} (h : s.Runs t)
    (hmore : (Call.write data n).more) : (s.writeRound t data n).Runs t := by
  have hlt : n < data.length := of_decide_eq_true hmore
  refine h.toWake rfl fun hmore' => ?_
  have hlt' : n + (writeSection s.pipe (data.drop n)).2.length < data.length := of_decide_eq_true hmore'
  change (writeSection s.pipe (data.drop n)).1.size ≤ (writeSection s.pipe (data.drop n)).1.unread ∧
    0 < (writeSection s.pipe (data.drop n)).1.readers
  have hlen : (data.drop n).length = data.length - n := List.length_drop
  unfold writeSection at hlt' ⊢
  split at hlt'
  · -- without a reader everything was stored
    change n + (data.drop n).length < data.length at hlt'
    omega
  · next hreaders =>
    rw [if_neg hreaders]
    refine ⟨writeLoop_short (by omega), ?_⟩
    have husers := writeLoop_users (p := s.pipe) (data.drop n) .read
    exact Nat.lt_of_lt_of_eq (Nat.pos_of_ne_zero hreaders) husers.symm

theorem PipeRun.Runs.advance (h : s.Runs t) (hc : s.thread t = some (c, st)) (hst : st ≠ .asleep)
    (hs : s.advance t (c, st) = some s') : s'.Runs t := by
  cases st with
  | top =>
    obtain rfl := Option.some.inj hs
    split
    · next hmore =>
      cases c with
      | read n got => exact h.readRound hc hmore
      | write data n => exact h.writeRound hmore
    · exact h.finish hc
  | wake =>
    obtain rfl := Option.some.inj hs
    have hnobody : ∀ x, PipeRun.AllBlocked ({ s with waiting := [] }.setThread t x) :=
      fun x u hu => by cases hu
    refine ⟨fun u hu => (stopped_congr (thread_of_ne hu)).trans (h.others u hu), fun c' st' hc' => ?_,
      fun hc' => by simp [PipeRun.setThread] at hc'⟩
    simp only [PipeRun.setThread, Function.update_self, Option.some_inj, Prod.mk.injEq] at hc'
    obtain ⟨rfl, rfl⟩ := hc'
    split
    · next hmore => exact ⟨h.midway c .wake hc hmore, hnobody _⟩
    · next hdone => exact ⟨fun hmore => absurd hmore hdone, hnobody _⟩
  | sleep =>
    obtain rfl := Option.some.inj hs
    obtain ⟨hblocked, hall⟩ := h.midway c .sleep hc
    refine ⟨fun u hu => (stopped_congr (thread_of_ne hu)).trans (h.others u hu), fun c' st' hc' => ?_,
      fun hc' => by simp [PipeRun.setThread] at hc'⟩
    simp only [PipeRun.setThread, Function.update_self, Option.some_inj, Prod.mk.injEq] at hc'
    obtain ⟨rfl, rfl⟩ := hc'
    intro u hu
    rcases List.mem_append.mp hu with hu | hu
    · obtain ⟨c', hc', hb⟩ := hall u hu
      exact ⟨c', (thread_of_ne (hall.ne hc (by simp) u hu)).trans hc', hb⟩
    · obtain rfl := List.mem_singleton.mp hu
      exact ⟨c, Function.update_self _ _ _, hblocked⟩
  | asleep => exact absurd rfl hst

theorem PipeRun.Runs.runOn (h : s.Runs t) (hs : s.runOn t n = some s') : s'.Rests := by
  induction n generalizing s with
  | zero =>
    unfold PipeRun.runOn at hs
    split at hs
    · next hstop =>
      obtain rfl := Option.some.inj hs
      exact h.rests hstop
    · cases hs
  | succ n ih =>
    unfold PipeRun.runOn at hs
    split at hs
    · next hstop =>
      obtain rfl := Option.some.inj hs
      exact h.rests hstop
    · next hgoes =>
      obtain ⟨s₁, hs₁, hs⟩ := Option.bind_eq_some_iff.mp hs
      obtain ⟨⟨c, st⟩, hc, hs₁⟩ := Option.bind_eq_some_iff.mp hs₁
      refine ih (h.advance hc ?_ hs₁) hs
      rintro rfl
      simp [PipeRun.stopped, hc] at hgoes

-- ---------------------------------------------------------------------------
-- From one sleep to the next
-- ---------------------------------------------------------------------------

theorem FreshPipe.rests (h : FreshPipe size s) : s.Rests := by
  obtain ⟨buffer, rfl⟩ := h
  exact ⟨fun t => rfl, fun t ht => by cases ht⟩

theorem PipeRun.Rests.starts (h : s.Rests) (hask : c.more → c.AsksEnough s.pipe)
    (hout : t ∉ s.waiting) : (s.setThread t (some (c, .top))).Runs t where
  others u hu := (stopped_congr (thread_of_ne hu)).trans (h.stopped u)
  midway c' st hc' := by
    simp only [PipeRun.setThread, Function.update_self, Option.some_inj, Prod.mk.injEq] at hc'
    obtain ⟨rfl, rfl⟩ := hc'
    refine ⟨hask, h.blocked.congr rfl rfl fun u hu => thread_of_ne ?_⟩
    rintro rfl
    exact hout hu
  returned hc' := by simp [PipeRun.setThread] at hc'

theorem PipeRun.Rests.call (h : s.Rests) (hask : c.AsksEnough s.pipe) (hs : s.call t n c = some s') :
    s'.Runs t := by
  unfold PipeRun.call at hs
  split at hs
  · next hidle =>
    obtain rfl := Option.some.inj hs
    exact h.starts (fun _ => hask) fun ht => h.blocked.ne hidle.1 (by simp) t ht rfl
  · cases hs

theorem mem_sleepers (ht : t ∈ s.waiting) (hc : s.thread t = some (c, st)) : c ∈ s.sleepers :=
  List.mem_filterMap.mpr ⟨t, ht, by rw [hc]; rfl⟩

theorem PipeRun.Rests.stepThrough {a : PipeAct} (h : s.Rests) (hok : Considerate s a)
    (hs : s.stepThrough a = some s') : s'.Rests := by
  obtain ⟨s₁, hs₁, hs⟩ := Option.bind_eq_some_iff.mp hs
  cases a with
  | openEnd e =>
    obtain rfl := Option.some.inj hs₁
    obtain rfl := Option.some.inj hs
    refine ⟨h.stopped, fun t ht => ?_⟩
    obtain ⟨c, hc, hb⟩ := h.blocked t ht
    exact ⟨c, hc, hb.open⟩
  | closeEnd e =>
    obtain rfl := Option.some.inj hs₁
    obtain rfl := Option.some.inj hs
    refine ⟨h.stopped, fun t ht => ?_⟩
    obtain ⟨c, hc, hb⟩ := h.blocked t ht
    exact ⟨c, hc, hb.close fun hlast => hok hlast c (mem_sleepers ht hc)⟩
  | read t n => exact (h.call (c := .read n []) hok hs₁).runOn hs
  | write t data => exact (h.call (c := .write data 0) trivial hs₁).runOn hs
  | advance t =>
    obtain ⟨⟨c, st⟩, hc, hs₁⟩ := Option.bind_eq_some_iff.mp hs₁
    have hstop := h.stopped t
    cases st with
    | asleep =>
      simp only [PipeRun.advance] at hs₁
      split at hs₁
      · cases hs₁
      · next hout =>
        obtain rfl := Option.some.inj hs₁
        exact (h.starts (fun _ => hok c (by simp [hc])) hout).runOn hs
    | _ => simp [PipeRun.stopped, hc] at hstop
  | stray t =>
    obtain rfl := Option.some.inj hs₁
    obtain rfl := Option.some.inj hs
    exact ⟨h.stopped, fun u hu => h.blocked u (List.mem_of_mem_filter hu)⟩

/-- Whoever is asleep on the list inside `pipe_read` has an empty pipe with a writer, and
inside `pipe_write` a full pipe with a reader. -/
theorem sleepers_blocked (h : Reach PipeRun.stepThrough Considerate (FreshPipe size) s) :
    ∀ t ∈ s.waiting, ∃ c, s.thread t = some (c, .asleep) ∧ c.Blocked s.pipe :=
  (h.invariant (fun _ h0 => h0.rests) fun _ _ _ hi hok hs => hi.stepThrough hok hs).blocked

end

/-- A reader sleeps until two bytes are written, and takes them. -/
theorem sleepers_blocked_woken : ∃ s, exec PipeRun.stepThrough userPipe
      [.openEnd .read, .openEnd .write, .read 1 4, .write 2 [7, 8], .advance 1, .read 1 4] = some s ∧
    ∀ t ∈ s.waiting, ∃ c, s.thread t = some (c, .asleep) ∧ c.Blocked s.pipe := by
  obtain ⟨s, hs⟩ : ∃ s, exec PipeRun.stepThrough userPipe
      [.openEnd .read, .openEnd .write, .read 1 4, .write 2 [7, 8], .advance 1, .read 1 4] = some s :=
    Option.isSome_iff_exists.mp (by decide +kernel)
  have hreach : Reach PipeRun.stepThrough Considerate (FreshPipe 512) s :=
    (Reach.start ⟨fun _ => 0, rfl⟩).along (by decide +kernel) hs
  exact ⟨s, hs, sleepers_blocked hreach⟩

/-- The last writer closes while a reader sleeps, and nobody wakes it. -/
theorem sleeper_without_writer : ∃ s, Reach PipeRun.stepThrough Any (FreshPipe 512) s ∧
    1 ∈ s.waiting ∧ s.thread 1 = some (.read 4 [], .asleep) ∧ s.pipe.writers = 0 := by
  obtain ⟨s, hs⟩ : ∃ s, exec PipeRun.stepThrough userPipe
      [.openEnd .read, .openEnd .write, .read 1 4, .closeEnd .write] = some s :=
    Option.isSome_iff_exists.mp (by decide +kernel)
  have hseen : (exec PipeRun.stepThrough userPipe
      [.openEnd .read, .openEnd .write, .read 1 4, .closeEnd .write]).map
      (fun s => (s.waiting, s.thread 1, s.pipe.writers)) =
      some ([1], some (.read 4 [], .asleep), 0) := by decide +kernel
  rw [hs, Option.map_some, Option.some_inj, Prod.mk.injEq, Prod.mk.injEq] at hseen
  obtain ⟨hwaiting, hthread, hwriters⟩ := hseen
  exact ⟨s, (Reach.start ⟨fun _ => 0, rfl⟩).exec hs, by simp [hwaiting], hthread, hwriters⟩

end Os5
