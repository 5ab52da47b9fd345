import Os5.Fs.Wakeups

/-!
# The keyboard's pipes

`keyboard_handler` runs on whatever thread was interrupted, with interrupts off, and writes the scan
code to two pipes. Nothing else runs until it returns or sleeps, and no call is interrupted: the
gates of the system calls turn interrupts off as well.
-/

namespace Os5

open Transition

/-- What other threads do with a pipe that only the handler writes to. -/
inductive ReaderAct
  | open
  | close
  | read (t : Tid) (size : Nat)
  | resume (t : Tid)
  | stray (t : Tid)

def ReaderAct.act : ReaderAct → PipeAct
  | .open => .openEnd .read
  | .close => .closeEnd .read
  | .read t n => .read t n
  | .resume t => .advance t
  | .stray t => .stray t

structure Keyboard where
  raw : PipeRun
  kbd : PipeRun
  /-- The code a thread asleep in the first write of the handler has still to write to the other pipe. -/
  pending : Tid → Option Byte
  codes : List Byte

inductive KeyboardAct
  | interrupt (t : Tid) (code : Byte)
  | onRaw (a : ReaderAct)
  | onKbd (a : ReaderAct)

def Keyboard.Idle (k : Keyboard) (t : Tid) : Prop :=
  (k.raw.thread t).isNone ∧ (k.kbd.thread t).isNone ∧ k.pending t = none

instance (k : Keyboard) (t : Tid) : Decidable (k.Idle t) := inferInstanceAs (Decidable (_ ∧ _ ∧ _))

/-- The second write of the handler. -/
def Keyboard.writeKbd (k : Keyboard) (t : Tid) (code : Byte) : Option Keyboard :=
  (k.kbd.stepThrough (.write t [code])).map fun s => { k with kbd := s }

def Keyboard.keyboardHandler (k : Keyboard) (t : Tid) (code : Byte) : Option Keyboard := do
  let raw ← k.raw.stepThrough (.write t [code])
  if (raw.thread t).isNone then Keyboard.writeKbd { k with raw := raw, codes := k.codes ++ [code] } t code
  else some { k with
    raw := raw
    codes := k.codes ++ [code]
    pending := Function.update k.pending t (some code) }

/-- A thread that comes back from its first write in the handler goes on with the second. -/
def Keyboard.goOn (k : Keyboard) : ReaderAct → Option Keyboard
  | .resume t =>
    match k.pending t with
    | some code =>
      if (k.raw.thread t).isNone then { k with pending := Function.update k.pending t none }.writeKbd t code
      else some k
    | none => some k
  | _ => some k

def Keyboard.May (k : Keyboard) : ReaderAct → Prop
  | .read t _ => k.Idle t
  | _ => True

instance (k : Keyboard) : ∀ a, Decidable (k.May a)
  | .read t _ => inferInstanceAs (Decidable (k.Idle t))
  | .open | .close | .resume _ | .stray _ => .isTrue trivial

def Keyboard.step (k : Keyboard) : KeyboardAct → Option Keyboard
  | .interrupt t code => if k.Idle t then k.keyboardHandler t code else none
  | .onRaw a =>
    if k.May a then (k.raw.stepThrough a.act).bind fun s => { k with raw := s }.goOn a else none
  | .onKbd a => if k.May a then (k.kbd.stepThrough a.act).map fun s => { k with kbd := s } else none

/-- What `keyboard_init` leaves: the first pipe open for writing, the second for both. -/
def FreshKeyboard (k : Keyboard) : Prop :=
  ∃ b1 b2, k = ⟨⟨pipeOpen (newPipe 1024 b1) .write, [], fun _ => none, [], [], []⟩,
    ⟨pipeOpen (pipeOpen (newPipe 1024 b2) .write) .read, [], fun _ => none, [], [], []⟩, fun _ => none, []⟩

/-- When a scan code comes there is room for it in both pipes. -/
def KeyFits (k : Keyboard) : KeyboardAct → Prop
  | .interrupt _ _ => k.raw.pipe.unread < k.raw.pipe.size ∧ k.kbd.pipe.unread < k.kbd.pipe.size
  | _ => True

instance (k : Keyboard) : ∀ a, Decidable (KeyFits k a)
  | .interrupt _ _ => inferInstanceAs (Decidable (_ ∧ _))
  | .onRaw _ | .onKbd _ => .isTrue trivial

/-- Only readers wait for the pipe, and the codes are in it in their order, or were read from it in that. -/
structure PipeRun.InOrder (s : PipeRun) (codes : List Byte) : Prop where
  waiting : ∀ t ∈ s.waiting, ∃ n got, s.thread t = some (.read n got, .asleep)
  stored : s.copiedIn.map (·.2) = codes
  kept : s.copiedOut.map (·.2) ++ s.pipe.content = codes

-- ---------------------------------------------------------------------------
-- One of the pipes

/-- All calls are reads, and the bytes that went in are the codes. -/
structure PipeRun.Fed (s : PipeRun) (codes : List Byte) : Prop where
  inv : s.Inv 1024
  writers : 0 < s.pipe.writers
  reads : ∀ t c st, s.thread t = some (c, st) → ∃ n got, c = .read n got
  waiting : ∀ t ∈ s.waiting, ∃ c, s.thread t = some (c, .asleep)
  codes : s.copiedIn.map (·.2) = codes

section
variable {s s' : PipeRun} {codes : List Byte} {t u : Tid} {c : Call} {st : Stage} {code : Byte} {n : Nat}

theorem readLoop_writers {p : Pipe} : (readLoop p n).1.writers = p.writers := by
  induction n generalizing p with
  | zero => rfl
  | succ n ih =>
    unfold readLoop
    split
    · exact ih
    · rfl

theorem PipeRun.Fed.notWaiting (h : s.Fed codes) (hc : ∀ c, s.thread t ≠ some (c, .asleep)) : t ∉ s.waiting := by
  intro ht
  obtain ⟨c, hasleep⟩ := h.waiting t ht
  exact hc c hasleep

theorem PipeRun.Fed.update (h : s.Fed codes) {x : Option (Call × Stage)} (hx : ∀ c st, x = some (c, st) → ∃ n got, c = .read n got)
    (ht : t ∉ s.waiting) :
    (∀ u c st, Function.update s.thread t x u = some (c, st) → ∃ n got, c = .read n got) ∧
      ∀ u ∈ s.waiting, ∃ c, Function.update s.thread t x u = some (c, .asleep) := by
  constructor
  · intro u c st hu
    rcases eq_or_ne u t with rfl | hne
    · rw [Function.update_self] at hu
      exact hx c st hu
    · rw [Function.update_of_ne hne] at hu
      exact h.reads u c st hu
  · intro u hu
    rw [Function.update_of_ne (ne_of_mem_of_not_mem hu ht)]
    exact h.waiting u hu

theorem PipeRun.Fed.delivers (h : s.Fed codes) : Delivers s (.advance t) := by
  intro c hc
  unfold PipeRun.entering at hc
  split at hc
  · rename_i d hd
    obtain ⟨n, got, rfl⟩ := h.reads t d _ hd
    split at hc
    · cases hc
      exact h.writers
    · cases hc
  · cases hc

theorem PipeRun.Fed.advance (h : s.Fed codes) (hs : s.step (.advance t) = some s') : s'.Fed codes := by
  have hinv := h.inv.step h.delivers hs
  obtain ⟨⟨c, st⟩, hc, hs⟩ := Option.bind_eq_some_iff.mp hs
  obtain ⟨n, got, rfl⟩ := h.reads t c st hc
  cases st with
  | top =>
    have ht : t ∉ s.waiting := h.notWaiting (by simp [hc])
    simp only [PipeRun.advance, Option.some_inj] at hs
    split at hs
    · simp only [PipeRun.round, PipeRun.readRound, if_neg (Nat.ne_of_gt h.writers)] at hs
      subst hs
      obtain ⟨hreads, hwaiting⟩ := h.update (x := some (.read n (got ++ (readLoop s.pipe n).2), .wake)) (by rintro c st ⟨⟩; exact ⟨_, _, rfl⟩) ht
      refine ⟨hinv, ?_, hreads, hwaiting, h.codes⟩
      show 0 < (readLoop s.pipe n).1.writers
      rw [readLoop_writers]
      exact h.writers
    · subst hs
      obtain ⟨hreads, hwaiting⟩ := h.update (x := none) (by simp) ht
      exact ⟨hinv, h.writers, hreads, hwaiting, h.codes⟩
  | wake =>
    have ht : t ∉ s.waiting := h.notWaiting (by simp [hc])
    obtain rfl := Option.some.inj hs
    obtain ⟨hreads, -⟩ := h.update (x := some (.read n got, _)) (by rintro c st ⟨⟩; exact ⟨_, _, rfl⟩) ht
    exact ⟨hinv, h.writers, hreads, List.forall_mem_nil _, h.codes⟩
  | sleep =>
    have ht : t ∉ s.waiting := h.notWaiting (by simp [hc])
    obtain rfl := Option.some.inj hs
    obtain ⟨hreads, hwaiting⟩ := h.update (x := some (.read n got, .asleep)) (by rintro c st ⟨⟩; exact ⟨_, _, rfl⟩) ht
    refine ⟨hinv, h.writers, hreads, fun u hu => ?_, h.codes⟩
    rcases List.mem_append.mp hu with hu | hu
    · exact hwaiting u hu
    · obtain rfl := List.mem_singleton.mp hu
      exact ⟨_, Function.update_self _ _ _⟩
  | asleep =>
    simp only [PipeRun.advance] at hs
    split at hs
    · cases hs
    rename_i ht
    obtain rfl := Option.some.inj hs
    obtain ⟨hreads, hwaiting⟩ := h.update (x := some (.read n got, .top)) (by rintro c st ⟨⟩; exact ⟨_, _, rfl⟩) ht
    exact ⟨hinv, h.writers, hreads, hwaiting, h.codes⟩

theorem PipeRun.Fed.runOn (h : s.Fed codes) (hs : s.runOn t n = some s') : s'.Fed codes := by
  induction n generalizing s with
  | zero =>
    unfold PipeRun.runOn at hs
    split at hs
    · obtain rfl := Option.some.inj hs
      exact h
    · cases hs
  | succ n ih =>
    unfold PipeRun.runOn at hs
    split at hs
    · obtain rfl := Option.some.inj hs
      exact h
    · obtain ⟨s₁, hs₁, hs⟩ := Option.bind_eq_some_iff.mp hs
      exact ih (h.advance hs₁) hs

theorem PipeRun.Fed.reader {a : ReaderAct} (h : s.Fed codes) (hs : s.stepThrough a.act = some s') : s'.Fed codes := by
  obtain ⟨s₁, hs₁, hs⟩ := Option.bind_eq_some_iff.mp hs
  cases a with
  | «open» =>
    have hinv := h.inv.step (a := .openEnd .read) trivial hs₁
    obtain rfl := Option.some.inj hs₁
    obtain rfl := Option.some.inj hs
    exact ⟨hinv, h.writers, h.reads, h.waiting, h.codes⟩
  | close =>
    have hinv := h.inv.step (a := .closeEnd .read) trivial hs₁
    obtain rfl := Option.some.inj hs₁
    obtain rfl := Option.some.inj hs
    exact ⟨hinv, h.writers, h.reads, h.waiting, h.codes⟩
  | read t n =>
    have hinv := h.inv.step (a := .read t n) trivial hs₁
    simp only [ReaderAct.act, PipeRun.step, PipeRun.call] at hs₁
    split at hs₁
    swap
    · cases hs₁
    rename_i hidle
    obtain rfl := Option.some.inj hs₁
    obtain ⟨hreads, hwaiting⟩ := h.update (t := t) (x := some (.read n [], .top)) (by rintro c st ⟨⟩; exact ⟨_, _, rfl⟩)
      (h.notWaiting (by simp [hidle.1]))
    exact PipeRun.Fed.runOn ⟨hinv, h.writers, hreads, hwaiting, h.codes⟩ hs
  | resume t => exact (h.advance hs₁).runOn hs
  | stray t =>
    have hinv := h.inv.step (a := .stray t) trivial hs₁
    obtain rfl := Option.some.inj hs₁
    obtain rfl := Option.some.inj hs
    exact ⟨hinv, h.writers, h.reads, fun u hu => h.waiting u (List.mem_of_mem_filter hu), h.codes⟩

-- ---------------------------------------------------------------------------
-- A write of the handler

def PipeRun.wrote (s : PipeRun) (t : Tid) (code : Byte) : PipeRun :=
  { s with
    pipe := s.pipe.put code
    waiting := []
    copiedIn := s.copiedIn ++ [(t, code)]
    returned := s.returned ++ [(t, .write [code] 1)] }

theorem stepThrough_stores (hidle : s.thread t = none) (hsection : writeSection s.pipe [code] = (s.pipe.put code, [code])) :
    s.stepThrough (.write t [code]) = some (s.wrote t code) := by
  simp [PipeRun.stepThrough, PipeRun.step, PipeRun.call, hidle, PipeAct.actor, PipeRun.runOn, PipeRun.stopped, PipeRun.setThread,
    PipeRun.advance, Call.more, PipeRun.round, PipeRun.writeRound, hsection, PipeRun.finish, PipeRun.wrote]

theorem stepThrough_full (hidle : s.thread t = none) (hreader : 0 < s.pipe.readers) (hfull : s.pipe.size ≤ s.pipe.unread) :
    s.stepThrough (.write t [code]) =
      some { s with waiting := [t], thread := Function.update s.thread t (some (.write [code] 0, .asleep)) } := by
  have hsection : writeSection s.pipe [code] = (s.pipe, []) := by
    rw [writeSection, if_neg (Nat.ne_of_gt hreader), writeLoop, if_neg (Nat.not_lt.mpr hfull)]
  simp [PipeRun.stepThrough, PipeRun.step, PipeRun.call, hidle, PipeAct.actor, PipeRun.runOn, PipeRun.stopped, PipeRun.setThread,
    PipeRun.advance, Call.more, PipeRun.round, PipeRun.writeRound, hsection]

theorem PipeRun.Fed.stepThrough_write (h : s.Fed codes) (hidle : s.thread t = none) (hroom : s.pipe.unread < s.pipe.size) :
    s.stepThrough (.write t [code]) = some (s.wrote t code) := by
  refine stepThrough_stores hidle ?_
  have hfits : s.pipe.unread + [code].length ≤ s.pipe.size := hroom
  rw [h.inv.ok.bounded.writeSection (.inr hfits), writeLoop, if_pos hroom]
  rfl

theorem PipeRun.accounted_wrote {f : Call → List Byte} (hidle : s.thread t = none) :
    (s.wrote t code).accounted f u = s.accounted f u ++ if u = t then f (.write [code] 1) else [] := by
  unfold PipeRun.accounted PipeRun.wrote
  by_cases hu : u = t
  · subst hu
    simp [hidle]
  · simp [hu, Ne.symm hu]

theorem PipeRun.Fed.wrote (h : s.Fed codes) (hidle : s.thread t = none) (hroom : s.pipe.unread < s.pipe.size) :
    (s.wrote t code).Fed (codes ++ [code]) := by
  obtain ⟨hok, hcontent⟩ := h.inv.ok.put (b := code) hroom
  refine ⟨⟨hok, h.inv.size, ?_, fun u => ?_, fun u => ?_, h.inv.written, fun {u data n} hu => ?_⟩,
    h.writers, h.reads, nofun, ?_⟩
  · show s.copiedOut.map (·.2) ++ (s.pipe.put code).content = (s.copiedIn ++ [(t, code)]).map (·.2)
    rw [hcontent, ← List.append_assoc, h.inv.fifo, List.map_append]
    rfl
  · rw [PipeRun.accounted_wrote hidle, ← h.inv.stored u]
    exact bytesOf_append.trans (congrArg _ (bytesOf_map (w := [code])))
  · rw [PipeRun.accounted_wrote hidle, ← h.inv.fetched u]
    exact ((List.append_nil _).symm.trans (congrArg _ (ite_self _).symm))
  · rcases List.mem_append.mp hu with hu | hu
    · exact h.inv.returned hu
    · cases List.mem_singleton.mp hu
      rfl
  · show (s.copiedIn ++ [(t, code)]).map (·.2) = codes ++ [code]
    rw [List.map_append, h.codes]
    rfl

end

-- ---------------------------------------------------------------------------
-- Both pipes

/-- Nobody sleeps in the handler, and both pipes have got the codes. -/
structure Keyboard.Fed (k : Keyboard) : Prop where
  raw : k.raw.Fed k.codes
  kbd : k.kbd.Fed k.codes
  pending : k.pending = fun _ => none

section
variable {k k' : Keyboard} {t : Tid} {code : Byte} {a : KeyboardAct}

theorem FreshKeyboard.fed (h : FreshKeyboard k) : k.Fed := by
  obtain ⟨b1, b2, rfl⟩ := h
  have hfresh : ∀ b, PipeRun.Inv 1024 ⟨newPipe 1024 b, [], fun _ => none, [], [], []⟩ := fun b =>
    FreshPipe.inv ⟨b, rfl⟩ (.inr rfl)
  have hwriter : ∀ b, PipeRun.Inv 1024 ⟨pipeOpen (newPipe 1024 b) .write, [], fun _ => none, [], [], []⟩ := fun b =>
    (hfresh b).step (a := .openEnd .write) trivial rfl
  have hboth : ∀ b, PipeRun.Inv 1024 ⟨pipeOpen (pipeOpen (newPipe 1024 b) .write) .read, [], fun _ => none, [], [], []⟩ :=
    fun b => (hwriter b).step (a := .openEnd .read) trivial rfl
  exact ⟨⟨hwriter b1, Nat.one_pos, nofun, nofun, rfl⟩, ⟨hboth b2, Nat.one_pos, nofun, nofun, rfl⟩, rfl⟩

theorem Keyboard.Fed.interrupt (h : k.Fed) (hidle : k.Idle t) (hroom : KeyFits k (.interrupt t code)) :
    k.step (.interrupt t code) =
      some { k with raw := k.raw.wrote t code, kbd := k.kbd.wrote t code, codes := k.codes ++ [code] } := by
  have hraw := Option.isNone_iff_eq_none.mp hidle.1
  have hkbd := Option.isNone_iff_eq_none.mp hidle.2.1
  have hthread : ((k.raw.wrote t code).thread t).isNone := hidle.1
  rw [Keyboard.step, if_pos hidle, Keyboard.keyboardHandler, h.raw.stepThrough_write hraw hroom.1]
  simp only [Option.bind_eq_bind, Option.bind_some, if_pos hthread, Keyboard.writeKbd, h.kbd.stepThrough_write hkbd hroom.2,
    Option.map_some]

theorem Keyboard.Fed.step (h : k.Fed) (hroom : KeyFits k a) (hs : k.step a = some k') : k'.Fed := by
  cases a with
  | interrupt t code =>
    have hidle : k.Idle t := by
      by_contra hbusy
      rw [Keyboard.step, if_neg hbusy] at hs
      cases hs
    rw [h.interrupt hidle hroom] at hs
    obtain rfl := Option.some.inj hs
    have hraw := Option.isNone_iff_eq_none.mp hidle.1
    have hkbd := Option.isNone_iff_eq_none.mp hidle.2.1
    exact ⟨h.raw.wrote hraw hroom.1, h.kbd.wrote hkbd hroom.2, h.pending⟩
  | onRaw a =>
    rw [Keyboard.step] at hs
    split at hs
    swap
    · cases hs
    obtain ⟨s, hs₁, hs⟩ := Option.bind_eq_some_iff.mp hs
    have hgoOn : Keyboard.goOn { k with raw := s } a = some { k with raw := s } := by
      cases a with
      | resume t =>
        rw [Keyboard.goOn]
        simp only [h.pending]
      | _ => rfl
    rw [hgoOn] at hs
    obtain rfl := Option.some.inj hs
    exact ⟨h.raw.reader hs₁, h.kbd, h.pending⟩
  | onKbd a =>
    rw [Keyboard.step] at hs
    split at hs
    swap
    · cases hs
    obtain ⟨s, hs₁, rfl⟩ := Option.map_eq_some_iff.mp hs
    exact ⟨h.raw, h.kbd.reader hs₁, h.pending⟩

theorem PipeRun.Fed.inOrder {s : PipeRun} {codes : List Byte} (h : s.Fed codes) : s.InOrder codes where
  waiting t ht := by
    obtain ⟨c, hc⟩ := h.waiting t ht
    obtain ⟨n, got, rfl⟩ := h.reads t c _ hc
    exact ⟨n, got, hc⟩
  stored := h.codes
  kept := h.inv.fifo.trans h.codes

/-- With room for each code that comes, no interrupted thread ever sleeps, and every code is in both
pipes in its place. -/
theorem keyboard_never_sleeps (h : Reach Keyboard.step KeyFits FreshKeyboard k) :
    k.raw.InOrder k.codes ∧ k.kbd.InOrder k.codes ∧ (∀ t, k.pending t = none) ∧
      ∀ t code, k.Idle t → KeyFits k (.interrupt t code) →
        ∃ k', k.step (.interrupt t code) = some k' ∧ k'.codes = k.codes ++ [code] ∧
          k'.Idle t ∧ t ∉ k'.raw.waiting ∧ t ∉ k'.kbd.waiting := by
  have hfed : k.Fed := h.invariant (fun _ h0 => h0.fed) fun _ _ _ hi hroom hs => hi.step hroom hs
  refine ⟨hfed.raw.inOrder, hfed.kbd.inOrder, fun t => congrFun hfed.pending t, fun t code hidle hroom => ?_⟩
  exact ⟨_, hfed.interrupt hidle hroom, rfl, hidle, List.not_mem_nil, List.not_mem_nil⟩

end

def keyboardInit : Keyboard :=
  ⟨⟨pipeOpen (newPipe 1024 fun _ => 0) .write, [], fun _ => none, [], [], []⟩,
    ⟨pipeOpen (pipeOpen (newPipe 1024 fun _ => 0) .write) .read, [], fun _ => none, [], [], []⟩, fun _ => none, []⟩

/-- A reader sleeps until the first key comes, and `kbdraw` is opened and read between the next ones. -/
def someKeys : List KeyboardAct :=
  [.onKbd (.read 2 1), .interrupt 1 30, .onKbd (.resume 2), .onRaw .open, .interrupt 1 158, .onRaw (.read 3 2),
    .interrupt 3 31, .onKbd (.read 2 4)]

theorem keyboard_never_sleeps_key : ∃ k k', exec Keyboard.step keyboardInit someKeys = some k ∧ k.codes = [30, 158, 31] ∧
    k.raw.InOrder k.codes ∧ k.kbd.InOrder k.codes ∧ k.step (.interrupt 1 159) = some k' ∧ k'.Idle 1 := by
  have halong : Along Keyboard.step KeyFits keyboardInit someKeys := by decide +kernel
  have hrun : (exec Keyboard.step keyboardInit someKeys).any (fun k => decide (k.codes = [30, 158, 31]) && decide (k.Idle 1) &&
      decide (KeyFits k (.interrupt 1 159))) = true := by
    decide +kernel
  obtain ⟨k, hk, htest⟩ := (Option.any_eq_true _ _).mp hrun
  simp only [Bool.and_eq_true, decide_eq_true_eq] at htest
  obtain ⟨⟨hcodes, hidle⟩, hroom⟩ := htest
  obtain ⟨hraw, hkbd, -, hnext⟩ := keyboard_never_sleeps
    ((@Reach.start _ _ Keyboard.step KeyFits FreshKeyboard keyboardInit ⟨_, _, rfl⟩).along halong hk)
  obtain ⟨k', hs, -, hidle', -⟩ := hnext 1 159 hidle hroom
  exact ⟨k, k', hk, hcodes, hraw, hkbd, hs, hidle'⟩

theorem keyboard_fills {n : Nat} (hn : n ≤ 1024) :
    ∃ k, exec Keyboard.step keyboardInit (List.replicate n (.interrupt 1 30)) = some k ∧ k.Fed ∧ k.Idle 1 ∧
      k.raw.pipe.unread = n ∧ k.kbd.pipe.unread = n ∧ k.raw.pipe.readers = 0 ∧ k.kbd.pipe.readers = 1 := by
  induction n with
  | zero => exact ⟨keyboardInit, rfl, FreshKeyboard.fed ⟨_, _, rfl⟩, by decide, by decide, by decide, rfl, rfl⟩
  | succ n ih =>
    obtain ⟨k, hexec, hfed, hidle, hraw, hkbd, hreaders⟩ := ih (Nat.le_of_succ_le hn)
    have hroom : KeyFits k (.interrupt 1 30) := by
      rw [KeyFits, hraw, hkbd, hfed.raw.inv.size, hfed.kbd.inv.size]
      exact ⟨hn, hn⟩
    have hstep := hfed.interrupt hidle hroom
    refine ⟨_, ?_, hfed.step hroom hstep, hidle, ?_, ?_, hreaders⟩
    · rw [List.replicate_succ', exec_append, hexec, Option.bind_some, exec_cons, hstep]
      rfl
    · exact (hfed.raw.inv.ok.bounded.unread_put hroom.1).trans (congrArg _ hraw)
    · exact (hfed.kbd.inv.ok.bounded.unread_put hroom.2).trans (congrArg _ hkbd)

/-- Nobody reads, and the thread that is running when the 1025th code comes is put to sleep. -/
theorem keyboard_sleeps : ∃ k, exec Keyboard.step keyboardInit (List.replicate 1025 (.interrupt 1 30)) = some k ∧
    1 ∈ k.kbd.waiting ∧ k.kbd.thread 1 = some (.write [30] 0, .asleep) := by
  obtain ⟨k, hexec, hfed, hidle, -, hkbd, hno, hone⟩ := keyboard_fills le_rfl
  have hraw : k.raw.stepThrough (.write 1 [30]) = some (k.raw.wrote 1 30) := by
    refine stepThrough_stores (Option.isNone_iff_eq_none.mp hidle.1) ?_
    rw [writeSection, if_pos hno]
    rfl
  have hsleep := @stepThrough_full k.kbd 1 30 (Option.isNone_iff_eq_none.mp hidle.2.1) (by omega)
    (by rw [hkbd, hfed.kbd.inv.size])
  have hreturned : ((k.raw.wrote 1 30).thread 1).isNone := hidle.1
  have hstep : k.step (.interrupt 1 30) = some { k with
      raw := k.raw.wrote 1 30
      kbd := { k.kbd with waiting := [1], thread := Function.update k.kbd.thread 1 (some (.write [30] 0, .asleep)) }
      codes := k.codes ++ [30] } := by
    rw [Keyboard.step, if_pos hidle, Keyboard.keyboardHandler, hraw]
    simp only [Option.bind_eq_bind, Option.bind_some, if_pos hreturned, Keyboard.writeKbd, hsleep, Option.map_some]
  have hrun : exec Keyboard.step keyboardInit (List.replicate 1025 (.interrupt 1 30)) = k.step (.interrupt 1 30) := by
    rw [List.replicate_succ', exec_append, hexec, Option.bind_some, exec_cons, hstep]
    rfl
  exact ⟨_, hrun.trans hstep, List.mem_singleton_self 1, Function.update_self 1 _ k.kbd.thread⟩

end Os5
