import Os5.Fs.Delivery

/-!
# The lock of a pipe

`pipe_read` and `pipe_write` instruction by instruction: `spin_lock` tries its `cmpxchg` until
the lock is free, the bytes are copied one at a time and the positions moved after each, and
`spin_unlock` stores a zero. `pipe_open` and `pipe_close` do not take the lock. Whatever the
threads do in between, the part under the lock comes to one step of `PipeRun`, taken where the
other end is looked for.
-/

namespace Os5

open Transition

/-- `lock cmpxchg %cl, (%edx)` with 0 in `al` and 1 in `cl`: the word it leaves, and the zero
flag. -/
def cmpxchg (word : Nat) : Nat × Bool :=
  if word % 256 = 0 then (word / 256 * 256 + 1, true) else (word, false)

/-- The instructions of `spin_lock` from `.retry` on. -/
inductive Spin
  | retry
  | exchange
  | branch (zero : Bool)
  deriving DecidableEq, Repr

/-- Where a thread is in `pipe_read` or `pipe_write`. A writer that found no reader is
`force`d to copy all it has. -/
inductive Spot
  | top
  | spin (i : Spin)
  | users
  | test (force : Bool)
  | copy (force : Bool)
  | move (force : Bool)
  | unlock
  /-- `spin_unlock` and `return`, of a reader that found no writer. -/
  | leave
  | wake
  | sleep
  | asleep
  deriving DecidableEq, Repr

structure LockRun where
  pipe : Pipe
  semaphore : Nat
  waiting : List Tid
  thread : Tid → Option (Call × Spot)
  copiedIn : List (Tid × Byte)
  copiedOut : List (Tid × Byte)
  returned : List (Tid × Call)

def LockRun.setThread (s : LockRun) (t : Tid) (c : Option (Call × Spot)) : LockRun :=
  { s with thread := Function.update s.thread t c }

def LockRun.finish (s : LockRun) (t : Tid) (c : Call) : LockRun :=
  { s with thread := Function.update s.thread t none, returned := s.returned ++ [(t, c)] }

/-- `if(!pipe->writers)` of `pipe_read`, which stores the end of file, and `if(!pipe->readers)`. -/
def LockRun.lookUsers (s : LockRun) (t : Tid) : Call → LockRun
  | .read size got =>
    if s.pipe.writers = 0 then
      { s with copiedOut := s.copiedOut ++ [(t, eof)] }.setThread t (some (.read size (got ++ [eof]), .leave))
    else s.setThread t (some (.read size got, .test false))
  | .write data written =>
    s.setThread t (some (.write data written, .test (s.pipe.readers = 0)))

def Call.goesOn (p : Pipe) (force : Bool) : Call → Bool
  | .read size got => 0 < p.unread && got.length < size
  | .write data written => (force || p.unread < p.size) && written < data.length

def LockRun.copyByte (s : LockRun) (t : Tid) (force : Bool) : Call → Option LockRun
  | .read size got =>
    let b := s.pipe.buffer (s.pipe.readPos % s.pipe.size)
    some ({ s with copiedOut := s.copiedOut ++ [(t, b)] }.setThread t
      (some (.read size (got ++ [b]), .move force)))
  | .write data written => do
    let b ← data[written]?
    let pipe := { s.pipe with buffer := Function.update s.pipe.buffer (s.pipe.writePos % s.pipe.size) b }
    return { s with pipe := pipe, copiedIn := s.copiedIn ++ [(t, b)] }.setThread t
      (some (.write data (written + 1), .move force))

def Pipe.moved (p : Pipe) : Call → Pipe
  | .read _ _ => { p with readPos := wrap (p.readPos + 1) }
  | .write _ _ => { p with writePos := wrap (p.writePos + 1) }

def LockRun.advance (s : LockRun) (t : Tid) : Call × Spot → Option LockRun
  | (c, .top) => some (if c.more then s.setThread t (some (c, .spin .retry)) else s.finish t c)
  | (c, .spin .retry) => some (s.setThread t (some (c, .spin .exchange)))
  | (c, .spin .exchange) =>
    let r := cmpxchg s.semaphore
    some ({ s with semaphore := r.1 }.setThread t (some (c, .spin (.branch r.2))))
  | (c, .spin (.branch zero)) => some (s.setThread t (some (c, if zero then .users else .spin .retry)))
  | (c, .users) => some (s.lookUsers t c)
  | (c, .test force) => some (s.setThread t (some (c, if c.goesOn s.pipe force then .copy force else .unlock)))
  | (c, .copy force) => s.copyByte t force c
  | (c, .move force) => some ({ s with pipe := s.pipe.moved c }.setThread t (some (c, .test force)))
  | (c, .unlock) => some ({ s with semaphore := 0 }.setThread t (some (c, .wake)))
  | (c, .leave) => some ({ s with semaphore := 0 }.finish t c)
  | (c, .wake) =>
    some ({ s with waiting := [] }.setThread t (some (c, if c.more then .sleep else .top)))
  | (c, .sleep) => some ({ s with waiting := s.waiting ++ [t] }.setThread t (some (c, .asleep)))
  | (c, .asleep) => if t ∈ s.waiting then none else some (s.setThread t (some (c, .top)))

def LockRun.call (s : LockRun) (t : Tid) (size : Nat) (c : Call) : Option LockRun :=
  if s.thread t = none ∧ size < 2 ^ 32 then some (s.setThread t (some (c, .top))) else none

/-- The actions are those of `PipeRun`; to advance is one instruction here. -/
def LockRun.step (s : LockRun) : PipeAct → Option LockRun
  | .openEnd e => some { s with pipe := pipeOpen s.pipe e }
  | .closeEnd e => some { s with pipe := pipeClose s.pipe e }
  | .read t size => s.call t size (.read size [])
  | .write t data => s.call t data.length (.write data 0)
  | .advance t => (s.thread t).bind (s.advance t)
  | .stray t => some { s with waiting := s.waiting.filter (· ≠ t) }

def FreshLock (size : Nat) (s : LockRun) : Prop :=
  ∃ buffer, s = ⟨newPipe size buffer, 0, [], fun _ => none, [], [], []⟩

def Spot.inside : Spot → Bool
  | .spin (.branch zero) => zero
  | .users | .test _ | .copy _ | .move _ | .unlock | .leave => true
  | .top | .spin .retry | .spin .exchange | .wake | .sleep | .asleep => false

def LockRun.Inside (s : LockRun) (t : Tid) : Prop := ∃ c i, s.thread t = some (c, i) ∧ i.inside = true

-- ---------------------------------------------------------------------------
-- What is left to do under the lock
-- ---------------------------------------------------------------------------

def writeRest (force : Bool) (p : Pipe) (rest : List Byte) : Pipe × List Byte :=
  if force then writeOver p rest else writeLoop p rest

/-- The pipe when the lock is given back, and the bytes that are copied until then. -/
def Pipe.rest (p : Pipe) : Call × Spot → Pipe × List Byte
  | (.read size got, .test _) => readLoop p (size - got.length)
  | (.read size got, .copy _) =>
    let r := readLoop p.drop (size - (got.length + 1))
    (r.1, p.buffer (p.readPos % p.size) :: r.2)
  | (.read size got, .move _) => readLoop p.drop (size - got.length)
  | (.write data written, .test force) => writeRest force p (data.drop written)
  | (.write data written, .copy force) =>
    match data.drop written with
    | [] => (p, [])
    | b :: bytes =>
      let r := writeRest force (p.put b) bytes
      (r.1, b :: r.2)
  | (.write data written, .move force) => writeRest force (p.moved (.write data written)) (data.drop written)
  | (_, _) => (p, [])

def Call.add (bytes : List Byte) : Call → Call
  | .read size got => .read size (got ++ bytes)
  | .write data written => .write data (written + bytes.length)

/-- The thread as the run in whole rounds has it; one that leaves has returned there. -/
def Pipe.view (p : Pipe) : Call × Spot → Option (Call × Stage)
  | (c, .top) | (c, .spin _) | (c, .users) => some (c, .top)
  | (c, .test force) => some (c.add (p.rest (c, .test force)).2, .wake)
  | (c, .copy force) => some (c.add (p.rest (c, .copy force)).2, .wake)
  | (c, .move force) => some (c.add (p.rest (c, .move force)).2, .wake)
  | (c, .unlock) => some (c, .wake)
  | (_, .leave) => none
  | (c, .wake) => some (c, .wake)
  | (c, .sleep) => some (c, .sleep)
  | (c, .asleep) => some (c, .asleep)

def bytesOut (t : Tid) (c : Call) (bytes : List Byte) : List (Tid × Byte) :=
  match c with
  | .read _ _ => bytes.map (t, ·)
  | .write _ _ => []

def bytesIn (t : Tid) (c : Call) (bytes : List Byte) : List (Tid × Byte) :=
  match c with
  | .read _ _ => []
  | .write _ _ => bytes.map (t, ·)

/-- A call whose result is settled, while its thread still has the lock. -/
def leaving (t : Tid) : Call × Spot → List (Tid × Call)
  | (c, .leave) => [(t, c)]
  | (_, _) => []

def LockRun.looking (s : LockRun) (t : Tid) : Option Call :=
  match s.thread t with
  | some (c, .users) => some c
  | _ => none

/-- The other end is there when it is looked for, or is not needed. -/
def LockDelivers (s : LockRun) : PipeAct → Prop
  | .advance t => ∀ c ∈ s.looking t, c.Fits s.pipe
  | _ => True

instance (s : LockRun) : ∀ a, Decidable (LockDelivers s a)
  | .advance t => inferInstanceAs (Decidable (∀ c ∈ s.looking t, c.Fits s.pipe))
  | .openEnd _ | .closeEnd _ | .read _ _ | .write _ _ | .stray _ => .isTrue trivial

def Pipe.Seen (p : Pipe) : Call × Spot → Prop
  | (c, .spin _) | (c, .users) => c.more = true
  | (c, .copy force) => c.goesOn p force = true
  | (_, _) => True

def LockRun.left (s : LockRun) (o : Option (Tid × (Call × Spot))) : Pipe × List Byte :=
  o.elim (s.pipe, []) fun x => s.pipe.rest x.2

/-- The run in whole rounds that the run stands for; `o` is the thread that has the lock. -/
structure Abstracts (s : LockRun) (o : Option (Tid × (Call × Spot))) (a : PipeRun) : Prop where
  owner : ∀ {t x}, s.thread t = some x → x.2.inside = true → o = some (t, x)
  owned : ∀ {t x}, o = some (t, x) → s.thread t = some x ∧ x.2.inside = true
  word : s.semaphore = o.elim 0 fun _ => 1
  seen : ∀ {t x}, s.thread t = some x → s.pipe.Seen x
  waiting : a.waiting = s.waiting
  thread : ∀ t, a.thread t = (s.thread t).bind s.pipe.view
  pipe : a.pipe = (s.left o).1
  copiedIn : a.copiedIn = s.copiedIn ++ o.elim [] fun x => bytesIn x.1 x.2.1 (s.left o).2
  copiedOut : a.copiedOut = s.copiedOut ++ o.elim [] fun x => bytesOut x.1 x.2.1 (s.left o).2
  returned : a.returned.Perm (s.returned ++ o.elim [] fun x => leaving x.1 x.2)

section
variable {s s' : LockRun} {a : PipeRun} {o : Option (Tid × (Call × Spot))} {t u : Tid} {c c' : Call} {i i' : Spot}
  {x x' : Call × Spot} {p q : Pipe} {e : PipeEnd} {size : Nat}

theorem Pipe.view_outside (h : x.2.inside = false) : p.view x = q.view x := by
  obtain ⟨c, i⟩ := x
  cases i <;> first | rfl | cases h

theorem Pipe.seen_outside (h : x.2.inside = false) (hp : p.Seen x) : q.Seen x := by
  obtain ⟨c, i⟩ := x
  cases i <;> first | exact hp | cases h

theorem LockRun.thread_self {y : Option (Call × Spot)} : (s.setThread t y).thread t = y := Function.update_self ..

theorem LockRun.thread_of_ne {y : Option (Call × Spot)} (hu : u ≠ t) : (s.setThread t y).thread u = s.thread u :=
  Function.update_of_ne hu ..

theorem Abstracts.goes {y : Option (Call × Spot)} (h : Abstracts s o a) (ho : ∀ x, o ≠ some (t, x))
    (hy : ∀ x, y = some x → x.2.inside = false ∧ s.pipe.Seen x) (w : List Tid) :
    Abstracts ({ s with waiting := w }.setThread t y) o
      ({ a with waiting := w }.setThread t (y.bind s.pipe.view)) where
  owner {u x} hu hin := by
    by_cases hut : u = t
    · subst hut
      rw [LockRun.thread_self] at hu
      cases (hy x hu).1.symm.trans hin
    · rw [LockRun.thread_of_ne hut] at hu
      exact h.owner hu hin
  owned {u x} hu := by
    have hut : u ≠ t := by
      rintro rfl
      exact ho x hu
    rw [LockRun.thread_of_ne hut]
    exact h.owned hu
  word := h.word
  seen {u x} hu := by
    by_cases hut : u = t
    · subst hut
      rw [LockRun.thread_self] at hu
      exact (hy x hu).2
    · rw [LockRun.thread_of_ne hut] at hu
      exact h.seen hu
  waiting := rfl
  thread u := by
    by_cases hut : u = t
    · subst hut
      rw [LockRun.thread_self]
      exact Function.update_self ..
    · rw [LockRun.thread_of_ne hut]
      exact (Function.update_of_ne hut ..).trans (h.thread u)
  pipe := h.pipe
  copiedIn := h.copiedIn
  copiedOut := h.copiedOut
  returned := h.returned

theorem Abstracts.others {y : Call × Spot} (h : Abstracts s o a) (ho : ∀ z ∈ o, z.1 = t) (hut : u ≠ t)
    (hu : s.thread u = some y) : y.2.inside = false := by
  cases hin : y.2.inside with
  | false => rfl
  | true => exact absurd (ho _ (h.owner hu hin)) hut

/-- The pipe is changed by the one thread that may change it, which then is the owner `o'`, or gives
the lock back. -/
theorem Abstracts.update {o' : Option (Tid × (Call × Spot))} {y : Option (Call × Spot)} (h : Abstracts s o a)
    (ho : ∀ z ∈ o, z.1 = t) (ho' : ∀ z, o' = some z ↔ ∃ x, y = some x ∧ x.2.inside = true ∧ z = (t, x))
    (hword : s'.semaphore = o'.elim 0 fun _ => 1) (hwaiting : s'.waiting = s.waiting)
    (hthread : s'.thread = Function.update s.thread t y) (hseen : ∀ x, y = some x → s'.pipe.Seen x) {b : PipeRun}
    (hb : b.thread = Function.update a.thread t (y.bind s'.pipe.view)) (hbw : b.waiting = a.waiting)
    (hpipe : b.pipe = (s'.left o').1)
    (hin : b.copiedIn = s'.copiedIn ++ o'.elim [] fun x => bytesIn x.1 x.2.1 (s'.left o').2)
    (hout : b.copiedOut = s'.copiedOut ++ o'.elim [] fun x => bytesOut x.1 x.2.1 (s'.left o').2)
    (hreturned : b.returned.Perm (s'.returned ++ o'.elim [] fun x => leaving x.1 x.2)) : Abstracts s' o' b where
  owner {u x} hu hx := by
    by_cases hut : u = t
    · subst hut
      rw [hthread, Function.update_self] at hu
      exact (ho' _).mpr ⟨x, hu, hx, rfl⟩
    · rw [hthread, Function.update_of_ne hut] at hu
      cases (h.others ho hut hu).symm.trans hx
  owned {u x} hu := by
    obtain ⟨x', hy, hx', heq⟩ := (ho' _).mp hu
    obtain ⟨rfl, rfl⟩ := Prod.mk.inj heq
    rw [hthread, Function.update_self]
    exact ⟨hy, hx'⟩
  word := hword
  seen {u x} hu := by
    by_cases hut : u = t
    · subst hut
      rw [hthread, Function.update_self] at hu
      exact hseen x hu
    · rw [hthread, Function.update_of_ne hut] at hu
      exact Pipe.seen_outside (h.others ho hut hu) (h.seen hu)
  waiting := (hbw.trans h.waiting).trans hwaiting.symm
  thread u := by
    by_cases hut : u = t
    · subst hut
      rw [hb, hthread, Function.update_self, Function.update_self]
    · rw [hb, hthread, Function.update_of_ne hut, Function.update_of_ne hut, h.thread u]
      cases hu : s.thread u with
      | none => rfl
      | some y => exact Pipe.view_outside (h.others ho hut hu)
  pipe := hpipe
  copiedIn := hin
  copiedOut := hout
  returned := hreturned

-- ---------------------------------------------------------------------------
-- Steps under the lock
-- ---------------------------------------------------------------------------

theorem Call.add_cons {b : Byte} {bytes : List Byte} : c.add (b :: bytes) = (c.add [b]).add bytes := by
  cases c with
  | read size got => simp [Call.add]
  | write data written =>
    simp only [Call.add, List.length_cons, List.length_nil]
    congr 1
    omega

theorem writeRest_cons {force : Bool} {b : Byte} {bytes : List Byte} (hroom : force = true ∨ p.unread < p.size) :
    writeRest force p (b :: bytes) =
      ((writeRest force (p.put b) bytes).1, b :: (writeRest force (p.put b) bytes).2) := by
  cases force with
  | true => rfl
  | false =>
    have hroom : p.unread < p.size := hroom.resolve_left Bool.false_ne_true
    simp only [writeRest, writeLoop, if_pos hroom, Bool.false_eq_true, if_false]

theorem Pipe.rest_goesOn {force : Bool} (h : c.goesOn p force = true) : p.rest (c, .test force) = p.rest (c, .copy force) := by
  cases c with
  | read size got =>
    simp only [Call.goesOn, Bool.and_eq_true, decide_eq_true_eq] at h
    obtain ⟨n, hn⟩ : ∃ n, size - got.length = n + 1 := ⟨size - got.length - 1, by omega⟩
    have hn' : size - (got.length + 1) = n := by omega
    simp only [Pipe.rest, hn, hn', readLoop, if_pos h.1]
  | write data written =>
    simp only [Call.goesOn, Bool.and_eq_true, Bool.or_eq_true, decide_eq_true_eq] at h
    obtain ⟨hroom, hlt⟩ := h
    simp only [Pipe.rest, List.drop_eq_getElem_cons hlt, writeRest_cons hroom]

theorem Pipe.rest_done {force : Bool} (h : c.goesOn p force = false) : p.rest (c, .test force) = (p, []) := by
  cases c with
  | read size got =>
    simp only [Call.goesOn, Bool.and_eq_false_iff, decide_eq_false_iff_not, Nat.not_lt] at h
    simp only [Pipe.rest]
    cases hn : size - got.length with
    | zero => rfl
    | succ n =>
      have hempty : ¬0 < p.unread := by omega
      rw [readLoop, if_neg hempty]
  | write data written =>
    simp only [Call.goesOn, Bool.and_eq_false_iff, Bool.or_eq_false_iff, decide_eq_false_iff_not, Nat.not_lt] at h
    simp only [Pipe.rest]
    cases hrest : data.drop written with
    | nil => cases force <;> rfl
    | cons b bytes =>
      obtain ⟨rfl, hfull⟩ : force = false ∧ p.size ≤ p.unread := by
        refine h.resolve_right fun hle => ?_
        rw [List.drop_eq_nil_of_le hle] at hrest
        cases hrest
      simp only [writeRest, writeLoop, if_neg (Nat.not_lt.mpr hfull), Bool.false_eq_true, if_false]

theorem Pipe.rest_copy_read {size : Nat} {got : List Byte} {force : Bool} :
    p.rest (.read size got, .copy force) =
      ((p.rest (.read size (got ++ [p.buffer (p.readPos % p.size)]), .move force)).1,
        p.buffer (p.readPos % p.size) ::
          (p.rest (.read size (got ++ [p.buffer (p.readPos % p.size)]), .move force)).2) := by
  simp only [Pipe.rest, List.length_append, List.length_singleton]

theorem Pipe.rest_copy_write {data : List Byte} {written : Nat} {force : Bool} {b : Byte}
    (hb : data[written]? = some b)
    (hq : q = { p with buffer := Function.update p.buffer (p.writePos % p.size) b }) :
    p.rest (.write data written, .copy force) = ((q.rest (.write data (written + 1), .move force)).1,
      b :: (q.rest (.write data (written + 1), .move force)).2) := by
  subst hq
  obtain ⟨hlt, rfl⟩ := List.getElem?_eq_some_iff.mp hb
  simp only [Pipe.rest, List.drop_eq_getElem_cons hlt]
  rfl

theorem Pipe.rest_move {force : Bool} : p.rest (c, .move force) = (p.moved c).rest (c, .test force) := by
  cases c <;> rfl

theorem writeSection_eq {bytes : List Byte} :
    writeSection p bytes = writeRest (decide (p.readers = 0)) p bytes := by
  unfold writeSection writeRest
  by_cases h : p.readers = 0 <;> simp [h]

-- ---------------------------------------------------------------------------
-- One instruction
-- ---------------------------------------------------------------------------

theorem Abstracts.not_owner (h : Abstracts s o a) (hx : s.thread t = some x) (hout : x.2.inside = false)
    (y : Call × Spot) : o ≠ some (t, y) := by
  rintro rfl
  obtain ⟨hy, hin⟩ := h.owned rfl
  obtain rfl := Option.some.inj (hx.symm.trans hy)
  cases hout.symm.trans hin

theorem PipeRun.setThread_same {y : Option (Call × Stage)} {w : List Tid} (hy : a.thread t = y)
    (hw : a.waiting = w) : { a with waiting := w }.setThread t y = a := by
  subst hy hw
  unfold PipeRun.setThread
  rw [Function.update_eq_self]

theorem Abstracts.stutter (h : Abstracts s o a) (hx : s.thread t = some x) (hout : x.2.inside = false)
    (hout' : x'.2.inside = false) (hseen : s.pipe.Seen x') (hview : s.pipe.view x' = s.pipe.view x) :
    Abstracts (s.setThread t (some x')) o a := by
  have hx' : ∀ z, some x' = some z → z.2.inside = false ∧ s.pipe.Seen z := by
    intro z hz
    obtain rfl := Option.some.inj hz
    exact ⟨hout', hseen⟩
  have hgoes := h.goes (h.not_owner hx hout) hx' s.waiting
  have hsame : a.thread t = (some x').bind s.pipe.view := by
    rw [h.thread t, hx, Option.bind_some, Option.bind_some, hview]
  rwa [PipeRun.setThread_same hsame h.waiting] at hgoes

theorem Abstracts.returns (h : Abstracts s o a) (l : List (Tid × Call)) :
    Abstracts { s with returned := s.returned ++ l } o { a with returned := a.returned ++ l } where
  owner := h.owner
  owned := h.owned
  word := h.word
  seen := h.seen
  waiting := h.waiting
  thread := h.thread
  pipe := h.pipe
  copiedIn := h.copiedIn
  copiedOut := h.copiedOut
  returned := by
    refine (h.returned.append_right l).trans ?_
    rw [List.append_assoc, List.append_assoc]
    exact List.Perm.append_left _ List.perm_append_comm

theorem Abstracts.works (h : Abstracts s (some (t, x)) a) (hin : x'.2.inside = true)
    (hsemaphore : s'.semaphore = s.semaphore) (hwaiting : s'.waiting = s.waiting)
    (hthread : s'.thread = Function.update s.thread t (some x')) (hreturned : s'.returned = s.returned)
    (hseen : s'.pipe.Seen x') (hview : s'.pipe.view x' = s.pipe.view x)
    (hpipe : (s'.pipe.rest x').1 = (s.pipe.rest x).1)
    (hcin : s'.copiedIn ++ bytesIn t x'.1 (s'.pipe.rest x').2 = s.copiedIn ++ bytesIn t x.1 (s.pipe.rest x).2)
    (hcout : s'.copiedOut ++ bytesOut t x'.1 (s'.pipe.rest x').2 = s.copiedOut ++ bytesOut t x.1 (s.pipe.rest x).2)
    (hleaving : leaving t x' = leaving t x) : Abstracts s' (some (t, x')) a := by
  have hsame : a.thread t = (some x').bind s'.pipe.view := by
    rw [h.thread t, (h.owned rfl).1, Option.bind_some, Option.bind_some, hview]
  have hword : s'.semaphore = 1 := hsemaphore.trans h.word
  have hpipe' : a.pipe = (s'.pipe.rest x').1 := h.pipe.trans hpipe.symm
  have hcin' : a.copiedIn = s'.copiedIn ++ bytesIn t x'.1 (s'.pipe.rest x').2 := h.copiedIn.trans hcin.symm
  have hcout' : a.copiedOut = s'.copiedOut ++ bytesOut t x'.1 (s'.pipe.rest x').2 := h.copiedOut.trans hcout.symm
  refine h.update (fun z hz => ?_) (fun z => ?_) hword hwaiting hthread (fun z hz => Option.some.inj hz ▸ hseen) ?_ rfl
    hpipe' hcin' hcout' ?_
  · obtain rfl := Option.some.inj hz
    rfl
  · constructor
    · intro hz
      obtain rfl := Option.some.inj hz
      exact ⟨x', rfl, hin, rfl⟩
    · rintro ⟨y, hy, -, rfl⟩
      rw [Option.some.inj hy]
  · rw [← hsame, Function.update_eq_self]
  · have hret : a.returned.Perm (s.returned ++ leaving t x) := h.returned
    rw [hreturned]
    rwa [← hleaving] at hret

theorem Abstracts.releases (h : Abstracts s (some (t, x)) a) {y : Option (Call × Spot)}
    (hsemaphore : s'.semaphore = 0) (hwaiting : s'.waiting = s.waiting)
    (hthread : s'.thread = Function.update s.thread t y) (hpipe : s'.pipe = s.pipe)
    (hcin : s'.copiedIn = s.copiedIn) (hcout : s'.copiedOut = s.copiedOut)
    (hreturned : s'.returned = s.returned ++ leaving t x)
    (hy : ∀ z, y = some z → z.2.inside = false ∧ s.pipe.Seen z) (hview : y.bind s.pipe.view = s.pipe.view x)
    (hrest : s.pipe.rest x = (s.pipe, [])) : Abstracts s' none a := by
  have hsame : a.thread t = y.bind s'.pipe.view := by
    rw [h.thread t, (h.owned rfl).1, Option.bind_some, hpipe, hview]
  have hnone : bytesIn t x.1 [] = [] ∧ bytesOut t x.1 [] = [] := by
    obtain ⟨c, i⟩ := x
    cases c <;> exact ⟨rfl, rfl⟩
  have hpipe' : a.pipe = (s.pipe.rest x).1 := h.pipe
  have hcin' : a.copiedIn = s.copiedIn ++ bytesIn t x.1 (s.pipe.rest x).2 := h.copiedIn
  have hcout' : a.copiedOut = s.copiedOut ++ bytesOut t x.1 (s.pipe.rest x).2 := h.copiedOut
  rw [hrest, ← hpipe] at hpipe'
  rw [hrest, hnone.1, ← hcin] at hcin'
  rw [hrest, hnone.2, ← hcout] at hcout'
  refine h.update (fun z hz => ?_) (fun z => ?_) hsemaphore hwaiting hthread (fun z hz => hpipe ▸ (hy z hz).2) ?_ rfl
    hpipe' hcin' hcout' ?_
  · obtain rfl := Option.some.inj hz
    rfl
  · constructor
    · intro hz
      cases hz
    · rintro ⟨z, hz, hin, -⟩
      cases (hy z hz).1.symm.trans hin
  · rw [← hsame, Function.update_eq_self]
  · rw [Option.elim_none, List.append_nil, hreturned]
    exact h.returned

theorem Abstracts.acquires (h : Abstracts s none a) (hx : s.thread t = some (c, .spin .exchange))
    (hsemaphore : s'.semaphore = 1) (hwaiting : s'.waiting = s.waiting)
    (hthread : s'.thread = Function.update s.thread t (some (c, .spin (.branch true)))) (hpipe : s'.pipe = s.pipe)
    (hcin : s'.copiedIn = s.copiedIn) (hcout : s'.copiedOut = s.copiedOut) (hreturned : s'.returned = s.returned) :
    Abstracts s' (some (t, (c, .spin (.branch true)))) a := by
  have hrest : s'.pipe.rest (c, .spin (.branch true)) = (s'.pipe, []) := by cases c <;> rfl
  have hnone : bytesIn t c [] = [] ∧ bytesOut t c [] = [] := by cases c <;> exact ⟨rfl, rfl⟩
  have hpipe' : a.pipe = (s'.pipe.rest (c, .spin (.branch true))).1 := by
    rw [hrest, hpipe]
    exact h.pipe
  have hcin' : a.copiedIn = s'.copiedIn ++ bytesIn t c (s'.pipe.rest (c, .spin (.branch true))).2 := by
    rw [hrest, hnone.1, hcin]
    exact h.copiedIn
  have hcout' : a.copiedOut = s'.copiedOut ++ bytesOut t c (s'.pipe.rest (c, .spin (.branch true))).2 := by
    rw [hrest, hnone.2, hcout]
    exact h.copiedOut
  have hsame : a.thread t = some (c, .top) := by
    rw [h.thread t, hx]
    rfl
  refine h.update (fun z hz => ?_) (fun z => ?_) hsemaphore hwaiting hthread (fun z hz => ?_) ?_ rfl hpipe' hcin' hcout'
    ?_
  · cases hz
  · constructor
    · intro hz
      obtain rfl := Option.some.inj hz
      exact ⟨_, rfl, rfl, rfl⟩
    · rintro ⟨y, hy, -, rfl⟩
      rw [Option.some.inj hy]
  · obtain rfl := Option.some.inj hz
    exact h.seen hx
  · rw [show (some (c, .spin (.branch true))).bind s'.pipe.view = a.thread t from hsame.symm, Function.update_eq_self]
  · rw [hreturned]
    exact h.returned

theorem Abstracts.looks (h : Abstracts s (some (t, (c, .users))) a) :
    ∃ x, Abstracts (s.lookUsers t c) (some (t, x)) (a.round t c) := by
  have hmore : c.more = true := h.seen (h.owned rfl).1
  have howner : ∀ z ∈ some (t, (c, Spot.users)), z.1 = t := by
    intro z hz
    obtain rfl := Option.some.inj hz
    rfl
  have hnew : ∀ {x : Call × Spot}, x.2.inside = true → ∀ z, some (t, x) = some z ↔
      ∃ y, some x = some y ∧ y.2.inside = true ∧ z = (t, y) := by
    intro x hx z
    constructor
    · intro hz
      obtain rfl := Option.some.inj hz
      exact ⟨x, rfl, hx, rfl⟩
    · rintro ⟨y, hy, -, rfl⟩
      rw [Option.some.inj hy]
  cases c with
  | read size got =>
    have hpipe : a.pipe = s.pipe := h.pipe
    have hcin : a.copiedIn = s.copiedIn ++ [] := h.copiedIn
    have hcout : a.copiedOut = s.copiedOut ++ [] := h.copiedOut
    have hret : a.returned.Perm (s.returned ++ []) := h.returned
    rw [List.append_nil] at hcin hcout hret
    have hgot : got = [] := List.isEmpty_iff.mp hmore
    by_cases hw : s.pipe.writers = 0
    · refine ⟨(.read size (got ++ [eof]), .leave), ?_⟩
      have hround : a.round t (.read size got) =
          { a with copiedOut := a.copiedOut ++ [(t, eof)] }.finish t (.read size (got ++ [eof])) := by
        simp only [PipeRun.round, PipeRun.readRound, hpipe, if_pos hw]
      rw [hround, LockRun.lookUsers, if_pos hw]
      refine h.update howner (hnew ?_) ?_ ?_ ?_ (fun z hz => ?_) ?_ ?_ hpipe ?_ ?_ ?_
      · rfl
      · exact h.word
      · rfl
      · rfl
      · obtain rfl := Option.some.inj hz
        trivial
      · rfl
      · rfl
      · exact hcin.trans (List.append_nil _).symm
      · show a.copiedOut ++ [(t, eof)] = s.copiedOut ++ [(t, eof)] ++ []
        rw [hcout, List.append_nil]
      · exact hret.append_right _
    · refine ⟨(.read size got, .test false), ?_⟩
      have hround : a.round t (.read size got) = { a with
          pipe := (readLoop s.pipe size).1, copiedOut := a.copiedOut ++ (readLoop s.pipe size).2.map (t, ·) }.setThread t (some (.read size (got ++ (readLoop s.pipe size).2), .wake)) := by
        simp only [PipeRun.round, PipeRun.readRound, hpipe, if_neg hw]
      have hrest : s.pipe.rest (.read size got, .test false) = readLoop s.pipe size := by
        rw [hgot]
        rfl
      rw [hround, LockRun.lookUsers, if_neg hw, ← hrest]
      refine h.update howner (hnew ?_) ?_ ?_ ?_ (fun z hz => ?_) ?_ ?_ ?_ ?_ ?_ ?_
      · rfl
      · exact h.word
      · rfl
      · rfl
      · obtain rfl := Option.some.inj hz
        trivial
      · rfl
      · rfl
      · rfl
      · exact hcin.trans (List.append_nil _).symm
      · show a.copiedOut ++ _ = s.copiedOut ++ _
        rw [hcout]
        rfl
      · exact hret.trans (List.Perm.of_eq (List.append_nil _).symm)
  | write data written =>
    have hpipe : a.pipe = s.pipe := h.pipe
    have hcin : a.copiedIn = s.copiedIn ++ [] := h.copiedIn
    have hcout : a.copiedOut = s.copiedOut ++ [] := h.copiedOut
    have hret : a.returned.Perm (s.returned ++ []) := h.returned
    rw [List.append_nil] at hcin hcout hret
    refine ⟨(.write data written, .test (s.pipe.readers = 0)), ?_⟩
    have hrest : writeSection s.pipe (data.drop written) =
        s.pipe.rest (.write data written, .test (s.pipe.readers = 0)) := writeSection_eq
    have hround : a.round t (.write data written) =
        { a with
          pipe := (s.pipe.rest (.write data written, .test (s.pipe.readers = 0))).1,
          copiedIn := a.copiedIn ++ (s.pipe.rest (.write data written, .test (s.pipe.readers = 0))).2.map (t, ·)
        }.setThread t (some (.write data
          (written + (s.pipe.rest (.write data written, .test (s.pipe.readers = 0))).2.length), .wake)) := by
      simp only [PipeRun.round, PipeRun.writeRound, hpipe, hrest]
    rw [hround, LockRun.lookUsers]
    refine h.update howner (hnew ?_) ?_ ?_ ?_ (fun z hz => ?_) ?_ ?_ ?_ ?_ ?_ ?_
    · rfl
    · exact h.word
    · rfl
    · rfl
    · obtain rfl := Option.some.inj hz
      trivial
    · rfl
    · rfl
    · rfl
    · show a.copiedIn ++ _ = s.copiedIn ++ _
      rw [hcin]
      rfl
    · exact hcout.trans (List.append_nil _).symm
    · exact hret.trans (List.Perm.of_eq (List.append_nil _).symm)

/-- What a step of a thread comes to in the run in whole rounds: nothing, or a step of that thread. -/
def Abstracts.Matched (s : LockRun) (a : PipeRun) (act : PipeAct) (s' : LockRun) : Prop :=
  ∃ o' a', Abstracts s' o' a' ∧
    (a' = a ∨ (LockDelivers s act → Delivers a act) ∧ a.step act = some a')

/-- The stages of a thread that is not at the top of its loop look for nobody. -/
theorem delivers_advance {y : Option (Call × Stage)} (hy : a.thread t = y)
    (hend : ∀ c, y = some (c, .top) → c.more = false) : Delivers a (.advance t) := by
  intro c hc
  unfold PipeRun.entering at hc
  rw [hy] at hc
  cases y with
  | none => cases hc
  | some z =>
    obtain ⟨d, st⟩ := z
    cases st with
    | top =>
      simp only [hend d rfl, Bool.false_eq_true, if_false] at hc
      cases hc
    | wake | sleep | asleep => cases hc

theorem PipeRun.step_advance {y : Call × Stage} (hy : a.thread t = some y) : a.step (.advance t) = a.advance t y := by
  rw [PipeRun.step, hy, Option.bind_some]

/-- A step outside the lock that the run in whole rounds takes too. -/
theorem Abstracts.Matched.seen {act : PipeAct} (h : Abstracts s o a) (hx : s.thread t = some x)
    (hout : x.2.inside = false) (hout' : x'.2.inside = false) (hseen : s.pipe.Seen x') {w : List Tid}
    (hstep : (LockDelivers s act → Delivers a act) ∧
      a.step act = some ({ a with waiting := w }.setThread t (s.pipe.view x'))) :
    Matched s a act ({ s with waiting := w }.setThread t (some x')) := by
  have hx' : ∀ z, some x' = some z → z.2.inside = false ∧ s.pipe.Seen z := by
    intro z hz
    obtain rfl := Option.some.inj hz
    exact ⟨hout', hseen⟩
  exact ⟨o, _, h.goes (h.not_owner hx hout) hx' w, .inr hstep⟩

theorem Abstracts.spins (h : Abstracts s o a) {k : Spin} (hx : s.thread t = some (c, .spin k))
    (hs : s.advance t (c, .spin k) = some s') : Matched s a (.advance t) s' := by
  have hmore : c.more = true := h.seen hx
  cases k with
  | retry =>
    obtain rfl := Option.some.inj hs
    exact ⟨o, a, h.stutter hx rfl rfl hmore rfl, .inl rfl⟩
  | exchange =>
    obtain rfl := Option.some.inj hs
    have hword := h.word
    cases o with
    | none =>
      have hzero : s.semaphore = 0 := hword
      rw [hzero]
      exact ⟨some (t, (c, .spin (.branch true))), a, h.acquires hx rfl rfl rfl rfl rfl rfl rfl, .inl rfl⟩
    | some z =>
      have hone : s.semaphore = 1 := hword
      have hsame : { s with semaphore := (cmpxchg s.semaphore).1 } = s := by
        rw [hone, show (cmpxchg 1).1 = s.semaphore from hone.symm]
      have hfails : (cmpxchg s.semaphore).2 = false := by rw [hone]; rfl
      rw [hsame, hfails]
      exact ⟨some z, a, h.stutter hx rfl rfl hmore rfl, .inl rfl⟩
  | branch zero =>
    obtain rfl := Option.some.inj hs
    cases zero with
    | false => exact ⟨o, a, h.stutter hx rfl rfl hmore rfl, .inl rfl⟩
    | true =>
      obtain rfl := h.owner hx rfl
      have hrest : s.pipe.rest (c, .users) = s.pipe.rest (c, .spin (.branch true)) := by cases c <;> rfl
      refine ⟨some (t, (c, .users)), a, h.works rfl rfl rfl rfl rfl hmore rfl ?_ ?_ ?_ rfl, .inl rfl⟩
      · exact congrArg Prod.fst hrest
      · exact congrArg (fun r => s.copiedIn ++ bytesIn t c r.2) hrest
      · exact congrArg (fun r => s.copiedOut ++ bytesOut t c r.2) hrest

theorem Abstracts.copies (h : Abstracts s (some (t, (c, i))) a) (hi : i ≠ .users) (hin : i.inside = true)
    (hspin : ∀ k, i ≠ .spin k) (hs : s.advance t (c, i) = some s') : Matched s a (.advance t) s' := by
  have hx := (h.owned rfl).1
  cases i with
  | top | wake | sleep | asleep => cases hin
  | spin k => exact absurd rfl (hspin k)
  | users => exact absurd rfl hi
  | test force =>
    obtain rfl := Option.some.inj hs
    cases hgo : c.goesOn s.pipe force with
    | true =>
      have hrest := Pipe.rest_goesOn hgo
      rw [if_pos rfl]
      refine ⟨some (t, (c, .copy force)), a, h.works rfl rfl rfl rfl rfl hgo ?_ ?_ ?_ ?_ rfl, .inl rfl⟩
      · show some (c.add (s.pipe.rest (c, .copy force)).2, Stage.wake) = some (c.add (s.pipe.rest (c, .test force)).2, _)
        rw [hrest]
      · exact congrArg Prod.fst hrest.symm
      · exact congrArg (fun r => s.copiedIn ++ bytesIn t c r.2) hrest.symm
      · exact congrArg (fun r => s.copiedOut ++ bytesOut t c r.2) hrest.symm
    | false =>
      have hrest : s.pipe.rest (c, .unlock) = s.pipe.rest (c, .test force) := by
        rw [Pipe.rest_done hgo]
        cases c <;> rfl
      rw [if_neg Bool.false_ne_true]
      refine ⟨some (t, (c, .unlock)), a, h.works rfl rfl rfl rfl rfl trivial ?_ ?_ ?_ ?_ rfl, .inl rfl⟩
      · show some (c, Stage.wake) = some (c.add (s.pipe.rest (c, .test force)).2, _)
        rw [Pipe.rest_done hgo]
        cases c <;> simp [Call.add]
      · exact congrArg Prod.fst hrest
      · exact congrArg (fun r => s.copiedIn ++ bytesIn t c r.2) hrest
      · exact congrArg (fun r => s.copiedOut ++ bytesOut t c r.2) hrest
  | copy force =>
    cases c with
    | read size got =>
      obtain rfl := Option.some.inj hs
      have hrest := @Pipe.rest_copy_read s.pipe size got force
      refine ⟨some (t, (.read size (got ++ [_]), .move force)), a, h.works rfl rfl rfl rfl rfl trivial ?_ ?_ rfl ?_ rfl,
        .inl rfl⟩
      · show some (Call.add _ (.read size (got ++ _)), Stage.wake) = some (Call.add (s.pipe.rest _).2 (.read size got), _)
        rw [hrest, Call.add_cons]
        rfl
      · rw [hrest]
        rfl
      · show s.copiedOut ++ [_] ++ _ = s.copiedOut ++ bytesOut t (.read size got) (s.pipe.rest _).2
        rw [hrest, List.append_assoc]
        rfl
    | write data written =>
      obtain ⟨b, hb, hs⟩ := Option.bind_eq_some_iff.mp hs
      obtain rfl := Option.some.inj hs
      have hrest := @Pipe.rest_copy_write s.pipe _ data written force b hb rfl
      refine ⟨some (t, (.write data (written + 1), .move force)), a, h.works rfl rfl rfl rfl rfl trivial ?_ ?_ ?_ rfl rfl,
        .inl rfl⟩
      · show some (Call.add _ (.write data (written + 1)), Stage.wake) =
          some (Call.add (s.pipe.rest _).2 (.write data written), _)
        rw [hrest, Call.add_cons]
        rfl
      · rw [hrest]
        rfl
      · show s.copiedIn ++ [_] ++ _ = s.copiedIn ++ bytesIn t (.write data written) (s.pipe.rest _).2
        rw [hrest, List.append_assoc]
        rfl
  | move force =>
    obtain rfl := Option.some.inj hs
    have hrest : s.pipe.rest (c, .move force) = (s.pipe.moved c).rest (c, .test force) := Pipe.rest_move
    refine ⟨some (t, (c, .test force)), a, h.works rfl rfl rfl rfl rfl trivial ?_ ?_ ?_ ?_ rfl, .inl rfl⟩
    · show some (c.add ((s.pipe.moved c).rest (c, .test force)).2, Stage.wake) =
        some (c.add (s.pipe.rest (c, .move force)).2, _)
      rw [hrest]
    · exact congrArg Prod.fst hrest.symm
    · exact congrArg (fun r => s.copiedIn ++ bytesIn t c r.2) hrest.symm
    · exact congrArg (fun r => s.copiedOut ++ bytesOut t c r.2) hrest.symm
  | unlock =>
    obtain rfl := Option.some.inj hs
    have hrest : s.pipe.rest (c, .unlock) = (s.pipe, []) := by cases c <;> rfl
    refine ⟨none, a, h.releases (y := some (c, .wake)) rfl rfl rfl rfl rfl rfl (List.append_nil _).symm ?_ rfl hrest,
      .inl rfl⟩
    intro z hz
    obtain rfl := Option.some.inj hz
    exact ⟨rfl, trivial⟩
  | leave =>
    obtain rfl := Option.some.inj hs
    have hrest : s.pipe.rest (c, .leave) = (s.pipe, []) := by cases c <;> rfl
    refine ⟨none, a, h.releases (y := none) rfl rfl rfl rfl rfl rfl rfl ?_ rfl hrest, .inl rfl⟩
    intro z hz
    cases hz

theorem Abstracts.advance (h : Abstracts s o a) (hx : s.thread t = some (c, i))
    (hs : s.advance t (c, i) = some s') : Matched s a (.advance t) s' := by
  have hview : a.thread t = s.pipe.view (c, i) := by rw [h.thread t, hx, Option.bind_some]
  cases i with
  | spin k => exact h.spins hx hs
  | users =>
    obtain rfl := Option.some.inj hs
    obtain rfl := h.owner hx rfl
    obtain ⟨x, hlooks⟩ := h.looks
    have hmore : c.more = true := h.seen hx
    have hpipe : a.pipe = s.pipe := by
      have hrest : s.pipe.rest (c, .users) = (s.pipe, []) := by cases c <;> rfl
      exact h.pipe.trans (congrArg Prod.fst hrest)
    refine ⟨_, _, hlooks, .inr ⟨fun hok d hd => ?_, ?_⟩⟩
    · have hentering : a.entering t = some c := by
        unfold PipeRun.entering
        rw [hview]
        exact if_pos hmore
      obtain rfl := Option.some.inj (hentering.symm.trans hd)
      rw [hpipe]
      exact hok c (by simp [LockRun.looking, hx])
    · rw [PipeRun.step_advance hview]
      exact congrArg some (if_pos hmore)
  | test force =>
    obtain rfl := h.owner hx rfl
    exact h.copies (by simp) rfl (by simp) hs
  | copy force =>
    obtain rfl := h.owner hx rfl
    exact h.copies (by simp) rfl (by simp) hs
  | move force =>
    obtain rfl := h.owner hx rfl
    exact h.copies (by simp) rfl (by simp) hs
  | unlock =>
    obtain rfl := h.owner hx rfl
    exact h.copies (by simp) rfl (by simp) hs
  | leave =>
    obtain rfl := h.owner hx rfl
    exact h.copies (by simp) rfl (by simp) hs
  | top =>
    obtain rfl := Option.some.inj hs
    cases hmore : c.more with
    | true => exact ⟨o, a, h.stutter hx rfl rfl hmore rfl, .inl rfl⟩
    | false =>
      have hgone := (h.goes (y := none) (h.not_owner hx rfl) (by simp) s.waiting).returns [(t, c)]
      refine ⟨o, _, hgone, .inr ⟨fun _ => delivers_advance hview ?_, ?_⟩⟩
      · intro d hd
        obtain ⟨rfl, -⟩ := Prod.mk.inj (Option.some.inj hd)
        exact hmore
      · rw [PipeRun.step_advance hview, PipeRun.advance, hmore, ← h.waiting]
        rfl
  | wake =>
    obtain rfl := Option.some.inj hs
    refine .seen h hx rfl (by cases c.more <;> rfl) (by cases c.more <;> trivial)
      ⟨fun _ => delivers_advance hview (by simp [Pipe.view]), ?_⟩
    rw [PipeRun.step_advance hview, PipeRun.advance]
    cases c.more <;> rfl
  | sleep =>
    obtain rfl := Option.some.inj hs
    refine .seen h hx rfl rfl ?_ ⟨fun _ => delivers_advance hview (by simp [Pipe.view]), ?_⟩
    · trivial
    · rw [PipeRun.step_advance hview, PipeRun.advance, h.waiting]
      rfl
  | asleep =>
    simp only [LockRun.advance] at hs
    split at hs
    · cases hs
    next hawake =>
    obtain rfl := Option.some.inj hs
    refine .seen h hx rfl rfl ?_ ⟨fun _ => delivers_advance hview (by simp [Pipe.view]), ?_⟩
    · trivial
    · rw [PipeRun.step_advance hview, PipeRun.advance, if_neg (h.waiting.symm ▸ hawake), ← h.waiting]
      rfl

-- ---------------------------------------------------------------------------
-- The other actions
-- ---------------------------------------------------------------------------

def Pipe.withUsers (p : Pipe) (r w : Nat) : Pipe := { p with readers := r, writers := w }

theorem readLoop_withUsers (r w n : Nat) :
    readLoop (p.withUsers r w) n = ((readLoop p n).1.withUsers r w, (readLoop p n).2) := by
  induction n generalizing p with
  | zero => rfl
  | succ n ih =>
    simp only [readLoop]
    have hsame : (p.withUsers r w).unread = p.unread := rfl
    rw [hsame]
    split
    · have hdrop : (p.withUsers r w).drop = p.drop.withUsers r w := rfl
      rw [hdrop, ih]
      rfl
    · rfl

theorem writeRest_withUsers (r w : Nat) (force : Bool) (bytes : List Byte) :
    writeRest force (p.withUsers r w) bytes =
      ((writeRest force p bytes).1.withUsers r w, (writeRest force p bytes).2) := by
  induction bytes generalizing p with
  | nil => cases force <;> rfl
  | cons b bytes ih =>
    have hput : (p.withUsers r w).put b = (p.put b).withUsers r w := rfl
    have hunread : (p.withUsers r w).unread = p.unread := rfl
    by_cases hroom : force = true ∨ p.unread < p.size
    · rw [writeRest_cons hroom, writeRest_cons (p := p.withUsers r w) hroom, hput, ih]
    · obtain ⟨hforce, hfull⟩ := not_or.mp hroom
      have hfull' : ¬(p.withUsers r w).unread < (p.withUsers r w).size := hfull
      cases force with
      | true => exact absurd rfl hforce
      | false => simp only [writeRest, writeLoop, if_neg hfull, if_neg hfull', Bool.false_eq_true, if_false]

theorem Pipe.rest_withUsers (r w : Nat) : (p.withUsers r w).rest x = ((p.rest x).1.withUsers r w, (p.rest x).2) := by
  obtain ⟨c, i⟩ := x
  cases c with
  | read size got =>
    cases i with
    | test force => exact readLoop_withUsers r w _
    | copy force =>
      have hdrop : (p.withUsers r w).drop = p.drop.withUsers r w := rfl
      simp only [Pipe.rest, hdrop, readLoop_withUsers]
      rfl
    | move force =>
      have hdrop : (p.withUsers r w).drop = p.drop.withUsers r w := rfl
      simp only [Pipe.rest, hdrop, readLoop_withUsers]
    | _ => rfl
  | write data written =>
    cases i with
    | test force => exact writeRest_withUsers r w _ _
    | copy force =>
      simp only [Pipe.rest]
      cases data.drop written with
      | nil => rfl
      | cons b bytes =>
        have hput : (p.withUsers r w).put b = (p.put b).withUsers r w := rfl
        simp only [hput, writeRest_withUsers]
    | move force =>
      have hmoved : (p.withUsers r w).moved (.write data written) = (p.moved (.write data written)).withUsers r w := rfl
      simp only [Pipe.rest, hmoved, writeRest_withUsers]
    | _ => rfl

theorem Pipe.view_withUsers (r w : Nat) : (p.withUsers r w).view x = p.view x := by
  obtain ⟨c, i⟩ := x
  have hrest : ∀ i, ((p.withUsers r w).rest (c, i)).2 = (p.rest (c, i)).2 := by
    intro i
    rw [Pipe.rest_withUsers]
  cases i <;> simp only [Pipe.view, hrest]

theorem LockRun.left_withUsers (r w : Nat) (o : Option (Tid × (Call × Spot))) :
    LockRun.left { s with pipe := s.pipe.withUsers r w } o = ((s.left o).1.withUsers r w, (s.left o).2) := by
  cases o with
  | none => rfl
  | some z => exact Pipe.rest_withUsers r w

/-- `pipe_open` and `pipe_close` do not wait for the lock, and need not. -/
theorem Abstracts.withUsers (h : Abstracts s o a) (r w : Nat) :
    Abstracts { s with pipe := s.pipe.withUsers r w } o { a with pipe := a.pipe.withUsers r w } where
  owner := h.owner
  owned := h.owned
  word := h.word
  seen {t x} hx := by
    have hseen := h.seen hx
    obtain ⟨c, i⟩ := x
    cases i with
    | copy force => cases c <;> exact hseen
    | _ => exact hseen
  waiting := h.waiting
  thread t := by
    rw [h.thread t]
    cases s.thread t with
    | none => rfl
    | some x => exact (Pipe.view_withUsers r w).symm
  pipe := by
    rw [LockRun.left_withUsers, ← h.pipe]
  copiedIn := by
    rw [LockRun.left_withUsers]
    exact h.copiedIn
  copiedOut := by
    rw [LockRun.left_withUsers]
    exact h.copiedOut
  returned := h.returned

theorem Abstracts.sameUsers (h : Abstracts s o a) : a.pipe = a.pipe.withUsers s.pipe.readers s.pipe.writers := by
  have hself : { s with pipe := s.pipe.withUsers s.pipe.readers s.pipe.writers } = s := rfl
  have hleft := LockRun.left_withUsers (s := s) s.pipe.readers s.pipe.writers o
  rw [hself] at hleft
  rw [h.pipe]
  exact congrArg Prod.fst hleft

theorem Abstracts.call (h : Abstracts s o a) {act : PipeAct} {n : Nat} (hs : s.call t n c = some s')
    (hact : a.step act = a.call t n c) (hok : Delivers a act) : Matched s a act s' := by
  unfold LockRun.call at hs
  split at hs
  swap
  · cases hs
  next hidle =>
  obtain rfl := Option.some.inj hs
  have hnone : a.thread t = none := by
    rw [h.thread t, hidle.1]
    rfl
  have howner : ∀ x, o ≠ some (t, x) := by
    rintro x rfl
    cases hidle.1.symm.trans (h.owned rfl).1
  have hgoes := h.goes (y := some (c, .top)) howner ?_ s.waiting
  · refine ⟨o, _, hgoes, .inr ⟨fun _ => hok, ?_⟩⟩
    rw [hact, PipeRun.call, if_pos ⟨hnone, hidle.2⟩, ← h.waiting]
    rfl
  · intro z hz
    obtain rfl := Option.some.inj hz
    exact ⟨rfl, trivial⟩

theorem Abstracts.stray (h : Abstracts s o a) :
    Abstracts { s with waiting := s.waiting.filter (· ≠ t) } o { a with waiting := a.waiting.filter (· ≠ t) } where
  owner := h.owner
  owned := h.owned
  word := h.word
  seen := h.seen
  waiting := congrArg _ h.waiting
  thread := h.thread
  pipe := h.pipe
  copiedIn := h.copiedIn
  copiedOut := h.copiedOut
  returned := h.returned

theorem Abstracts.step (h : Abstracts s o a) {act : PipeAct} (hs : s.step act = some s') : Matched s a act s' := by
  have husers : ∀ r w, Abstracts { s with pipe := s.pipe.withUsers r w } o { a with pipe := a.pipe.withUsers r w } :=
    h.withUsers
  have hsame := h.sameUsers
  cases act with
  | openEnd e =>
    obtain rfl := Option.some.inj hs
    refine ⟨o, { a with pipe := pipeOpen a.pipe e }, ?_, .inr ⟨fun _ => trivial, rfl⟩⟩
    rw [hsame]
    cases e with
    | read => exact husers (s.pipe.readers + 1) s.pipe.writers
    | write => exact husers s.pipe.readers (s.pipe.writers + 1)
  | closeEnd e =>
    obtain rfl := Option.some.inj hs
    refine ⟨o, { a with pipe := pipeClose a.pipe e }, ?_, .inr ⟨fun _ => trivial, rfl⟩⟩
    rw [hsame]
    cases e with
    | read => exact husers (decr s.pipe.readers) s.pipe.writers
    | write => exact husers s.pipe.readers (decr s.pipe.writers)
  | read t n => exact h.call hs rfl trivial
  | write t data => exact h.call hs rfl trivial
  | advance t =>
    obtain ⟨⟨c, i⟩, hx, hs⟩ := Option.bind_eq_some_iff.mp hs
    exact h.advance hx hs
  | stray t =>
    obtain rfl := Option.some.inj hs
    exact ⟨o, _, h.stray, .inr ⟨fun _ => trivial, rfl⟩⟩

-- ---------------------------------------------------------------------------
-- Runs
-- ---------------------------------------------------------------------------

theorem FreshLock.abstracts (h : FreshLock size s) : ∃ a, FreshPipe size a ∧ Abstracts s none a := by
  obtain ⟨buffer, rfl⟩ := h
  refine ⟨_, ⟨buffer, rfl⟩, ⟨?_, ?_, rfl, ?_, rfl, fun _ => rfl, rfl, rfl, rfl, List.Perm.refl _⟩⟩
  · intro t x hx
    cases hx
  · intro t x ho
    cases ho
  · intro t x hx
    cases hx

theorem reach_abstracts {ok : LockRun → PipeAct → Prop} {ok' : PipeRun → PipeAct → Prop}
    (hok : ∀ s a act, ok s act → (LockDelivers s act → Delivers a act) → ok' a act)
    (h : Reach LockRun.step ok (FreshLock size) s) :
    ∃ o a, Abstracts s o a ∧ Reach PipeRun.step ok' (FreshPipe size) a := by
  induction h with
  | start h0 =>
    obtain ⟨a, hfresh, ha⟩ := h0.abstracts
    exact ⟨none, a, ha, .start hfresh⟩
  | next _ hs hstep ih =>
    obtain ⟨o, a, ha, hreach⟩ := ih
    obtain ⟨o', a', ha', rfl | ⟨hdelivers, hact⟩⟩ := ha.step hstep
    · exact ⟨o', a', ha', hreach⟩
    · exact ⟨o', a', ha', hreach.next (hok _ _ _ hs hdelivers) hact⟩

theorem Abstracts.unlocked (h : Abstracts s o a) (hfree : s.semaphore = 0) :
    a.pipe = s.pipe ∧ a.copiedIn = s.copiedIn ∧ a.copiedOut = s.copiedOut ∧ a.returned.Perm s.returned := by
  have hword := h.word
  cases o with
  | some z => cases hfree.symm.trans hword
  | none =>
    have hin : a.copiedIn = s.copiedIn ++ [] := h.copiedIn
    have hout : a.copiedOut = s.copiedOut ++ [] := h.copiedOut
    have hret : a.returned.Perm (s.returned ++ []) := h.returned
    rw [List.append_nil] at hin hout hret
    exact ⟨h.pipe, hin, hout, hret⟩

theorem Abstracts.exclusive (h : Abstracts s o a) :
    (∀ t u, s.Inside t → s.Inside u → t = u) ∧ (s.semaphore = 0 ↔ ∀ t, ¬s.Inside t) := by
  refine ⟨?_, ?_⟩
  · rintro t u ⟨c, i, ht, hin⟩ ⟨d, k, hu, hin'⟩
    exact (Prod.mk.inj (Option.some.inj ((h.owner ht hin).symm.trans (h.owner hu hin')))).1
  · have hword := h.word
    cases o with
    | none =>
      refine iff_of_true hword ?_
      rintro t ⟨c, i, ht, hin⟩
      cases h.owner ht hin
    | some z =>
      obtain ⟨t, c, i⟩ := z
      obtain ⟨ht, hin⟩ := h.owned rfl
      refine iff_of_false (fun hzero => ?_) fun hnone => hnone t ⟨c, i, ht, hin⟩
      cases hzero.symm.trans hword

/-- Instruction by instruction, in any order, at most one thread is under the lock of the pipe, and
whenever it is free the run has come to where one in whole rounds comes, with the same calls
returned. If the other end is there when it is looked for, no byte is lost, made up or moved. -/
theorem pipe_locked (size : Nat) :
    (∀ s, Reach LockRun.step Any (FreshLock size) s →
      (∀ t u, s.Inside t → s.Inside u → t = u) ∧ (s.semaphore = 0 ↔ ∀ t, ¬s.Inside t) ∧
      ∃ a, Reach PipeRun.step Any (FreshPipe size) a ∧ (s.semaphore = 0 →
        a.pipe = s.pipe ∧ a.copiedIn = s.copiedIn ∧ a.copiedOut = s.copiedOut ∧ a.returned.Perm s.returned)) ∧
    (size = 512 ∨ size = 1024 → ∀ s, Reach LockRun.step LockDelivers (FreshLock size) s → s.semaphore = 0 →
      s.copiedOut.map (·.2) ++ s.pipe.content = s.copiedIn.map (·.2)) := by
  refine ⟨fun s h => ?_, fun hsize s h hfree => ?_⟩
  · obtain ⟨o, a, ha, hreach⟩ : ∃ o a, Abstracts s o a ∧ Reach PipeRun.step Any (FreshPipe size) a :=
      reach_abstracts (fun _ _ _ _ _ => trivial) h
    obtain ⟨hone, hfree⟩ := ha.exclusive
    exact ⟨hone, hfree, a, hreach, ha.unlocked⟩
  · obtain ⟨o, a, ha, hreach⟩ := reach_abstracts (fun _ _ _ hok hdelivers => hdelivers hok) h
    obtain ⟨hpipe, hin, hout, -⟩ := ha.unlocked hfree
    have hinv : a.Inv size :=
      hreach.invariant (fun _ h0 => h0.inv hsize) fun _ _ _ hinv hok hs => hinv.step hok hs
    rw [← hpipe, ← hin, ← hout]
    exact hinv.fifo

end

def userLock : LockRun := ⟨newPipe 512 fun _ => 0, 0, [], fun _ => none, [], [], []⟩

/-- A writer and a reader at once: the reader's `cmpxchg` fails while the writer has the lock. The
writer stores both bytes, though the other end is closed in between, and gives the lock back. -/
def contention : List PipeAct :=
  [.openEnd .read, .openEnd .write, .write 1 [7, 8], .read 2 4, .advance 1, .advance 1, .advance 2, .advance 2,
    .advance 1, .advance 2, .advance 2, .advance 1, .advance 1, .advance 1, .advance 1, .closeEnd .read, .advance 1,
    .advance 1, .advance 2, .advance 2, .advance 2, .advance 1, .advance 1, .advance 1, .advance 1]

theorem pipe_locked_contention : ∃ s, exec LockRun.step userLock contention = some s ∧
    s.copiedOut.map (·.2) ++ s.pipe.content = s.copiedIn.map (·.2) ∧
    ∃ a, Reach PipeRun.step Any (FreshPipe 512) a ∧ a.pipe = s.pipe := by
  obtain ⟨s, hs⟩ : ∃ s, exec LockRun.step userLock contention = some s :=
    Option.isSome_iff_exists.mp (by decide +kernel)
  have hfree : (exec LockRun.step userLock contention).map (·.semaphore) = some 0 := by decide +kernel
  rw [hs, Option.map_some, Option.some_inj] at hfree
  have hreach : Reach LockRun.step LockDelivers (FreshLock 512) s :=
    (Reach.start ⟨fun _ => 0, rfl⟩).along (by decide +kernel) hs
  obtain ⟨-, -, a, ha, hsame⟩ := (pipe_locked 512).1 s (hreach.weaken fun _ _ _ => trivial)
  exact ⟨s, hs, (pipe_locked 512).2 (.inl rfl) s hreach hfree, a, ha, (hsame hfree).1⟩

end Os5
