import Os5.Lib.RingBuffer
import Os5.Lib.Transition
import Os5.Mem.Machine

/-!
# Pipes

A thread in `pipe_read` or `pipe_write` goes round its loop: the part under the
pipe's lock, `scheduler_wake`, and `scheduler_sleep` if there is more to do. Any
thread may run in between. A thread asleep on the pipe is woken by the others,
or by something that has nothing to do with the pipe.
-/

namespace Os5

open Transition

abbrev Tid := Nat

/-- `PIPE_READ`, `PIPE_WRITE` -/
inductive PipeEnd
  | read
  | write
  deriving DecidableEq, Repr

structure Pipe where
  buffer : Nat → Byte
  size : Nat
  readPos : Nat
  writePos : Nat
  readers : Nat
  writers : Nat

/-- The buffer is fresh from `malloc`. -/
def newPipe (size : Nat) (buffer : Nat → Byte) : Pipe := ⟨buffer, size, 0, 0, 0, 0⟩

def pipeOpen (p : Pipe) : PipeEnd → Pipe
  | .read => { p with readers := p.readers + 1 }
  | .write => { p with writers := p.writers + 1 }

/-- `n - 1`, unsigned -/
def decr (n : Nat) : Nat := if n = 0 then 0xFFFFFFFF else n - 1

def pipeClose (p : Pipe) : PipeEnd → Pipe
  | .read => { p with readers := decr p.readers }
  | .write => { p with writers := decr p.writers }

def Pipe.unread (p : Pipe) : Nat := RingBuffer.count (2 ^ 32) p.readPos p.writePos

def Pipe.put (p : Pipe) (b : Byte) : Pipe :=
  { p with buffer := Function.update p.buffer (p.writePos % p.size) b, writePos := wrap (p.writePos + 1) }

def Pipe.drop (p : Pipe) : Pipe := { p with readPos := wrap (p.readPos + 1) }

def readLoop (p : Pipe) : Nat → Pipe × List Byte
  | 0 => (p, [])
  | left + 1 =>
    if 0 < p.unread then
      let r := readLoop p.drop left
      (r.1, p.buffer (p.readPos % p.size) :: r.2)
    else (p, [])

/-- The copying in, as long as there is room; the bytes that were stored. -/
def writeLoop (p : Pipe) : List Byte → Pipe × List Byte
  | [] => (p, [])
  | b :: rest =>
    if p.unread < p.size then
      let r := writeLoop (p.put b) rest
      (r.1, b :: r.2)
    else (p, [])

/-- With no reader everything is stored, whether or not there is room. -/
def writeOver (p : Pipe) (rest : List Byte) : Pipe × List Byte := (rest.foldl Pipe.put p, rest)

def writeSection (p : Pipe) (rest : List Byte) : Pipe × List Byte :=
  if p.readers = 0 then writeOver p rest else writeLoop p rest

def eof : Byte := 255

inductive Call
  | read (size : Nat) (got : List Byte)
  | write (data : List Byte) (written : Nat)
  deriving DecidableEq, Repr

inductive Stage
  | top
  | wake
  | sleep
  | asleep
  deriving DecidableEq, Repr

/-- The pipe with all threads that use it; the bytes that went in and out, and
the calls that returned, in order. -/
structure PipeRun where
  pipe : Pipe
  waiting : List Tid
  thread : Tid → Option (Call × Stage)
  copiedIn : List (Tid × Byte)
  copiedOut : List (Tid × Byte)
  returned : List (Tid × Call)

inductive PipeAct
  | openEnd (e : PipeEnd)
  | closeEnd (e : PipeEnd)
  | read (t : Tid) (size : Nat)
  | write (t : Tid) (data : List Byte)
  /-- The next part of the loop of a thread. -/
  | advance (t : Tid)
  /-- A sleeping thread is woken, not by the pipe. -/
  | stray (t : Tid)

def PipeRun.setThread (s : PipeRun) (t : Tid) (c : Option (Call × Stage)) : PipeRun :=
  { s with thread := Function.update s.thread t c }

def PipeRun.finish (s : PipeRun) (t : Tid) (c : Call) : PipeRun :=
  { s with thread := Function.update s.thread t none, returned := s.returned ++ [(t, c)] }

def Call.more : Call → Bool
  | .read _ got => got.isEmpty
  | .write data written => written < data.length

/-- `pipe_read`, under the lock; without a writer it returns at once. -/
def PipeRun.readRound (s : PipeRun) (t : Tid) (size : Nat) (got : List Byte) : PipeRun :=
  if s.pipe.writers = 0 then
    { s with copiedOut := s.copiedOut ++ [(t, eof)] }.finish t (.read size (got ++ [eof]))
  else
    let r := readLoop s.pipe size
    { s with pipe := r.1, copiedOut := s.copiedOut ++ r.2.map (t, ·) }.setThread t
      (some (.read size (got ++ r.2), .wake))

def PipeRun.writeRound (s : PipeRun) (t : Tid) (data : List Byte) (written : Nat) : PipeRun :=
  let r := writeSection s.pipe (data.drop written)
  { s with pipe := r.1, copiedIn := s.copiedIn ++ r.2.map (t, ·) }.setThread t
    (some (.write data (written + r.2.length), .wake))

def PipeRun.round (s : PipeRun) (t : Tid) : Call → PipeRun
  | .read size got => s.readRound t size got
  | .write data written => s.writeRound t data written

def PipeRun.advance (s : PipeRun) (t : Tid) : Call × Stage → Option PipeRun
  | (c, .top) => some (if c.more then s.round t c else s.finish t c)
  | (c, .wake) =>
    some ({ s with waiting := [] }.setThread t (some (c, if c.more then .sleep else .top)))
  | (c, .sleep) => some ({ s with waiting := s.waiting ++ [t] }.setThread t (some (c, .asleep)))
  | (c, .asleep) => if t ∈ s.waiting then none else some (s.setThread t (some (c, .top)))

def PipeRun.call (s : PipeRun) (t : Tid) (size : Nat) (c : Call) : Option PipeRun :=
  if s.thread t = none ∧ size < 2 ^ 32 then some (s.setThread t (some (c, .top))) else none

def PipeRun.step (s : PipeRun) : PipeAct → Option PipeRun
  | .openEnd e => some { s with pipe := pipeOpen s.pipe e }
  | .closeEnd e => some { s with pipe := pipeClose s.pipe e }
  | .read t size => s.call t size (.read size [])
  | .write t data => s.call t data.length (.write data 0)
  | .advance t => (s.thread t).bind (s.advance t)
  | .stray t => some { s with waiting := s.waiting.filter (· ≠ t) }

def FreshPipe (size : Nat) (s : PipeRun) : Prop :=
  ∃ buffer, s = ⟨newPipe size buffer, [], fun _ => none, [], [], []⟩

/-- The pipe has a reader and a writer while calls are at work on it. -/
def Attached (s : PipeRun) : PipeAct → Prop
  | .advance _ => 0 < s.pipe.readers ∧ 0 < s.pipe.writers
  | _ => True

instance (s : PipeRun) (a : PipeAct) : Decidable (Attached s a) := by
  cases a <;> unfold Attached <;> infer_instance

def PipeRun.entering (s : PipeRun) (t : Tid) : Option Call :=
  match s.thread t with
  | some (c, .top) => if c.more then some c else none
  | _ => none

/-- A reader has a writer to wait for; a writer has a reader, or room for all it has left. -/
def Call.Fits (p : Pipe) : Call → Prop
  | .read _ _ => 0 < p.writers
  | .write data written => 0 < p.readers ∨ p.unread + (data.length - written) ≤ p.size

instance (p : Pipe) (c : Call) : Decidable (c.Fits p) := by
  cases c <;> unfold Call.Fits <;> infer_instance

def Delivers (s : PipeRun) : PipeAct → Prop
  | .advance t => ∀ c ∈ s.entering t, c.Fits s.pipe
  | _ => True

instance (s : PipeRun) (a : PipeAct) : Decidable (Delivers s a) := by
  cases a <;> unfold Delivers <;> infer_instance

-- ---------------------------------------------------------------------------
-- The pipe is a queue
-- ---------------------------------------------------------------------------

def Pipe.content (p : Pipe) : List Byte :=
  RingBuffer.content (2 ^ 32) p.size p.buffer p.readPos p.writePos

structure Pipe.Ok (p : Pipe) : Prop where
  size_dvd : p.size ∣ 2 ^ 32
  size_lt : p.size < 2 ^ 32
  readPos_lt : p.readPos < 2 ^ 32
  writePos_lt : p.writePos < 2 ^ 32
  unread_le : p.unread ≤ p.size

structure Pipe.Bounded (p : Pipe) : Prop where
  size_lt : p.size < 2 ^ 32
  readPos_lt : p.readPos < 2 ^ 32
  writePos_lt : p.writePos < 2 ^ 32
  unread_le : p.unread ≤ p.size

section
variable {p : Pipe} {b : Byte} {e : PipeEnd}

theorem newPipe_ok {size : Nat} {buffer : Nat → Byte} (h : size = 512 ∨ size = 1024) :
    (newPipe size buffer).Ok := by
  have hunread : (newPipe size buffer).unread = 0 := RingBuffer.count_self
  refine ⟨?_, ?_, by simp [newPipe], by simp [newPipe], hunread ▸ Nat.zero_le _⟩
  · rcases h with rfl | rfl <;> norm_num [newPipe]
  · rcases h with rfl | rfl <;> norm_num [newPipe]

@[simp] theorem newPipe_content {size : Nat} {buffer : Nat → Byte} :
    (newPipe size buffer).content = [] := by
  simp [Pipe.content, RingBuffer.content, newPipe]

theorem Pipe.Ok.bounded (h : p.Ok) : p.Bounded := ⟨h.size_lt, h.readPos_lt, h.writePos_lt, h.unread_le⟩

theorem Pipe.Bounded.unread_put (h : p.Bounded) (hroom : p.unread < p.size) :
    (p.put b).unread = p.unread + 1 := by
  have hlt : p.unread + 1 < 2 ^ 32 := Nat.lt_of_le_of_lt hroom h.size_lt
  unfold Pipe.unread at hlt ⊢
  unfold Pipe.put wrap
  exact RingBuffer.count_push h.readPos_lt hlt

theorem Pipe.Bounded.unread_drop (h : p.Bounded) (hpos : 0 < p.unread) :
    p.drop.unread + 1 = p.unread := by
  unfold Pipe.unread at hpos ⊢
  unfold Pipe.drop wrap
  exact RingBuffer.count_pop h.readPos_lt hpos

theorem Pipe.Bounded.put (h : p.Bounded) (hroom : p.unread < p.size) : (p.put b).Bounded := by
  refine ⟨h.size_lt, h.readPos_lt, Nat.mod_lt _ (by omega), ?_⟩
  rw [h.unread_put hroom]
  exact hroom

theorem Pipe.Bounded.drop (h : p.Bounded) (hpos : 0 < p.unread) : p.drop.Bounded := by
  refine ⟨h.size_lt, Nat.mod_lt _ (by omega), h.writePos_lt, ?_⟩
  have hle := h.unread_le
  have hdrop := h.unread_drop hpos
  have hsize : p.drop.size = p.size := rfl
  omega

theorem Pipe.Ok.put (h : p.Ok) (hroom : p.unread < p.size) :
    (p.put b).Ok ∧ (p.put b).content = p.content ++ [b] := by
  have hb := h.bounded.put (b := b) hroom
  refine ⟨⟨h.size_dvd, hb.size_lt, hb.readPos_lt, hb.writePos_lt, hb.unread_le⟩, ?_⟩
  unfold Pipe.unread at hroom
  unfold Pipe.content Pipe.put wrap
  exact RingBuffer.content_push h.size_dvd h.size_lt h.readPos_lt h.writePos_lt hroom

theorem Pipe.Ok.drop (h : p.Ok) (hpos : 0 < p.unread) :
    p.drop.Ok ∧ p.content = p.buffer (p.readPos % p.size) :: p.drop.content := by
  have hb := h.bounded.drop hpos
  refine ⟨⟨h.size_dvd, hb.size_lt, hb.readPos_lt, hb.writePos_lt, hb.unread_le⟩, ?_⟩
  unfold Pipe.unread at hpos
  unfold Pipe.content Pipe.drop wrap
  exact RingBuffer.content_pop h.readPos_lt hpos

theorem Pipe.Bounded.readLoop (h : p.Bounded) (left : Nat) : (readLoop p left).1.Bounded := by
  induction left generalizing p with
  | zero => exact h
  | succ left ih =>
    unfold Os5.readLoop
    split
    · next hpos => exact ih (h.drop hpos)
    · exact h

theorem Pipe.Bounded.writeLoop (h : p.Bounded) (rest : List Byte) : (writeLoop p rest).1.Bounded := by
  induction rest generalizing p with
  | nil => exact h
  | cons b rest ih =>
    unfold Os5.writeLoop
    split
    · next hroom => exact ih (h.put hroom)
    · exact h

/-- With room for everything it does not matter whether there is a reader. -/
theorem Pipe.Bounded.writeOver (h : p.Bounded) {rest : List Byte}
    (hroom : p.unread + rest.length ≤ p.size) : writeOver p rest = Os5.writeLoop p rest := by
  induction rest generalizing p with
  | nil => rfl
  | cons b rest ih =>
    rw [List.length_cons] at hroom
    have hlt : p.unread < p.size := by omega
    have hput := h.unread_put (b := b) hlt
    have hsize : (p.put b).size = p.size := rfl
    have hrest := ih (p := p.put b) (h.put hlt) (by omega)
    unfold Os5.writeLoop
    simp only [if_pos hlt, ← hrest, Os5.writeOver, List.foldl_cons]

theorem Pipe.Bounded.writeSection (h : p.Bounded) {rest : List Byte}
    (hfits : 0 < p.readers ∨ p.unread + rest.length ≤ p.size) :
    Os5.writeSection p rest = Os5.writeLoop p rest := by
  unfold Os5.writeSection
  split
  · next h0 => exact h.writeOver (hfits.resolve_left (by omega))
  · rfl

theorem Pipe.Ok.readLoop (h : p.Ok) (left : Nat) :
    (readLoop p left).1.Ok ∧ (readLoop p left).2 ++ (readLoop p left).1.content = p.content := by
  induction left generalizing p with
  | zero => exact ⟨h, List.nil_append _⟩
  | succ left ih =>
    unfold Os5.readLoop
    split
    · next hpos =>
      obtain ⟨hok, hcontent⟩ := h.drop hpos
      obtain ⟨hok', hrest⟩ := ih hok
      refine ⟨hok', ?_⟩
      simp only [hcontent, ← hrest, List.cons_append]
    · exact ⟨h, List.nil_append _⟩

theorem Pipe.Ok.writeLoop (h : p.Ok) (rest : List Byte) :
    (writeLoop p rest).1.Ok ∧ (writeLoop p rest).1.content = p.content ++ (writeLoop p rest).2 ∧
      (writeLoop p rest).2 <+: rest := by
  induction rest generalizing p with
  | nil => exact ⟨h, (List.append_nil _).symm, List.prefix_rfl⟩
  | cons b rest ih =>
    unfold Os5.writeLoop
    split
    · next hroom =>
      obtain ⟨hok, hcontent⟩ := h.put (b := b) hroom
      obtain ⟨hok', hcontent', hprefix⟩ := ih hok
      refine ⟨hok', ?_, List.cons_prefix_cons.mpr ⟨rfl, hprefix⟩⟩
      simp only [hcontent', hcontent, List.append_assoc, List.singleton_append]
    · exact ⟨h, (List.append_nil _).symm, List.nil_prefix⟩

/-- Readers and writers have no part in it. -/
theorem Pipe.Ok.congr {q : Pipe} (h : p.Ok) (hsize : q.size = p.size) (hbuffer : q.buffer = p.buffer)
    (hread : q.readPos = p.readPos) (hwrite : q.writePos = p.writePos) : q.Ok ∧ q.content = p.content := by
  have hunread : q.unread = p.unread := by rw [Pipe.unread, Pipe.unread, hread, hwrite]
  constructor
  · exact ⟨hsize ▸ h.size_dvd, hsize ▸ h.size_lt, hread ▸ h.readPos_lt, hwrite ▸ h.writePos_lt,
      hsize ▸ hunread ▸ h.unread_le⟩
  · rw [Pipe.content, Pipe.content, hsize, hbuffer, hread, hwrite]

theorem Pipe.Ok.open (h : p.Ok) : (pipeOpen p e).Ok ∧ (pipeOpen p e).content = p.content := by
  cases e <;> exact h.congr rfl rfl rfl rfl

theorem Pipe.Ok.close (h : p.Ok) : (pipeClose p e).Ok ∧ (pipeClose p e).content = p.content := by
  cases e <;> exact h.congr rfl rfl rfl rfl

@[simp] theorem pipeOpen_size : (pipeOpen p e).size = p.size := by cases e <;> rfl
@[simp] theorem pipeClose_size : (pipeClose p e).size = p.size := by cases e <;> rfl

theorem readLoop_size (left : Nat) : (readLoop p left).1.size = p.size := by
  induction left generalizing p with
  | zero => rfl
  | succ left ih =>
    unfold readLoop
    split
    · exact ih
    · rfl

theorem writeLoop_size (rest : List Byte) : (writeLoop p rest).1.size = p.size := by
  induction rest generalizing p with
  | nil => rfl
  | cons b rest ih =>
    unfold writeLoop
    split
    · exact ih
    · rfl

end

-- ---------------------------------------------------------------------------
-- Where the bytes of a thread went
-- ---------------------------------------------------------------------------

def Call.stored : Call → List Byte
  | .read _ _ => []
  | .write data written => data.take written

def Call.fetched : Call → List Byte
  | .read _ got => got
  | .write _ _ => []

def bytesOf (t : Tid) (log : List (Tid × Byte)) : List Byte := (log.filter (·.1 = t)).map (·.2)

/-- The bytes of the finished calls of a thread and of the one under way. -/
def PipeRun.accounted (s : PipeRun) (f : Call → List Byte) (t : Tid) : List Byte :=
  ((s.returned.filter (·.1 = t)).flatMap fun r => f r.2) ++ ((s.thread t).map fun c => f c.1).getD []

structure PipeRun.Inv (size : Nat) (s : PipeRun) : Prop where
  ok : s.pipe.Ok
  size : s.pipe.size = size
  fifo : s.copiedOut.map (·.2) ++ s.pipe.content = s.copiedIn.map (·.2)
  stored : ∀ t, bytesOf t s.copiedIn = s.accounted Call.stored t
  fetched : ∀ t, bytesOf t s.copiedOut = s.accounted Call.fetched t
  written : ∀ {t data n st}, s.thread t = some (.write data n, st) → n ≤ data.length
  returned : ∀ {t data n}, (t, .write data n) ∈ s.returned → n = data.length

section
variable {s s' : PipeRun} {t u : Tid} {c c' : Call} {st st' : Stage} {f : Call → List Byte} {size : Nat}
  {p : Pipe} {w : List Byte}

@[simp] theorem bytesOf_append {log log' : List (Tid × Byte)} :
    bytesOf t (log ++ log') = bytesOf t log ++ bytesOf t log' := by
  simp [bytesOf]

@[simp] theorem bytesOf_map : bytesOf t (w.map (u, ·)) = if t = u then w else [] := by
  by_cases h : t = u
  · subst h
    simp [bytesOf, List.filter_map, Function.comp_def]
  · simp [bytesOf, List.filter_map, Function.comp_def, h, Ne.symm h]

@[simp] theorem setThread_pipe {x : Option (Call × Stage)} : (s.setThread u x).pipe = s.pipe := rfl
@[simp] theorem setThread_copiedIn {x : Option (Call × Stage)} :
    (s.setThread u x).copiedIn = s.copiedIn := rfl
@[simp] theorem setThread_copiedOut {x : Option (Call × Stage)} :
    (s.setThread u x).copiedOut = s.copiedOut := rfl
@[simp] theorem finish_pipe : (s.finish u c).pipe = s.pipe := rfl
@[simp] theorem finish_copiedIn : (s.finish u c).copiedIn = s.copiedIn := rfl
@[simp] theorem finish_copiedOut : (s.finish u c).copiedOut = s.copiedOut := rfl

theorem accounted_setThread (h : ((s.thread u).map fun c => f c.1).getD [] ++ w = f c') :
    (s.setThread u (some (c', st'))).accounted f t = s.accounted f t ++ if t = u then w else [] := by
  unfold PipeRun.accounted PipeRun.setThread
  by_cases htu : t = u
  · subst htu
    simp [← h, List.append_assoc]
  · simp [htu]

theorem accounted_finish (h : ((s.thread u).map fun c => f c.1).getD [] ++ w = f c) :
    (s.finish u c).accounted f t = s.accounted f t ++ if t = u then w else [] := by
  unfold PipeRun.accounted PipeRun.finish
  by_cases htu : t = u
  · subst htu
    simp [← h, List.append_assoc]
  · simp [htu, Ne.symm htu]

theorem FreshPipe.inv (h : FreshPipe size s) (hsize : size = 512 ∨ size = 1024) : s.Inv size := by
  obtain ⟨buffer, rfl⟩ := h
  exact ⟨newPipe_ok hsize, rfl, by simp, by simp [bytesOf, PipeRun.accounted],
    by simp [bytesOf, PipeRun.accounted], by simp, by simp⟩

theorem PipeRun.Inv.setStage (h : s.Inv size)
    (hstored : ((s.thread u).map fun c => c.1.stored).getD [] = c.stored)
    (hfetched : ((s.thread u).map fun c => c.1.fetched).getD [] = c.fetched)
    (hwritten : ∀ data n, c = .write data n → n ≤ data.length) :
    (s.setThread u (some (c, st))).Inv size where
  ok := h.ok
  size := h.size
  fifo := h.fifo
  stored t := by
    rw [accounted_setThread (w := []) (by rw [List.append_nil, hstored])]
    simpa using h.stored t
  fetched t := by
    rw [accounted_setThread (w := []) (by rw [List.append_nil, hfetched])]
    simpa using h.fetched t
  written {t data n st'} ht := by
    by_cases htu : t = u
    · subst htu
      simp only [PipeRun.setThread, Function.update_self, Option.some_inj, Prod.mk.injEq] at ht
      exact hwritten data n ht.1
    · exact h.written (by simpa [PipeRun.setThread, htu] using ht)
  returned := h.returned

theorem PipeRun.Inv.waiting (h : s.Inv size) (w : List Tid) : PipeRun.Inv size { s with waiting := w } :=
  ⟨h.ok, h.size, h.fifo, h.stored, h.fetched, h.written, h.returned⟩

theorem PipeRun.Inv.finish (h : s.Inv size) (hc : s.thread u = some (c, st)) (hmore : c.more = false) :
    (s.finish u c).Inv size where
  ok := h.ok
  size := h.size
  fifo := h.fifo
  stored t := by
    rw [accounted_finish (w := []) (by simp [hc])]
    simpa using h.stored t
  fetched t := by
    rw [accounted_finish (w := []) (by simp [hc])]
    simpa using h.fetched t
  written {t data n st'} ht := by
    by_cases htu : t = u
    · simp [PipeRun.finish, htu] at ht
    · exact h.written (by simpa [PipeRun.finish, htu] using ht)
  returned {t data n} ht := by
    simp only [PipeRun.finish, List.mem_append, List.mem_singleton, Prod.mk.injEq] at ht
    rcases ht with ht | ⟨rfl, rfl⟩
    · exact h.returned ht
    · have hle := h.written hc
      simp only [Call.more, decide_eq_false_iff_not] at hmore
      omega

theorem PipeRun.Inv.readRound {got : List Byte} {n : Nat} (h : s.Inv size)
    (hc : s.thread u = some (.read n got, st)) (hw : 0 < s.pipe.writers) :
    (s.readRound u n got).Inv size := by
  obtain ⟨hok, hcontent⟩ := h.ok.readLoop n
  have hsize := readLoop_size (p := s.pipe) n
  unfold PipeRun.readRound
  rw [if_neg (Nat.ne_of_gt hw)]
  generalize readLoop s.pipe n = r at *
  refine ⟨hok, hsize.trans h.size, ?_, fun t => ?_, fun t => ?_, fun {t data k st'} ht => ?_, h.returned⟩
  · simp only [setThread_pipe, setThread_copiedIn, setThread_copiedOut, List.map_append, List.map_map,
      Function.comp_def, List.map_id']
    rw [List.append_assoc, hcontent]
    exact h.fifo
  · rw [accounted_setThread (w := []) (by simp [hc, Call.stored])]
    rw [ite_self, List.append_nil]
    exact h.stored t
  · rw [accounted_setThread (w := r.2) (by simp [hc, Call.fetched])]
    simp only [setThread_copiedOut, bytesOf_append, bytesOf_map, h.fetched t]
    rfl
  · by_cases htu : t = u
    · simp [PipeRun.setThread, htu] at ht
    · exact h.written (by simpa [PipeRun.setThread, htu] using ht)

theorem PipeRun.Inv.writeRound {data : List Byte} {n : Nat} (h : s.Inv size)
    (hc : s.thread u = some (.write data n, st)) (hfits : (Call.write data n).Fits s.pipe) :
    (s.writeRound u data n).Inv size := by
  have hsection : writeSection s.pipe (data.drop n) = writeLoop s.pipe (data.drop n) :=
    h.ok.bounded.writeSection (by rwa [List.length_drop])
  obtain ⟨hok, hcontent, hprefix⟩ := h.ok.writeLoop (data.drop n)
  have hsize := writeLoop_size (p := s.pipe) (data.drop n)
  have hle := h.written hc
  unfold PipeRun.writeRound
  rw [hsection]
  generalize writeLoop s.pipe (data.drop n) = r at *
  have hstored : data.take n ++ r.2 = data.take (n + r.2.length) := by
    rw [List.take_add, ← List.prefix_iff_eq_take.mp hprefix]
  have hlen : n + r.2.length ≤ data.length := by
    have := hprefix.length_le
    rw [List.length_drop] at this
    omega
  refine ⟨hok, hsize.trans h.size, ?_, fun t => ?_, fun t => ?_, fun {t data' k st'} ht => ?_, h.returned⟩
  · simp only [setThread_pipe, setThread_copiedIn, setThread_copiedOut, List.map_append, List.map_map,
      Function.comp_def, List.map_id']
    rw [hcontent, ← List.append_assoc, h.fifo]
  · rw [accounted_setThread (w := r.2) (by simpa [hc, Call.stored] using hstored)]
    simp only [setThread_copiedIn, bytesOf_append, bytesOf_map, h.stored t]
    rfl
  · rw [accounted_setThread (w := []) (by simp [hc, Call.fetched])]
    rw [ite_self, List.append_nil]
    exact h.fetched t
  · by_cases htu : t = u
    · simp only [PipeRun.setThread, htu, Function.update_self, Option.some_inj, Prod.mk.injEq,
        Call.write.injEq] at ht
      obtain ⟨⟨rfl, rfl⟩, -⟩ := ht
      exact hlen
    · exact h.written (by simpa [PipeRun.setThread, htu] using ht)

theorem PipeRun.Inv.advance (h : s.Inv size) (hc : s.thread u = some (c, st))
    (hok : Delivers s (.advance u)) (hs : s.advance u (c, st) = some s') : s'.Inv size := by
  have hstage : ∀ st', (s.setThread u (some (c, st'))).Inv size := fun st' =>
    h.setStage (by simp [hc]) (by simp [hc]) (fun data n hcn => h.written (hcn ▸ hc))
  cases st with
  | top =>
    obtain rfl := Option.some.inj hs
    cases hmore : c.more with
    | false => exact h.finish hc hmore
    | true =>
      have hfits := hok c (by simp [PipeRun.entering, hc, hmore])
      cases c with
      | read n got => exact h.readRound hc hfits
      | write data n => exact h.writeRound hc hfits
  | wake =>
    obtain rfl := Option.some.inj hs
    exact (hstage _).waiting []
  | sleep =>
    obtain rfl := Option.some.inj hs
    exact (hstage _).waiting (s.waiting ++ [u])
  | asleep =>
    simp only [PipeRun.advance] at hs
    split at hs
    · cases hs
    · obtain rfl := Option.some.inj hs
      exact hstage _

theorem PipeRun.Inv.step {a : PipeAct} (h : s.Inv size) (hok : Delivers s a) (hs : s.step a = some s') :
    s'.Inv size := by
  cases a with
  | openEnd e =>
    obtain rfl := Option.some.inj hs
    obtain ⟨hp, hcontent⟩ := h.ok.open (e := e)
    exact ⟨hp, pipeOpen_size.trans h.size, hcontent ▸ h.fifo, h.stored, h.fetched, h.written, h.returned⟩
  | closeEnd e =>
    obtain rfl := Option.some.inj hs
    obtain ⟨hp, hcontent⟩ := h.ok.close (e := e)
    exact ⟨hp, pipeClose_size.trans h.size, hcontent ▸ h.fifo, h.stored, h.fetched, h.written, h.returned⟩
  | read t n =>
    simp only [PipeRun.step, PipeRun.call] at hs
    split at hs
    swap
    · cases hs
    next hidle =>
    obtain rfl := Option.some.inj hs
    exact h.setStage (by simp [hidle.1, Call.stored]) (by simp [hidle.1, Call.fetched]) (by simp)
  | write t data =>
    simp only [PipeRun.step, PipeRun.call] at hs
    split at hs
    swap
    · cases hs
    next hidle =>
    obtain rfl := Option.some.inj hs
    exact h.setStage (by simp [hidle.1, Call.stored]) (by simp [hidle.1, Call.fetched]) (by simp)
  | advance t =>
    obtain ⟨⟨c, st⟩, hc, hs⟩ := Option.bind_eq_some_iff.mp hs
    exact h.advance hc hok hs
  | stray t =>
    obtain rfl := Option.some.inj hs
    exact h.waiting _

theorem Attached.delivers {a : PipeAct} (h : Attached s a) : Delivers s a := by
  cases a with
  | advance t =>
    intro c _
    cases c with
    | read n got => exact h.2
    | write data n => exact .inl h.1
  | _ => trivial

-- ---------------------------------------------------------------------------
-- No byte is lost, made up or moved
-- ---------------------------------------------------------------------------

/-- In every interleaving the bytes copied out and then those in the buffer are the bytes
copied in, the buffer is never overfull, and a thread that is not in `pipe_write` has
stored the whole data of each of its calls. -/
theorem pipe_fifo (hsize : size = 512 ∨ size = 1024)
    (h : Reach PipeRun.step Attached (FreshPipe size) s) :
    s.copiedOut.map (·.2) ++ s.pipe.content = s.copiedIn.map (·.2) ∧
    s.pipe.unread ≤ size ∧
    (∀ t data n, (t, .write data n) ∈ s.returned → n = data.length) ∧
    (∀ t, bytesOf t s.copiedIn = s.accounted Call.stored t) ∧
    ∀ t, bytesOf t s.copiedOut = s.accounted Call.fetched t := by
  have hi : s.Inv size :=
    h.invariant (fun _ h0 => h0.inv hsize) fun _ _ _ hinv hok hs => hinv.step hok.delivers hs
  exact ⟨hi.fifo, hi.size ▸ hi.ok.unread_le, fun _ _ _ ht => hi.returned ht, hi.stored, hi.fetched⟩

end

def userPipe : PipeRun := ⟨newPipe 512 fun _ => 0, [], fun _ => none, [], [], []⟩

/-- A reader finds the pipe empty and sleeps; three bytes are written, it takes two. -/
theorem pipe_fifo_readFirst : ∃ s, exec PipeRun.step userPipe
      [.openEnd .read, .openEnd .write, .read 1 2, .advance 1, .advance 1, .advance 1,
        .write 2 [7, 8, 9], .advance 2, .advance 2, .advance 2, .advance 1, .advance 1, .advance 1,
        .advance 1] = some s ∧
    (2, .write [7, 8, 9] 3) ∈ s.returned ∧
    s.copiedOut.map (·.2) ++ s.pipe.content = s.copiedIn.map (·.2) := by
  obtain ⟨s, hs⟩ : ∃ s, exec PipeRun.step userPipe
      [.openEnd .read, .openEnd .write, .read 1 2, .advance 1, .advance 1, .advance 1,
        .write 2 [7, 8, 9], .advance 2, .advance 2, .advance 2, .advance 1, .advance 1, .advance 1,
        .advance 1] = some s := Option.isSome_iff_exists.mp (by decide +kernel)
  have hreturned : (exec PipeRun.step userPipe
      [.openEnd .read, .openEnd .write, .read 1 2, .advance 1, .advance 1, .advance 1,
        .write 2 [7, 8, 9], .advance 2, .advance 2, .advance 2, .advance 1, .advance 1, .advance 1,
        .advance 1]).map PipeRun.returned = some [(2, .write [7, 8, 9] 3), (1, .read 2 [7, 8])] := by
    decide +kernel
  have hreach : Reach PipeRun.step Attached (FreshPipe 512) s :=
    (Reach.start ⟨fun _ => 0, rfl⟩).along (by decide +kernel) hs
  rw [hs, Option.map_some, Option.some_inj] at hreturned
  exact ⟨s, hs, by simp [hreturned], (pipe_fifo (.inl rfl) hreach).1⟩

end Os5
