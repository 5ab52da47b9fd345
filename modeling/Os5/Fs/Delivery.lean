import Os5.Fs.Pipes

/-!
# What a pipe delivers

With no reader `pipe_write` stores its bytes whether or not there is room, and with
no writer `pipe_read` reports the end of file whether or not there are bytes. As
long as neither happens, every byte that went in comes out.
-/

namespace Os5

open Transition

/-- A write that finds no reader has room for all it has left. -/
def Call.HasRoom (p : Pipe) : Call → Prop
  | .read _ _ => True
  | .write data written => 0 < p.readers ∨ p.unread + (data.length - written) ≤ p.size

instance (p : Pipe) : ∀ c : Call, Decidable (c.HasRoom p)
  | .read _ _ => .isTrue trivial
  | .write _ _ => inferInstanceAs (Decidable (_ ∨ _))

def Roomy (s : PipeRun) : PipeAct → Prop
  | .advance t => ∀ c ∈ s.entering t, c.HasRoom s.pipe
  | _ => True

instance (s : PipeRun) : ∀ a, Decidable (Roomy s a)
  | .advance t => inferInstanceAs (Decidable (∀ c ∈ s.entering t, c.HasRoom s.pipe))
  | .openEnd _ | .closeEnd _ | .read _ _ | .write _ _ | .stray _ => .isTrue trivial

section
variable {s s' : PipeRun} {p : Pipe} {size : Nat} {t u : Tid} {c : Call} {st : Stage}

-- ---------------------------------------------------------------------------
-- The buffer is not overrun
-- ---------------------------------------------------------------------------

theorem FreshPipe.bounded (h : FreshPipe size s) (hsize : size < 2 ^ 32) :
    s.pipe.Bounded ∧ s.pipe.size = size := by
  obtain ⟨buffer, rfl⟩ := h
  have hunread : (newPipe size buffer).unread = 0 := RingBuffer.count_self
  exact ⟨⟨hsize, by simp [newPipe], by simp [newPipe], hunread ▸ Nat.zero_le _⟩, rfl⟩

theorem Pipe.Bounded.open {e : PipeEnd} (h : p.Bounded) : (pipeOpen p e).Bounded := by
  cases e <;> exact ⟨h.size_lt, h.readPos_lt, h.writePos_lt, h.unread_le⟩

theorem Pipe.Bounded.close {e : PipeEnd} (h : p.Bounded) : (pipeClose p e).Bounded := by
  cases e <;> exact ⟨h.size_lt, h.readPos_lt, h.writePos_lt, h.unread_le⟩

theorem PipeRun.round_bounded (h : s.pipe.Bounded) (hroom : c.HasRoom s.pipe) :
    (s.round t c).pipe.Bounded ∧ (s.round t c).pipe.size = s.pipe.size := by
  cases c with
  | read n got =>
    change (s.readRound t n got).pipe.Bounded ∧ (s.readRound t n got).pipe.size = s.pipe.size
    unfold PipeRun.readRound
    split
    · exact ⟨h, rfl⟩
    · exact ⟨h.readLoop n, readLoop_size n⟩
  | write data n =>
    have hsection : writeSection s.pipe (data.drop n) = writeLoop s.pipe (data.drop n) :=
      h.writeSection (by rwa [List.length_drop])
    change (s.writeRound t data n).pipe.Bounded ∧ (s.writeRound t data n).pipe.size = s.pipe.size
    unfold PipeRun.writeRound
    rw [hsection]
    exact ⟨h.writeLoop _, writeLoop_size _⟩

theorem Roomy.step {a : PipeAct} (hok : Roomy s a) (h : s.pipe.Bounded) (hs : s.step a = some s') :
    s'.pipe.Bounded ∧ s'.pipe.size = s.pipe.size := by
  cases a with
  | openEnd e =>
    obtain rfl := Option.some.inj hs
    exact ⟨h.open, pipeOpen_size⟩
  | closeEnd e =>
    obtain rfl := Option.some.inj hs
    exact ⟨h.close, pipeClose_size⟩
  | read t n =>
    simp only [PipeRun.step, PipeRun.call] at hs
    split at hs
    · obtain rfl := Option.some.inj hs
      exact ⟨h, rfl⟩
    · cases hs
  | write t data =>
    simp only [PipeRun.step, PipeRun.call] at hs
    split at hs
    · obtain rfl := Option.some.inj hs
      exact ⟨h, rfl⟩
    · cases hs
  | advance t =>
    obtain ⟨⟨c, st⟩, hc, hs⟩ := Option.bind_eq_some_iff.mp hs
    cases st with
    | top =>
      obtain rfl := Option.some.inj hs
      split
      · next hmore => exact PipeRun.round_bounded h (hok c (by simp [PipeRun.entering, hc, hmore]))
      · exact ⟨h, rfl⟩
    | wake =>
      obtain rfl := Option.some.inj hs
      exact ⟨h, rfl⟩
    | sleep =>
      obtain rfl := Option.some.inj hs
      exact ⟨h, rfl⟩
    | asleep =>
      simp only [PipeRun.advance] at hs
      split at hs
      · cases hs
      · obtain rfl := Option.some.inj hs
        exact ⟨h, rfl⟩
  | stray t =>
    obtain rfl := Option.some.inj hs
    exact ⟨h, rfl⟩

/-- The unread bytes fit the buffer; with a size that divides `2 ^ 32` each is in a cell of
its own. -/
theorem unread_le_size (hsize : size < 2 ^ 32) (h : Reach PipeRun.step Roomy (FreshPipe size) s) :
    s.pipe.unread ≤ size ∧ (size ∣ 2 ^ 32 → ∀ i j, i < j → j < s.pipe.unread →
      wrap (s.pipe.readPos + i) % size ≠ wrap (s.pipe.readPos + j) % size) := by
  obtain ⟨hb, hs⟩ : s.pipe.Bounded ∧ s.pipe.size = size :=
    h.invariant (fun _ h0 => h0.bounded hsize) fun _ _ _ hi hok hstep => by
      obtain ⟨hb, hsame⟩ := hok.step hi.1 hstep
      exact ⟨hb, hsame.trans hi.2⟩
  have hle : s.pipe.unread ≤ size := hs ▸ hb.unread_le
  refine ⟨hle, fun hdvd i j hij hj => RingBuffer.cell_ne hdvd hij (by omega)⟩

-- ---------------------------------------------------------------------------
-- No byte is lost or made up
-- ---------------------------------------------------------------------------

theorem Pipe.Ok.readLoop_take (h : p.Ok) (left : Nat) : (Os5.readLoop p left).2 = p.content.take left := by
  induction left generalizing p with
  | zero => rfl
  | succ left ih =>
    unfold Os5.readLoop
    split
    · next hpos =>
      obtain ⟨hok, hcontent⟩ := h.drop hpos
      rw [hcontent, List.take_succ_cons, ← ih hok]
    · next h0 =>
      have hlen : p.content.length = p.unread := RingBuffer.content_length
      have hnil : p.content = [] := List.length_eq_zero_iff.mp (by omega)
      rw [hnil]
      rfl

/-- If no read finds the pipe without a writer, and no write without a reader overruns it,
what came out and what is still in the pipe is what went in, the readers were given nothing
else, and the next read is given the oldest bytes. -/
theorem pipe_delivers (hsize : size = 512 ∨ size = 1024)
    (h : Reach PipeRun.step Delivers (FreshPipe size) s) :
    s.copiedOut.map (·.2) ++ s.pipe.content = s.copiedIn.map (·.2) ∧
    (∀ t, bytesOf t s.copiedOut = s.accounted Call.fetched t) ∧
    ∀ n, (readLoop s.pipe n).2 = s.pipe.content.take n := by
  have hi : s.Inv size :=
    h.invariant (fun _ h0 => h0.inv hsize) fun _ _ _ hinv hok hs => hinv.step hok hs
  exact ⟨hi.fifo, hi.fetched, hi.ok.readLoop_take⟩

end

def keyboardPipe : PipeRun := ⟨newPipe 1024 fun _ => 0, [], fun _ => none, [], [], []⟩

/-- Two scancodes are kept for the reader that comes later. -/
theorem unread_le_size_keyboard : ∃ s, exec PipeRun.step keyboardPipe
      [.openEnd .write, .write 1 [30, 158], .advance 1, .advance 1, .advance 1, .openEnd .read] = some s ∧
    s.pipe.unread ≤ 1024 := by
  obtain ⟨s, hs⟩ : ∃ s, exec PipeRun.step keyboardPipe
      [.openEnd .write, .write 1 [30, 158], .advance 1, .advance 1, .advance 1, .openEnd .read] = some s :=
    Option.isSome_iff_exists.mp (by decide +kernel)
  have hreach : Reach PipeRun.step Roomy (FreshPipe 1024) s :=
    (Reach.start ⟨fun _ => 0, rfl⟩).along (by decide +kernel) hs
  exact ⟨s, hs, (unread_le_size (by norm_num) hreach).1⟩

theorem unread_gt_size : ∃ s, Reach PipeRun.step Any (FreshPipe 1024) s ∧ s.pipe.unread = 1025 := by
  obtain ⟨s, hs⟩ : ∃ s, exec PipeRun.step keyboardPipe
      [.openEnd .write, .write 1 (List.replicate 1025 30), .advance 1, .advance 1] = some s :=
    Option.isSome_iff_exists.mp (by decide +kernel)
  have hunread : (exec PipeRun.step keyboardPipe
      [.openEnd .write, .write 1 (List.replicate 1025 30), .advance 1, .advance 1]).map
      (fun s => s.pipe.unread) = some 1025 := by decide +kernel
  rw [hs, Option.map_some, Option.some_inj] at hunread
  exact ⟨s, (Reach.start ⟨fun _ => 0, rfl⟩).exec hs, hunread⟩

/-- The bytes are read before the writer closes. -/
theorem pipe_delivers_beforeClose : ∃ s, exec PipeRun.step userPipe
      [.openEnd .read, .openEnd .write, .write 1 [1, 2], .advance 1, .advance 1, .advance 1, .read 2 4,
        .advance 2, .advance 2, .advance 2, .closeEnd .write] = some s ∧
    s.copiedOut.map (·.2) ++ s.pipe.content = s.copiedIn.map (·.2) := by
  obtain ⟨s, hs⟩ : ∃ s, exec PipeRun.step userPipe
      [.openEnd .read, .openEnd .write, .write 1 [1, 2], .advance 1, .advance 1, .advance 1, .read 2 4,
        .advance 2, .advance 2, .advance 2, .closeEnd .write] = some s :=
    Option.isSome_iff_exists.mp (by decide +kernel)
  have hreach : Reach PipeRun.step Delivers (FreshPipe 512) s :=
    (Reach.start ⟨fun _ => 0, rfl⟩).along (by decide +kernel) hs
  exact ⟨s, hs, (pipe_delivers (.inl rfl) hreach).1⟩

/-- The writer closes first: the reader is given a byte nobody wrote, and both bytes stay
in the pipe. -/
theorem pipe_endOfFile_early : ∃ s, Reach PipeRun.step Any (FreshPipe 512) s ∧
    (2, .read 4 [eof]) ∈ s.returned ∧ s.copiedIn = [(1, 1), (1, 2)] ∧ s.copiedOut = [(2, eof)] ∧
    s.pipe.content = [1, 2] := by
  obtain ⟨s, hs⟩ : ∃ s, exec PipeRun.step userPipe
      [.openEnd .read, .openEnd .write, .write 1 [1, 2], .advance 1, .advance 1, .advance 1,
        .closeEnd .write, .read 2 4, .advance 2] = some s :=
    Option.isSome_iff_exists.mp (by decide +kernel)
  have hseen : (exec PipeRun.step userPipe
      [.openEnd .read, .openEnd .write, .write 1 [1, 2], .advance 1, .advance 1, .advance 1,
        .closeEnd .write, .read 2 4, .advance 2]).map
      (fun s => (s.returned, s.copiedIn, s.copiedOut, s.pipe.content)) =
      some ([(1, .write [1, 2] 2), (2, .read 4 [eof])], [(1, 1), (1, 2)], [(2, eof)], [1, 2]) := by
    decide +kernel
  rw [hs, Option.map_some, Option.some_inj, Prod.mk.injEq, Prod.mk.injEq, Prod.mk.injEq] at hseen
  obtain ⟨hreturned, hin, hout, hcontent⟩ := hseen
  exact ⟨s, (Reach.start ⟨fun _ => 0, rfl⟩).exec hs, by simp [hreturned], hin, hout, hcontent⟩

end Os5
