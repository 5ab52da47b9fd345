import Os5.Fs.Paths
import Os5.User.Keys
import Os5.User.Shell

/-!
# Commands

The loop of the shell: a line is expanded, cut at its spaces in place, and set in the environment or
run. The child looks for the program along `PATH` in `execvp`. A block that `malloc` returns is as
long as was asked for, or a little longer.
-/

namespace Os5

open Outcome

def space : UInt8 := ' '.toUInt8
def equals : UInt8 := '='.toUInt8
def colon : UInt8 := ':'.toUInt8

inductive ShellFault where
  | outside (o : Outside)
  /-- Behind the copy of the line, or behind `tokens`. -/
  | command
  | tokens
  /-- Behind `fullpath`. -/
  | fullpath
  | null
  deriving DecidableEq

-- ---------------------------------------------------------------------------
-- The words of a line

def countTokens (numtokens : Nat) : List UInt8 → Except ShellFault Nat
  | [] => .error .command
  | c :: rest => if c = 0 then .ok numtokens else countTokens (if c = space then numtokens + 1 else numtokens) rest

/-- The array `tokens`: pointers into the copy of the line, as offsets. -/
abbrev Tokens := List (Option Nat)

def storeToken (tokens : Tokens) (t : Nat) (p : Option Nat) : Except ShellFault Tokens :=
  if t < tokens.length then .ok (tokens.set t p) else .error .tokens

def splitTokens : Nat → List UInt8 → Tokens → Nat → Nat → Except ShellFault (List UInt8 × Tokens × Nat)
  | 0, _, _, _, _ => .error .command
  | k + 1, command, tokens, i, t =>
    let c := command.getD i 0
    if c = 0 then .ok (command, tokens, t)
    else if c = space then do
      let tokens ← storeToken tokens t (some (i + 1))
      splitTokens k (command.set i 0) tokens (i + 1) (t + 1)
    else splitTokens k command tokens (i + 1) t

def tokenizeCommand (line : List UInt8) : Except ShellFault (List UInt8 × Tokens) := do
  let command := line ++ [0]
  let numtokens ← countTokens 1 command
  let tokens ← storeToken (List.replicate (numtokens + 1) none) 0 (some 0)
  let (command, tokens, t) ← splitTokens command.length command tokens 0 1
  let tokens ← storeToken tokens t none
  .ok (command, tokens)

def stringFrom (command : List UInt8) (p : Nat) : List UInt8 := (command.drop p).takeWhile (· ≠ 0)

/-- What `execve` makes of the pointers up to the first null. -/
def argvOf (command : List UInt8) : Tokens → List (List UInt8)
  | some p :: tokens => stringFrom command p :: argvOf command tokens
  | none :: _ | [] => []

-- ---------------------------------------------------------------------------
-- The search for a program

def pathName : List UInt8 := ['P'.toUInt8, 'A'.toUInt8, 'T'.toUInt8, 'H'.toUInt8]

/-- The tokens of repeated `strtok_r(path, ":", &brk)`. -/
def pathTokens (path : List UInt8) : List (List UInt8) := (path.splitOn colon).filter fun p => p ≠ []

/-- The loop of `execvp`; the block for a path is one byte shorter than the string. -/
def searchPath (usable : Nat → Nat) (accepts : List UInt8 → Bool) (file : List UInt8) :
    List (List UInt8) → Except ShellFault (Option (List UInt8))
  | [] => .ok none
  | p :: ps =>
    let fullpath := p ++ slash :: file
    if fullpath.length + 1 ≤ usable (p.length + file.length + 1) then
      if accepts fullpath then .ok (some fullpath) else searchPath usable accepts file ps
    else .error .fullpath

/-- The path that `execve` accepts and starts, or nothing when the call returns. -/
def execvp (usable : Nat → Nat) (accepts : List UInt8 → Bool) (e : Environment) (file : List UInt8) :
    Except ShellFault (Option (List UInt8)) :=
  if slash ∈ file then .ok (if accepts file then some file else none)
  else
    -- `strdup` of a null pointer comes before the test for one
    match e.getenv pathName with
    | some path => searchPath usable accepts file (pathTokens path)
    | none => .error .null

-- ---------------------------------------------------------------------------
-- The loop

def ps1Name : List UInt8 := ['P'.toUInt8, 'S'.toUInt8, '1'.toUInt8]
def ps1Default : List UInt8 := [dollar, space]

def Environment.setenv (e : Environment) (name value : List UInt8) (h : 0 ∉ value) : Environment :=
  ⟨fun n => if n = name then some value else e.getenv n, fun n v hv => by
    split at hv
    · rw [← Option.some.inj hv]
      exact h
    · exact e.string n v hv⟩

def printPrompt (e : Environment) : Environment :=
  match e.getenv ps1Name with
  | some _ => e
  | none => e.setenv ps1Name ps1Default (by decide)

/-- The line that `fgets` finds in the input, and what is behind it; nothing while it waits for more. -/
def fgets (input : List UInt8) : Option (List UInt8 × List UInt8) :=
  match (input.take (bufSize - 1)).findIdx? (· = newline) with
  | some i => some (input.take (i + 1), input.drop (i + 1))
  | none => if bufSize - 1 ≤ input.length then some (input.take (bufSize - 1), input.drop (bufSize - 1)) else none

inductive Command where
  | nothing
  | putenv (string : List UInt8)
  | run (argv : List (List UInt8)) (e : Environment)

/-- The shell's variables, and `buffer2`. -/
structure ShellState where
  env : Environment
  buffer2 : List UInt8

def ShellState.line (putenv : Environment → List UInt8 → Environment) (s : ShellState) (line : List UInt8) :
    Except ShellFault (Command × ShellState) :=
  let line := line.takeWhile (· ≠ 0)
  if line.length > 1 then
    match parseCommand s.env s.buffer2 line.dropLast with
    | .ok (some buffer2) => do
      let line2 := buffer2.takeWhile (· ≠ 0)
      let (command, tokens) ← tokenizeCommand line2
      if equals ∈ line2 then .ok (.putenv line2, ⟨putenv s.env line2, buffer2⟩)
      else .ok (.run (argvOf command tokens) s.env, { s with buffer2 := buffer2 })
    | .ok none => .error .null
    | .error o => .error (.outside o)
  else .ok (.nothing, s)

def ShellState.rounds (putenv : Environment → List UInt8 → Environment) :
    Nat → ShellState → List UInt8 → Except ShellFault (List Command × ShellState × List UInt8)
  | 0, s, input => .ok ([], s, input)
  | n + 1, s, input =>
    let s := { s with env := printPrompt s.env }
    match fgets input with
    | none => .ok ([], s, input)
    | some (line, rest) => do
      let (c, s) ← s.line putenv line
      let (cs, s, rest) ← s.rounds putenv n rest
      .ok (c :: cs, s, rest)

-- ---------------------------------------------------------------------------
-- Cutting a line in place

def cut (c : UInt8) : UInt8 := if c = space then 0 else c

def starts (i : Nat) : List UInt8 → List Nat
  | [] => []
  | c :: text => if c = space then (i + 1) :: starts (i + 1) text else starts (i + 1) text

section
variable {e : Environment} {line text before rest file : List UInt8} {ts : Tokens} {p c : UInt8} {n i : Nat}

theorem countTokens_eq (h0 : 0 ∉ text) : countTokens n (text ++ [0]) = .ok (n + text.count space) := by
  induction text generalizing n with
  | nil => rfl
  | cons c text ih =>
    rw [List.mem_cons, not_or] at h0
    rw [List.cons_append, countTokens, if_neg (Ne.symm h0.1), ih h0.2, List.count_cons]
    simp only [beq_iff_eq]
    split_ifs <;> simp only [Except.ok.injEq] <;> omega

theorem splitTokens_eq (h0 : 0 ∉ text) :
    splitTokens (text.length + 1) (before ++ (text ++ [0])) (ts ++ List.replicate (text.count space + 1) none) before.length ts.length =
      .ok (before ++ (text.map cut ++ [0]), ts ++ ((starts before.length text).map some ++ [none]),
        ts.length + text.count space) := by
  induction text generalizing before ts with
  | nil =>
    rw [splitTokens]
    simp [starts]
  | cons c text ih =>
    rw [List.mem_cons, not_or] at h0
    rw [List.length_cons, splitTokens]
    have hc : (before ++ (c :: text ++ [0])).getD before.length 0 = c := by simp
    rw [hc, if_neg (Ne.symm h0.1)]
    by_cases hspace : c = space
    · -- the pointer goes to the next character, and the string before it ends here
      rw [if_pos hspace, hspace, List.count_cons_self, storeToken, if_pos (by simp)]
      have htokens : (ts ++ List.replicate (text.count space + 1 + 1) none).set ts.length (some (before.length + 1)) =
          ts ++ [some (before.length + 1)] ++ List.replicate (text.count space + 1) none := by
        simp [List.replicate_succ]
      have hcommand : (before ++ (space :: text ++ [0])).set before.length 0 = before ++ [0] ++ (text ++ [0]) := by simp
      have hrest := @ih (before ++ [0]) (ts ++ [some (before.length + 1)]) h0.2
      rw [List.length_append, List.length_append, List.length_singleton, List.length_singleton] at hrest
      rw [htokens, hcommand]
      refine Eq.trans hrest ?_
      simp [starts, cut]
      omega
    · rw [if_neg hspace, List.count_cons_of_ne hspace]
      have hrest := @ih (before ++ [c]) ts h0.2
      rw [List.length_append, List.length_singleton] at hrest
      rw [show before ++ (c :: text ++ [0]) = before ++ [c] ++ (text ++ [0]) by simp, hrest]
      simp [starts, cut, hspace]

theorem argvOf_starts (h0 : 0 ∉ text) :
    argvOf (before ++ (text.map cut ++ [0])) ((before.length :: starts before.length text).map some ++ [none]) = text.splitOn space := by
  induction text generalizing before with
  | nil =>
    simp [starts, argvOf, stringFrom]
  | cons c text ih =>
    rw [List.mem_cons, not_or] at h0
    by_cases hspace : c = space
    · have hrest := @ih (before ++ [0]) h0.2
      rw [List.length_append, List.length_singleton] at hrest
      rw [List.splitOn_cons_eq_if_modifyHead, if_pos (by simp [hspace]), ← hrest]
      simp [starts, argvOf, stringFrom, cut, hspace]
    · -- the first word has one more character
      have hrest := @ih (before ++ [c]) h0.2
      rw [List.length_append, List.length_singleton] at hrest
      rw [List.splitOn_cons_eq_if_modifyHead, if_neg (by simp [hspace]), ← hrest]
      simp [starts, argvOf, stringFrom, cut, hspace, Ne.symm h0.1]

theorem starts_length : (starts i text).length = text.count space := by
  induction text generalizing i with
  | nil => rfl
  | cons c text ih =>
    by_cases hspace : c = space
    · rw [starts, if_pos hspace, List.length_cons, ih, hspace, List.count_cons_self]
    · rw [starts, if_neg hspace, ih, List.count_cons_of_ne hspace]

theorem tokenizeCommand_eq (h0 : 0 ∉ line) :
    tokenizeCommand line = .ok (line.map cut ++ [0], (0 :: starts 0 line).map some ++ [none]) := by
  have hfirst : storeToken (List.replicate (1 + line.count space + 1) none) 0 (some 0) =
      .ok ([some 0] ++ List.replicate (line.count space + 1) none) := by
    rw [storeToken, if_pos (by simp), Nat.add_comm 1, List.replicate_succ]
    rfl
  have hlast : storeToken ([some 0] ++ ((starts 0 line).map some ++ [none])) (1 + line.count space) none =
      .ok ((0 :: starts 0 line).map some ++ [none]) := by
    rw [storeToken, if_pos (by simp [starts_length]; omega)]
    refine congrArg Except.ok ?_
    rw [← List.append_assoc, List.set_append_right _ _ (by simp [starts_length])]
    simp [starts_length, Nat.add_comm 1]
  have hsplit := @splitTokens_eq line [] [some 0] h0
  rw [show line.length + 1 = (line ++ [0]).length by simp] at hsplit
  exact bind_ok.mpr ⟨_, countTokens_eq h0, bind_ok.mpr ⟨_, hfirst, bind_ok.mpr ⟨(_, _, _), hsplit, bind_ok.mpr ⟨_, hlast, rfl⟩⟩⟩⟩

theorem tokenize_command (h0 : 0 ∉ line) :
    ∃ command tokens, tokenizeCommand line = .ok (command, tokens) ∧ argvOf command tokens = line.splitOn space :=
  ⟨_, _, tokenizeCommand_eq h0, @argvOf_starts line [] h0⟩

end

-- ---------------------------------------------------------------------------
-- Lines without variables

structure PlainLine (line : List UInt8) : Prop where
  noZero : 0 ∉ line
  noVariable : dollar ∉ line
  noNewline : newline ∉ line
  fits : line.length + 1 < bufSize

def commandOf (e : Environment) (line : List UInt8) : Command :=
  if line = [] then .nothing
  else if equals ∈ line then .putenv line
  else .run (line.splitOn space) e

def session (putenv : Environment → List UInt8 → Environment) : Environment → List (List UInt8) → List Command × Environment
  | e, [] => ([], e)
  | e, line :: lines =>
    let e := printPrompt e
    let later := session putenv (if equals ∈ line then putenv e line else e) lines
    (commandOf e line :: later.1, later.2)

section
variable {putenv : Environment → List UInt8 → Environment} {e : Environment} {s : ShellState} {line rest b : List UInt8}
  {lines : List (List UInt8)}

theorem fgets_line (hn : newline ∉ line) (hfits : line.length + 1 < bufSize) :
    fgets (line ++ [newline] ++ rest) = some (line ++ [newline], rest) := by
  have hindex : ((line ++ [newline] ++ rest).take (bufSize - 1)).findIdx? (· = newline) = some line.length := by
    rw [List.append_assoc, List.take_append, List.findIdx?_append, List.take_of_length_le (by omega),
      List.findIdx?_eq_none_iff.mpr fun c hc => by simpa using ne_of_mem_of_not_mem hc hn]
    obtain ⟨k, hk⟩ := @Nat.exists_eq_add_of_lt line.length (bufSize - 1) (by omega)
    rw [show bufSize - 1 - line.length = k + 1 by omega]
    simp [List.findIdx?_cons]
  have hlen : (line ++ [newline]).length = line.length + 1 := by simp
  unfold fgets
  rw [hindex]
  dsimp only
  rw [← hlen, List.take_left, List.drop_left]

theorem PlainLine.parse (h : PlainLine line) (hb : b.length = bufSize) :
    ∃ b', parseCommand e b line = .ok (some b') ∧ b'.takeWhile (· ≠ 0) = line ∧ b'.length = bufSize := by
  obtain ⟨b1, hparse, hlen, htake, -⟩ := @parseFrom_copies e b [] line 0 h.noVariable h.noNewline hb (by have := h.fits; omega)
  rw [List.append_nil] at hparse
  rw [Nat.zero_add] at hparse htake
  have hfits : line.length < bufSize := by
    have := h.fits
    omega
  refine ⟨b1.set line.length 0, ?_, ?_, by rw [List.length_set, hlen]⟩
  · rw [parseCommand, hparse, parseFrom, store_ok hfits]
    rfl
  · rw [← List.take_append_drop (line.length + 1) (b1.set line.length 0), take_set_succ (by omega), htake]
    simp only [List.take_zero, List.nil_append, List.append_assoc]
    exact takeWhile_nonzero h.noZero

theorem PlainLine.round (h : PlainLine line) (hb : s.buffer2.length = bufSize) :
    ∃ b, s.line putenv (line ++ [newline]) =
      .ok (commandOf s.env line, ⟨if equals ∈ line then putenv s.env line else s.env, b⟩) ∧ b.length = bufSize := by
  have hstrlen : (line ++ [newline]).takeWhile (· ≠ 0) = line ++ [newline] := by
    rw [List.takeWhile_append_of_pos fun c hc => decide_eq_true (ne_of_mem_of_not_mem hc h.noZero)]
    rfl
  unfold ShellState.line commandOf
  rw [hstrlen]
  by_cases hempty : line = []
  · subst hempty
    exact ⟨s.buffer2, rfl, hb⟩
  obtain ⟨b, hparse, hline, hlen⟩ := @PlainLine.parse s.env line s.buffer2 h hb
  obtain ⟨command, tokens, htokens, hargv⟩ := tokenize_command h.noZero
  refine ⟨b, ?_, hlen⟩
  have hlong : (line ++ [newline]).length > 1 := by
    rw [List.length_append, List.length_singleton]
    exact Nat.succ_lt_succ (List.length_pos_of_ne_nil hempty)
  dsimp only
  rw [if_pos hlong, List.dropLast_concat, hparse, if_neg hempty]
  simp only [hline, htokens, ← hargv, Bind.bind, Except.bind]
  split_ifs <;> rfl

theorem rounds_session (hlines : ∀ line ∈ lines, PlainLine line) (hb : s.buffer2.length = bufSize) :
    ∃ b, s.rounds putenv lines.length (lines.flatMap (· ++ [newline]) ++ rest) =
      .ok ((session putenv s.env lines).1, ⟨(session putenv s.env lines).2, b⟩, rest) ∧ b.length = bufSize := by
  induction lines generalizing s with
  | nil => exact ⟨s.buffer2, rfl, hb⟩
  | cons line lines ih =>
    rw [List.forall_mem_cons] at hlines
    obtain ⟨b1, hline, hb1⟩ := @PlainLine.round putenv { s with env := printPrompt s.env } line hlines.1 hb
    obtain ⟨b2, hrest, hb2⟩ := @ih ⟨if equals ∈ line then putenv (printPrompt s.env) line else printPrompt s.env, b1⟩ hlines.2 hb1
    refine ⟨b2, ?_, hb2⟩
    rw [List.flatMap_cons, List.append_assoc, List.length_cons, ShellState.rounds]
    dsimp only
    rw [fgets_line hlines.1.noNewline hlines.1.fits]
    exact bind_ok.mpr ⟨(_, _), hline, bind_ok.mpr ⟨(_, _, _), hrest, rfl⟩⟩

end

-- ---------------------------------------------------------------------------
-- From the keys to the program

def tried (accepts : List UInt8 → Bool) (file : List UInt8) : List (List UInt8) → List (List UInt8)
  | [] => []
  | p :: ps => if accepts (p ++ slash :: file) then [p] else p :: tried accepts file ps

/-- The block for the path has a byte more than was asked for. -/
def BlockFits (usable : Nat → Nat) (file p : List UInt8) : Prop := p.length + file.length + 2 ≤ usable (p.length + file.length + 1)

instance (usable : Nat → Nat) (file p : List UInt8) : Decidable (BlockFits usable file p) := inferInstanceAs (Decidable (_ ≤ _))

theorem searchPath_iff {usable : Nat → Nat} {accepts : List UInt8 → Bool} {file : List UInt8} {paths : List (List UInt8)}
    {r : Option (List UInt8)} : searchPath usable accepts file paths = .ok r ↔
      (∀ p ∈ tried accepts file paths, BlockFits usable file p) ∧ r = (paths.map (· ++ slash :: file)).find? accepts := by
  induction paths with
  | nil => simp [searchPath, tried, eq_comm]
  | cons p ps ih =>
    have hlen : (p ++ slash :: file).length + 1 = p.length + file.length + 2 := by
      rw [List.length_append, List.length_cons]
      omega
    rw [searchPath, tried, List.map_cons, hlen]
    change (if BlockFits usable file p then _ else _) = _ ↔ _
    by_cases hroom : BlockFits usable file p
    · rw [if_pos hroom]
      cases haccepts : accepts (p ++ slash :: file) with
      | true =>
        rw [List.find?_cons_of_pos haccepts, if_pos rfl, if_pos rfl, List.forall_mem_singleton, Except.ok.injEq]
        exact ⟨fun h => ⟨hroom, h.symm⟩, fun h => h.2.symm⟩
      | false =>
        rw [List.find?_cons_of_neg (by simp [haccepts]), if_neg Bool.false_ne_true, if_neg Bool.false_ne_true, ih, List.forall_mem_cons]
        exact ⟨fun h => ⟨⟨hroom, h.1⟩, h.2⟩, fun h => ⟨h.1.2, h.2⟩⟩
    · rw [if_neg hroom]
      refine ⟨fun h => (by cases h), fun h => absurd (h.1 p ?_) hroom⟩
      split_ifs <;> exact List.mem_cons_self

section
variable {putenv : Environment → List UInt8 → Environment} {e e' : Environment} {lines : List (List UInt8)}
  {argv : List (List UInt8)} {line : List UInt8}

theorem notMem_words : ∀ w ∈ line.splitOn space, space ∉ w := by
  induction line with
  | nil => simp
  | cons c line ih =>
    rw [List.splitOn_cons_eq_if_modifyHead]
    obtain ⟨word, words, hsplit⟩ := List.exists_cons_of_ne_nil (List.splitOn_ne_nil space line)
    rw [hsplit, List.forall_mem_cons] at ih
    split_ifs with hc
    · rw [hsplit, List.forall_mem_cons, List.forall_mem_cons]
      exact ⟨List.not_mem_nil, ih⟩
    · rw [hsplit, List.modifyHead_cons, List.forall_mem_cons]
      refine ⟨fun hmem => ?_, ih.2⟩
      obtain rfl | hmem := List.mem_cons.mp hmem
      · exact hc (beq_self_eq_true _)
      · exact ih.1 hmem

theorem run_mem (h : .run argv e ∈ (session putenv e' lines).1) : ∃ line ∈ lines, line ≠ [] ∧ argv = line.splitOn space := by
  induction lines generalizing e' with
  | nil => cases h
  | cons line lines ih =>
    rw [session, List.mem_cons] at h
    obtain h | h := h
    · unfold commandOf at h
      split_ifs at h with hempty
      rw [Command.run.injEq] at h
      exact ⟨line, List.mem_cons_self, hempty, h.1⟩
    · obtain ⟨line', hmem, hline⟩ := ih h
      exact ⟨line', List.mem_cons_of_mem _ hmem, hline⟩

/-- Lines typed in the active terminal, whatever was typed before and whatever is printed meanwhile,
arrive there in order; a shell that reads them sets variables or runs the words of each, and
the child starts the first program along `PATH`, if the blocks for the paths have room. -/
theorem typed_session (fork usable : Nat → Nat) (accepts : List UInt8 → Bool) (putenv : Environment → List UInt8 → Environment)
    {vidmem : List Nat} {cursor : Nat} {earlier acts : List TerminalAct} {s s' : Vterms} {lines : List (List UInt8)}
    (h : Transition.exec (Vterms.step fork) (Vterms.start fork vidmem cursor) earlier = some s)
    (hkeys : Unshifted (earlier.filterMap TerminalAct.code))
    (hlines : ∀ line ∈ lines, PlainLine line ∧ ∀ c ∈ line, Typable c)
    (hcodes : acts.filterMap TerminalAct.code = (lines.flatMap (· ++ [newline])).flatMap strokes)
    (hs : Transition.exec (Vterms.step fork) s acts = some s') :
    s'.calls = s.calls ++ (lines.flatMap (· ++ [newline])).map (.write s.active) ∧
    (∀ (sh : ShellState) rest, sh.buffer2.length = bufSize → ∃ b, b.length = bufSize ∧
      sh.rounds putenv lines.length (lines.flatMap (· ++ [newline]) ++ rest) =
        .ok ((session putenv sh.env lines).1, ⟨(session putenv sh.env lines).2, b⟩, rest)) ∧
    ∀ e0 argv e, .run argv e ∈ (session putenv e0 lines).1 → [space].intercalate argv ∈ lines ∧ (∀ w ∈ argv, space ∉ w) ∧
      ∃ file args, argv = file :: args ∧ ∀ path r, slash ∉ file → e.getenv pathName = some path →
        (execvp usable accepts e file = .ok r ↔ (∀ p ∈ tried accepts file (pathTokens path), BlockFits usable file p) ∧
          r = ((pathTokens path).map (· ++ slash :: file)).find? accepts) := by
  have htext : ∀ c ∈ lines.flatMap (· ++ [newline]), Typable c := by
    intro c hc
    obtain ⟨line, hline, hc⟩ := List.mem_flatMap.mp hc
    obtain hc | hc := List.mem_append.mp hc
    · exact (hlines line hline).2 c hc
    · rw [List.mem_singleton.mp hc]
      decide
  have hheard := (start_heard vidmem cursor).exec h
  obtain ⟨-, -, hcalls⟩ := hheard.types hkeys htext hcodes hs
  refine ⟨hcalls, fun sh rest hb => ?_, fun e0 argv e hrun => ?_⟩
  · obtain ⟨b, hrounds, hlen⟩ := @rounds_session putenv sh rest lines (fun line hline => (hlines line hline).1) hb
    exact ⟨b, hlen, hrounds⟩
  · obtain ⟨line, hline, -, rfl⟩ := run_mem hrun
    refine ⟨?_, notMem_words, ?_⟩
    · rw [List.intercalate_splitOn]
      exact hline
    · obtain ⟨file, args, hargv⟩ := List.exists_cons_of_ne_nil (List.splitOn_ne_nil space line)
      refine ⟨file, args, hargv, fun path r hslash hpath => ?_⟩
      rw [execvp, if_neg hslash, hpath]
      exact searchPath_iff

end

def lsBin : List UInt8 := [108, 115, 32, 47, 98, 105, 110]

def binLs : List UInt8 := [47, 98, 105, 110, 47, 108, 115]

/-- The `PATH` that `init` sets: `/bin:/usr/sbin:/bin`. -/
def initPath : List UInt8 := [47, 98, 105, 110, 58, 47, 117, 115, 114, 47, 115, 98, 105, 110, 58, 47, 98, 105, 110]

def initEnv : Environment := Environment.setenv unset pathName initPath (by decide)

/-- Blocks in steps of eight bytes, of which four are not the caller's. -/
def inSteps (n : Nat) : Nat := max 12 ((n + 11) / 8 * 8 - 4)

theorem typed_session_ls : ∃ s, Transition.exec (Vterms.step id) (Vterms.start id [] 0)
      (((lsBin ++ [newline]).flatMap strokes).map .key) = some s ∧
    s.calls = .start 0 :: (lsBin ++ [newline]).map (.write 0) ∧
    execvp inSteps (· = binLs) (printPrompt initEnv) [108, 115] = .ok (some binLs) := by
  have hsome : (Transition.exec (Vterms.step id) (Vterms.start id [] 0)
      (((lsBin ++ [newline]).flatMap strokes).map .key)).isSome = true := by decide +kernel
  obtain ⟨s, hs⟩ := Option.isSome_iff_exists.mp hsome
  have hplain : PlainLine lsBin := ⟨by decide, by decide, by decide, by decide⟩
  have htypable : ∀ c ∈ lsBin, Typable c := by decide +kernel
  obtain ⟨hcalls, -, hrun⟩ := @typed_session id inSteps (· = binLs) (fun e _ => e) [] 0 [] _ _ s [lsBin] rfl ⟨rfl, rfl⟩
    (List.forall_mem_singleton.mpr ⟨hplain, htypable⟩) (by decide +kernel) hs
  have hmem : .run [[108, 115], [47, 98, 105, 110]] (printPrompt initEnv) ∈ (session (fun e _ => e) initEnv [lsBin]).1 := by
    show _ ∈ [commandOf (printPrompt initEnv) lsBin]
    rw [commandOf, if_neg (by decide), if_neg (by decide)]
    exact List.mem_singleton_self _
  obtain ⟨-, -, file, args, hargv, hstarts⟩ := hrun initEnv _ _ hmem
  obtain ⟨rfl, -⟩ := List.cons.inj hargv
  exact ⟨s, hs, hcalls, (hstarts initPath (some binLs) (by decide) rfl).mpr ⟨by decide +kernel, by decide +kernel⟩⟩

end Os5
