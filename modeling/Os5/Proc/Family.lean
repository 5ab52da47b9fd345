import Os5.Lib.Chain
import Os5.Lib.Outcome
import Os5.Lib.Transition

/-!
# The family of processes

A process points to its parent, to its youngest child and to the siblings next to it. The
fields of `process_t` are written as functions of the address of a process; an address is
not handed out again here, so that a pointer to a process that was freed can be told from
the others.
-/

namespace Os5

open Linear Outcome Transition

structure Family where
  parent : Nat → Option Nat
  child : Nat → Option Nat
  olderSibling : Nat → Option Nat
  youngerSibling : Nat → Option Nat
  finished : Nat → Bool
  /-- `process_list`, which holds the processes that are allocated. -/
  processList : List Nat
  nextPid : Nat

/-- Why an operation does not come back, or what it does next cannot be told. -/
inductive Astray
  | null
  | freed
  | endless
  | refused
  deriving DecidableEq, Repr

inductive FamilyAct
  | fork (parent : Nat)
  | exit (proc : Nat)
  | free (proc : Nat)

namespace Family

def follow (s : Family) : Option Nat → Except Astray Nat
  | none => .error .null
  | some p => if p ∈ s.processList then .ok p else .error .freed

def setParent (s : Family) (p : Nat) (v : Option Nat) : Family :=
  { s with parent := Function.update s.parent p v }

def setChild (s : Family) (p : Nat) (v : Option Nat) : Family :=
  { s with child := Function.update s.child p v }

def setOlder (s : Family) (p : Nat) (v : Option Nat) : Family :=
  { s with olderSibling := Function.update s.olderSibling p v }

def setYounger (s : Family) (p : Nat) (v : Option Nat) : Family :=
  { s with youngerSibling := Function.update s.youngerSibling p v }

def linkYounger (s : Family) (o v : Option Nat) : Except Astray Family :=
  if o.isSome then do
    let o ← s.follow o
    return s.setYounger o v
  else return s

def linkOlder (s : Family) (y v : Option Nat) : Except Astray Family :=
  if y.isSome then do
    let y ← s.follow y
    return s.setOlder y v
  else return s

def allocProcess (s : Family) : Nat × Family :=
  let p := s.nextPid
  (p, { parent := Function.update s.parent p none
        child := Function.update s.child p none
        olderSibling := Function.update s.olderSibling p none
        youngerSibling := Function.update s.youngerSibling p none
        finished := Function.update s.finished p false
        processList := s.processList ++ [p]
        nextPid := p + 1 })

/-- The part of `fork_process` that is about the family. -/
def forkProcess (s : Family) (parent : Nat) : Except Astray (Nat × Family) := do
  let (child, s) := s.allocProcess
  let s := s.setParent child (some parent)
  let s := s.setOlder child (s.child parent)
  let s ← s.linkYounger (s.olderSibling child) (some child)
  return (child, s.setChild parent (some child))

/-- The loop of `free_process` over the children, from `i` on; it ends with the oldest one.
A chain that is longer than there are addresses closes on itself. -/
def adopt (init : Nat) : Nat → Nat → Family → Except Astray (Nat × Family)
  | 0, _, _ => .error .endless
  | fuel + 1, i, s =>
    if (s.olderSibling i).isSome then do
      let s := s.setParent i (some init)
      let o ← s.follow (s.olderSibling i)
      adopt init fuel o s
    else .ok (i, s)

/-- "Make init adopt all the processes children" -/
def adoptChildren (s : Family) (init proc : Nat) : Except Astray Family :=
  if (s.child proc).isSome then do
    let ch ← s.follow (s.child proc)
    let (i, s) ← adopt init (s.nextPid + 1) ch s
    let s := s.setOlder i (s.child init)
    let o ← s.follow (s.olderSibling i)
    let s := s.setYounger o (some i)
    return s.setChild init (some ch)
  else return s

/-- "Remove from list of process tree" -/
def leaveTree (s : Family) (proc : Nat) : Except Astray Family := do
  let parent ← s.follow (s.parent proc)
  let s :=
    if s.child parent = some proc then
      if (s.youngerSibling proc).isSome then s.setChild parent (s.youngerSibling proc)
      else if (s.olderSibling proc).isSome then s.setChild parent (s.olderSibling proc)
      else s.setChild parent none
    else s
  let s ← s.linkYounger (s.olderSibling proc) (s.youngerSibling proc)
  s.linkOlder (s.youngerSibling proc) (s.olderSibling proc)

def freeProcess (s : Family) (proc : Nat) : Except Astray Family := do
  let proc ← s.follow (some proc)
  let init ← s.follow s.processList.head?
  let s ← s.adoptChildren init proc
  let s ← s.leaveTree proc
  return { s with processList := s.processList.erase proc }

def exitProcess (s : Family) (proc : Nat) : Family :=
  { s with finished := Function.update s.finished proc true }

/-- Only a process that still runs forks or exits; `waitpid` frees a process that does not. -/
def carryOut (s : Family) : FamilyAct → Except Astray Family
  | .fork parent =>
    if parent ∈ s.processList ∧ s.finished parent = false then do
      let (_, s) ← s.forkProcess parent
      return s
    else .error .refused
  | .exit proc =>
    if proc ∈ s.processList ∧ s.finished proc = false then .ok (s.exitProcess proc) else .error .refused
  | .free proc => if s.finished proc = true then s.freeProcess proc else .error .refused

def step (s : Family) (a : FamilyAct) : Option Family := (s.carryOut a).toOption

-- ---------------------------------------------------------------------------
-- A family that is in shape
-- ---------------------------------------------------------------------------

def siblings (s : Family) : Links Nat := ⟨s.olderSibling, s.youngerSibling⟩

/-- The child chain of `p`: from its `child` on along the `older_sibling` links. -/
def ChildChain (s : Family) (p : Nat) (l : List Nat) : Prop :=
  (l.head? = s.child p) ∧ l.IsChain (fun a b => s.olderSibling a = some b) ∧
    ∀ a, l.getLast? = some a → s.olderSibling a = none

/-- Every process but the first has a parent and is once in the child chain of its parent,
and the two links between siblings are inverse to each other. -/
structure InTree (s : Family) : Prop where
  parent : ∀ p ∈ s.processList, s.processList.head? ≠ some p → ∃ q ∈ s.processList,
    s.parent p = some q ∧ ∃ l, s.ChildChain q l ∧ l.count p = 1
  older : ∀ p ∈ s.processList, ∀ q, s.olderSibling p = some q → q ∈ s.processList ∧ s.youngerSibling q = some p
  younger : ∀ p ∈ s.processList, ∀ q, s.youngerSibling p = some q → q ∈ s.processList ∧ s.olderSibling q = some p

/-- The children that `p` has in `s` are children of the first process in `s'`. -/
def Adopted (s : Family) (p : Nat) (s' : Family) : Prop :=
  ∀ c ∈ s.processList, s.parent c = some p → s'.parent c = s.processList.head?

def Childless (s : Family) : FamilyAct → Prop
  | .free p => s.child p = none
  | _ => True

structure Start (s : Family) : Prop where
  alone : ∃ p, s.processList = [p] ∧ p < s.nextPid ∧ s.parent p = none ∧ s.child p = none ∧
    s.olderSibling p = none ∧ s.youngerSibling p = none

structure Tree (s : Family) (kids : Nat → List Nat) : Prop where
  nodup : s.processList.Nodup
  fresh : ∀ p ∈ s.processList, p < s.nextPid
  chain : ∀ q ∈ s.processList, Chain s.siblings none (s.child q) (kids q)
  mem : ∀ q ∈ s.processList, ∀ p, p ∈ kids q ↔ p ∈ s.processList ∧ s.parent p = some q
  parent : ∀ p ∈ s.processList, (∃ q ∈ s.processList, s.parent p = some q) ∨
    (s.processList.head? = some p ∧ s.parent p = none ∧ s.olderSibling p = none ∧ s.youngerSibling p = none)

section
variable {s s' : Family} {kids : Nat → List Nat} {p q c o : Nat} {l : List Nat} {a : FamilyAct}

theorem Start.tree (h : s.Start) : s.Tree fun _ => [] := by
  obtain ⟨p, hlist, hlt, hparent, hchild, holder, hyounger⟩ := h.alone
  refine ⟨?_, ?_, ?_, ?_, ?_⟩
  · rw [hlist]
    exact List.nodup_singleton p
  · simpa [hlist] using hlt
  · simpa [hlist] using hchild
  · intro q hq r
    obtain rfl : q = p := by simpa [hlist] using hq
    simp only [List.not_mem_nil, false_iff, not_and, hlist, List.mem_singleton]
    rintro rfl
    simp [hparent]
  · intro q hq
    obtain rfl : q = p := by simpa [hlist] using hq
    exact .inr ⟨by simp [hlist], hparent, holder, hyounger⟩

-- ---------------------------------------------------------------------------
-- What a tree says
-- ---------------------------------------------------------------------------

theorem Tree.kids_list (h : s.Tree kids) (hq : q ∈ s.processList) (hc : c ∈ kids q) : c ∈ s.processList :=
  ((h.mem q hq c).mp hc).1

theorem Tree.parent_unique (h : s.Tree kids) (hp : p ∈ s.processList) (hq : q ∈ s.processList)
    (hcp : c ∈ kids p) (hcq : c ∈ kids q) : p = q :=
  Option.some.inj (((h.mem p hp c).mp hcp).2.symm.trans ((h.mem q hq c).mp hcq).2)

theorem childChain_of_chain (h : Chain s.siblings none (s.child p) l) : s.ChildChain p l := by
  have hall : ∀ {b c : Option Nat} {l : List Nat}, Chain s.siblings b c l → l.head? = c ∧
      l.IsChain (fun a b => s.olderSibling a = some b) ∧ ∀ a, l.getLast? = some a → s.olderSibling a = none := by
    intro b c l h
    induction l generalizing b c with
    | nil => exact ⟨h.symm, .nil, by simp⟩
    | cons x l ih =>
      obtain ⟨rfl, -, hrest⟩ := h
      obtain ⟨h1, h2, h3⟩ := ih hrest
      refine ⟨rfl, ?_, ?_⟩
      · cases l with
        | nil => exact .singleton _
        | cons y l => exact List.isChain_cons_cons.mpr ⟨h1.symm, h2⟩
      · cases l with
        | nil =>
          rintro a ⟨⟩
          exact h1.symm
        | cons y l => exact h3
  exact hall h

theorem Tree.inTree (h : s.Tree kids) : s.InTree where
  parent p hp hne := by
    rcases h.parent p hp with ⟨q, hq, hpq⟩ | ⟨hfirst, -⟩
    · have hc := h.chain q hq
      refine ⟨q, hq, hpq, kids q, childChain_of_chain hc, ?_⟩
      exact List.count_eq_one_of_mem hc.nodup ((h.mem q hq p).mpr ⟨hp, hpq⟩)
    · exact absurd hfirst hne
  older p hp q hpq := by
    rcases h.parent p hp with ⟨r, hr, hpr⟩ | ⟨-, -, hnone, -⟩
    · have hmem := (h.mem r hr p).mpr ⟨hp, hpr⟩
      exact ⟨h.kids_list hr ((h.chain r hr).next_mem hmem hpq), (h.chain r hr).prev_next hmem hpq⟩
    · rw [hnone] at hpq
      cases hpq
  younger p hp q hpq := by
    rcases h.parent p hp with ⟨r, hr, hpr⟩ | ⟨-, -, -, hnone⟩
    · have hmem := (h.mem r hr p).mpr ⟨hp, hpr⟩
      rcases (h.chain r hr).next_prev hmem hpq with ⟨hnone, -⟩ | ⟨hq, hqp⟩
      · cases hnone
      · exact ⟨h.kids_list hr hq, hqp⟩
    · rw [hnone] at hpq
      cases hpq

-- ---------------------------------------------------------------------------
-- A fork
-- ---------------------------------------------------------------------------

structure Born (s : Family) (p : Nat) (s' : Family) : Prop where
  parent : ∀ y, s'.parent y = if y = s.nextPid then some p else s.parent y
  child : ∀ y, s'.child y = if y = p then some s.nextPid else if y = s.nextPid then none else s.child y
  older : ∀ y, s'.olderSibling y = if y = s.nextPid then s.child p else s.olderSibling y
  younger : ∀ y, s'.youngerSibling y =
    if s.child p = some y then some s.nextPid else if y = s.nextPid then none else s.youngerSibling y
  list : s'.processList = s.processList ++ [s.nextPid]
  next : s'.nextPid = s.nextPid + 1

theorem Tree.ne_next (h : s.Tree kids) (hp : p ∈ s.processList) : p ≠ s.nextPid := Nat.ne_of_lt (h.fresh p hp)

theorem Tree.child_mem (h : s.Tree kids) (hp : p ∈ s.processList) (hc : s.child p = some c) : c ∈ kids p := by
  have hchain := h.chain p hp
  rw [hc] at hchain
  cases hk : kids p with
  | nil =>
    rw [hk] at hchain
    cases hchain
  | cons d l =>
    rw [hk] at hchain
    obtain rfl := Option.some.inj hchain.1
    exact List.mem_cons_self

theorem follow_ok (hp : p ∈ s.processList) : s.follow (some p) = .ok p := if_pos hp

theorem follow_some {v : Option Nat} (h : s.follow v = .ok p) : v = some p ∧ p ∈ s.processList := by
  cases v with
  | none => cases h
  | some q =>
    by_cases hq : q ∈ s.processList
    · obtain rfl := Except.ok.inj ((follow_ok hq).symm.trans h)
      exact ⟨rfl, hq⟩
    · cases (show s.follow (some q) = .error .freed from if_neg hq).symm.trans h

theorem update_some {α : Type} {f : Nat → α} {v : α} :
    Function.update f o v = fun y => if some o = some y then v else f y := by
  funext y
  simp only [Function.update_apply, Option.some_inj, eq_comm]

theorem linkYounger_eq {v w : Option Nat} (h : s.linkYounger w v = .ok s') :
    s' = { s with youngerSibling := fun y => if w = some y then v else s.youngerSibling y } := by
  cases w with
  | none =>
    obtain rfl := Except.ok.inj h
    simp
  | some o =>
    obtain ⟨u, hu, h⟩ := bind_ok.mp h
    obtain rfl := Except.ok.inj h
    obtain rfl := Option.some.inj (follow_some hu).1
    rw [setYounger, update_some]

theorem linkOlder_eq {v w : Option Nat} (h : s.linkOlder w v = .ok s') :
    s' = { s with olderSibling := fun y => if w = some y then v else s.olderSibling y } := by
  cases w with
  | none =>
    obtain rfl := Except.ok.inj h
    simp
  | some o =>
    obtain ⟨u, hu, h⟩ := bind_ok.mp h
    obtain rfl := Except.ok.inj h
    obtain rfl := Option.some.inj (follow_some hu).1
    rw [setOlder, update_some]

theorem linkYounger_ok {v w : Option Nat} (h : ∀ o, w = some o → o ∈ s.processList) :
    ∃ s', s.linkYounger w v = .ok s' := by
  cases w with
  | none => exact ⟨s, rfl⟩
  | some o => exact ⟨_, bind_ok.mpr ⟨o, follow_ok (h o rfl), rfl⟩⟩

theorem linkOlder_ok {v w : Option Nat} (h : ∀ o, w = some o → o ∈ s.processList) :
    ∃ s', s.linkOlder w v = .ok s' := by
  cases w with
  | none => exact ⟨s, rfl⟩
  | some o => exact ⟨_, bind_ok.mpr ⟨o, follow_ok (h o rfl), rfl⟩⟩

theorem forkProcess_born (hp : p ≠ s.nextPid) (hfork : s.forkProcess p = .ok (c, s')) :
    c = s.nextPid ∧ s.Born p s' := by
  obtain ⟨s1, hyounger, hfork⟩ := bind_ok.mp hfork
  obtain ⟨rfl, rfl⟩ := Prod.mk.inj (Except.ok.inj hfork)
  obtain rfl := linkYounger_eq hyounger
  refine ⟨rfl, fun y => ?_, fun y => ?_, fun y => ?_, fun y => ?_, rfl, rfl⟩
  · simp only [setChild, setParent, setOlder, Function.update_idem, Function.update_apply]
  · simp only [setChild, setParent, setOlder, Function.update_apply]
  · simp only [setChild, setParent, setOlder, Function.update_idem, Function.update_apply, if_neg hp]
  · simp only [setChild, setParent, setOlder, Function.update_idem, Function.update_apply, if_neg hp, if_true]

theorem Tree.child_parent (h : s.Tree kids) (hp : p ∈ s.processList) (hc : s.child p = some c) :
    c ∈ s.processList ∧ s.parent c = some p :=
  (h.mem p hp c).mp (h.child_mem hp hc)

theorem Tree.parent_mem (h : s.Tree kids) (hc : c ∈ s.processList) (hp : s.parent c = some p) :
    p ∈ s.processList := by
  rcases h.parent c hc with ⟨q, hq, hcq⟩ | ⟨-, hnone, -⟩
  · exact Option.some.inj (hcq.symm.trans hp) ▸ hq
  · cases hnone.symm.trans hp

theorem Tree.forkProcess_ok (h : s.Tree kids) (hp : p ∈ s.processList) :
    ∃ s', s.forkProcess p = .ok (s.nextPid, s') ∧ s.Born p s' := by
  let t := s.allocProcess.2.setParent s.nextPid (some p)
  let u := t.setOlder s.nextPid (t.child p)
  have holder : ∀ o, u.olderSibling s.nextPid = some o → o ∈ u.processList := by
    intro o ho
    have hchild : s.child p = some o := by
      simpa [u, t, setOlder, setParent, allocProcess, h.ne_next hp] using ho
    exact List.mem_append_left _ (h.child_parent hp hchild).1
  obtain ⟨v, hv⟩ := linkYounger_ok holder
  have hfork : s.forkProcess p = .ok (s.nextPid, v.setChild p (some s.nextPid)) := bind_ok.mpr ⟨v, hv, rfl⟩
  exact ⟨_, hfork, (forkProcess_born (h.ne_next hp) hfork).2⟩

theorem forkProcess_finished (hfork : s.forkProcess p = .ok (c, s')) :
    s'.finished = Function.update s.finished s.nextPid false := by
  obtain ⟨s1, hyounger, hfork⟩ := bind_ok.mp hfork
  obtain ⟨rfl, rfl⟩ := Prod.mk.inj (Except.ok.inj hfork)
  obtain rfl := linkYounger_eq hyounger
  rfl

theorem Tree.born (h : s.Tree kids) (hp : p ∈ s.processList) (hb : s.Born p s') :
    s'.Tree fun q => if q = p then s.nextPid :: kids p else if q = s.nextPid then [] else kids q := by
  have hpx := h.ne_next hp
  have hnot : s.nextPid ∉ s.processList := fun hx => h.ne_next hx rfl
  have hmem : ∀ {r}, r ∈ s'.processList ↔ r ∈ s.processList ∨ r = s.nextPid := by
    intro r
    rw [hb.list, List.mem_append, List.mem_singleton]
  have hhead : s'.processList.head? = s.processList.head? := by
    rw [hb.list, List.head?_append_of_ne_nil _ (List.ne_nil_of_mem hp)]
  -- outside of the chain of the parent nothing changes
  have hold : ∀ {r}, r ∈ s.processList → s.child p ≠ some r →
      s'.olderSibling r = s.olderSibling r ∧ s'.youngerSibling r = s.youngerSibling r := by
    intro r hr hne
    rw [hb.older, hb.younger, if_neg (h.ne_next hr), if_neg hne, if_neg (h.ne_next hr)]
    exact ⟨rfl, rfl⟩
  refine ⟨?_, fun r hr => ?_, fun q hq => ?_, fun q hq r => ?_, fun r hr => ?_⟩
  · rw [hb.list]
    exact List.nodup_append.mpr ⟨h.nodup, List.nodup_singleton _, fun a ha b hb hab => by
      obtain rfl := List.mem_singleton.mp hb
      exact hnot (hab ▸ ha)⟩
  · rw [hb.next]
    rcases hmem.mp hr with hr | rfl
    · exact (h.fresh r hr).trans (Nat.lt_succ_self _)
    · exact Nat.lt_succ_self _
  · rw [hb.child]
    by_cases hqp : q = p
    · subst hqp
      rw [if_pos rfl, if_pos rfl]
      have hfirst : ∀ {y}, s.child q = some y → y ≠ s.nextPid := fun hy =>
        h.ne_next (h.child_parent hp hy).1
      refine (h.chain q hp).push (fun hx => hnot (h.kids_list hp hx)) ?_ ?_ (fun y hy => ?_) fun y hy => ⟨?_, fun hne => ?_⟩
      · exact (hb.older _).trans (if_pos rfl)
      · refine (hb.younger _).trans ?_
        rw [if_neg fun hx => hfirst hx rfl, if_pos rfl]
      · exact (hb.younger _).trans (if_pos hy)
      · exact (hb.older _).trans (if_neg (h.ne_next (h.kids_list hp hy)))
      · exact (hold (h.kids_list hp hy) hne).2
    · rw [if_neg hqp, if_neg hqp]
      rcases hmem.mp hq with hq | rfl
      · rw [if_neg (h.ne_next hq), if_neg (h.ne_next hq)]
        refine (h.chain q hq).congr fun y hy => hold (h.kids_list hq hy) fun hpy => hqp ?_
        exact h.parent_unique hq hp hy (h.child_mem hp hpy)
      · rw [if_pos rfl, if_pos rfl]
        rfl
  · rw [hmem, hb.parent]
    by_cases hqp : q = p
    · subst hqp
      rw [if_pos rfl, List.mem_cons, h.mem q hp]
      by_cases hr : r = s.nextPid <;> simp [hr]
    · rw [if_neg hqp]
      rcases hmem.mp hq with hq | rfl
      · rw [if_neg (h.ne_next hq), h.mem q hq]
        by_cases hr : r = s.nextPid
        · simp [hr, hnot, Ne.symm hqp]
        · simp [hr]
      · rw [if_pos rfl]
        simp only [List.not_mem_nil, false_iff, not_and]
        rintro (hr | rfl)
        · rw [if_neg (h.ne_next hr)]
          exact fun hx => hnot (h.parent_mem hr hx)
        · simp [hpx]
  · rw [hb.parent, hhead]
    rcases hmem.mp hr with hr | rfl
    · rw [if_neg (h.ne_next hr)]
      rcases h.parent r hr with ⟨q, hq, hrq⟩ | ⟨h1, h2, h3, h4⟩
      · exact .inl ⟨q, hmem.mpr (.inl hq), hrq⟩
      · have hne : s.child p ≠ some r := fun hpr => by
          cases h2.symm.trans (h.child_parent hp hpr).2
        rw [(hold hr hne).1, (hold hr hne).2]
        exact .inr ⟨h1, h2, h3, h4⟩
    · exact .inl ⟨p, hmem.mpr (.inl hp), if_pos rfl⟩

-- ---------------------------------------------------------------------------
-- A process without children is freed
-- ---------------------------------------------------------------------------

structure Departed (s : Family) (p q : Nat) (s' : Family) : Prop where
  parent : s'.parent = s.parent
  child : ∀ y, s'.child y = if y = q ∧ s.child q = some p then
    (if (s.youngerSibling p).isSome then s.youngerSibling p else s.olderSibling p) else s.child y
  older : ∀ y, s'.olderSibling y = if s.youngerSibling p = some y then s.olderSibling p else s.olderSibling y
  younger : ∀ y, s'.youngerSibling y =
    if s.olderSibling p = some y then s.youngerSibling p else s.youngerSibling y
  list : s'.processList = s.processList.erase p
  next : s'.nextPid = s.nextPid

theorem freeProcess_parts (hfree : s.freeProcess p = .ok s') : p ∈ s.processList ∧
    ∃ init t u, s.adoptChildren init p = .ok t ∧ t.leaveTree p = .ok u ∧
      s' = { u with processList := u.processList.erase p } := by
  obtain ⟨p', hp, hfree⟩ := bind_ok.mp hfree
  obtain ⟨hpp, hp⟩ := follow_some hp
  obtain rfl := Option.some.inj hpp
  obtain ⟨init, -, hfree⟩ := bind_ok.mp hfree
  obtain ⟨t, hadopt, hfree⟩ := bind_ok.mp hfree
  obtain ⟨u, hleave, hfree⟩ := bind_ok.mp hfree
  exact ⟨hp, init, t, u, hadopt, hleave, (Except.ok.inj hfree).symm⟩

theorem adoptChildren_childless {init : Nat} (hchild : s.child p = none) : s.adoptChildren init p = .ok s := by
  rw [adoptChildren, hchild]
  rfl

theorem freeProcess_departed (hchild : s.child p = none) (hself : s.olderSibling p ≠ some p)
    (hfree : s.freeProcess p = .ok s') :
    p ∈ s.processList ∧ ∃ q ∈ s.processList, s.parent p = some q ∧ s.Departed p q s' := by
  obtain ⟨hp, init, t, u, hadopt, hleave, rfl⟩ := freeProcess_parts hfree
  obtain rfl := Except.ok.inj ((adoptChildren_childless hchild).symm.trans hadopt)
  obtain ⟨q, hq, hleave⟩ := bind_ok.mp hleave
  obtain ⟨hpq, hq⟩ := follow_some hq
  obtain ⟨s2, hyounger, holder⟩ := bind_ok.mp hleave
  obtain rfl := linkYounger_eq hyounger
  obtain rfl := linkOlder_eq holder
  refine ⟨hp, q, hq, hpq, ?_⟩
  by_cases hfirst : s.child q = some p
  · cases hy : s.youngerSibling p with
    | none =>
      cases ho : s.olderSibling p with
      | none => constructor <;> simp [hfirst, hy, ho, setChild, Function.update_apply]
      | some o => constructor <;> simp [hfirst, hy, ho, setChild, Function.update_apply]
    | some y => constructor <;> simp_all [setChild, Function.update_apply]
  · constructor <;> simp_all

theorem leaveTree_ok (hq : ∃ q ∈ s.processList, s.parent p = some q)
    (holder : ∀ o, s.olderSibling p = some o → o ∈ s.processList)
    (hyounger : ∀ y, s.youngerSibling p = some y → y ∈ s.processList) : ∃ s', s.leaveTree p = .ok s' := by
  obtain ⟨q, hq, hpq⟩ := hq
  let t := if s.child q = some p then
      if (s.youngerSibling p).isSome then s.setChild q (s.youngerSibling p)
      else if (s.olderSibling p).isSome then s.setChild q (s.olderSibling p)
      else s.setChild q none
    else s
  have ht : t.olderSibling = s.olderSibling ∧ t.youngerSibling = s.youngerSibling ∧ t.processList = s.processList := by
    simp only [t]
    split
    · split
      · exact ⟨rfl, rfl, rfl⟩
      · split <;> exact ⟨rfl, rfl, rfl⟩
    · exact ⟨rfl, rfl, rfl⟩
  obtain ⟨u, hu⟩ := @linkYounger_ok t (t.youngerSibling p) (t.olderSibling p) (by rwa [ht.1, ht.2.2])
  have hsame : u.youngerSibling p = s.youngerSibling p ∧ u.processList = s.processList := by
    rw [linkYounger_eq hu]
    exact ⟨by simp [ht.2.1], ht.2.2⟩
  obtain ⟨v, hv⟩ := @linkOlder_ok u (u.olderSibling p) (u.youngerSibling p) (by rwa [hsame.1, hsame.2])
  exact ⟨v, bind_ok.mpr ⟨q, hpq ▸ follow_ok hq, bind_ok.mpr ⟨u, hu, hv⟩⟩⟩

theorem Tree.freeProcess_ok (h : s.Tree kids) (hp : p ∈ s.processList) (hchild : s.child p = none)
    (hparent : s.parent p ≠ none) : ∃ s', s.freeProcess p = .ok s' := by
  obtain ⟨q, hpq⟩ := Option.ne_none_iff_exists'.mp hparent
  obtain ⟨f, hf⟩ : ∃ f, s.processList.head? = some f := by
    rw [← Option.isSome_iff_exists, List.isSome_head?]
    exact List.ne_nil_of_mem hp
  obtain ⟨t, ht⟩ := leaveTree_ok ⟨q, h.parent_mem hp hpq, hpq⟩ (fun o ho => (h.inTree.older p hp o ho).1)
    fun y hy => (h.inTree.younger p hp y hy).1
  exact ⟨_, bind_ok.mpr ⟨p, follow_ok hp, bind_ok.mpr ⟨f, hf ▸ follow_ok (List.mem_of_mem_head? hf),
    bind_ok.mpr ⟨s, adoptChildren_childless hchild, bind_ok.mpr ⟨t, ht, rfl⟩⟩⟩⟩⟩

theorem Tree.childless (h : s.Tree kids) (hp : p ∈ s.processList) (hchild : s.child p = none) : kids p = [] := by
  have hc := h.chain p hp
  cases hk : kids p with
  | nil => rfl
  | cons c l =>
    rw [hk, hchild] at hc
    cases hc.1

theorem Tree.departed (h : s.Tree kids) (hp : p ∈ s.processList) (hchild : s.child p = none)
    (hq : q ∈ s.processList) (hpq : s.parent p = some q) (hd : s.Departed p q s') :
    s'.Tree fun r => (kids r).erase p := by
  have hmem : ∀ {r}, r ∈ s'.processList ↔ r ≠ p ∧ r ∈ s.processList := by
    intro r
    rw [hd.list, h.nodup.mem_erase_iff]
  have hkid : p ∈ kids q := (h.mem q hq p).mpr ⟨hp, hpq⟩
  have hchain := h.chain q hq
  -- the siblings of `p` are children of `q`
  have holder : ∀ {y}, s.olderSibling p = some y → y ∈ kids q := fun hy => hchain.next_mem hkid hy
  have hyounger : ∀ {y}, s.youngerSibling p = some y → y ∈ kids q := fun hy =>
    ((hchain.next_prev hkid hy).resolve_left fun hnone => nomatch hnone.1).1
  refine ⟨?_, fun r hr => ?_, fun r hr => ?_, fun r hr c => ?_, fun c hc => ?_⟩
  · rw [hd.list]
    exact h.nodup.erase p
  · rw [hd.next]
    exact h.fresh r (hmem.mp hr).2
  · obtain ⟨hrp, hr⟩ := hmem.mp hr
    by_cases hrq : r = q
    · subst hrq
      obtain ⟨pre, post, hsplit⟩ := List.append_of_mem hkid
      have hnodup : (pre ++ p :: post).Nodup := hsplit ▸ hchain.nodup
      have hpre : p ∉ pre := fun hmem => (List.nodup_append.mp hnodup).2.2 p hmem p List.mem_cons_self rfl
      rw [hsplit, List.erase_append_right _ hpre, List.erase_cons_head]
      rw [hsplit] at hchain
      have hunlink : Chain s'.siblings none _ (pre ++ post) := hchain.unlink (fun _ hnone => nomatch hnone)
        (fun y _ => hd.older y) (fun y _ => hd.younger y)
      have hchild' : s'.child r = if s.child r = some p then s.olderSibling p else s.child r := by
        rw [hd.child]
        by_cases hfirst : s.child r = some p
        · have hnone : s.youngerSibling p = none := by
            rw [hfirst] at hchain
            cases pre with
            | nil => exact hchain.2.1
            | cons a pre => exact absurd (Option.some.inj hchain.1) fun hpa => hpre (hpa ▸ List.mem_cons_self)
          rw [if_pos ⟨rfl, hfirst⟩, if_pos hfirst, hnone]
          rfl
        · rw [if_neg fun hboth => hfirst hboth.2, if_neg hfirst]
      rw [hchild']
      exact hunlink
    · have hnot : p ∉ kids r := fun hpr => hrq (h.parent_unique hr hq hpr hkid)
      rw [List.erase_of_not_mem hnot, hd.child, if_neg fun hboth => hrq hboth.1]
      refine (h.chain r hr).congr fun y hy => ?_
      have hy1 : s.youngerSibling p ≠ some y := fun hpy => hrq (h.parent_unique hr hq hy (hyounger hpy))
      have hy2 : s.olderSibling p ≠ some y := fun hpy => hrq (h.parent_unique hr hq hy (holder hpy))
      exact ⟨(hd.older y).trans (if_neg hy1), (hd.younger y).trans (if_neg hy2)⟩
  · obtain ⟨hrp, hr⟩ := hmem.mp hr
    rw [(h.chain r hr).nodup.mem_erase_iff, hmem, hd.parent, h.mem r hr]
    tauto
  · obtain ⟨hcp, hc⟩ := hmem.mp hc
    rw [hd.parent]
    rcases h.parent c hc with ⟨r, hr, hcr⟩ | ⟨hfirst, hnone, ho, hy⟩
    · refine .inl ⟨r, hmem.mpr ⟨?_, hr⟩, hcr⟩
      rintro rfl
      have hkids := (h.mem r hr c).mpr ⟨hc, hcr⟩
      rw [h.childless hr hchild] at hkids
      cases hkids
    · have hkid : ∀ {y}, y ∈ kids q → c ≠ y := by
        rintro y hy rfl
        cases hnone.symm.trans ((h.mem q hq c).mp hy).2
      refine .inr ⟨?_, hnone, ?_, ?_⟩
      · rw [hd.list]
        cases hl : s.processList with
        | nil => simp [hl] at hc
        | cons f l =>
          obtain rfl : f = c := by simpa [hl] using hfirst
          rw [List.erase_cons_tail (by simpa using hcp), List.head?_cons]
      · rw [hd.older, if_neg fun hpc => hkid (hyounger hpc) rfl]
        exact ho
      · rw [hd.younger, if_neg fun hpc => hkid (holder hpc) rfl]
        exact hy

theorem Tree.older_ne (h : s.Tree kids) (hp : p ∈ s.processList) : s.olderSibling p ≠ some p := by
  intro hself
  rcases h.parent p hp with ⟨q, hq, hpq⟩ | ⟨-, -, hnone, -⟩
  · have hmem := (h.mem q hq p).mpr ⟨hp, hpq⟩
    obtain ⟨pre, post, hsplit⟩ := List.append_of_mem hmem
    have hchain := hsplit ▸ h.chain q hq
    have hrest := hchain.split.2.2
    rw [show s.siblings.next p = some p from hself] at hrest
    cases post with
    | nil => cases hrest
    | cons a post =>
      obtain rfl := Option.some.inj hrest.1
      have hnodup := (List.nodup_append.mp hchain.nodup).2.1
      exact (List.nodup_cons.mp hnodup).1 List.mem_cons_self
  · cases hnone.symm.trans hself

-- ---------------------------------------------------------------------------
-- A process with children is freed
-- ---------------------------------------------------------------------------

/-- The loop ends with a sibling that has no older one, and leaves that one to its parent. -/
theorem adopt_last {init fuel i j : Nat} (h : adopt init fuel i s = .ok (j, s')) :
    s.olderSibling j = none ∧ (∀ c, s.olderSibling c = none → s'.parent c = s.parent c) ∧
      (∀ P : Nat → Prop, P i → (∀ c o, P c → s.olderSibling c = some o → P o) → P j) := by
  induction fuel generalizing i s with
  | zero => cases h
  | succ fuel ih =>
    rw [adopt] at h
    split at h
    · next hsome =>
      obtain ⟨o, ho, h⟩ := bind_ok.mp h
      obtain ⟨ho, -⟩ := follow_some ho
      obtain ⟨h1, h2, h3⟩ := ih h
      refine ⟨h1, fun c hc => (h2 c hc).trans (Function.update_of_ne ?_ _ _), fun P hi hP => ?_⟩
      · rintro rfl
        rw [hc] at hsome
        cases hsome
      · exact h3 P (hP i o hi ho) hP
    · next hnone =>
      obtain ⟨rfl, rfl⟩ := Prod.mk.inj (Except.ok.inj h)
      exact ⟨by simpa using hnone, fun _ _ => rfl, fun P hi _ => hi⟩

theorem leaveTree_kept (h : s.leaveTree p = .ok s') : s'.parent = s.parent ∧ s'.finished = s.finished := by
  obtain ⟨q, -, h⟩ := bind_ok.mp h
  obtain ⟨s1, hyounger, holder⟩ := bind_ok.mp h
  obtain rfl := linkYounger_eq hyounger
  obtain rfl := linkOlder_eq holder
  split
  · split
    · exact ⟨rfl, rfl⟩
    · split <;> exact ⟨rfl, rfl⟩
  · exact ⟨rfl, rfl⟩

theorem freeProcess_finished (hchild : s.child p = none) (hfree : s.freeProcess p = .ok s') :
    s'.finished = s.finished := by
  obtain ⟨-, init, t, u, hadopt, hleave, rfl⟩ := freeProcess_parts hfree
  obtain rfl := Except.ok.inj ((adoptChildren_childless hchild).symm.trans hadopt)
  exact (leaveTree_kept hleave).2

theorem Tree.oldest_kept (h : s.Tree kids) (hfree : s.freeProcess p = .ok s') (hc : s.child p = some c) :
    ∃ i ∈ kids p, s'.parent i = some p := by
  obtain ⟨hp, init, s1, s2, hadopt, hleave, rfl⟩ := freeProcess_parts hfree
  rw [adoptChildren, hc, Option.isSome_some, if_pos rfl] at hadopt
  obtain ⟨ch, hch, hadopt⟩ := bind_ok.mp hadopt
  obtain rfl := Option.some.inj (follow_some hch).1
  obtain ⟨⟨i, s3⟩, hloop, hadopt⟩ := bind_ok.mp hadopt
  obtain ⟨o, -, hadopt⟩ := bind_ok.mp hadopt
  obtain rfl := Except.ok.inj hadopt
  obtain ⟨hlast, hparent, hreach⟩ := adopt_last hloop
  have hi : i ∈ kids p := hreach (· ∈ kids p) (h.child_mem hp hc) fun a b ha hab =>
    (h.chain p hp).next_mem ha hab
  refine ⟨i, hi, ?_⟩
  calc s2.parent i = s3.parent i := congrFun (leaveTree_kept hleave).1 i
    _ = s.parent i := hparent i hlast
    _ = some p := ((h.mem p hp i).mp hi).2

-- ---------------------------------------------------------------------------
-- Runs
-- ---------------------------------------------------------------------------

def Rooted (s : Family) : Prop := ∀ p, s.processList.head? = some p → s.parent p = none

theorem Start.rooted (h : s.Start) : s.Rooted := by
  obtain ⟨p, hlist, -, hparent, -⟩ := h.alone
  intro q hq
  obtain rfl : p = q := by simpa [hlist] using hq
  exact hparent

theorem Tree.exit (h : s.Tree kids) : (s.exitProcess p).Tree kids :=
  ⟨h.nodup, h.fresh, h.chain, h.mem, h.parent⟩

theorem Born.rooted (h : s.Tree kids) (hr : s.Rooted) (hp : p ∈ s.processList) (hb : s.Born p s') :
    s'.Rooted := by
  intro q hq
  rw [hb.list, List.head?_append_of_ne_nil _ (List.ne_nil_of_mem hp)] at hq
  rw [hb.parent, if_neg (h.ne_next (List.mem_of_mem_head? hq))]
  exact hr q hq

theorem Departed.rooted (hr : s.Rooted) (hpq : s.parent p = some q) (hd : s.Departed p q s') :
    s'.Rooted := by
  intro r hrhead
  rw [hd.list] at hrhead
  rw [hd.parent]
  refine hr r ?_
  cases hl : s.processList with
  | nil => simp [hl] at hrhead
  | cons f l =>
    have hfp : f ≠ p := by
      rintro rfl
      cases (hr f (by rw [hl, List.head?_cons])).symm.trans hpq
    rw [hl, List.erase_cons_tail (by simpa using hfp)] at hrhead
    exact hrhead

theorem step_carryOut (h : s.step a = some s') : s.carryOut a = .ok s' := by
  rw [step] at h
  cases hc : s.carryOut a with
  | error e =>
    rw [hc] at h
    cases h
  | ok t =>
    rw [hc] at h
    obtain rfl : t = s' := Option.some.inj h
    rfl

theorem step_free (h : s.step (.free p) = some s') : s.freeProcess p = .ok s' := by
  have h := step_carryOut h
  rw [carryOut] at h
  split at h
  · exact h
  · cases h

theorem step_tree (h : s.Tree kids) (hr : s.Rooted) (hok : s.Childless a) (hstep : s.step a = some s') :
    (∃ kids', s'.Tree kids') ∧ s'.Rooted := by
  cases a with
  | fork p =>
    have hstep := step_carryOut hstep
    rw [carryOut] at hstep
    split at hstep
    · next hp =>
      obtain ⟨⟨c, t⟩, hfork, hstep⟩ := bind_ok.mp hstep
      obtain rfl := Except.ok.inj hstep
      obtain ⟨-, hb⟩ := forkProcess_born (h.ne_next hp.1) hfork
      exact ⟨⟨_, h.born hp.1 hb⟩, Born.rooted h hr hp.1 hb⟩
    · cases hstep
  | exit p =>
    have hstep := step_carryOut hstep
    rw [carryOut] at hstep
    split at hstep
    · obtain rfl := Except.ok.inj hstep
      exact ⟨⟨_, h.exit⟩, hr⟩
    · cases hstep
  | free p =>
    have hfree := step_free hstep
    have hp := (freeProcess_parts hfree).1
    obtain ⟨-, q, hq, hpq, hd⟩ := freeProcess_departed hok (h.older_ne hp) hfree
    exact ⟨⟨_, h.departed hp hok hq hpq hd⟩, Departed.rooted hr hpq hd⟩

theorem reach_tree (h : Reach Family.step Childless Start s) : (∃ kids, s.Tree kids) ∧ s.Rooted :=
  h.invariant (fun _ h0 => ⟨⟨_, h0.tree⟩, h0.rooted⟩)
    fun _ _ _ hi hok hstep => step_tree hi.1.choose_spec hi.2 hok hstep

theorem adoptChildren_parent {init : Nat} (h : s.adoptChildren init p = .ok s') (hlast : s.olderSibling c = none) :
    s'.parent c = s.parent c := by
  rw [adoptChildren] at h
  split at h
  · obtain ⟨ch, -, h⟩ := bind_ok.mp h
    obtain ⟨⟨i, s1⟩, hloop, h⟩ := bind_ok.mp h
    obtain ⟨o, -, h⟩ := bind_ok.mp h
    obtain rfl := Except.ok.inj h
    exact (adopt_last hloop).2.1 c hlast
  · obtain rfl := Except.ok.inj h
    rfl

theorem Tree.free_parent (h : s.Tree kids) (hfree : s.freeProcess p = .ok s') :
    p ∈ s.processList ∧ s.parent p ≠ none := by
  obtain ⟨hp, init, s1, s2, hadopt, hleave, rfl⟩ := freeProcess_parts hfree
  refine ⟨hp, fun hnone => ?_⟩
  obtain ⟨q, hq, -⟩ := bind_ok.mp hleave
  rcases h.parent p hp with ⟨r, -, hpr⟩ | ⟨-, -, hlast, -⟩
  · cases hnone.symm.trans hpr
  · cases (follow_some hq).1.symm.trans ((adoptChildren_parent hadopt hlast).trans hnone)

theorem Tree.adopted_iff (h : s.Tree kids) (hr : s.Rooted) (hfree : s.freeProcess p = .ok s') :
    Adopted s p s' ↔ s.child p = none := by
  obtain ⟨hp, hne⟩ := h.free_parent hfree
  constructor
  · intro had
    cases hc : s.child p with
    | none => rfl
    | some c =>
      obtain ⟨i, hi, hparent⟩ := h.oldest_kept hfree hc
      obtain ⟨hil, hip⟩ := (h.mem p hp i).mp hi
      exact absurd (hr p ((had i hil hip).symm.trans hparent)) hne
  · intro hnone c hc hcp
    have hmem := (h.mem p hp c).mpr ⟨hc, hcp⟩
    rw [h.childless hp hnone] at hmem
    cases hmem

/-- In every run that frees only processes without children the family is in shape, and a
free that leaves no child behind is one of a process without children. -/
theorem family_inTree (h : Reach Family.step Childless Start s) :
    s.InTree ∧ ∀ {p s'}, s.step (.free p) = some s' → (Adopted s p s' ↔ s.child p = none) := by
  obtain ⟨⟨kids, htree⟩, hr⟩ := reach_tree h
  exact ⟨htree.inTree, fun hstep => htree.adopted_iff hr (step_free hstep)⟩

instance Childless.decidable : ∀ (s : Family) (a : FamilyAct), Decidable (s.Childless a)
  | s, .free p => decidable_of_iff (s.child p = none) Iff.rfl
  | _, .fork _ => .isTrue trivial
  | _, .exit _ => .isTrue trivial

def firstFamily : Family where
  parent _ := none
  child _ := none
  olderSibling _ := none
  youngerSibling _ := none
  finished _ := false
  processList := [1]
  nextPid := 2

theorem firstFamily_start : Start firstFamily := ⟨⟨1, rfl, by decide, rfl, rfl, rfl, rfl⟩⟩

def childlessRun : List FamilyAct := [.fork 1, .fork 1, .exit 3]

theorem family_inTree_childlessRun : ∃ s s', exec Family.step firstFamily childlessRun = some s ∧
    s.step (.free 3) = some s' ∧ s.InTree ∧ Adopted s 3 s' := by
  have hrun : ((exec Family.step firstFamily childlessRun).bind fun s => s.step (.free 3)).isSome = true := by
    decide +kernel
  obtain ⟨s', hs'⟩ := Option.isSome_iff_exists.mp hrun
  obtain ⟨s, hs, hfree⟩ := Option.bind_eq_some_iff.mp hs'
  have hreach : Reach Family.step Childless Start s :=
    (Reach.start firstFamily_start).along (by decide +kernel) hs
  have hchild : s.child 3 = none := by
    have hall : ((exec Family.step firstFamily childlessRun).bind fun s => s.child 3) = none := by decide +kernel
    rwa [hs] at hall
  obtain ⟨htree, hadopted⟩ := family_inTree hreach
  exact ⟨s, s', hs, hfree, htree, (hadopted hfree).mpr hchild⟩

/-- The child of the first process forks, exits and is freed: its own child keeps it as its
parent. -/
def orphanRun : List FamilyAct := [.fork 1, .fork 2, .exit 2]

theorem orphan_not_adopted : ∃ s s', Reach Family.step Any Start s ∧ s.step (.free 2) = some s' ∧
    ¬s'.InTree ∧ ¬Adopted s 2 s' := by
  have hrun : ((exec Family.step firstFamily orphanRun).bind fun s => s.step (.free 2)).isSome = true := by
    decide +kernel
  obtain ⟨s', hs'⟩ := Option.isSome_iff_exists.mp hrun
  obtain ⟨s, hs, hfree⟩ := Option.bind_eq_some_iff.mp hs'
  have hbefore : ((exec Family.step firstFamily orphanRun).map fun s =>
      (s.processList, s.parent 3)) = some ([1, 2, 3], some 2) := by decide +kernel
  have hafter : (((exec Family.step firstFamily orphanRun).bind fun s => s.step (.free 2)).map fun s =>
      (s.processList, s.parent 3)) = some ([1, 3], some 2) := by decide +kernel
  rw [hs, Option.map_some, Option.some_inj, Prod.mk.injEq] at hbefore
  rw [hs', Option.map_some, Option.some_inj, Prod.mk.injEq] at hafter
  refine ⟨s, s', (Reach.start firstFamily_start).exec hs, hfree, fun htree => ?_, fun hadopted => ?_⟩
  · obtain ⟨q, hq, hparent, -⟩ := htree.parent 3 (by rw [hafter.1]; decide) (by rw [hafter.1]; decide)
    obtain rfl := Option.some.inj (hafter.2.symm.trans hparent)
    rw [hafter.1] at hq
    exact absurd hq (by decide)
  · have hfirst := hadopted 3 (by rw [hbefore.1]; decide) hbefore.2
    rw [hafter.2, hbefore.1] at hfirst
    exact absurd hfirst (by decide)

end

end Family

end Os5
