import Os5.Lib.Circular

/-!
# The lists of threads

A thread has three list nodes: `tasks` in the run queue or a list of sleepers, `process_threads` in
the list of its process, and `waiting` as the head of the threads that sleep until it ends. A block
of memory that is a thread is named by a number.
-/

namespace Os5

open Circular

/-- The nodes, those in threads first. -/
inductive ListNode where
  | tasks (th : Nat)
  | processThreads (th : Nat)
  | waiting (th : Nat)
  | runQueue
  /-- The head of the threads of a process. -/
  | threads (proc : Nat)
  /-- The head of the threads that wait for a process or a pipe. -/
  | sleepers (n : Nat)
  deriving DecidableEq

inductive ThreadState where
  | new
  | ready
  | waiting
  | finished
  deriving DecidableEq

/-- The fields of `thread_t` that are used besides the nodes. -/
structure Tcb where
  tid : Nat
  state : ThreadState
  proc : Nat

structure Threads where
  links : Heap ListNode
  tcb : Nat → Tcb
  nextTid : Nat

def Threads.setTcb (k : Threads) (th : Nat) (t : Tcb) : Threads := { k with tcb := Function.update k.tcb th t }

def Threads.setState (k : Threads) (th : Nat) (st : ThreadState) : Threads :=
  k.setTcb th { k.tcb th with state := st }

def schedulerInsert (k : Threads) (th : Nat) : Threads := { k with links := append k.links .runQueue (.tasks th) }

def schedulerCheat (k : Threads) (th : Nat) : Threads :=
  let h := k.links.setNext (.tasks th) (k.links.next .runQueue)
  let h := h.setPrev (h.next .runQueue) (.tasks th)
  let h := h.setPrev (.tasks th) .runQueue
  { k with links := h.setNext .runQueue (.tasks th) }

def schedulerRemove (k : Threads) (th : Nat) : Threads := { k with links := remove k.links (.tasks th) }

def schedulerSleep (k : Threads) (th : Nat) (list : ListNode) : Threads :=
  let k := (schedulerRemove k th).setState th .waiting
  { k with links := append k.links list (.tasks th) }

/-- One turn of the loop of `scheduler_wake`, which takes any node for the `tasks` node of a thread. -/
def wakeTurn (k : Threads) (i : ListNode) : Threads :=
  let k := { k with links := append (remove k.links i) .runQueue i }
  match i with
  | .tasks th => k.setState th .ready
  | _ => k

def wakeLoop (list : ListNode) : Nat → ListNode → Threads → Option Threads
  | 0, i, k => if i = list then some k else none
  | n + 1, i, k => if i = list then some k else wakeLoop list n (k.links.next i) (wakeTurn k i)

def schedulerWake (k : Threads) (list : ListNode) (turns : Nat) : Option Threads :=
  wakeLoop list turns (k.links.next list) k

def allocThread (k : Threads) (new : Nat) : Threads where
  links := init (init (init k.links (.tasks new)) (.processThreads new)) (.waiting new)
  tcb := Function.update k.tcb new ⟨k.nextTid, .new, 0⟩
  nextTid := k.nextTid + 1

def copyNode (h : Heap ListNode) (dst src : ListNode) : Heap ListNode :=
  (h.setPrev dst (h.prev src)).setNext dst (h.next src)

/-- The `memcpy` of a thread. -/
def copyThread (k : Threads) (new th : Nat) : Threads :=
  let h := copyNode k.links (.tasks new) (.tasks th)
  let h := copyNode h (.processThreads new) (.processThreads th)
  { k with links := copyNode h (.waiting new) (.waiting th) }.setTcb new (k.tcb th)

def cloneThread (k : Threads) (th new : Nat) : Threads :=
  let k := allocThread k new
  let tid := (k.tcb new).tid
  let k := copyThread k new th
  let k := k.setTcb new { k.tcb new with tid := tid }
  { k with links := init (init k.links (.tasks new)) (.processThreads new) }

/-- What `fork_process` does with the thread that called it. -/
def forkThread (k : Threads) (th new child : Nat) : Threads :=
  let k := cloneThread k th new
  { k with links := append k.links (.threads child) (.processThreads new) }.setTcb new { k.tcb new with proc := child }

def ownNodes (th : Nat) : List ListNode := [.tasks th, .processThreads th, .waiting th]

/-- No node outside a block that is not in use points to a node in it. -/
def Unused (k : Threads) (new : Nat) : Prop :=
  ∀ n, n ∉ ownNodes new → k.links.next n ∉ ownNodes new ∧ k.links.prev n ∉ ownNodes new

section
variable {k : Threads} {th new child : Nat} {n : ListNode} {rs xs cs : List ListNode}

theorem cloneThread_frame (hn : n ∉ ownNodes new) :
    (cloneThread k th new).links.next n = k.links.next n ∧ (cloneThread k th new).links.prev n = k.links.prev n := by
  simp only [ownNodes, List.mem_cons, List.not_mem_nil, or_false, not_or] at hn
  obtain ⟨h1, h2, h3⟩ := hn
  simp [cloneThread, copyThread, allocThread, copyNode, Threads.setTcb, init, Heap.setNext, Heap.setPrev, h1, h2, h3]

/-- The head of its sleepers is a copy. -/
theorem cloneThread_waiting (hth : th ≠ new) :
    (cloneThread k th new).links.next (.waiting new) = k.links.next (.waiting th) := by
  simp [cloneThread, copyThread, allocThread, copyNode, Threads.setTcb, init, Heap.setNext, Heap.setPrev, hth]

theorem notMem_ownNodes (hth : th ≠ new) : ListNode.waiting th ∉ ownNodes new := by
  simp [ownNodes, hth]

theorem Unused.forkThread_waiting (hnew : Unused k new) (hth : th ≠ new) :
    (forkThread k th new child).links.next (.waiting new) = k.links.next (.waiting th) := by
  have hchild : ListNode.threads child ∉ ownNodes new := by simp [ownNodes]
  have hprev := (hnew _ hchild).2
  have hlast : (cloneThread k th new).links.prev (.threads child) = k.links.prev (.threads child) :=
    (cloneThread_frame hchild).2
  show (append (cloneThread k th new).links (.threads child) (.processThreads new)).next (.waiting new) = _
  rw [append_next, hlast, if_neg, if_neg nofun, cloneThread_waiting hth]
  · rintro h
    exact hprev (h ▸ by simp [ownNodes])
  · rw [hlast]
    rintro h
    exact hprev (h ▸ by simp [ownNodes])

theorem Unused.ring (hnew : Unused k new) (hn : n ∉ ownNodes new) (hr : Ring k.links n xs) : ∀ m ∈ n :: xs, m ∉ ownNodes new :=
  hr.closed (fun m hm => (hnew m hm).1) hn

theorem Unused.ring_forkThread (hnew : Unused k new) (hn : n ∉ ownNodes new) (hr : Ring k.links n xs)
    (hcs : Ring k.links (.threads child) cs) (hdisj : ∀ m ∈ n :: xs, m ∉ ListNode.threads child :: cs) :
    Ring (forkThread k th new child).links n xs := by
  have houtside := hnew.ring hn hr
  have hchild := hnew.ring (by simp [ownNodes]) hcs
  have hcs' : Ring (cloneThread k th new).links (.threads child) cs :=
    hcs.congr (fun m hm => (cloneThread_frame (hchild m hm)).1) fun m hm => (cloneThread_frame (hchild m hm)).2
  have hitem : ListNode.processThreads new ∉ ListNode.threads child :: cs := fun h => hchild _ h (by simp [ownNodes])
  have hframe : ∀ m ∈ n :: xs, (forkThread k th new child).links.next m = k.links.next m ∧
      (forkThread k th new child).links.prev m = k.links.prev m := by
    intro m hm
    have hne : m ≠ .processThreads new := by
      rintro rfl
      exact houtside _ hm (by simp [ownNodes])
    obtain ⟨h1, h2⟩ := hcs'.append_frame hitem (hdisj m hm) hne
    obtain ⟨h3, h4⟩ := @cloneThread_frame k th new m (houtside m hm)
    exact ⟨h1.trans h3, h2.trans h4⟩
  exact hr.congr (fun m hm => (hframe m hm).1) fun m hm => (hframe m hm).2

theorem wakeTurn_links (i : ListNode) : (wakeTurn k i).links = append (remove k.links i) .runQueue i := by
  cases i <;> rfl

/-- Whatever is on the list of sleepers of the thread that calls `fork`: the list of the child's thread is
not a well-formed empty one, and the first turn of `scheduler_wake` on it moves the first thread of the
parent's list to the run queue, or the head of that list. -/
theorem fork_waiting (hnew : Unused k new) (hth : th ≠ new) :
    ¬Ring (forkThread k th new child).links (.waiting new) [] ∧
      ∀ xs rs cs, Ring k.links (.waiting th) xs → Ring k.links .runQueue rs → Ring k.links (.threads child) cs →
        (∀ m ∈ ListNode.waiting th :: xs, m ∉ ListNode.threads child :: cs) →
        (∀ m ∈ ListNode.runQueue :: rs, m ∉ ListNode.threads child :: cs) →
        (∀ m ∈ ListNode.waiting th :: xs, m ∉ ListNode.runQueue :: rs) →
        ∃ i ∈ ListNode.waiting th :: xs, (forkThread k th new child).links.next (.waiting new) = i ∧
          Ring (wakeTurn (forkThread k th new child) i).links .runQueue (rs ++ [i]) := by
  have hnext : (forkThread k th new child).links.next (.waiting new) = _ := hnew.forkThread_waiting hth
  constructor
  · intro hr
    have hself := (ring_nil.mp hr).1
    rw [hnext] at hself
    exact (hnew _ (notMem_ownNodes hth)).1 (by simp [hself, ownNodes])
  · intro xs rs cs hwaiting hrun hcs hw hr hdisj
    have hwaiting' : Ring (forkThread k th new child).links _ _ := hnew.ring_forkThread (notMem_ownNodes hth) hwaiting hcs hw
    have hrun' : Ring (forkThread k th new child).links _ _ := hnew.ring_forkThread (by simp [ownNodes]) hrun hcs hr
    have hi : k.links.next (.waiting th) ∈ ListNode.waiting th :: xs := by
      have hmem := hwaiting.path
      cases xs with
      | nil => simpa using hmem.rel.1
      | cons y ys => simpa using Or.inr (Or.inl hmem.rel.1)
    refine ⟨_, hi, hnext, ?_⟩
    obtain ⟨zs, hz, hmem⟩ := hwaiting'.of_mem hi
    have hfar : ∀ m ∈ ListNode.runQueue :: rs, m ∉ k.links.next (.waiting th) :: zs := fun m hm hm' => hdisj m ((hmem m).mp hm') hm
    rw [wakeTurn_links]
    refine Ring.append (hrun'.congr (fun m hm => (hz.remove_frame (hfar m hm)).1) fun m hm => (hz.remove_frame (hfar m hm)).2) ?_
    exact hdisj _ hi

end

def handling : Threads where
  links := append ⟨id, id⟩ (.waiting 1) (.tasks 2)
  tcb _ := ⟨1, .waiting, 7⟩
  nextTid := 3

theorem handling_unused : Unused handling 3 := by
  intro n hn
  have hself : ∀ m : ListNode, (append ⟨id, id⟩ (.waiting 1) (.tasks 2)).next m =
      if m = .waiting 1 then .tasks 2 else if m = .tasks 2 then .waiting 1 else m := append_next nofun
  have hself' : ∀ m : ListNode, (append ⟨id, id⟩ (.waiting 1) (.tasks 2)).prev m =
      if m = .waiting 1 then .tasks 2 else if m = .tasks 2 then .waiting 1 else m := append_prev nofun
  rw [handling, hself, hself']
  split_ifs
  · simp [ownNodes]
  · simp [ownNodes]
  · exact ⟨hn, hn⟩

theorem fork_waiting_handling : ¬Ring (forkThread handling 1 3 8).links (.waiting 3) [] :=
  (fork_waiting handling_unused (by decide)).1

/-- The child of thread 1 wakes thread 2 of its parent, and the loop goes on from list to list. -/
theorem fork_wakes_parent : (forkThread handling 1 3 8).links.next (.waiting 3) = .tasks 2 ∧
    (wakeTurn (forkThread handling 1 3 8) (.tasks 2)).links.next .runQueue = .tasks 2 ∧
    ((wakeTurn (forkThread handling 1 3 8) (.tasks 2)).tcb 2).state = .ready ∧
    ((forkThread handling 1 3 8).tcb 2).proc = 7 ∧ (schedulerWake (forkThread handling 1 3 8) (.waiting 3) 12).isNone := by
  decide +kernel

end Os5
