import Os5.Proc.Scheduler

/-!
# What the operations on lists mean

The macros of `lists.h` and the operations of the scheduler as changes of the sequences of members:
which list they change, at which place, and that they change no other.
-/

namespace Os5

open Circular

section
variable {k : Threads} {th : Nat} {list i : ListNode} {rs xs : List ListNode} {ths : List Nat}

/-- The front of the run queue, by the assignments of `list_insert_to_right` in another order. -/
theorem schedulerCheat_links (hth : k.links.next .runQueue ≠ .tasks th) :
    (schedulerCheat k th).links = insertRight k.links .runQueue (.tasks th) := by
  simp [schedulerCheat, insertRight, Heap.setNext, Heap.setPrev, Function.update_comm hth]

-- ---------------------------------------------------------------------------
-- Waking a list
-- ---------------------------------------------------------------------------

/-- The threads `ths` of a list have gone to the end of the run queue `rs`. -/
structure Woken (k k' : Threads) (list : ListNode) (rs : List ListNode) (ths : List Nat) : Prop where
  emptied : Ring k'.links list []
  queue : Ring k'.links .runQueue (rs ++ ths.map .tasks)
  others : Untouched k.links k'.links [list, .runQueue]
  tcb : k'.tcb = fun th => if th ∈ ths then { k.tcb th with state := .ready } else k.tcb th

theorem wakeTurn_next (hl : Ring k.links list (i :: xs)) (hl' : Ring (wakeTurn k i).links list xs) :
    k.links.next i = (wakeTurn k i).links.next list := by
  have hi : Ring k.links i (xs ++ [list]) := by
    have hl : Ring k.links list ([] ++ i :: xs) := hl
    exact hl.rotate
  cases xs with
  | nil => exact hi.linked_head.1.trans hl'.path.rel.1.symm
  | cons j xs => exact hi.linked_head.1.trans hl'.linked_head.1.symm

theorem wakeTurn_rings (hl : Ring k.links list (i :: xs)) (hq : Ring k.links .runQueue rs)
    (hapart : list ∉ ListNode.runQueue :: rs) :
    Ring (wakeTurn k i).links list xs ∧ Ring (wakeTurn k i).links .runQueue (rs ++ [i]) ∧
      Untouched k.links (wakeTurn k i).links [list, .runQueue] ∧ list ∉ ListNode.runQueue :: (rs ++ [i]) := by
  have hl : Ring k.links list ([] ++ i :: xs) := hl
  have hi : Ring k.links i (xs ++ [list]) := hl.rotate
  have hil : i ≠ list := fun e => hl.not_mem (by simp [e])
  have hixs : i ∉ list :: xs := by
    have hnodup := hi.nodup
    simp only [List.nodup_cons, List.mem_append] at hnodup
    simp only [List.mem_cons, not_or]
    exact ⟨hil, fun h => hnodup.1 (.inl h)⟩
  have hdisj : ∀ n ∈ list :: i :: xs, n ∉ ListNode.runQueue :: rs :=
    hq.disjoint hl fun hs => hapart (hq.sameRing.mp hs)
  have hrun : ListNode.runQueue ∉ list :: i :: xs := fun h => hdisj _ h List.mem_cons_self
  have hirun : i ∉ ListNode.runQueue :: rs := hdisj i (by simp)
  rw [wakeTurn_links]
  -- out of its list
  have hremove := hi.untouched_remove
  have hl1 : Ring (remove k.links i) list xs := hl.remove
  have hq1 : Ring (remove k.links i) .runQueue rs := hremove _ _ hq (by simpa using hirun)
  -- to the end of the run queue
  obtain ⟨hq2, happend⟩ := hq1.inserted_append hirun
  refine ⟨happend _ _ hl1 ?_, hq2, ?_, ?_⟩
  · refine List.forall_mem_cons.mpr ⟨fun h => hrun ?_, List.forall_mem_singleton.mpr hixs⟩
    simp only [List.mem_cons] at h ⊢
    tauto
  · intro z zs hz hout
    have hiz : i ∉ z :: zs := by
      intro hm
      have hs := (hl.sameRing.mpr (by simp : i ∈ list :: ([] ++ i :: xs))).trans (hz.sameRing.mpr hm).symm
      exact hout list (by simp) (hz.sameRing.mp hs.symm)
    refine happend z zs (hremove z zs hz (by simpa using hiz)) ?_
    exact List.forall_mem_cons.mpr ⟨hout _ (by simp), List.forall_mem_singleton.mpr hiz⟩
  · simp only [List.mem_cons, List.mem_append, List.not_mem_nil, or_false, not_or] at hapart ⊢
    exact ⟨hapart.1, hapart.2, Ne.symm hil⟩

/-- The loop of `scheduler_wake` ends, with the threads of the list at the end of the run queue. -/
theorem schedulerWake_woken (hl : Ring k.links list (ths.map .tasks)) (hq : Ring k.links .runQueue rs)
    (hapart : list ∉ ListNode.runQueue :: rs) :
    ∃ k', (∀ turns, ths.length ≤ turns → schedulerWake k list turns = some k') ∧ Woken k k' list rs ths := by
  induction ths generalizing k rs with
  | nil =>
    have hself : k.links.next list = list := (ring_nil.mp hl).1
    refine ⟨k, fun turns _ => ?_, ⟨hl, by simpa using hq, fun z zs hz _ => hz, by simp⟩⟩
    cases turns <;> simp [schedulerWake, wakeLoop, hself]
  | cons th ths ih =>
    obtain ⟨hl', hq', hothers, hapart'⟩ := wakeTurn_rings hl hq hapart
    obtain ⟨k', hrun, hwoken⟩ := ih hl' hq' hapart'
    refine ⟨k', ?_, hwoken.emptied, by simpa using hwoken.queue, hothers.trans hwoken.others, ?_⟩
    · intro turns hturns
      obtain ⟨turns, rfl⟩ := Nat.exists_eq_add_one_of_ne_zero (Nat.ne_of_gt (Nat.lt_of_lt_of_le (by simp) hturns))
      have hne : ListNode.tasks th ≠ list := fun e => hl.not_mem (by simp [e])
      rw [schedulerWake, hl.linked_head.1, wakeLoop, if_neg hne, wakeTurn_next hl hl']
      exact hrun turns (by simpa using hturns)
    · rw [hwoken.tcb]
      funext t
      by_cases ht : t = th
      · simp [ht, wakeTurn, Threads.setState, Threads.setTcb]
      · simp [ht, wakeTurn, Threads.setState, Threads.setTcb]

end

-- ---------------------------------------------------------------------------
-- All operations
-- ---------------------------------------------------------------------------

/-- On any heap, for any list and a node that is not on it: the macros and the scheduler put the node at
the place that their names say. They take out the node they are given and leave it alone, and they move
a whole list to the end of the run queue. The lists that are not concerned stay. -/
theorem lists_exact {ν : Type*} [DecidableEq ν] (h : Heap ν) (k : Threads) :
    (∀ head xs item, Ring h head xs → item ∉ head :: xs →
      Inserted h (append h head item) head item xs [] ∧
      Inserted h (insertLeft h head item) head item xs [] ∧
      Inserted h (insertRight h head item) head item [] xs) ∧
    (∀ head ys z zs item, Ring h head (ys ++ z :: zs) → item ∉ head :: (ys ++ z :: zs) →
      Inserted h (insertLeft h z item) head item ys (z :: zs) ∧
      Inserted h (insertRight h z item) head item (ys ++ [z]) zs) ∧
    (∀ z zs, Ring h z zs → Ring (remove h z) z [] ∧ Untouched h (remove h z) [z]) ∧
    (∀ head ys z zs, Ring h head (ys ++ z :: zs) → Ring (remove h z) head (ys ++ zs)) ∧
    (∀ rs th, Ring k.links .runQueue rs → ListNode.tasks th ∉ ListNode.runQueue :: rs →
      Inserted k.links (schedulerCheat k th).links .runQueue (.tasks th) [] rs) ∧
    (∀ list rs ths, Ring k.links list (ths.map .tasks) → Ring k.links .runQueue rs →
      list ∉ ListNode.runQueue :: rs →
      ∃ k', (∀ turns, ths.length ≤ turns → schedulerWake k list turns = some k') ∧ Woken k k' list rs ths) := by
  refine ⟨?_, ?_, fun z zs hr => ⟨hr.remove_self, hr.untouched_remove⟩, fun head ys z zs hr => hr.remove, ?_,
    fun list rs ths hl hq hapart => schedulerWake_woken hl hq hapart⟩
  · intro head xs item hr hitem
    refine ⟨hr.inserted_append hitem, ?_, hr.inserted_right_head hitem⟩
    rw [hr.insertLeft_eq hitem List.mem_cons_self]
    exact hr.inserted_append hitem
  · intro head ys z zs item hr hitem
    refine ⟨?_, hr.inserted_right hitem⟩
    rw [hr.insertLeft_eq hitem (by simp)]
    exact hr.inserted_before hitem
  · intro rs th hq hth
    rw [schedulerCheat_links fun e => hth (e ▸ hq.next_mem)]
    exact hq.inserted_right_head hth

-- Thread 2 waits for thread 1; thread 5 is on no list.
theorem handling_next (n : ListNode) : handling.links.next n =
    if n = .waiting 1 then .tasks 2 else if n = .tasks 2 then .waiting 1 else n :=
  @append_next ListNode _ ⟨id, id⟩ (.waiting 1) (.tasks 2) nofun n

theorem handling_prev (n : ListNode) : handling.links.prev n =
    if n = .waiting 1 then .tasks 2 else if n = .tasks 2 then .waiting 1 else n :=
  @append_prev ListNode _ ⟨id, id⟩ (.waiting 1) (.tasks 2) nofun n

theorem handling_lone {n : ListNode} (h1 : n ≠ .waiting 1) (h2 : n ≠ .tasks 2) : Ring handling.links n [] := by
  rw [ring_nil, handling_next, handling_prev]
  simp [h1, h2]

theorem handling_waiting : Ring handling.links (.waiting 1) ([2].map .tasks) := by
  constructor
  · simp [Circular.Path, Circular.Linked, handling_next, handling_prev]
  · simp

theorem lists_exact_handling : Inserted handling.links (append handling.links (.waiting 1) (.tasks 5)) (.waiting 1)
      (.tasks 5) [.tasks 2] [] ∧
    Inserted handling.links (insertLeft handling.links (.tasks 2) (.tasks 5)) (.waiting 1) (.tasks 5) [] [.tasks 2] ∧
    Ring (remove handling.links (.tasks 2)) (.waiting 1) [] ∧
    Inserted handling.links (schedulerCheat handling 5).links .runQueue (.tasks 5) [] [] ∧
    ∃ k', schedulerWake handling (.waiting 1) 1 = some k' ∧ Woken handling k' (.waiting 1) [] [2] := by
  obtain ⟨hhead, hbeside, -, hremove, hcheat, hwake⟩ := lists_exact handling.links handling
  have hrun : Ring handling.links .runQueue [] := handling_lone nofun nofun
  obtain ⟨k', hk', hwoken⟩ := hwake (.waiting 1) [] [2] handling_waiting hrun (by decide)
  exact ⟨(hhead _ _ _ handling_waiting (by decide)).1, (hbeside _ [] _ [] _ handling_waiting (by decide)).1,
    hremove _ [] _ [] handling_waiting, hcheat [] 5 hrun (by decide), k', hk' 1 (by decide), hwoken⟩

end Os5
