import Punix.Kernel.Wait
import Punix.Lib.Machine

/-!
Any sequence of `wait_queue_add`, `wait_queue_remove` and `wakeup` calls, on any number of
queues and entries. What the scheduler and the tasks do between the calls is left open, and
so is what `sched_enqueue` does to them; its calls are recorded.
-/

namespace Punix

open Lib

variable {Q E T S : Type}

/-- An entry is as `wait_queue_entry_init` leaves it, with any task or none. -/
def WaitHeap.Fresh (h : WaitHeap Q E T) (e : E) : Prop :=
  h.entries e = { task := h.task e, prev := none, next := none, queue := none }

/-- The queues and the entries have been initialised. -/
structure WaitHeap.Initialised (h : WaitHeap Q E T) : Prop where
  queue : ∀ q, h.queues q = { head := none, tail := none }
  entry : ∀ e, h.Fresh e

inductive QueueCall (Q E : Type) where
  | add (queue : Q) (entry : E)
  | remove (entry : E)
  | wakeup (queue : Q)

inductive QueueEvent (Q E : Type) where
  | call (c : QueueCall Q E)
  /-- Something else than a call. -/
  | other

/-- A run, with the tasks that `sched_enqueue` has been called with and the calls so far. -/
structure QueueRun (Q E T S : Type) where
  heap : WaitHeap Q E T
  sched : S
  enqueued : List T
  calls : List (QueueCall Q E)

/-- `sched_enqueue`, and a note of the call. -/
def recording (enqueue : T → S → Option S) (t : T) (x : S × List T) : Option (S × List T) :=
  (enqueue t x.1).map fun s => (s, x.2 ++ [t])

section Machine

variable [DecidableEq Q] [DecidableEq E] (sleeping : S → T → Bool) (enqueue : T → S → Option S)

/-- `wakeup` with the calls of `sched_enqueue` recorded. -/
def QueueRun.wakeup (r : QueueRun Q E T S) (fuel : Nat) (q : Q) :
    Option (WaitHeap Q E T × S × List T) :=
  Punix.wakeup (fun x t => sleeping x.1 t) (recording enqueue) fuel q r.heap (r.sched, r.enqueued)

def QueueRun.step (r : QueueRun Q E T S) : QueueEvent Q E → QueueRun Q E T S → Prop
  | .call (.add q e), r' =>
      r' = { r with heap := waitQueueAdd r.heap q e, calls := r.calls ++ [.add q e] }
  | .call (.remove e), r' =>
      r' = { r with heap := waitQueueRemove r.heap e, calls := r.calls ++ [.remove e] }
  | .call (.wakeup q), r' =>
      ∃ fuel heap sched enqueued,
        r.wakeup sleeping enqueue fuel q = some (heap, sched, enqueued) ∧
          r' = { heap, sched, enqueued, calls := r.calls ++ [.wakeup q] }
  | .other, r' => ∃ sched, r' = { r with sched }

def queueMachine : Machine (QueueRun Q E T S) (QueueEvent Q E) where
  init r := r.heap.Initialised ∧ r.calls = []
  step := QueueRun.step sleeping enqueue

end Machine

section Lists

variable [DecidableEq Q] [DecidableEq E]

open Classical in
/-- An entry is put behind those of the queue unless it is in a list already, an entry leaves
its list, and a queue is emptied. -/
noncomputable def QueueCall.apply (lists : Q → List E) : QueueCall Q E → Q → List E
  | .add q e => if ∃ q', e ∈ lists q' then lists else Function.update lists q (lists q ++ [e])
  | .remove e => fun q => (lists q).erase e
  | .wakeup q => Function.update lists q []

/-- The entries of each queue in the order of their insertion. -/
noncomputable def queueLists (calls : List (QueueCall Q E)) : Q → List E :=
  calls.foldl QueueCall.apply fun _ => []

theorem queueLists_append (calls : List (QueueCall Q E)) (c : QueueCall Q E) :
    queueLists (calls ++ [c]) = c.apply (queueLists calls) := by
  unfold queueLists
  rw [List.foldl_append]
  rfl

end Lists

/-- The tasks that sleep when their turn comes, and the scheduler behind the last one. -/
def woken (sleeping : S → T → Bool) (enqueue : T → S → Option S) :
    List (Option T) → S → Option (S × List T)
  | [], s => some (s, [])
  | none :: tasks, s => woken sleeping enqueue tasks s
  | some t :: tasks, s =>
      if sleeping s t then
        match enqueue t s with
        | none => none
        | some s => (woken sleeping enqueue tasks s).map fun x => (x.1, t :: x.2)
      else woken sleeping enqueue tasks s

/-- The queues are these lists, read in both directions. -/
structure WaitHeap.Shape (h : WaitHeap Q E T) (lists : Q → List E) : Prop where
  unique : ∀ e q q', e ∈ lists q → e ∈ lists q' → q = q'
  once : ∀ q, (lists q).Nodup
  queue_iff : ∀ e q, h.queue e = some q ↔ e ∈ lists q
  head : ∀ q, (h.queues q).head = (lists q).head?
  tail : ∀ q, (h.queues q).tail = (lists q).getLast?
  forward : ∀ q fuel, (lists q).length ≤ fuel →
    Chain.walk h.next fuel (h.queues q).head = lists q
  backward : ∀ q fuel, (lists q).length ≤ fuel →
    Chain.walk h.prev fuel (h.queues q).tail = (lists q).reverse

namespace WaitHeap

variable {h : WaitHeap Q E T} {lists : Q → List E}

theorem Linked.shape (hl : h.Linked lists) : h.Shape lists where
  unique _ _ _ he he' := hl.queue_unique he he'
  once := hl.nodup
  queue_iff := hl.queue_iff
  head q := (hl.forward q).head?_eq
  tail q := by
    rw [(hl.backward q).head?_eq, List.head?_reverse]
  forward q _ hfuel := Chain.walk_eq (hl.forward q) hfuel
  backward q _ hfuel := Chain.walk_eq (hl.backward q) (by rwa [List.length_reverse])

theorem Initialised.linked (hi : h.Initialised) : h.Linked fun _ : Q => ([] : List E) := by
  constructor
  · intro q
    rw [hi.queue q]
    exact Chain.nil_iff.mpr rfl
  · intro q
    rw [hi.queue q]
    exact Chain.nil_iff.mpr rfl
  · intro e q
    have hnone : h.queue e = none := by
      rw [WaitHeap.queue, hi.entry e]
    rw [hnone]
    exact iff_of_false (Option.some_ne_none q).symm List.not_mem_nil

end WaitHeap

section Inits

variable [DecidableEq Q] [DecidableEq E] {h : WaitHeap Q E T}

/-- Initialises queues and entries one after the other. -/
def waitQueuesInit (h : WaitHeap Q E T) (queues : List Q) (entries : List (E × T)) :
    WaitHeap Q E T :=
  entries.foldl (fun h x => waitQueueEntryInit h x.1 x.2) (queues.foldl waitQueueInit h)

omit [DecidableEq E] in
theorem queues_foldl_init {queues : List Q} {q : Q}
    (hq : q ∈ queues ∨ h.queues q = { head := none, tail := none }) :
    (queues.foldl waitQueueInit h).queues q = { head := none, tail := none } := by
  induction queues generalizing h with
  | nil =>
      rcases hq with hmem | hdone
      · exact absurd hmem List.not_mem_nil
      · exact hdone
  | cons q' queues ih =>
      apply ih
      rcases eq_or_ne q q' with rfl | hne
      · exact Or.inr (Function.update_self _ _ _)
      · rcases hq with hmem | hdone
        · exact Or.inl (List.mem_of_ne_of_mem hne hmem)
        · exact Or.inr ((Function.update_of_ne hne _ _).trans hdone)

omit [DecidableEq Q] in
theorem fresh_entryInit {e e' : E} (t : T) (h' : e = e' ∨ h.Fresh e) :
    (waitQueueEntryInit h e' t).Fresh e := by
  unfold WaitHeap.Fresh WaitHeap.task waitQueueEntryInit WaitHeap.modifyEntry
  dsimp only
  rcases eq_or_ne e e' with rfl | hne
  · rw [Function.update_self]
  · rw [Function.update_of_ne hne]
    rcases h' with heq | hfresh
    · exact absurd heq hne
    · exact hfresh

omit [DecidableEq Q] in
theorem entries_foldl_init {entries : List (E × T)} {e : E}
    (he : (∃ t, (e, t) ∈ entries) ∨ h.Fresh e) :
    (entries.foldl (fun h x => waitQueueEntryInit h x.1 x.2) h).Fresh e := by
  induction entries generalizing h with
  | nil =>
      rcases he with ⟨t, hmem⟩ | hdone
      · exact absurd hmem List.not_mem_nil
      · exact hdone
  | cons x entries ih =>
      apply ih
      rcases he with ⟨t, hmem⟩ | hdone
      · rcases List.mem_cons.mp hmem with rfl | hmem
        · exact Or.inr (fresh_entryInit t (Or.inl rfl))
        · exact Or.inl ⟨t, hmem⟩
      · exact Or.inr (fresh_entryInit x.2 (Or.inr hdone))

omit [DecidableEq Q] in
theorem queues_foldl_entryInit (entries : List (E × T)) (h : WaitHeap Q E T) :
    (entries.foldl (fun h x => waitQueueEntryInit h x.1 x.2) h).queues = h.queues := by
  induction entries generalizing h with
  | nil => rfl
  | cons x entries ih => exact ih _

/-- The initialisations lead to such a heap, whatever the memory has been. -/
theorem initialised_waitQueuesInit {queues : List Q} {entries : List (E × T)}
    (hq : ∀ q, q ∈ queues) (he : ∀ e, ∃ t, (e, t) ∈ entries) (h : WaitHeap Q E T) :
    (waitQueuesInit h queues entries).Initialised where
  queue q := by
    rw [waitQueuesInit, queues_foldl_entryInit]
    exact queues_foldl_init (Or.inl (hq q))
  entry e := entries_foldl_init (Or.inl (he e))

end Inits

section Calls

variable [DecidableEq Q] [DecidableEq E] {sleeping : S → T → Bool} {enqueue : T → S → Option S}
  {h : WaitHeap Q E T} {lists : Q → List E} {r r' : QueueRun Q E T S}

/-- The recorded calls are those for the tasks that sleep when their turn comes. -/
theorem wakeAll_recording (sleeping : S → T → Bool) (enqueue : T → S → Option S)
    (tasks : List (Option T)) (s : S) (log : List T) :
    WaitHeap.wakeAll (fun x t => sleeping x.1 t) (recording enqueue) tasks (s, log) =
      (woken sleeping enqueue tasks s).map fun x => (x.1, log ++ x.2) := by
  induction tasks generalizing s log with
  | nil =>
      rw [woken, Option.map_some, List.append_nil]
      rfl
  | cons task tasks ih =>
      cases task with
      | none => exact ih s log
      | some t =>
          rw [woken, WaitHeap.wakeAll, List.foldlM_cons, wakeEntry]
          split
          · rw [recording]
            cases enqueue t s with
            | none => rfl
            | some s' =>
                refine (ih s' (log ++ [t])).trans ?_
                dsimp only
                rw [Option.map_map]
                apply Option.map_congr
                intro x hx
                simp only [Function.comp_apply, List.append_assoc, List.singleton_append]
          · exact ih s log

omit [DecidableEq Q] in
/-- A `wakeup` that returns has had enough fuel for its queue. -/
theorem length_le_of_wakeupLoop {σ : Type} {sleeping : σ → T → Bool} {enqueue : T → σ → Option σ}
    {es : List E} {p : Option E} {fuel : Nat} {s : σ} {x : WaitHeap Q E T × σ}
    (hchain : Chain h.next p es) (hrun : wakeupLoop sleeping enqueue fuel p h s = some x) :
    es.length ≤ fuel := by
  induction es generalizing p h s fuel with
  | nil => exact Nat.zero_le fuel
  | cons e es ih =>
      have hnodup := List.nodup_cons.mp hchain.nodup
      obtain ⟨rfl, hrest⟩ := Chain.cons_iff.mp hchain
      cases fuel with
      | zero => cases hrun
      | succ fuel =>
          have hrest' := hrest.update_of_notMem hnodup.1 none
          rw [wakeupLoop] at hrun
          obtain ⟨s', hs', hloop⟩ := Option.bind_eq_some_iff.mp hrun
          exact Nat.succ_le_succ (ih (by simpa using hrest') hloop)

theorem wakeup_of_linked (hl : r.heap.Linked (queueLists r.calls)) (q : Q) {fuel : Nat}
    (hfuel : (queueLists r.calls q).length ≤ fuel) :
    r.wakeup sleeping enqueue fuel q =
      (woken sleeping enqueue ((queueLists r.calls q).map r.heap.task) r.sched).map fun x =>
        ((waitQueueInit r.heap q).detach (queueLists r.calls q), x.1, r.enqueued ++ x.2) := by
  have hwake := hl.wakeup_eq (fun x t => sleeping x.1 t) (recording enqueue)
    (r.sched, r.enqueued) hfuel
  rw [QueueRun.wakeup, hwake, wakeAll_recording, Option.map_map]
  rfl

/-- The step lemma: each call does to the lists what it means. -/
theorem QueueRun.step_linked {event : QueueEvent Q E} (hl : r.heap.Linked (queueLists r.calls))
    (hstep : r.step sleeping enqueue event r') : r'.heap.Linked (queueLists r'.calls) := by
  cases event with
  | other =>
      obtain ⟨sched, rfl⟩ := hstep
      exact hl
  | call c =>
      cases c with
      | add q e =>
          obtain rfl := hstep
          dsimp only
          rw [queueLists_append, QueueCall.apply]
          split
          · next hqueued =>
              obtain ⟨q', he⟩ := hqueued
              have hsome : (r.heap.queue e).isSome := by
                rw [(hl.queue_iff e q').mpr he]
                rfl
              rw [waitQueueAdd, if_pos hsome]
              exact hl
          · next hfree =>
              have hnone : r.heap.queue e = none := by
                rcases hqueue : r.heap.queue e with _ | q'
                · rfl
                · exact absurd ⟨q', (hl.queue_iff e q').mp hqueue⟩ hfree
              exact hl.add hnone q
      | remove e =>
          obtain rfl := hstep
          dsimp only
          rw [queueLists_append, QueueCall.apply]
          exact hl.removeAny e
      | wakeup q =>
          obtain ⟨fuel, heap, sched, enqueued, hrun, rfl⟩ := hstep
          have hchain : Chain (waitQueueInit r.heap q).next (r.heap.queues q).head _ := hl.forward q
          have hfuel := length_le_of_wakeupLoop hchain hrun
          rw [wakeup_of_linked hl q hfuel] at hrun
          obtain ⟨x, -, hx⟩ := Option.map_eq_some_iff.mp hrun
          obtain ⟨rfl, -⟩ := Prod.mk.inj hx
          dsimp only
          rw [queueLists_append, QueueCall.apply]
          exact hl.detach q

/-- The run lemma. -/
theorem queueMachine_linked (hreach : (queueMachine sleeping enqueue).Reachable r) :
    r.heap.Linked (queueLists r.calls) := by
  apply hreach.invariant
  · rintro r ⟨hinit, hcalls⟩
    rw [hcalls]
    exact hinit.linked
  · intro r event r' hl _ hstep
    exact QueueRun.step_linked hl hstep

/-- In every run the queues are the lists that the calls mean, and a `wakeup` empties its queue
and enqueues the sleepers of it in their order. -/
theorem queueMachine_shape (hreach : (queueMachine sleeping enqueue).Reachable r) :
    r.heap.Shape (queueLists r.calls) ∧
      ∀ q fuel, (queueLists r.calls q).length ≤ fuel →
        ∃ heap : WaitHeap Q E T, heap.Shape (Function.update (queueLists r.calls) q []) ∧
          r.wakeup sleeping enqueue fuel q =
            (woken sleeping enqueue ((queueLists r.calls q).map r.heap.task) r.sched).map
              fun x => (heap, x.1, r.enqueued ++ x.2) := by
  have hl := queueMachine_linked hreach
  refine ⟨hl.shape, ?_⟩
  intro q fuel hfuel
  exact ⟨_, (hl.detach q).shape, wakeup_of_linked hl q hfuel⟩

/-- A queue and two entries that have been initialised. -/
def twoSleepers : WaitHeap Unit Bool Nat :=
  waitQueuesInit ⟨fun _ => ⟨some true, none⟩, fun _ => ⟨none, some true, none, some ()⟩⟩ [()]
    [(true, 7), (false, 8)]

/-- One entry has been added, both, and the first one again. -/
def twoSleepersQueued : QueueRun Unit Bool Nat Unit where
  heap := waitQueueAdd (waitQueueAdd (waitQueueAdd twoSleepers () true) () false) () true
  sched := ()
  enqueued := []
  calls := [.add () true, .add () false, .add () true]

theorem queueMachine_shape_twoSleepers :
    twoSleepersQueued.heap.Shape (queueLists twoSleepersQueued.calls) ∧
      ∀ q fuel, (queueLists twoSleepersQueued.calls q).length ≤ fuel →
        ∃ heap : WaitHeap Unit Bool Nat,
          heap.Shape (Function.update (queueLists twoSleepersQueued.calls) q []) ∧
          twoSleepersQueued.wakeup (fun _ t => t = 8) (fun _ s => some s) fuel q =
            (woken (fun _ t => t = 8) (fun _ s => some s)
              ((queueLists twoSleepersQueued.calls q).map twoSleepersQueued.heap.task)
              twoSleepersQueued.sched).map
                fun x => (heap, x.1, twoSleepersQueued.enqueued ++ x.2) :=
  have hentries (e : Bool) : ∃ t, (e, t) ∈ [(true, 7), (false, 8)] := by
    cases e with
    | false => exact ⟨8, by decide⟩
    | true => exact ⟨7, by decide⟩
  have hinit : twoSleepers.Initialised := initialised_waitQueuesInit (by decide) hentries _
  have hstart : (queueMachine (fun _ t => t = 8) fun _ s => some s).Reachable
      ⟨twoSleepers, (), [], []⟩ := .init ⟨hinit, rfl⟩
  have hone : (queueMachine (fun _ t => t = 8) fun _ s => some s).Reachable
      ⟨waitQueueAdd twoSleepers () true, (), [], [.add () true]⟩ :=
    .step (e := .call (.add () true)) hstart trivial rfl
  have htwo : (queueMachine (fun _ t => t = 8) fun _ s => some s).Reachable
      ⟨waitQueueAdd (waitQueueAdd twoSleepers () true) () false, (), [],
        [.add () true, .add () false]⟩ :=
    .step (e := .call (.add () false)) hone trivial rfl
  queueMachine_shape (.step (e := .call (.add () true)) htwo trivial rfl)

end Calls

end Punix
