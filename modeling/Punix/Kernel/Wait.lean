import Punix.Lib.Chain

/-!
The wait queues of `wait.c`: doubly linked lists of entries that live on the
stacks of the sleepers. The addresses of queues, entries and tasks are
arbitrary types. `WaitHeap.Linked` is the abstraction: each queue is the list
of its entries in insertion order, spelled forwards by `next` from the head and
backwards by `prev` from the tail.
-/

namespace Punix

open Lib

structure WaitQueueEntry (Q E T : Type) where
  task : Option T
  prev : Option E
  next : Option E
  queue : Option Q

structure WaitQueue (E : Type) where
  head : Option E
  tail : Option E

/-- The memory that holds all wait queues and all wait queue entries. -/
structure WaitHeap (Q E T : Type) where
  queues : Q → WaitQueue E
  entries : E → WaitQueueEntry Q E T

variable {Q E T S : Type}

namespace WaitHeap

def modifyQueue [DecidableEq Q] (h : WaitHeap Q E T) (q : Q) (f : WaitQueue E → WaitQueue E) :
    WaitHeap Q E T :=
  { h with queues := Function.update h.queues q (f (h.queues q)) }

def modifyEntry [DecidableEq E] (h : WaitHeap Q E T) (e : E)
    (f : WaitQueueEntry Q E T → WaitQueueEntry Q E T) : WaitHeap Q E T :=
  { h with entries := Function.update h.entries e (f (h.entries e)) }

def next (h : WaitHeap Q E T) (e : E) : Option E := (h.entries e).next
def prev (h : WaitHeap Q E T) (e : E) : Option E := (h.entries e).prev
def queue (h : WaitHeap Q E T) (e : E) : Option Q := (h.entries e).queue
def task (h : WaitHeap Q E T) (e : E) : Option T := (h.entries e).task

end WaitHeap

section Operations

variable [DecidableEq Q] [DecidableEq E]

def waitQueueInit (h : WaitHeap Q E T) (queue : Q) : WaitHeap Q E T :=
  h.modifyQueue queue fun _ => { head := none, tail := none }

def waitQueueEntryInit (h : WaitHeap Q E T) (entry : E) (task : T) : WaitHeap Q E T :=
  h.modifyEntry entry fun _ => { task := some task, prev := none, next := none, queue := none }

def waitQueueAdd (h : WaitHeap Q E T) (queue : Q) (entry : E) : WaitHeap Q E T :=
  -- already queued: no-op
  if (h.queue entry).isSome then h
  else
    let tail := (h.queues queue).tail
    let h := h.modifyEntry entry fun x => { x with queue := some queue, prev := tail, next := none }
    let h := match tail with
      | some last => h.modifyEntry last fun x => { x with next := some entry }
      | none => h.modifyQueue queue fun w => { w with head := some entry }
    h.modifyQueue queue fun w => { w with tail := some entry }

def waitQueueRemove (h : WaitHeap Q E T) (entry : E) : WaitHeap Q E T :=
  match h.queue entry with
  | none => h
  | some queue =>
      let h := match h.prev entry with
        | some before => h.modifyEntry before fun x => { x with next := h.next entry }
        | none => h.modifyQueue queue fun w => { w with head := h.next entry }
      let h := match h.next entry with
        | some after => h.modifyEntry after fun x => { x with prev := h.prev entry }
        | none => h.modifyQueue queue fun w => { w with tail := h.prev entry }
      h.modifyEntry entry fun x => { x with prev := none, next := none, queue := none }

/-- One entry of the loop of `wakeup`: its task is enqueued when it sleeps. -/
def wakeEntry (sleeping : S → T → Bool) (enqueue : T → S → Option S)
    (task : Option T) (s : S) : Option S :=
  match task with
  | some t => if sleeping s t then enqueue t s else some s
  | none => some s

/-- The loop of `wakeup` over the detached list, `fuel` entries at most. -/
def wakeupLoop (sleeping : S → T → Bool) (enqueue : T → S → Option S) :
    Nat → Option E → WaitHeap Q E T → S → Option (WaitHeap Q E T × S)
  | _, none, h, s => some (h, s)
  | 0, some _, _, _ => none
  | fuel + 1, some entry, h, s => do
      let next := h.next entry
      let task := h.task entry
      let h := h.modifyEntry entry fun x => { x with prev := none, next := none, queue := none }
      let s ← wakeEntry sleeping enqueue task s
      wakeupLoop sleeping enqueue fuel next h s

/-- `wakeup`. `s` is the scheduler, which `sched_enqueue` changes; the call
fails when an enqueue does. -/
def wakeup (sleeping : S → T → Bool) (enqueue : T → S → Option S) (fuel : Nat)
    (queue : Q) (h : WaitHeap Q E T) (s : S) : Option (WaitHeap Q E T × S) :=
  let entry := (h.queues queue).head
  -- the whole list is detached first
  let h := h.modifyQueue queue fun _ => { head := none, tail := none }
  wakeupLoop sleeping enqueue fuel entry h s

end Operations

namespace WaitHeap

section Accessors

variable (h : WaitHeap Q E T)

@[simp] theorem entries_next (e : E) : (h.entries e).next = h.next e := rfl
@[simp] theorem entries_prev (e : E) : (h.entries e).prev = h.prev e := rfl
@[simp] theorem entries_queue (e : E) : (h.entries e).queue = h.queue e := rfl
@[simp] theorem entries_task (e : E) : (h.entries e).task = h.task e := rfl

section Queue

variable [DecidableEq Q] (q : Q) (f : WaitQueue E → WaitQueue E)

@[simp] theorem queues_modifyQueue :
    (h.modifyQueue q f).queues = Function.update h.queues q (f (h.queues q)) := rfl

@[simp] theorem entries_modifyQueue : (h.modifyQueue q f).entries = h.entries := rfl

@[simp] theorem next_modifyQueue : (h.modifyQueue q f).next = h.next := rfl

@[simp] theorem prev_modifyQueue : (h.modifyQueue q f).prev = h.prev := rfl

@[simp] theorem queue_modifyQueue : (h.modifyQueue q f).queue = h.queue := rfl

@[simp] theorem task_modifyQueue : (h.modifyQueue q f).task = h.task := rfl

end Queue

section Entry

variable [DecidableEq E] (e : E) (g : WaitQueueEntry Q E T → WaitQueueEntry Q E T)

@[simp] theorem queues_modifyEntry : (h.modifyEntry e g).queues = h.queues := rfl

private theorem field_modifyEntry {β : Type} (field : WaitQueueEntry Q E T → β) :
    (fun x => field ((h.modifyEntry e g).entries x)) =
      Function.update (fun x => field (h.entries x)) e (field (g (h.entries e))) := by
  funext x
  by_cases hx : x = e
  · subst hx
    simp [modifyEntry]
  · simp [modifyEntry, Function.update_of_ne hx]

@[simp] theorem next_modifyEntry :
    (h.modifyEntry e g).next = Function.update h.next e (g (h.entries e)).next :=
  field_modifyEntry h e g (·.next)

@[simp] theorem prev_modifyEntry :
    (h.modifyEntry e g).prev = Function.update h.prev e (g (h.entries e)).prev :=
  field_modifyEntry h e g (·.prev)

@[simp] theorem queue_modifyEntry :
    (h.modifyEntry e g).queue = Function.update h.queue e (g (h.entries e)).queue :=
  field_modifyEntry h e g (·.queue)

@[simp] theorem task_modifyEntry :
    (h.modifyEntry e g).task = Function.update h.task e (g (h.entries e)).task :=
  field_modifyEntry h e g (·.task)

end Entry

end Accessors

section Tasks

variable (h : WaitHeap Q E T) (e : E) (q : Q)

@[simp] theorem task_waitQueueInit [DecidableEq Q] : (waitQueueInit h q).task = h.task := rfl

@[simp] theorem task_waitQueueEntryInit [DecidableEq E] (t : T) :
    (waitQueueEntryInit h e t).task = Function.update h.task e (some t) := by
  simp [waitQueueEntryInit]

variable [DecidableEq Q] [DecidableEq E]

@[simp] theorem task_waitQueueAdd : (waitQueueAdd h q e).task = h.task := by
  unfold waitQueueAdd
  split
  · rfl
  · cases (h.queues q).tail <;> simp

@[simp] theorem task_waitQueueRemove : (waitQueueRemove h e).task = h.task := by
  unfold waitQueueRemove
  split
  · rfl
  · dsimp only
    split <;> split <;> simp

end Tasks

/-- The queues of `h` are the lists `lists`, and an entry records the queue it
is linked in. -/
structure Linked (h : WaitHeap Q E T) (lists : Q → List E) : Prop where
  forward : ∀ q, Chain h.next (h.queues q).head (lists q)
  backward : ∀ q, Chain h.prev (h.queues q).tail (lists q).reverse
  queue_iff : ∀ e q, h.queue e = some q ↔ e ∈ lists q

namespace Linked

variable {h : WaitHeap Q E T} {lists : Q → List E} {q : Q} {e : E}

theorem nodup (hl : h.Linked lists) (q : Q) : (lists q).Nodup := (hl.forward q).nodup

/-- No entry is linked in two queues. -/
theorem queue_unique (hl : h.Linked lists) {q q' : Q} (he : e ∈ lists q) (he' : e ∈ lists q') :
    q = q' := by
  have h1 := (hl.queue_iff e q).mpr he
  have h2 := (hl.queue_iff e q').mpr he'
  exact Option.some.inj (h1.symm.trans h2)

theorem notMem_of_queue_none (hl : h.Linked lists) (he : h.queue e = none) (q : Q) :
    e ∉ lists q := by
  intro hmem
  have := (hl.queue_iff e q).mpr hmem
  simp [he] at this

theorem prev_eq_getLast? (hl : h.Linked lists) {xs ys : List E} (hq : lists q = xs ++ e :: ys) :
    h.prev e = xs.getLast? := by
  have hback := hl.backward q
  have hlist : (lists q).reverse = ys.reverse ++ e :: xs.reverse := by simp [hq]
  rw [hlist] at hback
  rw [hback.link_eq_head?, List.head?_reverse]

theorem next_eq_head? (hl : h.Linked lists) {xs ys : List E} (hq : lists q = xs ++ e :: ys) :
    h.next e = ys.head? := by
  have hfwd := hl.forward q
  rw [hq] at hfwd
  exact hfwd.link_eq_head?

/-- Reinitialising an empty queue changes nothing. -/
theorem queueInit [DecidableEq Q] (hl : h.Linked lists) (hq : lists q = []) :
    (waitQueueInit h q).Linked lists := by
  refine ⟨?_, ?_, hl.queue_iff⟩
  · intro q'
    by_cases hq' : q' = q
    · subst hq'
      simp [waitQueueInit, hq]
    · simpa [waitQueueInit, Function.update_of_ne hq'] using hl.forward q'
  · intro q'
    by_cases hq' : q' = q
    · subst hq'
      simp [waitQueueInit, hq]
    · simpa [waitQueueInit, Function.update_of_ne hq'] using hl.backward q'

/-- An entry that is not linked may be initialised again. -/
theorem entryInit [DecidableEq E] (hl : h.Linked lists) (he : h.queue e = none) (t : T) :
    (waitQueueEntryInit h e t).Linked lists := by
  have hmem := hl.notMem_of_queue_none he
  refine ⟨?_, ?_, ?_⟩
  · intro q
    simpa [waitQueueEntryInit] using (hl.forward q).update_of_notMem (hmem q) none
  · intro q
    simpa [waitQueueEntryInit] using
      (hl.backward q).update_of_notMem (by simpa using hmem q) none
  · intro e' q
    by_cases he' : e' = e
    · subst he'
      simp [waitQueueEntryInit, hmem q]
    · simpa [waitQueueEntryInit, Function.update_of_ne he'] using hl.queue_iff e' q

variable [DecidableEq Q] [DecidableEq E]

section Add

variable (he : h.queue e = none)
include he

private theorem queue_add : (waitQueueAdd h q e).queue = Function.update h.queue e (some q) := by
  cases htail : (h.queues q).tail <;> simp [waitQueueAdd, he, htail]

private theorem prev_add :
    (waitQueueAdd h q e).prev = Function.update h.prev e (h.queues q).tail := by
  cases htail : (h.queues q).tail <;> simp [waitQueueAdd, he, htail]

private theorem tail_add (q' : Q) :
    ((waitQueueAdd h q e).queues q').tail =
      if q' = q then some e else (h.queues q').tail := by
  by_cases hq' : q' = q <;> cases htail : (h.queues q).tail <;>
    simp [waitQueueAdd, he, htail, hq']

end Add

/-- Adding an unlinked entry appends it to the list of the queue. -/
theorem add (hl : h.Linked lists) (he : h.queue e = none) (q : Q) :
    (waitQueueAdd h q e).Linked (Function.update lists q (lists q ++ [e])) := by
  have hmem := hl.notMem_of_queue_none he
  have hback := hl.backward q
  refine ⟨?_, ?_, ?_⟩
  · intro q'
    have hfwd' : Chain (Function.update h.next e none) (h.queues q').head (lists q') :=
      (hl.forward q').update_of_notMem (hmem q') none
    rcases List.eq_nil_or_concat (lists q) with hnil | ⟨front, last, hlast⟩
    · -- the queue was empty: the entry becomes its head
      have htail : (h.queues q).tail = none := by simpa [hnil] using hback
      by_cases hq' : q' = q
      · subst hq'
        simp [waitQueueAdd, he, htail, hnil]
      · simpa [waitQueueAdd, he, htail, hq'] using hfwd'
    · -- the old last entry is linked to the new one
      rw [List.concat_eq_append] at hlast
      have htail : (h.queues q).tail = some last := by
        rw [hlast, List.reverse_append] at hback
        exact hback.1
      by_cases hq' : q' = q
      · subst hq'
        rw [hlast] at hfwd'
        simpa [waitQueueAdd, he, htail, hlast] using
          hfwd'.append_last (y := e) (hlast ▸ hmem q') (by simp)
      · have hlast' : last ∉ lists q' := fun hin =>
          hq' (hl.queue_unique hin (by simp [hlast]))
        simpa [waitQueueAdd, he, htail, hq'] using hfwd'.update_of_notMem hlast' (some e)
  · intro q'
    have hback' : Chain (Function.update h.prev e (h.queues q).tail)
        (h.queues q').tail (lists q').reverse :=
      (hl.backward q').update_of_notMem (by simpa using hmem q') _
    rw [prev_add he, tail_add he]
    by_cases hq' : q' = q
    · subst hq'
      simpa using hback'
    · simpa [hq'] using hback'
  · intro e' q'
    rw [queue_add he]
    by_cases he' : e' = e
    · subst he'
      by_cases hq' : q' = q
      · simp [hq']
      · simp [hq', Ne.symm hq', hmem]
    · by_cases hq' : q' = q
      · simp [hq', he', hl.queue_iff]
      · simp [hq', he', hl.queue_iff]

section Remove

variable (he : h.queue e = some q) (hself : h.prev e ≠ some e)
include he hself

private theorem next_remove :
    (waitQueueRemove h e).next = Chain.bypass h.next e (h.prev e) (h.next e) := by
  cases hp : h.prev e with
  | none => cases hn : h.next e <;> simp [waitQueueRemove, Chain.bypass, he, hp, hn]
  | some before =>
      have hne : before ≠ e := by simpa [hp] using hself
      cases hn : h.next e <;>
        simp [waitQueueRemove, Chain.bypass, he, hp, hn, Function.update_of_ne hne.symm]

private theorem prev_remove :
    (waitQueueRemove h e).prev = Chain.bypass h.prev e (h.next e) (h.prev e) := by
  cases hp : h.prev e with
  | none => cases hn : h.next e <;> simp [waitQueueRemove, Chain.bypass, he, hp, hn]
  | some before =>
      have hne : before ≠ e := by simpa [hp] using hself
      cases hn : h.next e <;>
        simp [waitQueueRemove, Chain.bypass, he, hp, hn, Function.update_of_ne hne.symm]

private theorem queue_remove :
    (waitQueueRemove h e).queue = Function.update h.queue e none := by
  cases hp : h.prev e with
  | none => cases hn : h.next e <;> simp [waitQueueRemove, he, hp, hn]
  | some before =>
      have hne : before ≠ e := by simpa [hp] using hself
      cases hn : h.next e <;>
        simp [waitQueueRemove, he, hp, hn, Function.update_of_ne hne.symm]

private theorem queues_remove (q' : Q) : (waitQueueRemove h e).queues q' =
    if q' = q then
      { head := if h.prev e = none then h.next e else (h.queues q).head
        tail := if h.next e = none then h.prev e else (h.queues q).tail }
    else h.queues q' := by
  cases hp : h.prev e with
  | none =>
      cases hn : h.next e <;> by_cases hq' : q' = q <;>
        simp [waitQueueRemove, he, hp, hn, hq']
  | some before =>
      have hne : before ≠ e := by simpa [hp] using hself
      cases hn : h.next e <;> by_cases hq' : q' = q <;>
        simp [waitQueueRemove, he, hp, hn, Function.update_of_ne hne.symm, hq']

end Remove

/-- Removing a linked entry removes it from the list of its queue. -/
theorem remove (hl : h.Linked lists) (he : e ∈ lists q) :
    (waitQueueRemove h e).Linked (Function.update lists q ((lists q).erase e)) := by
  have hqueue := (hl.queue_iff e q).mpr he
  obtain ⟨xs, ys, hq⟩ := List.append_of_mem he
  have hnodup := hl.nodup q
  rw [hq] at hnodup
  obtain ⟨_, hmid, hdisj⟩ := List.nodup_append.mp hnodup
  have hxs : e ∉ xs := fun hmem => hdisj e hmem e (by simp) rfl
  have hys : e ∉ ys := (List.nodup_cons.mp hmid).1
  have herase : (lists q).erase e = xs ++ ys := by
    rw [hq, List.erase_append_right _ hxs, List.erase_cons_head]
  have hprev := hl.prev_eq_getLast? hq
  have hnext := hl.next_eq_head? hq
  have hself : h.prev e ≠ some e := by
    rw [hprev]
    exact fun heq => hxs (List.mem_of_getLast? heq)
  have hother {x : E} (hx : x ∈ lists q) {q' : Q} (hq' : q' ≠ q) : x ∉ lists q' :=
    fun hin => hq' (hl.queue_unique hin hx)
  have hfwd := hl.forward q
  have hback := hl.backward q
  rw [hq] at hfwd hback
  refine ⟨?_, ?_, ?_⟩
  · intro q'
    rw [next_remove hqueue hself, queues_remove hqueue hself, hprev, hnext]
    rcases eq_or_ne q' q with rfl | hq'
    · rw [Function.update_self, if_pos rfl, herase]
      exact hfwd.bypass_of_mem
    · rw [Function.update_of_ne hq', if_neg hq']
      apply (hl.forward q').bypass_of_notMem (hother he hq')
      intro before hbefore
      exact hother (by simp [hq, List.mem_of_getLast? hbefore]) hq'
  · intro q'
    rw [prev_remove hqueue hself, queues_remove hqueue hself, hprev, hnext]
    rcases eq_or_ne q' q with rfl | hq'
    · rw [Function.update_self, if_pos rfl, herase, List.reverse_append]
      rw [List.reverse_append, List.reverse_cons, List.append_assoc, List.singleton_append] at hback
      have hrest := hback.bypass_of_mem
      rw [List.getLast?_reverse, List.head?_reverse] at hrest
      exact hrest
    · rw [Function.update_of_ne hq', if_neg hq']
      apply (hl.backward q').bypass_of_notMem (by simpa using hother he hq')
      intro after hafter
      have hin : after ∈ lists q := by simp [hq, List.mem_of_mem_head? hafter]
      simpa using hother hin hq'
  · intro e' q'
    rw [queue_remove hqueue hself]
    by_cases he' : e' = e
    · subst he'
      by_cases hq' : q' = q
      · subst hq'
        simp [herase, hxs, hys]
      · simp [hq', hother he hq']
    · by_cases hq' : q' = q
      · subst hq'
        simp [he', hl.queue_iff, List.mem_erase_of_ne he']
      · simp [he', hq', hl.queue_iff]

end Linked

/-- Removing an entry, linked or not, removes it from every list. -/
theorem Linked.removeAny [DecidableEq Q] [DecidableEq E] {h : WaitHeap Q E T} {lists : Q → List E}
    (hl : h.Linked lists) (e : E) :
    (waitQueueRemove h e).Linked fun q => (lists q).erase e := by
  cases hqueue : h.queue e with
  | none =>
      have hsame : (fun q => (lists q).erase e) = lists := by
        funext q
        exact List.erase_of_not_mem (hl.notMem_of_queue_none hqueue q)
      rw [hsame]
      simpa [waitQueueRemove, hqueue] using hl
  | some q =>
      have he := (hl.queue_iff e q).mp hqueue
      have hsame : (fun q' => (lists q').erase e) =
          Function.update lists q ((lists q).erase e) := by
        funext q'
        by_cases hq' : q' = q
        · simp [hq']
        · rw [Function.update_of_ne hq']
          exact List.erase_of_not_mem fun hin => hq' (hl.queue_unique hin he)
      rw [hsame]
      exact hl.remove he

section Wakeup

variable [DecidableEq E]

/-- The heap after the loop of `wakeup` has detached the entries `es`. -/
def detach (h : WaitHeap Q E T) (es : List E) : WaitHeap Q E T :=
  es.foldl (fun h e =>
    h.modifyEntry e fun x => { x with prev := none, next := none, queue := none }) h

@[simp] theorem queues_detach (h : WaitHeap Q E T) (es : List E) :
    (h.detach es).queues = h.queues := by
  induction es generalizing h with
  | nil => rfl
  | cons e es ih =>
      refine (ih _).trans ?_
      simp

@[simp] theorem task_detach (h : WaitHeap Q E T) (es : List E) :
    (h.detach es).task = h.task := by
  induction es generalizing h with
  | nil => rfl
  | cons e es ih =>
      refine (ih _).trans ?_
      simp

private theorem field_detach {β : Type} (field : WaitHeap Q E T → E → Option β)
    (hfield : ∀ h e, field (h.modifyEntry e fun x =>
      { x with prev := none, next := none, queue := none }) = Function.update (field h) e none)
    (h : WaitHeap Q E T) (es : List E) (x : E) :
    field (h.detach es) x = if x ∈ es then none else field h x := by
  induction es generalizing h with
  | nil => rfl
  | cons e es ih =>
      refine (ih _).trans ?_
      rw [hfield]
      by_cases hx : x = e
      · simp [hx]
      · simp [hx]

theorem next_detach (h : WaitHeap Q E T) (es : List E) (x : E) :
    (h.detach es).next x = if x ∈ es then none else h.next x :=
  field_detach next (by simp) h es x

theorem prev_detach (h : WaitHeap Q E T) (es : List E) (x : E) :
    (h.detach es).prev x = if x ∈ es then none else h.prev x :=
  field_detach prev (by simp) h es x

theorem queue_detach (h : WaitHeap Q E T) (es : List E) (x : E) :
    (h.detach es).queue x = if x ∈ es then none else h.queue x :=
  field_detach queue (by simp) h es x

/-- What `wakeup` does to the scheduler: the sleepers among the tasks are
enqueued in order. -/
def wakeAll (sleeping : S → T → Bool) (enqueue : T → S → Option S)
    (tasks : List (Option T)) (s : S) : Option S :=
  tasks.foldlM (fun s task => wakeEntry sleeping enqueue task s) s

/-- The loop of `wakeup` visits exactly the entries of the chain it starts on;
clearing an entry does not disturb the links it has still to follow. -/
theorem wakeupLoop_eq (sleeping : S → T → Bool) (enqueue : T → S → Option S)
    {h : WaitHeap Q E T} {p : Option E} {es : List E} {fuel : Nat} (s : S)
    (hchain : Chain h.next p es) (hfuel : es.length ≤ fuel) :
    wakeupLoop sleeping enqueue fuel p h s =
      (wakeAll sleeping enqueue (es.map h.task) s).map fun s => (h.detach es, s) := by
  induction es generalizing p h s fuel with
  | nil =>
      rw [Chain.nil_iff] at hchain
      subst hchain
      cases fuel <;> rfl
  | cons e es ih =>
      have hnodup := List.nodup_cons.mp hchain.nodup
      obtain ⟨rfl, hrest⟩ := Chain.cons_iff.mp hchain
      cases fuel with
      | zero => simp at hfuel
      | succ fuel =>
          have hrest' := hrest.update_of_notMem hnodup.1 none
          have hlen : es.length ≤ fuel := by simpa using hfuel
          cases hwake : wakeEntry sleeping enqueue (h.task e) s with
          | none => simp [wakeupLoop, wakeAll, hwake]
          | some s' =>
              have hloop := ih (h := h.modifyEntry e fun x =>
                { x with prev := none, next := none, queue := none }) s'
                (by simpa using hrest') hlen
              simp only [wakeupLoop, hwake, Option.bind_eq_bind, Option.bind_some, hloop]
              simp [wakeAll, hwake, detach]

variable [DecidableEq Q]

/-- `wakeup` empties the queue and enqueues its sleeping tasks in queue order. -/
theorem Linked.wakeup_eq (sleeping : S → T → Bool) (enqueue : T → S → Option S)
    {h : WaitHeap Q E T} {lists : Q → List E} {q : Q} {fuel : Nat} (s : S)
    (hl : h.Linked lists) (hfuel : (lists q).length ≤ fuel) :
    wakeup sleeping enqueue fuel q h s =
      (wakeAll sleeping enqueue ((lists q).map h.task) s).map fun s =>
        ((waitQueueInit h q).detach (lists q), s) := by
  have hloop := wakeupLoop_eq sleeping enqueue (h := waitQueueInit h q) s
    (by simpa [waitQueueInit] using hl.forward q) hfuel
  simpa [wakeup, waitQueueInit] using hloop

/-- Detaching all entries of a queue leaves it empty and the others as they are. -/
theorem Linked.detach {h : WaitHeap Q E T} {lists : Q → List E} (hl : h.Linked lists) (q : Q) :
    ((waitQueueInit h q).detach (lists q)).Linked (Function.update lists q []) := by
  have hother {q' : Q} (hq' : q' ≠ q) {x : E} (hx : x ∈ lists q') : x ∉ lists q :=
    fun hin => hq' (hl.queue_unique hx hin)
  refine ⟨?_, ?_, ?_⟩
  · intro q'
    by_cases hq' : q' = q
    · subst hq'
      simp [waitQueueInit]
    · rw [Function.update_of_ne hq']
      have hq := hl.forward q'
      refine Chain.congr (by simpa [waitQueueInit, hq'] using hq) ?_
      intro x hx
      simp [next_detach, hother hq' hx, waitQueueInit]
  · intro q'
    by_cases hq' : q' = q
    · subst hq'
      simp [waitQueueInit]
    · rw [Function.update_of_ne hq']
      have hq := hl.backward q'
      refine Chain.congr (by simpa [waitQueueInit, hq'] using hq) ?_
      intro x hx
      simp [prev_detach, hother hq' (by simpa using hx), waitQueueInit]
  · intro e q'
    rw [queue_detach]
    by_cases hq' : q' = q
    · subst hq'
      by_cases he : e ∈ lists q'
      · simp [he]
      · simp [he, waitQueueInit, hl.queue_iff]
    · by_cases he : e ∈ lists q
      · have : e ∉ lists q' := fun hin => hother hq' hin he
        simp [he, hq', this]
      · simp [he, hq', waitQueueInit, hl.queue_iff]

end Wakeup

end WaitHeap

end Punix
