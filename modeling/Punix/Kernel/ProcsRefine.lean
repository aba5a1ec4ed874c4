import Punix.Kernel.ProcsLaws
import Punix.Kernel.RunQueue

/-!
The kernel represents the lists of `Procs`: `next` spells the run queue,
`children` and `next_sibling` spell the children, the ring window the free
slots, and the wait queues are linked as their lists say. Each operation of the
source is shown to carry out its counterpart on the lists, which determines the
pointers it leaves behind.
-/

namespace Punix

open Lib

/-- All of the scheduler but the run queue. -/
structure FieldsRep (s : Scheduler) (v : Procs) : Prop where
  current : s.current = v.current
  swapper : s.swapper = v.swapper
  state : ∀ t, (s.task t).state = v.state t
  parent : ∀ t, (s.task t).parent = v.parent t
  pending : ∀ t, (s.task t).pending = v.pending t
  free : Ring.window s.taskTable.freeRing s.taskTable.freeHead s.taskTable.freeTail = v.free
  kids : ∀ p, Chain (fun t => (s.task t).nextSibling) (s.task p).children (v.kids p)

structure SchedRep (s : Scheduler) (v : Procs) : Prop extends FieldsRep s v where
  runq : RunQueueRep s v.runq

structure Represents (k : Kernel) (v : Procs) : Prop where
  sched : SchedRep k.sched v
  ctl : ∀ t, k.ctl t = v.ctl t
  linked : k.waits.Linked v.waitq
  entry : ∀ t point call, v.ctl t = .wait point call → k.waits.task t = some t

section Fields

variable {s s' : Scheduler} {v : Procs} {t p c : Slot}

/-- What the lists record of a task, the run queue apart, does not depend on
`next`. -/
theorem FieldsRep.same (h : FieldsRep s v) (hs : SameButRunQueue s s') (runq : List Slot) :
    FieldsRep s' { v with runq } where
  current := hs.current.trans h.current
  swapper := hs.swapper.trans h.swapper
  state t := (hs.field Task.state (fun _ => rfl) t).trans (h.state t)
  parent t := (hs.field Task.parent (fun _ => rfl) t).trans (h.parent t)
  pending t := (hs.field Task.pending (fun _ => rfl) t).trans (h.pending t)
  free := by
    rw [hs.freeRing, hs.freeHead, hs.freeTail]
    exact h.free
  kids p := by
    rw [hs.field Task.children (fun _ => rfl) p]
    exact (h.kids p).congr fun u _ => hs.field Task.nextSibling (fun _ => rfl) u

theorem FieldsRep.sleeping (h : FieldsRep s v) (t : Slot) :
    (s.task t).sleeping = (v.state t).sleeping := by
  rw [← h.state t]
  rfl

/-- A field that is the same before and after is the same for every task. -/
theorem Scheduler.field_modifyTask_same {β : Type} (s : Scheduler) (t : Slot) {f : Task → Task}
    (field : Task → β) (hsame : field (f (s.task t)) = field (s.task t)) (u : Slot) :
    field ((s.modifyTask t f).task u) = field (s.task u) := by
  rcases eq_or_ne u t with rfl | hu
  · simpa using hsame
  · simp [hu]

/-- Writing fields of a task that is in no list of children, or whose
`next_sibling` stays. -/
theorem SchedRep.modifyTask (h : SchedRep s v) (t : Slot) {f : Task → Task}
    (hnext : (f (s.task t)).next = (s.task t).next)
    (hchildren : (f (s.task t)).children = (s.task t).children)
    (hsibling : (f (s.task t)).nextSibling = (s.task t).nextSibling ∨ ∀ p, t ∉ v.kids p) :
    SchedRep (s.modifyTask t f) { v with
      state := Function.update v.state t (f (s.task t)).state
      parent := Function.update v.parent t (f (s.task t)).parent
      pending := Function.update v.pending t (f (s.task t)).pending } := by
  refine ⟨⟨h.current, h.swapper, fun u => ?_, fun u => ?_, fun u => ?_, h.free, fun p => ?_⟩,
    ⟨?_, h.runq.len, h.runq.last⟩⟩
  · rw [← funext h.state]
    exact congrFun (s.field_modifyTask t f Task.state) u
  · rw [← funext h.parent]
    exact congrFun (s.field_modifyTask t f Task.parent) u
  · rw [← funext h.pending]
    exact congrFun (s.field_modifyTask t f Task.pending) u
  · rw [s.field_modifyTask_same t Task.children hchildren p]
    rcases hsibling with hsame | hout
    · exact (h.kids p).congr fun u _ => s.field_modifyTask_same t Task.nextSibling hsame u
    · rw [s.field_modifyTask t f Task.nextSibling]
      exact (h.kids p).update_of_notMem (hout p) _
  · exact h.runq.chain.congr fun u _ => s.field_modifyTask_same t Task.next hnext u

/-- Writing fields that the lists do not record. -/
theorem SchedRep.modifyTask_same (h : SchedRep s v) (t : Slot) {f : Task → Task}
    (hnext : (f (s.task t)).next = (s.task t).next)
    (hchildren : (f (s.task t)).children = (s.task t).children)
    (hsibling : (f (s.task t)).nextSibling = (s.task t).nextSibling)
    (hstate : (f (s.task t)).state = (s.task t).state)
    (hparent : (f (s.task t)).parent = (s.task t).parent)
    (hpending : (f (s.task t)).pending = (s.task t).pending) :
    SchedRep (s.modifyTask t f) v := by
  have hmod := h.modifyTask t hnext hchildren (.inl hsibling)
  rw [hstate, hparent, hpending, h.state, h.parent, h.pending] at hmod
  simpa only [Function.update_eq_self] using hmod

/-- Writing the state of a task. -/
theorem SchedRep.setState (h : SchedRep s v) (t : Slot) {f : Task → Task} {state : SchedState}
    (hnext : (f (s.task t)).next = (s.task t).next)
    (hchildren : (f (s.task t)).children = (s.task t).children)
    (hsibling : (f (s.task t)).nextSibling = (s.task t).nextSibling)
    (hstate : (f (s.task t)).state = state)
    (hparent : (f (s.task t)).parent = (s.task t).parent)
    (hpending : (f (s.task t)).pending = (s.task t).pending) :
    SchedRep (s.modifyTask t f) (v.setState t state) := by
  have hmod := h.modifyTask t hnext hchildren (.inl hsibling)
  rw [hstate, hparent, hpending, h.parent, h.pending] at hmod
  simp only [Function.update_eq_self] at hmod
  exact hmod

theorem SchedRep.setCurrent (h : SchedRep s v) (current : Option Slot) :
    SchedRep { s with current } { v with current } :=
  ⟨⟨rfl, h.swapper, h.state, h.parent, h.pending, h.free, h.kids⟩,
    ⟨h.runq.chain, h.runq.len, h.runq.last⟩⟩

end Fields

section RunQueue

variable {s s' : Scheduler} {v : Procs} {t : Slot}

/-- Pushing a task that is not queued appends it. -/
theorem SchedRep.push (h : SchedRep s v) (ht : t ∉ v.runq) :
    ∃ s', runQueuePush s t = some s' ∧ SchedRep s' (v.push t) := by
  obtain ⟨s', hpush, hrunq, hsame⟩ := h.runq.push ht
  exact ⟨s', hpush, h.toFieldsRep.same hsame _, hrunq⟩

theorem SchedRep.poll (h : SchedRep s v) :
    ∃ s', runQueuePoll s = some (s', v.runq.head?) ∧ SchedRep s' { v with runq := v.runq.tail } := by
  obtain ⟨s', hpoll, hrunq, hsame⟩ := h.runq.poll
  exact ⟨s', hpoll, h.toFieldsRep.same hsame _, hrunq⟩

theorem SchedRep.switchTo (h : SchedRep s v) (next : Slot) :
    SchedRep (Punix.switchTo s next) (v.switchTo next) := by
  have hset := h.setState next (f := fun task => { task with state := .running })
    rfl rfl rfl rfl rfl rfl
  have hcur := hset.setCurrent (some next)
  exact ⟨⟨rfl, hcur.swapper, hcur.state, hcur.parent, hcur.pending, hcur.free, hcur.kids⟩,
    ⟨hcur.runq.chain, hcur.runq.len, hcur.runq.last⟩⟩

/-- A context switch of the code is one on the lists. -/
theorem SchedRep.schedule (h : SchedRep s v) (hout : ∀ t, v.current = some t → t ∉ v.runq)
    (hs : schedSchedule s = some s') : ∃ v', v.schedule = some v' ∧ SchedRep s' v' := by
  obtain ⟨s₁, hpoll, h₁⟩ := h.poll
  simp only [schedSchedule, hpoll, Option.bind_eq_bind, Option.bind_some] at hs
  obtain ⟨next, hnext, hs⟩ := Option.bind_eq_some_iff.mp hs
  rw [h₁.swapper] at hnext
  refine ⟨_, by simp only [Procs.schedule, show v.runq.head?.or v.swapper = _ from hnext]; rfl, ?_⟩
  have hout₁ : ∀ t, v.current = some t → t ∉ v.runq.tail :=
    fun t ht hmem => hout t ht (List.mem_of_mem_tail hmem)
  change ∀ t, ({ v with runq := v.runq.tail } : Procs).current = some t →
    t ∉ ({ v with runq := v.runq.tail } : Procs).runq at hout₁
  generalize ({ v with runq := v.runq.tail } : Procs) = v₁ at h₁ hout₁ ⊢
  unfold Procs.yieldTo
  rw [h₁.current] at hs
  cases hcur : v₁.current with
  | none =>
      simp only [hcur, Option.some.injEq] at hs
      exact hs ▸ h₁.switchTo next
  | some prev =>
      simp only [hcur] at hs
      have h₂ := h₁.modifyTask_same prev (f := fun task => { task with ctxt := task.ctxt + 1 })
        rfl rfl rfl rfl rfl rfl
      have h₃ := h₂.setState prev (f := fun task => { task with state := .queued })
        rfl rfl rfl rfl rfl rfl
      rw [h₂.sleeping, h₂.state, h₂.swapper, h₃.swapper] at hs
      dsimp only
      split at hs
      · next hstay =>
          rw [if_pos hstay]
          exact Option.some.inj hs ▸ h₂
      · next hleave =>
          rw [if_neg hleave]
          split at hs
          · next hsleep =>
              rw [if_pos hsleep]
              exact Option.some.inj hs ▸ h₂.switchTo next
          · next hwake =>
              rw [if_neg hwake]
              split at hs
              · next hother =>
                  rw [if_pos hother]
                  obtain ⟨s₄, hpush, h₄⟩ := h₃.push (hout₁ prev hcur)
                  simp only [hpush, Option.bind_some, Option.some.injEq] at hs
                  exact hs ▸ h₄.switchTo next
              · next hswap =>
                  rw [if_neg hswap]
                  simp only [Option.some.injEq] at hs
                  exact hs ▸ h₃.switchTo next

end RunQueue

section TaskTable

variable {s s' : Scheduler} {v : Procs} {t p c : Slot}

/-- Allocation takes the first free slot and leaves the other fields alone. -/
theorem SchedRep.alloc (h : SchedRep s v) (hs : taskTableAlloc s = some (s', t)) :
    v.free.head? = some t ∧ SchedRep s' { v with free := v.free.tail } := by
  have halloc := taskTableAlloc_allocated hs
  have hwindow := Ring.window_pop s.taskTable.freeRing halloc.nonempty
  rw [h.free, halloc.slot] at hwindow
  refine ⟨by simp [hwindow], ⟨⟨halloc.current.trans h.current, halloc.swapper.trans h.swapper,
    fun u => ?_, fun u => ?_, fun u => ?_, ?_, fun q => ?_⟩, ?_⟩⟩
  · exact (halloc.field Task.state (fun _ _ => rfl) u).trans (h.state u)
  · exact (halloc.field Task.parent (fun _ _ => rfl) u).trans (h.parent u)
  · exact (halloc.field Task.pending (fun _ _ => rfl) u).trans (h.pending u)
  · rw [halloc.ring, halloc.head, halloc.tail]
    simp [hwindow]
  · rw [halloc.field Task.children (fun _ _ => rfl) q]
    exact (h.kids q).congr fun u _ => halloc.field Task.nextSibling (fun _ _ => rfl) u
  · exact h.runq.congr halloc.runQueue (halloc.field Task.next fun _ _ => rfl)

/-- The slot that is freed goes to the end of the ring, and forgets its children. -/
theorem SchedRep.release (h : SchedRep s v) (hfree : v.free.length < maxProcessCnt)
    (hkids : ∀ p, t ∉ v.kids p) (hs : taskTableFree s t = some s') :
    SchedRep s' (v.release t) := by
  have hfreed := taskTableFree_freed hs
  have hlen : (s.taskTable.freeTail - s.taskTable.freeHead).toNat < maxProcessCnt := by
    rw [← Ring.length_window s.taskTable.freeRing, h.free]
    exact hfree
  have hpush := Ring.window_push s.taskTable.freeRing s.taskTable.freeHead s.taskTable.freeTail t
    hlen
  rw [h.free] at hpush
  have hwritten {β : Type} (field : Task → β) (u : Slot) : field (s'.task u) =
      if u = t then field { s.task t with
        pid := pidNone, state := .pooled, children := none, parent := none, nextSibling := none }
      else field (s.task u) := by
    split
    · next heq => rw [heq, hfreed.task]
    · next hne => rw [hfreed.others u hne]
  refine ⟨⟨hfreed.current.trans h.current, hfreed.swapper.trans h.swapper, fun u => ?_,
    fun u => ?_, fun u => ?_, ?_, fun q => ?_⟩, ?_⟩
  · rw [hwritten Task.state, h.state]
    simp [Procs.release, Procs.setState, Function.update_apply]
  · rw [hwritten Task.parent, h.parent]
    simp [Procs.release, Procs.setState, Function.update_apply]
  · exact (hfreed.field Task.pending (fun _ => rfl) u).trans (h.pending u)
  · rw [hfreed.ring, hfreed.head, hfreed.tail]
    exact hpush
  · rw [hwritten Task.children]
    rcases eq_or_ne q t with rfl | hq
    · simp [Procs.release, Procs.setState]
    · simp only [hq, if_false, Procs.release, Procs.setState, Function.update_of_ne hq]
      apply (h.kids q).congr
      intro u hu
      have hne : u ≠ t := fun heq => hkids q (heq ▸ hu)
      rw [hfreed.others u hne]
  · exact h.runq.congr hfreed.runQueue (hfreed.field Task.next fun _ => rfl)

end TaskTable

section Children

variable {s s' : Scheduler} {v : Procs} {t p c : Slot}

/-- Writing the links between children of one task. -/
theorem SchedRep.relink (h : SchedRep s v) (t : Slot) {f : Task → Task} {kids : Slot → List Slot}
    (hnext : (f (s.task t)).next = (s.task t).next)
    (hstate : (f (s.task t)).state = (s.task t).state)
    (hparent : (f (s.task t)).parent = (s.task t).parent)
    (hpending : (f (s.task t)).pending = (s.task t).pending)
    (hkids : ∀ p, Chain (fun u => ((s.modifyTask t f).task u).nextSibling)
      ((s.modifyTask t f).task p).children (kids p)) :
    SchedRep (s.modifyTask t f) { v with kids } where
  current := h.current
  swapper := h.swapper
  state u := (s.field_modifyTask_same t Task.state hstate u).trans (h.state u)
  parent u := (s.field_modifyTask_same t Task.parent hparent u).trans (h.parent u)
  pending u := (s.field_modifyTask_same t Task.pending hpending u).trans (h.pending u)
  free := h.free
  kids := hkids
  runq := h.runq.congr rfl (s.field_modifyTask_same t Task.next hnext)

/-- Writing the head of the list of children of `p`. -/
theorem SchedRep.setChildren (h : SchedRep s v) {first : Option Slot} {cs : List Slot}
    (hcs : Chain (fun u => (s.task u).nextSibling) first cs) :
    SchedRep (s.modifyTask p fun task => { task with children := first })
      { v with kids := Function.update v.kids p cs } := by
  apply h.relink p rfl rfl rfl rfl
  intro q
  have hsame (u : Slot) := s.field_modifyTask_same p (f := fun task => { task with children := first })
    Task.nextSibling rfl u
  rcases eq_or_ne q p with rfl | hq
  · simp only [Function.update_self, Scheduler.task_modifyTask_self]
    exact hcs.congr fun u _ => hsame u
  · simp only [Function.update_of_ne hq, Scheduler.task_modifyTask_of_ne _ _ _ _ hq]
    exact (h.kids q).congr fun u _ => hsame u

/-- A task that is linked to the children of `p` becomes the first of them. -/
theorem SchedRep.adopt (h : SchedRep s v) (hlink : (s.task t).nextSibling = (s.task p).children) :
    SchedRep (s.modifyTask p fun task => { task with children := some t }) (v.adopt p t) :=
  h.setChildren (Chain.cons_iff.mpr ⟨rfl, hlink ▸ h.kids p⟩)

/-- A walk along a list of children finds the first that satisfies the test. -/
theorem findChild_eq (test : Slot → Bool) {start : Option Slot} {cs : List Slot} {fuel : Nat}
    (h : Chain (fun t => (s.task t).nextSibling) start cs) (hfuel : cs.length ≤ fuel) :
    findChild s test fuel start = some (cs.find? test) := by
  induction cs generalizing start fuel with
  | nil =>
      rw [Chain.nil_iff] at h
      subst h
      cases fuel <;> rfl
  | cons c cs ih =>
      obtain ⟨rfl, hrest⟩ := Chain.cons_iff.mp h
      cases fuel with
      | zero => simp at hfuel
      | succ fuel =>
          have hlen : cs.length ≤ fuel := by simpa using hfuel
          rw [findChild, List.find?_cons]
          cases htest : test c with
          | true => simp
          | false => simpa using ih hrest hlen

theorem FieldsRep.length_kids (h : FieldsRep s v) (p : Slot) : (v.kids p).length ≤ maxProcessCnt := by
  simpa [Slot] using (h.kids p).nodup.length_le_card

theorem FieldsRep.findChildByPid (h : FieldsRep s v) (p : Slot) (pid : Int) :
    Punix.findChildByPid s p pid = some ((v.kids p).find? fun c => (s.task c).pid = pid) :=
  findChild_eq _ (h.kids p) (h.length_kids p)

theorem FieldsRep.findZombieChild (h : FieldsRep s v) (p : Slot) :
    Punix.findZombieChild s p = some ((v.kids p).find? fun c => v.state c = .zombie) := by
  rw [Punix.findZombieChild, findChild_eq _ (h.kids p) (h.length_kids p)]
  simp only [h.state]

theorem FieldsRep.of_findChildByPid (h : FieldsRep s v) {p c : Slot} {pid : Int}
    (hfound : Punix.findChildByPid s p pid = some (some c)) : c ∈ v.kids p := by
  rw [h.findChildByPid, Option.some_inj] at hfound
  exact List.mem_of_find?_eq_some hfound

theorem FieldsRep.of_findZombieChild (h : FieldsRep s v) {p c : Slot}
    (hfound : Punix.findZombieChild s p = some (some c)) : c ∈ v.kids p ∧ v.state c = .zombie := by
  rw [h.findZombieChild, Option.some_inj] at hfound
  exact ⟨List.mem_of_find?_eq_some hfound, by simpa using List.find?_some hfound⟩

/-- The loop of `unlinkSibling` writes the link of the node before `c`. -/
theorem unlinkSibling_eq {node c : Slot} {before after : List Slot} {fuel : Nat}
    (h : Chain (fun t => (s.task t).nextSibling) (some node) (node :: before ++ c :: after))
    (hfuel : before.length < fuel) :
    unlinkSibling s c fuel node = some (s.modifyTask ((node :: before).getLast (by simp))
      fun task => { task with nextSibling := (s.task c).nextSibling }) := by
  induction before generalizing node fuel with
  | nil =>
      cases fuel with
      | zero => simp at hfuel
      | succ fuel =>
          have hnext : (s.task node).nextSibling = some c := h.2.1
          simp [unlinkSibling, hnext]
  | cons b before ih =>
      cases fuel with
      | zero => simp at hfuel
      | succ fuel =>
          have hnext : (s.task node).nextSibling = some b := h.2.1
          have hrest : Chain (fun t => (s.task t).nextSibling) (some b) (b :: before ++ c :: after) :=
            hnext ▸ h.2
          have hne : b ≠ c := by
            rintro rfl
            have hnodup := hrest.nodup
            simp at hnodup
          rw [unlinkSibling, hnext]
          simp only [hne, if_false]
          rw [ih hrest (by simpa using hfuel)]
          simp

/-- Bypassing a child takes it out of the list of its parent. -/
theorem SchedRep.bypass {node : Slot} {before after : List Slot} (h : SchedRep s v)
    (hkids : v.kids p = before ++ node :: c :: after) (hother : ∀ q, q ≠ p → node ∉ v.kids q) :
    SchedRep (s.modifyTask node fun task => { task with nextSibling := (s.task c).nextSibling })
      { v with kids := Function.update v.kids p (before ++ node :: after) } := by
  apply h.relink node rfl rfl rfl rfl
  intro q
  have hchildren := s.field_modifyTask_same node
    (f := fun task => { task with nextSibling := (s.task c).nextSibling }) Task.children rfl q
  rw [hchildren, s.field_modifyTask node _ Task.nextSibling]
  rcases eq_or_ne q p with rfl | hq
  · rw [Function.update_self]
    exact Chain.remove_inner (hkids ▸ h.kids q)
  · rw [Function.update_of_ne hq]
    exact (h.kids q).update_of_notMem (hother q hq) _

/-- What is written to take a child out of a list: the pointer to it. -/
theorem unlinkChild_cases {kids : List Slot}
    (hchain : Chain (fun t => (s.task t).nextSibling) (s.task p).children kids) (hc : c ∈ kids) :
    (∃ after, kids = c :: after ∧ Punix.unlinkChild s p c = some (s.modifyTask p fun task =>
      { task with children := (s.task c).nextSibling })) ∨
    ∃ front node after, kids = front ++ node :: c :: after ∧
      Punix.unlinkChild s p c = some (s.modifyTask node fun task =>
        { task with nextSibling := (s.task c).nextSibling }) := by
  have hlen : kids.length ≤ maxProcessCnt := by simpa [Slot] using hchain.nodup.length_le_card
  cases kids with
  | nil => simp at hc
  | cons first rest =>
      obtain ⟨hfirst, _⟩ := Chain.cons_iff.mp hchain
      rcases eq_or_ne first c with rfl | hne
      · -- the head of the list moves on
        refine .inl ⟨rest, rfl, ?_⟩
        simp [Punix.unlinkChild, hfirst]
      · obtain ⟨before, after, rfl⟩ := List.append_of_mem
          ((List.mem_cons.mp hc).resolve_left hne.symm)
        rw [hfirst] at hchain
        have hfuel : before.length < maxProcessCnt := by
          simp at hlen
          omega
        have hunlink := unlinkSibling_eq hchain hfuel
        -- the node before `c` is the last one of those in front of it
        generalize hnode : (first :: before).getLast (by simp) = node at hunlink
        obtain ⟨front, hfront⟩ : ∃ front, first :: before = front ++ [node] :=
          ⟨_, hnode ▸ (List.dropLast_append_getLast (by simp)).symm⟩
        refine .inr ⟨front, node, after, ?_, ?_⟩
        · rw [← List.cons_append, hfront, List.append_assoc, List.singleton_append]
        · simp only [Punix.unlinkChild, hfirst, hne, if_false]
          exact hunlink

/-- The node in front of a child stays when the child is taken out. -/
theorem erase_inner {front after : List Slot} {node : Slot}
    (h : (front ++ node :: c :: after).Nodup) :
    (front ++ node :: c :: after).erase c = front ++ node :: after := by
  have hout : c ∉ front ++ [node] := by
    intro hmem
    rw [List.append_cons] at h
    exact List.disjoint_of_nodup_append h hmem (by simp)
  rw [List.append_cons, List.erase_append_right _ hout, List.erase_cons_head, ← List.append_cons]

/-- Unlinking a child takes it out of the list of its parent. -/
theorem SchedRep.unlinkChild (h : SchedRep s v) (hc : c ∈ v.kids p)
    (hother : ∀ q, q ≠ p → ∀ u ∈ v.kids p, u ∉ v.kids q) :
    ∃ s', Punix.unlinkChild s p c = some s' ∧
      SchedRep s' { v with kids := Function.update v.kids p ((v.kids p).erase c) } := by
  have hchain := h.kids p
  rcases unlinkChild_cases hchain hc with ⟨after, hkids, hunlink⟩ |
    ⟨front, node, after, hkids, hunlink⟩
  · refine ⟨_, hunlink, ?_⟩
    rw [hkids] at hchain ⊢
    rw [List.erase_cons_head]
    exact h.setChildren hchain.2
  · refine ⟨_, hunlink, ?_⟩
    have hnodup := hchain.nodup
    rw [hkids] at hnodup hother ⊢
    rw [erase_inner hnodup]
    exact h.bypass hkids fun q hq => hother q hq node (by simp)

end Children

end Punix
