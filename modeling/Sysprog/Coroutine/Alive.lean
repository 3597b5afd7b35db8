import Sysprog.Lib.LinkedList

namespace Sysprog.Coroutine

/-- The contexts of an engine inside `start`, as they lie in memory. The data of a context is its
`Environment`: the routine whose code goes on when it is restored, and `none` for `start`. -/
structure Contexts where
  heap : Heap (Option Addr)
  fresh : Addr
  alive : Option Addr
  curRoutine : Option Addr
  /-- Not set before `start` has allocated it. -/
  idleCtx : Option Addr
  /-- The routine whose code is being executed, and `none` for `start`. -/
  control : Option Addr

namespace Contexts

def start : Contexts := ⟨fun _ => none, 0, none, none, none, none⟩

def setNext (e : Contexts) (a : Addr) (next : Option Addr) : Option Contexts :=
  (e.heap a).map fun n => { e with heap := e.heap.store a { n with next := next } }

def setPrev (e : Contexts) (a : Addr) (prev : Option Addr) : Option Contexts :=
  (e.heap a).map fun n => { e with heap := e.heap.store a { n with prev := prev } }

/-- `setjmp` on the `Environment` of a context. -/
def setjmp (e : Contexts) (a : Addr) : Option Contexts :=
  (e.heap a).map fun n => { e with heap := e.heap.store a { n with data := e.control } }

/-- `run`: `none` from the first null or dangling pointer that is followed. -/
def run (e : Contexts) : Option (Addr × Contexts) := do
  let pc := e.fresh
  let e := { e with heap := e.heap.store pc ⟨some pc, none, none⟩, fresh := pc + 1 }
  let e ← e.setNext pc e.alive
  let e := { e with alive := some pc }
  let n ← e.heap pc
  let e ← match n.next with
    | none => some e
    | some next => e.setPrev next (some pc)
  return (pc, e)

/-- `idle_ctx = new context()` of `start`. -/
def newIdle (e : Contexts) : Contexts :=
  { e with
    heap := e.heap.store e.fresh ⟨none, none, none⟩
    fresh := e.fresh + 1
    idleCtx := some e.fresh }

def restore (e : Contexts) (ctx : Addr) : Option Contexts := do
  let n ← e.heap ctx
  return { e with
    curRoutine := if some ctx = e.idleCtx then none else some ctx
    control := n.data }

/-- What is executed of the current routine is kept in its context. -/
def suspend (e : Contexts) : Option Contexts :=
  match e.curRoutine with
  | none => some e
  | some cur => e.setjmp cur

def sched (e : Contexts) (other : Addr) : Option Contexts :=
  if some other ≠ e.curRoutine then e.suspend.bind fun e => e.restore other else some e

/-- `if (pc->prev != nullptr) pc->prev->next = pc->next`. -/
def bypassNext (e : Contexts) (pc : Addr) : Option Contexts := do
  let n ← e.heap pc
  match n.prev with
  | none => some e
  | some prev => e.setNext prev n.next

/-- `if (pc->next != nullptr) pc->next->prev = pc->prev`. -/
def bypassPrev (e : Contexts) (pc : Addr) : Option Contexts := do
  let n ← e.heap pc
  match n.next with
  | none => some e
  | some next => e.setPrev next n.prev

/-- `if (alive == cur_routine) alive = alive->next`. -/
def nextAlive (e : Contexts) : Option (Option Addr) :=
  if e.alive = e.curRoutine then e.alive.bind fun a => (e.heap a).map Node.next
  else some e.alive

/-- The end of the body of `pc`. -/
def finish (e : Contexts) (pc : Addr) : Option Contexts := do
  let e ← e.bypassNext pc
  let e ← e.bypassPrev pc
  let alive ← e.nextAlive
  let e := { e with heap := e.heap.free pc, alive := alive, curRoutine := none }
  let idle ← e.idleCtx
  e.restore idle

/-- The contexts met from `alive` along `next`. -/
def aliveList (e : Contexts) : List Addr := addrs (e.heap.followNext e.fresh e.alive)

end Contexts

/-- What a run of an engine leaves in the books: `run` has returned this context, the routine of
this context has completed. -/
inductive Event where
  | registered (ctx : Addr)
  | completed (ctx : Addr)

def registered (events : List Event) : List Addr :=
  events.filterMap fun
    | .registered ctx => some ctx
    | .completed _ => none

def completed (events : List Event) : List Addr :=
  events.filterMap fun
    | .registered _ => none
    | .completed ctx => some ctx

/-- The contexts registered and not completed, the newest first. -/
def outstanding (events : List Event) : List Addr :=
  (registered events).reverse.filter fun ctx => !(completed events).contains ctx

/-- The steps of an engine in any order: `run` in `start` or in any routine, control passed to any
routine that is outstanding, the completion of the routine in control. Control is passed on only
when `start` has its idle context. -/
inductive Steps : List Event → Contexts → Prop where
  | start : Steps [] .start
  | newIdle {events e} (h : Steps events e) (hi : e.idleCtx = none) : Steps events e.newIdle
  | run {events e e' pc} (h : Steps events e) (hr : e.run = some (pc, e')) :
    Steps (events ++ [.registered pc]) e'
  | sched {events e e'} (ctx : Addr) (h : Steps events e) (hi : e.idleCtx ≠ none)
    (ha : ctx ∈ outstanding events) (hs : e.sched ctx = some e') : Steps events e'
  | finish {events e e' pc} (h : Steps events e) (hc : e.control = some pc)
    (hf : e.finish pc = some e') : Steps (events ++ [.completed pc]) e'

/-- Each context resumes its own routine. -/
def nodesOf (ids : List Addr) : List (Addr × Option Addr) := ids.map fun a => (a, some a)

@[simp] theorem addrs_nodesOf (ids : List Addr) : addrs (nodesOf ids) = ids := by
  simp [addrs, nodesOf, Function.comp_def]

@[simp] theorem nodesOf_cons (a : Addr) (ids : List Addr) :
    nodesOf (a :: ids) = (a, some a) :: nodesOf ids := rfl

@[simp] theorem nodesOf_append (us vs : List Addr) : nodesOf (us ++ vs) = nodesOf us ++ nodesOf vs := by
  simp [nodesOf]

/-- The alive list consists of the contexts `ids`, and the current routine is one of them. -/
structure Lists (e : Contexts) (ids : List Addr) : Prop where
  seg : Seg e.heap none (nodesOf ids) none
  head : e.alive = first (nodesOf ids) none
  nodup : ids.Nodup
  fresh : ∀ a, e.heap a ≠ none → a < e.fresh
  idle : ∀ a, e.idleCtx = some a → a ∉ ids ∧ ∃ n, e.heap a = some n ∧ n.data = none
  running : e.control = e.curRoutine
  current : ∀ a, e.curRoutine = some a → a ∈ ids

namespace Lists

variable {e : Contexts} {ids us vs : List Addr} {a pc : Addr}

theorem start : Lists .start [] :=
  ⟨trivial, rfl, List.nodup_nil, fun _ h => absurd rfl h, fun _ h => (nomatch h), rfl,
    fun _ h => (nomatch h)⟩

/-- The node of a context of the list. -/
theorem node (h : Lists e (us ++ a :: vs)) :
    e.heap a = some ⟨some a, first (nodesOf vs) none, last none (nodesOf us)⟩ := by
  have hseg := h.seg
  rw [nodesOf_append, seg_append] at hseg
  exact hseg.2.1

theorem allocated (h : Lists e ids) (ha : a ∈ ids) : ∃ n, e.heap a = some n ∧ n.data = some a := by
  obtain ⟨us, vs, rfl⟩ := List.append_of_mem ha
  exact ⟨_, h.node, rfl⟩

theorem lt_fresh (h : Lists e ids) (ha : a ∈ ids) : a < e.fresh := by
  obtain ⟨n, hn, -⟩ := h.allocated ha
  exact h.fresh a (by simp [hn])

theorem fresh_eq_none (h : Lists e ids) : e.heap e.fresh = none := by
  by_contra hn
  exact Nat.lt_irrefl _ (h.fresh _ hn)

/-- A new context becomes the first one of the list. -/
theorem run (h : Lists e ids) :
    ∃ e', e.run = some (e.fresh, e') ∧ Lists e' (e.fresh :: ids) ∧
      e'.fresh = e.fresh + 1 ∧ e'.idleCtx = e.idleCtx ∧ e'.control = e.control := by
  have hpc : e.fresh ∉ ids := fun hm => Nat.lt_irrefl _ (h.lt_fresh hm)
  -- the second node, if there is one, gets its `prev`
  obtain ⟨h', hrun, hself, hsnd, hrest⟩ : ∃ h' : Heap (Option Addr),
      e.run = some (e.fresh, { e with heap := h', fresh := e.fresh + 1, alive := some e.fresh }) ∧
      h' e.fresh = some ⟨some e.fresh, first (nodesOf ids) none, none⟩ ∧
      Seg h' (some e.fresh) (nodesOf ids) none ∧
      ∀ a, a ≠ e.fresh → a ∉ ids → h' a = e.heap a := by
    have hhead := h.head
    have hseg := h.seg
    cases ids with
    | nil =>
      refine ⟨(e.heap.store e.fresh ⟨some e.fresh, none, none⟩).store e.fresh
        ⟨some e.fresh, none, none⟩, ?_, by simp [nodesOf], trivial, ?_⟩
      · simp [Contexts.run, Contexts.setNext, show e.alive = none from hhead]
      · intro a ha _
        simp [ha]
    | cons b ids =>
      change Seg e.heap none ((b, some b) :: nodesOf ids) none at hseg
      have hb : b ≠ e.fresh := fun he => hpc (by simp [he])
      refine ⟨((e.heap.store e.fresh ⟨some e.fresh, none, none⟩).store e.fresh
        ⟨some e.fresh, some b, none⟩).store b ⟨some b, first (nodesOf ids) none, some e.fresh⟩,
        ?_, ?_, ?_, ?_⟩
      · simp [Contexts.run, Contexts.setNext, Contexts.setPrev, show e.alive = some b from hhead,
          hb, hseg.1]
      · simp [Ne.symm hb]
      · apply seg_setFirst hseg (by simp)
        intro a ha
        have hab : a ≠ b := by
          intro he
          have hn := h.nodup
          rw [List.nodup_cons] at hn
          exact hn.1 (by simpa [he] using ha)
        have hapc : a ≠ e.fresh := by
          intro he
          exact hpc (List.mem_cons_of_mem _ (by simpa [he] using ha))
        simp [hab, hapc]
      · intro a ha hm
        have hab : a ≠ b := fun he => hm (by simp [he])
        simp [ha, hab]
  refine ⟨_, hrun, ⟨⟨hself, hsnd⟩, rfl, List.nodup_cons.mpr ⟨hpc, h.nodup⟩, ?_, ?_, h.running, ?_⟩,
    rfl, rfl, rfl⟩
  · intro a ha
    change h' a ≠ none at ha
    change a < e.fresh + 1
    by_cases hap : a = e.fresh
    · exact hap ▸ Nat.lt_add_one _
    · by_cases hm : a ∈ ids
      · exact Nat.lt_succ_of_lt (h.lt_fresh hm)
      · exact Nat.lt_succ_of_lt (h.fresh a (by rwa [hrest a hap hm] at ha))
  · intro i hi
    obtain ⟨hm, n, hn, hdata⟩ := h.idle i hi
    have hip : i ≠ e.fresh := by
      intro he
      rw [he, h.fresh_eq_none] at hn
      cases hn
    exact ⟨by simp [hip, hm], n, (hrest i hip hm).trans hn, hdata⟩
  · intro a ha
    exact List.mem_cons_of_mem _ (h.current a ha)

theorem newIdle (h : Lists e ids) : Lists e.newIdle ids := by
  have hne : ∀ a ∈ ids, a ≠ e.fresh := fun a ha => Nat.ne_of_lt (h.lt_fresh ha)
  refine ⟨?_, h.head, h.nodup, ?_, ?_, h.running, h.current⟩
  · apply seg_congr h.seg
    intro a ha
    have hap := hne a (by simpa using ha)
    simp [Contexts.newIdle, hap]
  · intro a ha
    change a < e.fresh + 1
    by_cases hap : a = e.fresh
    · exact hap ▸ Nat.lt_add_one _
    · exact Nat.lt_succ_of_lt (h.fresh a (by simpa [Contexts.newIdle, hap] using ha))
  · intro a ha
    obtain rfl : e.fresh = a := Option.some.inj ha
    exact ⟨fun hm => hne _ hm rfl, _, by simp [Contexts.newIdle]; rfl, rfl⟩

/-- The context of the current routine holds its own code already. -/
theorem suspend (h : Lists e ids) : e.suspend = some e := by
  unfold Contexts.suspend
  cases hc : e.curRoutine with
  | none => rfl
  | some cur =>
    obtain ⟨n, hn, hdata⟩ := h.allocated (h.current cur hc)
    have hsame : e.heap.store cur { n with data := e.control } = e.heap := by
      rw [h.running, hc, ← hdata, Heap.store]
      change Function.update e.heap cur (some n) = e.heap
      rw [← hn, Function.update_eq_self]
    simp [Contexts.setjmp, hn, hsame]

/-- Control goes to a routine of the list, and the list stays as it is. -/
theorem sched (h : Lists e ids) (ha : a ∈ ids) :
    ∃ e', e.sched a = some e' ∧ Lists e' ids ∧ e'.fresh = e.fresh ∧ e'.idleCtx = e.idleCtx := by
  by_cases hc : some a = e.curRoutine
  · exact ⟨e, by simp [Contexts.sched, hc], h, rfl, rfl⟩
  · obtain ⟨n, hn, hdata⟩ := h.allocated ha
    have hidle : some a ≠ e.idleCtx := fun hi => (h.idle a hi.symm).1 ha
    refine ⟨{ e with curRoutine := some a, control := some a }, ?_, ?_, rfl, rfl⟩
    · simp [Contexts.sched, hc, h.suspend, Contexts.restore, hn, hidle, hdata]
    · exact ⟨h.seg, h.head, h.nodup, h.fresh, h.idle, rfl, fun b hb => Option.some.inj hb ▸ ha⟩

/-- The context before `pc` is linked to what follows `pc`. -/
theorem bypassNext {d next : Option Addr}
    (hpc : e.heap pc = some ⟨d, next, last none (nodesOf us)⟩)
    (hs : Seg e.heap none (nodesOf us) (some pc)) (hn : us.Nodup) :
    ∃ h', e.bypassNext pc = some { e with heap := h' } ∧ Seg h' none (nodesOf us) next ∧
      ∀ a ∉ us, h' a = e.heap a := by
  rcases List.eq_nil_or_concat us with rfl | ⟨ws, b, rfl⟩
  · refine ⟨e.heap, ?_, trivial, fun _ _ => rfl⟩
    simp [Contexts.bypassNext, hpc, nodesOf]
  · rw [List.concat_eq_append] at *
    rw [nodesOf_append] at *
    change Seg e.heap none (nodesOf ws ++ [(b, some b)]) (some pc) at hs
    have hb := (seg_last hs).1
    have hws : b ∉ ws := fun hm => (List.nodup_append.mp hn).2.2 b hm b (by simp) rfl
    refine ⟨e.heap.store b ⟨some b, next, last none (nodesOf ws)⟩, ?_, ?_, ?_⟩
    · simp [Contexts.bypassNext, Contexts.setNext, hpc, hb, nodesOf]
    · apply seg_setLast hs (by simp)
      intro a ha
      have hab : a ≠ b := ne_of_mem_of_not_mem (by simpa using ha) hws
      simp [hab]
    · intro a ha
      have hab : a ≠ b := fun he => ha (by simp [he])
      simp [hab]

/-- The context behind `pc` is linked to what precedes `pc`. -/
theorem bypassPrev {d prev : Option Addr}
    (hpc : e.heap pc = some ⟨d, first (nodesOf vs) none, prev⟩)
    (hs : Seg e.heap (some pc) (nodesOf vs) none) (hn : vs.Nodup) :
    ∃ h', e.bypassPrev pc = some { e with heap := h' } ∧ Seg h' prev (nodesOf vs) none ∧
      ∀ a ∉ vs, h' a = e.heap a := by
  cases vs with
  | nil =>
    refine ⟨e.heap, ?_, trivial, fun _ _ => rfl⟩
    simp [Contexts.bypassPrev, hpc, nodesOf]
  | cons b vs =>
    change Seg e.heap (some pc) ((b, some b) :: nodesOf vs) none at hs
    have hvs := (List.nodup_cons.mp hn).1
    refine ⟨e.heap.store b ⟨some b, first (nodesOf vs) none, prev⟩, ?_, ?_, ?_⟩
    · simp [Contexts.bypassPrev, Contexts.setPrev, hpc, hs.1]
    · apply seg_setFirst hs (by simp)
      intro a ha
      have hab : a ≠ b := ne_of_mem_of_not_mem (by simpa using ha) hvs
      simp [hab]
    · intro a ha
      have hab : a ≠ b := fun he => ha (by simp [he])
      simp [hab]

/-- `alive` moves on exactly when it points at the context that goes. -/
theorem nextAlive (hc : e.curRoutine = some pc) (ha : e.alive = first (nodesOf (us ++ pc :: vs)) none)
    (hn : pc ∉ us) {d prev : Option Addr}
    (hpc : e.heap pc = some ⟨d, first (nodesOf vs) none, prev⟩) :
    e.nextAlive = some (first (nodesOf (us ++ vs)) none) := by
  cases us with
  | nil => simp [Contexts.nextAlive, hc, show e.alive = some pc from ha, hpc]
  | cons b us =>
    have hb : b ≠ pc := fun he => hn (by simp [he])
    simp [Contexts.nextAlive, hc, show e.alive = some b from ha, hb]

/-- The context of a routine that has completed leaves the list, wherever it stands. -/
theorem finish (h : Lists e (us ++ pc :: vs)) (hc : e.control = some pc) (hi : e.idleCtx ≠ none) :
    ∃ e', e.finish pc = some e' ∧ Lists e' (us ++ vs) ∧ e'.fresh = e.fresh ∧
      e'.idleCtx = e.idleCtx := by
  obtain ⟨i, hi⟩ := Option.ne_none_iff_exists'.mp hi
  obtain ⟨hiall, n, hin, hidata⟩ := h.idle i hi
  have hcur : e.curRoutine = some pc := h.running.symm.trans hc
  have hnode := h.node
  have hseg := h.seg
  rw [nodesOf_append, nodesOf_cons, seg_append] at hseg
  obtain ⟨hus, -, hvs⟩ := hseg
  obtain ⟨hnu, hnv, hdisj⟩ := List.nodup_append.mp h.nodup
  obtain ⟨hpv, hnv⟩ := List.nodup_cons.mp hnv
  have hpu : pc ∉ us := fun hm => hdisj pc hm pc (by simp) rfl
  have huv : ∀ a ∈ us, a ∉ vs := fun a ha hm => hdisj a ha a (by simp [hm]) rfl
  obtain ⟨h1, he1, hus1, hsame1⟩ := bypassNext hnode hus hnu
  have hvs1 : Seg h1 (some pc) (nodesOf vs) none := by
    apply seg_congr hvs
    intro a ha
    exact hsame1 a fun hm => huv a hm (by simpa using ha)
  obtain ⟨h2, he2, hvs2, hsame2⟩ := bypassPrev (e := { e with heap := h1 })
    ((hsame1 pc hpu).trans hnode) hvs1 hnv
  have hsame : ∀ a, a ∉ us → a ∉ vs → h2 a = e.heap a :=
    fun a hau hav => (hsame2 a hav).trans (hsame1 a hau)
  have hus2 : Seg h2 none (nodesOf us) (first (nodesOf vs) none) := by
    apply seg_congr hus1
    intro a ha
    exact hsame2 a (huv a (by simpa using ha))
  have halive := nextAlive (e := { e with heap := h2 }) hcur h.head hpu ((hsame pc hpu hpv).trans hnode)
  have hip : i ≠ pc := fun he => hiall (by simp [he])
  have hiu : i ∉ us := fun hm => hiall (by simp [hm])
  have hiv : i ∉ vs := fun hm => hiall (by simp [hm])
  have hidle : (h2.free pc) i = some n := by
    rw [Heap.free_ne _ hip]
    exact (hsame i hiu hiv).trans hin
  refine ⟨{ e with
    heap := h2.free pc, alive := first (nodesOf (us ++ vs)) none, curRoutine := none
    control := none }, ?_, ⟨?_, rfl, ?_, ?_, ?_, rfl, fun a ha => (nomatch ha)⟩, rfl, rfl⟩
  · simp only [Contexts.finish, he1, Option.bind_eq_bind, Option.bind_some, he2]
    rw [halive]
    simp [hi, Contexts.restore, hidle, hidata]
  · rw [nodesOf_append]
    apply seg_congr ((seg_append h2 none _ _ none).mpr ⟨hus2, ?_⟩)
    · intro a ha
      have hap : a ≠ pc := by
        intro he
        rw [he] at ha
        simp [hpu, hpv] at ha
      exact Heap.free_ne h2 hap
    · exact hvs2
  · exact List.nodup_append.mpr ⟨hnu, hnv, fun a ha b hb => hdisj a ha b (by simp [hb])⟩
  · intro a ha
    change (h2.free pc) a ≠ none at ha
    by_cases hap : a = pc
    · simp [hap] at ha
    rw [Heap.free_ne _ hap] at ha
    by_cases hm : a ∈ us ++ pc :: vs
    · exact h.lt_fresh hm
    · simp only [List.mem_append, List.mem_cons, not_or] at hm
      exact h.fresh a (by rwa [hsame a hm.1 hm.2.2] at ha)
  · intro a ha
    obtain rfl : a = i := Option.some.inj (ha.symm.trans hi)
    exact ⟨by simp [hiu, hiv], n, hidle, hidata⟩

/-- In the list `next` and `prev` are inverse to each other. -/
theorem inverse (h : Lists e ids) {b : Addr} {m n : Node (Option Addr)} (ha : a ∈ ids) (hb : b ∈ ids)
    (hm : e.heap a = some m) (hn : e.heap b = some n) : m.next = some b ↔ n.prev = some a := by
  constructor
  · intro hnext
    obtain ⟨us, vs, rfl⟩ := List.append_of_mem ha
    obtain rfl := Option.some.inj (h.node.symm.trans hm)
    cases vs with
    | nil => cases hnext
    | cons c vs =>
      obtain rfl : c = b := by simpa using hnext
      have h' : Lists e ((us ++ [a]) ++ c :: vs) := by simpa using h
      obtain rfl := Option.some.inj (h'.node.symm.trans hn)
      simp [nodesOf]
  · intro hprev
    obtain ⟨us, vs, rfl⟩ := List.append_of_mem hb
    obtain rfl := Option.some.inj (h.node.symm.trans hn)
    rcases List.eq_nil_or_concat us with rfl | ⟨ws, c, rfl⟩
    · cases hprev
    · rw [List.concat_eq_append] at h hprev
      obtain rfl : c = a := by simpa [nodesOf] using hprev
      have h' : Lists e (ws ++ c :: b :: vs) := by simpa using h
      obtain rfl := Option.some.inj (h'.node.symm.trans hm)
      rfl

theorem aliveList_eq (h : Lists e ids) : e.aliveList = ids := by
  have hsub : ids ⊆ List.range e.fresh := fun a ha => List.mem_range.mpr (h.lt_fresh ha)
  have hlen : (nodesOf ids).length ≤ e.fresh := by
    simpa [nodesOf] using (List.Nodup.subperm h.nodup hsub).length_le
  rw [Contexts.aliveList, h.head, seg_followNext e.fresh h.seg hlen, addrs_nodesOf]

end Lists

section books

variable {events : List Event} {ctx : Addr}

@[simp] theorem registered_registered :
    registered (events ++ [.registered ctx]) = registered events ++ [ctx] := by
  simp [registered, List.filterMap_append]

@[simp] theorem registered_completed :
    registered (events ++ [.completed ctx]) = registered events := by
  simp [registered, List.filterMap_append]

@[simp] theorem completed_registered :
    completed (events ++ [.registered ctx]) = completed events := by
  simp [completed, List.filterMap_append]

@[simp] theorem completed_completed :
    completed (events ++ [.completed ctx]) = completed events ++ [ctx] := by
  simp [completed, List.filterMap_append]

theorem outstanding_registered (h : ctx ∉ completed events) :
    outstanding (events ++ [.registered ctx]) = ctx :: outstanding events := by
  rw [outstanding, registered_registered, completed_registered, List.reverse_append,
    List.reverse_singleton, List.singleton_append, List.filter_cons_of_pos (by simpa using h)]
  rfl

theorem outstanding_completed :
    outstanding (events ++ [.completed ctx]) = (outstanding events).filter (· ≠ ctx) := by
  rw [outstanding, registered_completed, completed_completed, outstanding, List.filter_filter]
  apply List.filter_congr
  intro a _
  by_cases ha : a = ctx <;> simp [ha]

end books

/-- The alive list is a doubly linked list of exactly the outstanding contexts. -/
structure AliveExact (events : List Event) (e : Contexts) : Prop where
  exact : e.aliveList = outstanding events
  linked : Seg e.heap none (nodesOf (outstanding events)) none
  head : e.alive = (outstanding events).head?
  once : (outstanding events).Nodup
  headPrev : ∀ a n, e.alive = some a → e.heap a = some n → n.prev = none
  inverse : ∀ a b m n, a ∈ e.aliveList → b ∈ e.aliveList → e.heap a = some m → e.heap b = some n →
    (m.next = some b ↔ n.prev = some a)
  gone : ∀ a ∈ completed events, a ∉ e.aliveList

theorem Lists.exactList {events : List Event} {e : Contexts} (h : Lists e (outstanding events)) :
    AliveExact events e where
  exact := h.aliveList_eq
  linked := h.seg
  head := by
    rw [h.head]
    cases outstanding events <;> rfl
  once := h.nodup
  headPrev := by
    intro a n ha hn
    have hhead := ha.symm.trans h.head
    have hseg := h.seg
    cases hids : outstanding events with
    | nil =>
      rw [hids] at hhead
      cases hhead
    | cons b ids =>
      rw [hids] at hhead hseg
      obtain rfl : a = b := Option.some.inj hhead
      obtain rfl := Option.some.inj (hseg.1.symm.trans hn)
      rfl
  inverse := by
    intro a b m n ha hb hm hn
    rw [h.aliveList_eq] at ha hb
    exact h.inverse ha hb hm hn
  gone := by
    intro a ha
    rw [h.aliveList_eq]
    simp [outstanding, ha]

/-- What all steps keep: the list and, for the books, that addresses are not handed out twice. -/
structure Kept (events : List Event) (e : Contexts) : Prop where
  lists : Lists e (outstanding events)
  bounded : ∀ a ∈ registered events, a < e.fresh
  known : ∀ a ∈ completed events, a ∈ registered events
  idle : e.control ≠ none → e.idleCtx ≠ none

namespace Kept

variable {events : List Event} {e e' : Contexts} {ctx pc : Addr}

theorem run (h : Kept events e) : ∃ e', e.run = some (e.fresh, e') ∧
    Kept (events ++ [.registered e.fresh]) e' := by
  obtain ⟨e', hr, hl, hf, hi, hc⟩ := h.lists.run
  have hnew : e.fresh ∉ completed events :=
    fun hm => Nat.lt_irrefl _ (h.bounded _ (h.known _ hm))
  refine ⟨e', hr, ?_, ?_, ?_, ?_⟩
  · rwa [outstanding_registered hnew]
  · intro a ha
    rw [hf]
    have ha' : a ∈ registered events ∨ a = e.fresh := by simpa using ha
    rcases ha' with ha | rfl
    · exact Nat.lt_succ_of_lt (h.bounded a ha)
    · exact Nat.lt_add_one _
  · intro a ha
    have hk := h.known a (by simpa using ha)
    rw [registered_registered]
    exact List.mem_append_left _ hk
  · rw [hc, hi]
    exact h.idle

theorem newIdle (h : Kept events e) : Kept events e.newIdle :=
  ⟨h.lists.newIdle, fun a ha => Nat.lt_succ_of_lt (h.bounded a ha), h.known, fun _ => by
    simp [Contexts.newIdle]⟩

theorem sched (h : Kept events e) (hi : e.idleCtx ≠ none) (ha : ctx ∈ outstanding events) :
    ∃ e', e.sched ctx = some e' ∧ Kept events e' := by
  obtain ⟨e', hs, hl, hf, hidle⟩ := h.lists.sched ha
  exact ⟨e', hs, hl, fun a ha => hf ▸ h.bounded a ha, h.known, fun _ => hidle ▸ hi⟩

theorem finish (h : Kept events e) (hc : e.control = some pc) :
    ∃ e', e.finish pc = some e' ∧ Kept (events ++ [.completed pc]) e' := by
  have hpc : pc ∈ outstanding events := h.lists.current pc (h.lists.running ▸ hc)
  have hreg : pc ∈ registered events := by
    simpa using (List.mem_filter.mp hpc).1
  have hidle : e.idleCtx ≠ none := h.idle (by simp [hc])
  obtain ⟨us, vs, hsplit⟩ := List.append_of_mem hpc
  have hl := h.lists
  rw [hsplit] at hl
  obtain ⟨e', hf, hl', hfresh, hi⟩ := hl.finish hc hidle
  refine ⟨e', hf, ?_, ?_, ?_, fun _ => hi ▸ hidle⟩
  · have hn := hl.nodup
    rw [List.nodup_append, List.nodup_cons] at hn
    have hus : us.filter (· ≠ pc) = us := by
      apply List.filter_eq_self.mpr
      intro a ha
      simpa using hn.2.2 a ha pc (by simp)
    have hvs : vs.filter (· ≠ pc) = vs := by
      apply List.filter_eq_self.mpr
      intro a ha
      simpa using ne_of_mem_of_not_mem ha hn.2.1.1
    rw [outstanding_completed, hsplit, List.filter_append, List.filter_cons_of_neg (by simp), hus, hvs]
    exact hl'
  · intro a ha
    rw [hfresh]
    exact h.bounded a (by simpa using ha)
  · intro a ha
    have ha' : a ∈ completed events ∨ a = pc := by simpa using ha
    rw [registered_completed]
    rcases ha' with ha | rfl
    · exact h.known a ha
    · exact hreg

end Kept

theorem Steps.kept {events : List Event} {e : Contexts} (h : Steps events e) : Kept events e := by
  induction h with
  | start => exact ⟨.start, fun _ h => (nomatch h), fun _ h => (nomatch h), fun h => absurd rfl h⟩
  | newIdle h hi ih => exact ih.newIdle
  | run h hr ih =>
    obtain ⟨e', hr', hk⟩ := ih.run
    obtain ⟨rfl, rfl⟩ := Prod.mk.inj (Option.some.inj (hr.symm.trans hr'))
    exact hk
  | sched ctx h hi ha hs ih =>
    obtain ⟨e', hs', hk⟩ := ih.sched hi ha
    obtain rfl := Option.some.inj (hs.symm.trans hs')
    exact hk
  | finish h hc hf ih =>
    obtain ⟨e', hf', hk⟩ := ih.finish hc
    obtain rfl := Option.some.inj (hf.symm.trans hf')
    exact hk

/-- Whatever the steps, the alive list is exact, and no step follows a null or dangling pointer. -/
theorem Steps.aliveExact {events : List Event} {e : Contexts} (h : Steps events e) :
    AliveExact events e ∧ e.run ≠ none ∧
      (e.idleCtx ≠ none → ∀ ctx ∈ outstanding events, e.sched ctx ≠ none) ∧
      (∀ pc, e.control = some pc → e.finish pc ≠ none) := by
  have hk := h.kept
  refine ⟨hk.lists.exactList, ?_, ?_, ?_⟩
  · obtain ⟨e', hr, -⟩ := hk.run
    simp [hr]
  · intro hi ctx ha
    obtain ⟨e', hs, -⟩ := hk.sched hi ha
    simp [hs]
  · intro pc hc
    obtain ⟨e', hf, -⟩ := hk.finish hc
    simp [hf]

/-- The first routine registers a second one and completes. -/
theorem steps_nested_aliveExact :
    ∃ e, AliveExact [.registered 0, .registered 2, .completed 0] e ∧ e.aliveList = [2] := by
  have h1 : Steps [.registered 0] _ := .run .start rfl
  have h2 : Steps [.registered 0] _ := .sched 0 (.newIdle h1 rfl) (by decide) (by decide) rfl
  have h3 : Steps [.registered 0, .registered 2] _ := .run h2 rfl
  have h4 : Steps [.registered 0, .registered 2, .completed 0] _ := .finish h3 rfl rfl
  exact ⟨_, h4.aliveExact.1, h4.aliveExact.1.exact⟩

end Sysprog.Coroutine
