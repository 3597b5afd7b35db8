import Sysprog.Lib.Monitor
import Sysprog.Storage.Refinement

namespace Sysprog.Storage

open Monitor

/-- The threads of a `ThreadSafeSimplLRU`: its methods take `_mutex` and call those of `SimpleLRU`. -/
abbrev ThreadSafeSimplLRU := Monitor.State (Call Bytes Bytes) (Reply Bytes) SimpleLRU

/-- The methods of `SimpleLRU` as the accesses they consist of: the check of the size, the search in
the index, the changes of the list. -/
def SimpleLRU.body : Call Bytes Bytes → Code SimpleLRU (Reply Bytes)
  | .put k v => .access some fun s =>
    if k.length + v.length > s.maxSize then .done (.done false)
    else .access some fun s =>
      match s.lruIndex k with
      | none => .access (fun s => s.insertNewValue k v) fun _ => .done (.done true)
      | some it => .access (fun s => s.updateValue it v) fun _ => .done (.done true)
  | .putIfAbsent k v => .access some fun s =>
    if k.length + v.length > s.maxSize then .done (.done false)
    else .access some fun s =>
      match s.lruIndex k with
      | none => .access (fun s => s.insertNewValue k v) fun _ => .done (.done true)
      | some _ => .done (.done false)
  | .set k v => .access some fun s =>
    if v.length + k.length > s.maxSize then .done (.done false)
    else .access some fun s =>
      match s.lruIndex k with
      | none => .done (.done false)
      | some it => .access (fun s => s.updateValue it v) fun _ => .done (.done true)
  | .delete k => .access some fun s =>
    match s.lruIndex k with
    | none => .done (.done false)
    | some it => .access (fun s => s.removeNode it) fun _ => .done (.done true)
  | .get k v => .access some fun s =>
    match s.lruIndex k with
    | none => .done (.got false v)
    | some it => .access (fun s => (s.heap it).map fun _ => s) fun s =>
      match s.heap it with
      | none => .done (.got false v)
      | some node => .access (fun s => s.moveToFreshData it) fun _ => .done (.got true node.data.value)

/-- Without anyone in between, these accesses are the methods. -/
theorem SimpleLRU.body_run (a : Call Bytes Bytes) (s : SimpleLRU) :
    (SimpleLRU.body a).run s = SimpleLRU.call a s := by
  cases a with
  | put k v =>
    simp only [SimpleLRU.body, Code.run, Option.bind_some, SimpleLRU.call, SimpleLRU.put]
    split_ifs
    · rfl
    · simp only [Code.run, Option.bind_some]
      cases s.lruIndex k with
      | none => cases h : s.insertNewValue k v <;> simp [Code.run, h]
      | some it => cases h : s.updateValue it v <;> simp [Code.run, h]
  | putIfAbsent k v =>
    simp only [SimpleLRU.body, Code.run, Option.bind_some, SimpleLRU.call, SimpleLRU.putIfAbsent]
    split_ifs
    · rfl
    · simp only [Code.run, Option.bind_some]
      cases s.lruIndex k with
      | none => cases h : s.insertNewValue k v <;> simp [Code.run, h]
      | some it => rfl
  | set k v =>
    simp only [SimpleLRU.body, Code.run, Option.bind_some, SimpleLRU.call, SimpleLRU.set]
    split_ifs
    · rfl
    · simp only [Code.run, Option.bind_some]
      cases s.lruIndex k with
      | none => rfl
      | some it => cases h : s.updateValue it v <;> simp [Code.run, h]
  | delete k =>
    simp only [SimpleLRU.body, Code.run, Option.bind_some, SimpleLRU.call, SimpleLRU.delete]
    cases s.lruIndex k with
    | none => rfl
    | some it => cases h : s.removeNode it <;> simp [Code.run, h]
  | get k v =>
    simp only [SimpleLRU.body, Code.run, Option.bind_some, SimpleLRU.call, SimpleLRU.get]
    cases s.lruIndex k with
    | none => rfl
    | some it =>
      cases h : s.heap it with
      | none => simp [Code.run, h]
      | some node => cases hm : s.moveToFreshData it <;> simp [Code.run, h, hm]

/-- However the methods of `SimpleLRU` access the memory, and however any number of threads are
scheduled: no two of them are inside at the same time, what they observe is what the cache without
pointers answers to their calls in the order in which they leave it, each between its invocation and
its return, and as long as a call is under way some thread can go on, unless the cache itself has no
answer to a call. -/
theorem thread_safe (maxSize : UInt64) (body : Call Bytes Bytes → Code SimpleLRU (Reply Bytes))
    (hbody : ∀ a s, (body a).run s = SimpleLRU.call a s)
    (cs : List (State.Action (Call Bytes Bytes)))
    (os : List (Option (Event (Call Bytes Bytes) (Reply Bytes)))) (m : ThreadSafeSimplLRU)
    (hr : run (State.step body) cs (.start (.create maxSize)) = some (os, m)) :
    (∀ t u, m.Inside t → m.Inside u → t = u) ∧
    ∃ es c, Atomic.Steps Cache.call (.start ⟨maxSize.toNat, 0, []⟩) es
        ⟨c, fun t => (m.phase t).stage⟩ ∧
      es.filter Event.visible = os.flatMap Option.toList ∧
      run Cache.call ((es.filterMap Event.effect).map Prod.fst) ⟨maxSize.toNat, 0, []⟩ =
        some ((es.filterMap Event.effect).map Prod.snd, c) ∧
      ∀ t, m.phase t ≠ .idle →
        (∃ a o n, (∀ u b, a ≠ .invoke u b) ∧ State.step body a m = some (o, n)) ∨
        ∃ u a, (m.phase u).stage = .pending a ∧ Cache.call a c = none := by
  obtain ⟨hsole, es, s, hsteps, hvis, hprogress⟩ := State.linearizable hbody (.create maxSize) cs hr
  obtain ⟨c, hc, hcache⟩ := hsteps.refines Refines (fun a s c h => call_refines a h)
    (create_refines maxSize)
  refine ⟨hsole, es, c, hcache, hvis, hcache.sequential, ?_⟩
  intro t ht
  rcases hprogress t ht with hgo | ⟨u, a, hu, hnone⟩
  · exact .inl hgo
  · refine .inr ⟨u, a, hu, ?_⟩
    have hagree := call_refines a (s := s) hc
    rw [hnone] at hagree
    generalize Cache.call a c = y at hagree ⊢
    cases hagree
    rfl

/-- Two threads: the second one waits while the first one is in `Put`, and then finds its pair. -/
theorem thread_safe_two :
    let cs : List (State.Action (Call Bytes Bytes)) :=
      [.invoke 0 (.put [1] [2]), .invoke 1 (.get [1] []), .acquire 0, .access 0, .access 0, .access 0,
        .release 0, .acquire 1, .respond 0, .access 1, .access 1, .access 1, .release 1, .respond 1]
    ∃ os m, run (State.step SimpleLRU.body) cs (.start (.create 8)) = some (os, m) ∧
      (∀ t u, m.Inside t → m.Inside u → t = u) ∧
      ∃ es c, Atomic.Steps Cache.call (.start ⟨(8 : UInt64).toNat, 0, []⟩) es
          ⟨c, fun t => (m.phase t).stage⟩ ∧
        es.filter Event.visible = os.flatMap Option.toList ∧
        run Cache.call ((es.filterMap Event.effect).map Prod.fst) ⟨(8 : UInt64).toNat, 0, []⟩ =
          some ((es.filterMap Event.effect).map Prod.snd, c) ∧
        ∀ t, m.phase t ≠ .idle →
          (∃ a o n, (∀ u b, a ≠ .invoke u b) ∧ State.step SimpleLRU.body a m = some (o, n)) ∨
          ∃ u a, (m.phase u).stage = .pending a ∧ Cache.call a c = none := by
  intro cs
  have hsome : (run (State.step SimpleLRU.body) cs (.start (.create 8))).isSome = true := by
    decide +kernel
  obtain ⟨⟨os, m⟩, hr⟩ := Option.isSome_iff_exists.mp hsome
  exact ⟨os, m, hr, thread_safe 8 SimpleLRU.body SimpleLRU.body_run cs os m hr⟩

end Sysprog.Storage
