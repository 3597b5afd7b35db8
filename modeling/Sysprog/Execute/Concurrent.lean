import Sysprog.Execute.Calls
import Sysprog.Lib.Monitor

namespace Sysprog.Execute

open Sysprog.Monitor (Event Atomic Stage)
open Sysprog.Storage (SimpleLRU)

variable {σ : Type}

/-- A command with its argument. -/
abbrev Invocation := Command × Bytes

/-- A thread that runs commands. -/
inductive Thread where
  | idle
  | running (cmd : Command) (args : Bytes) (program : Program)

/-- Any number of threads over one storage, each of whose calls is one step: `ThreadSafeSimplLRU`
answers as if it were. -/
structure Executors (σ : Type) where
  storage : σ
  thread : Nat → Thread

namespace Executors

inductive Action where
  | invoke (t : Nat) (cmd : Command) (args : Bytes)
  | call (t : Nat)
  | respond (t : Nat)

def start (storage : σ) : Executors σ := ⟨storage, fun _ => .idle⟩

def setThread (x : Executors σ) (t : Nat) (thread : Thread) : Executors σ :=
  { x with thread := Function.update x.thread t thread }

/-- One step of one thread, and what the outside sees of it. `none` when the thread is not there, or
the call has no result. -/
def step (call : Call Bytes Bytes → σ → Option (Reply Bytes × σ)) :
    Action → Executors σ → Option (Option (Event Invocation Bytes) × Executors σ)
  | .invoke t cmd args, x =>
    match x.thread t with
    | .idle =>
      some (some (.invoke t (cmd, args)), x.setThread t (.running cmd args (cmd.program args)))
    | .running _ _ _ => none
  | .call t, x =>
    match x.thread t with
    | .running cmd args (.call a next) =>
      (call a x.storage).map fun (r, s) =>
        (none, { x.setThread t (.running cmd args (next r)) with storage := s })
    | .running _ _ (.done _) | .idle => none
  | .respond t, x =>
    match x.thread t with
    | .running _ _ (.done out) => some (some (.respond t out), x.setThread t .idle)
    | .running _ _ (.call _ _) | .idle => none

end Executors

/-- All commands but a `get` of several keys, which reads them one by one. -/
def Command.Single : Command → Prop
  | get keys => keys.length ≤ 1
  | set _ | add _ | append _ | replace _ | stats => True

instance : DecidablePred Command.Single
  | .get _ => inferInstanceAs (Decidable (_ ≤ _))
  | .set _ | .add _ | .append _ | .replace _ | .stats => inferInstanceAs (Decidable True)

/-- What an `append` is about to store is what is there now and its argument. -/
def Current (f : Bytes → Option Bytes) : Command → Bytes → Call Bytes Bytes → Prop
  | .append _, args, .put k v => (f k).map (· ++ args) = some v
  | _, _, _ => True

instance decidableCurrent (f : Bytes → Option Bytes) :
    ∀ (cmd : Command) (args : Bytes) (a : Call Bytes Bytes),
    Decidable (Current f cmd args a)
  | .append _, _, .put _ _ => inferInstanceAs (Decidable (_ = some _))
  | .append _, _, .putIfAbsent _ _ | .append _, _, .set _ _ | .append _, _, .delete _
  | .append _, _, .get _ _ => inferInstanceAs (Decidable True)
  | .set _, _, _ | .add _, _, _ | .replace _, _, _ | .get _, _, _ | .stats, _, _ =>
    inferInstanceAs (Decidable True)

namespace Thread

def isIdle : Thread → Bool
  | idle => true
  | running _ _ _ => false

/-- `Execute` is about to return. -/
def isDone : Thread → Bool
  | running _ _ (.done _) => true
  | running _ _ (.call _ _) | idle => false

/-- `Execute` is about to make a call for which this holds. -/
def Calls (P : Command → Bytes → Call Bytes Bytes → Prop) : Thread → Prop
  | running cmd args (.call a _) => P cmd args a
  | running _ _ (.done _) | idle => False

instance (P : Command → Bytes → Call Bytes Bytes → Prop) [∀ cmd args a, Decidable (P cmd args a)] :
    DecidablePred (Calls P)
  | running cmd args (.call a _) => inferInstanceAs (Decidable (P cmd args a))
  | running _ _ (.done _) | idle => inferInstanceAs (Decidable False)

end Thread

/-- The thread is at this step; what a call stores fits, and nothing was stored between the two
calls of an `append`. -/
def Executors.Allowed : Executors.Action → Executors SimpleLRU → Prop
  | .invoke t cmd _, x => (x.thread t).isIdle = true ∧ cmd.Single
  | .call t, x => (x.thread t).Calls fun cmd args a =>
      Fits x.storage a ∧ Current (associations x.storage) cmd args a
  | .respond t, x => (x.thread t).isDone = true

instance : ∀ (a : Executors.Action) (x : Executors SimpleLRU), Decidable (Executors.Allowed a x)
  | .invoke _ _ _, _ => inferInstanceAs (Decidable (_ ∧ _))
  | .call _, _ => inferInstanceAs (Decidable (Thread.Calls _ _))
  | .respond _, _ => inferInstanceAs (Decidable (_ = true))

/-- A command on a map, all at once. -/
def onMap (maxSize : Nat) (a : Invocation) (f : Bytes → Option Bytes) :
    Option (Bytes × (Bytes → Option Bytes)) :=
  some (a.1.execute (boundedMap maxSize) a.2 f)

section Linearizable

variable {maxSize : Nat} {f g : Bytes → Option Bytes} {cmd : Command} {args : Bytes}

/-- No key is lost. -/
def Grows (f g : Bytes → Option Bytes) : Prop := ∀ k, f k ≠ none → g k ≠ none

theorem Grows.trans {h : Bytes → Option Bytes} (fg : Grows f g) (gh : Grows g h) : Grows f h :=
  fun k there => gh k (fg k there)

theorem grows_update (f : Bytes → Option Bytes) (k v : Bytes) :
    Grows f (Function.update f k (some v)) := by
  intro j there
  by_cases same : j = k
  · simp [same]
  · rwa [Function.update_of_ne same]

theorem grows_call (a : Call Bytes Bytes) (ha : ∀ k, a ≠ .delete k) (f : Bytes → Option Bytes) :
    Grows f ((boundedMap maxSize).call a f).2 := by
  cases a with
  | put k v | putIfAbsent k v | set k v =>
    simp only [Storage.call, boundedMap]
    split_ifs
    · exact fun _ there => there
    · exact grows_update f k v
  | delete k => exact absurd rfl (ha k)
  | get k v => exact fun _ there => there

/-- How far a thread is with its command, and whether the command has taken effect. -/
inductive Stands (maxSize : Nat) (f : Bytes → Option Bytes) :
    Thread → Stage Invocation Bytes → Prop
  | idle : Stands maxSize f .idle .idle
  | fresh {cmd : Command} {args : Bytes} {p : Program} (single : cmd.Single)
      (program : p = cmd.program args) :
      Stands maxSize f (.running cmd args p) (.pending (cmd, args))
  /-- The one call that is left is the command, whatever the others have stored meanwhile. -/
  | last {cmd : Command} {args out : Bytes} {a : Call Bytes Bytes} (store : ∀ k, a ≠ .delete k)
      (whole : ∀ g, Grows f g → Current g cmd args a →
        (out, ((boundedMap maxSize).call a g).2) = cmd.execute (boundedMap maxSize) args g) :
      Stands maxSize f (.running cmd args (.call a fun _ => .done out)) (.pending (cmd, args))
  | answered {cmd : Command} {args out : Bytes} :
      Stands maxSize f (.running cmd args (.done out)) (.answered out)

/-- What the others store does not move a thread. -/
theorem Stands.grows {thread : Thread} {stage : Stage Invocation Bytes}
    (h : Stands maxSize f thread stage) (fg : Grows f g) : Stands maxSize g thread stage := by
  cases h with
  | idle => exact .idle
  | fresh single program => exact .fresh single program
  | last store whole => exact .last store fun h gh current => whole h (fg.trans gh) current
  | answered => exact .answered

/-- A call of a thread: the command takes effect with it, or the map stays as it is. -/
theorem Stands.call {a : Call Bytes Bytes} {next : Reply Bytes → Program}
    {stage : Stage Invocation Bytes}
    (h : Stands maxSize f (.running cmd args (.call a next)) stage) :
    stage = .pending (cmd, args) ∧ (∀ k, a ≠ .delete k) ∧ (Current f cmd args a →
      let r := (boundedMap maxSize).call a f
      (∃ out, next r.1 = .done out ∧ (out, r.2) = cmd.execute (boundedMap maxSize) args f) ∨
        r.2 = f ∧ Stands maxSize f (.running cmd args (next r.1)) (.pending (cmd, args))) := by
  generalize hp : Program.call a next = p at h
  cases h with
  | fresh single program =>
    refine ⟨rfl, ?_⟩
    subst hp
    have run := Command.program_run (boundedMap maxSize) args cmd f
    rw [← program] at run
    cases cmd with
    | set c =>
      cases program
      exact ⟨by simp, fun _ => .inl ⟨_, rfl, rfl⟩⟩
    | add c =>
      cases program
      exact ⟨by simp, fun _ => .inl ⟨_, rfl, rfl⟩⟩
    | append c =>
      cases program
      refine ⟨by simp, fun _ => ?_⟩
      cases there : f c.key with
      | none =>
        left
        simp [Storage.call, boundedMap, Command.execute, there]
      | some value =>
        right
        simp only [Storage.call, boundedMap, there]
        refine ⟨trivial, .last (by simp) ?_⟩
        intro g _ current
        obtain ⟨w, hw, eq⟩ := Option.map_eq_some_iff.mp current
        have eq : w ++ args = value ++ args := eq
        simp [Storage.call, boundedMap, Command.execute, hw, eq, -List.length_append]
    | replace c =>
      cases program
      refine ⟨by simp, fun _ => ?_⟩
      cases there : f c.key with
      | none =>
        left
        simp [Storage.call, boundedMap, Command.execute, there]
      | some value =>
        right
        simp only [Storage.call, boundedMap, there]
        refine ⟨trivial, .last (by simp) ?_⟩
        intro g grows _
        obtain ⟨w, hw⟩ := Option.ne_none_iff_exists'.mp (grows c.key (by simp [there]))
        simp [Storage.call, boundedMap, Command.execute, hw]
    | get keys =>
      cases keys with
      | nil => cases program
      | cons key rest =>
        obtain rfl : rest = [] := by
          have short : (key :: rest).length ≤ 1 := single
          exact List.length_eq_zero_iff.mp (Nat.le_zero.mp (Nat.le_of_succ_le_succ short))
        cases program
        refine ⟨by simp, fun _ => .inl ?_⟩
        cases there : f key with
        | none => simp [Storage.call, boundedMap, Command.execute, getLoop, getProgram, there]
        | some w => simp [Storage.call, boundedMap, Command.execute, getLoop, getProgram, there]
    | stats => cases program
  | last store whole =>
    cases hp
    exact ⟨rfl, store, fun current => .inl ⟨_, rfl, whole f (fun _ there => there) current⟩⟩
  | answered => cases hp

/-- The threads as an atomic object would have them, and the map that the store holds. -/
structure Linearized (maxSize : Nat) (x : Executors SimpleLRU)
    (y : Atomic Invocation Bytes (Bytes → Option Bytes)) : Prop where
  storage : Associates maxSize x.storage y.memory
  thread : ∀ t, Stands maxSize y.memory (x.thread t) (y.stage t)

section Step

variable {x : Executors SimpleLRU} {y : Atomic Invocation Bytes (Bytes → Option Bytes)}

theorem Linearized.start (maxSize : UInt64) :
    Linearized maxSize.toNat (.start (.create maxSize)) (.start fun _ => none) :=
  ⟨associates_create maxSize, fun _ => .idle⟩

/-- One thread has gone on, and the map has not lost a key. -/
theorem Linearized.set (h : Linearized maxSize x y) {s : SimpleLRU} {t : Nat} {thread : Thread}
    {stage : Stage Invocation Bytes} (storage : Associates maxSize s f)
    (grows : Grows y.memory f) (stands : Stands maxSize f thread stage) :
    Linearized maxSize { x.setThread t thread with storage := s }
      { y.setStage t stage with memory := f } := by
  refine ⟨storage, ?_⟩
  intro u
  by_cases same : u = t
  · subst same
    simp only [Executors.setThread, Atomic.setStage, Function.update_self]
    exact stands
  · simp only [Executors.setThread, Atomic.setStage, Function.update_of_ne same]
    exact (h.thread u).grows grows

/-- An allowed step can be taken, and the atomic object makes up for it. -/
theorem Linearized.step (h : Linearized maxSize x y) (a : Executors.Action)
    (allowed : Executors.Allowed a x) :
    ∃ o x' es y', Executors.step SimpleLRU.call a x = some (o, x') ∧
      Atomic.Steps (onMap maxSize) y es y' ∧ es.filter Event.visible = o.toList ∧
      Linearized maxSize x' y' := by
  have keeps : Grows y.memory y.memory := fun _ there => there
  cases a with
  | invoke t cmd args =>
    have stands := h.thread t
    simp only [Executors.Allowed] at allowed
    simp only [Executors.step]
    generalize x.thread t = thread at allowed stands ⊢
    cases thread with
    | running cmd args p => cases allowed.1
    | idle =>
      generalize hg : y.stage t = stage at stands
      cases stands with
      | idle =>
        exact ⟨_, _, [.invoke t (cmd, args)], _, rfl, .cons (.invoke hg) .nil, rfl,
          h.set h.storage keeps (.fresh allowed.2 rfl)⟩
  | call t =>
    have stands := h.thread t
    simp only [Executors.Allowed] at allowed
    simp only [Executors.step]
    generalize x.thread t = thread at allowed stands ⊢
    cases thread with
    | idle => exact False.elim allowed
    | running cmd args p =>
      cases p with
      | done out => exact False.elim allowed
      | call a next =>
        obtain ⟨fits, current⟩ := allowed
        obtain ⟨pending, store, effect⟩ := stands.call
        rw [h.storage.eq] at current
        obtain ⟨s, hs, storage⟩ := h.storage.call store fits
        dsimp only
        rw [hs]
        have grows : Grows y.memory ((boundedMap maxSize).call a y.memory).2 :=
          grows_call a store y.memory
        rcases effect current with ⟨out, done, whole⟩ | ⟨same, waits⟩
        · refine ⟨none, _, [.commit t (cmd, args) out], _, rfl,
            .cons (.commit pending (congrArg some whole.symm)) .nil, rfl, ?_⟩
          exact h.set storage grows (by rw [done]; exact .answered)
        · refine ⟨none, _, [], y, rfl, .nil, rfl, ?_⟩
          rw [same] at storage
          have still : y = { y.setStage t (.pending (cmd, args)) with memory := y.memory } := by
            rw [Atomic.setStage, ← pending, Function.update_eq_self]
          rw [still]
          exact h.set storage keeps waits
  | respond t =>
    have stands := h.thread t
    simp only [Executors.Allowed] at allowed
    simp only [Executors.step]
    generalize x.thread t = thread at allowed stands ⊢
    cases thread with
    | idle => cases allowed
    | running cmd args p =>
      cases p with
      | call a next => cases allowed
      | done out =>
        generalize hg : y.stage t = stage at stands
        cases stands with
        | answered =>
          exact ⟨_, _, [.respond t out], _, rfl, .cons (.respond hg) .nil, rfl,
            h.set h.storage keeps .idle⟩
        | fresh single program =>
          -- a command that makes no call takes effect when it is answered
          have run := Command.program_run (boundedMap maxSize) args cmd y.memory
          rw [← program] at run
          refine ⟨_, _, [.commit t (cmd, args) out, .respond t out], _, rfl,
            .cons (.commit hg (congrArg some run.symm)) (.cons (.respond ?_) .nil), rfl, ?_⟩
          · exact Function.update_self ..
          · have once : ∀ g : Stage Invocation Bytes,
                Function.update (Function.update y.stage t g) t .idle =
                  Function.update y.stage t .idle := fun g => Function.update_idem ..
            simp only [Atomic.setStage, once]
            exact h.set h.storage keeps .idle

/-- Step by step, the atomic object makes up for all of them. -/
theorem Linearized.run (actions : List Executors.Action) (h : Linearized maxSize x y)
    (allowed : AllSteps (Executors.step SimpleLRU.call) Executors.Allowed actions x) :
    ∃ os x' es y', Sysprog.run (Executors.step SimpleLRU.call) actions x = some (os, x') ∧
      Atomic.Steps (onMap maxSize) y es y' ∧
      es.filter Event.visible = os.flatMap Option.toList ∧ Linearized maxSize x' y' := by
  induction actions generalizing x y with
  | nil => exact ⟨[], x, [], y, rfl, .nil, rfl, h⟩
  | cons a actions ih =>
    obtain ⟨o, x₁, es, y₁, hstep, steps, seen, h₁⟩ := h.step a allowed.1
    obtain ⟨os, x₂, fs, y₂, hrun, more, rest, h₂⟩ := ih h₁ (allowed.tail hstep)
    refine ⟨o :: os, x₂, es ++ fs, y₂, ?_, steps.append more, ?_, h₂⟩
    · rw [run_cons hstep, hrun]
      rfl
    · rw [List.filter_append, seen, rest, List.flatMap_cons]

end Step

end Linearizable

/-- Any number of threads run commands on one storage, and their calls of it come in any order. As
long as everything fits and no thread stores between the two calls of an `append`, no call fails,
and the threads see what they would see if each command, `append` and `replace` included, were run
as a whole on a plain map, at some time between its invocation and its answer. -/
theorem commands_linearizable (maxSize : UInt64) (actions : List Executors.Action)
    (allowed : AllSteps (Executors.step SimpleLRU.call) Executors.Allowed actions
      (.start (.create maxSize))) :
    ∃ os x es y, run (Executors.step SimpleLRU.call) actions (.start (.create maxSize)) =
        some (os, x) ∧
      Atomic.Steps (onMap maxSize.toNat) (.start fun _ => none) es y ∧
      es.filter Event.visible = os.flatMap Option.toList ∧
      associations x.storage = y.memory ∧
      run (onMap maxSize.toNat) ((es.filterMap Event.effect).map Prod.fst) (fun _ => none) =
        some ((es.filterMap Event.effect).map Prod.snd, y.memory) := by
  obtain ⟨os, x, es, y, hrun, steps, seen, h⟩ := (Linearized.start maxSize).run actions allowed
  exact ⟨os, x, es, y, hrun, steps, seen, h.storage.eq, steps.sequential⟩

/-- While a thread is in `replace`, another one appends to the same key. -/
theorem commands_linearizable_replace :
    let key : InsertCommand := ⟨[107], 0, 0⟩
    let actions : List Executors.Action :=
      [.invoke 0 (.set key) [97], .call 0, .respond 0, .invoke 1 (.append key) [98],
        .invoke 2 (.replace key) [99], .call 2, .call 1, .call 1, .respond 1, .call 2, .respond 2]
    ∃ os x es y, run (Executors.step SimpleLRU.call) actions (.start (.create 8)) = some (os, x) ∧
      Atomic.Steps (onMap (8 : UInt64).toNat) (.start fun _ => none) es y ∧
      es.filter Event.visible = os.flatMap Option.toList ∧
      associations x.storage = y.memory ∧
      run (onMap (8 : UInt64).toNat) ((es.filterMap Event.effect).map Prod.fst) (fun _ => none) =
        some ((es.filterMap Event.effect).map Prod.snd, y.memory) :=
  commands_linearizable 8 _ (by decide +kernel)

end Sysprog.Execute
