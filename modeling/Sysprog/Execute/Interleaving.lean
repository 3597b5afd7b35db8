import Sysprog.Lib.Run
import Sysprog.Execute.Command
import Sysprog.Storage.Deletion

namespace Sysprog.Execute

/-- A client thread in `Append::Execute`: between its two storage calls it holds the value it has
read. -/
inductive Phase where
  | idle
  | read (args value : Bytes)
  deriving DecidableEq

/-- What the thread is about to store fits: the pair into the store, and what the value grows by
into what the counter leaves when some of the other entries have gone. Each of them takes the size
of the freshest entry off the counter, which is the one of the key. -/
def Phase.Fits (key : Bytes) (s : Storage.SimpleLRU) : Phase → Prop
  | idle => False
  | read args value =>
    key.length + (value ++ args).length ≤ s.maxSize ∧
    ∃ n < s.view.entries.length,
      Storage.sizeAdd ((fun x => Storage.sizeSub x (key.length + value.length))^[n] s.currentSize)
        (Storage.sizeSub (value ++ args).length value.length) ≤ s.maxSize

/-- The value the thread has read is still there. -/
def Phase.Current (key : Bytes) (s : Storage.SimpleLRU) : Phase → Prop
  | idle => True
  | read _ value => valueOf key s.view.entries = some value

instance (key : Bytes) (s : Storage.SimpleLRU) : ∀ p : Phase, Decidable (p.Fits key s)
  | .idle => inferInstanceAs (Decidable False)
  | .read _ _ => inferInstanceAs (Decidable (_ ≤ _ ∧ ∃ n < _, _ ≤ _))

instance (key : Bytes) (s : Storage.SimpleLRU) : ∀ p : Phase, Decidable (p.Current key s)
  | .idle => inferInstanceAs (Decidable True)
  | .read _ _ => inferInstanceAs (Decidable (_ = _))

/-- Client threads over one `ThreadSafeSimplLRU`, whose mutex makes every call a single step. -/
structure Clients where
  storage : Storage.SimpleLRU
  phase : Nat → Phase
  /-- History: the arguments of the appends that have answered STORED. -/
  answered : List Bytes

namespace Clients

/-- One storage call of one thread. -/
inductive Step where
  | get (thread : Nat) (args : Bytes)
  | put (thread : Nat)

variable (key : Bytes)

/-- `none` when the thread is not at this call, or the call is undefined. -/
def step : Step → Clients → Option (Unit × Clients)
  | .get t args, w =>
    match w.phase t with
    | .idle =>
      match w.storage.get key [] with
      | none => none
      | some ((false, _), s) => some ((), { w with storage := s })
      | some ((true, value), s) =>
        some ((), { w with storage := s, phase := Function.update w.phase t (.read args value) })
    | .read _ _ => none
  | .put t, w =>
    match w.phase t with
    | .idle => none
    | .read args value =>
      match w.storage.put key (value ++ args) with
      | none => none
      | some (_, s) => some ((), { w with
          storage := s
          phase := Function.update w.phase t .idle
          answered := w.answered ++ [args] })

/-- The thread is at this call, and what it is about to store fits. -/
def Possible : Step → Clients → Prop
  | .get t _, w => w.phase t = .idle
  | .put t, w => (w.phase t).Fits key w.storage

/-- Nothing was stored between the two calls of the thread. -/
def Undisturbed : Step → Clients → Prop
  | .get _ _, _ => True
  | .put t, w => (w.phase t).Current key w.storage

instance : ∀ (a : Step) (w : Clients), Decidable (Possible key a w)
  | .get _ _, _ => inferInstanceAs (Decidable (_ = _))
  | .put t, w => inferInstanceAs (Decidable ((w.phase t).Fits key w.storage))

instance : ∀ (a : Step) (w : Clients), Decidable (Undisturbed key a w)
  | .get _ _, _ => inferInstanceAs (Decidable True)
  | .put t, w => inferInstanceAs (Decidable ((w.phase t).Current key w.storage))

/-- The store is in order, the key has the initial value and all that was appended, and it is the
freshest one while a thread is between its two calls. -/
def Inv (initial : Bytes) (w : Clients) : Prop :=
  ∃ c, Storage.Refines w.storage c ∧
    valueOf key c.entries = some (initial ++ w.answered.flatten) ∧
    ∀ t, w.phase t ≠ .idle → ∃ us, c.entries = us ++ [⟨key, initial ++ w.answered.flatten⟩]

variable {key} {initial : Bytes} {w : Clients}

theorem get_inv (h : Inv key initial w) (t : Nat) (args : Bytes) (hp : Possible key (.get t args) w) :
    ∃ w', step key (.get t args) w = some ((), w') ∧ Inv key initial w' := by
  obtain ⟨c, hr, hv, -⟩ := h
  have hidle : w.phase t = .idle := hp
  have hc : c.get key [] = some ((true, initial ++ w.answered.flatten),
      { c with entries := touch key (initial ++ w.answered.flatten) c.entries }) := by
    simp only [Storage.Cache.get, hv]
  obtain ⟨s, hs, hr'⟩ := Storage.agree_some (Storage.get_refines hr) hc
  exact ⟨_, by simp only [step, hidle, hs]; rfl, _, hr', valueOf_touch _, fun _ _ => ⟨_, rfl⟩⟩

theorem put_inv (h : Inv key initial w) (t : Nat) (hp : Possible key (.put t) w)
    (hu : Undisturbed key (.put t) w) :
    ∃ w', step key (.put t) w = some ((), w') ∧ Inv key initial w' := by
  obtain ⟨c, hr, hv, hlast⟩ := h
  cases hph : w.phase t with
  | idle => simp [Possible, Phase.Fits, hph] at hp
  | read args value =>
    simp only [Possible, Phase.Fits, hph, hr.view_eq, hr.maxSize_eq, hr.currentSize_eq] at hp
    simp only [Undisturbed, Phase.Current, hph, hr.view_eq] at hu
    obtain ⟨hfit, n, hn, hroom⟩ := hp
    obtain ⟨us, hes⟩ := hlast t (by simp [hph])
    obtain rfl : initial ++ w.answered.flatten = value := Option.some.inj (hv.symm.trans hu)
    obtain ⟨c', vs, hput, hes'⟩ := Storage.Cache.put_freshest hes hr.linked.nodup hfit hn hroom
    obtain ⟨s, hs, hr'⟩ := Storage.agree_some (Storage.put_refines hr) hput
    have heq : initial ++ w.answered.flatten ++ args =
        initial ++ (w.answered ++ [args]).flatten := by simp
    rw [heq] at hes'
    refine ⟨_, by simp only [step, hph, hs]; rfl, _, hr', ?_, fun _ _ => ⟨vs, hes'⟩⟩
    have hnodup := hr'.linked.nodup
    rw [hes'] at hnodup ⊢
    exact valueOf_split (e := ⟨key, initial ++ (w.answered ++ [args]).flatten⟩) hnodup

/-- The two steps of a thread without another in between are `Append::Execute`. -/
theorem steps_execute (args : Bytes) (flags : Nat) (expire : Int) (t : Nat) {w' : Clients}
    {us : List Unit} (h : run (step key) [.get t args, .put t] w = some (us, w')) :
    (Command.append ⟨key, flags, expire⟩).execute simpleLRU args (some w.storage) =
      (stored, some w'.storage) := by
  cases hph : w.phase t with
  | read args value => simp [run, step, hph] at h
  | idle =>
    cases hg : w.storage.get key [] with
    | none => simp [run, step, hph, hg] at h
    | some r =>
      obtain ⟨⟨b, value⟩, s⟩ := r
      cases b with
      | false => simp [run, step, hph, hg] at h
      | true =>
        cases hp : s.put key (value ++ args) with
        | none => simp [run, step, hph, hg, hp] at h
        | some r =>
          have hw : r.2 = w'.storage := by
            simp only [run, step, hph, hg, hp, Function.update_self, Option.map_some] at h
            rw [← (Prod.mk.inj (Option.some.inj h)).2]
          simp [Command.execute, simpleLRU, simpleLRU.settle, hg, hp, hw]

end Clients

/-- Appends to a resident key, in any interleaving in which no thread stores between the two calls
of another: the value is the initial one and every argument answered with STORED, once each and
in the order of the answers. -/
theorem appends_kept (key initial : Bytes) (s : Storage.SimpleLRU) (c : Storage.Cache)
    (hr : Storage.Refines s c) (hv : valueOf key c.entries = some initial)
    (steps pre post : List Clients.Step) (hpre : steps = pre ++ post)
    (h : AllSteps (Clients.step key)
      (fun a w => Clients.Possible key a w ∧ Clients.Undisturbed key a w) steps
      ⟨s, fun _ => .idle, []⟩) :
    ∃ us w s', run (Clients.step key) pre ⟨s, fun _ => .idle, []⟩ = some (us, w) ∧
      w.storage.get key [] = some ((true, initial ++ w.answered.flatten), s') := by
  rw [hpre] at h
  have hstep : ∀ a w, Clients.Inv key initial w →
      (Clients.Possible key a w ∧ Clients.Undisturbed key a w) →
      ∃ u w', Clients.step key a w = some (u, w') ∧ Clients.Inv key initial w' := by
    intro a w hi hcond
    obtain ⟨hp, hu⟩ := hcond
    cases a with
    | get t args => exact ⟨(), Clients.get_inv hi t args hp⟩
    | put t => exact ⟨(), Clients.put_inv hi t hp hu⟩
  obtain ⟨us, w, hrun, c', hr', hv', -⟩ := run_total _ _ _ hstep pre _
    ⟨c, hr, by simpa using hv, fun _ h => absurd rfl h⟩ h.of_append
  have hget : c'.get key [] = some ((true, initial ++ w.answered.flatten),
      { c' with entries := touch key (initial ++ w.answered.flatten) c'.entries }) := by
    simp only [Storage.Cache.get, hv']
  obtain ⟨s', hs', -⟩ := Storage.agree_some (Storage.get_refines hr') hget
  exact ⟨us, w, s', hrun, hs'⟩

/-- Two threads append one after the other, the first of them where another entry has to go. -/
theorem appends_kept_in_turn :
    ∃ replies s, run Storage.SimpleLRU.call [.put [1] [1, 1, 1], .put [7] [9]]
        (Storage.SimpleLRU.create 8) = some (replies, s) ∧
      ∃ us w s', run (Clients.step [7]) [.get 0 [1, 1, 1], .put 0, .get 1 [2], .put 1]
        ⟨s, fun _ => .idle, []⟩ = some (us, w) ∧
        w.storage.get [7] [] = some ((true, [9] ++ w.answered.flatten), s') := by
  obtain ⟨s, hs, hr⟩ := Storage.run_refines_some [.put [1] [1, 1, 1], .put [7] [9]]
    (Storage.create_refines 8) rfl
  have hall : (run Storage.SimpleLRU.call [.put [1] [1, 1, 1], .put [7] [9]]
      (Storage.SimpleLRU.create 8)).all (fun r => decide
      (AllSteps (Clients.step [7])
        (fun a w => Clients.Possible [7] a w ∧ Clients.Undisturbed [7] a w)
        [.get 0 [1, 1, 1], .put 0, .get 1 [2], .put 1] ⟨r.2, fun _ => .idle, []⟩)) = true := by
    decide +kernel
  rw [hs] at hall
  exact ⟨_, s, hs, appends_kept [7] [9] s _ hr rfl _ _ [] (List.append_nil _).symm
    (of_decide_eq_true hall)⟩

/-- Both threads read before either stores: both appends are answered with STORED, and the first
is lost. -/
theorem append_lost :
    (do
      let (_, s) ← (Storage.SimpleLRU.create 8).put [7] [9]
      let (_, w) ← run (Clients.step [7]) [.get 0 [1], .get 1 [2], .put 0, .put 1]
        ⟨s, fun _ => .idle, []⟩
      let (r, _) ← w.storage.get [7] []
      return (r, w.answered)) = some ((true, [9, 2]), [[1], [2]]) ∧
    ∀ answered : List Bytes, answered.Perm [[1], [2]] → [9, 2] ≠ [9] ++ answered.flatten := by
  refine ⟨by decide +kernel, fun answered hp he => ?_⟩
  have hlen : answered.flatten.length = 2 := hp.flatten.length_eq
  have hone : answered.flatten = [2] := by simpa using he.symm
  simp [hone] at hlen

end Sysprog.Execute
