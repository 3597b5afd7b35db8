import Sysprog.Network.Substitution

namespace Sysprog.Network

open Execute Protocol

variable {σ τ : Type}

/-- What is left of a list whose members are named by connections. -/
def own {α : Type} (i : Nat) (xs : List (Nat × α)) : List α :=
  (xs.filter fun x => x.1 = i).map Prod.snd

@[simp] theorem own_nil {α : Type} (i : Nat) : own i ([] : List (Nat × α)) = [] := rfl

@[simp] theorem own_append {α : Type} (i : Nat) (xs ys : List (Nat × α)) :
    own i (xs ++ ys) = own i xs ++ own i ys := by
  simp [own]

theorem own_cons_self {α : Type} (i : Nat) (a : α) (xs : List (Nat × α)) :
    own i ((i, a) :: xs) = a :: own i xs := by
  simp [own]

theorem own_cons_ne {α : Type} {i j : Nat} (h : j ≠ i) (a : α) (xs : List (Nat × α)) :
    own i ((j, a) :: xs) = own i xs := by
  simp [own, h]

theorem own_map_self {α : Type} (i : Nat) (as : List α) : own i (as.map (Prod.mk i)) = as := by
  induction as with
  | nil => rfl
  | cons a as ih => rw [List.map_cons, own_cons_self, ih]

theorem own_map_ne {α : Type} {i j : Nat} (h : j ≠ i) (as : List α) :
    own i (as.map (Prod.mk j)) = [] := by
  induction as with
  | nil => rfl
  | cons a as ih => rw [List.map_cons, own_cons_ne h, ih]

/-- The connections of `STnonblock`, all on one storage, and the commands that have run, each with the
connection it came from. -/
structure Clients (σ : Type) where
  connections : Nat → Connection σ
  storage : σ
  history : List (Nat × Executed)

namespace Clients

def start (epollerr : Bool) (storage : σ) (argRemains : Nat → Nat) (negative : Nat → Bool) :
    Clients σ :=
  ⟨fun i => .start epollerr storage (argRemains i) (negative i), storage, []⟩

/-- `pStorage` of a connection is the storage of all. -/
def load (x : Clients σ) (i : Nat) : Connection σ :=
  { x.connections i with conn := { (x.connections i).conn with storage := x.storage } }

/-- A method of a connection has returned. -/
def save (x : Clients σ) (i : Nat) (c : Connection σ) : Clients σ where
  connections := Function.update x.connections i c
  storage := c.conn.storage
  history := x.history ++
    (c.conn.executed.drop (x.connections i).conn.executed.length).map (Prod.mk i)

/-- `DoRead` or `DoWrite` of one of the connections: the one thread of `OnRun` makes one call after
another. -/
def step (S : Storage σ) (epollerr : Bool) (a : Nat × Connection.Op) (x : Clients σ) :
    Option (Unit × Clients σ) :=
  (Connection.step S epollerr a.2 (x.load a.1)).map fun (_, c) => ((), x.save a.1 c)

end Clients

/-- The commands one after another: each gives its recorded result, and the storage goes from the
first state to the last. -/
def Serial (S : Storage σ) : σ → List Executed → σ → Prop
  | s, [], t => s = t
  | s, e :: es, t =>
    (e.command.execute S e.argument s).1 = e.result ∧
      Serial S (e.command.execute S e.argument s).2 es t

section Serial

variable {S : Storage σ} {s t u : σ} {es fs : List Executed}

theorem Serial.append (h : Serial S s es t) (h' : Serial S t fs u) : Serial S s (es ++ fs) u := by
  induction es generalizing s with
  | nil =>
    obtain rfl : s = t := h
    exact h'
  | cons e es ih => exact ⟨h.1, ih h.2⟩

/-- The commands that have run between two states of a connection account for its storage. -/
def Conn.Ran (S : Storage σ) (c d : Conn σ) : Prop :=
  ∃ es, d.executed = c.executed ++ es ∧ Serial S c.storage es d.storage

theorem Conn.Ran.refl (c : Conn σ) : Conn.Ran S c c := ⟨[], by simp, rfl⟩

theorem Conn.Ran.trans {c d e : Conn σ} (h : Conn.Ran S c d) (h' : Conn.Ran S d e) :
    Conn.Ran S c e := by
  obtain ⟨es, he, hs⟩ := h
  obtain ⟨fs, hf, ht⟩ := h'
  exact ⟨es ++ fs, by rw [hf, he, List.append_assoc], hs.append ht⟩

theorem Conn.Ran.of_eq {c d : Conn σ} (he : d.executed = c.executed) (hs : d.storage = c.storage) :
    Conn.Ran S c d := ⟨[], by simp [he], hs.symm⟩

variable {ω : Type} {f : FrontEnd ω}

theorem Conn.runPhase_ran (c : Conn σ) (o : ω) : Conn.Ran S c (c.runPhase S f o).1 := by
  simp only [runPhase]
  cases hc : c.commandToExecute with
  | none => exact .refl c
  | some cmd =>
    by_cases hzero : c.argRemains = 0
    · have hran : Conn.Ran S c (c.execute S cmd).2 := ⟨_, rfl, rfl, rfl⟩
      simp only [if_pos hzero]
      cases f.respond (c.execute S cmd).1 o with
      | error e => exact hran
      | ok o' => exact hran
    · simp only [if_neg hzero]
      exact .refl c

theorem Conn.pass_ran (c : Conn σ) (o : ω) (buffer : Bytes) :
    Conn.Ran S c (c.pass S f o buffer).1.1 := by
  have hparse : Conn.Ran S c (c.parsePhase buffer).1 :=
    .of_eq (c.parsePhase_executed buffer) (c.parsePhase_storage buffer)
  simp only [pass]
  split
  next d hd =>
    rw [hd] at hparse
    exact hparse
  next d rest hd =>
    rw [hd] at hparse
    have hfill : Conn.Ran S d (d.fillPhase rest).1 :=
      .of_eq (d.fillPhase_executed rest) (d.fillPhase_storage rest)
    exact (hparse.trans hfill).trans (runPhase_ran _ o)

theorem Conn.processLoop_ran (fuel : Nat) (c : Conn σ) (o : ω) (buffer : Bytes) :
    Conn.Ran S c (c.processLoop S f fuel o buffer).1 := by
  induction fuel generalizing c o buffer with
  | zero => exact .refl c
  | succ fuel ih =>
    simp only [processLoop]
    split_ifs
    · have hpass := pass_ran (S := S) (f := f) c (f.runningLoad o).2 buffer
      split
      next hd =>
        rw [hd] at hpass
        exact hpass
      next hd =>
        rw [hd] at hpass
        exact hpass.trans (ih _ _ _)
    · exact .refl c

/-- Whatever a connection receives, its commands run one after another on the storage. -/
theorem Conn.readLoop_ran (c : Conn σ) (o : ω) (chunks : List Bytes) :
    Conn.Ran S c (c.readLoop S f o chunks).1 := by
  induction chunks generalizing c o with
  | nil => exact .refl c
  | cons chunk chunks ih =>
    simp only [readLoop]
    split_ifs
    · exact processLoop_ran _ _ _ _
    · exact (processLoop_ran _ _ _ _).trans (ih _ _)
    · exact .refl c

theorem Connection.afterReads_executed (c : Conn σ) (last : ReadEnd) :
    (afterReads c last).executed = c.executed ∧ (afterReads c last).storage = c.storage := by
  simp only [afterReads]
  split
  · exact ⟨rfl, rfl⟩
  · exact ⟨rfl, rfl⟩
  · split_ifs
    · exact ⟨rfl, rfl⟩
    · exact ⟨rfl, rfl⟩

theorem Connection.step_ran {epollerr : Bool} {op : Connection.Op} {c d : Connection σ} {u : Unit}
    (h : Connection.step S epollerr op c = some (u, d)) : Conn.Ran S c.conn d.conn := by
  cases op with
  | doRead chunks last =>
    obtain ⟨-, rfl⟩ := Prod.mk.inj (Option.some.inj h)
    have hread := Conn.readLoop_ran (S := S) (f := nonBlocking epollerr)
      { c.conn with fault := none } c.pending chunks
    obtain ⟨he, hs⟩ := afterReads_executed
      ({ c.conn with fault := none }.readLoop S (nonBlocking epollerr) c.pending chunks).1 last
    exact hread.trans (.of_eq he hs)
  | doWrite n =>
    obtain ⟨-, rfl⟩ := Prod.mk.inj (Option.some.inj h)
    apply Conn.Ran.of_eq
    · rw [doWrite_conn]
    · rw [doWrite_conn]

end Serial

namespace Clients

variable {S : Storage σ} {epollerr : Bool} {x y : Clients σ}

/-- What holds between the clients and their common storage. -/
structure Consistent (S : Storage σ) (storage : σ) (x : Clients σ) : Prop where
  serial : Serial S storage (x.history.map Prod.snd) x.storage
  own : ∀ i, own i x.history = (x.connections i).conn.executed

theorem start_consistent (storage : σ) (argRemains : Nat → Nat) (negative : Nat → Bool) :
    Consistent S storage (.start epollerr storage argRemains negative) := ⟨rfl, fun _ => rfl⟩

theorem step_cases {a : Nat × Connection.Op} {u : Unit} (h : step S epollerr a x = some (u, y)) :
    ∃ v c, Connection.step S epollerr a.2 (x.load a.1) = some (v, c) ∧ y = x.save a.1 c := by
  obtain ⟨⟨v, c⟩, hc, he⟩ := Option.map_eq_some_iff.mp h
  exact ⟨v, c, hc, (Prod.mk.inj he).2.symm⟩

theorem step_total (a : Nat × Connection.Op) (x : Clients σ) :
    ∃ y, step S epollerr a x = some ((), y) := by
  obtain ⟨i, op⟩ := a
  cases op with
  | doRead chunks last => exact ⟨_, rfl⟩
  | doWrite n => exact ⟨_, rfl⟩

theorem Consistent.step {storage : σ} {a : Nat × Connection.Op} {u : Unit}
    (h : Consistent S storage x) (hs : Clients.step S epollerr a x = some (u, y)) :
    Consistent S storage y := by
  obtain ⟨v, c, hc, rfl⟩ := step_cases hs
  obtain ⟨es, he, hserial⟩ := Connection.step_ran hc
  have he : c.conn.executed = (x.connections a.1).conn.executed ++ es := he
  have hdrop : c.conn.executed.drop (x.connections a.1).conn.executed.length = es := by
    rw [he, List.drop_left]
  refine ⟨?_, ?_⟩
  · simp only [save, hdrop, List.map_append, List.map_map, Function.comp_def, List.map_id']
    exact h.serial.append hserial
  · intro i
    by_cases hi : a.1 = i
    · subst hi
      simp only [save, hdrop, own_append, own_map_self, Function.update_self, h.own]
      exact he.symm
    · simp only [save, own_append, own_map_ne hi, List.append_nil, Function.update_of_ne (Ne.symm hi),
        h.own]

/-- The same requests have come as far, whatever they have been answered. -/
structure Progress (c : Connection σ) (d : Connection τ) : Prop where
  conn : Conn.Matches (fun _ _ => True) (fun _ _ => True) c.conn d.conn
  alive : c.alive = d.alive

theorem nonBlocking_progress (epollerr : Bool) :
    (nonBlocking epollerr).Matches (nonBlocking epollerr) (fun _ _ => True) (fun _ _ => True) where
  load _ := ⟨rfl, trivial⟩
  respond _ _ := .inr ⟨_, _, rfl, rfl, trivial⟩

theorem Progress.load {c : Connection σ} {d : Connection τ} (h : Progress c d) (s : σ) :
    Progress { c with conn := { c.conn with storage := s } } d := by
  obtain ⟨⟨t, es, he, -, hm⟩, ha⟩ := h
  exact ⟨⟨t, es, he, trivial, hm⟩, ha⟩

/-- The storage, and so the other clients, has no part in which commands a connection runs. -/
theorem Progress.step {T : Storage τ} {op : Connection.Op} {c c' : Connection σ}
    {d : Connection τ} {u : Unit} (h : Progress c d)
    (hs : Connection.step S epollerr op c = some (u, c')) :
    ∃ d', Connection.step T epollerr op d = some (u, d') ∧ Progress c' d' := by
  cases op with
  | doRead chunks last =>
    obtain ⟨-, rfl⟩ := Prod.mk.inj (Option.some.inj hs)
    obtain ⟨h1, ha, -⟩ := Connection.doRead_matches (S := S) (T := T)
      (fun _ _ _ _ _ => ⟨trivial, trivial⟩) (nonBlocking_progress epollerr) h.conn h.alive trivial
      chunks last
    exact ⟨_, rfl, h1, ha⟩
  | doWrite n =>
    obtain ⟨-, rfl⟩ := Prod.mk.inj (Option.some.inj hs)
    refine ⟨_, rfl, ?_, ?_⟩
    · rw [Connection.doWrite_conn, Connection.doWrite_conn]
      exact h.conn
    · simp only [Connection.doWrite]
      split_ifs <;> first | rfl | exact h.alive

/-- A connection among others and one that is alone. -/
theorem run_progress (T : Storage τ) (i : Nat) (ops : List (Nat × Connection.Op)) {us : List Unit}
    {d : Connection τ} (h : Progress (x.connections i) d)
    (hr : run (Clients.step S epollerr) ops x = some (us, y)) :
    ∃ vs e, run (Connection.step T epollerr) (own i ops) d = some (vs, e) ∧
      Progress (y.connections i) e := by
  induction ops generalizing x us d with
  | nil =>
    obtain ⟨-, rfl⟩ : [] = us ∧ x = y := by simpa [run] using hr
    exact ⟨[], d, rfl, h⟩
  | cons a ops ih =>
    cases hs : Clients.step S epollerr a x with
    | none => simp [run, hs] at hr
    | some r =>
      rw [run_cons hs] at hr
      obtain ⟨⟨vs, z⟩, hz, he⟩ := Option.map_eq_some_iff.mp hr
      obtain ⟨-, rfl⟩ := Prod.mk.inj he
      obtain ⟨v, c, hc, hsave⟩ := step_cases hs
      obtain ⟨j, op⟩ := a
      by_cases hj : j = i
      · subst hj
        obtain ⟨d', hd', h'⟩ := (h.load x.storage).step (T := T) hc
        obtain ⟨ws, e, hws, hp⟩ := ih (d := d') (by simpa [hsave, save] using h') hz
        rw [own_cons_self]
        exact ⟨v :: ws, e, by simp [run_cons hd', hws], hp⟩
      · rw [own_cons_ne hj]
        apply ih _ hz
        simpa [hsave, save, Function.update_of_ne (Ne.symm hj)] using h

end Clients

/-- Any number of connections of `STnonblock`, whose events come in any order: the commands run one
after another on their common storage, those of a connection are what its own bytes ask for, and they
are the same as if it were alone, over any storage. -/
theorem clients_serial (S : Storage σ) (T : Storage τ) (storage : σ) (alone : τ)
    (argRemains : Nat → Nat) (negative : Nat → Bool) (ops : List (Nat × Connection.Op)) :
    ∃ us x, run (Clients.step S false) ops (.start false storage argRemains negative) =
        some (us, x) ∧
      Serial S storage (x.history.map Prod.snd) x.storage ∧
      ∀ i, own i x.history = (x.connections i).conn.executed ∧
        ∃ vs c, run (Connection.step T false) (own i ops)
            (.start false alone (argRemains i) (negative i)) = some (vs, c) ∧
          (own i x.history).map (fun e => (e.command, e.argument)) =
            c.conn.executed.map (fun e => (e.command, e.argument)) ∧
          (x.connections i).alive = c.alive := by
  obtain ⟨us, x, h, hconsistent⟩ : ∃ us x, run (Clients.step S false) ops
      (.start false storage argRemains negative) = some (us, x) ∧
      Clients.Consistent S storage x := by
    refine run_total (Clients.step S false) (fun _ _ => True) (Clients.Consistent S storage)
      ?_ ops _ (Clients.start_consistent storage argRemains negative)
      (AllSteps.of_forall (fun _ _ _ => trivial) _)
    intro a x hx _
    obtain ⟨y, hy⟩ : ∃ y, Clients.step S false a x = some ((), y) := Clients.step_total a x
    exact ⟨(), y, hy, hx.step hy⟩
  refine ⟨us, x, h, hconsistent.serial, fun i => ⟨hconsistent.own i, ?_⟩⟩
  obtain ⟨vs, c, hc, hp⟩ := Clients.run_progress T i ops
    (d := .start false alone (argRemains i) (negative i)) ⟨.create trivial _ _, rfl⟩ h
  refine ⟨vs, c, hc, ?_, hp.alive⟩
  rw [hconsistent.own, hp.conn.requests_eq]

end Sysprog.Network
