import Sysprog.Execute.Simulation
import Sysprog.Network.Output

namespace Sysprog.Network

open Execute Protocol

variable {σ τ ω υ : Type}

/-- The connection with another storage behind it and other results in its history. -/
def Conn.replace (c : Conn σ) (t : τ) (es : List Executed) : Conn τ :=
  ⟨c.parser, c.commandToExecute, c.argRemains, c.argumentForCommand, t, c.fault, es, c.consumed,
    c.stalled⟩

section Phases

variable {c : Conn σ} {t : τ} {es : List Executed}

@[simp] theorem Conn.replace_fault : (c.replace t es).fault = c.fault := rfl

@[simp] theorem Conn.replace_command : (c.replace t es).commandToExecute = c.commandToExecute := rfl

@[simp] theorem Conn.replace_argRemains : (c.replace t es).argRemains = c.argRemains := rfl

@[simp] theorem Conn.replace_argument :
    (c.replace t es).argumentForCommand = c.argumentForCommand := rfl

@[simp] theorem Conn.replace_storage : (c.replace t es).storage = t := rfl

@[simp] theorem Conn.replace_executed : (c.replace t es).executed = es := rfl

theorem Conn.buildCommand_replace :
    (c.replace t es).buildCommand = c.buildCommand.replace t es := by
  have hb : (c.replace t es).parser.build = c.parser.build := rfl
  simp only [buildCommand, hb]
  cases c.parser.build <;> rfl

theorem Conn.afterParse_replace (r : Parser.Parsed) (buffer : Bytes) :
    (c.replace t es).afterParse r buffer =
      ((c.afterParse r buffer).1.replace t es, (c.afterParse r buffer).2) := by
  have hp : ∀ p bytes, (c.replace t es).parsed p bytes = (c.parsed p bytes).replace t es :=
    fun _ _ => rfl
  simp only [afterParse, hp, buildCommand_replace]
  cases r.error with
  | some e => rfl
  | none =>
    cases hcomplete : r.parser.parseComplete with
    | true =>
      simp only [if_true, replace_fault]
      split_ifs <;> rfl
    | false =>
      simp only [Bool.false_eq_true, if_false, replace_fault]
      split_ifs <;> rfl

theorem Conn.parsePhase_replace (buffer : Bytes) :
    (c.replace t es).parsePhase buffer =
      ((c.parsePhase buffer).1.replace t es, (c.parsePhase buffer).2) := by
  simp only [parsePhase, replace_command]
  cases c.commandToExecute with
  | some cmd => rfl
  | none => exact afterParse_replace _ buffer

theorem Conn.fillPhase_replace (buffer : Bytes) :
    (c.replace t es).fillPhase buffer =
      ((c.fillPhase buffer).1.replace t es, (c.fillPhase buffer).2) := by
  by_cases h : c.commandToExecute.isSome ∧ c.argRemains > 0
  · have h' : (c.replace t es).commandToExecute.isSome ∧ (c.replace t es).argRemains > 0 := h
    simp only [fillPhase, if_pos h, if_pos h']
    rfl
  · have h' : ¬ ((c.replace t es).commandToExecute.isSome ∧ (c.replace t es).argRemains > 0) := h
    simp only [fillPhase, if_neg h, if_neg h']

/-- Only the third phase looks at the storage. -/
theorem Conn.parsePhase_storage (buffer : Bytes) :
    (c.parsePhase buffer).1.storage = c.storage := by
  have h : c.parsePhase buffer = _ := parsePhase_replace buffer
  exact congrArg (fun x => x.1.storage) h

theorem Conn.fillPhase_storage (buffer : Bytes) :
    (c.fillPhase buffer).1.storage = c.storage := by
  have h : c.fillPhase buffer = _ := fillPhase_replace buffer
  exact congrArg (fun x => x.1.storage) h

end Phases

/-- The commands have results related by `E`, and keep the storages related by `R`. -/
def Executes (S : Storage σ) (T : Storage τ) (R : σ → τ → Prop) (E : Bytes → Bytes → Prop) : Prop :=
  ∀ (cmd : Command) args {s t}, R s t →
    E (cmd.execute S args s).1 (cmd.execute T args t).1 ∧
    R (cmd.execute S args s).2 (cmd.execute T args t).2

/-- The front ends run and fail together on results related by `E`; `O` relates their outputs. -/
structure FrontEnd.Matches (f : FrontEnd ω) (g : FrontEnd υ) (E : Bytes → Bytes → Prop)
    (O : ω → υ → Prop) : Prop where
  load : ∀ {o p}, O o p → (f.runningLoad o).1 = (g.runningLoad p).1 ∧
    O (f.runningLoad o).2 (g.runningLoad p).2
  respond : ∀ {r r' o p}, E r r' → O o p →
    (∃ e, f.respond r o = .error e ∧ g.respond r' p = .error e) ∨
    ∃ o' p', f.respond r o = .ok o' ∧ g.respond r' p = .ok p' ∧ O o' p'

/-- The same command with the same argument, and related results. -/
structure Executed.Matches (E : Bytes → Bytes → Prop) (e e' : Executed) : Prop where
  command : e.command = e'.command
  argument : e.argument = e'.argument
  result : E e.result e'.result

/-- Nothing but storage and results tells the two connections apart. -/
def Conn.Matches (R : σ → τ → Prop) (E : Bytes → Bytes → Prop) (c : Conn σ) (d : Conn τ) : Prop :=
  ∃ t es, d = c.replace t es ∧ R c.storage t ∧ List.Forall₂ (Executed.Matches E) c.executed es

namespace Conn.Matches

variable {S : Storage σ} {T : Storage τ} {R : σ → τ → Prop} {E : Bytes → Bytes → Prop}
  {O : ω → υ → Prop} {f : FrontEnd ω} {g : FrontEnd υ} {c : Conn σ} {d : Conn τ} {o : ω} {p : υ}

theorem create {s : σ} {t : τ} (hR : R s t) (argRemains : Nat) (negative : Bool) :
    Conn.Matches R E (.create s argRemains negative) (.create t argRemains negative) :=
  ⟨t, [], rfl, hR, .nil⟩

theorem fault (h : Conn.Matches R E c d) : c.fault = d.fault := by
  obtain ⟨t, es, rfl, -⟩ := h
  rfl

theorem executed (h : Conn.Matches R E c d) :
    List.Forall₂ (Executed.Matches E) c.executed d.executed := by
  obtain ⟨t, es, rfl, -, he⟩ := h
  exact he

theorem storage (h : Conn.Matches R E c d) : R c.storage d.storage := by
  obtain ⟨t, es, rfl, hR, -⟩ := h
  exact hR

theorem setFault (h : Conn.Matches R E c d) (e : Option Error) :
    Conn.Matches R E { c with fault := e } { d with fault := e } := by
  obtain ⟨t, es, rfl, h⟩ := h
  exact ⟨t, es, rfl, h⟩

theorem parsePhase (h : Conn.Matches R E c d) (buffer : Bytes) :
    Conn.Matches R E (c.parsePhase buffer).1 (d.parsePhase buffer).1 ∧
    (c.parsePhase buffer).2 = (d.parsePhase buffer).2 := by
  obtain ⟨t, es, rfl, hR, he⟩ := h
  rw [parsePhase_replace]
  refine ⟨⟨t, es, rfl, ?_, ?_⟩, rfl⟩
  · rwa [parsePhase_storage]
  · rwa [parsePhase_executed]

theorem fillPhase (h : Conn.Matches R E c d) (buffer : Bytes) :
    Conn.Matches R E (c.fillPhase buffer).1 (d.fillPhase buffer).1 ∧
    (c.fillPhase buffer).2 = (d.fillPhase buffer).2 := by
  obtain ⟨t, es, rfl, hR, he⟩ := h
  rw [fillPhase_replace]
  refine ⟨⟨t, es, rfl, ?_, ?_⟩, rfl⟩
  · rwa [fillPhase_storage]
  · rwa [fillPhase_executed]

section Loops

variable (hS : Executes S T R E) (hf : f.Matches g E O)

include hS hf

theorem runPhase (h : Conn.Matches R E c d) (ho : O o p) :
    Conn.Matches R E (c.runPhase S f o).1 (d.runPhase T g p).1 ∧
    O (c.runPhase S f o).2 (d.runPhase T g p).2 := by
  obtain ⟨t, es, rfl, hR, he⟩ := h
  simp only [Conn.runPhase, replace_command]
  cases c.commandToExecute with
  | none => exact ⟨⟨t, es, rfl, hR, he⟩, ho⟩
  | some cmd =>
    by_cases hzero : c.argRemains = 0
    · have hzero' : (c.replace t es).argRemains = 0 := hzero
      obtain ⟨hE, hR'⟩ := hS cmd c.argumentForCommand hR
      have he' : List.Forall₂ (Executed.Matches E) (c.execute S cmd).2.executed
          ((c.replace t es).execute T cmd).2.executed :=
        List.rel_append he (.cons ⟨rfl, rfl, hE⟩ .nil)
      simp only [if_pos hzero, if_pos hzero']
      rcases hf.respond hE ho with ⟨e, hl, hr⟩ | ⟨o', p', hl, hr, ho'⟩
      · simp only [Conn.execute, replace_argument, replace_storage, hl, hr]
        exact ⟨⟨_, _, rfl, hR', he'⟩, ho⟩
      · simp only [Conn.execute, replace_argument, replace_storage, hl, hr]
        exact ⟨⟨_, _, rfl, hR', he'⟩, ho'⟩
    · have hzero' : ¬ (c.replace t es).argRemains = 0 := hzero
      simp only [if_neg hzero, if_neg hzero']
      exact ⟨⟨t, es, rfl, hR, he⟩, ho⟩

theorem pass (h : Conn.Matches R E c d) (ho : O o p) (buffer : Bytes) :
    Conn.Matches R E (c.pass S f o buffer).1.1 (d.pass T g p buffer).1.1 ∧
    O (c.pass S f o buffer).1.2 (d.pass T g p buffer).1.2 ∧
    (c.pass S f o buffer).2 = (d.pass T g p buffer).2 := by
  obtain ⟨h1, hrest⟩ := h.parsePhase buffer
  simp only [Conn.pass]
  generalize c.parsePhase buffer = x at h1 hrest ⊢
  generalize d.parsePhase buffer = y at h1 hrest ⊢
  obtain ⟨c1, rest⟩ := x
  obtain ⟨d1, rest'⟩ := y
  obtain rfl : rest = rest' := hrest
  cases rest with
  | none => exact ⟨h1, ho, rfl⟩
  | some buffer =>
    obtain ⟨h2, hb⟩ := fillPhase h1 buffer
    obtain ⟨h3, ho'⟩ := runPhase hS hf h2 ho
    refine ⟨h3, ho', ?_⟩
    dsimp only
    rw [h3.fault, hb]

theorem processLoop (h : Conn.Matches R E c d) (fuel : Nat) (ho : O o p) (buffer : Bytes) :
    Conn.Matches R E (c.processLoop S f fuel o buffer).1 (d.processLoop T g fuel p buffer).1 ∧
    O (c.processLoop S f fuel o buffer).2 (d.processLoop T g fuel p buffer).2 := by
  induction fuel generalizing c d o p buffer with
  | zero => exact ⟨h, ho⟩
  | succ fuel ih =>
    obtain ⟨hload, ho'⟩ := hf.load ho
    simp only [Conn.processLoop, hload]
    split_ifs
    · obtain ⟨h1, ho1, hrest⟩ := pass hS hf h ho' buffer
      generalize c.pass S f (f.runningLoad o).2 buffer = x at h1 ho1 hrest ⊢
      generalize d.pass T g (g.runningLoad p).2 buffer = y at h1 ho1 hrest ⊢
      obtain ⟨⟨c1, o1⟩, rest⟩ := x
      obtain ⟨⟨d1, p1⟩, rest'⟩ := y
      obtain rfl : rest = rest' := hrest
      cases rest with
      | none => exact ⟨h1, ho1⟩
      | some buffer => exact ih h1 ho1 buffer
    · exact ⟨h, ho'⟩

/-- The loop of any server goes the same way through both. -/
theorem readLoop (h : Conn.Matches R E c d) (ho : O o p) (chunks : List Bytes) :
    Conn.Matches R E (c.readLoop S f o chunks).1 (d.readLoop T g p chunks).1 ∧
    O (c.readLoop S f o chunks).2 (d.readLoop T g p chunks).2 := by
  induction chunks generalizing c d o p with
  | nil => exact ⟨h, ho⟩
  | cons chunk chunks ih =>
    obtain ⟨hload, ho'⟩ := hf.load ho
    obtain ⟨h1, ho1⟩ : Conn.Matches R E (c.process S f (f.runningLoad o).2 chunk).1
        (d.process T g (g.runningLoad p).2 chunk).1 ∧
        O (c.process S f (f.runningLoad o).2 chunk).2 (d.process T g (g.runningLoad p).2 chunk).2 :=
      processLoop hS hf h _ ho' _
    simp only [Conn.readLoop, hload]
    generalize c.process S f (f.runningLoad o).2 chunk = x at h1 ho1 ⊢
    generalize d.process T g (g.runningLoad p).2 chunk = y at h1 ho1 ⊢
    obtain ⟨c1, o1⟩ := x
    obtain ⟨d1, p1⟩ := y
    dsimp only at h1 ho1 ⊢
    rw [h1.fault]
    split_ifs
    · exact ⟨h1, ho1⟩
    · exact ih h1 ho1
    · exact ⟨h, ho'⟩

end Loops

end Conn.Matches

/-- The connections go on alike in `DoRead`. -/
theorem Connection.doRead_matches {S : Storage σ} {T : Storage τ} {R : σ → τ → Prop}
    {E : Bytes → Bytes → Prop} {O : Pending → Pending → Prop} {epollerr : Bool} {c : Connection σ}
    {d : Connection τ} (hS : Executes S T R E)
    (hf : (nonBlocking epollerr).Matches (nonBlocking epollerr) E O)
    (h : Conn.Matches R E c.conn d.conn) (ha : c.alive = d.alive) (ho : O c.pending d.pending)
    (chunks : List Bytes) (last : ReadEnd) :
    Conn.Matches R E (c.doRead S epollerr chunks last).conn (d.doRead T epollerr chunks last).conn ∧
    (c.doRead S epollerr chunks last).alive = (d.doRead T epollerr chunks last).alive ∧
    O (c.doRead S epollerr chunks last).pending (d.doRead T epollerr chunks last).pending := by
  obtain ⟨h1, hp⟩ := Conn.Matches.readLoop hS hf (h.setFault none) ho chunks
  have hafter : ∀ {c : Conn σ} {d : Conn τ}, Conn.Matches R E c d →
      Conn.Matches R E (afterReads c last) (afterReads d last) := by
    intro c d h
    cases last with
    | closed => exact h
    | failed again strerror =>
      cases again with
      | true => exact h
      | false =>
        simp only [afterReads, h.fault]
        split_ifs
        · exact h
        · exact h.setFault _
  have h2 := hafter h1
  exact ⟨h2, by simp only [Connection.doRead, ha, h2.fault], hp⟩

theorem Executes.of_simulates {S : Storage σ} {T : Storage τ} {R : σ → τ → Prop}
    (h : Simulates S T R) : Executes S T R Eq :=
  fun cmd args _ _ hR => h.execute args hR cmd

theorem FrontEnd.matches_self (f : FrontEnd ω) : f.Matches f Eq Eq where
  load ho := ho ▸ ⟨rfl, rfl⟩
  respond {r r' o p} hE ho := by
    subst hE ho
    cases h : f.respond r o with
    | error e => exact .inl ⟨e, rfl, rfl⟩
    | ok o' => exact .inr ⟨o', o', rfl, rfl, rfl⟩

theorem Executed.matches_eq {e e' : Executed} (h : e.Matches Eq e') : e = e' := by
  obtain ⟨hc, ha, hr⟩ := h
  cases e
  cases e'
  simp_all

/-- Both have run the same commands with the same arguments. -/
theorem Conn.Matches.requests_eq {R : σ → τ → Prop} {E : Bytes → Bytes → Prop} {c : Conn σ}
    {d : Conn τ} (h : Conn.Matches R E c d) :
    c.executed.map (fun e => (e.command, e.argument)) =
      d.executed.map (fun e => (e.command, e.argument)) := by
  have he : List.Forall₂ Eq (c.executed.map fun e => (e.command, e.argument))
      (d.executed.map fun e => (e.command, e.argument)) := by
    apply List.forall₂_map_left_iff.mpr
    apply List.forall₂_map_right_iff.mpr
    exact h.executed.imp fun e e' he => by rw [he.command, he.argument]
  rwa [List.forall₂_eq_eq_eq] at he

theorem Conn.Matches.executed_eq {R : σ → τ → Prop} {c : Conn σ} {d : Conn τ}
    (h : Conn.Matches R Eq c d) : c.executed = d.executed := by
  have he := h.executed.imp fun _ _ => Executed.matches_eq
  rwa [List.forall₂_eq_eq_eq] at he

end Sysprog.Network
