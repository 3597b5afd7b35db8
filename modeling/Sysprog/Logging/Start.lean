import Sysprog.Logging.Pattern
import Sysprog.Logging.Reopen
import Sysprog.Logging.Select

namespace Sysprog.Logging

instance : DecidableEq Name := fun a b =>
  decidable_of_iff (a.chars = b.chars) ⟨Name.ext, congrArg Name.chars⟩

/-- `spdlog::level::level_enum`, in the order of its values. -/
inductive Level where
  | trace
  | debug
  | info
  | warn
  | err
  | critical
  | off
  deriving DecidableEq

def Level.toNat : Level → Nat
  | trace => 0
  | debug => 1
  | info => 2
  | warn => 3
  | err => 4
  | critical => 5
  | off => 6

namespace Config

inductive AppenderType where
  | stdout
  | stderr
  | file
  | daily
  | sized
  | syslog
  deriving DecidableEq

structure Appender where
  type : AppenderType
  color : Bool
  rotateAtHours : Int
  rotateAtMins : Int

inductive LoggerLevel where
  | critical
  | error
  | warning
  | info
  | debug
  | trace

/-- A `Logger` of the configuration. -/
structure LoggerEntry where
  level : LoggerLevel
  format : Bytes
  appenders : List Name

end Config

open Config

/-- A configuration: two maps, in the order of their keys. -/
structure Config where
  appenders : List (Name × Appender)
  loggers : List (Name × LoggerEntry)
  appenderKeys : (appenders.map Prod.fst).Nodup
  loggerKeys : (loggers.map Prod.fst).Nodup

inductive Output where
  | stdout
  | stderr
  deriving DecidableEq

/-- A sink that `Start` makes for an appender. A console without colors is the one instance. -/
inductive BaseSink where
  | console (output : Output)
  | color (output : Output) (appender : Name)
  | file (appender : Name)
  | daily (appender : Name)
  | sized (appender : Name)
  | syslog (appender : Name)
  deriving DecidableEq

/-- What a `sink_ptr` of a logger points to, if it is not null. -/
inductive SinkPtr where
  | base (sink : BaseSink)
  /-- The `dist_sink_st` made for a logger, with its sinks. -/
  | dist (logger : Name) (sinks : List (Option BaseSink))
  deriving DecidableEq

/-- The loggers of spdlog. -/
abbrev Registry := List (Name × Logger (Option SinkPtr) Level)

inductive StartError where
  /-- The constructor of a sink has thrown. -/
  | sink (appender : Name)
  /-- `logger with name '...' already exists`. -/
  | alreadyExists (name : Name)
  /-- `Root logger not configured`. -/
  | rootNotConfigured
  deriving DecidableEq

/-- The sink of an appender, where its constructor does not throw. -/
def sinkOf (name : Name) (appender : Appender) : BaseSink :=
  match appender.type with
  | .stdout => if appender.color then .color .stdout name else .console .stdout
  | .stderr => if appender.color then .color .stderr name else .console .stderr
  | .file => .file name
  | .daily => .daily name
  | .sized => .sized name
  | .syslog => .syslog name

/-- The constructor of its sink throws; `opened` says whether the file can be opened. -/
def Config.Appender.throws (appender : Appender) (opened : Bool) : Bool :=
  match appender.type with
  | .stdout | .stderr | .syslog => false
  | .file | .sized => !opened
  | .daily =>
    -- `Invalid rotation time in ctor`
    appender.rotateAtHours < 0 || appender.rotateAtHours > 23 ||
      appender.rotateAtMins < 0 || appender.rotateAtMins > 59 || !opened

/-- First build appenders. `opens` says for which of them the files can be opened. -/
def buildAppenders (opens : Name → Bool) :
    List (Name × Appender) → (Name → Option BaseSink) → Except StartError (Name → Option BaseSink)
  | [], results => .ok results
  | (name, appender) :: rest, results =>
    if appender.throws (opens name) then .error (.sink name)
    else buildAppenders opens rest (Function.update results name (some (sinkOf name appender)))

/-- Build Sink. -/
def buildSink (results : Name → Option BaseSink) (name : Name) : List Name → Option SinkPtr
  | [] => none
  | [appender] => (results appender).map .base
  | appenders => some (.dist name (appenders.map results))

/-- Read level. -/
def readLevel : LoggerLevel → Level
  | .trace => .trace
  | .debug => .debug
  | .info => .info
  | .warning => .warn
  | .error => .err
  | .critical => .critical

/-- Create logger. -/
def buildLogger (results : Name → Option BaseSink) (name : Name) (entry : LoggerEntry) :
    Logger (Option SinkPtr) Level where
  name := name.chars
  sinks := [buildSink results name entry.appenders]
  level := readLevel entry.level
  pattern := entry.format
  flushOn := .err

/-- Create and register loggers. What was registered before an exception stays. -/
def buildLoggers (results : Name → Option BaseSink) :
    List (Name × LoggerEntry) → Registry → Registry × Except StartError Unit
  | [], registry => (registry, .ok ())
  | (name, entry) :: rest, registry =>
    if (registry.lookup name).isSome then (registry, .error (.alreadyExists name))
    else buildLoggers results rest (registry ++ [(name, buildLogger results name entry)])

def rootName : Name := ⟨text "root", by decide⟩

/-- `Start`: the registry afterwards, and `_root`. -/
def start (cfg : Config) (opens : Name → Bool) (registry : Registry) :
    Registry × Except StartError (Logger (Option SinkPtr) Level) :=
  match buildAppenders opens cfg.appenders fun _ => none with
  | .error e => (registry, .error e)
  | .ok results =>
    match buildLoggers results cfg.loggers registry with
    | (registry, .error e) => (registry, .error e)
    | (registry, .ok ()) =>
      match registry.lookup rootName with
      | none => (registry, .error .rootNotConfigured)
      | some root => (registry, .ok root)

/-- How the delivery of a message ends. -/
inductive Fate where
  | done
  /-- A sink has thrown; `log` calls the error handler. -/
  | threw
  /-- A null pointer is dereferenced. -/
  | crashed
  deriving DecidableEq

/-- What a message has come to: the sinks it was written to and those that were flushed after it. -/
structure Delivery where
  written : List BaseSink
  flushed : List BaseSink
  fate : Fate
  deriving DecidableEq

/-- `_sink_it` of the `dist_sink_st`, or one sink alone. All sinks log every level. -/
def sinkIt (fails : BaseSink → Bool) : List (Option BaseSink) → List BaseSink × Fate
  | [] => ([], .done)
  | none :: _ => ([], .crashed)
  | some sink :: sinks =>
    if fails sink then ([], .threw)
    else
      let (written, fate) := sinkIt fails sinks
      (sink :: written, fate)

/-- The sinks behind a pointer of a logger. -/
def SinkPtr.parts : Option SinkPtr → List (Option BaseSink)
  | none => [none]
  | some (.base sink) => [some sink]
  | some (.dist _ sinks) => sinks

/-- `_sink_it` of a logger. -/
def loggerSinkIt (fails : BaseSink → Bool) : List (Option SinkPtr) → List BaseSink × Fate
  | [] => ([], .done)
  | ptr :: ptrs =>
    match sinkIt fails (SinkPtr.parts ptr) with
    | (written, .done) =>
      let (more, fate) := loggerSinkIt fails ptrs
      (written ++ more, fate)
    | r => r

/-- `log`, of a message with this level. -/
def Logger.log (fails : BaseSink → Bool) (lvl : Level) (logger : Logger (Option SinkPtr) Level) :
    Delivery :=
  if lvl.toNat < logger.level.toNat then ⟨[], [], .done⟩
  else
    match loggerSinkIt fails logger.sinks with
    | (written, .done) =>
      ⟨written, if logger.flushOn.toNat ≤ lvl.toNat ∧ lvl ≠ .off then written else [], .done⟩
    | (written, fate) => ⟨written, [], fate⟩

/-- The sink of an appender of the configuration. -/
def Config.sink (cfg : Config) (appender : Name) : Option BaseSink :=
  (cfg.appenders.lookup appender).map (sinkOf appender)

/-- What a message to a logger of the configuration comes to: it is written to its appenders in
order, up to one that is not there, which ends the process, or one that throws. -/
def Config.Delivers (cfg : Config) (fails : BaseSink → Bool) (lvl : Level) (entry : LoggerEntry)
    (d : Delivery) : Prop :=
  if lvl.toNat < (readLevel entry.level).toNat then d = ⟨[], [], .done⟩
  else ∃ before after, entry.appenders = before ++ after ∧
    before.map cfg.sink = d.written.map some ∧ (∀ sink ∈ d.written, fails sink = false) ∧
    match d.fate with
    | .done => after = [] ∧ entry.appenders ≠ [] ∧
        d.flushed = if Level.err.toNat ≤ lvl.toNat ∧ lvl ≠ .off then d.written else []
    | .threw => d.flushed = [] ∧ ∃ appender sink, after.head? = some appender ∧
        cfg.sink appender = some sink ∧ fails sink = true
    | .crashed => d.flushed = [] ∧ (entry.appenders = [] ∨
        ∃ appender, after.head? = some appender ∧ cfg.sink appender = none)

section Lookup

variable {α β : Type} {key : Name}

theorem lookup_isSome_iff (es : List (Name × α)) :
    (es.lookup key).isSome ↔ key ∈ es.map Prod.fst := by
  rw [List.lookup_isSome_iff]
  simp

theorem lookup_cons_ite (e : Name × α) (es : List (Name × α)) :
    (e :: es).lookup key = if key = e.1 then some e.2 else es.lookup key := by
  rw [List.lookup_cons]
  split_ifs with h
  · rw [beq_iff_eq.mpr h]
  · rw [beq_eq_false_iff_ne.mpr h]

/-- The values of a map change. -/
theorem lookup_map (f : Name → α → β) (es : List (Name × α)) :
    (es.map fun e => (e.1, f e.1 e.2)).lookup key = (es.lookup key).map (f key) := by
  induction es with
  | nil => rfl
  | cons e es ih =>
    rw [List.map_cons, lookup_cons_ite, lookup_cons_ite, ih]
    split_ifs with h
    · rw [h]
      rfl
    · rfl

end Lookup

section Build

variable {opens : Name → Bool} {results : Name → Option BaseSink}

theorem buildAppenders_ok {appenders : List (Name × Appender)}
    (keys : (appenders.map Prod.fst).Nodup)
    (made : ∀ e ∈ appenders, e.2.throws (opens e.1) = false)
    (first : Name → Option BaseSink) :
    ∃ results, buildAppenders opens appenders first = .ok results ∧
      ∀ name, results name = (appenders.lookup name).elim (first name) fun a =>
        some (sinkOf name a) := by
  induction appenders generalizing first with
  | nil => exact ⟨first, rfl, fun _ => rfl⟩
  | cons e appenders ih =>
    obtain ⟨name, appender⟩ := e
    rw [List.map_cons, List.nodup_cons] at keys
    obtain ⟨results, run, values⟩ := ih keys.2 (fun e he => made e (List.mem_cons_of_mem _ he))
      (Function.update first name (some (sinkOf name appender)))
    have good : ¬ appender.throws (opens name) = true := by
      rw [made (name, appender) List.mem_cons_self]
      exact Bool.false_ne_true
    refine ⟨results, by rw [buildAppenders, if_neg good, run], ?_⟩
    intro key
    rw [values, lookup_cons_ite]
    split_ifs with h
    · subst h
      have absent : appenders.lookup key = none := by
        rw [← Option.not_isSome_iff_eq_none, lookup_isSome_iff]
        exact keys.1
      simp [absent]
    · rw [Function.update_of_ne h]

theorem buildAppenders_error {appenders : List (Name × Appender)}
    (bad : ∃ e ∈ appenders, e.2.throws (opens e.1) = true)
    (first : Name → Option BaseSink) :
    ∃ e, buildAppenders opens appenders first = .error e := by
  induction appenders generalizing first with
  | nil => simp at bad
  | cons e appenders ih =>
    obtain ⟨name, appender⟩ := e
    rw [buildAppenders]
    split_ifs with h
    · exact ⟨_, rfl⟩
    · apply ih
      obtain ⟨e, he, hbad⟩ := bad
      rcases List.mem_cons.mp he with rfl | he
      · exact absurd hbad h
      · exact ⟨e, he, hbad⟩

/-- No name is taken. -/
theorem buildLoggers_ok {loggers : List (Name × LoggerEntry)} {registry : Registry}
    (keys : ((registry.map Prod.fst) ++ loggers.map Prod.fst).Nodup) :
    buildLoggers results loggers registry =
      (registry ++ loggers.map fun e => (e.1, buildLogger results e.1 e.2), .ok ()) := by
  induction loggers generalizing registry with
  | nil => simp [buildLoggers]
  | cons e loggers ih =>
    obtain ⟨name, entry⟩ := e
    rw [List.map_cons, List.nodup_append] at keys
    have free : ¬ (registry.lookup name).isSome = true := by
      rw [lookup_isSome_iff]
      intro taken
      exact keys.2.2 name taken name List.mem_cons_self rfl
    rw [buildLoggers, if_neg free, ih]
    · simp
    · rw [List.map_append, List.append_assoc]
      exact List.nodup_append.mpr keys

end Build

theorem select_isSome {α : Type} (get : Name → Option α) {root : Option α} (h : root.isSome = true)
    (name : Name) : (select get root name).isSome = true := by
  fun_induction select get root name with
  | case1 => rfl
  | case2 name missing more ih => exact ih
  | case3 => exact h

/-- `select` goes by the names alone. -/
theorem select_map {α β : Type} (f : α → β) (get : Name → Option α) (root : Option α)
    (name : Name) :
    select (fun n => (get n).map f) (root.map f) name = (select get root name).map f := by
  fun_induction select get root name with
  | case1 name result found =>
    rw [select, found]
    rfl
  | case2 name missing more ih =>
    rw [select, missing]
    simp only [Option.map_none]
    rw [dif_pos more, ih]
  | case3 name missing done =>
    rw [select, missing]
    simp only [Option.map_none]
    rw [dif_neg done]

section Deliver

variable {cfg : Config} {results : Name → Option BaseSink} {fails : BaseSink → Bool}

/-- A message goes from sink to sink, up to one that is not there or throws. -/
theorem sinkIt_spec (fails : BaseSink → Bool) (ptrs : List (Option BaseSink)) :
    ∃ after, ptrs = (sinkIt fails ptrs).1.map some ++ after ∧
      (∀ sink ∈ (sinkIt fails ptrs).1, fails sink = false) ∧
      match (sinkIt fails ptrs).2 with
      | .done => after = []
      | .threw => ∃ sink, after.head? = some (some sink) ∧ fails sink = true
      | .crashed => after.head? = some none := by
  induction ptrs with
  | nil => exact ⟨[], rfl, by simp [sinkIt], rfl⟩
  | cons ptr ptrs ih =>
    cases ptr with
    | none => exact ⟨none :: ptrs, rfl, by simp [sinkIt], rfl⟩
    | some sink =>
      rw [sinkIt]
      by_cases h : fails sink = true
      · rw [if_pos h]
        exact ⟨some sink :: ptrs, rfl, by simp, sink, rfl, h⟩
      · rw [if_neg h]
        obtain ⟨after, split, good, fate⟩ := ih
        refine ⟨after, ?_, ?_, fate⟩
        · dsimp only
          rw [List.map_cons, List.cons_append, ← split]
        · dsimp only
          intro b hb
          rcases List.mem_cons.mp hb with rfl | hb
          · exact Bool.eq_false_of_not_eq_true h
          · exact good b hb

/-- Behind the one pointer of a logger are the sinks of its appenders. -/
theorem parts_buildSink (results : Name → Option BaseSink) (name : Name) (appenders : List Name) :
    SinkPtr.parts (buildSink results name appenders) =
      if appenders = [] then [none] else appenders.map results := by
  match appenders with
  | [] => rfl
  | [appender] =>
    simp only [buildSink, List.map_cons, List.map_nil, reduceCtorEq, if_false]
    cases results appender with
    | none => rfl
    | some sink => rfl
  | first :: second :: rest => rfl

theorem loggerSinkIt_one (fails : BaseSink → Bool) (ptr : Option SinkPtr) :
    loggerSinkIt fails [ptr] = sinkIt fails (SinkPtr.parts ptr) := by
  rw [loggerSinkIt]
  generalize sinkIt fails (SinkPtr.parts ptr) = r
  obtain ⟨written, fate⟩ := r
  cases fate with
  | done => simp [loggerSinkIt]
  | threw | crashed => rfl

theorem log_buildLogger (fails : BaseSink → Bool) (lvl : Level) (name : Name)
    (entry : LoggerEntry) :
    (buildLogger results name entry).log fails lvl =
      if lvl.toNat < (readLevel entry.level).toNat then ⟨[], [], .done⟩
      else
        match sinkIt fails
            (if entry.appenders = [] then [none] else entry.appenders.map results) with
        | (written, .done) =>
          ⟨written, if Level.err.toNat ≤ lvl.toNat ∧ lvl ≠ .off then written else [], .done⟩
        | (written, fate) => ⟨written, [], fate⟩ := by
  rw [← parts_buildSink results name, ← loggerSinkIt_one]
  rfl

theorem log_delivers (values : ∀ name, results name = cfg.sink name) (fails : BaseSink → Bool)
    (lvl : Level) (name : Name) (entry : LoggerEntry) :
    cfg.Delivers fails lvl entry ((buildLogger results name entry).log fails lvl) := by
  have same : results = cfg.sink := funext values
  rw [log_buildLogger, same, Config.Delivers]
  by_cases low : lvl.toNat < (readLevel entry.level).toNat
  · rw [if_pos low, if_pos low]
  rw [if_neg low, if_neg low]
  by_cases none : entry.appenders = []
  · rw [if_pos none]
    exact ⟨[], [], none, rfl, by simp [sinkIt], rfl, .inl none⟩
  rw [if_neg none]
  obtain ⟨after, split, good, fate⟩ := sinkIt_spec fails (entry.appenders.map cfg.sink)
  generalize sinkIt fails (entry.appenders.map cfg.sink) = r at split good fate ⊢
  obtain ⟨written, how⟩ := r
  obtain ⟨before, later, whole, hbefore, hlater⟩ := List.map_eq_append_iff.mp split
  subst hlater
  have next : ∀ ptr, (later.map cfg.sink).head? = some ptr →
      ∃ appender, later.head? = some appender ∧ cfg.sink appender = ptr := by
    intro ptr h
    rw [List.head?_map, Option.map_eq_some_iff] at h
    exact h
  cases how with
  | done => exact ⟨before, later, whole, hbefore, good, List.map_eq_nil_iff.mp fate, none, rfl⟩
  | threw =>
    obtain ⟨sink, head, bad⟩ := fate
    obtain ⟨appender, here, found⟩ := next _ head
    exact ⟨before, later, whole, hbefore, good, rfl, appender, sink, here, found, bad⟩
  | crashed => exact ⟨before, later, whole, hbefore, good, rfl, .inr (next _ fate)⟩

end Deliver

section Reopening

/-- What `reopen_all` can tell of the sinks. -/
def sinkGraph : SinkPtr → Sink SinkPtr
  | .base (.file _) => .file
  | .base _ => .other
  | .dist _ sinks => .dist (sinks.map (Option.map .base))

theorem sinkGraph_file {sink : SinkPtr} : sinkGraph sink = .file ↔ ∃ file, sink = .base (.file file) := by
  cases sink with
  | base sink => cases sink <;> simp [sinkGraph]
  | dist logger sinks => simp [sinkGraph]

/-- There is nothing behind what is behind a sink. -/
theorem behind_behind {p q : Option SinkPtr} (h : q ∈ behind sinkGraph p) :
    behind sinkGraph q = [] := by
  cases p with
  | none => cases h
  | some ptr =>
    cases ptr with
    | base sink => cases sink <;> cases h
    | dist logger sinks =>
      obtain ⟨part, -, rfl⟩ := List.mem_map.mp h
      cases part with
      | none => rfl
      | some sink => cases sink <;> rfl

theorem reached_shallow {starts : List (Option SinkPtr)} {p : Option SinkPtr}
    (h : ReachedFrom (behind sinkGraph) starts p) :
    p ∈ starts ++ starts.flatMap (behind sinkGraph) := by
  obtain ⟨start, hs, path⟩ := h
  rw [List.mem_append, List.mem_flatMap]
  induction path with
  | refl => exact .inl hs
  | @tail q r _ step ih =>
    rcases ih with hq | ⟨first, -, hq⟩
    · exact .inr ⟨q, hq, step⟩
    · rw [behind_behind hq] at step
      cases step

theorem base_holds (sink : BaseSink) (p : SinkPtr) : ¬ Holds sinkGraph (.base sink) p := by
  rintro ⟨sinks, h, -⟩
  cases sink <;> cases h

/-- The file sinks behind the pointer of a logger are those of its appenders. -/
theorem file_behind (results : Name → Option BaseSink) (name : Name) (appenders : List Name)
    (file : Name) :
    (∃ first, buildSink results name appenders = some first ∧
      Relation.ReflTransGen (Holds sinkGraph) first (.base (.file file))) ↔
    ∃ appender ∈ appenders, results appender = some (.file file) := by
  match appenders with
  | [] => simp [buildSink]
  | [appender] =>
    simp only [buildSink, List.mem_singleton, exists_eq_left]
    constructor
    · rintro ⟨first, h, path⟩
      obtain ⟨sink, hsink, rfl⟩ := Option.map_eq_some_iff.mp h
      rcases path.cases_head with eq | ⟨next, step, -⟩
      · cases eq
        exact hsink
      · exact absurd step (base_holds sink next)
    · intro h
      exact ⟨.base (.file file), by rw [h]; rfl, .refl⟩
  | a :: b :: rest =>
    simp only [buildSink, Option.some.injEq]
    constructor
    · rintro ⟨first, rfl, path⟩
      rcases path.cases_head with eq | ⟨next, ⟨sinks, hs, hm⟩, path⟩
      · cases eq
      · cases hs
        obtain ⟨part, hpart, he⟩ := List.mem_map.mp hm
        obtain ⟨sink, rfl, rfl⟩ := Option.map_eq_some_iff.mp he
        rcases path.cases_head with eq | ⟨last, step, -⟩
        · cases eq
          exact List.mem_map.mp hpart
        · exact absurd step (base_holds sink last)
    · rintro ⟨appender, ha, h⟩
      refine ⟨_, rfl, .single ⟨_, rfl, ?_⟩⟩
      apply List.mem_map.mpr
      exact ⟨some (.file file), List.mem_map.mpr ⟨appender, ha, h⟩, rfl⟩

end Reopening

namespace Config

variable {cfg : Config} {opens : Name → Bool}

/-- The loggers that `Start` registers. -/
def registry (cfg : Config) : Registry :=
  cfg.loggers.map fun e => (e.1, buildLogger cfg.sink e.1 e.2)

/-- An appender writes to a file. -/
def Appender.OnDisk (appender : Appender) : Prop :=
  appender.type = .file ∨ appender.type = .daily ∨ appender.type = .sized

/-- Every file that is asked for can be opened, and daily ones rotate at a time of the day. -/
def Opens (cfg : Config) (opens : Name → Bool) : Prop :=
  ∀ e ∈ cfg.appenders, (e.2.OnDisk → opens e.1 = true) ∧
    (e.2.type = .daily → e.2.rotateAtHours ∈ Set.Icc 0 23 ∧ e.2.rotateAtMins ∈ Set.Icc 0 59)

/-- The file of an appender that a logger names. -/
def Names (cfg : Config) (file : Name) : Prop :=
  ∃ e ∈ cfg.loggers, ∃ appender ∈ e.2.appenders, cfg.sink appender = some (.file file)

/-- `reopen_all` on these loggers: each file that is named is reopened once, up to one that cannot
be opened again, which ends the loop with an exception. -/
def Reopens (cfg : Config) (again : SinkPtr → Bool) (order : Registry) : Prop :=
  ∃ t, Reaches (reopenTurn sinkGraph again) (reopenStart (order.map fun e => e.2.sinks)) t ∧
    reopenTurn sinkGraph again t = none ∧ t.reopened.Nodup ∧
    (∀ sink ∈ t.reopened, ∃ file, sink = .base (.file file) ∧ cfg.Names file) ∧
    (t.thrown = true ↔ ∃ file, cfg.Names file ∧ again (.base (.file file)) = false) ∧
    (t.thrown = false → ∀ file, cfg.Names file → .base (.file file) ∈ t.reopened)

theorem Appender.throws_eq_false {appender : Appender} {opened : Bool} :
    appender.throws opened = false ↔ (appender.OnDisk → opened = true) ∧
      (appender.type = .daily →
        appender.rotateAtHours ∈ Set.Icc 0 23 ∧ appender.rotateAtMins ∈ Set.Icc 0 59) := by
  cases ht : appender.type with
  | stdout | stderr | syslog => simp [throws, OnDisk, ht]
  | file | sized => simp [throws, OnDisk, ht]
  | daily =>
    simp only [throws, OnDisk, ht, Bool.or_eq_false_iff, decide_eq_false_iff_not, not_lt, gt_iff_lt,
      Bool.not_eq_eq_eq_not, Bool.not_false, Set.mem_Icc]
    tauto

theorem opens_iff : cfg.Opens opens ↔ ∀ e ∈ cfg.appenders, e.2.throws (opens e.1) = false :=
  forall₂_congr fun _ _ => Appender.throws_eq_false.symm

theorem buildAppenders_sink (h : cfg.Opens opens) :
    buildAppenders opens cfg.appenders (fun _ => none) = .ok cfg.sink := by
  obtain ⟨results, run, values⟩ := buildAppenders_ok cfg.appenderKeys (opens_iff.mp h) fun _ => none
  rw [run]
  congr
  funext name
  rw [values, sink]
  cases cfg.appenders.lookup name <;> rfl

theorem start_opens (h : cfg.Opens opens) :
    start cfg opens [] = (cfg.registry,
      match cfg.registry.lookup rootName with
      | none => .error .rootNotConfigured
      | some root => .ok root) := by
  rw [start, buildAppenders_sink h]
  dsimp only
  rw [buildLoggers_ok (by simpa using cfg.loggerKeys), List.nil_append]
  dsimp only [registry]
  split <;> rfl

theorem start_not_opens (h : ¬ cfg.Opens opens) (registry : Registry) :
    ∃ e, start cfg opens registry = (registry, .error e) := by
  have bad : ∃ e ∈ cfg.appenders, e.2.throws (opens e.1) = true := by
    simpa [opens_iff] using h
  obtain ⟨e, run⟩ := buildAppenders_error bad fun _ => none
  exact ⟨e, by rw [start, run]⟩

theorem lookup_registry (name : Name) :
    cfg.registry.lookup name = (cfg.loggers.lookup name).map (buildLogger cfg.sink name) :=
  lookup_map (buildLogger cfg.sink) cfg.loggers

/-- A logger that is there is not registered again. -/
theorem start_again (root : rootName ∈ cfg.loggers.map Prod.fst) (opens : Name → Bool) :
    ∃ e, start cfg opens cfg.registry = (cfg.registry, .error e) := by
  by_cases h : cfg.Opens opens
  · rw [start, buildAppenders_sink h]
    dsimp only
    cases hl : cfg.loggers with
    | nil => simp [hl] at root
    | cons e rest =>
      have taken : (cfg.registry.lookup e.1).isSome = true := by
        rw [lookup_registry, hl, lookup_cons_ite, if_pos rfl]
        rfl
      rw [buildLoggers, if_pos taken]
      exact ⟨_, rfl⟩
  · exact start_not_opens h cfg.registry

/-- `select` finds the logger made for the entry that it would find in the configuration. -/
theorem select_registry (root : rootName ∈ cfg.loggers.map Prod.fst) (name : Name) :
    ∃ n entry,
      select (cfg.registry.lookup ·) (cfg.registry.lookup rootName) name =
        some (buildLogger cfg.sink n entry) ∧
      select (cfg.loggers.lookup ·) (cfg.loggers.lookup rootName) name = some entry := by
  let pairs (n : Name) : Option (Name × LoggerEntry) := (cfg.loggers.lookup n).map (Prod.mk n)
  have made : (fun n => cfg.registry.lookup n) =
      fun n => (pairs n).map fun e => buildLogger cfg.sink e.1 e.2 := by
    funext n
    rw [lookup_registry, Option.map_map]
    rfl
  have entries : (fun n => cfg.loggers.lookup n) = fun n => (pairs n).map Prod.snd := by
    funext n
    rw [Option.map_map]
    exact Option.map_id'.symm
  have there : (pairs rootName).isSome = true := by
    rw [Option.isSome_map, lookup_isSome_iff]
    exact root
  obtain ⟨⟨n, entry⟩, found⟩ := Option.isSome_iff_exists.mp (select_isSome pairs there name)
  refine ⟨n, entry, ?_, ?_⟩
  · have atRoot := congrFun made rootName
    rw [atRoot, made, select_map, found]
    rfl
  · have atRoot := congrFun entries rootName
    rw [atRoot, entries, select_map, found]
    rfl

/-- The files attached to the loggers are those of the appenders that they name. -/
theorem attached_registry {order : Registry} (perm : order.Perm cfg.registry) (file : Name) :
    Attached sinkGraph (order.map fun e => e.2.sinks) (.base (.file file)) ↔ cfg.Names file := by
  constructor
  · rintro ⟨log, hlog, first, hfirst, path⟩
    obtain ⟨e, he, rfl⟩ := List.mem_map.mp hlog
    obtain ⟨⟨name, entry⟩, hentry, rfl⟩ := List.mem_map.mp (perm.mem_iff.mp he)
    have made := (List.mem_singleton.mp hfirst).symm
    refine ⟨(name, entry), hentry, ?_⟩
    exact (file_behind cfg.sink name entry.appenders file).mp ⟨first, made, path⟩
  · rintro ⟨⟨name, entry⟩, hentry, named⟩
    obtain ⟨first, made, path⟩ := (file_behind cfg.sink name entry.appenders file).mpr named
    refine ⟨[some first], List.mem_map.mpr ⟨(name, buildLogger cfg.sink name entry), ?_, ?_⟩, first,
      List.mem_singleton_self _, path⟩
    · exact perm.mem_iff.mpr (List.mem_map.mpr ⟨(name, entry), hentry, rfl⟩)
    · rw [← made]
      rfl

/-- What `reopen_all` does, in whatever order it goes through the loggers. -/
theorem reopen_registry (again : SinkPtr → Bool) (order : Registry)
    (perm : order.Perm cfg.registry) : cfg.Reopens again order := by
  let starts := collectSinks (order.map fun e => e.2.sinks)
  obtain ⟨t, run, halts, nodup, only, thrown, all⟩ := reopen_ends sinkGraph again
    (order.map fun e => e.2.sinks) (starts ++ starts.flatMap (behind sinkGraph)).toFinset
    (fun p h => List.mem_toFinset.mpr (reached_shallow h))
  refine ⟨t, run, halts, nodup, ?_, ?_, ?_⟩
  · intro sink hsink
    obtain ⟨hfile, hattached⟩ := only sink hsink
    obtain ⟨file, rfl⟩ := sinkGraph_file.mp hfile
    exact ⟨file, rfl, (attached_registry perm file).mp hattached⟩
  · rw [thrown]
    constructor
    · rintro ⟨sink, ⟨hfile, hattached⟩, hfails⟩
      obtain ⟨file, rfl⟩ := sinkGraph_file.mp hfile
      exact ⟨file, (attached_registry perm file).mp hattached, hfails⟩
    · rintro ⟨file, named, hfails⟩
      exact ⟨.base (.file file), ⟨rfl, (attached_registry perm file).mpr named⟩, hfails⟩
  · intro returned file named
    exact (all returned).2 (.base (.file file)) ⟨rfl, (attached_registry perm file).mpr named⟩

end Config

/-- `Start` on an empty registry succeeds just when all files can be opened, the rotation times of
daily ones are times of the day, and there is a logger `root`. Then `select` gives for every name the
logger of the entry that the configuration has for it, a message to that logger goes to the appenders
of the entry, `reopen_all` reopens once the file of each appender that a logger names, up to one that
cannot be opened again, and a second `Start` fails and changes nothing. -/
theorem logging_started (cfg : Config) (opens : Name → Bool) :
    let r := start cfg opens []
    ((∃ root, r.2 = .ok root) ↔ cfg.Opens opens ∧ rootName ∈ cfg.loggers.map Prod.fst) ∧
    ∀ root, r.2 = .ok root →
      (∀ name, ∃ logger entry, select (r.1.lookup ·) (some root) name = some logger ∧
        select (cfg.loggers.lookup ·) (cfg.loggers.lookup rootName) name = some entry ∧
        ∀ fails lvl, cfg.Delivers fails lvl entry (logger.log fails lvl)) ∧
      (∀ again, ∀ order : Registry, order.Perm r.1 → cfg.Reopens again order) ∧
      ∀ opens', ∃ e, start cfg opens' r.1 = (r.1, .error e) := by
  intro r
  by_cases h : cfg.Opens opens
  · have run : r = _ := Config.start_opens h
    have named : (cfg.registry.lookup rootName).isSome = true ↔
        rootName ∈ cfg.loggers.map Prod.fst := by
      rw [Config.lookup_registry, Option.isSome_map, lookup_isSome_iff]
    refine ⟨?_, ?_⟩
    · rw [run, and_iff_right h, ← named]
      cases cfg.registry.lookup rootName with
      | none => simp
      | some root => simp
    · intro root hroot
      rw [run] at hroot ⊢
      dsimp only at hroot ⊢
      have found : cfg.registry.lookup rootName = some root := by
        cases hl : cfg.registry.lookup rootName with
        | none =>
          rw [hl] at hroot
          cases hroot
        | some root' =>
          rw [hl] at hroot
          cases hroot
          rfl
      have there := named.mp (by rw [found]; rfl)
      refine ⟨?_, Config.reopen_registry, Config.start_again there⟩
      intro name
      obtain ⟨n, entry, made, chosen⟩ := Config.select_registry there name
      rw [found] at made
      exact ⟨_, entry, made, chosen, fun fails lvl => log_delivers (fun _ => rfl) fails lvl n entry⟩
  · obtain ⟨e, run⟩ := Config.start_not_opens h []
    have run : r = _ := run
    refine ⟨?_, ?_⟩
    · rw [run]
      simp [h]
    · intro root hroot
      rw [run] at hroot
      cases hroot

def consoleName : Name := ⟨text "console", by decide⟩
def dailyName : Name := ⟨text "daily", by decide⟩
def fileName : Name := ⟨text "file", by decide⟩
def networkName : Name := ⟨text "network", by decide⟩

/-- The console of the application, two files, and a logger of its own for the network. -/
def twoLoggers : Config where
  appenders :=
    [(consoleName, ⟨.stdout, true, -1, -1⟩), (dailyName, ⟨.daily, false, 2, 30⟩),
      (fileName, ⟨.file, false, -1, -1⟩)]
  loggers :=
    [(networkName, ⟨.info, text "%v", [consoleName, fileName]⟩),
      (rootName, ⟨.warning, text "%v", [consoleName, dailyName]⟩)]
  appenderKeys := by decide
  loggerKeys := by decide

theorem logging_started_two :
    ∃ root, (start twoLoggers (fun _ => true) []).2 = .ok root ∧
      (∀ name, ∃ logger,
        select ((start twoLoggers (fun _ => true) []).1.lookup ·) (some root) name = some logger) ∧
      twoLoggers.Reopens (fun _ => true) (start twoLoggers (fun _ => true) []).1 := by
  obtain ⟨started, result⟩ := logging_started twoLoggers fun _ => true
  obtain ⟨root, ok⟩ := started.mpr ⟨Config.opens_iff.mpr (by decide), by decide⟩
  obtain ⟨chosen, reopened, -⟩ := result root ok
  refine ⟨root, ok, ?_, reopened _ _ (List.Perm.refl _)⟩
  intro name
  obtain ⟨logger, -, found, -⟩ := chosen name
  exact ⟨logger, found⟩

end Sysprog.Logging
