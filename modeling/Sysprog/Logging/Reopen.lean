import Sysprog.Lib.Worklist

namespace Sysprog.Logging

/-- What the two casts of `reopen_all` can tell of a sink. -/
inductive Sink (σ : Type) where
  /-- A `dist_sink_st`, with its `sinks()`. A `sink_ptr` may be null. -/
  | dist (sinks : List (Option σ))
  /-- An `ext_rotate_file_sink_mt`. -/
  | file
  | other

variable {σ : Type}

/-- The variables of the loop of `reopen_all`, and the calls of `reopen` so far. -/
structure Reopening (σ : Type) where
  sinks : List (Option σ)
  seen : Finset (Option σ)
  reopened : List σ
  /-- The last of them has thrown, and the exception has left the loop. -/
  thrown : Bool

/-- `apply_all(collect_sinks)`, on the sinks of each logger. -/
def collectSinks (loggers : List (List (Option σ))) : List (Option σ) :=
  loggers.foldl (fun sinks logSink => sinks ++ logSink) []

def reopenStart (loggers : List (List (Option σ))) : Reopening σ :=
  ⟨collectSinks loggers, ∅, [], false⟩

/-- One turn of the loop of `reopen_all`. `opens` says whether the file of a sink can be opened
again; `file_helper` closes it first, and throws if it cannot. -/
def reopenTurn [DecidableEq σ] (graph : σ → Sink σ) (opens : σ → Bool) (r : Reopening σ) :
    Option (Reopening σ) :=
  if r.thrown then none
  else
    match r.sinks with
    | [] => none
    | psink :: sinks =>
      if psink ∈ r.seen then some { r with sinks }
      else
        let r := { r with sinks, seen := insert psink r.seen }
        match psink with
        -- both casts of a null pointer are null
        | none => some r
        | some sink =>
          match graph sink with
          | .dist more => some { r with sinks := r.sinks ++ more }
          | .file => some { r with reopened := r.reopened ++ [sink], thrown := !opens sink }
          | .other => some r

/-- A distribution sink holds a sink. -/
def Holds (graph : σ → Sink σ) (a b : σ) : Prop := ∃ sinks, graph a = .dist sinks ∧ some b ∈ sinks

/-- The sinks of the loggers, and those in their distribution sinks, at any depth. -/
def Attached (graph : σ → Sink σ) (loggers : List (List (Option σ))) (sink : σ) : Prop :=
  ∃ log ∈ loggers, ∃ first, some first ∈ log ∧ Relation.ReflTransGen (Holds graph) first sink

/-- What a pointer adds to the queue. -/
def behind (graph : σ → Sink σ) : Option σ → List (Option σ)
  | none => []
  | some sink =>
    match graph sink with
    | .dist sinks => sinks
    | _ => []

/-- The sink behind a pointer, if `reopen` is called on it. -/
def fileOf (graph : σ → Sink σ) : Option σ → Option σ
  | none => none
  | some sink =>
    match graph sink with
    | .file => some sink
    | _ => none

theorem collectSinks_eq (loggers : List (List (Option σ))) : collectSinks loggers = loggers.flatten := by
  have general : ∀ sinks, loggers.foldl (fun sinks logSink => sinks ++ logSink) sinks =
      sinks ++ loggers.flatten := by
    induction loggers with
    | nil => simp
    | cons log loggers ih =>
      intro sinks
      rw [List.foldl_cons, ih, List.flatten_cons, List.append_assoc]
  exact general []

theorem mem_behind {graph : σ → Sink σ} {a b : σ} :
    some b ∈ behind graph (some a) ↔ Holds graph a b := by
  cases h : graph a <;> simp [behind, Holds, h]

theorem fileOf_eq_some {graph : σ → Sink σ} {p : Option σ} {sink : σ} :
    fileOf graph p = some sink ↔ p = some sink ∧ graph sink = .file := by
  cases p with
  | none => simp [fileOf]
  | some a =>
    constructor
    · intro h
      cases hg : graph a with
      | file =>
        obtain rfl : a = sink := by simpa [fileOf, hg] using h
        exact ⟨rfl, hg⟩
      | dist sinks => simp [fileOf, hg] at h
      | other => simp [fileOf, hg] at h
    · rintro ⟨eq, hg⟩
      obtain rfl : a = sink := by simpa using eq
      simp [fileOf, hg]

/-- A null pointer leads nowhere, so that a way to a sink only meets sinks. -/
theorem path_of_behind {graph : σ → Sink σ} {start : Option σ} {sink : σ}
    (path : Relation.ReflTransGen (fun p q => q ∈ behind graph p) start (some sink)) :
    ∃ first, start = some first ∧ Relation.ReflTransGen (Holds graph) first sink := by
  induction path using Relation.ReflTransGen.head_induction_on with
  | refl => exact ⟨sink, rfl, .refl⟩
  | @head p q hpq _ ih =>
    obtain ⟨b, rfl, rest⟩ := ih
    cases p with
    | none => simp [behind] at hpq
    | some a => exact ⟨a, rfl, rest.head (mem_behind.mp hpq)⟩

/-- What the search reaches is what is attached. -/
theorem reachedFrom_iff (graph : σ → Sink σ) (loggers : List (List (Option σ))) (sink : σ) :
    ReachedFrom (behind graph) (collectSinks loggers) (some sink) ↔ Attached graph loggers sink := by
  rw [collectSinks_eq]
  constructor
  · rintro ⟨start, hstart, path⟩
    obtain ⟨log, hlog, hmem⟩ := List.mem_flatten.mp hstart
    obtain ⟨first, rfl, inside⟩ := path_of_behind path
    exact ⟨log, hlog, first, hmem, inside⟩
  · rintro ⟨log, hlog, first, hfirst, path⟩
    refine ⟨some first, List.mem_flatten.mpr ⟨log, hlog, hfirst⟩, ?_⟩
    exact path.lift some (fun a b hab => mem_behind.mpr hab)

/-- The calls of `reopen` are those on the file sinks that a search has looked at. -/
structure Searches (graph : σ → Sink σ) (r : Reopening σ) (w : Worklist (Option σ)) : Prop where
  sinks : r.sinks = w.queue
  seen : ∀ p, p ∈ r.seen ↔ p ∈ w.seen
  reopened : r.reopened = w.seen.filterMap (fileOf graph)

theorem searches_start (graph : σ → Sink σ) (loggers : List (List (Option σ))) :
    Searches graph (reopenStart loggers) ⟨collectSinks loggers, []⟩ :=
  ⟨rfl, by simp [reopenStart], rfl⟩

/-- An exception has left the loop if a call of `reopen` could not open the file, and only then. -/
def Reopening.Reports (opens : σ → Bool) (r : Reopening σ) : Prop :=
  r.thrown = true ↔ ∃ sink ∈ r.reopened, opens sink = false

section

variable [DecidableEq σ] {graph : σ → Sink σ} {opens : σ → Bool}

/-- A pointer met for the first time. -/
theorem reopenTurn_fresh {r : Reopening σ} {psink : Option σ} {sinks : List (Option σ)}
    (hq : r.sinks = psink :: sinks) (hs : psink ∉ r.seen) (ht : r.thrown = false) :
    reopenTurn graph opens r = some ⟨sinks ++ behind graph psink, insert psink r.seen,
      r.reopened ++ (fileOf graph psink).toList, (fileOf graph psink).any (!opens ·)⟩ := by
  cases psink with
  | none => simp [reopenTurn, hq, hs, ht, behind, fileOf]
  | some sink => cases hg : graph sink <;> simp [reopenTurn, hq, hs, ht, behind, fileOf, hg]

/-- A turn is a step of the search, as long as nothing has thrown. -/
theorem Searches.turn {r : Reopening σ} {w v : Worklist (Option σ)} (h : Searches graph r w)
    (good : r.Reports opens) (ht : r.thrown = false) (hs : Worklist.Steps (behind graph) w v) :
    ∃ t, reopenTurn graph opens r = some t ∧ Searches graph t v ∧ t.Reports opens := by
  cases hs with
  | @skip psink sinks seen hseen =>
    have hr : psink ∈ r.seen := (h.seen psink).mpr hseen
    refine ⟨{ r with sinks }, ?_, ⟨rfl, h.seen, h.reopened⟩, good⟩
    simp [reopenTurn, h.sinks, hr, ht]
  | @visit psink sinks seen hseen =>
    have hr : psink ∉ r.seen := fun hr => hseen ((h.seen psink).mp hr)
    refine ⟨_, reopenTurn_fresh h.sinks hr ht, ⟨rfl, ?_, ?_⟩, ?_⟩
    · intro p
      have := h.seen p
      simp only [Finset.mem_insert, List.mem_append, List.mem_singleton]
      tauto
    · show r.reopened ++ (fileOf graph psink).toList = (seen ++ [psink]).filterMap (fileOf graph)
      rw [h.reopened, List.filterMap_append]
      cases hf : fileOf graph psink <;> simp [hf]
    · -- the calls before this one have all returned
      have before : ¬ ∃ sink ∈ r.reopened, opens sink = false := by
        intro failed
        rw [good.mpr failed] at ht
        cases ht
      simp only [Reopening.Reports]
      constructor
      · intro hany
        obtain ⟨sink, hf, hfails⟩ := (Option.any_eq_true _ _).mp hany
        exact ⟨sink, by simp [hf], by simpa using hfails⟩
      · rintro ⟨sink, hmem, hfails⟩
        rcases List.mem_append.mp hmem with hmem | hmem
        · exact absurd ⟨sink, hmem, hfails⟩ before
        · rw [Option.mem_toList.mp hmem]
          simp [hfails]

/-- The loop follows a search to its end, or to the first call of `reopen` that throws. -/
theorem Searches.reaches {r : Reopening σ} {w v : Worklist (Option σ)} (h : Searches graph r w)
    (good : r.Reports opens) (run : Reaches (Worklist.step (behind graph)) w v) :
    ∃ t u, Reaches (reopenTurn graph opens) r t ∧ Reaches (Worklist.step (behind graph)) w u ∧
      Searches graph t u ∧ t.Reports opens ∧ (t.thrown = true ∨ u = v) := by
  induction run with
  | refl => exact ⟨r, w, .refl, .refl, h, good, .inr rfl⟩
  | tail _ hstep ih =>
    obtain ⟨t, u, run, search, ht, reports, far⟩ := ih
    cases thrown : t.thrown with
    | true => exact ⟨t, u, run, search, ht, reports, .inl thrown⟩
    | false =>
      obtain rfl := far.resolve_left (by simp [thrown])
      obtain ⟨t', turn, ht', reports'⟩ := ht.turn reports thrown (Worklist.step_cases hstep)
      exact ⟨t', _, run.tail turn, search.tail hstep, ht', reports', .inr rfl⟩

/-- Where only finitely many sinks can be reached the loop ends, and has called `reopen` at most once
on each file sink attached to a logger and on nothing else. It ends with an exception if and only if
one of these cannot be opened again; else `reopen` has been called on all of them. -/
theorem reopen_ends (graph : σ → Sink σ) (opens : σ → Bool) (loggers : List (List (Option σ)))
    (U : Finset (Option σ))
    (bounded : ∀ p, ReachedFrom (behind graph) (collectSinks loggers) p → p ∈ U) :
    ∃ t, Reaches (reopenTurn graph opens) (reopenStart loggers) t ∧
      reopenTurn graph opens t = none ∧ t.reopened.Nodup ∧
      (∀ sink ∈ t.reopened, graph sink = .file ∧ Attached graph loggers sink) ∧
      (t.thrown = true ↔ ∃ sink, (graph sink = .file ∧ Attached graph loggers sink) ∧
        opens sink = false) ∧
      (t.thrown = false → t.sinks = [] ∧
        ∀ sink, graph sink = .file ∧ Attached graph loggers sink → sink ∈ t.reopened) := by
  obtain ⟨w, whole, halts, -, reached⟩ := Worklist.search_ends (behind graph) _ U bounded
  have none_yet : (reopenStart loggers).Reports opens := by simp [Reopening.Reports, reopenStart]
  obtain ⟨t, u, run, part, search, reports, far⟩ :=
    (searches_start graph loggers).reaches none_yet whole
  have found : Worklist.Search (behind graph) (collectSinks loggers) u :=
    part.invariant _ (fun a b ha hab => ha.step (Worklist.step_cases hab))
      (Worklist.search_start _ _)
  have nodup : t.reopened.Nodup := by
    rw [search.reopened]
    apply found.nodup.filterMap
    intro p q sink hp hq
    rw [(fileOf_eq_some.mp hp).1, (fileOf_eq_some.mp hq).1]
  have only : ∀ sink ∈ t.reopened, graph sink = .file ∧ Attached graph loggers sink := by
    intro sink hsink
    rw [search.reopened] at hsink
    obtain ⟨p, hp, hf⟩ := List.mem_filterMap.mp hsink
    obtain ⟨rfl, hfile⟩ := fileOf_eq_some.mp hf
    exact ⟨hfile, (reachedFrom_iff graph loggers sink).mp (found.reached _ (.inl hp))⟩
  have all : t.thrown = false → t.sinks = [] ∧
      ∀ sink, graph sink = .file ∧ Attached graph loggers sink → sink ∈ t.reopened := by
    intro returned
    obtain rfl := far.resolve_left (by simp [returned])
    refine ⟨search.sinks.trans (Worklist.step_eq_none.mp halts), ?_⟩
    rintro sink ⟨hfile, hattached⟩
    rw [search.reopened]
    exact List.mem_filterMap.mpr ⟨some sink, (reached _).mpr
      ((reachedFrom_iff graph loggers sink).mpr hattached), fileOf_eq_some.mpr ⟨rfl, hfile⟩⟩
  refine ⟨t, run, ?_, nodup, only, ?_, all⟩
  · cases thrown : t.thrown with
    | true => simp [reopenTurn, thrown]
    | false => simp [reopenTurn, (all thrown).1]
  · constructor
    · intro thrown
      obtain ⟨sink, hmem, hfails⟩ := reports.mp thrown
      exact ⟨sink, only sink hmem, hfails⟩
    · rintro ⟨sink, hsink, hfails⟩
      by_contra returned
      exact returned (reports.mpr ⟨sink, (all (by simpa using returned)).2 sink hsink, hfails⟩)

/-- The loop comes to its end, with `reopen` called exactly once on each file sink attached to a
logger and on nothing else. -/
def ReopensAll (graph : σ → Sink σ) (opens : σ → Bool) (loggers : List (List (Option σ))) : Prop :=
  ∃ t, Reaches (reopenTurn graph opens) (reopenStart loggers) t ∧ t.sinks = [] ∧ t.thrown = false ∧
    (∀ sink, graph sink = .file → Attached graph loggers sink → t.reopened.count sink = 1) ∧
    ∀ sink ∈ t.reopened, graph sink = .file ∧ Attached graph loggers sink

/-- `reopen_all` reopens the files attached to the loggers, each once and nothing else, exactly when
each of them can be opened again. -/
theorem reopenAll_iff [Fintype σ] (graph : σ → Sink σ) (opens : σ → Bool)
    (loggers : List (List (Option σ))) :
    ReopensAll graph opens loggers ↔
      ∀ sink, graph sink = .file → Attached graph loggers sink → opens sink = true := by
  obtain ⟨t, run, halts, nodup, only, thrown, all⟩ :=
    reopen_ends graph opens loggers Finset.univ (fun p _ => Finset.mem_univ p)
  constructor
  · rintro ⟨t', run', hq, returned, -⟩ sink hfile hattached
    have halts' : reopenTurn graph opens t' = none := by simp [reopenTurn, hq]
    obtain rfl := run.halt_unique run' halts halts'
    by_contra hfails
    rw [thrown.mpr ⟨sink, ⟨hfile, hattached⟩, by simpa using hfails⟩] at returned
    cases returned
  · intro hopens
    have returned : t.thrown = false := by
      by_contra h
      obtain ⟨sink, ⟨hfile, hattached⟩, hfails⟩ := thrown.mp (by simpa using h)
      rw [hopens sink hfile hattached] at hfails
      cases hfails
    obtain ⟨hq, every⟩ := all returned
    refine ⟨t, run, hq, returned, ?_, only⟩
    intro sink hfile hattached
    exact List.count_eq_one_of_mem nodup (every sink ⟨hfile, hattached⟩)

end

/-- The files of two loggers, the first of which cannot be opened again: the second is not
reopened. -/
theorem reopenAll_leaves :
    (∃ t, Reaches (reopenTurn (fun _ : Bool => .file) id) (reopenStart [[some false], [some true]]) t ∧
      reopenTurn (fun _ : Bool => .file) id t = none ∧ t.reopened = [false] ∧ t.thrown = true) ∧
    Attached (fun _ : Bool => .file) [[some false], [some true]] true ∧
    ¬ ReopensAll (fun _ : Bool => .file) id [[some false], [some true]] := by
  have run : Reaches (reopenTurn (fun _ : Bool => .file) id)
      (reopenStart [[some false], [some true]]) ⟨[some true], {some false}, [false], true⟩ :=
    .single rfl
  refine ⟨⟨_, run, rfl, rfl, rfl⟩, ⟨[some true], by simp, true, by simp, .refl⟩, ?_⟩
  rintro ⟨t, run', hq, returned, -⟩
  have halts : reopenTurn (fun _ : Bool => .file) id t = none := by simp [reopenTurn, hq]
  obtain rfl := run.halt_unique run' rfl halts
  cases returned

end Sysprog.Logging
