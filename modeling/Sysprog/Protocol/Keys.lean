import Sysprog.Protocol.Build

namespace Sysprog.Protocol

/-- The names that `Parse` takes for those of commands. -/
def names : List Bytes := storeNames ++ getNames ++ [text "stats"]

namespace Parser

/-- A call of a parser that changes it. -/
inductive Call where
  | parse (input : Bytes)
  | reset

/-- The parser behind a call, also behind one that has thrown. -/
def call (p : Parser) : Call → Parser
  | .parse input => (p.parse input).parser
  | .reset => p.reset

def session (p : Parser) (calls : List Call) : Parser := calls.foldl call p

/-- What the state says of the name and the keys. -/
def Keyed (p : Parser) : Prop :=
  match p.state with
  | .sName => p.keys = []
  | .spKey => p.name ∈ storeNames ∧ p.keys = []
  | .spFlags | .spExprTimeStart | .spExprTime | .spBytes =>
    p.name ∈ storeNames ∧ p.keys.length = 1
  | .sgKey => p.name ∈ getNames
  | .sLF => p.name ∈ storeNames ∧ p.keys.length = 1 ∨ p.name ∈ getNames ∧ p.keys ≠ [] ∨
    p.name = text "stats"
  | .sCR => False

variable {p q : Parser} {c : UInt8}

/-- The numbers of a header leave its name and its keys alone. -/
theorem step_field (hp : p.state ∈ [State.spFlags, .spExprTimeStart, .spExprTime, .spBytes])
    {pos : Nat} (hs : p.step pos c = .ok q) : q.name = p.name ∧ q.keys = p.keys ∧
      q.state ∈ [State.spFlags, .spExprTimeStart, .spExprTime, .spBytes, .sLF] := by
  simp only [List.mem_cons, List.not_mem_nil, or_false] at hp
  rcases hp with state | state | state | state <;>
    simp only [step, state, stepFlags, stepExprTimeStart, stepExprTime, stepBytes] at hs <;>
    split_ifs at hs <;> cases hs <;> simp [state]

theorem keyed_of_field (hn : p.name ∈ storeNames) (hk : p.keys.length = 1)
    (hp : p.state ∈ [State.spFlags, .spExprTimeStart, .spExprTime, .spBytes, .sLF]) : p.Keyed := by
  simp only [List.mem_cons, List.not_mem_nil, or_false] at hp
  rcases hp with state | state | state | state | state <;> simp [Keyed, state, hn, hk]

theorem keyed_reset (p : Parser) : p.reset.Keyed := rfl

/-- One case for each state: only the ends of the name and of a key bring something new. -/
theorem step_keyed (h : p.Keyed) {pos : Nat} (hs : p.step pos c = .ok q) : q.Keyed := by
  cases state : p.state with
  | sCR =>
    simp only [Keyed, state] at h
  | sName =>
    simp only [Keyed, state] at h
    simp only [step, state, stepName] at hs
    split_ifs at hs with ends store get stats
    · cases hs
      exact ⟨by simpa [storeNames] using store, h⟩
    · cases hs
      show p.name ∈ getNames
      simpa [getNames] using get
    · cases hs
      exact .inr (.inr stats)
    · cases hs
      show p.keys = []
      exact h
  | spKey =>
    simp only [Keyed, state] at h
    simp only [step, state, stepPutKey] at hs
    split_ifs at hs with ends
    · cases hs
      exact ⟨h.1, by simp [h.2]⟩
    · cases hs
      exact h
  | sgKey =>
    simp only [Keyed, state] at h
    simp only [step, state, stepGetKey] at hs
    split_ifs at hs with ends none more
    · cases hs
      exact .inr (.inl ⟨h, by simp⟩)
    · cases hs
      exact h
    · cases hs
      exact h
  | sLF =>
    simp only [Keyed, state] at h
    simp only [step, state, stepLF] at hs
    split_ifs at hs with ends
    cases hs
    exact h
  | spFlags | spExprTimeStart | spExprTime | spBytes =>
    simp only [Keyed, state] at h
    obtain ⟨name, keys, field⟩ := step_field (by simp [state]) hs
    rw [← name, ← keys] at h
    exact keyed_of_field h.1 h.2 field

theorem session_keyed (h : p.Keyed) (calls : List Call) : (p.session calls).Keyed := by
  induction calls generalizing p with
  | nil => exact h
  | cons c calls ih =>
    apply ih
    cases c with
    | parse input => exact parse_invariant Keyed (fun _ _ _ h _ hs => step_keyed h hs) h input
    | reset => exact keyed_reset p

theorem Keyed.name (h : p.Keyed) (hp : p.state ≠ .sName) : p.name ∈ names := by
  have store : p.name ∈ storeNames → p.name ∈ names := fun hn => by simp [names, hn]
  have get : p.name ∈ getNames → p.name ∈ names := fun hn => by simp [names, hn]
  cases state : p.state <;> simp only [Keyed, state] at h
  case sName => exact absurd state hp
  case sgKey => exact get h
  case sLF =>
    rcases h with h | h | h
    · exact store h.1
    · exact get h.1
    · simp [names, h]
  all_goals exact store h.1

/-- A header whose name is not of the other kinds has one key. -/
theorem Keyed.store (h : p.Keyed) (hp : p.state = .sLF) (hn : p.name ∈ storeNames) :
    p.keys.length = 1 := by
  simp only [Keyed, hp] at h
  rcases h with h | h | h
  · exact h.2
  · have apart : ∀ name ∈ storeNames, name ∉ getNames := by decide
    exact absurd h.1 (apart p.name hn)
  · rw [h] at hn
    exact absurd hn (by decide)

theorem Keyed.get (h : p.Keyed) (hp : p.state = .sLF) (hn : p.name ∈ getNames) : p.keys ≠ [] := by
  simp only [Keyed, hp] at h
  rcases h with h | h | h
  · intro none
    simp [none] at h
  · exact h.2
  · rw [h] at hn
    exact absurd hn (by decide)

theorem buildInsert_ne_undefined (command : Execute.InsertCommand → Execute.Command)
    (h : p.keys.length = 1) : p.buildInsert command ≠ .thrown .undefined := by
  obtain ⟨key, hk⟩ := List.length_eq_one_iff.mp h
  simp [buildInsert, hk]

/-- Whatever a parser has been given, `Build` finds the keys it asks for. -/
theorem keys_in_range (negative : Bool) (calls : List Call) :
    let p := (create negative).session calls
    (p.state = .sLF → p.name ∈ [text "set", text "add", text "append"] → p.keys.length = 1) ∧
      (p.state = .sLF → p.name = text "get" → p.keys ≠ []) ∧
      (p.state ≠ .sName → p.name ∈ names) ∧ p.build ≠ .thrown .undefined := by
  intro p
  have keyed : p.Keyed := session_keyed (keyed_reset _) calls
  have one : p.state = .sLF → p.name ∈ [text "set", text "add", text "append"] →
      p.keys.length = 1 := by
    intro line hn
    apply keyed.store line
    have some : ∀ name ∈ [text "set", text "add", text "append"], name ∈ storeNames := by decide
    exact some p.name hn
  refine ⟨one, ?_, keyed.name, ?_⟩
  · intro line hn
    apply keyed.get line
    rw [hn]
    decide
  · unfold build
    split_ifs with line set add append
    · simp
    · exact buildInsert_ne_undefined _ (one (by simpa using line) (by simp [set]))
    · exact buildInsert_ne_undefined _ (one (by simpa using line) (by simp [add]))
    · exact buildInsert_ne_undefined _ (one (by simpa using line) (by simp [append]))
    all_goals simp

end Parser

end Sysprog.Protocol
