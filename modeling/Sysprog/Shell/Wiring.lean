import Sysprog.Lib.Descriptors

namespace Sysprog.Shell

open Descriptors

/-- The shell in the loop of `main` over the commands: its descriptors, the name of the next pipe,
and the descriptors with which each child so far runs its command. -/
structure Wiring where
  table : FdTable
  pipes : Nat
  children : List FdTable

namespace Wiring

/-- From the `fork` to the `exec`. -/
def child (table : FdTable) (pipefd0 pipefd1 : Nat) : FdTable :=
  let table := table.dup2 pipefd0 0
  let table := table.close pipefd0
  let table := table.dup2 pipefd1 1
  table.close pipefd1

/-- One turn of the loop; returns `in_fd`. There is no result when `pipe` fails, as `pipefd` is used
all the same. -/
def step (limit i inFd : Nat) (s : Wiring) : Option (Nat × Wiring) := do
  let (pipefd0, pipefd1, table) ← s.table.pipe limit s.pipes
  let table := if i > 0 then table.dup2 inFd pipefd0 else table
  let inFd := pipefd1
  let children := s.children ++ [child table pipefd0 pipefd1]
  some (inFd, { table := table.close pipefd1, pipes := s.pipes + 1, children })

/-- The turns that remain, from `i` on. -/
def loop (limit : Nat) : Nat → Nat → Nat → Wiring → Option Wiring
  | 0, _, _, s => some s
  | n + 1, i, inFd, s => do
    let (inFd, s) ← s.step limit i inFd
    loop limit n (i + 1) inFd s

/-- The loop over `count` commands. `in_fd` has not been set before it. -/
def run (limit count inFd : Nat) (s : Wiring) : Option Wiring := s.loop limit count 0 inFd

/-- How a shell with the descriptors `shell` connects `n` commands: through one pipe from each to
the next, whose names begin at `m`. -/
structure Connects (n m : Nat) (shell : FdTable) (s : Wiring) : Prop where
  count : s.children.length = n
  joined : ∀ i a b, s.children[i]? = some a → s.children[i + 1]? = some b →
    ∃ p, a.get 1 = some (.writeEnd p) ∧ b.get 0 = some (.readEnd p)
  first : ∀ a, s.children[0]? = some a → a.get 0 = shell.get 0
  last : ∀ a, s.children[n - 1]? = some a → a.get 1 = shell.get 1
  closed : ∀ fd p, s.table.get fd = some (.writeEnd p) → p < m

/-- A child with nothing but its own pipe to read from and to write to. -/
structure OwnPipe (p : Nat) (a : FdTable) : Prop where
  stdin : a.get 0 = none ∨ a.get 0 = some (.readEnd p)
  stdout : a.get 1 = none ∨ a.get 1 = some (.writeEnd p)

theorem child_ownPipe {t u : FdTable} {p fd0 fd1 : Nat} (h : FdTable.Pipe t p fd0 fd1 u) :
    OwnPipe p (child u fd0 fd1) := by
  have lt := h.lt
  have stdin : (u.dup2 fd0 0).get 0 = some (.readEnd p) := FdTable.get_dup2 h.readEnd 0
  have write : ((u.dup2 fd0 0).close fd0).get fd1 = some (.writeEnd p) := by
    rw [FdTable.get_close_of_ne _ (by omega), FdTable.get_dup2_of_ne _ _ (by omega), h.writeEnd]
  constructor
  · by_cases zero : fd0 = 0
    · left
      rw [child, FdTable.get_close_of_ne _ (by omega), FdTable.get_dup2_of_ne _ _ (by omega), zero,
        FdTable.get_close_self]
    · right
      rw [child, FdTable.get_close_of_ne _ (by omega), FdTable.get_dup2_of_ne _ _ (by omega),
        FdTable.get_close_of_ne _ (by omega), stdin]
  · by_cases one : fd1 = 1
    · left
      rw [child, one, FdTable.get_close_self]
    · right
      rw [child, FdTable.get_close_of_ne _ (by omega), FdTable.get_dup2 write 1]

/-- What holds at the start of each turn: every child so far is left with its own pipe, `in_fd` is
the descriptor that `pipe` gives out next, and no write end is left open. -/
structure Turn (m : Nat) (shell : FdTable) (i inFd : Nat) (s : Wiring) : Prop where
  turn : i = s.children.length
  pipes : s.pipes = m + i
  inFd : i > 0 → inFd = s.table.lowest
  own : ∀ k a, s.children[k]? = some a → OwnPipe (m + k) a
  closed : ∀ fd p, s.table.get fd = some (.writeEnd p) → shell.get fd = some (.writeEnd p)

theorem turn_start (m : Nat) (shell : FdTable) (inFd : Nat) :
    Turn m shell 0 inFd ⟨shell, m, []⟩ :=
  ⟨rfl, rfl, fun h => absurd h (Nat.lt_irrefl 0), by simp, fun _ _ h => h⟩

/-- `in_fd` is the closed write end of the last pipe, the new pipe takes its number for its read
end, and so `dup2` copies that onto itself. -/
theorem Turn.step {m : Nat} {shell : FdTable} {i inFd : Nat} {s : Wiring}
    (h : Turn m shell i inFd s) {limit inFd' : Nat} {s' : Wiring}
    (hs : s.step limit i inFd = some (inFd', s')) : Turn m shell (i + 1) inFd' s' := by
  simp only [Wiring.step, Option.bind_eq_bind, Option.bind_eq_some_iff] at hs
  obtain ⟨⟨fd0, fd1, u⟩, hpipe, hs⟩ := hs
  have pipe := FdTable.pipe_spec hpipe
  have same : (if i > 0 then u.dup2 inFd fd0 else u) = u := by
    split
    · next pos => rw [h.inFd pos, ← pipe.lowest, FdTable.dup2_self]
    · rfl
  simp only [same, Option.some.injEq, Prod.mk.injEq] at hs
  obtain ⟨rfl, rfl⟩ := hs
  have own := child_ownPipe pipe
  refine ⟨by simp [h.turn], by simp only [h.pipes]; omega, fun _ => pipe.next.symm, ?_, ?_⟩
  · intro k a hk
    rw [List.getElem?_append] at hk
    split at hk
    · exact h.own k a hk
    · have last : k = i := by
        have := (List.getElem?_eq_some_iff.mp hk).1
        rw [List.length_singleton] at this
        have := h.turn
        omega
      rw [last, ← h.turn, Nat.sub_self] at hk
      rw [last, ← h.pipes]
      exact Option.some.inj hk ▸ own
  · intro fd p hfd
    change (u.close fd1).get fd = _ at hfd
    by_cases h1 : fd = fd1
    · rw [h1, FdTable.get_close_self] at hfd
      cases hfd
    rw [FdTable.get_close_of_ne _ h1] at hfd
    by_cases h0 : fd = fd0
    · rw [h0, pipe.readEnd] at hfd
      cases hfd
    · rw [pipe.others fd h0 h1] at hfd
      exact h.closed fd p hfd

theorem Turn.loop {m : Nat} {shell : FdTable} {i inFd : Nat} {s : Wiring}
    (h : Turn m shell i inFd s) {limit n : Nat} {s' : Wiring}
    (hs : s.loop limit n i inFd = some s') : ∃ inFd', Turn m shell (i + n) inFd' s' := by
  induction n generalizing i inFd s with
  | zero => exact ⟨inFd, Option.some.inj hs ▸ h⟩
  | succ n ih =>
    simp only [Wiring.loop, Option.bind_eq_bind, Option.bind_eq_some_iff] at hs
    obtain ⟨⟨fd, u⟩, hstep, hs⟩ := hs
    obtain ⟨fd', turn⟩ := ih (h.step hstep) hs
    exact ⟨fd', by rwa [show i + (n + 1) = i + 1 + n by omega]⟩

/-- Each child reads from the pipe that it alone writes to, and the shell keeps no write end. -/
theorem run_ownPipe {limit n inFd m : Nat} {shell : FdTable} {s : Wiring}
    (h : run limit n inFd ⟨shell, m, []⟩ = some s) :
    s.children.length = n ∧ (∀ k a, s.children[k]? = some a → OwnPipe (m + k) a) ∧
      ∀ fd p, s.table.get fd = some (.writeEnd p) → shell.get fd = some (.writeEnd p) := by
  obtain ⟨fd, turn⟩ := (turn_start m shell inFd).loop h
  exact ⟨by rw [← turn.turn, Nat.zero_add], turn.own, turn.closed⟩

/-- No pipeline of two commands or more is connected. -/
theorem run_not_connects (limit n inFd m : Nat) (shell : FdTable) (h : 2 ≤ n) :
    ¬ ∃ s, run limit n inFd ⟨shell, m, []⟩ = some s ∧ s.Connects n m shell := by
  intro connected
  obtain ⟨s, hrun, connects⟩ := connected
  obtain ⟨count, own, -⟩ := run_ownPipe hrun
  have h0 : s.children[0]? = some s.children[0] := List.getElem?_eq_getElem (by omega)
  have h1 : s.children[1]? = some s.children[1] := List.getElem?_eq_getElem (by omega)
  obtain ⟨p, write, read⟩ := connects.joined 0 _ _ h0 h1
  have writes := (own 0 _ h0).stdout
  have reads := (own 1 _ h1).stdin
  rw [write] at writes
  rw [read] at reads
  simp only [reduceCtorEq, Option.some.injEq, Description.writeEnd.injEq,
    Description.readEnd.injEq, false_or] at writes reads
  omega

/-- A shell on a terminal. -/
def terminal : FdTable := [some (.file 0), some (.file 0), some (.file 0)]

theorem run_not_connects_two :
    2 ≤ 2 ∧ ¬ ∃ s, run 1024 2 0 ⟨terminal, 0, []⟩ = some s ∧ s.Connects 2 0 terminal :=
  ⟨by decide, run_not_connects 1024 2 0 0 terminal (by decide)⟩

/-- Of two commands, the first writes to the pipe 0 and the second reads from the pipe 1. -/
theorem run_two : ∃ s, run 1024 2 0 ⟨terminal, 0, []⟩ = some s ∧ ¬ s.Connects 2 0 terminal := by
  refine ⟨_, rfl, ?_⟩
  intro connects
  obtain ⟨p, write, read⟩ := connects.joined 0 _ _ rfl rfl
  have pipe0 : Description.writeEnd 0 = .writeEnd p := Option.some.inj write
  have pipe1 : Description.readEnd 1 = .readEnd p := Option.some.inj read
  simp only [Description.writeEnd.injEq, Description.readEnd.injEq] at pipe0 pipe1
  omega

end Wiring

end Sysprog.Shell
