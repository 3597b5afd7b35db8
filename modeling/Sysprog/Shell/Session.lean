import Sysprog.Shell.Wiring
import Sysprog.Shell.Pipeline

namespace Sysprog.Shell

open Descriptors

/-- How the loop of `main` ends. -/
inductive Ending where
  /-- With `Bye!`. -/
  | bye
  | parse (fault : Fault)
  /-- In `strcmp`, on a name that is `NULL`. -/
  | noName
  /-- `pipe` fails, and `pipefd` is used all the same. -/
  | pipe
  /-- At an entry of `commands` that was never filled. -/
  | unfilled
  deriving DecidableEq

/-- The shell at the head of the loop of `main`: what its standard input has yet to return, its
descriptors, the name of the next pipe, and what it has run: for each line the children, each with
its descriptors and its command. Every `fork` succeeds, and every child ends. -/
structure Session where
  input : Bytes
  table : FdTable
  pipes : Nat
  ran : List (List (FdTable × Cmd))

/-- `strcmp(token, z) == 0`. -/
def equals (token : Token) (z : Bytes) : Bool := token.take (z.length + 1) = (z ++ [0]).map some

def entry (cmds : CmdLine) (i : Nat) : Except Ending Cmd :=
  (cmds.commands.load i).elim (.error .unfilled) .ok

namespace Session

/-- `wait`: the children of the last line have ended. They share the standard input of the shell,
and `leave` is what it has yet to return after them: a program may have read from it, and the
`exit(0)` behind an `execvp` that fails sets the offset of a file back. -/
def await (leave : Session → Bytes) (s : Session) : Session := { s with input := leave s }

/-- What `main` does with a line that is no `exit`. -/
def launch (limit : Nat) (leave : Session → Bytes) (s : Session) (cmds : CmdLine) (rest : Bytes) :
    Except Ending Session :=
  if cmds.count = 1 then do
    let cmd ← entry cmds 0
    .ok (await leave { s with input := rest, ran := s.ran ++ [[(s.table, cmd)]] })
  else do
    -- `in_fd` is not set before the loop, and its first turn does not read it
    let wiring ← (Wiring.run limit cmds.count 0 ⟨s.table, s.pipes, []⟩).elim (.error .pipe) .ok
    let commands ← (List.range cmds.count).mapM (entry cmds)
    .ok (await leave
      ⟨rest, wiring.table, wiring.pipes, s.ran ++ [wiring.children.zip commands]⟩)

/-- One turn of the loop of `main`. What is printed is left out. -/
def turn (limit : Nat) (leave : Session → Bytes) (s : Session) : Except Ending Session := do
  let (cmds, rest) ← (parseLine s.input).mapError .parse
  let first ← entry cmds 0
  let name ← first.name.elim (.error .noName) .ok
  if equals name (text "exit\n") then .error .bye
  else s.launch limit leave cmds rest

/-- The loop of `main`, for as many turns at most. -/
def loop (limit : Nat) (leave : Session → Bytes) : Nat → Session → Option (Ending × Session)
  | 0, _ => none
  | n + 1, s =>
    match s.turn limit leave with
    | .ok s' => loop limit leave n s'
    | .error e => some (e, s)

end Session

theorem equals_iff {token : Token} {w z : Bytes} (h : IsString token w) (hz : (0 : UInt8) ∉ z) :
    equals token z = true ↔ cString w = z := by
  obtain ⟨rest, rfl⟩ := h
  rw [equals, decide_eq_true_iff]
  induction z generalizing w with
  | nil =>
    cases w with
    | nil => simp [cString]
    | cons c w => by_cases hc : c = 0 <;> simp [cString, hc]
  | cons x z ih =>
    rw [List.mem_cons, not_or] at hz
    cases w with
    | nil => simp [cString, hz.1]
    | cons c w =>
      have tail := ih hz.2 (w := w)
      by_cases hc : c = 0
      · simp [cString, hc, hz.1]
      · have head : cString (c :: w) = c :: cString w := by simp [cString, hc]
        rw [head, List.cons.injEq, ← tail]
        simp

/-- A newline in a word has been stored as a character. -/
theorem newline_mem_marks {marks : List Mark} {cur w : Bytes} (hw : w ∈ wordsFrom cur marks)
    (h : byte '\n' ∈ w) : byte '\n' ∈ cur ∨ .char (byte '\n') ∈ marks := by
  induction marks generalizing cur with
  | nil =>
    by_cases hc : cur = []
    · simp [wordsFrom, hc] at hw
    · have eq : w = cur := by simpa [wordsFrom, hc] using hw
      exact .inl (eq ▸ h)
  | cons m marks ih =>
    cases m with
    | char c =>
      rcases ih hw with h | h
      · rw [List.mem_append, List.mem_singleton] at h
        rcases h with h | h
        · exact .inl h
        · exact .inr (h ▸ List.mem_cons_self)
      · exact .inr (List.mem_cons_of_mem _ h)
    | bar =>
      rcases ih hw with h | h
      · rw [List.mem_append, List.mem_singleton] at h
        rcases h with h | h
        · exact .inl h
        · exact absurd h (by decide)
      · exact .inr (List.mem_cons_of_mem _ h)
    | stop =>
      rcases List.mem_cons.mp hw with rfl | hw
      · exact .inl h
      · rcases ih hw with h | h
        · exact absurd h List.not_mem_nil
        · exact .inr (List.mem_cons_of_mem _ h)

/-- Only between double quotes is a newline stored. -/
theorem quote_of_newline {mode : Mode} {prev : UInt8} {input : Bytes}
    (h : .char (byte '\n') ∈ (scan mode prev input).1) : mode = .dquote ∨ byte '"' ∈ input := by
  have ne : byte '\n' ≠ byte '\\' := by decide
  induction mode, prev, input using scan.induct with
  | _ => simp_all [scan, emit] <;> grind

theorem scan_suffix (mode : Mode) (prev : UInt8) (input : Bytes) :
    (scan mode prev input).2 <:+ input.tail := by
  induction mode, prev, input using scan.induct with
  | _ => simp_all [scan, emit] <;> exact List.IsSuffix.trans ‹_› (List.tail_suffix _)

theorem entry_error {cmds : CmdLine} {i : Nat} {e : Ending} (h : entry cmds i = .error e) :
    e = .unfilled := by
  rw [entry] at h
  cases hload : cmds.commands.load i with
  | none =>
    rw [hload] at h
    exact (Except.error.inj h).symm
  | some cmd =>
    rw [hload] at h
    cases h

theorem entries_error {cmds : CmdLine} {is : List Nat} {e : Ending}
    (h : is.mapM (entry cmds) = .error e) : e = .unfilled := by
  induction is with
  | nil => cases h
  | cons i is ih =>
    rw [List.mapM_cons] at h
    cases hi : entry cmds i with
    | error e' =>
      rw [hi] at h
      exact Except.error.inj h ▸ entry_error hi
    | ok cmd =>
      rw [hi] at h
      cases his : is.mapM (entry cmds) with
      | error e' =>
        simp only [his, bind, Except.bind] at h
        exact ih (his.trans h)
      | ok commands =>
        simp only [his, bind, Except.bind] at h
        cases h

theorem parseLine_rest {input rest : Bytes} {cmds : CmdLine}
    (h : parseLine input = .ok (cmds, rest)) : rest = lineRest input := by
  obtain ⟨fits, space, count, -⟩ := parseLine_inv h
  obtain ⟨_, _, ok, -⟩ := parseLine_ok fits (count ▸ space)
  rw [h] at ok
  exact (Prod.mk.inj (Except.ok.inj ok)).2

theorem head_splitOnPPrepend {α : Type*} (p : α → Bool) (xs as : List α) :
    (List.splitOnPPrepend p xs as).head? = some (as.reverse ++ xs.takeWhile fun x => !p x) := by
  induction xs generalizing as with
  | nil => simp
  | cons x xs ih =>
    cases hx : p x with
    | true =>
      rw [List.splitOnPPrepend_cons_pos hx]
      simp [hx]
    | false =>
      rw [List.splitOnPPrepend_cons_neg hx, ih]
      simp [hx]

/-- The words of the first command are the first words of the line. -/
theorem head_lineCommands (input : Bytes) :
    (lineCommands input).head? = some ((lineWords input).takeWhile fun w => !readsBar w) :=
  head_splitOnPPrepend readsBar (lineWords input) []

/-- The first entry of a table is that of the first command. -/
theorem entry_zero {input rest : Bytes} {cmds : CmdLine} (h : parseLine input = .ok (cmds, rest)) :
    ∃ cmd, entry cmds 0 = .ok cmd ∧
      Runs cmd ((lineWords input).takeWhile fun w => !readsBar w) := by
  obtain ⟨-, -, -, filled, exactly, runs⟩ := parseLine_inv h
  have pos : 0 < (lineCommands input).length := by rw [length_lineCommands]; exact Nat.succ_pos _
  have hf : 0 < filled.length := by rw [runs.length_eq]; exact pos
  have head := head_lineCommands input
  rw [List.head?_eq_getElem?, List.getElem?_eq_getElem pos, Option.some.injEq] at head
  refine ⟨filled[0], ?_, head ▸ forall₂_getElem runs hf pos⟩
  rw [entry, exactly.holds.load hf]
  rfl

/-- The name of a command is its first word, and `NULL` where it has none. -/
theorem Runs.name {cmd : Cmd} {words : List Bytes} (h : Runs cmd words) :
    Option.Rel IsString cmd.name words.head? := by
  obtain ⟨tokens, isCommand, isString⟩ := h
  rw [isCommand.name]
  cases isString with
  | nil => exact .none
  | cons head tail => exact .some head

namespace Session

variable {leave : Session → Bytes}

theorem turn_fault {limit : Nat} {s : Session} {fault : Fault}
    (h : parseLine s.input = .error fault) : s.turn limit leave = .error (.parse fault) := by
  simp only [turn, h, Except.mapError, bind, Except.bind]

theorem turn_parsed {limit : Nat} {s : Session} {cmds : CmdLine} {rest : Bytes}
    (h : parseLine s.input = .ok (cmds, rest)) {cmd : Cmd} (hc : entry cmds 0 = .ok cmd) :
    s.turn limit leave =
      match cmd.name with
      | none => .error .noName
      | some name =>
        if equals name (text "exit\n") then .error .bye else s.launch limit leave cmds rest := by
  simp only [turn, h, Except.mapError, hc, bind, Except.bind]
  cases cmd.name <;> rfl

/-- A line is no `exit` once it has come to `launch`, which reads no further; its children may. -/
theorem launch_cases (take : ∀ s, (leave s).Sublist s.input) (limit : Nat) (s : Session)
    (cmds : CmdLine) (rest : Bytes) :
    (∃ e, s.launch limit leave cmds rest = .error e ∧ e ≠ .bye) ∨
      ∃ s', s.launch limit leave cmds rest = .ok s' ∧ s'.input.Sublist rest := by
  rw [launch]
  by_cases one : cmds.count = 1
  · rw [if_pos one]
    cases hc : entry cmds 0 with
    | error e => exact .inl ⟨e, rfl, entry_error hc ▸ by decide⟩
    | ok cmd => exact .inr ⟨_, rfl, take _⟩
  · rw [if_neg one]
    cases hw : Wiring.run limit cmds.count 0 ⟨s.table, s.pipes, []⟩ with
    | none => exact .inl ⟨.pipe, rfl, by decide⟩
    | some wiring =>
      cases hc : (List.range cmds.count).mapM (entry cmds) with
      | error e =>
        simp only [Option.elim, bind, Except.bind]
        exact .inl ⟨e, rfl, entries_error hc ▸ by decide⟩
      | ok commands =>
        simp only [Option.elim, bind, Except.bind]
        exact .inr ⟨_, rfl, take _⟩

/-- What a turn comes to, in the words of the line. -/
theorem turn_cases (take : ∀ s, (leave s).Sublist s.input) (limit : Nat) (s : Session) :
    (∃ e, s.turn limit leave = .error e ∧
      (e = .bye → ∃ w ∈ lineWords s.input, cString w = text "exit\n")) ∨
    ∃ s', s.turn limit leave = .ok s' ∧ s.input ≠ [] ∧ s'.input.Sublist (lineRest s.input) := by
  cases hparse : parseLine s.input with
  | error fault => exact .inl ⟨_, turn_fault hparse, by simp⟩
  | ok r =>
    obtain ⟨cmds, rest⟩ := r
    obtain ⟨cmd, hentry, runs⟩ := entry_zero hparse
    have hname := runs.name
    have prefix_words := List.takeWhile_prefix (fun w => !readsBar w) (l := lineWords s.input)
    generalize (lineWords s.input).takeWhile (fun w => !readsBar w) = words at hname prefix_words
    rw [turn_parsed hparse hentry]
    cases hn : cmd.name with
    | none => exact .inl ⟨_, rfl, by simp⟩
    | some name =>
      rw [hn] at hname
      cases words with
      | nil => cases hname
      | cons w more =>
        have isString : IsString name w := by cases hname; assumption
        have mem : w ∈ lineWords s.input := prefix_words.subset List.mem_cons_self
        by_cases exit : equals name (text "exit\n") = true
        · left
          refine ⟨.bye, if_pos exit, fun _ => ⟨w, mem, ?_⟩⟩
          exact (equals_iff isString (by decide)).mp exit
        · simp only [if_neg exit]
          rcases s.launch_cases take limit cmds rest with ⟨e, he, ne⟩ | ⟨s', hs', hrest⟩
          · exact .inl ⟨e, he, fun eq => absurd eq ne⟩
          · right
            refine ⟨s', hs', ?_, parseLine_rest hparse ▸ hrest⟩
            intro empty
            rw [empty] at mem
            exact absurd mem List.not_mem_nil

/-- The loop ends on every input, and with `Bye!` only when there is a double quote in it. -/
theorem loop_ends (take : ∀ s, (leave s).Sublist s.input) (limit n : Nat) (s : Session)
    (h : s.input.length < n) :
    ∃ e s', s.loop limit leave n = some (e, s') ∧ (e = .bye → byte '"' ∈ s.input) := by
  induction n generalizing s with
  | zero => exact absurd h (Nat.not_lt_zero _)
  | succ n ih =>
    rw [loop]
    rcases turn_cases take limit s with ⟨e, he, bye⟩ | ⟨s', hs', ne, hrest⟩
    · rw [he]
      refine ⟨e, s, rfl, ?_⟩
      intro eq
      obtain ⟨w, mem, exit⟩ := bye eq
      have newline : byte '\n' ∈ w := by
        apply (List.takeWhile_prefix _).subset
        rw [← cString, exit]
        decide
      have stored : .char (byte '\n') ∈ (scan .plain 0 s.input).1 :=
        (newline_mem_marks mem newline).resolve_left List.not_mem_nil
      exact (quote_of_newline stored).resolve_left (by decide)
    · rw [hs']
      have suffix := scan_suffix .plain 0 s.input
      have shorter : s'.input.length < n := by
        have le := suffix.length_le
        have pos := List.length_pos_of_ne_nil ne
        rw [List.length_tail] at le
        have less := hrest.length_le
        rw [lineRest] at less
        omega
      obtain ⟨e, t, run, quote⟩ := ih s' shorter
      refine ⟨e, t, run, ?_⟩
      intro eq
      exact List.mem_of_mem_tail (suffix.subset (hrest.subset (quote eq)))

end Session

/-- The shell ends on every input of which its children take some away at most, and says `Bye!` only
when there is a double quote in it. -/
theorem session_ends (limit : Nat) (leave : Session → Bytes)
    (take : ∀ s, (leave s).Sublist s.input) (s : Session) :
    ∃ e s', s.loop limit leave (s.input.length + 1) = some (e, s') ∧
      (e = .bye → byte '"' ∈ s.input) :=
  s.loop_ends take limit _ (Nat.lt_succ_self _)

/-- The command of the first line reads what is left of the input. -/
theorem session_ends_early :
    let leave : Session → Bytes := fun s => if s.ran.length = 1 then [] else s.input
    ∃ e s', Session.loop 6 leave 5 ⟨text "a\nb\n", Wiring.terminal, 0, []⟩ = some (e, s') ∧
      (e = .bye → byte '"' ∈ text "a\nb\n") := by
  intro leave
  refine session_ends 6 leave ?_ ⟨text "a\nb\n", Wiring.terminal, 0, []⟩
  intro s
  simp only [leave]
  split_ifs
  · exact List.nil_sublist _
  · exact List.Sublist.refl _

namespace Wiring

end Wiring

/-- The lines typed one after another, and then `tail`. -/
def script (ps : List Pipeline) (tail : Bytes) : Bytes :=
  ps.foldr (fun p rest => p.render ++ byte '\n' :: rest) tail

namespace Session

variable {leave : Session → Bytes}

end Session

end Sysprog.Shell
