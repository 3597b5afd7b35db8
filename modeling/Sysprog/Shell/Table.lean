import Sysprog.Shell.Buffers
import Mathlib.Data.List.TakeWhile

namespace Sysprog.Shell

/-- `cmd` is filled with the arguments `args`: `argv` ends in `NULL` behind them. -/
structure IsCommand (cmd : Cmd) (args : List Token) : Prop where
  argc : cmd.argc = args.length
  argv : cmd.argv.Holds (args.map some ++ [none])
  name : cmd.name = args.head?

namespace Table

/-- The first entries of the table are `filled`, and `args` stand in the `argv` under way. -/
structure Fills (t : Table) (filled : List Cmd) (args : List Token) : Prop where
  cmds : t.cmds.Exactly filled
  cmdNum : t.cmdNum = filled.length
  argv : t.argv.Holds (args.map some)
  j : t.j = args.length

theorem Fills.argument {t : Table} {filled : List Cmd} {args : List Token}
    (h : t.Fills filled args) (token : Token) (room : args.length < t.argv.length) :
    ∃ t', t.argument token = .ok t' ∧ t'.Fills filled (args ++ [token]) ∧
      t'.argv.length = t.argv.length ∧ t'.cmds = t.cmds := by
  obtain ⟨argv, store, length, holds⟩ := h.argv.store (some token) (by simpa using room)
  rw [List.length_map, ← h.j] at store
  refine ⟨{ t with argv := argv, j := t.j + 1 }, ?_, ⟨h.cmds, h.cmdNum, ?_, ?_⟩, length, rfl⟩
  · rw [Table.argument, store]
    rfl
  · rw [List.map_append]
    exact holds
  · rw [List.length_append, ← h.j]
    rfl

/-- `argv[j] = NULL` fits, and then `argv[0]` is the first argument, or `NULL`. -/
theorem Fills.terminate {t : Table} {filled : List Cmd} {args : List Token}
    (h : t.Fills filled args) (room : args.length < t.argv.length) :
    ∃ argv, t.argv.store t.j none = some argv ∧ argv.Holds (args.map some ++ [none]) ∧
      argv.load 0 = some args.head? := by
  obtain ⟨argv, store, -, holds⟩ := h.argv.store none (by simpa using room)
  rw [List.length_map, ← h.j] at store
  refine ⟨argv, store, holds, ?_⟩
  rw [holds.load (by simp)]
  cases args with
  | nil => rfl
  | cons a args => rfl

theorem Fills.close {t : Table} {filled : List Cmd} {args : List Token}
    (h : t.Fills filled args) (room : args.length < t.argv.length)
    (space : filled.length < t.cmds.length) :
    ∃ t' cmd, t.close = .ok t' ∧ IsCommand cmd args ∧ t'.cmds.Exactly (filled ++ [cmd]) ∧
      t'.cmds.length = t.cmds.length ∧ t'.cmdNum = t.cmdNum := by
  obtain ⟨argv, store, holds, name⟩ := h.terminate room
  obtain ⟨cmds, stored, length, exactly⟩ := h.cmds.store ⟨args.head?, argv, t.j⟩ space
  rw [← h.cmdNum] at stored
  refine ⟨{ t with cmds := cmds, argv := argv }, ⟨args.head?, argv, t.j⟩, ?_, ⟨h.j, holds, rfl⟩,
    exactly, length, rfl⟩
  rw [Table.close, store]
  simp only [checked, bind, Except.bind, name, stored]

theorem Fills.close_fault {t : Table} {filled : List Cmd} {args : List Token}
    (h : t.Fills filled args) (room : args.length < t.argv.length)
    (space : t.cmds.length ≤ filled.length) : t.close = .error .commands := by
  obtain ⟨argv, store, -, name⟩ := h.terminate room
  have stored := Block.store_eq_none (b := t.cmds) (i := t.cmdNum) (by rw [h.cmdNum]; exact space)
    ⟨args.head?, argv, t.j⟩
  rw [Table.close, store]
  simp only [checked, bind, Except.bind, name, stored]

/-- A `|` closes a command, and what remains of the tokens fits in the next `argv`. -/
theorem Fills.fill_bar {t : Table} {filled : List Cmd} {args : List Token}
    (h : t.Fills filled args) (room : args.length < t.argv.length)
    (space : filled.length < t.cmds.length) (n i : Nat) {token : Token}
    (bar : isBar token = true) (tokens : List Token) :
    ∃ next cmd, Table.fill n i t (token :: tokens) = Table.fill n (i + 1) next tokens ∧
      IsCommand cmd args ∧ next.Fills (filled ++ [cmd]) [] ∧ next.argv.length = n + 1 - i ∧
      next.cmds.length = t.cmds.length := by
  obtain ⟨u, cmd, step, isCommand, exactly, length, num⟩ := h.close room space
  refine ⟨{ u with cmdNum := u.cmdNum + 1, j := 0, argv := Block.allocate (n + 1 - i) }, cmd, ?_,
    isCommand, ⟨exactly, ?_, Block.holds_nil _, rfl⟩, Block.length_allocate _, length⟩
  · rw [Table.fill, if_pos bar, step]
    rfl
  · show u.cmdNum + 1 = (filled ++ [cmd]).length
    rw [num, h.cmdNum, List.length_append, List.length_singleton]

/-- Any other token is one more argument. -/
theorem Fills.fill_token {t : Table} {filled : List Cmd} {args : List Token}
    (h : t.Fills filled args) (room : args.length < t.argv.length) (n i : Nat) {token : Token}
    (notBar : isBar token = false) (tokens : List Token) :
    ∃ next, Table.fill n i t (token :: tokens) = Table.fill n (i + 1) next tokens ∧
      next.Fills filled (args ++ [token]) ∧ next.argv.length = t.argv.length ∧
      next.cmds = t.cmds := by
  obtain ⟨next, step, fills, length, same⟩ := h.argument token room
  refine ⟨next, ?_, fills, length, same⟩
  rw [Table.fill, if_neg (by simp [notBar]), step]
  rfl

/-- The loop over the tokens and the last command: while the table has room, its entries are the
stretches of tokens between the bars. -/
theorem Fills.fill {t : Table} {filled : List Cmd} {args : List Token} (h : t.Fills filled args)
    (n i : Nat) (tokens : List Token) (hi : i + tokens.length = n)
    (room : args.length + tokens.length < t.argv.length)
    (space : filled.length + (List.splitOnPPrepend isBar tokens args.reverse).length ≤
      t.cmds.length) :
    ∃ t' more, (Table.fill n i t tokens >>= Table.close) = .ok t' ∧
      t'.cmds.Exactly (filled ++ more) ∧ t'.cmds.length = t.cmds.length ∧
      List.Forall₂ IsCommand more (List.splitOnPPrepend isBar tokens args.reverse) := by
  induction tokens generalizing t filled args i with
  | nil =>
    rw [List.splitOnPPrepend_nil, List.reverse_reverse] at space ⊢
    obtain ⟨t', cmd, step, isCommand, exactly, length, -⟩ := h.close room space
    exact ⟨t', [cmd], step, exactly, length, .cons isCommand .nil⟩
  | cons token tokens ih =>
    rw [List.length_cons] at hi room
    cases bar : isBar token with
    | true =>
      rw [List.splitOnPPrepend_cons_pos bar, List.reverse_reverse] at space ⊢
      rw [List.length_cons] at space
      obtain ⟨next, cmd, step, isCommand, fills, size, length⟩ :=
        h.fill_bar (by omega) (by omega) n i bar tokens
      have more_space : (filled ++ [cmd]).length + (List.splitOnP isBar tokens).length ≤
          next.cmds.length := by
        rw [List.length_append, List.length_singleton, length]
        omega
      have more_room : ([] : List Token).length + tokens.length < next.argv.length := by
        rw [size, List.length_nil]
        omega
      obtain ⟨t', more, run, exactly, total, commands⟩ :=
        ih fills (i + 1) (by omega) more_room more_space
      refine ⟨t', cmd :: more, ?_, by simpa using exactly, total.trans length,
        .cons isCommand commands⟩
      rw [step]
      exact run
    | false =>
      rw [List.splitOnPPrepend_cons_neg bar, ← List.reverse_concat'] at space ⊢
      obtain ⟨next, step, fills, size, same⟩ := h.fill_token (by omega) n i bar tokens
      have more_room : (args ++ [token]).length + tokens.length < next.argv.length := by
        rw [size, List.length_append, List.length_singleton]
        omega
      rw [← same] at space ⊢
      rw [step]
      exact ih fills (i + 1) (by omega) more_room space

/-- With more stretches than entries, the table is written past its end. -/
theorem Fills.fill_fault {t : Table} {filled : List Cmd} {args : List Token}
    (h : t.Fills filled args) (n i : Nat) (tokens : List Token) (hi : i + tokens.length = n)
    (room : args.length + tokens.length < t.argv.length)
    (space : t.cmds.length <
      filled.length + (List.splitOnPPrepend isBar tokens args.reverse).length) :
    (Table.fill n i t tokens >>= Table.close) = .error .commands := by
  induction tokens generalizing t filled args i with
  | nil =>
    rw [List.splitOnPPrepend_nil, List.length_singleton] at space
    exact h.close_fault room (by omega)
  | cons token tokens ih =>
    rw [List.length_cons] at hi room
    cases bar : isBar token with
    | true =>
      rw [List.splitOnPPrepend_cons_pos bar, List.length_cons] at space
      by_cases full : filled.length < t.cmds.length
      · obtain ⟨next, cmd, step, -, fills, size, length⟩ :=
          h.fill_bar (by omega) full n i bar tokens
        rw [step]
        apply ih fills (i + 1) (by omega)
        · rw [size, List.length_nil]
          omega
        · show next.cmds.length < (filled ++ [cmd]).length + (List.splitOnP isBar tokens).length
          rw [List.length_append, List.length_singleton, length]
          omega
      · rw [Table.fill, if_pos bar, h.close_fault (by omega) (Nat.not_lt.mp full)]
        rfl
    | false =>
      rw [List.splitOnPPrepend_cons_neg bar, ← List.reverse_concat'] at space
      obtain ⟨next, step, fills, size, same⟩ := h.fill_token (by omega) n i bar tokens
      rw [step]
      apply ih fills (i + 1) (by omega)
      · rw [size, List.length_append, List.length_singleton]
        omega
      · rw [same]
        exact space

end Table

/-- What the functions on C strings see of a word. -/
def cString (w : Bytes) : Bytes := w.takeWhile (· ≠ 0)

theorem cString_eq {w : Bytes} (h : ∀ c ∈ w, c ≠ 0) : cString w = w :=
  List.takeWhile_eq_self_iff.mpr (by simpa using h)

/-- `strcmp` takes a word for `|`. -/
def readsBar (w : Bytes) : Bool := cString w = text "|"

/-- `cmd` is filled with the words `args`. -/
def Runs (cmd : Cmd) (args : List Bytes) : Prop :=
  ∃ tokens, IsCommand cmd tokens ∧ List.Forall₂ IsString tokens args

theorem isBar_eq {token : Token} {w : Bytes} (h : IsString token w) : isBar token = readsBar w := by
  have bar : byte '|' ≠ 0 := by decide
  have text : text "|" = [byte '|'] := rfl
  obtain ⟨rest, rfl⟩ := h
  cases w with
  | nil => simp [isBar, readsBar, cString, Block.load, text, bar.symm]
  | cons c w =>
    cases w with
    | nil => by_cases hc : c = 0 <;> simp [isBar, readsBar, cString, Block.load, text, hc, bar.symm]
    | cons d w =>
      by_cases hc : c = 0 <;> by_cases hd : d = 0 <;>
        simp [isBar, readsBar, cString, Block.load, text, hc, hd, bar.symm]

/-- Two lists that correspond entry by entry are split alike. -/
theorem forall₂_splitOnPPrepend {α β : Type*} {R : α → β → Prop} {p : α → Bool} {q : β → Bool}
    (hpq : ∀ x y, R x y → p x = q y) {xs : List α} {ys : List β} (h : List.Forall₂ R xs ys)
    {as : List α} {bs : List β} (hab : List.Forall₂ R as bs) :
    List.Forall₂ (List.Forall₂ R) (List.splitOnPPrepend p xs as) (List.splitOnPPrepend q ys bs) := by
  induction h generalizing as bs with
  | nil => exact .cons (List.rel_reverse hab) .nil
  | @cons x y xs ys hxy _ ih =>
    by_cases hx : p x = true
    · have hy : q y = true := by rw [← hpq x y hxy]; exact hx
      rw [List.splitOnPPrepend_cons_pos hx, List.splitOnPPrepend_cons_pos hy]
      exact .cons (List.rel_reverse hab) (ih .nil)
    · have hx : p x = false := by simpa using hx
      have hy : q y = false := by rw [← hpq x y hxy]; exact hx
      rw [List.splitOnPPrepend_cons_neg hx, List.splitOnPPrepend_cons_neg hy]
      exact ih (.cons hxy hab)

theorem length_splitOnPPrepend {α : Type*} (p : α → Bool) (xs as : List α) :
    (List.splitOnPPrepend p xs as).length = xs.countP p + 1 := by
  induction xs generalizing as with
  | nil => rfl
  | cons x xs ih =>
    by_cases hx : p x = true
    · rw [List.splitOnPPrepend_cons_pos hx, List.length_cons, List.countP_cons_of_pos hx]
      exact congrArg (· + 1) (ih [])
    · rw [List.splitOnPPrepend_cons_neg (by simpa using hx), List.countP_cons_of_neg hx]
      exact ih _

/-- The words of each command of a line. -/
def lineCommands (input : Bytes) : List (List Bytes) := (lineWords input).splitOnP readsBar

theorem length_lineCommands (input : Bytes) :
    (lineCommands input).length = (lineWords input).countP readsBar + 1 :=
  length_splitOnPPrepend readsBar (lineWords input) []

/-- Commands are made of the tokens as the words are of the line. -/
theorem split_tokens {tokens : List Token} {input : Bytes}
    (h : List.Forall₂ IsString tokens (lineWords input)) :
    List.Forall₂ (List.Forall₂ IsString) (tokens.splitOnP isBar) (lineCommands input) :=
  forall₂_splitOnPPrepend (R := IsString) (fun _ _ hr => isBar_eq hr) h .nil

theorem runs_of_forall₂ {filled : List Cmd} {groups : List (List Token)}
    {words : List (List Bytes)} (hc : List.Forall₂ IsCommand filled groups)
    (hw : List.Forall₂ (List.Forall₂ IsString) groups words) : List.Forall₂ Runs filled words := by
  induction hc generalizing words with
  | nil =>
    cases hw
    exact .nil
  | cons isCommand _ ih =>
    cases hw with
    | cons isString rest => exact .cons ⟨_, isCommand, isString⟩ (ih rest)

/-- The second half of `parse_line`. -/
def tabulate (s : Locals) : Except Fault Table :=
  Table.fill s.tokens.length 0
    ⟨Block.allocate s.cmdCount, 0, Block.allocate (s.tokens.length + 1), 0⟩ s.tokens >>= Table.close

theorem parseLine_eq (input : Bytes) :
    parseLine input = (do
      let (s, rest) ← tokenize input
      let t ← tabulate s
      .ok (⟨s.cmdCount, t.cmds⟩, rest)) := by
  simp only [parseLine, tokenize, tabulate, bind_assoc]
  rfl

/-- The table at the start of the loop over the tokens. -/
theorem fills_initial (n cmdCount : Nat) :
    Table.Fills ⟨Block.allocate cmdCount, 0, Block.allocate (n + 1), 0⟩ [] [] :=
  ⟨Block.exactly_allocate _, rfl, Block.holds_nil _, rfl⟩

/-- Where the table has room, the second half of `parse_line` fills one entry for each command. -/
theorem tabulate_ok {s : Locals} {input : Bytes}
    (tokens : List.Forall₂ IsString s.tokens (lineWords input))
    (space : (lineCommands input).length ≤ s.cmdCount) :
    ∃ t filled, tabulate s = .ok t ∧ t.cmds.Exactly filled ∧ t.cmds.length = s.cmdCount ∧
      List.Forall₂ Runs filled (lineCommands input) := by
  have split := split_tokens tokens
  have room : 0 + s.tokens.length <
      (Block.allocate (s.tokens.length + 1) : Block Pointer).length := by
    rw [Block.length_allocate]
    omega
  have enough : 0 + (s.tokens.splitOnP isBar).length ≤
      (Block.allocate s.cmdCount : Block Cmd).length := by
    rw [split.length_eq, Block.length_allocate]
    omega
  obtain ⟨t, filled, run, exactly, length, commands⟩ :=
    (fills_initial s.tokens.length s.cmdCount).fill s.tokens.length 0 s.tokens (Nat.zero_add _)
      room enough
  refine ⟨t, filled, run, exactly, ?_, runs_of_forall₂ commands split⟩
  rw [length, Block.length_allocate]

/-- Where it has not, the table is written past its end. -/
theorem tabulate_fault {s : Locals} {input : Bytes}
    (tokens : List.Forall₂ IsString s.tokens (lineWords input))
    (space : s.cmdCount < (lineCommands input).length) : tabulate s = .error .commands := by
  apply (fills_initial s.tokens.length s.cmdCount).fill_fault s.tokens.length 0 s.tokens
    (Nat.zero_add _)
  · rw [Block.length_allocate, List.length_nil]
    omega
  · show (Block.allocate s.cmdCount : Block Cmd).length < 0 + (s.tokens.splitOnP isBar).length
    rw [(split_tokens tokens).length_eq, Block.length_allocate]
    omega

/-- Where the table has room, `parse_line` fills one entry for each command of the line. -/
theorem parseLine_ok {input : Bytes} (h : LineFits input)
    (space : (lineCommands input).length ≤ 1 + lineBars input) :
    ∃ cmds filled, parseLine input = .ok (⟨1 + lineBars input, cmds⟩, lineRest input) ∧
      cmds.Exactly filled ∧ cmds.length = 1 + lineBars input ∧
      List.Forall₂ Runs filled (lineCommands input) := by
  obtain ⟨s, read, tokens, count⟩ := tokenize_ok h
  rw [← count] at space ⊢
  obtain ⟨t, filled, run, exactly, length, runs⟩ := tabulate_ok tokens space
  refine ⟨t.cmds, filled, ?_, exactly, length, runs⟩
  rw [parseLine_eq, read]
  show tabulate s >>= _ = _
  rw [run]
  rfl

theorem parseLine_fault {input : Bytes} (h : LineFits input)
    (space : 1 + lineBars input < (lineCommands input).length) :
    parseLine input = .error .commands := by
  obtain ⟨s, read, tokens, count⟩ := tokenize_ok h
  rw [← count] at space
  rw [parseLine_eq, read]
  show tabulate s >>= _ = _
  rw [tabulate_fault tokens space]
  rfl

theorem parseLine_overflow {input : Bytes} (h : ¬ LineFits input) :
    parseLine input = .error .overflow := by
  rw [parseLine_eq, tokenize_overflow h]
  rfl

/-- A table that `parse_line` returns is that of a line that fits and has room for its commands. -/
theorem parseLine_inv {input rest : Bytes} {r : CmdLine} (h : parseLine input = .ok (r, rest)) :
    LineFits input ∧ (lineCommands input).length ≤ r.count ∧ r.count = 1 + lineBars input ∧
      ∃ filled, r.commands.Exactly filled ∧ List.Forall₂ Runs filled (lineCommands input) := by
  by_cases fits : LineFits input
  · by_cases space : (lineCommands input).length ≤ 1 + lineBars input
    · obtain ⟨cmds, filled, ok, exactly, -, runs⟩ := parseLine_ok fits space
      rw [ok] at h
      cases h
      exact ⟨fits, space, rfl, filled, exactly, runs⟩
    · rw [parseLine_fault fits (Nat.not_le.mp space)] at h
      cases h
  · rw [parseLine_overflow fits] at h
    cases h

/-- A line without a word that reads `|` is one command. -/
theorem lineCommands_eq {input : Bytes} (h : (lineWords input).countP readsBar = 0) :
    lineCommands input = [lineWords input] := by
  apply List.splitOnP_eq_singleton
  intro w hw
  simpa using List.countP_eq_zero.mp h w hw

theorem parseLine_single {input : Bytes} (h : LineFits input) (bars : lineBars input = 0)
    (none : (lineWords input).countP readsBar = 0) :
    ∃ cmds cmd, parseLine input = .ok (⟨1, cmds⟩, lineRest input) ∧ cmds.load 0 = some cmd ∧
      Runs cmd (lineWords input) := by
  have one := lineCommands_eq none
  obtain ⟨cmds, filled, ok, exactly, -, runs⟩ := parseLine_ok h (by rw [one, bars]; exact le_rfl)
  rw [one] at runs
  rw [bars] at ok
  obtain ⟨cmd, _, first, -, rfl⟩ := List.forall₂_cons_right_iff.mp runs
  exact ⟨cmds, cmd, ok, exactly.holds.load (by simp), first⟩

/-- One command is returned only for a line that is one command. -/
theorem single_of_parseLine {input rest : Bytes} {cmds : Block Cmd} {cmd : Cmd}
    (h : parseLine input = .ok (⟨1, cmds⟩, rest)) (load : cmds.load 0 = some cmd) :
    LineFits input ∧ (lineWords input).countP readsBar = 0 ∧ Runs cmd (lineWords input) := by
  obtain ⟨fits, space, -, filled, exactly, runs⟩ := parseLine_inv h
  have none : (lineWords input).countP readsBar = 0 := by
    rw [length_lineCommands] at space
    exact Nat.le_zero.mp (Nat.le_of_succ_le_succ space)
  rw [lineCommands_eq none] at runs
  obtain ⟨_, _, first, -, rfl⟩ := List.forall₂_cons_right_iff.mp runs
  rw [exactly.holds.load (by simp)] at load
  cases load
  exact ⟨fits, none, first⟩

/-- `argc` counts the arguments, `NULL` stands behind them, and the name is the first of them. -/
def Cmd.Exact (cmd : Cmd) : Prop :=
  ∃ args : List Token, cmd.argc = args.length ∧ cmd.argv.Holds (args.map some ++ [none]) ∧
    ∃ name, cmd.name = some name ∧ cmd.argv.load 0 = some (some name)

/-- `count` is the number of filled entries, and each of the returned commands is exact. -/
structure CmdLine.Exact (r : CmdLine) : Prop where
  count : r.count = r.commands.filled
  commands : ∀ i < r.count, ∃ cmd, r.commands.load i = some cmd ∧ cmd.Exact

/-- `parse_line` stays inside its memory and returns a table that is exact. -/
def CommandTable (input : Bytes) : Prop := ∃ r rest, parseLine input = .ok (r, rest) ∧ r.Exact

theorem Runs.exact {cmd : Cmd} {args : List Bytes} (h : Runs cmd args) (hne : args ≠ []) :
    cmd.Exact := by
  obtain ⟨tokens, isCommand, isString⟩ := h
  refine ⟨tokens, isCommand.argc, isCommand.argv, ?_⟩
  cases isString with
  | nil => exact absurd rfl hne
  | cons head tail => exact ⟨_, isCommand.name, isCommand.argv.load (by simp)⟩

theorem Runs.nameless {cmd : Cmd} (h : Runs cmd []) : ¬ cmd.Exact := by
  obtain ⟨tokens, isCommand, isString⟩ := h
  intro exact
  obtain ⟨-, -, -, name, hname, -⟩ := exact
  cases isString
  rw [isCommand.name] at hname
  cases hname

theorem forall₂_getElem {α β : Type*} {R : α → β → Prop} {xs : List α} {ys : List β}
    (h : List.Forall₂ R xs ys) {i : Nat} (hx : i < xs.length) (hy : i < ys.length) :
    R xs[i] ys[i] :=
  (List.forall₂_iff_get.mp h).2 i hx hy

/-- The table of a line is exact when the bars outside quotes are as many as the words that read
`|`, and these words leave no command empty. -/
theorem commandTable_iff (input : Bytes) :
    CommandTable input ↔ LineFits input ∧
      lineBars input = (lineWords input).countP readsBar ∧ [] ∉ lineCommands input := by
  have groups := length_lineCommands input
  constructor
  · intro table
    obtain ⟨r, rest, run, exact⟩ := table
    obtain ⟨fits, space, count, filled, exactly, runs⟩ := parseLine_inv run
    have same := runs.length_eq
    have all : r.count = filled.length := exact.count.trans exactly.filled
    refine ⟨fits, by omega, ?_⟩
    intro empty
    obtain ⟨i, hi, eq⟩ := List.mem_iff_getElem.mp empty
    have hf : i < filled.length := by rw [same]; exact hi
    obtain ⟨cmd, load, hcmd⟩ := exact.commands i (by rw [all]; exact hf)
    have runs := forall₂_getElem runs hf hi
    rw [exactly.holds.load hf] at load
    cases load
    rw [eq] at runs
    exact runs.nameless hcmd
  · intro condition
    obtain ⟨fits, bars, full⟩ := condition
    obtain ⟨cmds, filled, ok, exactly, -, runs⟩ := parseLine_ok fits (by omega)
    have same := runs.length_eq
    refine ⟨_, _, ok, ?_, ?_⟩
    · change 1 + lineBars input = cmds.filled
      rw [exactly.filled]
      omega
    · intro i hi
      have hf : i < filled.length := by
        change i < 1 + lineBars input at hi
        omega
      have hg : i < (lineCommands input).length := by rw [← same]; exact hf
      refine ⟨filled[i], exactly.holds.load hf, (forall₂_getElem runs hf hg).exact ?_⟩
      intro empty
      exact full (empty ▸ List.getElem_mem hg)

/-- A bar without spaces is counted and separates nothing. -/
theorem not_commandTable : ¬ ∀ input, CommandTable input := by
  intro all
  obtain ⟨r, rest, run, exact⟩ := all (text "a|b\n")
  have filled : (parseLine (text "a|b\n")).toOption.map
      (fun x => (x.1.count, x.1.commands.filled)) = some (2, 1) := by decide
  rw [run] at filled
  have := exact.count
  simp only [Except.toOption, Option.map_some, Option.some.injEq, Prod.mk.injEq] at filled
  omega

end Sysprog.Shell
