import Sysprog.Shell.Table

namespace Sysprog.Shell

/-- A character that stands for itself on a line and in a C string. -/
def Plain (c : UInt8) : Prop := c ≠ 0 ∧ c ≠ byte '\n' ∧ special c = false

instance : DecidablePred Plain := fun c =>
  inferInstanceAs (Decidable (c ≠ 0 ∧ c ≠ byte '\n' ∧ special c = false))

/-- Commands to be run in a row, each given by its words. -/
structure Pipeline where
  commands : List (List Bytes)
  commands_ne : commands ≠ []
  args_ne : ∀ args ∈ commands, args ≠ []
  words_ne : ∀ args ∈ commands, ∀ w ∈ args, w ≠ []
  plain : ∀ args ∈ commands, ∀ w ∈ args, ∀ c ∈ w, Plain c

def Pipeline.render (p : Pipeline) : Bytes :=
  (text " | ").intercalate (p.commands.map (text " ").intercalate)

/-- The words of the line, bars included. -/
def Pipeline.row (p : Pipeline) : List Bytes := [text "|"].intercalate p.commands

/-- A word of a pipeline or the bar between two commands. -/
def RowWord (w : Bytes) : Prop := w = text "|" ∨ w ≠ [] ∧ ∀ c ∈ w, Plain c

theorem plain_ne_bar {w : Bytes} (h : ∀ c ∈ w, Plain c) : w ≠ text "|" := by
  intro eq
  have bar := (h (byte '|') (by rw [eq]; exact List.mem_cons_self)).2.2
  revert bar
  decide

theorem RowWord.ne_nil {w : Bytes} (h : RowWord w) : w ≠ [] := by
  rcases h with rfl | h
  · decide
  · exact h.1

/-- A row is made of words of commands and of bars. -/
theorem rowWord_of_mem {commands : List (List Bytes)}
    (ne : ∀ args ∈ commands, ∀ w ∈ args, w ≠ [])
    (plain : ∀ args ∈ commands, ∀ w ∈ args, ∀ c ∈ w, Plain c) :
    ∀ w ∈ [text "|"].intercalate commands, RowWord w := by
  induction commands with
  | nil => simp
  | cons args commands ih =>
    obtain ⟨args_ne, rest_ne⟩ := List.forall_mem_cons.mp ne
    obtain ⟨args_plain, rest_plain⟩ := List.forall_mem_cons.mp plain
    intro w hw
    cases commands with
    | nil =>
      rw [List.intercalate_singleton] at hw
      exact .inr ⟨args_ne w hw, args_plain w hw⟩
    | cons args' commands =>
      rw [List.intercalate_cons_cons, List.mem_append, List.mem_append] at hw
      rcases hw with (hw | hw) | hw
      · exact .inr ⟨args_ne w hw, args_plain w hw⟩
      · exact .inl (List.mem_singleton.mp hw)
      · exact ih rest_ne rest_plain w hw

theorem intercalate_append {α : Type*} (s : List α) {xs ys : List (List α)} (hx : xs ≠ [])
    (hy : ys ≠ []) : s.intercalate (xs ++ ys) = s.intercalate xs ++ s ++ s.intercalate ys := by
  induction xs with
  | nil => exact absurd rfl hx
  | cons x xs ih =>
    cases xs with
    | nil =>
      rw [List.singleton_append, List.intercalate_cons_of_ne_nil hy, List.intercalate_singleton]
    | cons x' xs =>
      have tail := ih (List.cons_ne_nil x' xs)
      rw [List.cons_append, List.intercalate_cons_of_ne_nil (by simp), tail,
        List.intercalate_cons_cons]
      simp only [List.append_assoc]

theorem intercalate_ne_nil {commands : List (List Bytes)} (h : commands ≠ [])
    (ne : ∀ args ∈ commands, args ≠ []) : [text "|"].intercalate commands ≠ [] := by
  cases commands with
  | nil => exact absurd rfl h
  | cons args commands =>
    cases commands with
    | nil => simpa using ne
    | cons args' commands => simp

/-- The bars of a row are words like any other between spaces. -/
theorem intercalate_row {commands : List (List Bytes)} (ne : ∀ args ∈ commands, args ≠ []) :
    (text " | ").intercalate (commands.map (text " ").intercalate) =
      (text " ").intercalate ([text "|"].intercalate commands) := by
  induction commands with
  | nil => rfl
  | cons args commands ih =>
    obtain ⟨args_ne, rest_ne⟩ := List.forall_mem_cons.mp ne
    cases commands with
    | nil => simp
    | cons args' commands =>
      have row := intercalate_ne_nil (List.cons_ne_nil args' commands) rest_ne
      have bar : text " | " = text " " ++ text "|" ++ text " " := rfl
      rw [List.map_cons, List.map_cons, List.intercalate_cons_cons, ← List.map_cons, ih rest_ne,
        List.intercalate_cons_cons, List.append_assoc args,
        intercalate_append _ args_ne (by simp), List.singleton_append,
        List.intercalate_cons_of_ne_nil row, bar]
      simp only [List.append_assoc]

theorem read_plain {w : Bytes} (h : ∀ c ∈ w, Plain c) (prev : UInt8) (cur tail : Bytes) :
    ∃ p, read .plain prev cur (w ++ tail) = read .plain p (cur ++ w) tail := by
  induction w generalizing prev cur with
  | nil => exact ⟨prev, by simp⟩
  | cons c w ih =>
    obtain ⟨hc, hw⟩ := List.forall_mem_cons.mp h
    obtain ⟨p, eq⟩ := ih hw c (cur ++ [c])
    refine ⟨p, ?_⟩
    rw [List.cons_append, read_char prev cur hc.2.1 hc.2.2, eq, List.append_assoc,
      List.singleton_append]

/-- One word of a row; a bar is counted. -/
theorem read_rowWord {w : Bytes} (h : RowWord w) (prev : UInt8) (tail : Bytes) :
    ∃ p, read .plain prev [] (w ++ tail) =
      { read .plain p w tail with
        bars := (read .plain p w tail).bars + [w].count (text "|") } := by
  rcases h with rfl | h
  · refine ⟨byte '|', ?_⟩
    change read .plain prev [] (byte '|' :: tail) = _
    rw [read_bar]
    rfl
  · obtain ⟨p, eq⟩ := read_plain h.2 prev [] tail
    refine ⟨p, ?_⟩
    rw [eq, List.nil_append, List.count_singleton, if_neg (by simpa using plain_ne_bar h.2)]
    rfl

/-- A row of words, read back with its bars counted. -/
theorem read_row {row : List Bytes} (hne : row ≠ []) (h : ∀ w ∈ row, RowWord w) (prev : UInt8)
    (rest : Bytes) :
    read .plain prev [] ((text " ").intercalate row ++ byte '\n' :: rest) =
      ⟨row, row.count (text "|"), rest⟩ := by
  induction row generalizing prev with
  | nil => exact absurd rfl hne
  | cons w row ih =>
    obtain ⟨hw, hrow⟩ := List.forall_mem_cons.mp h
    cases row with
    | nil =>
      obtain ⟨p, eq⟩ := read_rowWord hw prev (byte '\n' :: rest)
      rw [List.intercalate_singleton, eq, read_newline, if_neg hw.ne_nil]
      simp
    | cons w' row =>
      obtain ⟨p, eq⟩ := read_rowWord hw prev
        (byte ' ' :: ((text " ").intercalate (w' :: row) ++ byte '\n' :: rest))
      rw [List.intercalate_cons_cons, List.append_assoc, List.append_assoc]
      refine Eq.trans eq ?_
      have total : (w :: w' :: row).count (text "|") =
          (w' :: row).count (text "|") + [w].count (text "|") := by
        rw [List.count_cons, List.count_singleton]
      rw [read_space, ih (List.cons_ne_nil w' row) hrow, total]
      rfl

theorem length_mem_le {row : List Bytes} {w : Bytes} (h : w ∈ row) :
    w.length ≤ ((text " ").intercalate row).length := by
  induction row with
  | nil => cases h
  | cons v row ih =>
    cases row with
    | nil =>
      rw [List.mem_singleton.mp h, List.intercalate_singleton]
    | cons v' row =>
      rw [List.intercalate_cons_cons, List.length_append, List.length_append]
      rcases List.mem_cons.mp h with rfl | h
      · omega
      · have := ih h
        omega

theorem length_row_le {row : List Bytes} (h : ∀ w ∈ row, w ≠ []) :
    row.length ≤ ((text " ").intercalate row).length := by
  induction row with
  | nil => exact Nat.zero_le _
  | cons v row ih =>
    obtain ⟨hv, hrow⟩ := List.forall_mem_cons.mp h
    have pos := List.length_pos_of_ne_nil hv
    cases row with
    | nil =>
      rw [List.intercalate_singleton]
      exact pos
    | cons v' row =>
      have tail := ih hrow
      rw [List.intercalate_cons_cons, List.length_append, List.length_append]
      rw [List.length_cons]
      omega

/-- Below 2^30 characters nothing overflows. -/
theorem fits_row {row : List Bytes} (h : ∀ w ∈ row, w ≠ [])
    (short : ((text " ").intercalate row).length < 2 ^ 30) :
    Fits firstLimit 0 1 row (row.count (text "|")) := by
  have length := length_row_le h
  have count := List.count_le_length (a := text "|") (l := row)
  apply fits_of_short
  · intro w hw
    exact Nat.lt_of_le_of_lt (length_mem_le hw) short
  · omega
  · omega

theorem readsBar_plain {w : Bytes} (h : ∀ c ∈ w, Plain c) : readsBar w = false := by
  have whole : cString w = w := cString_eq fun c hc => (h c hc).1
  rw [readsBar, whole, decide_eq_false_iff_not]
  exact plain_ne_bar h

/-- Split at the bars, the row gives the commands back. -/
theorem splitOnP_row {commands : List (List Bytes)} (hne : commands ≠ [])
    (plain : ∀ args ∈ commands, ∀ w ∈ args, ∀ c ∈ w, Plain c) :
    ([text "|"].intercalate commands).splitOnP readsBar = commands := by
  induction commands with
  | nil => exact absurd rfl hne
  | cons args commands ih =>
    obtain ⟨args_plain, rest_plain⟩ := List.forall_mem_cons.mp plain
    have none : ∀ w ∈ args, readsBar w = false := fun w hw => readsBar_plain (args_plain w hw)
    cases commands with
    | nil => rw [List.intercalate_singleton, List.splitOnP_eq_singleton none]
    | cons args' commands =>
      rw [List.intercalate_cons_cons, List.append_assoc, List.singleton_append,
        List.splitOnP_append_cons_of_forall_mem none (text "|") (by decide),
        ih (List.cons_ne_nil args' commands) rest_plain]

theorem count_row {commands : List (List Bytes)} (hne : commands ≠ [])
    (plain : ∀ args ∈ commands, ∀ w ∈ args, ∀ c ∈ w, Plain c) :
    1 + ([text "|"].intercalate commands).count (text "|") = commands.length := by
  induction commands with
  | nil => exact absurd rfl hne
  | cons args commands ih =>
    obtain ⟨args_plain, rest_plain⟩ := List.forall_mem_cons.mp plain
    have none : args.count (text "|") = 0 :=
      List.count_eq_zero.mpr fun h => plain_ne_bar (args_plain _ h) rfl
    cases commands with
    | nil => rw [List.intercalate_singleton, none, List.length_singleton]
    | cons args' commands =>
      rw [List.intercalate_cons_cons, List.count_append, List.count_append, none,
        List.count_singleton_self, List.length_cons,
        ← ih (List.cons_ne_nil args' commands) rest_plain]
      omega

/-- A pipeline of plain words, one space between them and around each bar, is read back: as many
commands, each with its words. -/
theorem Pipeline.parseLine_render (p : Pipeline) (rest : Bytes) (h : p.render.length < 2 ^ 30) :
    ∃ cmds : List Cmd,
      parseLine (p.render ++ byte '\n' :: rest) =
        .ok (⟨p.commands.length, cmds.map some⟩, rest) ∧
      List.Forall₂ Runs cmds p.commands := by
  have row : p.render = (text " ").intercalate p.row := intercalate_row p.args_ne
  have rowWords := rowWord_of_mem p.words_ne p.plain
  have hne : p.row ≠ [] := intercalate_ne_nil p.commands_ne p.args_ne
  have line : read .plain 0 [] (p.render ++ byte '\n' :: rest) =
      ⟨p.row, p.row.count (text "|"), rest⟩ := by
    rw [row]
    exact read_row hne rowWords 0 rest
  have words : lineWords (p.render ++ byte '\n' :: rest) = p.row := congrArg Reading.words line
  have bars : lineBars (p.render ++ byte '\n' :: rest) = p.row.count (text "|") :=
    congrArg Reading.bars line
  have behind : lineRest (p.render ++ byte '\n' :: rest) = rest := congrArg Reading.rest line
  have fits : LineFits (p.render ++ byte '\n' :: rest) := by
    rw [row] at h
    rw [LineFits, words, bars]
    exact fits_row (fun w hw => (rowWords w hw).ne_nil) h
  have commands : lineCommands (p.render ++ byte '\n' :: rest) = p.commands := by
    rw [lineCommands, words]
    exact splitOnP_row p.commands_ne p.plain
  have count : 1 + lineBars (p.render ++ byte '\n' :: rest) = p.commands.length := by
    rw [bars]
    exact count_row p.commands_ne p.plain
  obtain ⟨cmds, filled, ok, exactly, length, runs⟩ := parseLine_ok fits (by rw [commands, count])
  rw [count] at ok length
  rw [commands] at runs
  refine ⟨filled, ?_, runs⟩
  have full : cmds = filled.map some := by
    rw [exactly, length, runs.length_eq, Nat.sub_self]
    exact List.append_nil _
  rw [ok, full, behind]

/-- `ps aux | grep init`. -/
def psGrep : Pipeline where
  commands := [[text "ps", text "aux"], [text "grep", text "init"]]
  commands_ne := by decide
  args_ne := by decide
  words_ne := by decide
  plain := by
    simp only [List.forall_mem_cons]
    refine ⟨⟨?_, ?_, ?_⟩, ⟨?_, ?_, ?_⟩, ?_⟩
    all_goals first | exact forall_of_all (by decide) | simp

theorem parseLine_render_psGrep :
    ∃ cmds : List Cmd,
      parseLine (text "ps aux | grep init\nls") = .ok (⟨2, cmds.map some⟩, text "ls") ∧
      List.Forall₂ Runs cmds [[text "ps", text "aux"], [text "grep", text "init"]] :=
  psGrep.parseLine_render (text "ls") (by decide)

end Sysprog.Shell
