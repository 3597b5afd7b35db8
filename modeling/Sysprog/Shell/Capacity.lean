import Sysprog.Shell.Table

namespace Sysprog.Shell

theorem length_mem_wordsFrom (marks : List Mark) {cur w : Bytes} (h : w ∈ wordsFrom cur marks) :
    w.length ≤ cur.length + marks.length := by
  induction marks generalizing cur with
  | nil =>
    by_cases hc : cur = []
    · simp [wordsFrom, hc] at h
    · have eq : w = cur := by simpa [wordsFrom, hc] using h
      rw [eq]
      exact Nat.le_add_right _ _
  | cons m marks ih =>
    rw [List.length_cons]
    cases m with
    | char c =>
      have := ih (show w ∈ wordsFrom (cur ++ [c]) marks from h)
      rw [List.length_append, List.length_singleton] at this
      omega
    | bar =>
      have := ih (show w ∈ wordsFrom (cur ++ [byte '|']) marks from h)
      rw [List.length_append, List.length_singleton] at this
      omega
    | stop =>
      rcases List.mem_cons.mp (show w ∈ cur :: wordsFrom [] marks from h) with rfl | h
      · omega
      · have := ih h
        rw [List.length_nil] at this
        omega

theorem length_wordsFrom (cur : Bytes) (marks : List Mark) :
    (wordsFrom cur marks).length ≤ marks.length + 1 := by
  induction marks generalizing cur with
  | nil => by_cases hc : cur = [] <;> simp [wordsFrom, hc]
  | cons m marks ih =>
    rw [List.length_cons]
    cases m with
    | char c =>
      apply (ih (cur ++ [c])).trans
      omega
    | bar =>
      apply (ih (cur ++ [byte '|'])).trans
      omega
    | stop =>
      rw [wordsFrom, List.length_cons]
      exact Nat.succ_le_succ (ih [])

/-- A character makes one mark at most, and the end of the input makes one behind a backslash. -/
theorem length_scan (mode : Mode) (prev : UInt8) (input : Bytes) :
    (scan mode prev input).1.length ≤ input.length + if mode = .escape then 1 else 0 := by
  induction mode, prev, input using scan.induct with
  | _ => simp_all [scan, emit] <;> omega

/-- No `int` overflows on fewer than 2^30 marks. -/
theorem fits_marks {marks : List Mark} (h : marks.length < 2 ^ 30) :
    Fits firstLimit 0 1 (wordsFrom [] marks) (marks.count .bar) := by
  have length := length_wordsFrom [] marks
  have count := List.count_le_length (a := Mark.bar) (l := marks)
  apply fits_of_short
  · intro w hw
    have := length_mem_wordsFrom marks hw
    rw [List.length_nil] at this
    omega
  · omega
  · omega

/-- There is room for one more store at `j`, and the buffer holds the characters `cur`. -/
structure Locals.Room (s : Locals) (cur : Bytes) : Prop where
  below : s.j < s.maxLen
  length : s.token.length = s.maxLen
  chars : s.token.Holds cur
  j : s.j = cur.length

/-- Wherever the loops over fewer than 2^30 characters stand, there is room. -/
theorem marks_room {input : Bytes} (h : input.length < 2 ^ 30) {ms : List Mark}
    (front : ms <+: (scan .plain 0 input).1) :
    ∃ s, Locals.initial.marks ms = .ok s ∧ s.Room (underWay [] ms) := by
  have short : ms.length < 2 ^ 30 := by
    have all : (scan .plain 0 input).1.length ≤ input.length := length_scan .plain 0 input
    exact Nat.lt_of_le_of_lt (front.length_le.trans all) h
  obtain ⟨s, limit, done, run, reads, -⟩ :=
    Locals.reads_initial.marks_state ms (fits_marks short)
  exact ⟨s, run, reads.below, reads.length, reads.chars, reads.j⟩

/-- Each `argv` is large enough for the arguments it has, for the tokens that are left and for the
`NULL`; this is what one token keeps. -/
theorem Table.Fills.fill_room {t t' : Table} {filled : List Cmd} {args : List Token}
    (h : t.Fills filled args) (n i : Nat) (front : List Token) (hi : i + front.length ≤ n)
    (room : args.length + (n - i) < t.argv.length) (run : Table.fill n i t front = .ok t') :
    t'.j < t'.argv.length := by
  induction front generalizing t filled args i with
  | nil =>
    cases run
    rw [h.j]
    omega
  | cons token front ih =>
    rw [List.length_cons] at hi
    have below : args.length < t.argv.length := by omega
    cases bar : isBar token with
    | true =>
      by_cases space : filled.length < t.cmds.length
      · obtain ⟨next, cmd, step, -, fills, size, -⟩ := h.fill_bar below space n i bar front
        rw [step] at run
        apply ih fills (i + 1) (by omega) _ run
        rw [size, List.length_nil]
        omega
      · rw [Table.fill, if_pos bar, h.close_fault below (Nat.not_lt.mp space)] at run
        cases run
    | false =>
      obtain ⟨next, step, fills, size, -⟩ := h.fill_token below n i bar front
      rw [step] at run
      apply ih fills (i + 1) (by omega) _ run
      rw [size, List.length_append, List.length_singleton]
      omega

/-- The stores of `parse_line` into its buffers: the character loops make those of the marks of the
line, with room before each of them and the characters kept, and so do the finished tokens; each
`argv` has room before every token and behind the last, however large `cmds` is. -/
structure Contained (input : Bytes) : Prop where
  loops : readLine .plain 0 Locals.initial input =
    (fun s => (s, lineRest input)) <$> Locals.initial.marks (scan .plain 0 input).1
  characters : ∀ ms, ms <+: (scan .plain 0 input).1 →
    ∃ s, Locals.initial.marks ms = .ok s ∧ s.Room (underWay [] ms)
  tokens : ∃ s, tokenize input = .ok (s, lineRest input) ∧
    List.Forall₂ IsString s.tokens (lineWords input) ∧
    ∀ (size : Nat) (front : List Token) (t : Table), front <+: s.tokens →
      Table.fill s.tokens.length 0
        ⟨Block.allocate size, 0, Block.allocate (s.tokens.length + 1), 0⟩ front = .ok t →
      t.j < t.argv.length
  faultless : parseLine input ≠ .error .token ∧ parseLine input ≠ .error .argv

theorem lineFits_of_short {input : Bytes} (h : input.length < 2 ^ 30) : LineFits input := by
  apply fits_marks
  exact Nat.lt_of_le_of_lt (length_scan .plain 0 input) h

/-- On a line that fits, the only store that `parse_line` can make outside its memory is one into
`cmds`. -/
theorem parseLine_faults {input : Bytes} (h : LineFits input) {fault : Fault}
    (hp : parseLine input = .error fault) : fault = .commands := by
  by_cases space : (lineCommands input).length ≤ 1 + lineBars input
  · obtain ⟨cmds, filled, ok, -⟩ := parseLine_ok h space
    rw [ok] at hp
    cases hp
  · rw [parseLine_fault h (Nat.not_le.mp space)] at hp
    cases hp
    rfl

/-- Below 2^30 characters, the token and `argv` buffers of `parse_line` never overflow. -/
theorem contained_of_short (input : Bytes) (h : input.length < 2 ^ 30) : Contained input := by
  have fits := lineFits_of_short h
  obtain ⟨s, run, words, -⟩ := tokenize_ok fits
  refine ⟨readLine_eq .plain 0 Locals.initial input, fun ms front => marks_room h front,
    ⟨s, run, words, ?_⟩, ?_, ?_⟩
  · intro size front t prefixes filled
    apply (fills_initial s.tokens.length size).fill_room s.tokens.length 0 front _ _ filled
    · rw [Nat.zero_add]
      exact prefixes.length_le
    · rw [Block.length_allocate, List.length_nil]
      omega
  · intro hp
    cases parseLine_faults fits hp
  · intro hp
    cases parseLine_faults fits hp

theorem contained_pipe : Contained (text "ls -l | wc\n") :=
  contained_of_short _ (by decide)

end Sysprog.Shell
