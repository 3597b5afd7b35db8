import Sysprog.Shell.Lexical

namespace Sysprog.Shell

/-- How many characters the first token of a line has to stay below: the next doubling of its
capacity would overflow an `int`. -/
def firstLimit : Nat := 3 * 2 ^ 29

/-- The same for every further token. -/
def nextLimit : Nat := 5 * 2 ^ 28

/-- The C string of `w`. -/
def IsString (token : Token) (w : Bytes) : Prop := token.Holds (w ++ [0])

theorem int_ok {n : Nat} (h : n < 2 ^ 31) : int n = .ok n := if_pos h

theorem int_overflow {n : Nat} (h : 2 ^ 31 ≤ n) : int n = .error .overflow :=
  if_neg (Nat.not_lt.mpr h)

theorem alloc1_keep (str : Token) {maxLen len : Nat} (h : len ≠ maxLen) :
    alloc1 str maxLen len = .ok (str, maxLen) := if_neg h

theorem alloc1_double (str : Token) {maxLen : Nat} (h : maxLen * 2 < 2 ^ 31) :
    alloc1 str maxLen maxLen = .ok (str.regrow maxLen (maxLen * 2), maxLen * 2) := by
  rw [alloc1, if_pos rfl, int_ok h]
  rfl

theorem alloc1_overflow (str : Token) {maxLen : Nat} (h : 2 ^ 31 ≤ maxLen * 2) :
    alloc1 str maxLen maxLen = .error .overflow := by
  rw [alloc1, if_pos rfl, int_overflow h]
  rfl

namespace Locals

/-- The token under way holds `cur`, in a buffer that can grow to `limit`. -/
structure Writes (s : Locals) (limit : Nat) (cur : Bytes) : Prop where
  chars : s.token.Holds cur
  length : s.token.length = s.maxLen
  j : s.j = cur.length
  below : s.j < s.maxLen
  grown : ∃ i, s.maxLen * 2 ^ i = limit
  limited : limit < 2 ^ 31 ∧ 2 ^ 31 ≤ limit * 2

theorem writes_initial : initial.Writes firstLimit [] :=
  ⟨Block.holds_nil _, rfl, rfl, by decide, ⟨29, rfl⟩, by decide⟩

theorem Writes.maxLen_le {s : Locals} {limit : Nat} {cur : Bytes} (h : s.Writes limit cur) :
    s.maxLen ≤ limit := by
  obtain ⟨i, hi⟩ := h.grown
  rw [← hi]
  exact Nat.le_mul_of_pos_right _ (Nat.two_pow_pos i)

theorem Writes.length_lt {s : Locals} {limit : Nat} {cur : Bytes} (h : s.Writes limit cur) :
    cur.length < limit := by
  have := h.below
  have := h.maxLen_le
  rw [← h.j]
  omega

/-- Below the limit there is room for one more doubling. -/
theorem Writes.double {s : Locals} {limit : Nat} {cur : Bytes} (h : s.Writes limit cur)
    (hlt : s.maxLen < limit) : ∃ i, s.maxLen * 2 * 2 ^ i = limit := by
  obtain ⟨i, hi⟩ := h.grown
  cases i with
  | zero => omega
  | succ i => exact ⟨i, by rw [← hi, Nat.pow_succ]; ring⟩

theorem Writes.putChar {s : Locals} {limit : Nat} {cur : Bytes} (h : s.Writes limit cur)
    (c : UInt8) (hc : cur.length + 1 < limit) :
    ∃ s', s.putChar c = .ok s' ∧ s'.Writes limit (cur ++ [c]) ∧ s'.tokens = s.tokens ∧
      s'.cmdCount = s.cmdCount := by
  obtain ⟨token, store, length, chars⟩ :=
    h.chars.store c (by rw [h.length, ← h.j]; exact h.below)
  rw [← h.j] at store
  have j : s.j + 1 = (cur ++ [c]).length := by simp [h.j]
  by_cases full : s.j + 1 = s.maxLen
  · have lt : s.maxLen < limit := by rw [← full, h.j]; exact hc
    obtain ⟨i, hi⟩ := h.double lt
    have fits : s.maxLen * 2 < 2 ^ 31 := by
      have le : s.maxLen * 2 ≤ limit := by
        rw [← hi]
        exact Nat.le_mul_of_pos_right _ (Nat.two_pow_pos i)
      exact Nat.lt_of_le_of_lt le h.limited.1
    obtain ⟨grown, size⟩ := chars.regrow (n := s.maxLen * 2) j (by omega)
    refine ⟨{ s with token := token.regrow (s.j + 1) (s.maxLen * 2), maxLen := s.maxLen * 2,
                     j := s.j + 1 }, ?_, ⟨grown, size, j, ?_, ⟨i, hi⟩, h.limited⟩, rfl, rfl⟩
    · rw [Locals.putChar, store, full]
      simp only [checked, alloc1_double _ fits, bind, Except.bind]
    · change s.j + 1 < s.maxLen * 2
      omega
  · refine ⟨{ s with token := token, j := s.j + 1 }, ?_,
      ⟨chars, length.trans h.length, j, ?_, h.grown, h.limited⟩, rfl, rfl⟩
    · rw [Locals.putChar, store]
      simp only [checked, alloc1_keep _ full, bind, Except.bind]
    · have := h.below
      change s.j + 1 < s.maxLen
      omega

/-- At the limit the capacity cannot be doubled any more. -/
theorem Writes.putChar_overflow {s : Locals} {limit : Nat} {cur : Bytes} (h : s.Writes limit cur)
    (c : UInt8) (hc : limit ≤ cur.length + 1) : s.putChar c = .error .overflow := by
  obtain ⟨token, store, -, -⟩ := h.chars.store c (by rw [h.length, ← h.j]; exact h.below)
  rw [← h.j] at store
  have below := h.below
  have le := h.maxLen_le
  have limited := h.limited
  have full : s.j + 1 = s.maxLen := by rw [← h.j] at hc; omega
  have big : 2 ^ 31 ≤ s.maxLen * 2 := by rw [← h.j] at hc; omega
  rw [Locals.putChar, store, full]
  simp only [checked, alloc1_overflow _ big, bind, Except.bind]

/-- The zero behind the characters. -/
theorem Writes.terminate {s : Locals} {limit : Nat} {cur : Bytes} (h : s.Writes limit cur) :
    ∃ token, s.token.store s.j 0 = some token ∧ IsString token cur := by
  obtain ⟨token, store, -, chars⟩ := h.chars.store 0 (by rw [h.length, ← h.j]; exact h.below)
  exact ⟨token, by rw [h.j, store], chars⟩

/-- The tokens so far spell `done`, and the one under way holds `cur`. -/
structure Reads (s : Locals) (limit : Nat) (done : List Bytes) (cur : Bytes) : Prop
    extends s.Writes limit cur where
  tokens : List.Forall₂ IsString s.tokens done
  room : done.length + 1 < 2 ^ 31
  commands : s.cmdCount < 2 ^ 31

theorem reads_initial : initial.Reads firstLimit [] [] :=
  { writes_initial with tokens := .nil, room := by decide, commands := by decide }

theorem Reads.putChar {s : Locals} {limit : Nat} {done : List Bytes} {cur : Bytes}
    (h : s.Reads limit done cur) (c : UInt8) (hc : cur.length + 1 < limit) :
    ∃ s', s.putChar c = .ok s' ∧ s'.Reads limit done (cur ++ [c]) ∧ s'.cmdCount = s.cmdCount := by
  obtain ⟨s', step, writes, tokens, count⟩ := h.toWrites.putChar c hc
  refine ⟨s', step, { writes with tokens := ?_, room := h.room, commands := ?_ }, count⟩
  · rw [tokens]
    exact h.tokens
  · rw [count]
    exact h.commands

theorem Reads.countCommand {s : Locals} {limit : Nat} {done : List Bytes} {cur : Bytes}
    (h : s.Reads limit done cur) (hc : s.cmdCount + 1 < 2 ^ 31) :
    ∃ s', s.countCommand = .ok s' ∧ s'.Reads limit done cur ∧ s'.cmdCount = s.cmdCount + 1 := by
  refine ⟨{ s with cmdCount := s.cmdCount + 1 }, ?_, ?_, rfl⟩
  · simp only [Locals.countCommand, int_ok hc, bind, Except.bind]
  · exact { chars := h.chars, length := h.length, j := h.j, below := h.below, grown := h.grown,
            limited := h.limited, tokens := h.tokens, room := h.room, commands := hc }

theorem countCommand_overflow {s : Locals} (hc : 2 ^ 31 ≤ s.cmdCount + 1) :
    s.countCommand = .error .overflow := by
  simp only [Locals.countCommand, int_overflow hc, bind, Except.bind]

/-- A bar is counted and stored. -/
theorem Reads.bar {s : Locals} {limit : Nat} {done : List Bytes} {cur : Bytes}
    (h : s.Reads limit done cur) (hc : s.cmdCount + 1 < 2 ^ 31) (hlt : cur.length + 1 < limit) :
    ∃ s', s.mark .bar = .ok s' ∧ s'.Reads limit done (cur ++ [byte '|']) ∧
      s'.cmdCount = s.cmdCount + 1 := by
  obtain ⟨u, counted, reads, more⟩ := h.countCommand hc
  obtain ⟨s', stored, reads, count⟩ := reads.putChar (byte '|') hlt
  refine ⟨s', ?_, reads, count.trans more⟩
  rw [Locals.mark, counted]
  exact stored

theorem Reads.bar_overflow {s : Locals} {limit : Nat} {done : List Bytes} {cur : Bytes}
    (h : s.Reads limit done cur) (hc : ¬ (s.cmdCount + 1 < 2 ^ 31 ∧ cur.length + 1 < limit)) :
    s.mark .bar = .error .overflow := by
  by_cases room : s.cmdCount + 1 < 2 ^ 31
  · obtain ⟨u, counted, reads, -⟩ := h.countCommand room
    rw [Locals.mark, counted]
    apply reads.putChar_overflow
    omega
  · rw [Locals.mark, countCommand_overflow (Nat.not_lt.mp room)]
    rfl

theorem Reads.endToken {s : Locals} {limit : Nat} {done : List Bytes} {cur : Bytes}
    (h : s.Reads limit done cur) (ht : done.length + 1 + 1 < 2 ^ 31) :
    ∃ s', s.endToken = .ok s' ∧ s'.Reads nextLimit (done ++ [cur]) [] ∧
      s'.cmdCount = s.cmdCount := by
  obtain ⟨token, store, isString⟩ := h.terminate
  have ht' : s.tokens.length + 1 + 1 < 2 ^ 31 := by rw [h.tokens.length_eq]; exact ht
  refine ⟨{ s with tokens := s.tokens ++ [token], token := Block.allocate 5, j := 0,
                   maxLen := 5 }, ?_, ?_, rfl⟩
  · rw [Locals.endToken, store]
    simp only [checked, int_ok ht', bind, Except.bind]
  · exact
      { chars := Block.holds_nil _, length := rfl, j := rfl, below := Nat.zero_lt_succ 4,
        grown := ⟨28, rfl⟩, limited := by decide,
        tokens := List.rel_append h.tokens (.cons isString .nil)
        room := by simpa using ht
        commands := h.commands }

theorem Reads.endToken_overflow {s : Locals} {limit : Nat} {done : List Bytes} {cur : Bytes}
    (h : s.Reads limit done cur) (ht : 2 ^ 31 ≤ done.length + 1 + 1) :
    s.endToken = .error .overflow := by
  obtain ⟨token, store, -⟩ := h.terminate
  have ht' : 2 ^ 31 ≤ s.tokens.length + 1 + 1 := by rw [h.tokens.length_eq]; exact ht
  rw [Locals.endToken, store]
  simp only [checked, int_overflow ht', bind, Except.bind]

end Locals

/-- Every word stays below its limit, that of the first being another one. -/
def Short (limit : Nat) : List Bytes → Prop
  | [] => True
  | w :: words => w.length < limit ∧ ∀ v ∈ words, v.length < nextLimit

/-- No `int` overflows on the further words and bars, behind as many tokens and commands. -/
structure Fits (limit tokens commands : Nat) (words : List Bytes) (bars : Nat) : Prop where
  short : Short limit words
  tokens : tokens + words.length + 1 < 2 ^ 31
  commands : commands + bars < 2 ^ 31

theorem short_next {words : List Bytes} :
    Short nextLimit words ↔ ∀ v ∈ words, v.length < nextLimit := by
  cases words <;> simp [Short]

theorem fits_stop {limit tokens commands : Nat} {cur : Bytes} {words : List Bytes} {bars : Nat}
    (h : cur.length < limit) :
    Fits limit tokens commands (cur :: words) bars ↔
      Fits nextLimit (tokens + 1) commands words bars := by
  constructor
  · intro f
    have := f.tokens
    exact ⟨short_next.mpr f.short.2, by rw [List.length_cons] at this; omega, f.commands⟩
  · intro f
    have := f.tokens
    exact ⟨⟨h, short_next.mp f.short⟩, by rw [List.length_cons]; omega, f.commands⟩

theorem fits_bar {limit tokens commands : Nat} {words : List Bytes} {bars : Nat} :
    Fits limit tokens commands words (bars + 1) ↔ Fits limit tokens (commands + 1) words bars := by
  constructor
  · intro f
    have := f.commands
    exact ⟨f.short, f.tokens, by omega⟩
  · intro f
    have := f.commands
    exact ⟨f.short, f.tokens, by omega⟩

/-- Below 2^30 characters for each word, and as many words and bars, nothing overflows. -/
theorem fits_of_short {words : List Bytes} {bars : Nat} (short : ∀ w ∈ words, w.length < 2 ^ 30)
    (tokens : words.length ≤ 2 ^ 30) (commands : bars ≤ 2 ^ 30) : Fits firstLimit 0 1 words bars := by
  refine ⟨?_, by omega, by omega⟩
  cases words with
  | nil => trivial
  | cons w words =>
    obtain ⟨hw, rest⟩ := List.forall_mem_cons.mp short
    refine ⟨Nat.lt_trans hw (by decide), ?_⟩
    intro v hv
    exact Nat.lt_trans (rest v hv) (by decide)

theorem Fits.length_lt {limit tokens commands : Nat} {cur : Bytes} {marks : List Mark} {bars : Nat}
    (h : Fits limit tokens commands (wordsFrom cur marks) bars) (hc : cur ≠ []) :
    cur.length < limit := by
  obtain ⟨more, words, eq⟩ := wordsFrom_head hc marks
  have short := h.short
  rw [eq] at short
  have := short.1
  rw [List.length_append] at this
  omega

namespace Locals

theorem Reads.lastToken {s : Locals} {limit : Nat} {done : List Bytes} {cur : Bytes}
    (h : s.Reads limit done cur)
    (hf : Fits limit done.length s.cmdCount (wordsFrom cur []) 0) :
    ∃ s', s.lastToken = .ok s' ∧ List.Forall₂ IsString s'.tokens (done ++ wordsFrom cur []) ∧
      s'.cmdCount = s.cmdCount := by
  obtain ⟨token, store, isString⟩ := h.terminate
  by_cases hc : cur = []
  · refine ⟨s, ?_, by simpa [wordsFrom, hc] using h.tokens, rfl⟩
    have zero : ¬ s.j > 0 := by simp [h.j, hc]
    rw [Locals.lastToken, if_neg zero]
  · have pos : s.j > 0 := by rw [h.j]; exact List.length_pos_of_ne_nil hc
    have room : s.tokens.length + 1 + 1 < 2 ^ 31 := by
      have := hf.tokens
      simpa [wordsFrom, hc, h.tokens.length_eq] using this
    refine ⟨{ s with tokens := s.tokens ++ [token] }, ?_, ?_, rfl⟩
    · rw [Locals.lastToken, if_pos pos, store]
      simp only [checked, int_ok room, bind, Except.bind]
    · simpa [wordsFrom, hc] using List.rel_append h.tokens (.cons isString .nil)

theorem Reads.lastToken_overflow {s : Locals} {limit : Nat} {done : List Bytes} {cur : Bytes}
    (h : s.Reads limit done cur)
    (hf : ¬ Fits limit done.length s.cmdCount (wordsFrom cur []) 0) :
    s.lastToken = .error .overflow := by
  obtain ⟨token, store, -⟩ := h.terminate
  by_cases hc : cur = []
  · have fits : Fits limit done.length s.cmdCount (wordsFrom cur []) 0 := by
      rw [wordsFrom, if_pos hc]
      exact ⟨trivial, h.room, h.commands⟩
    exact absurd fits hf
  · have pos : s.j > 0 := by rw [h.j]; exact List.length_pos_of_ne_nil hc
    have full : 2 ^ 31 ≤ s.tokens.length + 1 + 1 := by
      by_contra room
      apply hf
      rw [wordsFrom, if_neg hc]
      refine ⟨⟨h.length_lt, by simp⟩, ?_, h.commands⟩
      rw [← h.tokens.length_eq]
      exact Nat.lt_of_not_le room
    rw [Locals.lastToken, if_pos pos, store]
    simp only [checked, int_overflow full, bind, Except.bind]

theorem marks_step {s t : Locals} {m : Mark} (h : s.mark m = .ok t) (ms : List Mark) :
    (s.marks (m :: ms) >>= Locals.lastToken) = (t.marks ms >>= Locals.lastToken) := by
  rw [Locals.marks, h]
  rfl

theorem marks_fault {s : Locals} {m : Mark} {e : Fault} (h : s.mark m = .error e) (ms : List Mark) :
    (s.marks (m :: ms) >>= Locals.lastToken) = .error e := by
  rw [Locals.marks, h]
  rfl

/-- The character loops: where nothing overflows, the token under way holds its characters, and what
is left fits. -/
theorem Reads.marks_state {s : Locals} {limit : Nat} {done : List Bytes} {cur : Bytes}
    (h : s.Reads limit done cur) (ms : List Mark)
    (hf : Fits limit done.length s.cmdCount (wordsFrom cur ms) (ms.count .bar)) :
    ∃ s' limit' done', s.marks ms = .ok s' ∧ s'.Reads limit' done' (underWay cur ms) ∧
      Fits limit' done'.length s'.cmdCount (wordsFrom (underWay cur ms) []) 0 ∧
      done' ++ wordsFrom (underWay cur ms) [] = done ++ wordsFrom cur ms ∧
      s'.cmdCount = s.cmdCount + ms.count .bar := by
  induction ms generalizing s limit done cur with
  | nil => exact ⟨s, limit, done, rfl, h, hf, rfl, rfl⟩
  | cons m ms ih =>
    cases m with
    | char c =>
      rw [wordsFrom, List.count_cons_of_ne (by simp)] at hf
      have lt := hf.length_lt (by simp)
      obtain ⟨t, step, reads, count⟩ := h.putChar c (by simpa using lt)
      obtain ⟨s', limit', done', run, state, left, words, total⟩ :=
        ih reads (by rw [count]; exact hf)
      refine ⟨s', limit', done', ?_, state, left, words, by simpa [count] using total⟩
      rw [Locals.marks, show s.mark (.char c) = .ok t from step]
      exact run
    | bar =>
      rw [wordsFrom, List.count_cons_self, fits_bar] at hf
      have lt := hf.length_lt (by simp)
      have room := hf.commands
      obtain ⟨t, step, reads, count⟩ := h.bar (by omega) (by simpa using lt)
      obtain ⟨s', limit', done', run, state, left, words, total⟩ :=
        ih reads (by rw [count]; exact hf)
      refine ⟨s', limit', done', ?_, state, left, words, ?_⟩
      · rw [Locals.marks, step]
        exact run
      · rw [total, count, List.count_cons_self]
        omega
    | stop =>
      rw [wordsFrom, List.count_cons_of_ne (by simp), fits_stop h.length_lt] at hf
      obtain ⟨t, step, reads, count⟩ := h.endToken (by have := hf.tokens; omega)
      obtain ⟨s', limit', done', run, state, left, words, total⟩ :=
        ih reads (by simpa [count] using hf)
      refine ⟨s', limit', done', ?_, state, left,
        words.trans (List.append_assoc done [cur] _), by simpa [count] using total⟩
      rw [Locals.marks, show s.mark .stop = .ok t from step]
      exact run

/-- The character loops and the last token: where nothing overflows, the tokens spell the words. -/
theorem Reads.marks {s : Locals} {limit : Nat} {done : List Bytes} {cur : Bytes}
    (h : s.Reads limit done cur) (ms : List Mark)
    (hf : Fits limit done.length s.cmdCount (wordsFrom cur ms) (ms.count .bar)) :
    ∃ s', (s.marks ms >>= Locals.lastToken) = .ok s' ∧
      List.Forall₂ IsString s'.tokens (done ++ wordsFrom cur ms) ∧
      s'.cmdCount = s.cmdCount + ms.count .bar := by
  obtain ⟨t, limit', done', run, reads, left, words, total⟩ := h.marks_state ms hf
  obtain ⟨s', last, tokens, count⟩ := reads.lastToken left
  rw [words] at tokens
  refine ⟨s', ?_, tokens, count.trans total⟩
  rw [run]
  exact last

/-- Where an `int` overflows, that is how the loops end. -/
theorem Reads.marks_overflow {s : Locals} {limit : Nat} {done : List Bytes} {cur : Bytes}
    (h : s.Reads limit done cur) (ms : List Mark)
    (hf : ¬ Fits limit done.length s.cmdCount (wordsFrom cur ms) (ms.count .bar)) :
    (s.marks ms >>= Locals.lastToken) = .error .overflow := by
  induction ms generalizing s limit done cur with
  | nil => exact h.lastToken_overflow hf
  | cons m ms ih =>
    cases m with
    | char c =>
      rw [wordsFrom, List.count_cons_of_ne (by simp)] at hf
      by_cases lt : cur.length + 1 < limit
      · obtain ⟨t, step, reads, count⟩ := h.putChar c lt
        rw [marks_step (m := .char c) step]
        exact ih reads (by rw [count]; exact hf)
      · exact marks_fault (m := .char c) (h.putChar_overflow c (Nat.not_lt.mp lt)) ms
    | bar =>
      rw [wordsFrom, List.count_cons_self, fits_bar] at hf
      by_cases room : s.cmdCount + 1 < 2 ^ 31 ∧ cur.length + 1 < limit
      · obtain ⟨t, step, reads, count⟩ := h.bar room.1 room.2
        rw [marks_step step]
        exact ih reads (by rw [count]; exact hf)
      · exact marks_fault (h.bar_overflow room) ms
    | stop =>
      rw [wordsFrom, List.count_cons_of_ne (by simp), fits_stop h.length_lt] at hf
      by_cases room : done.length + 1 + 1 < 2 ^ 31
      · obtain ⟨t, step, reads, count⟩ := h.endToken room
        rw [marks_step (m := .stop) step]
        exact ih reads (by simpa [count] using hf)
      · exact marks_fault (m := .stop) (h.endToken_overflow (Nat.not_lt.mp room)) ms

end Locals

/-- No `int` overflows while the line is read. -/
def LineFits (input : Bytes) : Prop := Fits firstLimit 0 1 (lineWords input) (lineBars input)

/-- The first half of `parse_line`. -/
def tokenize (input : Bytes) : Except Fault (Locals × Bytes) := do
  let (s, rest) ← readLine .plain 0 Locals.initial input
  let s ← s.lastToken
  .ok (s, rest)

theorem tokenize_eq (input : Bytes) :
    tokenize input = (fun s => (s, lineRest input)) <$>
      (Locals.initial.marks (scan .plain 0 input).1 >>= Locals.lastToken) := by
  rw [tokenize, readLine_eq]
  simp only [lineRest, bind_map_left, map_bind]
  congr

/-- The tokens of a line are the C strings of its words. -/
theorem tokenize_ok {input : Bytes} (h : LineFits input) :
    ∃ s, tokenize input = .ok (s, lineRest input) ∧
      List.Forall₂ IsString s.tokens (lineWords input) ∧ s.cmdCount = 1 + lineBars input := by
  obtain ⟨s, run, tokens, count⟩ := Locals.reads_initial.marks (scan .plain 0 input).1 h
  refine ⟨s, ?_, tokens, count⟩
  rw [tokenize_eq, run]
  rfl

theorem tokenize_overflow {input : Bytes} (h : ¬ LineFits input) :
    tokenize input = .error .overflow := by
  rw [tokenize_eq, Locals.reads_initial.marks_overflow _ h]
  rfl

end Sysprog.Shell
