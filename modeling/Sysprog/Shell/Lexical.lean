import Sysprog.Shell.Parser

namespace Sysprog.Shell

/-- What the characters of a line come to. -/
inductive Mark where
  | char (c : UInt8)
  /-- A `|` outside quotes, which is also a character of its token. -/
  | bar
  /-- The end of a token. -/
  | stop
  deriving DecidableEq

def emit (m : Mark) (r : List Mark × Bytes) : List Mark × Bytes := (m :: r.1, r.2)

/-- The marks of a line, and the input behind the line. -/
def scan : Mode → UInt8 → Bytes → List Mark × Bytes
  | .plain, _, [] => ([], [])
  | .dquote, _, [] => ([], [])
  | .squote, _, [] => ([], [])
  | .escape, _, [] => ([.char (byte '\\')], [])
  | .plain, prev, c :: input =>
    if c = byte '\n' then ([], input)
    else if c = byte ' ' then emit .stop (scan .plain c input)
    else if c = byte '"' then scan .dquote 0 input
    else if c = byte '>' then scan .plain prev input
    else if c = byte '\'' then scan .squote prev input
    else if c = byte '|' then emit .bar (scan .plain c input)
    else if c = byte '\\' then scan .escape prev input
    else emit (.char c) (scan .plain c input)
  | .dquote, prev, c :: input =>
    if c ≠ byte '"' ∨ prev = byte '\\' then emit (.char c) (scan .dquote c input)
    else emit .stop (scan .plain prev input)
  | .squote, prev, c :: input =>
    if c = byte '\n' then scan .squote prev input
    else if c ≠ byte '\'' ∨ prev = byte '\\' then emit (.char c) (scan .squote c input)
    else emit .stop (scan .plain c input)
  | .escape, prev, c :: input =>
    if c = byte '\n' then scan .plain prev input
    else emit (.char (byte '\\')) (scan .plain c input)

/-- The words that marks spell, behind the characters `cur` of a word already begun. -/
def wordsFrom (cur : Bytes) : List Mark → List Bytes
  | [] => if cur = [] then [] else [cur]
  | .char c :: marks => wordsFrom (cur ++ [c]) marks
  | .bar :: marks => wordsFrom (cur ++ [byte '|']) marks
  | .stop :: marks => cur :: wordsFrom [] marks

/-- The characters of the word under way behind these marks, where it began with `cur`. -/
def underWay (cur : Bytes) : List Mark → Bytes
  | [] => cur
  | .char c :: marks => underWay (cur ++ [c]) marks
  | .bar :: marks => underWay (cur ++ [byte '|']) marks
  | .stop :: marks => underWay [] marks

/-- The words of the line that begins `input`. -/
def lineWords (input : Bytes) : List Bytes := wordsFrom [] (scan .plain 0 input).1

/-- How many `|` of the line stand outside quotes. -/
def lineBars (input : Bytes) : Nat := (scan .plain 0 input).1.count .bar

def lineRest (input : Bytes) : Bytes := (scan .plain 0 input).2

/-- A word that has begun goes on, and is the first of the words. -/
theorem wordsFrom_head {cur : Bytes} (h : cur ≠ []) (marks : List Mark) :
    ∃ more words, wordsFrom cur marks = (cur ++ more) :: words := by
  induction marks generalizing cur with
  | nil => exact ⟨[], [], by simp [wordsFrom, h]⟩
  | cons m marks ih =>
    cases m with
    | char c =>
      have begun : cur ++ [c] ≠ [] := by simp
      obtain ⟨more, words, eq⟩ := ih begun
      exact ⟨c :: more, words, by simp [wordsFrom, eq]⟩
    | bar =>
      have begun : cur ++ [byte '|'] ≠ [] := by simp
      obtain ⟨more, words, eq⟩ := ih begun
      exact ⟨byte '|' :: more, words, by simp [wordsFrom, eq]⟩
    | stop => exact ⟨[], wordsFrom [] marks, by simp [wordsFrom]⟩

namespace Locals

def mark (s : Locals) : Mark → Except Fault Locals
  | .char c => s.putChar c
  | .bar => do
    let s ← s.countCommand
    s.putChar (byte '|')
  | .stop => s.endToken

def marks (s : Locals) : List Mark → Except Fault Locals
  | [] => .ok s
  | m :: ms => do
    let s ← s.mark m
    s.marks ms

end Locals

/-- The loops over the characters do to the buffers what the marks of the line say. -/
theorem readLine_eq (mode : Mode) (prev : UInt8) (s : Locals) (input : Bytes) :
    readLine mode prev s input =
      (fun s => (s, (scan mode prev input).2)) <$> s.marks (scan mode prev input).1 := by
  induction mode, prev, input using scan.induct generalizing s with
  | _ => simp_all [readLine, scan, emit, Locals.marks, Locals.mark, Except.map_ok]

/-- What is read from a place of the line on: the words, behind the characters `cur` of the one
under way, the bars, and the input behind the line. -/
structure Reading where
  words : List Bytes
  bars : Nat
  rest : Bytes

def read (mode : Mode) (prev : UInt8) (cur input : Bytes) : Reading :=
  ⟨wordsFrom cur (scan mode prev input).1, (scan mode prev input).1.count .bar,
    (scan mode prev input).2⟩

def Reading.push (w : Bytes) (r : Reading) : Reading := { r with words := w :: r.words }

theorem lineWords_eq (input : Bytes) : lineWords input = (read .plain 0 [] input).words := rfl

theorem read_newline (prev : UInt8) (cur input : Bytes) :
    read .plain prev cur (byte '\n' :: input) = ⟨if cur = [] then [] else [cur], 0, input⟩ := by
  simp [read, scan, wordsFrom]

theorem read_space (prev : UInt8) (cur input : Bytes) :
    read .plain prev cur (byte ' ' :: input) = (read .plain (byte ' ') [] input).push cur := by
  have ne : byte ' ' ≠ byte '\n' := by decide
  simp [read, scan, emit, wordsFrom, Reading.push, ne]

theorem read_dquote (prev : UInt8) (cur input : Bytes) :
    read .plain prev cur (byte '"' :: input) = read .dquote 0 cur input := by
  have ne : byte '"' ≠ byte '\n' ∧ byte '"' ≠ byte ' ' := by decide
  simp [read, scan, ne]

theorem read_squote (prev : UInt8) (cur input : Bytes) :
    read .plain prev cur (byte '\'' :: input) = read .squote prev cur input := by
  have ne : byte '\'' ≠ byte '\n' ∧ byte '\'' ≠ byte ' ' ∧ byte '\'' ≠ byte '"' ∧
    byte '\'' ≠ byte '>' := by decide
  simp [read, scan, ne]

theorem read_bar (prev : UInt8) (cur input : Bytes) :
    read .plain prev cur (byte '|' :: input) =
      { read .plain (byte '|') (cur ++ [byte '|']) input with
        bars := (read .plain (byte '|') (cur ++ [byte '|']) input).bars + 1 } := by
  have ne : byte '|' ≠ byte '\n' ∧ byte '|' ≠ byte ' ' ∧ byte '|' ≠ byte '"' ∧
    byte '|' ≠ byte '>' ∧ byte '|' ≠ byte '\'' := by decide
  simp [read, scan, emit, wordsFrom, ne]

/-- The character behind a backslash is lost, and the backslash is kept. -/
theorem read_escape (prev : UInt8) (cur : Bytes) {c : UInt8} (hc : c ≠ byte '\n') (input : Bytes) :
    read .plain prev cur (byte '\\' :: c :: input) =
      read .plain c (cur ++ [byte '\\']) input := by
  have ne : byte '\\' ≠ byte '\n' ∧ byte '\\' ≠ byte ' ' ∧ byte '\\' ≠ byte '"' ∧
    byte '\\' ≠ byte '>' ∧ byte '\\' ≠ byte '\'' ∧ byte '\\' ≠ byte '|' := by decide
  simp [read, scan, emit, wordsFrom, ne, hc]

/-- What `parse_line` treats apart, but for the newline. -/
def special (c : UInt8) : Bool := (text " \"'\\>|").contains c

theorem read_char (prev : UInt8) (cur : Bytes) {c : UInt8} (hc : c ≠ byte '\n')
    (hs : special c = false) (input : Bytes) :
    read .plain prev cur (c :: input) = read .plain c (cur ++ [c]) input := by
  have ne : c ≠ byte ' ' ∧ c ≠ byte '"' ∧ c ≠ byte '\'' ∧ c ≠ byte '\\' ∧ c ≠ byte '>' ∧
    c ≠ byte '|' := by
    simpa [special, text] using hs
  simp [read, scan, emit, wordsFrom, ne, hc]

theorem read_dquoted (prev : UInt8) (cur : Bytes) {c : UInt8}
    (hc : c ≠ byte '"' ∨ prev = byte '\\') (input : Bytes) :
    read .dquote prev cur (c :: input) = read .dquote c (cur ++ [c]) input := by
  simp only [read, scan, if_pos hc, emit, wordsFrom]
  simp

theorem read_dquoted_close {prev : UInt8} (hp : prev ≠ byte '\\') (cur input : Bytes) :
    read .dquote prev cur (byte '"' :: input) = (read .plain prev [] input).push cur := by
  simp [read, scan, hp, emit, wordsFrom, Reading.push]

theorem read_squoted (prev : UInt8) (cur : Bytes) {c : UInt8} (hn : c ≠ byte '\n')
    (hc : c ≠ byte '\'') (input : Bytes) :
    read .squote prev cur (c :: input) = read .squote c (cur ++ [c]) input := by
  simp [read, scan, hn, hc, emit, wordsFrom]

theorem read_squoted_close {prev : UInt8} (hp : prev ≠ byte '\\') (cur input : Bytes) :
    read .squote prev cur (byte '\'' :: input) =
      (read .plain (byte '\'') [] input).push cur := by
  have ne : byte '\'' ≠ byte '\n' := by decide
  simp [read, scan, ne, hp, emit, wordsFrom, Reading.push]

/-- Whatever follows, the word under way goes on from its characters. -/
theorem read_words_head (mode : Mode) (prev : UInt8) {cur : Bytes} (h : cur ≠ []) (input : Bytes) :
    ∃ more words, (read mode prev cur input).words = (cur ++ more) :: words :=
  wordsFrom_head h _

end Sysprog.Shell
