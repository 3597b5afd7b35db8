import Sysprog.Lib.Bytes
import Sysprog.Lib.Memory

namespace Sysprog.Shell

/-- Where `parse_line` leaves what the language defines. -/
inductive Fault where
  /-- A store past the end of `token`. -/
  | token
  /-- A store past the end of an `argv`, or `argv[0]` before any store. -/
  | argv
  /-- A store past the end of `cmds`. -/
  | commands
  /-- An `int` that grows past its range. -/
  | overflow
  deriving DecidableEq

/-- The memory behind one token, a C string once its zero is stored. -/
abbrev Token := Block UInt8

/-- A `char *`; `none` is `NULL`. -/
abbrev Pointer := Option Token

structure Cmd where
  name : Pointer
  argv : Block Pointer
  argc : Nat
  deriving DecidableEq

structure CmdLine where
  count : Nat
  commands : Block Cmd
  deriving DecidableEq

def checked {α : Type} (fault : Fault) : Option α → Except Fault α
  | some a => .ok a
  | none => .error fault

/-- `n` where an `int` has just come to that value. -/
def int (n : Nat) : Except Fault Nat := if n < 2 ^ 31 then .ok n else .error .overflow

/-- `alloc1`; returns `str` and `max_len`. -/
def alloc1 (str : Token) (maxLen len : Nat) : Except Fault (Token × Nat) :=
  if len = maxLen then do
    let maxLen ← int (maxLen * 2)
    .ok (str.regrow len maxLen, maxLen)
  else .ok (str, maxLen)

/-- The variables of the first loop of `parse_line`. The array `tokens`, of `tokens_count` entries,
is taken to be large enough. -/
structure Locals where
  tokens : List Token
  cmdCount : Nat
  token : Token
  j : Nat
  maxLen : Nat
  deriving DecidableEq

namespace Locals

def initial : Locals := ⟨[], 1, Block.allocate 3, 0, 3⟩

/-- `token[j] = (char)c; j++; alloc1(token, max_len, j);`. -/
def putChar (s : Locals) (c : UInt8) : Except Fault Locals := do
  let token ← checked .token (s.token.store s.j c)
  let (token, maxLen) ← alloc1 token s.maxLen (s.j + 1)
  .ok { s with token, maxLen, j := s.j + 1 }

/-- `token[j] = 0`, the new entry of `tokens` and the start of the next token. -/
def endToken (s : Locals) : Except Fault Locals := do
  let token ← checked .token (s.token.store s.j 0)
  let _ ← int (s.tokens.length + 1 + 1)
  .ok { s with tokens := s.tokens ++ [token], token := Block.allocate 5, j := 0, maxLen := 5 }

/-- `cmd_count++`. -/
def countCommand (s : Locals) : Except Fault Locals := do
  let cmdCount ← int (s.cmdCount + 1)
  .ok { s with cmdCount }

/-- What follows the loop over the characters. -/
def lastToken (s : Locals) : Except Fault Locals :=
  if s.j > 0 then do
    let token ← checked .token (s.token.store s.j 0)
    let _ ← int (s.tokens.length + 1 + 1)
    .ok { s with tokens := s.tokens ++ [token] }
  else .ok s

end Locals

/-- Which `getchar` comes next: that of the loop over the characters of a line, of the loops inside
it, or the one after a backslash. -/
inductive Mode where
  | plain
  | dquote
  | squote
  | escape
  deriving DecidableEq

/-- The character loops, on what `getchar` has yet to return; returns the variables and the input
behind the line. What they print is left out. -/
def readLine : Mode → UInt8 → Locals → Bytes → Except Fault (Locals × Bytes)
  | .plain, _, s, [] => .ok (s, [])
  | .dquote, _, s, [] => .ok (s, [])
  | .squote, _, s, [] => .ok (s, [])
  | .escape, _, s, [] => do
    let s ← s.putChar (byte '\\')
    .ok (s, [])
  | .plain, prev, s, c :: input =>
    if c = byte '\n' then .ok (s, input)
    else if c = byte ' ' then do
      let s ← s.endToken
      readLine .plain c s input
    else if c = byte '"' then readLine .dquote 0 s input
    else if c = byte '>' then readLine .plain prev s input
    else if c = byte '\'' then readLine .squote prev s input
    else if c = byte '|' then do
      let s ← s.countCommand
      let s ← s.putChar c
      readLine .plain c s input
    else if c = byte '\\' then readLine .escape prev s input
    else do
      let s ← s.putChar c
      readLine .plain c s input
  | .dquote, prev, s, c :: input =>
    if c ≠ byte '"' ∨ prev = byte '\\' then do
      let s ← s.putChar c
      readLine .dquote c s input
    else do
      let s ← s.endToken
      readLine .plain prev s input
  | .squote, prev, s, c :: input =>
    if c = byte '\n' then readLine .squote prev s input
    else if c ≠ byte '\'' ∨ prev = byte '\\' then do
      let s ← s.putChar c
      readLine .squote c s input
    else do
      let s ← s.endToken
      readLine .plain c s input
  | .escape, prev, s, newChar :: input =>
    if newChar = byte '\n' then readLine .plain prev s input
    else do
      -- the backslash is stored, and not `new_char`
      let s ← s.putChar (byte '\\')
      readLine .plain newChar s input

/-- The variables of the second loop of `parse_line`. -/
structure Table where
  cmds : Block Cmd
  cmdNum : Nat
  argv : Block Pointer
  j : Nat
  deriving DecidableEq

/-- `strcmp(token, "|") == 0`. -/
def isBar (token : Token) : Bool :=
  token.load 0 = some (byte '|') && token.load 1 = some 0

namespace Table

/-- `argv[j] = token; j++;`. -/
def argument (t : Table) (token : Token) : Except Fault Table := do
  let argv ← checked .argv (t.argv.store t.j (some token))
  .ok { t with argv, j := t.j + 1 }

/-- `argv[j] = NULL` and the three fields of `cmds[cmd_num]`. -/
def close (t : Table) : Except Fault Table := do
  let argv ← checked .argv (t.argv.store t.j none)
  let name ← checked .argv (argv.load 0)
  let cmds ← checked .commands (t.cmds.store t.cmdNum ⟨name, argv, t.j⟩)
  .ok { t with cmds, argv }

/-- The loop over the tokens, from token `i` on. -/
def fill (tokensCount : Nat) : Nat → Table → List Token → Except Fault Table
  | _, t, [] => .ok t
  | i, t, token :: tokens =>
    if isBar token then do
      let t ← t.close
      fill tokensCount (i + 1)
        { t with cmdNum := t.cmdNum + 1, j := 0, argv := Block.allocate (tokensCount + 1 - i) } tokens
    else do
      let t ← t.argument token
      fill tokensCount (i + 1) t tokens

end Table

/-- `parse_line`, on the standard input; returns the rest of it as well. -/
def parseLine (input : Bytes) : Except Fault (CmdLine × Bytes) := do
  let (s, rest) ← readLine .plain 0 Locals.initial input
  let s ← s.lastToken
  let n := s.tokens.length
  let t ← Table.fill n 0 ⟨Block.allocate s.cmdCount, 0, Block.allocate (n + 1), 0⟩ s.tokens
  let t ← t.close
  .ok (⟨s.cmdCount, t.cmds⟩, rest)

end Sysprog.Shell
