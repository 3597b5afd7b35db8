import Sysprog.Lib.Bytes
import Sysprog.Storage.SimpleLRU

namespace Sysprog.Execute

/-- The interface `Afina::Storage` over a state `σ`. The `value` of `get` is an output parameter:
it goes in with what the caller's string holds and comes out as the call leaves it. -/
structure Storage (σ : Type) where
  put : Bytes → Bytes → σ → Bool × σ
  putIfAbsent : Bytes → Bytes → σ → Bool × σ
  set : Bytes → Bytes → σ → Bool × σ
  delete : Bytes → σ → Bool × σ
  get : Bytes → Bytes → σ → (Bool × Bytes) × σ

/-- `SimpleLRU` as a storage. The state is `none` once a call has dereferenced a null or dangling
pointer; nothing is promised from then on. -/
def simpleLRU : Storage (Option Storage.SimpleLRU) where
  put k v s := settle false (s.bind fun s => s.put k v)
  putIfAbsent k v s := settle false (s.bind fun s => s.putIfAbsent k v)
  set k v s := settle false (s.bind fun s => s.set k v)
  delete k s := settle false (s.bind fun s => s.delete k)
  get k v s := settle (false, v) (s.bind fun s => s.get k v)
where
  settle {β : Type} (b : β) : Option (β × Storage.SimpleLRU) → β × Option Storage.SimpleLRU
    | none => (b, none)
    | some (b, s) => (b, some s)

structure InsertCommand where
  key : Bytes
  flags : Nat
  expire : Int
  deriving DecidableEq

/-- The classes derived from `Execute::Command` that have an implementation. -/
inductive Command where
  | set (fields : InsertCommand)
  | add (fields : InsertCommand)
  | append (fields : InsertCommand)
  | replace (fields : InsertCommand)
  | get (keys : List Bytes)
  | stats
  deriving DecidableEq

inductive Kind where
  | set | add | append | replace | get | stats
  deriving DecidableEq

def Command.kind : Command → Kind
  | set _ => .set
  | add _ => .add
  | append _ => .append
  | replace _ => .replace
  | get _ => .get
  | stats => .stats

def Command.keys : Command → List Bytes
  | set c | add c | append c | replace c => [c.key]
  | get keys => keys
  | stats => []

def stored : Bytes := text "STORED"

def notStored : Bytes := text "NOT_STORED"

/-- What `Get::Execute` writes for one key that is there. -/
def item (key value : Bytes) : Bytes :=
  text "VALUE " ++ key ++ text " 0 " ++ decimal value.length ++ crlf ++ value ++ crlf

variable {σ : Type} (S : Storage σ)

/-- The loop of `Get::Execute`; `value` lives outside it. -/
def getLoop : List Bytes → Bytes → σ → Bytes × σ
  | [], _, s => ([], s)
  | key :: keys, value, s =>
    match S.get key value s with
    | ((false, value), s) => getLoop keys value s
    | ((true, value), s) =>
      let (out, s) := getLoop keys value s
      (item key value ++ out, s)

/-- `Execute`: what goes to `out`, and the storage afterwards. -/
def Command.execute (args : Bytes) (s : σ) : Command → Bytes × σ
  | .set c => (stored, (S.put c.key args s).2)
  | .add c =>
    let (b, s) := S.putIfAbsent c.key args s
    (if b then stored else notStored, s)
  | .append c =>
    match S.get c.key [] s with
    | ((false, _), s) => (notStored, s)
    | ((true, value), s) => (stored, (S.put c.key (value ++ args) s).2)
  | .replace c =>
    match S.get c.key [] s with
    | ((false, _), s) => (notStored, s)
    | ((true, _), s) => (stored, (S.set c.key args s).2)
  | .get keys =>
    let (out, s) := getLoop S keys [] s
    -- the networking layer should add the last \r\n
    (out ++ text "END", s)
  | .stats => (text "END", s)

theorem Command.execute_ne_nil (args : Bytes) (s : σ) (c : Command) : (c.execute S args s).1 ≠ [] := by
  cases c with
  | set c => simp [execute, stored, text]
  | add c =>
    simp only [execute]
    split <;> simp [stored, notStored, text]
  | append c =>
    simp only [execute]
    split <;> simp [stored, notStored, text]
  | replace c =>
    simp only [execute]
    split <;> simp [stored, notStored, text]
  | get keys => simp [execute, text]
  | stats => simp [execute, text]

end Sysprog.Execute
