import Sysprog.Lib.Bytes

namespace Sysprog.Logging

/-- The variables of a logger; no key is there twice. -/
abbrev Mdc := List (Bytes × Bytes)

/-- `++it`, of the iterator with these characters before `end`. No result at the end. -/
def advance : Bytes → Option Bytes
  | [] => none
  | _ :: it => some it

/-- `*it`, likewise. -/
def deref : Bytes → Option UInt8
  | [] => none
  | c :: _ => some c

/-- `std::find(it, end, '}')`: what it passes, and where it stops. -/
def findBrace : Bytes → Bytes × Bytes
  | [] => ([], [])
  | c :: it =>
    if c = byte '}' then ([], c :: it)
    else
      let (passed, braceEnd) := findBrace it
      (c :: passed, braceEnd)

/-- The body of the loop of `create`: what it writes to `ss`, and `it` behind it. -/
def body (mdc : Mdc) (it : Bytes) : Option (Bytes × Bytes) := do
  let c ← deref it
  if c ≠ byte '%' then some ([c], it)
  else do
    let it ← advance it
    if it ≠ [] ∧ deref it ≠ some (byte 'X') then do
      let c ← deref it
      some ([byte '%', c], it)
    else do
      let it ← advance it
      if it ≠ [] ∧ deref it ≠ some (byte '{') then do
        let c ← deref it
        some ([byte '%', byte 'X', c], it)
      else do
        let (passed, braceEnd) := findBrace it
        if braceEnd = [] then do
          let c ← deref it
          some ([byte '%', byte 'X', byte '{', c], it)
        else
          let key := passed.tail
          match mdc.lookup key with
          | none => do
            let c ← deref it
            some ([byte '%', byte 'X', byte '{', c], it)
          | some _ =>
            -- `pos->first` is the key, not the value
            some (key, braceEnd)

/-- One turn of the loop, `it++` included. -/
def turn (mdc : Mdc) (it : Bytes) : Option (Bytes × Bytes) := do
  let (written, it) ← body mdc it
  let it ← advance it
  some (written, it)

/-- Where the text begins with a variable that `mdc` maps: its value, and the text behind it. -/
def valueAt (mdc : Mdc) : Bytes → Option (Bytes × Bytes)
  | a :: b :: c :: s =>
    if a = byte '%' ∧ b = byte 'X' ∧ c = byte '{' ∧ (findBrace s).2 ≠ [] then
      (mdc.lookup (findBrace s).1).map fun value => (value, (findBrace s).2.tail)
    else none
  | _ => none

/-- What a turn of the loop may do. -/
inductive Turn (mdc : Mdc) : Bytes → Bytes → Bytes → Prop
  | plain {c : UInt8} (it : Bytes) (hc : c ≠ byte '%') : Turn mdc (c :: it) [c] it
  | other {c : UInt8} (it : Bytes) (hc : c ≠ byte 'X') :
    Turn mdc (byte '%' :: c :: it) [byte '%', c] it
  | bare {c : UInt8} (it : Bytes) (hc : c ≠ byte '{') :
    Turn mdc (byte '%' :: byte 'X' :: c :: it) [byte '%', byte 'X', c] it
  | raw (it : Bytes) (hv : valueAt mdc (byte '%' :: byte 'X' :: byte '{' :: it) = none) :
    Turn mdc (byte '%' :: byte 'X' :: byte '{' :: it) [byte '%', byte 'X', byte '{', byte '{'] it
  | named {key value : Bytes} (it : Bytes) (hk : ∀ c ∈ key, c ≠ byte '}')
    (hv : mdc.lookup key = some value) :
    Turn mdc (byte '%' :: byte 'X' :: byte '{' :: (key ++ byte '}' :: it)) key it

theorem findBrace_key {key : Bytes} (h : ∀ c ∈ key, c ≠ byte '}') (it : Bytes) :
    findBrace (key ++ byte '}' :: it) = (key, byte '}' :: it) := by
  induction key with
  | nil => simp [findBrace]
  | cons c key ih =>
    obtain ⟨hc, hkey⟩ := List.forall_mem_cons.mp h
    simp only [List.cons_append, findBrace, if_neg hc, ih hkey]

theorem findBrace_unclosed {s : Bytes} (h : ∀ c ∈ s, c ≠ byte '}') : (findBrace s).2 = [] := by
  induction s with
  | nil => rfl
  | cons c s ih =>
    obtain ⟨hc, hs⟩ := List.forall_mem_cons.mp h
    simp only [findBrace, if_neg hc, ih hs]

theorem valueAt_plain (mdc : Mdc) {c : UInt8} (hc : c ≠ byte '%') (s : Bytes) :
    valueAt mdc (c :: s) = none := by
  match s with
  | [] => rfl
  | [_] => rfl
  | _ :: _ :: _ => simp [valueAt, hc]

theorem valueAt_other (mdc : Mdc) {c : UInt8} (hc : c ≠ byte 'X') (s : Bytes) :
    valueAt mdc (byte '%' :: c :: s) = none := by
  match s with
  | [] => rfl
  | _ :: _ => simp [valueAt, hc]

theorem valueAt_bare (mdc : Mdc) {c : UInt8} (hc : c ≠ byte '{') (s : Bytes) :
    valueAt mdc (byte '%' :: byte 'X' :: c :: s) = none := by
  simp [valueAt, hc]

theorem valueAt_key {mdc : Mdc} {key : Bytes} (h : ∀ c ∈ key, c ≠ byte '}') (it : Bytes) :
    valueAt mdc (byte '%' :: byte 'X' :: byte '{' :: (key ++ byte '}' :: it)) =
      (mdc.lookup key).map fun value => (value, it) := by
  simp [valueAt, findBrace_key h]

theorem valueAt_unclosed (mdc : Mdc) {s : Bytes} (h : ∀ c ∈ s, c ≠ byte '}') :
    valueAt mdc (byte '%' :: byte 'X' :: byte '{' :: s) = none := by
  simp [valueAt, findBrace_unclosed h]

/-- Behind the brace there is a key, or no brace that closes. -/
theorem key_cases (s : Bytes) :
    (∃ key it, s = key ++ byte '}' :: it ∧ ∀ c ∈ key, c ≠ byte '}') ∨ ∀ c ∈ s, c ≠ byte '}' := by
  induction s with
  | nil => simp
  | cons c s ih =>
    by_cases hc : c = byte '}'
    · exact .inl ⟨[], s, by simp [hc], by simp⟩
    · rcases ih with ⟨key, it, eq, hkey⟩ | none
      · exact .inl ⟨c :: key, it, by simp [eq], List.forall_mem_cons.mpr ⟨hc, hkey⟩⟩
      · exact .inr (List.forall_mem_cons.mpr ⟨hc, none⟩)

theorem findBrace_brace (s : Bytes) :
    findBrace (byte '{' :: s) = (byte '{' :: (findBrace s).1, (findBrace s).2) := by
  have ne : byte '{' ≠ byte '}' := by decide
  simp only [findBrace, if_neg ne]

theorem turn_plain (mdc : Mdc) {c : UInt8} (hc : c ≠ byte '%') (it : Bytes) :
    turn mdc (c :: it) = some ([c], it) := by
  simp [turn, body, deref, advance, hc]

theorem turn_percent (mdc : Mdc) : turn mdc [byte '%'] = none := by
  simp [turn, body, deref, advance]

theorem turn_other (mdc : Mdc) {c : UInt8} (hc : c ≠ byte 'X') (it : Bytes) :
    turn mdc (byte '%' :: c :: it) = some ([byte '%', c], it) := by
  simp [turn, body, deref, advance, hc]

theorem turn_percentX (mdc : Mdc) : turn mdc [byte '%', byte 'X'] = none := by
  simp [turn, body, deref, advance, findBrace]

theorem turn_bare (mdc : Mdc) {c : UInt8} (hc : c ≠ byte '{') (it : Bytes) :
    turn mdc (byte '%' :: byte 'X' :: c :: it) = some ([byte '%', byte 'X', c], it) := by
  simp [turn, body, deref, advance, hc]

theorem turn_unclosed (mdc : Mdc) {s : Bytes} (h : ∀ c ∈ s, c ≠ byte '}') :
    turn mdc (byte '%' :: byte 'X' :: byte '{' :: s) =
      some ([byte '%', byte 'X', byte '{', byte '{'], s) := by
  simp [turn, body, deref, advance, findBrace_brace, findBrace_unclosed h]

theorem turn_key (mdc : Mdc) {key : Bytes} (h : ∀ c ∈ key, c ≠ byte '}') (it : Bytes) :
    turn mdc (byte '%' :: byte 'X' :: byte '{' :: (key ++ byte '}' :: it)) =
      match mdc.lookup key with
      | none => some ([byte '%', byte 'X', byte '{', byte '{'], key ++ byte '}' :: it)
      | some _ => some (key, it) := by
  cases hv : mdc.lookup key <;>
    simp [turn, body, deref, advance, findBrace_brace, findBrace_key h, hv]

/-- The places of the loop, by the characters it looks at. -/
inductive Place : Bytes → Prop
  | atEnd : Place []
  | plain {c : UInt8} (it : Bytes) (hc : c ≠ byte '%') : Place (c :: it)
  | percent : Place [byte '%']
  | other {c : UInt8} (it : Bytes) (hc : c ≠ byte 'X') : Place (byte '%' :: c :: it)
  | percentX : Place [byte '%', byte 'X']
  | bare {c : UInt8} (it : Bytes) (hc : c ≠ byte '{') : Place (byte '%' :: byte 'X' :: c :: it)
  | unclosed {s : Bytes} (h : ∀ c ∈ s, c ≠ byte '}') :
    Place (byte '%' :: byte 'X' :: byte '{' :: s)
  | key {key : Bytes} (h : ∀ c ∈ key, c ≠ byte '}') (it : Bytes) :
    Place (byte '%' :: byte 'X' :: byte '{' :: (key ++ byte '}' :: it))

theorem place (it : Bytes) : Place it := by
  match it with
  | [] => exact .atEnd
  | c :: it =>
    by_cases percent : c = byte '%'
    · subst percent
      match it with
      | [] => exact .percent
      | c :: it =>
        by_cases x : c = byte 'X'
        · subst x
          match it with
          | [] => exact .percentX
          | c :: it =>
            by_cases brace : c = byte '{'
            · subst brace
              rcases key_cases it with ⟨key, it, rfl, hkey⟩ | unclosed
              · exact .key hkey it
              · exact .unclosed unclosed
            · exact .bare it brace
        · exact .other it x
    · exact .plain it percent

theorem turn_iff (mdc : Mdc) (it written it' : Bytes) :
    turn mdc it = some (written, it') ↔ Turn mdc it written it' := by
  constructor
  · intro h
    cases place it with
    | atEnd => cases h
    | plain it hc =>
      rw [turn_plain mdc hc] at h
      cases h
      exact .plain it' hc
    | percent =>
      rw [turn_percent] at h
      cases h
    | other it hc =>
      rw [turn_other mdc hc] at h
      cases h
      exact .other it' hc
    | percentX =>
      rw [turn_percentX] at h
      cases h
    | bare it hc =>
      rw [turn_bare mdc hc] at h
      cases h
      exact .bare it' hc
    | unclosed hs =>
      rw [turn_unclosed mdc hs] at h
      cases h
      exact .raw it' (valueAt_unclosed mdc hs)
    | @key key hkey it =>
      rw [turn_key mdc hkey] at h
      cases hv : mdc.lookup key with
      | none =>
        rw [hv] at h
        cases h
        exact .raw _ (by rw [valueAt_key hkey, hv]; rfl)
      | some value =>
        rw [hv] at h
        cases h
        exact .named it' hkey hv
  · intro h
    cases h with
    | plain it hc => exact turn_plain mdc hc it'
    | other it hc => exact turn_other mdc hc it'
    | bare it hc => exact turn_bare mdc hc it'
    | raw it hv =>
      rcases key_cases it' with ⟨key, it, rfl, hkey⟩ | unclosed
      · rw [valueAt_key hkey, Option.map_eq_none_iff] at hv
        rw [turn_key mdc hkey, hv]
      · exact turn_unclosed mdc unclosed
    | named it hk hv => rw [turn_key mdc hk, hv]

/-- The iterator moves on. -/
theorem Turn.length_lt {mdc : Mdc} {it written it' : Bytes} (h : Turn mdc it written it') :
    it'.length < it.length := by
  cases h <;> simp <;> omega

/-- The loop of `create`, from `it` on, with what `ss` holds. No result where the iterator is used
at the end of the string or moved past it. -/
def loop (mdc : Mdc) (it ss : Bytes) : Option Bytes :=
  if it = [] then some ss
  else
    match _h : turn mdc it with
    | none => none
    | some (written, it') => loop mdc it' (ss ++ written)
termination_by it.length
decreasing_by exact ((turn_iff mdc it written it').mp _h).length_lt

/-- A `spdlog::logger`. -/
structure Logger (Sink Level : Type) where
  name : Bytes
  sinks : List Sink
  level : Level
  pattern : Bytes
  flushOn : Level

/-- `create`, from the logger `base` that `select` finds; `err` is the level of errors. -/
def create {Sink Level : Type} (err : Level) (base : Logger Sink Level) (mdc : Mdc) :
    Option (Logger Sink Level) := do
  let ss ← loop mdc base.pattern []
  some { name := base.name, sinks := base.sinks, level := base.level, pattern := ss, flushOn := err }

/-- Where a variable with a value begins. -/
theorem valueAt_eq_some {mdc : Mdc} {s value rest : Bytes} :
    valueAt mdc s = some (value, rest) ↔
      ∃ key, (∀ c ∈ key, c ≠ byte '}') ∧ mdc.lookup key = some value ∧
        s = byte '%' :: byte 'X' :: byte '{' :: (key ++ byte '}' :: rest) := by
  constructor
  · intro h
    cases place s with
    | atEnd => cases h
    | plain it hc =>
      rw [valueAt_plain mdc hc] at h
      cases h
    | percent => cases h
    | other it hc =>
      rw [valueAt_other mdc hc] at h
      cases h
    | percentX => cases h
    | bare it hc =>
      rw [valueAt_bare mdc hc] at h
      cases h
    | unclosed hs =>
      rw [valueAt_unclosed mdc hs] at h
      cases h
    | @key key hkey it =>
      rw [valueAt_key hkey, Option.map_eq_some_iff] at h
      obtain ⟨v, look, eq⟩ := h
      cases eq
      exact ⟨key, hkey, look, rfl⟩
  · intro h
    obtain ⟨key, hkey, look, rfl⟩ := h
    rw [valueAt_key hkey, look]
    rfl

theorem valueAt_length {mdc : Mdc} {s value rest : Bytes}
    (h : valueAt mdc s = some (value, rest)) : rest.length < s.length := by
  obtain ⟨key, -, -, rfl⟩ := valueAt_eq_some.mp h
  simp only [List.length_cons, List.length_append]
  omega

/-- The text with each variable that `mdc` maps replaced by its value, from left to right, and every
other character as it is. -/
def substitute (mdc : Mdc) : Bytes → Bytes
  | [] => []
  | c :: s =>
    match _h : valueAt mdc (c :: s) with
    | some (value, rest) => value ++ substitute mdc rest
    | none => c :: substitute mdc s
termination_by s => s.length
decreasing_by
  · exact valueAt_length _h
  · exact Nat.lt_succ_self _

theorem loop_nil (mdc : Mdc) (ss : Bytes) : loop mdc [] ss = some ss := by
  rw [loop, if_pos rfl]

theorem loop_turn {mdc : Mdc} {it written it' : Bytes} (h : Turn mdc it written it') (ss : Bytes) :
    loop mdc it ss = loop mdc it' (ss ++ written) := by
  have ne : it ≠ [] := by
    intro nil
    have := h.length_lt
    rw [nil] at this
    exact absurd this (Nat.not_lt_zero _)
  have step := (turn_iff mdc it written it').mpr h
  rw [loop, if_neg ne]
  split
  · next none => rw [step] at none; cases none
  · next written' it'' some =>
    rw [step] at some
    cases some
    rfl

/-- A loop that comes to the end has begun with a turn, unless it was there. -/
theorem loop_some {mdc : Mdc} {it ss out : Bytes} (h : loop mdc it ss = some out) :
    it = [] ∧ out = ss ∨
      ∃ written it', Turn mdc it written it' ∧ loop mdc it' (ss ++ written) = some out := by
  rw [loop] at h
  split at h
  · next nil => exact .inl ⟨nil, (Option.some.inj h).symm⟩
  · split at h
    · cases h
    · next written it' step => exact .inr ⟨written, it', (turn_iff mdc it written it').mp step, h⟩

theorem substitute_nil (mdc : Mdc) : substitute mdc [] = [] := by rw [substitute]

theorem substitute_value {mdc : Mdc} {s value rest : Bytes}
    (h : valueAt mdc s = some (value, rest)) :
    substitute mdc s = value ++ substitute mdc rest := by
  cases s with
  | nil => cases h
  | cons c s =>
    rw [substitute]
    split
    · next value' rest' eq =>
      rw [h] at eq
      cases eq
      rfl
    · next none =>
      rw [h] at none
      cases none

theorem substitute_copy {mdc : Mdc} {c : UInt8} {s : Bytes} (h : valueAt mdc (c :: s) = none) :
    substitute mdc (c :: s) = c :: substitute mdc s := by
  rw [substitute]
  split
  · next value rest eq =>
    rw [h] at eq
    cases eq
  · rfl

/-- The patterns that the loop compiles turn by turn: none of them ends in `%` or `%X`, comes upon
`%X{` but for a variable mapped to its own name, or passes over the `%` of a variable. -/
inductive Regular (mdc : Mdc) : Bytes → Prop
  | nil : Regular mdc []
  | plain {c : UInt8} {s : Bytes} (hc : c ≠ byte '%') (h : Regular mdc s) : Regular mdc (c :: s)
  | other {c : UInt8} {s : Bytes} (hc : c ≠ byte 'X') (hv : valueAt mdc (c :: s) = none)
    (h : Regular mdc s) : Regular mdc (byte '%' :: c :: s)
  | bare {c : UInt8} {s : Bytes} (hc : c ≠ byte '{') (hv : valueAt mdc (c :: s) = none)
    (h : Regular mdc s) : Regular mdc (byte '%' :: byte 'X' :: c :: s)
  | named {key s : Bytes} (hk : ∀ c ∈ key, c ≠ byte '}') (hv : mdc.lookup key = some key)
    (h : Regular mdc s) : Regular mdc (byte '%' :: byte 'X' :: byte '{' :: (key ++ byte '}' :: s))

theorem x_ne_percent : byte 'X' ≠ byte '%' := by decide

theorem Regular.loop {mdc : Mdc} {it : Bytes} (h : Regular mdc it) (ss : Bytes) :
    loop mdc it ss = some (ss ++ substitute mdc it) := by
  induction h generalizing ss with
  | nil => rw [loop_nil, substitute_nil, List.append_nil]
  | plain hc _ ih =>
    rw [loop_turn (.plain _ hc), ih, substitute_copy (valueAt_plain mdc hc _), List.append_assoc]
    rfl
  | other hc hv _ ih =>
    rw [loop_turn (.other _ hc), ih, substitute_copy (valueAt_other mdc hc _), substitute_copy hv,
      List.append_assoc]
    rfl
  | bare hc hv _ ih =>
    rw [loop_turn (.bare _ hc), ih, substitute_copy (valueAt_bare mdc hc _),
      substitute_copy (valueAt_plain mdc x_ne_percent _), substitute_copy hv, List.append_assoc]
    rfl
  | @named key s hk hv _ ih =>
    have value : valueAt mdc (byte '%' :: byte 'X' :: byte '{' :: (key ++ byte '}' :: s)) =
        some (key, s) := by
      rw [valueAt_key hk, hv]
      rfl
    rw [loop_turn (.named _ hk hv), ih, substitute_value value, List.append_assoc]

/-- No variable that `mdc` maps stands in the text. -/
def Bare (mdc : Mdc) (s : Bytes) : Prop := ∀ t, t <:+ s → valueAt mdc t = none

theorem Bare.suffix {mdc : Mdc} {s t : Bytes} (h : Bare mdc s) (ht : t <:+ s) : Bare mdc t :=
  fun _ hu => h _ (hu.trans ht)

theorem Bare.substitute {mdc : Mdc} {s : Bytes} (h : Bare mdc s) : substitute mdc s = s := by
  induction s with
  | nil => exact substitute_nil mdc
  | cons c s ih =>
    rw [substitute_copy (h _ (List.suffix_refl _)), ih (h.suffix (List.suffix_cons c s))]

/-- Where a variable stands in the text, the value of one is in the result. -/
theorem bare_or_value (mdc : Mdc) (s : Bytes) :
    Bare mdc s ∨ ∃ t value rest, t <:+ s ∧ valueAt mdc t = some (value, rest) ∧
      value <:+: substitute mdc s := by
  induction s with
  | nil =>
    left
    intro t ht
    rw [List.suffix_nil.mp ht]
    rfl
  | cons c s ih =>
    cases hv : valueAt mdc (c :: s) with
    | some x =>
      obtain ⟨value, rest⟩ := x
      right
      refine ⟨c :: s, value, rest, List.suffix_refl _, hv, ?_⟩
      rw [substitute_value hv]
      exact (List.prefix_append _ _).isInfix
    | none =>
      rw [substitute_copy hv]
      rcases ih with bare | ⟨t, value, rest, ht, hvalue, inside⟩
      · left
        intro t ht
        rcases List.suffix_cons_iff.mp ht with rfl | ht
        · exact hv
        · exact bare t ht
      · right
        exact ⟨t, value, rest, ht.trans (List.suffix_cons c s), hvalue,
          inside.trans (List.suffix_cons c _).isInfix⟩

/-- The value of each variable in the text has a character that the text has not. -/
def Fresh (mdc : Mdc) (s : Bytes) : Prop :=
  ∀ t value rest, t <:+ s → valueAt mdc t = some (value, rest) → ∃ c ∈ value, c ∉ s

theorem Turn.subset {mdc : Mdc} {it written it' : Bytes} (h : Turn mdc it written it') :
    written ⊆ it ∧ it' ⊆ it := by
  cases h <;> constructor <;> intro c hc <;> simp_all
  all_goals grind

/-- The loop writes no character that the pattern has not. -/
theorem loop_subset {mdc : Mdc} (n : Nat) {it ss out : Bytes} (hn : it.length = n)
    (h : loop mdc it ss = some out) : out ⊆ ss ++ it := by
  induction n using Nat.strongRecOn generalizing it ss with
  | ind n ih =>
    rcases loop_some h with ⟨rfl, rfl⟩ | ⟨written, it', turn, rest⟩
    · simp
    · have tail := ih it'.length (hn ▸ turn.length_lt) rfl rest
      obtain ⟨hwritten, hit⟩ := turn.subset
      intro c hc
      have mem := tail hc
      rw [List.append_assoc, List.mem_append, List.mem_append] at mem
      rw [List.mem_append]
      rcases mem with mem | mem | mem
      · exact .inl mem
      · exact .inr (hwritten mem)
      · exact .inr (hit mem)

theorem Turn.length_le {mdc : Mdc} {it written it' : Bytes} (h : Turn mdc it written it') :
    written.length + 2 * it'.length ≤ 2 * it.length := by
  cases h <;> simp <;> omega

/-- The loop writes at most two characters for one. -/
theorem loop_length_le {mdc : Mdc} (n : Nat) {it ss out : Bytes} (hn : it.length = n)
    (h : loop mdc it ss = some out) : out.length ≤ ss.length + 2 * it.length := by
  induction n using Nat.strongRecOn generalizing it ss with
  | ind n ih =>
    rcases loop_some h with ⟨rfl, rfl⟩ | ⟨written, it', turn, rest⟩
    · simp
    · have tail := ih it'.length (hn ▸ turn.length_lt) rfl rest
      have le := turn.length_le
      rw [List.length_append] at tail
      omega

/-- Without variables a turn copies what it passes, or writes a brace too many. -/
theorem Turn.copies {mdc : Mdc} {it written it' : Bytes} (h : Turn mdc it written it')
    (bare : Bare mdc it) :
    Bare mdc it' ∧ (written.length + it'.length = it.length ∧ (Regular mdc it' → Regular mdc it) ∨
      it.length < written.length + it'.length) := by
  cases h with
  | plain it hc =>
    refine ⟨bare.suffix (List.suffix_cons _ _), .inl ⟨?_, .plain hc⟩⟩
    simp
    omega
  | other it hc =>
    have tail := bare.suffix (List.suffix_cons _ _)
    refine ⟨tail.suffix (List.suffix_cons _ _), .inl ⟨?_, .other hc (tail _ (List.suffix_refl _))⟩⟩
    simp
    omega
  | bare it hc =>
    have tail := (bare.suffix (List.suffix_cons _ _)).suffix (List.suffix_cons _ _)
    refine ⟨tail.suffix (List.suffix_cons _ _), .inl ⟨?_, .bare hc (tail _ (List.suffix_refl _))⟩⟩
    simp
    omega
  | raw it hv =>
    have tail := (bare.suffix (List.suffix_cons _ _)).suffix (List.suffix_cons _ _)
    refine ⟨tail.suffix (List.suffix_cons _ _), .inr ?_⟩
    simp
    omega
  | named it hk hv =>
    have none := bare _ (List.suffix_refl _)
    rw [valueAt_key hk, hv] at none
    cases none

/-- Without variables a result as long as the pattern means that the pattern is regular. -/
theorem regular_of_length {mdc : Mdc} (n : Nat) {it ss out : Bytes} (hn : it.length = n)
    (bare : Bare mdc it) (h : loop mdc it ss = some out) :
    ss.length + it.length ≤ out.length ∧
      (out.length = ss.length + it.length → Regular mdc it) := by
  induction n using Nat.strongRecOn generalizing it ss with
  | ind n ih =>
    rcases loop_some h with ⟨rfl, rfl⟩ | ⟨written, it', turn, rest⟩
    · exact ⟨by simp, fun _ => .nil⟩
    · obtain ⟨tail, kept⟩ := turn.copies bare
      obtain ⟨le, regular⟩ := ih it'.length (hn ▸ turn.length_lt) rfl tail rest
      rw [List.length_append] at le regular
      rcases kept with ⟨same, more⟩ | lt
      · exact ⟨by omega, fun eq => more (regular (by omega))⟩
      · exact ⟨by omega, fun eq => absurd eq (by omega)⟩

/-- Two maps with the same keys. -/
def SameKeys (mdc mdc' : Mdc) : Prop := mdc'.map Prod.fst = mdc.map Prod.fst

theorem lookup_eq_none_iff (mdc : Mdc) (key : Bytes) :
    mdc.lookup key = none ↔ key ∉ mdc.map Prod.fst := by
  rw [List.lookup_eq_none_iff, List.mem_map]
  constructor
  · intro none mem
    obtain ⟨e, he, rfl⟩ := mem
    have := none e he
    simp at this
  · intro none e he
    simp only [bne_iff_ne]
    intro eq
    exact none ⟨e, he, eq.symm⟩

theorem SameKeys.valueAt {mdc mdc' : Mdc} (h : SameKeys mdc mdc') {s : Bytes}
    (hs : valueAt mdc s = none) : valueAt mdc' s = none := by
  cases hv : Logging.valueAt mdc' s with
  | none => rfl
  | some x =>
    obtain ⟨key, hkey, look, rfl⟩ := valueAt_eq_some.mp (hv : _ = some (x.1, x.2))
    rw [valueAt_key hkey, Option.map_eq_none_iff, lookup_eq_none_iff, ← h,
      ← lookup_eq_none_iff, look] at hs
    cases hs

/-- The same keys, all mapped to one value. -/
def constant (mdc : Mdc) (value : Bytes) : Mdc := mdc.map fun e => (e.1, value)

theorem sameKeys_constant (mdc : Mdc) (value : Bytes) : SameKeys mdc (constant mdc value) := by
  simp [SameKeys, constant]

theorem valueAt_constant {mdc : Mdc} {v s value rest : Bytes}
    (h : valueAt (constant mdc v) s = some (value, rest)) : value = v := by
  obtain ⟨key, -, look, -⟩ := valueAt_eq_some.mp h
  obtain ⟨l, l', eq, -⟩ := List.lookup_eq_some_iff.mp look
  have mem : (key, value) ∈ constant mdc v := by
    rw [eq]
    simp
  obtain ⟨e, -, he⟩ := List.mem_map.mp mem
  exact (Prod.mk.inj he).2.symm

/-- `create` stays inside the pattern, and gives its logger the pattern with the variables
replaced. -/
def Compiles {Sink Level : Type} (err : Level) (base : Logger Sink Level) (mdc : Mdc) : Prop :=
  ∃ logger, create err base mdc = some logger ∧ logger.pattern = substitute mdc base.pattern

theorem compiles_iff_loop {Sink Level : Type} (err : Level) (base : Logger Sink Level) (mdc : Mdc) :
    Compiles err base mdc ↔ loop mdc base.pattern [] = some (substitute mdc base.pattern) := by
  constructor
  · intro h
    obtain ⟨logger, made, pattern⟩ := h
    simp only [create, Option.bind_eq_bind, Option.bind_eq_some_iff] at made
    obtain ⟨ss, run, made⟩ := made
    rw [run, ← pattern, ← Option.some.inj made]
  · intro run
    refine ⟨{ name := base.name, sinks := base.sinks, level := base.level,
              pattern := substitute mdc base.pattern, flushOn := err }, ?_, rfl⟩
    rw [create, run]
    rfl

theorem Regular.compiles {Sink Level : Type} (err : Level) {base : Logger Sink Level} {mdc : Mdc}
    (h : Regular mdc base.pattern) : Compiles err base mdc :=
  (compiles_iff_loop err base mdc).mpr (h.loop [])

theorem Bare.regular {Sink Level : Type} {err : Level} {base : Logger Sink Level} {mdc : Mdc}
    (bare : Bare mdc base.pattern) (h : Compiles err base mdc) : Regular mdc base.pattern := by
  have run := (compiles_iff_loop err base mdc).mp h
  exact (regular_of_length _ rfl bare run).2 (by rw [bare.substitute]; simp)

theorem Fresh.regular {Sink Level : Type} {err : Level} {base : Logger Sink Level} {mdc : Mdc}
    (fresh : Fresh mdc base.pattern) (h : Compiles err base mdc) : Regular mdc base.pattern := by
  have run := (compiles_iff_loop err base mdc).mp h
  rcases bare_or_value mdc base.pattern with bare | ⟨t, value, rest, ht, hv, inside⟩
  · exact bare.regular h
  · obtain ⟨c, hc, away⟩ := fresh t value rest ht hv
    have mem := loop_subset _ rfl run (inside.subset hc)
    rw [List.nil_append] at mem
    exact absurd mem away

/-- A regular pattern is compiled right. Only a regular one is, where no value is spelled with the
characters of the pattern; and whatever the values of the variables, a pattern is compiled right
just when it is regular whatever they are. -/
theorem create_compiles {Sink Level : Type} (err : Level) (base : Logger Sink Level) (mdc : Mdc) :
    (Regular mdc base.pattern → Compiles err base mdc) ∧
    (Fresh mdc base.pattern → Compiles err base mdc → Regular mdc base.pattern) ∧
    ((∀ mdc', SameKeys mdc mdc' → Compiles err base mdc') ↔
      ∀ mdc', SameKeys mdc mdc' → Regular mdc' base.pattern) := by
  refine ⟨fun h => h.compiles err, fun fresh h => fresh.regular h, ?_,
    fun h mdc' same => (h mdc' same).compiles err⟩
  intro compiles mdc' same
  -- values longer than anything the loop writes: then no variable stands in the pattern
  let v : Bytes := List.replicate (2 * base.pattern.length + 1) 0
  have long := (compiles_iff_loop err base _).mp (compiles _ (sameKeys_constant mdc v))
  have le := loop_length_le _ rfl long
  have bare : Bare (constant mdc v) base.pattern := by
    rcases bare_or_value (constant mdc v) base.pattern with bare | ⟨t, value, rest, -, hv, inside⟩
    · exact bare
    · have longer := inside.length_le
      rw [valueAt_constant hv] at longer
      simp only [v, List.length_replicate, List.length_nil] at longer le
      omega
  have bare' : Bare mdc' base.pattern := by
    intro t ht
    have back : SameKeys (constant mdc v) mdc' := same.trans (sameKeys_constant mdc v).symm
    exact back.valueAt (bare t ht)
  exact bare'.regular (compiles mdc' same)

/-- `%X{k}` becomes the key and not its value. -/
theorem not_compiles :
    ¬ ∀ (err : Unit) (base : Logger Unit Unit) (mdc : Mdc), Compiles err base mdc := by
  intro all
  let base : Logger Unit Unit :=
    { name := [], sinks := [], level := (), pattern := text "%X\x7bk\x7d", flushOn := () }
  have run := (compiles_iff_loop () base [(text "k", text "v")]).mp (all () base _)
  have turn : Turn [(text "k", text "v")] base.pattern (text "k") [] :=
    @Turn.named _ (text "k") (text "v") [] (forall_of_all (by decide)) rfl
  have value : valueAt [(text "k", text "v")] base.pattern = some (text "v", []) := rfl
  rw [loop_turn turn, loop_nil, substitute_value value, substitute_nil] at run
  revert run
  decide

end Sysprog.Logging
