import Sysprog.Shell.Table

namespace Sysprog.Shell

/-- The ways to write a word on a line. -/
inductive Form where
  | bare
  | dquoted
  | squoted
  | escaped
  deriving DecidableEq

/-- A backslash before each character of a kind. -/
def backslashed (p : UInt8 → Bool) (w : Bytes) : Bytes :=
  w.flatMap fun c => if p c then [byte '\\', c] else [c]

/-- What has a backslash before it between double quotes. -/
def dquoteSpecial (c : UInt8) : Bool := (text "\\\"").contains c

def Form.render : Form → Bytes → Bytes
  | .bare, w => w
  | .dquoted, w => byte '"' :: (backslashed dquoteSpecial w ++ [byte '"'])
  | .squoted, w => byte '\'' :: (w ++ [byte '\''])
  | .escaped, w => backslashed special w

/-- The words that a form can write. -/
def Form.Allows : Form → Bytes → Prop
  | .bare, w => ∀ c ∈ w, special c = false
  | .dquoted, _ => True
  | .squoted, w => ∀ c ∈ w, c ≠ byte '\'' ∧ c ≠ byte '\\'
  | .escaped, _ => True

/-- A word as it stands on a line, with the number of spaces behind it. -/
structure Written where
  word : Bytes
  form : Form
  gap : Nat
  word_ne : word ≠ []
  plain : ∀ c ∈ word, c ≠ 0 ∧ c ≠ byte '\n'
  allowed : form.Allows word

def spaces (n : Nat) : Bytes := List.replicate n (byte ' ')

def Written.render (x : Written) : Bytes := x.form.render x.word ++ spaces x.gap

/-- Words in the ways there are to write them, with spaces around and between them. -/
structure WrittenLine where
  lead : Nat
  items : List Written
  separated : ∀ x ∈ items.dropLast, 0 < x.gap

namespace WrittenLine

def render (l : WrittenLine) : Bytes := spaces l.lead ++ l.items.flatMap Written.render

def words (l : WrittenLine) : List Bytes := l.items.map Written.word

/-- `parse_line` returns one command, with the words of the line as its arguments. -/
def Restored (l : WrittenLine) (rest : Bytes) : Prop :=
  ∃ cmds cmd, parseLine (l.render ++ byte '\n' :: rest) = .ok (⟨1, cmds⟩, rest) ∧
    cmds.load 0 = some cmd ∧ Runs cmd l.words

end WrittenLine

def Form.Quoted : Form → Prop
  | .bare => False
  | .dquoted => True
  | .squoted => True
  | .escaped => False

/-- The words that come back from a form: a backslash does not make the next character an
ordinary one, and is kept. -/
def Form.Keeps : Form → Bytes → Prop
  | .bare, _ => True
  | .dquoted, w => ∀ c ∈ w, dquoteSpecial c = false
  | .squoted, _ => True
  | .escaped, w => ∀ c ∈ w, special c = true → c = byte '\\'

/-- A written word that is read back: a quoted one ends its token itself, so that a space behind it
ends another, empty one. -/
structure Written.Legible (x : Written) : Prop where
  keeps : x.form.Keeps x.word
  gap : x.gap ≤ 1
  quoted : x.form.Quoted → x.gap = 0

structure WrittenLine.Legible (l : WrittenLine) : Prop where
  lead : l.lead = 0
  items : ∀ x ∈ l.items, x.Legible
  bar : text "|" ∉ l.words
  fits : Fits firstLimit 0 1 l.words 0

/-- The characters that are stored for a word outside quotes. -/
def stored (w : Bytes) : Bytes := w.map fun c => if special c then byte '\\' else c

theorem stored_special {c : UInt8} (h : special c = true) (w : Bytes) :
    stored (c :: w) = byte '\\' :: stored w := by
  simp [stored, h]

theorem stored_plain {c : UInt8} (h : special c = false) (w : Bytes) :
    stored (c :: w) = c :: stored w := by
  simp [stored, h]

theorem stored_eq_iff (w : Bytes) :
    stored w = w ↔ ∀ c ∈ w, special c = true → c = byte '\\' := by
  induction w with
  | nil => simp [stored]
  | cons c w ih =>
    rw [List.forall_mem_cons, ← ih]
    cases h : special c with
    | true =>
      rw [stored_special h, List.cons.injEq]
      exact and_congr ⟨fun e _ => e.symm, fun e => (e rfl).symm⟩ Iff.rfl
    | false =>
      rw [stored_plain h, List.cons.injEq]
      exact and_congr ⟨fun _ e => absurd e Bool.false_ne_true, fun _ => rfl⟩ Iff.rfl

theorem backslashed_pos {p : UInt8 → Bool} {c : UInt8} (h : p c = true) (w : Bytes) :
    backslashed p (c :: w) = byte '\\' :: c :: backslashed p w := by
  simp [backslashed, h]

theorem backslashed_neg {p : UInt8 → Bool} {c : UInt8} (h : p c = false) (w : Bytes) :
    backslashed p (c :: w) = c :: backslashed p w := by
  simp [backslashed, h]

theorem backslashed_of_none {p : UInt8 → Bool} {w : Bytes} (h : ∀ c ∈ w, p c = false) :
    backslashed p w = w := by
  induction w with
  | nil => rfl
  | cons c w ih =>
    obtain ⟨hc, hw⟩ := List.forall_mem_cons.mp h
    rw [backslashed_neg hc, ih hw]

theorem le_length_backslashed (p : UInt8 → Bool) (w : Bytes) :
    w.length ≤ (backslashed p w).length := by
  induction w with
  | nil => exact Nat.le_refl _
  | cons c w ih =>
    cases h : p c with
    | true =>
      rw [backslashed_pos h, List.length_cons, List.length_cons, List.length_cons]
      omega
    | false =>
      rw [backslashed_neg h, List.length_cons, List.length_cons]
      omega

theorem length_lt_backslashed {p : UInt8 → Bool} {w : Bytes} (h : ¬ ∀ c ∈ w, p c = false) :
    w.length < (backslashed p w).length := by
  induction w with
  | nil => simp at h
  | cons c w ih =>
    have le := le_length_backslashed p w
    cases hc : p c with
    | true =>
      rw [backslashed_pos hc, List.length_cons, List.length_cons, List.length_cons]
      omega
    | false =>
      have lt := ih (by simpa [hc] using h)
      rw [backslashed_neg hc, List.length_cons, List.length_cons]
      omega

/-- A word outside quotes, with a backslash before each of its special characters. -/
theorem read_backslashed {w : Bytes} (hw : ∀ c ∈ w, c ≠ byte '\n') (prev : UInt8)
    (cur tail : Bytes) :
    ∃ p, read .plain prev cur (backslashed special w ++ tail) =
      read .plain p (cur ++ stored w) tail := by
  induction w generalizing prev cur with
  | nil => exact ⟨prev, by simp [backslashed, stored]⟩
  | cons c w ih =>
    obtain ⟨hc, hw⟩ := List.forall_mem_cons.mp hw
    cases h : special c with
    | true =>
      obtain ⟨p, eq⟩ := ih hw c (cur ++ [byte '\\'])
      refine ⟨p, ?_⟩
      rw [backslashed_pos h, stored_special h, List.cons_append, List.cons_append,
        read_escape prev cur hc, eq, List.append_assoc, List.singleton_append]
    | false =>
      obtain ⟨p, eq⟩ := ih hw c (cur ++ [c])
      refine ⟨p, ?_⟩
      rw [backslashed_neg h, stored_plain h, List.cons_append, read_char prev cur hc h, eq,
        List.append_assoc, List.singleton_append]

/-- Between double quotes every character is stored: a quote inside has a backslash before it. -/
theorem read_dquoted_body (w : Bytes) (prev : UInt8) (cur tail : Bytes) :
    ∃ p, read .dquote prev cur (backslashed dquoteSpecial w ++ tail) =
        read .dquote p (cur ++ backslashed dquoteSpecial w) tail ∧ p ∈ prev :: w := by
  induction w generalizing prev cur with
  | nil => exact ⟨prev, by simp [backslashed], List.mem_cons_self⟩
  | cons c w ih =>
    cases h : dquoteSpecial c with
    | true =>
      obtain ⟨p, eq, mem⟩ := ih c (cur ++ [byte '\\'] ++ [c])
      refine ⟨p, ?_, List.mem_cons_of_mem prev mem⟩
      rw [backslashed_pos h, List.cons_append, List.cons_append,
        read_dquoted prev cur (.inl (by decide)), read_dquoted _ _ (.inr rfl), eq]
      simp
    | false =>
      obtain ⟨p, eq, mem⟩ := ih c (cur ++ [c])
      refine ⟨p, ?_, List.mem_cons_of_mem prev mem⟩
      have ne : c ≠ byte '"' := by
        intro quote
        rw [quote] at h
        exact absurd h (by decide)
      rw [backslashed_neg h, List.cons_append, read_dquoted prev cur (.inl ne), eq]
      simp

theorem read_squoted_body {w : Bytes}
    (hw : ∀ c ∈ w, c ≠ byte '\n' ∧ c ≠ byte '\'' ∧ c ≠ byte '\\') (prev : UInt8)
    (cur tail : Bytes) :
    ∃ p, read .squote prev cur (w ++ tail) = read .squote p (cur ++ w) tail ∧ p ∈ prev :: w := by
  induction w generalizing prev cur with
  | nil => exact ⟨prev, by simp, List.mem_cons_self⟩
  | cons c w ih =>
    obtain ⟨hc, hw⟩ := List.forall_mem_cons.mp hw
    obtain ⟨p, eq, mem⟩ := ih hw c (cur ++ [c])
    refine ⟨p, ?_, List.mem_cons_of_mem prev mem⟩
    rw [List.cons_append, read_squoted prev cur hc.1 hc.2.1, eq]
    simp

/-- Spaces behind a word, the first of which ends it and each further one an empty token. -/
theorem read_spaces (prev : UInt8) (cur : Bytes) (n : Nat) (tail : Bytes) :
    (read .plain prev cur (spaces (n + 1) ++ tail)).words =
        cur :: (List.replicate n [] ++ (read .plain (byte ' ') [] tail).words) := by
  induction n generalizing prev cur with
  | zero =>
    change (read .plain prev cur (byte ' ' :: tail)).words = _
    rw [read_space]
    rfl
  | succ n ih =>
    change (read .plain prev cur (byte ' ' :: (spaces (n + 1) ++ tail))).words = _
    rw [read_space]
    change cur :: (read .plain (byte ' ') [] (spaces (n + 1) ++ tail)).words = _
    rw [ih, List.replicate_succ, List.cons_append]

namespace Written

theorem no_newline (x : Written) : ∀ c ∈ x.word, c ≠ byte '\n' := fun c hc => (x.plain c hc).2

/-- A word without quotes around it, before the space or newline that ends it. -/
theorem read_unquoted (x : Written) (h : ¬ x.form.Quoted) (prev : UInt8) (tail : Bytes) :
    ∃ p, read .plain prev [] (x.form.render x.word ++ tail) = read .plain p (stored x.word) tail := by
  have escaped := read_backslashed x.no_newline prev [] tail
  rw [List.nil_append] at escaped
  have allowed := x.allowed
  cases form : x.form with
  | bare =>
    rw [form] at allowed
    rw [backslashed_of_none allowed] at escaped
    exact escaped
  | escaped => exact escaped
  | dquoted => exact absurd (by rw [form]; exact trivial) h
  | squoted => exact absurd (by rw [form]; exact trivial) h

/-- A quoted word that is kept ends its own token. -/
theorem read_quoted (x : Written) (h : x.form.Quoted) (keeps : x.form.Keeps x.word) {prev : UInt8}
    (hp : prev ≠ byte '\\') (tail : Bytes) :
    ∃ p, read .plain prev [] (x.form.render x.word ++ tail) =
      (read .plain p [] tail).push x.word := by
  have allowed := x.allowed
  cases form : x.form with
  | bare => exact absurd h (by rw [form]; exact id)
  | escaped => exact absurd h (by rw [form]; exact id)
  | dquoted =>
    rw [form] at keeps
    obtain ⟨p, eq, mem⟩ := read_dquoted_body x.word 0 [] (byte '"' :: tail)
    refine ⟨p, ?_⟩
    have close : p ≠ byte '\\' := by
      intro backslash
      rw [backslash, List.mem_cons] at mem
      exact mem.elim (by decide) fun mem => absurd (keeps _ mem) (by decide)
    rw [backslashed_of_none keeps, List.nil_append] at eq
    change read .plain prev [] (byte '"' :: (_ ++ [byte '"']) ++ tail) = _
    rw [backslashed_of_none keeps, List.cons_append, List.append_assoc, read_dquote]
    exact eq.trans (read_dquoted_close close _ _)
  | squoted =>
    rw [form] at allowed
    obtain ⟨p, eq, mem⟩ := read_squoted_body (fun c hc => ⟨x.no_newline c hc, allowed c hc⟩) prev []
      (byte '\'' :: tail)
    refine ⟨byte '\'', ?_⟩
    have close : p ≠ byte '\\' := by
      intro backslash
      rw [backslash, List.mem_cons] at mem
      exact mem.elim (fun e => hp e.symm) fun mem => (allowed _ mem).2 rfl
    change read .plain prev [] (byte '\'' :: (x.word ++ [byte '\'']) ++ tail) = _
    rw [List.cons_append, List.append_assoc, read_squote]
    exact eq.trans (read_squoted_close close _ _)

/-- The token of a word in double quotes that is not kept begins with something longer. -/
theorem read_spoiled (x : Written) (h : x.form.Quoted) (spoiled : ¬ x.form.Keeps x.word)
    (prev : UInt8) (tail : Bytes) :
    ∃ begun more words, (read .plain prev [] (x.form.render x.word ++ tail)).words =
        (begun ++ more) :: words ∧ x.word.length < begun.length ∧ ∀ c ∈ begun, c ≠ 0 := by
  cases form : x.form with
  | bare => exact absurd h (by rw [form]; exact id)
  | escaped => exact absurd h (by rw [form]; exact id)
  | squoted => exact absurd (by rw [form]; exact trivial) spoiled
  | dquoted =>
    rw [form] at spoiled
    have longer := length_lt_backslashed spoiled
    obtain ⟨p, eq, -⟩ := read_dquoted_body x.word 0 [] (byte '"' :: tail)
    have begun : backslashed dquoteSpecial x.word ≠ [] := by
      intro empty
      rw [empty] at longer
      exact absurd longer (Nat.not_lt_zero _)
    obtain ⟨more, words, head⟩ := read_words_head .dquote p begun (byte '"' :: tail)
    refine ⟨_, more, words, ?_, longer, ?_⟩
    · change (read .plain prev [] (byte '"' :: (_ ++ [byte '"']) ++ tail)).words = _
      rw [List.cons_append, List.append_assoc, read_dquote]
      exact (congrArg Reading.words eq).trans head
    · intro c hc
      obtain ⟨d, hd, mem⟩ := List.mem_flatMap.mp hc
      have ne := (x.plain d hd).1
      split at mem
      · simp only [List.mem_cons, List.not_mem_nil, or_false] at mem
        rcases mem with mem | mem
        · rw [mem]
          decide
        · rw [mem]
          exact ne
      · rw [List.mem_singleton.mp mem]
        exact ne

/-- Without quotes around it, a word is kept just when its characters are stored as they are. -/
theorem keeps_iff (x : Written) (h : ¬ x.form.Quoted) :
    x.form.Keeps x.word ↔ stored x.word = x.word := by
  have allowed := x.allowed
  cases form : x.form with
  | dquoted => exact absurd (by rw [form]; exact trivial) h
  | squoted => exact absurd (by rw [form]; exact trivial) h
  | escaped => exact (stored_eq_iff x.word).symm
  | bare =>
    rw [form] at allowed
    refine iff_of_true trivial ((stored_eq_iff x.word).mpr ?_)
    intro c hc hs
    rw [allowed c hc] at hs
    cases hs

end Written

theorem cString_of_ne {w : Bytes} (h : ∀ c ∈ w, c ≠ 0) (more : Bytes) :
    cString (w ++ more) = w ++ cString more :=
  List.takeWhile_append_of_pos (by simpa using h)

theorem stored_no_nul (w : Bytes) (h : ∀ c ∈ w, c ≠ 0) : ∀ c ∈ stored w, c ≠ 0 := by
  intro c hc
  obtain ⟨d, hd, eq⟩ := List.mem_map.mp hc
  rw [← eq]
  split
  · decide
  · exact h d hd

theorem stored_ne_nil {w : Bytes} (h : w ≠ []) : stored w ≠ [] := by
  simpa [stored] using h

/-- Only the last word may have no space behind it. -/
theorem eq_nil_of_gap {x : Written} {items : List Written}
    (separated : ∀ y ∈ (x :: items).dropLast, 0 < y.gap) (h : x.gap = 0) : items = [] := by
  cases items with
  | nil => rfl
  | cons y items =>
    have := separated x (by simp)
    omega

theorem separated_tail {x : Written} {items : List Written}
    (separated : ∀ y ∈ (x :: items).dropLast, 0 < y.gap) : ∀ y ∈ items.dropLast, 0 < y.gap := by
  cases items with
  | nil => simp
  | cons z items =>
    intro y hy
    exact separated y (by simpa using .inr hy)

/-- Legible words are read back. -/
theorem read_legible {items : List Written} (separated : ∀ x ∈ items.dropLast, 0 < x.gap)
    (legible : ∀ x ∈ items, x.Legible) {prev : UInt8} (hp : prev ≠ byte '\\') (rest : Bytes) :
    read .plain prev [] (items.flatMap Written.render ++ byte '\n' :: rest) =
      ⟨items.map Written.word, 0, rest⟩ := by
  induction items generalizing prev with
  | nil => exact read_newline prev [] rest
  | cons x items ih =>
    obtain ⟨hx, hitems⟩ := List.forall_mem_cons.mp legible
    have space : byte ' ' ≠ byte '\\' := by decide
    have tail := ih (separated_tail separated) hitems space
    rw [List.flatMap_cons, Written.render, List.append_assoc, List.append_assoc]
    by_cases quoted : x.form.Quoted
    · have none := hx.quoted quoted
      obtain ⟨p, eq⟩ := x.read_quoted quoted hx.keeps hp
        (spaces x.gap ++ (items.flatMap Written.render ++ byte '\n' :: rest))
      rw [eq, none, eq_nil_of_gap separated none]
      change Reading.push _ (read .plain p [] (byte '\n' :: rest)) = _
      rw [read_newline]
      rfl
    · obtain ⟨p, eq⟩ := x.read_unquoted quoted prev
        (spaces x.gap ++ (items.flatMap Written.render ++ byte '\n' :: rest))
      rw [eq, (x.keeps_iff quoted).mp hx.keeps]
      have le := hx.gap
      obtain none | one : x.gap = 0 ∨ x.gap = 1 := by omega
      · rw [none, eq_nil_of_gap separated none]
        change read .plain p x.word (byte '\n' :: rest) = _
        rw [read_newline, if_neg x.word_ne]
        rfl
      · rw [one]
        change read .plain p x.word
          (byte ' ' :: (items.flatMap Written.render ++ byte '\n' :: rest)) = _
        rw [read_space, tail]
        rfl

/-- No empty argument stands among words. -/
theorem nil_ne_word {items : List Written} {words : List Bytes} :
    (cString [] :: words) ≠ items.map Written.word := by
  intro eq
  cases items with
  | nil => cases eq
  | cons x items => exact x.word_ne (List.cons.inj eq).1.symm

/-- Words that are read back are legible: the first that is not shows in the first difference. -/
theorem legible_of_read {items : List Written} (separated : ∀ x ∈ items.dropLast, 0 < x.gap)
    {prev : UInt8} (hp : prev ≠ byte '\\') (rest : Bytes)
    (same : (read .plain prev [] (items.flatMap Written.render ++ byte '\n' :: rest)).words.map
      cString = items.map Written.word) : ∀ x ∈ items, x.Legible := by
  induction items generalizing prev with
  | nil => simp
  | cons x items ih =>
    rw [List.flatMap_cons, Written.render, List.append_assoc, List.append_assoc,
      List.map_cons] at same
    have nul : ∀ c ∈ x.word, c ≠ 0 := fun c hc => (x.plain c hc).1
    rw [List.forall_mem_cons]
    by_cases quoted : x.form.Quoted
    · by_cases keeps : x.form.Keeps x.word
      · obtain ⟨p, eq⟩ := x.read_quoted quoted keeps hp
          (spaces x.gap ++ (items.flatMap Written.render ++ byte '\n' :: rest))
        rw [eq] at same
        have tail := (List.cons.inj same).2
        obtain none | ⟨n, some⟩ : x.gap = 0 ∨ ∃ n, x.gap = n + 1 := by
          cases x.gap with
          | zero => exact .inl rfl
          | succ n => exact .inr ⟨n, rfl⟩
        · refine ⟨⟨keeps, by omega, fun _ => none⟩, ?_⟩
          rw [eq_nil_of_gap separated none]
          simp
        · change List.map cString (read .plain p [] _).words = _ at tail
          rw [some, read_spaces] at tail
          exact absurd tail nil_ne_word
      · obtain ⟨begun, more, words, eq, longer, ne⟩ := x.read_spoiled quoted keeps prev
          (spaces x.gap ++ (items.flatMap Written.render ++ byte '\n' :: rest))
        rw [eq] at same
        have head := congrArg List.length (List.cons.inj same).1
        rw [cString_of_ne ne, List.length_append] at head
        omega
    · obtain ⟨p, eq⟩ := x.read_unquoted quoted prev
        (spaces x.gap ++ (items.flatMap Written.render ++ byte '\n' :: rest))
      rw [eq] at same
      obtain none | ⟨n, some⟩ : x.gap = 0 ∨ ∃ n, x.gap = n + 1 := by
        cases x.gap with
        | zero => exact .inl rfl
        | succ n => exact .inr ⟨n, rfl⟩
      · have last := eq_nil_of_gap separated none
        rw [none, last] at same
        change List.map cString (read .plain p (stored x.word) (byte '\n' :: rest)).words = _ at same
        rw [read_newline, if_neg (stored_ne_nil x.word_ne)] at same
        have head := (List.cons.inj same).1
        rw [cString_eq (stored_no_nul x.word nul)] at head
        refine ⟨⟨(x.keeps_iff quoted).mpr head, by omega, fun h => absurd h quoted⟩, ?_⟩
        rw [last]
        simp
      · rw [some, read_spaces, List.map_cons, List.map_append, List.map_replicate] at same
        obtain ⟨head, tail⟩ := List.cons.inj same
        rw [cString_eq (stored_no_nul x.word nul)] at head
        cases n with
        | zero =>
          refine ⟨⟨(x.keeps_iff quoted).mpr head, by omega, fun h => absurd h quoted⟩, ?_⟩
          exact ih (separated_tail separated) (by decide) tail
        | succ n => exact absurd tail nil_ne_word

theorem cString_append_zero (w more : Bytes) : cString (w ++ 0 :: more) = cString w := by
  induction w with
  | nil => rfl
  | cons c w ih =>
    by_cases h : c = 0
    · simp [cString, h]
    · simpa [cString, h] using ih

/-- A token holds one string, up to the first zero. -/
theorem cString_of_isString {token : Token} {v w : Bytes} (hv : IsString token v)
    (hw : IsString token w) (h : v.length ≤ w.length) : cString v = cString w := by
  have le : (v ++ [0]).map some <+: (w ++ [0]).map some :=
    List.prefix_of_prefix_length_le hv hw (by simpa using h)
  obtain ⟨more, eq⟩ := (List.prefix_map_iff_of_injective (Option.some_injective UInt8)).mp le
  rw [← cString_append_zero w [], ← eq, List.append_assoc]
  exact (cString_append_zero v more).symm

theorem cStrings_eq {tokens : List Token} {vs ws : List Bytes}
    (hv : List.Forall₂ IsString tokens vs) (hw : List.Forall₂ IsString tokens ws) :
    vs.map cString = ws.map cString := by
  induction hv generalizing ws with
  | nil =>
    cases hw
    rfl
  | @cons token v _ _ head _ ih =>
    cases hw with
    | @cons _ w _ _ head' tail =>
      rw [List.map_cons, List.map_cons, ih tail]
      rcases Nat.le_total v.length w.length with le | le
      · rw [cString_of_isString head head' le]
      · rw [cString_of_isString head' head le]

/-- The arguments of a command are its strings, whatever they stand for. -/
theorem Runs.cStrings {cmd : Cmd} {vs ws : List Bytes} (hv : Runs cmd vs) (hw : Runs cmd ws) :
    vs.map cString = ws.map cString := by
  obtain ⟨ts, ht, tv⟩ := hv
  obtain ⟨us, hu, uw⟩ := hw
  have length : ts.length = us.length := ht.argc.symm.trans hu.argc
  have same := ht.argv.append.eq hu.argv.append (by simpa using length)
  have tokens : ts = us := List.map_injective_iff.mpr (Option.some_injective Token) same
  subst tokens
  exact cStrings_eq tv uw

namespace WrittenLine

theorem words_no_nul (l : WrittenLine) : l.words.map cString = l.words := by
  rw [words, List.map_map]
  refine List.map_congr_left ?_
  intro x _
  exact cString_eq fun c hc => (x.plain c hc).1

theorem countP_words (l : WrittenLine) : l.words.countP readsBar = 0 ↔ text "|" ∉ l.words := by
  have reads : ∀ w ∈ l.words, readsBar w = true ↔ w = text "|" := by
    intro w hw
    obtain ⟨x, -, rfl⟩ := List.mem_map.mp hw
    rw [readsBar, cString_eq fun c hc => (x.plain c hc).1, decide_eq_true_iff]
  rw [List.countP_eq_zero]
  constructor
  · intro none bar
    exact none _ bar ((reads _ bar).mpr rfl)
  · intro none w hw bar
    rw [(reads w hw).mp bar] at hw
    exact none hw

/-- Where the line is read back, all of it is. -/
theorem line_words {l : WrittenLine} (lead : l.lead = 0) (legible : ∀ x ∈ l.items, x.Legible)
    (rest : Bytes) :
    lineWords (l.render ++ byte '\n' :: rest) = l.words ∧
      lineBars (l.render ++ byte '\n' :: rest) = 0 ∧
      lineRest (l.render ++ byte '\n' :: rest) = rest := by
  have line : read .plain 0 [] (l.render ++ byte '\n' :: rest) = ⟨l.words, 0, rest⟩ := by
    rw [render, lead]
    exact read_legible l.separated legible (by decide) rest
  exact ⟨congrArg Reading.words line, congrArg Reading.bars line, congrArg Reading.rest line⟩

theorem legible_of_words {l : WrittenLine} {rest : Bytes}
    (same : (lineWords (l.render ++ byte '\n' :: rest)).map cString = l.words) :
    l.lead = 0 ∧ ∀ x ∈ l.items, x.Legible := by
  rw [lineWords_eq, render, List.append_assoc] at same
  cases lead : l.lead with
  | zero =>
    rw [lead] at same
    exact ⟨rfl, legible_of_read l.separated (by decide) rest same⟩
  | succ n =>
    rw [lead, read_spaces] at same
    exact absurd same nil_ne_word

/-- The words come back exactly when no space stands before the line or behind a quoted word, one
at most behind any other, no backslash is called for but before a backslash outside quotes, no word
is `|`, and no `int` overflows. -/
theorem restored_iff (l : WrittenLine) (rest : Bytes) : l.Restored rest ↔ l.Legible := by
  constructor
  · intro restored
    obtain ⟨cmds, cmd, run, load, runs⟩ := restored
    obtain ⟨fits, none, read⟩ := single_of_parseLine run load
    have same := (read.cStrings runs).trans l.words_no_nul
    obtain ⟨lead, legible⟩ := legible_of_words same
    obtain ⟨words, bars, -⟩ := line_words lead legible rest
    rw [words] at none
    rw [LineFits, words, bars] at fits
    exact ⟨lead, legible, l.countP_words.mp none, fits⟩
  · intro legible
    obtain ⟨words, bars, behind⟩ := line_words legible.lead legible.items rest
    have fits : LineFits (l.render ++ byte '\n' :: rest) := by
      rw [LineFits, words, bars]
      exact legible.fits
    have none : (lineWords (l.render ++ byte '\n' :: rest)).countP readsBar = 0 := by
      rw [words]
      exact l.countP_words.mpr legible.bar
    have single := parseLine_single fits bars none
    rwa [words, behind] at single

theorem Restored.argc {l : WrittenLine} {rest : Bytes} (h : l.Restored rest) :
    (parseLine (l.render ++ byte '\n' :: rest)).toOption.map
      (fun x => (x.1.commands.load 0).map Cmd.argc) = some (some l.words.length) := by
  obtain ⟨cmds, cmd, run, load, tokens, isCommand, strings⟩ := h
  rw [run, ← strings.length_eq, ← isCommand.argc]
  simp [Except.toOption, load]

/-- `pwd` behind one space: the space ends an empty token, which becomes the command. -/
theorem not_restored : ¬ ∀ (l : WrittenLine) (rest : Bytes), l.Restored rest := by
  intro all
  let pwd : Written :=
    { word := text "pwd", form := .bare, gap := 0, word_ne := by decide,
      plain := forall_of_all (by decide), allowed := forall_of_all (by decide) }
  have argc := (all ⟨1, [pwd], by simp⟩ []).argc
  revert argc
  decide

end WrittenLine

end Sysprog.Shell
