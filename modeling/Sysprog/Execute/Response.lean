import Sysprog.Execute.Command
import Sysprog.Storage.Refinement

namespace Sysprog.Execute

/-- A retrieval response that carries these items. -/
def response (items : List (Bytes × Bytes)) : Bytes :=
  items.flatMap (fun i => item i.1 i.2) ++ text "END"

/-- What follows the literal. -/
def expect (literal bs : Bytes) : Option Bytes :=
  if literal.isPrefixOf bs then some (bs.drop literal.length) else none

/-- Reads one item: `VALUE key 0 n` CR LF, `n` bytes, CR LF. -/
def readItem (bs : Bytes) : Option ((Bytes × Bytes) × Bytes) := do
  let bs ← expect (text "VALUE ") bs
  let key := bs.takeWhile (· ≠ byte ' ')
  let bs ← expect (text " 0 ") (bs.dropWhile (· ≠ byte ' '))
  let digits := bs.takeWhile isDigit
  let size := ofDigits 0 digits
  let bs ← expect crlf (bs.dropWhile isDigit)
  if digits = [] ∨ bs.length < size then none
  else
    let rest ← expect crlf (bs.drop size)
    return ((key, bs.take size), rest)

/-- Reads items until nothing but `END` is left. An item has at least one byte, so that the number
of bytes bounds the number of items. -/
def readItems : Nat → Bytes → Option (List (Bytes × Bytes))
  | 0, _ => none
  | fuel + 1, bs =>
    if bs = text "END" then some []
    else do
      let (i, rest) ← readItem bs
      let items ← readItems fuel rest
      return i :: items

def readResponse (bs : Bytes) : Option (List (Bytes × Bytes)) := readItems bs.length bs

/-- The requested keys that are there, with their values, as often as they are requested. -/
def found (es : List Storage.Item) (keys : List Bytes) : List (Bytes × Bytes) :=
  keys.filterMap fun key => (valueOf key es).map fun value => (key, value)

theorem expect_append (literal rest : Bytes) : expect literal (literal ++ rest) = some rest := by
  simp [expect]

/-- A field ends where its bytes do. -/
theorem takeWhile_field {p : UInt8 → Bool} {field rest : Bytes} (hf : ∀ b ∈ field, p b = true)
    (hr : rest.head?.any p = false) :
    (field ++ rest).takeWhile p = field ∧ (field ++ rest).dropWhile p = rest := by
  induction field with
  | nil =>
    cases rest with
    | nil => exact ⟨rfl, rfl⟩
    | cons b rest =>
      have hb : p b = false := by simpa using hr
      simp [hb]
  | cons b field ih =>
    have hb := hf b (by simp)
    obtain ⟨ht, hd⟩ := ih fun c hc => hf c (by simp [hc])
    simp [hb, ht, hd]

/-- Whatever the value is made of, an item is read as it was written. -/
theorem readItem_item {key : Bytes} (hk : ∀ b ∈ key, b ≠ byte ' ') (value rest : Bytes) :
    readItem (item key value ++ rest) = some ((key, value), rest) := by
  let size := decimal value.length
  let tail := crlf ++ (value ++ (crlf ++ rest))
  have hitem : item key value ++ rest = text "VALUE " ++ (key ++ (text " 0 " ++ (size ++ tail))) := by
    simp [item, size, tail]
  obtain ⟨hkey, hbehind⟩ := takeWhile_field (p := fun b => b ≠ byte ' ') (by simpa using hk)
    (show (text " 0 " ++ (size ++ tail)).head?.any _ = false from rfl)
  obtain ⟨hsize, hline⟩ := takeWhile_field (p := isDigit) (decimal_isDigit value.length)
    (show tail.head?.any _ = false from rfl)
  have hdigits : ofDigits 0 size = value.length := ofDigits_decimal value.length
  have hne : size ≠ [] := decimal_ne_nil value.length
  have hfits : ¬(size = [] ∨ (value ++ (crlf ++ rest)).length < value.length) := by simp [hne]
  rw [hitem, readItem]
  simp only [expect_append, Option.bind_eq_bind, Option.bind_some, hkey, hbehind]
  change ((expect crlf ((size ++ tail).dropWhile isDigit)).bind fun bs => _) = _
  rw [hline, hsize, expect_append, Option.bind_some, hdigits, if_neg hfits, List.drop_left,
    List.take_left, expect_append]
  rfl

theorem item_ne_nil (key value : Bytes) : item key value ≠ [] := by simp [item, text]

/-- An item does not look like the end. -/
theorem item_append_ne (key value rest : Bytes) : item key value ++ rest ≠ text "END" := by
  simp [item, text, byte]

theorem readItems_response {items : List (Bytes × Bytes)} (hk : ∀ i ∈ items, ∀ b ∈ i.1, b ≠ byte ' ')
    {fuel : Nat} (hf : items.length < fuel) : readItems fuel (response items) = some items := by
  induction items generalizing fuel with
  | nil =>
    obtain ⟨fuel, rfl⟩ := Nat.exists_eq_add_one.mpr hf
    simp [readItems, response]
  | cons i items ih =>
    obtain ⟨fuel, rfl⟩ := Nat.exists_eq_add_one.mpr (Nat.zero_lt_of_lt hf)
    have hresponse : response (i :: items) = item i.1 i.2 ++ response items := by simp [response]
    have hshort : items.length < fuel := by simpa using hf
    have hrest := ih (fun j hj => hk j (by simp [hj])) hshort
    rw [hresponse, readItems, if_neg (item_append_ne i.1 i.2 _), readItem_item (hk i (by simp))]
    simp [hrest]

/-- Different lists of items are written differently, and each is read back. -/
theorem readResponse_response {items : List (Bytes × Bytes)}
    (hk : ∀ i ∈ items, ∀ b ∈ i.1, b ≠ byte ' ') : readResponse (response items) = some items := by
  have hlength : items.length ≤ (items.flatMap fun i => item i.1 i.2).length := by
    clear hk
    induction items with
    | nil => simp
    | cons i items ih =>
      have hi := List.length_pos_of_ne_nil (item_ne_nil i.1 i.2)
      simp only [List.flatMap_cons, List.length_append, List.length_cons]
      omega
  apply readItems_response hk
  have hend : (text "END").length = 3 := rfl
  simp only [response, List.length_append]
  omega

variable {s : Storage.SimpleLRU} {c : Storage.Cache}

theorem nodup_of_refines (h : Storage.Refines s c) : (keys c.entries).Nodup := by
  obtain ⟨xs, r, rfl⟩ := h
  exact r.nodup

/-- A look-up may reorder the entries and does nothing else to them. -/
theorem get_found (h : Storage.Refines s c) (key out : Bytes) :
    ∃ t c', simpleLRU.get key out (some s) =
        (((valueOf key c.entries).isSome, (valueOf key c.entries).getD out), some t) ∧
      Storage.Refines t c' ∧ c'.entries.Perm c.entries := by
  have hget : Option.Rel Storage.Agree (s.get key out) (c.get key out) := Storage.get_refines h
  cases hv : valueOf key c.entries with
  | none =>
    have hc : c.get key out = some ((false, out), c) := by simp [Storage.Cache.get, hv]
    obtain ⟨t, hs, ht⟩ := Storage.agree_some hget hc
    exact ⟨t, c, by simp [simpleLRU, simpleLRU.settle, hs], ht, .refl _⟩
  | some value =>
    have hc : c.get key out =
        some ((true, value), { c with entries := touch key value c.entries }) := by
      simp [Storage.Cache.get, hv]
    obtain ⟨t, hs, ht⟩ := Storage.agree_some hget hc
    exact ⟨t, _, by simp [simpleLRU, simpleLRU.settle, hs], ht, touch_perm (nodup_of_refines h) hv⟩

/-- The loop writes the items that are found at its start: its own look-ups do not disturb it. -/
theorem getLoop_found (h : Storage.Refines s c) (requested : List Bytes) (value : Bytes) :
    ∃ t c', getLoop simpleLRU requested value (some s) =
        ((found c.entries requested).flatMap (fun i => item i.1 i.2), some t) ∧
      Storage.Refines t c' ∧ c'.entries.Perm c.entries := by
  induction requested generalizing s c value with
  | nil => exact ⟨s, c, rfl, h, .refl _⟩
  | cons key requested ih =>
    obtain ⟨t, c', hget, ht, hperm⟩ := get_found h key value
    obtain ⟨t', c'', hloop, ht', hperm'⟩ := ih ht ((valueOf key c.entries).getD value)
    have hsame : found c'.entries requested = found c.entries requested := by
      have hvalue : ∀ k, valueOf k c'.entries = valueOf k c.entries :=
        fun k => valueOf_perm (nodup_of_refines ht) hperm
      simp only [found, hvalue]
    refine ⟨t', c'', ?_, ht', hperm'.trans hperm⟩
    rw [getLoop, hget]
    cases hv : valueOf key c.entries with
    | none =>
      rw [hv] at hloop
      simp only [Option.isSome_none, hloop, hsame]
      simp [found, hv]
    | some v =>
      rw [hv] at hloop
      simp only [Option.isSome_some, Option.getD_some] at hloop ⊢
      simp only [hloop, hsame]
      simp [found, hv]

/-- The response to `get` reads back as the requested pairs, and the associations are those from
before. -/
theorem execute_get_readable (h : Storage.Refines s c) (requested : List Bytes)
    (hk : ∀ k ∈ requested, ∀ b ∈ k, b ≠ byte ' ' ∧ b ≠ byte '\r') (args : Bytes) :
    ∃ out t c', Command.execute simpleLRU args (some s) (.get requested) = (out, some t) ∧
      readResponse out = some (found c.entries requested) ∧
      Storage.Refines t c' ∧ c'.entries.Perm c.entries := by
  obtain ⟨t, c', hloop, ht, hperm⟩ := getLoop_found h requested []
  refine ⟨response (found c.entries requested), t, c', ?_, ?_, ht, hperm⟩
  · simp [Command.execute, hloop, response]
  · apply readResponse_response
    intro i hi b hb
    obtain ⟨key, hkey, hvalue⟩ := List.mem_filterMap.mp hi
    obtain ⟨value, -, rfl⟩ := Option.map_eq_some_iff.mp hvalue
    exact (hk key hkey b hb).1

/-- A value that looks like the end of a response, asked for twice. -/
theorem execute_get_readable_twice :
    ∃ s out t, Command.execute simpleLRU [] (some s) (.get [text "a", text "b", text "a"]) =
        (out, some t) ∧
      readResponse out = some [(text "a", text "\r\nEND"), (text "a", text "\r\nEND")] := by
  have hput : Storage.Cache.put ⟨64, 0, []⟩ (text "a") (text "\r\nEND") =
    some (true, ⟨64, 6, [⟨text "a", text "\r\nEND"⟩]⟩) := by rfl
  obtain ⟨s, -, hs⟩ := Storage.agree_some (Storage.put_refines (Storage.create_refines 64)) hput
  obtain ⟨out, t, -, he, hr, -⟩ := execute_get_readable hs [text "a", text "b", text "a"]
    (by
      intro k hk
      simp only [List.mem_cons, List.not_mem_nil, or_false] at hk
      obtain rfl | rfl | rfl := hk
      all_goals exact forall_of_all (by decide)) []
  exact ⟨s, out, t, he, hr⟩

end Sysprog.Execute
