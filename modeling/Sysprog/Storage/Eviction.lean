import Sysprog.Storage.Accounting

namespace Sysprog.Storage

/-- `gone` is the shortest prefix of `es` without which `size` more bytes fit into `max`. -/
structure Shortest (max size : Nat) (es gone rest : List Item) : Prop where
  split : es = gone ++ rest
  fits : total rest + size ≤ max
  least : ∀ us vs, es = us ++ vs → total vs + size ≤ max → gone.length ≤ us.length

section shortest

variable {room max size : Nat} {es fs gone rest : List Item}

theorem victims_length_le {us vs : List Item} (h : es = us ++ vs) (hv : total vs ≤ room) :
    (victims room es).length ≤ us.length := by
  induction es generalizing us with
  | nil => exact Nat.zero_le _
  | cons e es ih =>
    by_cases hr : total (e :: es) ≤ room
    · rw [victims, if_pos hr]
      exact Nat.zero_le _
    · cases us with
      | nil =>
        rw [List.nil_append] at h
        exact absurd hv (h ▸ hr)
      | cons u us =>
        obtain ⟨rfl, ht⟩ : e = u ∧ es = us ++ vs := by simpa using h
        rw [victims, if_neg hr]
        exact Nat.succ_le_succ (ih ht)

theorem shortest_victims (hs : size ≤ max) (es : List Item) :
    Shortest max size es (victims (max - size) es) (keep (max - size) es) where
  split := (victims_append_keep _ es).symm
  fits := by
    have h := total_keep_le (max - size) es
    omega
  least := by
    intro us vs h hv
    exact victims_length_le h (by omega)

/-- There is only one such prefix. -/
theorem Shortest.eq_keep (h : Shortest max size es gone rest) : rest = keep (max - size) es := by
  have hfit := h.fits
  have hsplit := victims_append_keep (max - size) es
  have hk := total_keep_le (max - size) es
  have h1 := h.least _ _ hsplit.symm (by omega)
  have h2 : (victims (max - size) es).length ≤ gone.length := victims_length_le h.split (by omega)
  have he : gone ++ rest = victims (max - size) es ++ keep (max - size) es := by
    rw [hsplit, ← h.split]
  exact (List.append_inj he (Nat.le_antisymm h1 h2)).2

theorem tailSize_le_total (es : List Item) : tailSize es ≤ total es := by
  cases h : es.getLast? with
  | none => simp [tailSize, h]
  | some e =>
    have he := le_total (List.mem_of_getLast? h)
    simpa [tailSize, h] using he

theorem tailSize_append (es : List Item) (h : fs ≠ []) : tailSize (es ++ fs) = tailSize fs := by
  simp [tailSize, List.getLast?_append_of_ne_nil _ h]

theorem keep_eq_drop (room : Nat) (es : List Item) :
    keep room es = es.drop (victims room es).length := by
  have h := congrArg (List.drop (victims room es).length) (victims_append_keep room es)
  rwa [List.drop_left] at h

/-- An entry stays exactly when the freshest one can. -/
theorem keep_ne_nil (he : es ≠ []) : keep room es ≠ [] ↔ tailSize es ≤ room := by
  have hsplit := victims_append_keep room es
  constructor
  · intro hk
    have htail := tailSize_append (victims room es) hk
    rw [hsplit] at htail
    rw [htail]
    exact (tailSize_le_total _).trans (total_keep_le room es)
  · intro ht hk
    rw [hk, List.append_nil] at hsplit
    obtain ⟨us, e, rfl⟩ : ∃ us e, es = us ++ [e] :=
      ⟨es.dropLast, es.getLast he, (List.dropLast_append_getLast he).symm⟩
    have hle : (victims room (us ++ [e])).length ≤ us.length := by
      apply victims_length_le rfl
      simpa [tailSize, total] using ht
    rw [hsplit] at hle
    simp at hle

/-- Where the freshest entry can stay, it is not among those that go. -/
theorem victims_length_lt (ht : tailSize es ≤ room) :
    (victims room es).length < es.length ∨ (victims room es).length = 0 := by
  by_cases he : es = []
  · exact .inr (by simp [he, victims])
  · have hk := List.length_pos_of_ne_nil ((keep_ne_nil he).mpr ht)
    have hsplit := congrArg List.length (victims_append_keep room es)
    rw [List.length_append] at hsplit
    exact .inl (by omega)

end shortest

section loop

/-- The last entry is never evicted. -/
theorem evictWhile_ne_nil {full : Nat → Bool} {cur cur' : Nat} {es fs : List Item}
    (h : Cache.evictWhile full cur es = some (cur', fs)) (hne : es ≠ []) : fs ≠ [] := by
  induction es generalizing cur with
  | nil => exact absurd rfl hne
  | cons e es ih =>
    cases hf : full cur with
    | true =>
      cases es with
      | nil => simp [Cache.evictWhile, hf] at h
      | cons f es =>
        simp only [Cache.evictWhile, hf, if_true] at h
        exact ih h (by simp)
    | false =>
      have he : some (cur, e :: es) = some (cur', fs) := by
        cases es <;> simpa [Cache.evictWhile, hf] using h
      obtain ⟨-, rfl⟩ : cur = cur' ∧ e :: es = fs := by simpa using he
      simp

/-- Each turn takes the size of the freshest entry off the counter. The loop ends when some number
of turns that leaves an entry is enough. -/
theorem evictWhile_iterate {full : Nat → Bool} {cur n : Nat} {es : List Item} (hn : n < es.length)
    (hf : full ((fun c => sizeSub c (tailSize es))^[n] cur) = false) :
    ∃ cur' fs, Cache.evictWhile full cur es = some (cur', fs) := by
  induction es generalizing cur n with
  | nil => exact absurd hn (Nat.not_lt_zero n)
  | cons e es ih =>
    cases hc : full cur with
    | false => exact ⟨cur, e :: es, by cases es <;> simp [Cache.evictWhile, hc]⟩
    | true =>
      cases n with
      | zero => simp [hc] at hf
      | succ n =>
        cases es with
        | nil => simp at hn
        | cons f es =>
          have hlast : tailSize (e :: f :: es) = tailSize (f :: es) := by simp [tailSize]
          rw [hlast, Function.iterate_succ_apply] at hf
          obtain ⟨cur', fs, h⟩ := ih (Nat.lt_of_succ_lt_succ hn) hf
          exact ⟨cur', fs, by simpa [Cache.evictWhile, hc] using h⟩

-- the loops test `g(_current_size) > room`, where `g` adds something to `_current_size` or nothing
variable {g : Nat → Nat} {room cur cur' : Nat} {es fs : List Item}
  (hg : ∀ c t, g (sizeSub c t) = sizeSub (g c) t)

include hg

/-- As many entries go as the size of the freshest one has to be subtracted, each time in place of
the size of what goes. -/
theorem evictWhile_least (hlt : g cur < 2 ^ 64) (ht : tailSize es ≤ room)
    (h : Cache.evictWhile (fun c => room < g c) cur es = some (cur', fs)) :
    ∃ n, fs = es.drop n ∧ IsLeast {n | g cur ≤ room + n * tailSize es} n ∧
      (es ≠ [] → n < es.length) := by
  induction es generalizing cur with
  | nil =>
    by_cases hf : room < g cur
    · simp [Cache.evictWhile, hf] at h
    · obtain ⟨-, rfl⟩ : cur = cur' ∧ [] = fs := by simpa [Cache.evictWhile, hf] using h
      exact ⟨0, rfl, ⟨by simpa using hf, fun _ _ => Nat.zero_le _⟩, fun hne => absurd rfl hne⟩
  | cons e es ih =>
    by_cases hf : room < g cur
    · cases es with
      | nil => simp [Cache.evictWhile, hf] at h
      | cons f es =>
        have hlast : tailSize (e :: f :: es) = tailSize (f :: es) := by simp [tailSize]
        rw [hlast] at ht ⊢
        simp only [Cache.evictWhile, hf, decide_true, if_true] at h
        have hsub : g (sizeSub cur (tailSize (f :: es))) = g cur - tailSize (f :: es) := by
          rw [hg, sizeSub_of_le (by omega) hlt]
        obtain ⟨n, hfs, ⟨hn, hmin⟩, hlen⟩ := ih (by omega) ht h
        have hn' : g cur - tailSize (f :: es) ≤ room + n * tailSize (f :: es) := hsub ▸ hn
        refine ⟨n + 1, hfs, ⟨?_, ?_⟩, fun _ => Nat.succ_lt_succ (hlen (by simp))⟩
        · change g cur ≤ room + (n + 1) * tailSize (f :: es)
          rw [Nat.succ_mul]
          omega
        · intro m hm
          cases m with
          | zero => exact absurd hf (by simpa using hm)
          | succ m =>
            change g cur ≤ room + (m + 1) * tailSize (f :: es) at hm
            rw [Nat.succ_mul] at hm
            have hm' : g (sizeSub cur (tailSize (f :: es))) ≤ room + m * tailSize (f :: es) := by
              omega
            exact Nat.succ_le_succ (hmin hm')
    · have he : some (cur, e :: es) = some (cur', fs) := by
        cases es <;> simpa [Cache.evictWhile, hf] using h
      obtain ⟨-, rfl⟩ : cur = cur' ∧ e :: es = fs := by simpa using he
      exact ⟨0, rfl, ⟨by simpa using hf, fun _ _ => Nat.zero_le _⟩, fun _ => by simp⟩

/-- The loop ends before it comes to the last entry if that many subtractions are enough. -/
theorem evictWhile_ends (hlt : g cur < 2 ^ 64) (ht : tailSize es ≤ room) {n : Nat}
    (hn : g cur ≤ room + n * tailSize es) (hl : n < es.length ∨ n = 0) :
    ∃ cur' fs, Cache.evictWhile (fun c => room < g c) cur es = some (cur', fs) := by
  induction es generalizing cur n with
  | nil =>
    obtain rfl : n = 0 := hl.resolve_left (by simp)
    have hf : ¬room < g cur := by omega
    exact ⟨cur, [], by simp [Cache.evictWhile, hf]⟩
  | cons e es ih =>
    by_cases hf : room < g cur
    · obtain ⟨n, rfl⟩ : ∃ m, n = m + 1 := by
        apply Nat.exists_eq_succ_of_ne_zero
        intro h0
        rw [h0] at hn
        omega
      have hlen : n + 1 < es.length + 1 := by simpa using hl
      cases es with
      | nil => simp at hlen
      | cons f es =>
        have hlast : tailSize (e :: f :: es) = tailSize (f :: es) := by simp [tailSize]
        rw [hlast] at ht hn
        have hsub : g (sizeSub cur (tailSize (f :: es))) = g cur - tailSize (f :: es) := by
          rw [hg, sizeSub_of_le (by omega) hlt]
        rw [Nat.succ_mul] at hn
        have hn' : g (sizeSub cur (tailSize (f :: es))) ≤ room + n * tailSize (f :: es) := by omega
        obtain ⟨cur', fs, h⟩ := ih (by omega) ht hn' (.inl (by simpa using hlen))
        exact ⟨cur', fs, by simpa [Cache.evictWhile, hf] using h⟩
    · exact ⟨cur, e :: es, by cases es <;> simp [Cache.evictWhile, hf]⟩

/-- Where the loop stops, for the least number of subtractions. -/
theorem evictWhile_drop (hlt : g cur < 2 ^ 64) (ht : tailSize es ≤ room) {n : Nat}
    (hn : IsLeast {n | g cur ≤ room + n * tailSize es} n) (hl : n < es.length ∨ n = 0) :
    ∃ cur', Cache.evictWhile (fun c => room < g c) cur es = some (cur', es.drop n) := by
  obtain ⟨cur', fs, h⟩ := evictWhile_ends hg hlt ht hn.1 hl
  obtain ⟨m, rfl, hm, -⟩ := evictWhile_least hg hlt ht h
  rw [hn.unique hm]
  exact ⟨cur', h⟩

end loop

/-- The evictions for a new pair go right: the freshest entry can stay, and as many entries have to
go as its size has to be subtracted from the counter. -/
def EvictsRight (room : Nat) (es : List Item) : Prop :=
  tailSize es ≤ room ∧ IsLeast {n | total es ≤ room + n * tailSize es} (victims room es).length

namespace Cache

variable {c : Cache} {key value : Bytes}

/-- An insertion leaves what it should exactly when its evictions go right. -/
theorem insertNewValue_keep_iff (h : c.Exact) (hfit : key.length + value.length ≤ c.maxSize) :
    (∃ c', c.insertNewValue key value = some c' ∧
      c'.entries = keep (c.maxSize - (key.length + value.length)) c.entries ++ [⟨key, value⟩]) ↔
    EvictsRight (c.maxSize - (key.length + value.length)) c.entries := by
  have hmax := h.max_lt
  have hroom : sizeSub (sizeSub c.maxSize key.length) value.length =
      c.maxSize - (key.length + value.length) := by
    rw [sizeSub_of_le (by omega) hmax, sizeSub_of_le (by omega) (by omega)]
    omega
  have hlt : total c.entries < 2 ^ 64 := Nat.lt_of_le_of_lt h.fits hmax
  simp only [insertNewValue, hroom, h.counter]
  generalize c.maxSize - (key.length + value.length) = room
  constructor
  · intro hex
    obtain ⟨c', hc, he⟩ := hex
    obtain ⟨⟨cur, fs⟩, hloop, hsome⟩ := Option.bind_eq_some_iff.mp hc
    obtain rfl : fs = keep room c.entries := by
      have hentries := congrArg Cache.entries (Option.some.inj hsome)
      exact (List.append_left_inj _).mp (hentries.trans he)
    by_cases hnil : c.entries = []
    · rw [hnil]
      exact ⟨Nat.zero_le _, by simp [victims], fun _ _ => Nat.zero_le _⟩
    · have ht := (keep_ne_nil hnil).mp (evictWhile_ne_nil hloop hnil)
      obtain ⟨n, hk, hn, hlen⟩ := evictWhile_least (g := id) (fun _ _ => rfl) hlt ht hloop
      obtain rfl : n = (victims room c.entries).length := by
        have hkd := congrArg List.length (hk.symm.trans (keep_eq_drop room c.entries))
        have hle := hlen hnil
        simp only [List.length_drop] at hkd
        omega
      exact ⟨ht, hn⟩
  · intro hr
    obtain ⟨ht, hn⟩ := hr
    have hloop : ∃ cur, evictWhile (fun cur => cur > room) (total c.entries) c.entries =
        some (cur, keep room c.entries) := by
      rw [keep_eq_drop]
      exact evictWhile_drop (g := id) (fun _ _ => rfl) hlt ht hn (victims_length_lt ht)
    obtain ⟨cur, hloop⟩ := hloop
    rw [hloop]
    exact ⟨_, rfl, rfl⟩

end Cache

/-- The evictions for a new value go right: those that have to go are all older than the entry of
the key, and there are as many as the size of the freshest entry has to be subtracted from the new
total. -/
def UpdatesRight (max : Nat) (us vs : List Item) (key old value : Bytes) : Prop :=
  (victims (max - (key.length + value.length)) (us ++ vs)).length ≤ us.length ∧
  IsLeast {n | (total (us ++ vs) + (key.length + value.length)) % 2 ^ 64 ≤
      max + n * tailSize (us ++ ⟨key, old⟩ :: vs)}
    (victims (max - (key.length + value.length)) (us ++ vs)).length

section update

variable {us vs : List Item} {key old : Bytes} {n : Nat}

/-- The entry of the key is still there when only older ones have gone. -/
theorem mem_keys_drop (hn : (keys (us ++ ⟨key, old⟩ :: vs)).Nodup) :
    key ∈ keys ((us ++ ⟨key, old⟩ :: vs).drop n) ↔ n ≤ us.length := by
  constructor
  · intro hm
    by_contra hlt
    have hd : (us ++ (⟨key, old⟩ : Item) :: vs).drop n = vs.drop (n - us.length - 1) := by
      obtain ⟨k, hk⟩ : ∃ k, n = us.length + (k + 1) := ⟨n - us.length - 1, by omega⟩
      rw [hk, List.drop_append, List.drop_of_length_le (by omega)]
      simp
    rw [hd] at hm
    have hv : key ∈ keys vs := (((List.drop_sublist _ vs).map Entry.key).subset hm)
    simp only [keys_append, keys_cons, List.nodup_append, List.nodup_cons] at hn
    exact hn.2.1.1 hv
  · intro hle
    rw [List.drop_append_of_le_length hle]
    simp

/-- The entries left when the entry of the key goes to the end. -/
theorem touch_drop (hn : (keys (us ++ ⟨key, old⟩ :: vs)).Nodup) (hle : n ≤ us.length)
    (value : Bytes) :
    touch key value ((us ++ ⟨key, old⟩ :: vs).drop n) = (us ++ vs).drop n ++ [⟨key, value⟩] := by
  have hsub : (keys ((us ++ (⟨key, old⟩ : Item) :: vs).drop n)).Nodup :=
    hn.sublist ((List.drop_sublist _ _).map Entry.key)
  rw [List.drop_append_of_le_length hle] at hsub ⊢
  rw [List.drop_append_of_le_length hle]
  exact touch_split (e := ⟨key, old⟩) value hsub

end update

namespace Cache

variable {c : Cache} {us vs : List Item} {key old : Bytes}

/-- An update leaves what it should exactly when its evictions go right. -/
theorem updateValue_keep_iff (value : Bytes) (h : c.Exact) (hes : c.entries = us ++ ⟨key, old⟩ :: vs) :
    (∃ c', c.updateValue key old value = some c' ∧
      c'.entries = keep (c.maxSize - (key.length + value.length)) (us ++ vs) ++ [⟨key, value⟩]) ↔
    UpdatesRight c.maxSize us vs key old value := by
  have hfits := h.fits
  have hnodup := h.nodup
  have hcounter := h.counter
  have htail : tailSize c.entries ≤ c.maxSize := (tailSize_le_total _).trans hfits
  have hg : ∀ x t, sizeAdd (sizeSub x t) (sizeSub value.length old.length) =
      sizeSub (sizeAdd x (sizeSub value.length old.length)) t := by
    intro x t
    unfold sizeAdd sizeSub
    omega
  have hlt : sizeAdd c.currentSize (sizeSub value.length old.length) < 2 ^ 64 :=
    Nat.mod_lt _ (by decide)
  have hnew : sizeAdd c.currentSize (sizeSub value.length old.length) =
      (total (us ++ vs) + (key.length + value.length)) % 2 ^ 64 := by
    rw [hcounter, hes]
    simp only [total_append, total_cons, itemSize]
    unfold sizeAdd sizeSub
    omega
  have hsplit := congrArg List.length
    (victims_append_keep (c.maxSize - (key.length + value.length)) (us ++ vs))
  simp only [List.length_append] at hsplit
  rw [hes] at hnodup htail
  simp only [updateValue, UpdatesRight, hes, ← hnew]
  constructor
  · intro hex
    obtain ⟨c', hc, he⟩ := hex
    obtain ⟨⟨cur, fs⟩, hloop, hrest⟩ := Option.bind_eq_some_iff.mp hc
    obtain ⟨n, rfl, hn, -⟩ := evictWhile_least (g := fun x => sizeAdd x (sizeSub value.length old.length)) hg
      hlt htail hloop
    by_cases hk : key ∈ keys ((us ++ (⟨key, old⟩ : Item) :: vs).drop n)
    · have hle := (mem_keys_drop hnodup).mp hk
      rw [if_pos hk] at hrest
      have hentries := congrArg Cache.entries (Option.some.inj hrest)
      have hkeep := (List.append_left_inj _).mp
        ((touch_drop hnodup hle value).symm.trans (hentries.trans he))
      have hlen := congrArg List.length (hkeep.trans (keep_eq_drop _ _))
      simp only [List.length_drop, List.length_append] at hlen
      obtain rfl : n = (victims (c.maxSize - (key.length + value.length)) (us ++ vs)).length := by
        omega
      exact ⟨hle, hn⟩
    · rw [if_neg hk] at hrest
      cases hrest
  · intro hr
    obtain ⟨hle, hn⟩ := hr
    obtain ⟨cur, hloop⟩ := evictWhile_drop
      (g := fun x => sizeAdd x (sizeSub value.length old.length)) hg hlt htail hn
      (.inl (by simp; omega))
    have hk := (mem_keys_drop hnodup).mpr hle
    simp only [gt_iff_lt] at hloop ⊢
    rw [hloop]
    simp only [Option.bind_eq_bind, Option.bind_some, if_pos hk]
    refine ⟨_, rfl, ?_⟩
    change touch key value _ = _
    rw [touch_drop hnodup hle value, ← keep_eq_drop]

end Cache

/-- A well-formed store with these entries and an exact counter. -/
structure Counted (s : SimpleLRU) (es : List Item) : Prop where
  linked : Linked s es
  counter : s.currentSize = total es
  fits : total es ≤ s.maxSize
  max_lt : s.maxSize < 2 ^ 64

section stores

variable {s : SimpleLRU} {es : List Item} {key value : Bytes} {max : Nat}
  {x : Option (Bool × SimpleLRU)} {y : Option Cache}

theorem Linked.refines (h : Linked s es) : Refines s ⟨s.maxSize, s.currentSize, es⟩ :=
  ⟨s.nodes, h.rep, by simp [SimpleLRU.toCache, h.forward]⟩

theorem Linked.nodup (h : Linked s es) : (keys es).Nodup := by
  rw [← h.forward]
  exact h.rep.nodup

theorem Counted.exact (h : Counted s es) : Cache.Exact ⟨s.maxSize, s.currentSize, es⟩ :=
  ⟨h.max_lt, h.linked.nodup, h.counter, h.fits⟩

theorem Refines.counted {c : Cache} (h : Refines s c) (hx : c.Exact) : Counted s c.entries :=
  ⟨h.linked, h.currentSize_eq.trans hx.counter, h.maxSize_eq ▸ hx.fits, h.maxSize_eq ▸ hx.max_lt⟩

/-- The call returns true, having removed the shortest prefix of `es` that makes room for the pair
and put the pair behind the rest. -/
def Stores (max : Nat) (es : List Item) (key value : Bytes) (x : Option (Bool × SimpleLRU)) : Prop :=
  ∃ s gone rest, x = some (true, s) ∧ Shortest max (key.length + value.length) es gone rest ∧
    Linked s (rest ++ [⟨key, value⟩])

theorem not_stores_of_none (h : x = none) : ¬Stores max es key value x := by
  intro hs
  obtain ⟨t, gone, rest, ht, -⟩ := hs
  cases h.symm.trans ht

theorem stores_iff (hfit : key.length + value.length ≤ max)
    (h : Option.Rel Agree x (y.map fun c => (true, c))) :
    Stores max es key value x ↔ ∃ c, y = some c ∧
      c.entries = keep (max - (key.length + value.length)) es ++ [⟨key, value⟩] := by
  constructor
  · intro hs
    obtain ⟨s, gone, rest, rfl, hshort, hlinked⟩ := hs
    cases y with
    | none => cases h
    | some c =>
      cases h with
      | some h =>
        refine ⟨c, rfl, ?_⟩
        rw [← hshort.eq_keep, ← hlinked.forward, h.2.linked.forward]
  · intro hex
    obtain ⟨c, rfl, hc⟩ := hex
    obtain ⟨s, rfl, hr⟩ := agree_some h rfl
    exact ⟨s, _, _, rfl, shortest_victims hfit es, hc ▸ hr.linked⟩

end stores

section main

variable {s : SimpleLRU} {es us vs : List Item} {key old value : Bytes}

/-- Two entries of two bytes in a store of four. -/
theorem exists_full_store :
    ∃ s, Counted s [⟨[1], [2]⟩, ⟨[3], [4]⟩] ∧ s.maxSize = 4 := by
  obtain ⟨s, -, hr⟩ := run_refines_some [.put [1] [2], .put [3] [4]] (create_refines 4) rfl
  exact ⟨s, hr.counted ⟨by decide, by decide, rfl, by decide⟩, hr.maxSize_eq⟩

/-- Insertion removes the minimal oldest prefix exactly when its evictions go right. -/
theorem insertion_iff (h : Counted s es) (hk : key ∉ keys es)
    (hfit : key.length + value.length ≤ s.maxSize) :
    Stores s.maxSize es key value (s.put key value) ∧
      Stores s.maxSize es key value (s.putIfAbsent key value) ↔
    EvictsRight (s.maxSize - (key.length + value.length)) es := by
  have hv : valueOf key es = none := valueOf_eq_none.mpr hk
  have hgt : ¬key.length + value.length > s.maxSize := by omega
  have hput : Option.Rel Agree (s.put key value) _ := put_refines h.linked.refines
  have hadd : Option.Rel Agree (s.putIfAbsent key value) _ := putIfAbsent_refines h.linked.refines
  simp only [Cache.put, Cache.putIfAbsent, hgt, if_false, hv] at hput hadd
  have hright := Cache.insertNewValue_keep_iff h.exact hfit
  rw [stores_iff hfit hput, stores_iff hfit hadd, hright, and_self]

/-- One entry has to make room for another one of its size. -/
theorem insertion_of_equal_size :
    ∃ s, Counted s [⟨[1], [2]⟩, ⟨[3], [4]⟩] ∧ s.maxSize = 4 ∧
      Stores s.maxSize [⟨[1], [2]⟩, ⟨[3], [4]⟩] [5] [6] (s.put [5] [6]) ∧
      Stores s.maxSize [⟨[1], [2]⟩, ⟨[3], [4]⟩] [5] [6] (s.putIfAbsent [5] [6]) := by
  obtain ⟨s, hs, hmax⟩ := exists_full_store
  refine ⟨s, hs, hmax, (insertion_iff hs (by decide) (by simp [hmax])).mpr ?_⟩
  rw [hmax]
  refine ⟨by decide, by decide, ?_⟩
  intro n hn
  change 4 ≤ 2 + n * 2 at hn
  change 1 ≤ n
  omega

/-- Where every entry has to go the last one is removed through a null pointer. -/
theorem insertion_not_stored :
    ∃ s, Counted s [⟨[1], [2]⟩, ⟨[3], [4]⟩] ∧ s.maxSize = 4 ∧ s.put [5] [6, 6, 6] = none ∧
      ¬Stores s.maxSize [⟨[1], [2]⟩, ⟨[3], [4]⟩] [5] [6, 6, 6] (s.put [5] [6, 6, 6]) := by
  obtain ⟨s, hs, hmax⟩ := exists_full_store
  have hput : Option.Rel Agree (s.put [5] [6, 6, 6]) _ := put_refines hs.linked.refines
  rw [hs.counter, hmax] at hput
  have hnone : s.put [5] [6, 6, 6] = none := agree_none hput rfl
  exact ⟨s, hs, hmax, hnone, not_stores_of_none hnone⟩

/-- A key and what a call has stored under it, read back at once. -/
theorem get_of_stores {max : Nat} {x : Option (Bool × SimpleLRU)} (h : Stores max es key value x)
    (hx : x = some (true, s)) (w : Bytes) : ∃ t, s.get key w = some ((true, value), t) := by
  obtain ⟨s', gone, rest, hs, -, hlinked⟩ := h
  obtain rfl : s' = s := by simpa using hs.symm.trans hx
  have hv : valueOf key (rest ++ [⟨key, value⟩]) = some value :=
    valueOf_split (e := ⟨key, value⟩) hlinked.nodup
  have hget : Option.Rel Agree (s'.get key w) _ := get_refines hlinked.refines
  simp only [Cache.get, hv] at hget
  obtain ⟨t, ht, -⟩ := agree_some hget rfl
  exact ⟨t, ht⟩

/-- The call returns true with the pair stored beside those of `es` that can stay, and a `Get` of the
key then returns the value. -/
def Updates (max : Nat) (es : List Item) (key value : Bytes) (x : Option (Bool × SimpleLRU)) : Prop :=
  Stores max es key value x ∧
    ∀ s, x = some (true, s) → ∀ w, ∃ t, s.get key w = some ((true, value), t)

theorem updates_iff_stores {max : Nat} {x : Option (Bool × SimpleLRU)} :
    Updates max es key value x ↔ Stores max es key value x :=
  ⟨And.left, fun h => ⟨h, fun _ hx w => get_of_stores h hx w⟩⟩

/-- An update keeps the entry it updates, and removes no more than it needs, exactly when its
evictions go right. -/
theorem update_iff (h : Counted s (us ++ ⟨key, old⟩ :: vs))
    (hfit : key.length + value.length ≤ s.maxSize) :
    Updates s.maxSize (us ++ vs) key value (s.put key value) ∧
      Updates s.maxSize (us ++ vs) key value (s.set key value) ↔
    UpdatesRight s.maxSize us vs key old value := by
  have hv : valueOf key (us ++ ⟨key, old⟩ :: vs) = some old :=
    valueOf_split (e := ⟨key, old⟩) h.exact.nodup
  have hgt : ¬key.length + value.length > s.maxSize := by omega
  have hgt' : ¬value.length + key.length > s.maxSize := by omega
  have hput : Option.Rel Agree (s.put key value) _ := put_refines h.linked.refines
  have hset : Option.Rel Agree (s.set key value) _ := set_refines h.linked.refines
  simp only [Cache.put, Cache.set, hgt, hgt', if_false, hv] at hput hset
  have hright := Cache.updateValue_keep_iff value h.exact rfl
  rw [updates_iff_stores, updates_iff_stores, stores_iff hfit hput, stores_iff hfit hset, hright,
    and_self]

/-- A value grows while an older entry of the freshest one's size can make room. -/
theorem update_of_freshest :
    ∃ s, Counted s ([⟨[1], [2]⟩] ++ ⟨[3], [4]⟩ :: []) ∧ s.maxSize = 4 ∧
      Updates s.maxSize ([⟨[1], [2]⟩] ++ []) [3] [4, 4] (s.put [3] [4, 4]) ∧
      Updates s.maxSize ([⟨[1], [2]⟩] ++ []) [3] [4, 4] (s.set [3] [4, 4]) := by
  obtain ⟨s, hs, hmax⟩ := exists_full_store
  refine ⟨s, hs, hmax, (update_iff hs (by simp [hmax])).mpr ?_⟩
  rw [hmax]
  refine ⟨by decide, by decide, ?_⟩
  intro n hn
  change 5 ≤ 4 + n * 2 at hn
  change 1 ≤ n
  omega

/-- The oldest entry grows and is evicted to make room for its own new value. -/
theorem update_not_stored :
    ∃ s, Counted s ([] ++ ⟨[1], [2]⟩ :: [⟨[3], [4]⟩]) ∧ s.maxSize = 4 ∧
      s.put [1] [2, 2] = none ∧ s.set [1] [2, 2] = none ∧
      ¬Updates s.maxSize ([] ++ [⟨[3], [4]⟩]) [1] [2, 2] (s.put [1] [2, 2]) := by
  obtain ⟨s, hs, hmax⟩ := exists_full_store
  have hput : Option.Rel Agree (s.put [1] [2, 2]) _ := put_refines hs.linked.refines
  have hset : Option.Rel Agree (s.set [1] [2, 2]) _ := set_refines hs.linked.refines
  rw [hs.counter, hmax] at hput hset
  have hnone : s.put [1] [2, 2] = none := agree_none hput rfl
  exact ⟨s, hs, hmax, hnone, agree_none hset rfl, fun h => not_stores_of_none hnone h.1⟩

end main

end Sysprog.Storage
