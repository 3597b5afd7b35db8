import Sysprog.Storage.Accounting

namespace Sysprog.Storage

namespace Cache

variable {c : Cache} {key value old : Bytes}

/-- Insertion while there is room for one more pair evicts nothing. -/
theorem insertNewValue_fits (h : c.Exact)
    (hfit : total c.entries + (key.length + value.length) ≤ c.maxSize) :
    c.insertNewValue key value = some { c with
      entries := c.entries ++ [⟨key, value⟩]
      currentSize := total (c.entries ++ [⟨key, value⟩]) } := by
  have hroom : total c.entries ≤ c.maxSize - (key.length + value.length) := by omega
  rw [insertNewValue_spec h (by omega) (evictsAlike_of_le hroom), (keep_of_le hroom).1]

theorem length_le_of_touch {es : List Item} {n : Nat} (h : total (touch key value es) ≤ n) :
    key.length + value.length ≤ n := by
  have hmem : (⟨key, value⟩ : Item) ∈ touch key value es := by simp [touch]
  exact (le_total hmem).trans h

/-- Update while the grown entries still fit evicts nothing. -/
theorem updateValue_fits (h : c.Exact) (hv : valueOf key c.entries = some old)
    (hfit : total (touch key value c.entries) ≤ c.maxSize) :
    c.updateValue key old value = some { c with
      entries := touch key value c.entries
      currentSize := total (touch key value c.entries) } := by
  obtain ⟨ht, hole⟩ := total_touch value h.nodup hv
  have hroom : total c.entries ≤ c.updateRoom old value := by
    simp only [updateRoom]
    omega
  have hmax := h.max_lt
  have hkeep := (keep_of_le hroom).1
  rw [updateValue_spec h (length_le_of_touch hfit) hv (by omega) (evictsAlike_of_le hroom)
    (by rw [hkeep]; exact mem_keys_of_valueOf hv), hkeep]

/-- `Put` over a present key while the grown entries still fit. -/
theorem put_fits (h : c.Exact) (hv : valueOf key c.entries = some old)
    (hfit : total (touch key value c.entries) ≤ c.maxSize) :
    c.put key value = some (true, { c with
      entries := touch key value c.entries
      currentSize := total (touch key value c.entries) }) := by
  have hgt : ¬ key.length + value.length > c.maxSize := Nat.not_lt.mpr (length_le_of_touch hfit)
  simp only [put, if_neg hgt, hv, updateValue_fits h hv hfit, Option.map_some]

section Room

variable {room : Nat}

/-- The entry of `key` has `value`, and `room` more bytes go in without any eviction. -/
structure Holds (c : Cache) (key value : Bytes) (room : Nat) : Prop where
  max_lt : c.maxSize < 2 ^ 64
  value_eq : valueOf key c.entries = some value
  counted : key.length + value.length ≤ c.currentSize
  fits : c.currentSize + room ≤ c.maxSize

theorem evictWhile_of_room {full : Nat → Bool} {cur : Nat} (h : full cur = false) (es : List Item) :
    evictWhile full cur es = some (cur, es) := by
  match es with
  | [] => simp [evictWhile, h]
  | [_] => simp [evictWhile, h]
  | _ :: _ :: _ => simp [evictWhile, h]

/-- `Put` of an absent key, with room for it. -/
theorem put_absent (value : Bytes) (hm : c.maxSize < 2 ^ 64) (hv : valueOf key c.entries = none)
    (hr : c.currentSize + (key.length + value.length) ≤ c.maxSize) :
    c.put key value = some (true, { c with
      entries := c.entries ++ [⟨key, value⟩]
      currentSize := c.currentSize + (key.length + value.length) }) := by
  have hgt : ¬ key.length + value.length > c.maxSize := by omega
  have hsub : sizeSub (sizeSub c.maxSize key.length) value.length =
      c.maxSize - (key.length + value.length) := by
    rw [sizeSub_of_le (by omega) hm, sizeSub_of_le (by omega) (by omega)]
    omega
  have hkeep : decide (c.currentSize > c.maxSize - (key.length + value.length)) = false :=
    decide_eq_false (by omega)
  have hins : c.insertNewValue key value = some { c with
      entries := c.entries ++ [⟨key, value⟩]
      currentSize := c.currentSize + (key.length + value.length) } := by
    simp only [insertNewValue, hsub]
    rw [evictWhile_of_room hkeep]
    simp only [Option.bind_eq_bind, Option.bind_some, Option.pure_def]
    rw [sizeAdd_of_lt (by omega)]
  simp only [put, if_neg hgt, hv, hins, Option.map_some]

/-- `Put` of a present key, with room for the new value. -/
theorem put_present (value : Bytes) (hv : valueOf key c.entries = some old)
    (hfit : key.length + value.length ≤ c.maxSize)
    (hr : sizeAdd c.currentSize (sizeSub value.length old.length) ≤ c.maxSize) :
    c.put key value = some (true, { c with
      entries := touch key value c.entries
      currentSize := sizeAdd c.currentSize (sizeSub value.length old.length) }) := by
  have hgt : ¬ key.length + value.length > c.maxSize := by omega
  have hkeep : decide (sizeAdd c.currentSize (sizeSub value.length old.length) > c.maxSize) = false :=
    decide_eq_false (Nat.not_lt.mpr hr)
  have hupd : c.updateValue key old value = some { c with
      entries := touch key value c.entries
      currentSize := sizeAdd c.currentSize (sizeSub value.length old.length) } := by
    simp only [updateValue]
    rw [evictWhile_of_room hkeep]
    simp only [Option.bind_eq_bind, Option.bind_some, if_pos (mem_keys_of_valueOf hv),
      Option.pure_def]
  simp only [put, if_neg hgt, hv, hupd, Option.map_some]

/-- `Put` of an absent key into a store with room. -/
theorem put_of_room (hm : c.maxSize < 2 ^ 64) (hv : valueOf key c.entries = none)
    (hr : c.currentSize + (key.length + value.length) + room ≤ c.maxSize) :
    ∃ c', c.put key value = some (true, c') ∧ c'.Holds key value room := by
  refine ⟨_, put_absent value hm hv (by omega), ⟨hm, ?_, ?_, hr⟩⟩
  · change valueOf key (c.entries ++ [⟨key, value⟩]) = some value
    rw [valueOf_append (valueOf_eq_none.mp hv)]
    simp [valueOf]
  · exact Nat.le_add_left _ _

theorem get_of_holds (h : c.Holds key value room) (v : Bytes) :
    ∃ c', c.get key v = some ((true, value), c') ∧ c'.Holds key value room := by
  refine ⟨{ c with entries := touch key value c.entries }, by simp [get, h.value_eq], ?_⟩
  exact ⟨h.max_lt, valueOf_touch _, h.counted, h.fits⟩

/-- `Put` of a longer value for a present key into a store with room for it. -/
theorem put_of_holds (value : Bytes) {more : Nat} (h : c.Holds key old (more + room))
    (hl : value.length = old.length + more) :
    ∃ c', c.put key value = some (true, c') ∧ c'.Holds key value room := by
  obtain ⟨hm, hv, hcount, hfits⟩ := h
  have hdelta : sizeAdd c.currentSize (sizeSub value.length old.length) = c.currentSize + more := by
    rw [sizeAdd_sizeSub (by omega) (by omega)]
    omega
  have hput := put_present value hv (by omega) (by omega)
  rw [hdelta] at hput
  refine ⟨_, hput, ⟨hm, valueOf_touch _, ?_, ?_⟩⟩
  · change key.length + value.length ≤ c.currentSize + more
    omega
  · change c.currentSize + more + room ≤ c.maxSize
    omega

end Room

/-- The cache as the plain map: the same pairs, ordered by last access. -/
structure HoldsMap (maxSize : Nat) (c : Cache) (m : PlainMap Bytes Bytes) : Prop where
  max_eq : c.maxSize = maxSize
  exact : c.Exact
  perm : c.entries.Perm m.entries
  recency : keys c.entries = m.accesses.dedup

/-- Pairs larger than the whole store are rejected. -/
def admits (maxSize : Nat) (key value : Bytes) : Bool := key.length + value.length ≤ maxSize

variable {maxSize : Nat} {m : PlainMap Bytes Bytes}

theorem HoldsMap.valueOf_eq (h : HoldsMap maxSize c m) (key : Bytes) :
    valueOf key c.entries = valueOf key m.entries := valueOf_perm h.exact.nodup h.perm

/-- What touching a key does to both. -/
theorem HoldsMap.touch (h : HoldsMap maxSize c m) {c' : Cache} (hx : c'.Exact)
    (hm : c'.maxSize = c.maxSize) (he : c'.entries = Sysprog.touch key value c.entries) :
    HoldsMap maxSize c' ⟨PlainMap.assign key value m.entries, m.accesses ++ [key]⟩ := by
  refine ⟨hm.trans h.max_eq, hx, ?_, ?_⟩
  · rw [he]
    exact PlainMap.touch_perm_assign h.exact.nodup h.perm
  · rw [he, keys_touch, h.recency, dedup_concat]

/-- Storing a pair whose result fits, for a key that may be there or not. -/
theorem HoldsMap.store (h : HoldsMap maxSize c m)
    (hfit : total (PlainMap.assign key value m.entries) ≤ maxSize) :
    ∃ c', (match valueOf key c.entries with
      | none => c.insertNewValue key value
      | some old => c.updateValue key old value) = some c' ∧
      HoldsMap maxSize c' ⟨PlainMap.assign key value m.entries, m.accesses ++ [key]⟩ := by
  have hperm : (Sysprog.touch key value c.entries).Perm (PlainMap.assign key value m.entries) :=
    PlainMap.touch_perm_assign h.exact.nodup h.perm
  have htot : total (Sysprog.touch key value c.entries) ≤ c.maxSize := by
    rw [total_perm hperm, h.max_eq]
    exact hfit
  cases hv : valueOf key c.entries with
  | none =>
    have ht : Sysprog.touch key value c.entries = c.entries ++ [⟨key, value⟩] :=
      touch_of_notMem (valueOf_eq_none.mp hv)
    rw [ht] at htot
    have hroom : total c.entries + (key.length + value.length) ≤ c.maxSize := by
      simpa [itemSize] using htot
    exact ⟨_, insertNewValue_fits h.exact hroom,
      h.touch (exact_insert h.exact hv (List.suffix_refl _) hroom) rfl ht.symm⟩
  | some old =>
    exact ⟨_, updateValue_fits h.exact hv htot, h.touch (exact_touch h.exact h.exact.nodup htot) rfl rfl⟩

/-- One call other than `Delete`, as long as what the map holds afterwards fits. -/
theorem HoldsMap.call (h : HoldsMap maxSize c m) (a : Call Bytes Bytes) (ha : ∀ k, a ≠ .delete k)
    (hfit : total (PlainMap.call (admits maxSize) a m).2.entries ≤ maxSize) :
    ∃ c', Cache.call a c = some ((PlainMap.call (admits maxSize) a m).1, c') ∧
      HoldsMap maxSize c' (PlainMap.call (admits maxSize) a m).2 := by
  have hmem : ∀ k, k ∈ keys m.entries ↔ valueOf k c.entries ≠ none := by
    intro k
    rw [h.valueOf_eq, ne_eq, valueOf_eq_none, not_not]
  have hgt : ∀ k v : Bytes, admits maxSize k v = false → k.length + v.length > c.maxSize := by
    intro k v hn
    simpa [admits, h.max_eq] using hn
  have hle : ∀ k v : Bytes, admits maxSize k v = true → ¬ k.length + v.length > c.maxSize := by
    intro k v hy
    simpa [admits, h.max_eq] using hy
  cases a with
  | put k v =>
    cases hv : admits maxSize k v with
    | false =>
      refine ⟨c, ?_, ?_⟩
      · simp [Cache.call, put, PlainMap.call, hv, hgt k v hv]
      · simpa [PlainMap.call, hv] using h
    | true =>
      simp only [PlainMap.call, hv, if_true] at hfit ⊢
      obtain ⟨c', hc', hm'⟩ := h.store hfit
      refine ⟨c', ?_, hm'⟩
      simp only [Cache.call, put, if_neg (hle k v hv)]
      cases hk : valueOf k c.entries <;> simp only [hk] at hc' ⊢ <;> simp [hc']
  | putIfAbsent k v =>
    cases hv : admits maxSize k v with
    | false =>
      refine ⟨c, ?_, ?_⟩
      · simp [Cache.call, putIfAbsent, PlainMap.call, hv, hgt k v hv]
      · simpa [PlainMap.call, hv] using h
    | true =>
      have hk := hmem k
      simp only [PlainMap.call, hv, true_and, hk] at hfit ⊢
      simp only [Cache.call, putIfAbsent, if_neg (hle k v hv)]
      cases ho : valueOf k c.entries with
      | none =>
        simp only [ho, ne_eq, not_true_eq_false, not_false_eq_true, if_true] at hfit ⊢
        obtain ⟨c', hc', hm'⟩ := h.store hfit
        simp only [ho] at hc'
        exact ⟨c', by simp [hc'], hm'⟩
      | some old => exact ⟨c, by simp, by simpa using h⟩
  | set k v =>
    cases hv : admits maxSize k v with
    | false =>
      refine ⟨c, ?_, ?_⟩
      · simp [Cache.call, set, PlainMap.call, hv, Nat.add_comm v.length, hgt k v hv]
      · simpa [PlainMap.call, hv] using h
    | true =>
      have hk := hmem k
      simp only [PlainMap.call, hv, true_and, hk] at hfit ⊢
      simp only [Cache.call, set, Nat.add_comm v.length, if_neg (hle k v hv)]
      cases ho : valueOf k c.entries with
      | none => exact ⟨c, by simp, by simpa using h⟩
      | some old =>
        simp only [ho, ne_eq, reduceCtorEq, not_false_eq_true, if_true] at hfit ⊢
        obtain ⟨c', hc', hm'⟩ := h.store hfit
        simp only [ho] at hc'
        exact ⟨c', by simp [hc'], hm'⟩
  | delete k => exact absurd rfl (ha k)
  | get k v =>
    have hk := h.valueOf_eq k
    simp only [PlainMap.call, ← hk, Cache.call, get]
    cases ho : valueOf k c.entries with
    | none => exact ⟨c, by simp, h⟩
    | some w =>
      refine ⟨{ c with entries := Sysprog.touch k w c.entries }, by simp,
        ⟨h.max_eq, exact_get h.exact ho, ?_, ?_⟩⟩
      · exact (touch_perm h.exact.nodup ho).trans h.perm
      · change keys (Sysprog.touch k w c.entries) = (m.accesses ++ [k]).dedup
        rw [keys_touch, h.recency, dedup_concat]

/-- The cache as the ideal one, all entries being of one size. -/
structure HoldsLru (size maxSize : Nat) (c : Cache) (l : Lru Bytes Bytes) : Prop where
  max_eq : c.maxSize = maxSize
  exact : c.Exact
  entries_eq : c.entries = l.entries
  sizes : ∀ e ∈ c.entries, itemSize e = size
  capacity_eq : l.capacity = maxSize / size

/-- The pairs of the calls are all of one size, and there is no `Delete`. -/
def EqualSized (size : Nat) : Call Bytes Bytes → Prop
  | .put k v | .putIfAbsent k v | .set k v => k.length + v.length = size
  | .delete _ => False
  | .get _ _ => True

theorem total_of_sizes {size : Nat} {es : List Item} (h : ∀ e ∈ es, itemSize e = size) :
    total es = es.length * size := by
  induction es with
  | nil => simp
  | cons e es ih =>
    rw [total_cons, h e (by simp), ih fun f hf => h f (by simp [hf]), List.length_cons]
    ring

theorem tailSize_of_sizes {size : Nat} {e : Item} {es : List Item}
    (h : ∀ f ∈ e :: es, itemSize f = size) : tailSize (e :: es) = size := by
  simp only [tailSize, List.getLast?_eq_some_getLast (List.cons_ne_nil e es), Option.map_some,
    Option.getD_some]
  exact h _ (List.getLast_mem _)

theorem evictsAlike_of_sizes {size room : Nat} {e : Item} {es : List Item}
    (hs : ∀ f ∈ e :: es, itemSize f = size) (hmore : ¬ total (e :: es) ≤ room)
    (h : total es ≤ room) (hne : es ≠ []) : EvictsAlike room (e :: es) := by
  obtain ⟨hk, hv⟩ := keep_tail hmore h
  refine ⟨fun x hx => ?_, Or.inr (by rwa [hk])⟩
  rw [hv, List.mem_singleton] at hx
  rw [hx, tailSize_of_sizes hs]
  exact hs e (by simp)

theorem sizes_touch {size : Nat} {es : List Item} (h : ∀ e ∈ es, itemSize e = size)
    (hp : key.length + value.length = size) : ∀ e ∈ touch key value es, itemSize e = size := by
  intro e he
  rcases List.mem_append.mp he with hm | hm
  · exact h e (List.mem_of_mem_filter hm)
  · rw [List.mem_singleton.mp hm]
    exact hp

variable {size : Nat} {l : Lru Bytes Bytes}

/-- Insertion evicts one entry, and only from a full cache. -/
theorem HoldsLru.insert (h : HoldsLru size maxSize c l) (hs : 1 ≤ size) (h2 : 2 * size ≤ maxSize)
    (hv : valueOf key c.entries = none) (hp : key.length + value.length = size) :
    ∃ c', c.insertNewValue key value = some c' ∧ HoldsLru size maxSize c' (l.insert key value) := by
  have htot := total_of_sizes h.sizes
  have hcap : c.entries.length < l.capacity ↔ total c.entries + size ≤ c.maxSize := by
    rw [h.capacity_eq, h.max_eq, htot, Nat.lt_iff_add_one_le, Nat.le_div_iff_mul_le hs,
      Nat.add_mul, Nat.one_mul]
  have hsizes : ∀ es, es <:+ c.entries → ∀ e ∈ es ++ [⟨key, value⟩], itemSize e = size := by
    intro es hes e he
    rcases List.mem_append.mp he with hm | hm
    · exact h.sizes e (hes.subset hm)
    · rw [List.mem_singleton.mp hm]
      exact hp
  by_cases hfull : c.entries.length < l.capacity
  · have hroom : total c.entries + (key.length + value.length) ≤ c.maxSize := hp ▸ hcap.mp hfull
    refine ⟨_, insertNewValue_fits h.exact hroom, ⟨h.max_eq,
      exact_insert h.exact hv (List.suffix_refl _) hroom, ?_, hsizes _ (List.suffix_refl _),
      h.capacity_eq⟩⟩
    rw [h.entries_eq] at hfull
    simp [Lru.insert, hfull, h.entries_eq]
  · have hmax := h.max_eq
    have hgt : ¬ total c.entries + size ≤ c.maxSize := mt hcap.mpr hfull
    obtain ⟨e, es, hes⟩ : ∃ e es, c.entries = e :: es := by
      apply List.exists_cons_of_ne_nil
      intro hnil
      rw [hnil, total_nil] at hgt
      omega
    have hsuf : es <:+ c.entries := hes ▸ List.suffix_cons e es
    have hsplit : total c.entries = size + total es := by
      rw [hes, total_cons, h.sizes e (by simp [hes])]
    have hroom : total es + (key.length + value.length) ≤ c.maxSize := by
      have hfits := h.exact.fits
      omega
    have hle : total es ≤ c.maxSize - (key.length + value.length) := by omega
    have hmore : ¬ total (e :: es) ≤ c.maxSize - (key.length + value.length) := by
      rw [← hes]
      omega
    have hne : es ≠ [] := by
      intro hnil
      rw [hnil, total_nil] at hsplit
      omega
    have halike : EvictsAlike (c.maxSize - (key.length + value.length)) c.entries := by
      rw [hes]
      exact evictsAlike_of_sizes (hes ▸ h.sizes) hmore hle hne
    have hins := insertNewValue_spec h.exact (by omega) halike
    rw [hes, (keep_tail hmore hle).1] at hins
    refine ⟨_, hins, ⟨h.max_eq, exact_insert h.exact hv hsuf hroom, ?_, hsizes es hsuf,
      h.capacity_eq⟩⟩
    rw [h.entries_eq] at hfull hes
    rw [Lru.insert, if_neg hfull, hes, List.tail_cons]

/-- Update of an entry, whose size does not change. -/
theorem HoldsLru.update (h : HoldsLru size maxSize c l) (hv : valueOf key c.entries = some old)
    (hp : key.length + value.length = size) :
    ∃ c', c.updateValue key old value = some c' ∧
      HoldsLru size maxSize c' { l with entries := touch key value l.entries } := by
  obtain ⟨ht, hle⟩ := total_touch value h.exact.nodup hv
  have hold : key.length + old.length = size := h.sizes _ (valueOf_mem hv)
  have hfit : total (touch key value c.entries) ≤ c.maxSize := by
    have hfits := h.exact.fits
    omega
  refine ⟨_, updateValue_fits h.exact hv hfit, ⟨h.max_eq, exact_touch h.exact h.exact.nodup hfit,
    ?_, ?_, h.capacity_eq⟩⟩
  · change touch key value c.entries = touch key value l.entries
    rw [h.entries_eq]
  · exact sizes_touch h.sizes hp

/-- One call on both. -/
theorem HoldsLru.call (h : HoldsLru size maxSize c l) (hs : 1 ≤ size) (h2 : 2 * size ≤ maxSize)
    (a : Call Bytes Bytes) (ha : EqualSized size a) :
    ∃ c', Cache.call a c = some ((Lru.call a l).1, c') ∧ HoldsLru size maxSize c' (Lru.call a l).2 := by
  have hle : ∀ k v : Bytes, k.length + v.length = size → ¬ k.length + v.length > c.maxSize := by
    intro k v hp
    have hmax := h.max_eq
    omega
  cases a with
  | put k v =>
    simp only [Cache.call, put, if_neg (hle k v ha), Lru.call, ← h.entries_eq]
    cases hv : valueOf k c.entries with
    | none =>
      obtain ⟨c', hc', hl'⟩ := h.insert hs h2 hv ha
      exact ⟨c', by simp [hc'], hl'⟩
    | some old =>
      obtain ⟨c', hc', hl'⟩ := h.update hv ha
      exact ⟨c', by simp [hc'], by simpa only [h.entries_eq] using hl'⟩
  | putIfAbsent k v =>
    simp only [Cache.call, putIfAbsent, if_neg (hle k v ha), Lru.call, ← h.entries_eq]
    cases hv : valueOf k c.entries with
    | none =>
      obtain ⟨c', hc', hl'⟩ := h.insert hs h2 hv ha
      exact ⟨c', by simp [hc'], hl'⟩
    | some old => exact ⟨c, by simp, h⟩
  | set k v =>
    simp only [Cache.call, set, Nat.add_comm v.length, if_neg (hle k v ha), Lru.call, ← h.entries_eq]
    cases hv : valueOf k c.entries with
    | none => exact ⟨c, by simp, h⟩
    | some old =>
      obtain ⟨c', hc', hl'⟩ := h.update hv ha
      exact ⟨c', by simp [hc'], by simpa only [h.entries_eq] using hl'⟩
  | delete k => exact ha.elim
  | get k v =>
    simp only [Cache.call, get, Lru.call, ← h.entries_eq]
    cases hv : valueOf k c.entries with
    | none => exact ⟨c, by simp, h⟩
    | some w =>
      have hsz : k.length + w.length = size := h.sizes _ (valueOf_mem hv)
      exact ⟨{ c with entries := touch k w c.entries }, by simp, ⟨h.max_eq, exact_get h.exact hv,
        rfl, sizes_touch h.sizes hsz, h.capacity_eq⟩⟩

end Cache

open Cache

/-- While everything a plain map would hold fits, the store is that map: it answers alike, evicts
nothing, counts exactly, and its list is ordered by last successful access. -/
theorem map_of_fits (maxSize : UInt64) (calls : List (Call Bytes Bytes))
    (hd : ∀ k, .delete k ∉ calls)
    (hfit : AllSteps (fun a m => some (PlainMap.call (admits maxSize.toNat) a m))
      (fun a m => total (PlainMap.call (admits maxSize.toNat) a m).2.entries ≤ maxSize.toNat)
      calls ⟨[], []⟩) :
    ∃ replies m s es,
      run (fun a m => some (PlainMap.call (admits maxSize.toNat) a m)) calls ⟨[], []⟩ =
        some (replies, m) ∧
      run SimpleLRU.call calls (SimpleLRU.create maxSize) = some (replies, s) ∧
      Linked s es ∧ es.Perm m.entries ∧ keys es = m.accesses.dedup ∧
      s.currentSize = total m.entries := by
  obtain ⟨replies, m, hm⟩ := run_of_total (PlainMap.call (admits maxSize.toNat)) calls ⟨[], []⟩
  have hstep : ∀ a s m b m', (∃ c, Refines s c ∧ HoldsMap maxSize.toNat c m) →
      (a ∈ calls ∧ total (PlainMap.call (admits maxSize.toNat) a m).2.entries ≤ maxSize.toNat) →
      some (PlainMap.call (admits maxSize.toNat) a m) = some (b, m') →
      ∃ s', SimpleLRU.call a s = some (b, s') ∧ ∃ c, Refines s' c ∧ HoldsMap maxSize.toNat c m' := by
    intro a s m b m' hsim hcond he
    obtain ⟨c, hc, h⟩ := hsim
    obtain ⟨ha, hf⟩ := hcond
    obtain ⟨rfl, rfl⟩ := Prod.mk.injEq .. ▸ Option.some.inj he
    obtain ⟨c', hcall, h'⟩ := h.call a (fun k hk => hd k (hk ▸ ha)) hf
    obtain ⟨s', hs', hc'⟩ := call_refines_some hc hcall
    exact ⟨s', hs', c', hc', h'⟩
  have hempty : HoldsMap maxSize.toNat ⟨maxSize.toNat, 0, []⟩ ⟨[], []⟩ :=
    ⟨rfl, ⟨maxSize.toNat_lt, by simp, rfl, by simp⟩, List.Perm.refl _, rfl⟩
  obtain ⟨s, hs, c, hc, h⟩ := run_refines SimpleLRU.call _ _ _ hstep calls _ _ _ _
    ⟨_, create_refines maxSize, hempty⟩ (hfit.and_mem fun a ha => ha) hm
  refine ⟨replies, m, s, c.entries, hm, hs, hc.linked, h.perm, h.recency, ?_⟩
  rw [← total_perm h.perm, ← h.exact.counter, hc.currentSize_eq]

/-- Growing, shrinking and reading entries in a store they fill to the last byte. -/
theorem map_of_fits_shrinking :
    ∃ replies m s es,
      run (fun a m => some (PlainMap.call (admits (7 : UInt64).toNat) a m))
          [.put [1] [2, 2, 2], .put [3] [4, 4], .set [1] [2], .get [3] [], .put [5] [6]] ⟨[], []⟩ =
        some (replies, m) ∧
      run SimpleLRU.call [.put [1] [2, 2, 2], .put [3] [4, 4], .set [1] [2], .get [3] [], .put [5] [6]]
        (SimpleLRU.create 7) = some (replies, s) ∧
      Linked s es ∧ es.Perm m.entries ∧ keys es = m.accesses.dedup ∧
      s.currentSize = total m.entries :=
  map_of_fits 7 _ (by simp) (by decide)

/-- On pairs of one size the store is the least recently used cache of `maxSize / size` entries. -/
theorem lru_of_equal_sizes (size : Nat) (maxSize : UInt64) (hs : 1 ≤ size)
    (h2 : 2 * size ≤ maxSize.toNat) (calls : List (Call Bytes Bytes))
    (hc : ∀ a ∈ calls, EqualSized size a) :
    ∃ replies l s,
      run (fun a l => some (Lru.call a l)) calls ⟨maxSize.toNat / size, []⟩ = some (replies, l) ∧
      run SimpleLRU.call calls (SimpleLRU.create maxSize) = some (replies, s) ∧
      Linked s l.entries := by
  obtain ⟨replies, l, hl⟩ :=
    run_of_total Lru.call calls (⟨maxSize.toNat / size, []⟩ : Lru Bytes Bytes)
  have hstep : ∀ a s l b l', (∃ c, Refines s c ∧ HoldsLru size maxSize.toNat c l) →
      EqualSized size a → some (Lru.call a l) = some (b, l') →
      ∃ s', SimpleLRU.call a s = some (b, s') ∧
        ∃ c, Refines s' c ∧ HoldsLru size maxSize.toNat c l' := by
    intro a s l b l' hsim ha he
    obtain ⟨c, hc, h⟩ := hsim
    obtain ⟨rfl, rfl⟩ := Prod.mk.injEq .. ▸ Option.some.inj he
    obtain ⟨c', hcall, h'⟩ := h.call hs h2 a ha
    obtain ⟨s', hs', hc'⟩ := call_refines_some hc hcall
    exact ⟨s', hs', c', hc', h'⟩
  have hempty : HoldsLru size maxSize.toNat ⟨maxSize.toNat, 0, []⟩ ⟨maxSize.toNat / size, []⟩ :=
    ⟨rfl, ⟨maxSize.toNat_lt, by simp, rfl, by simp⟩, rfl, by simp, rfl⟩
  obtain ⟨s, hs, c, hc, h⟩ := run_refines SimpleLRU.call _ _ _ hstep calls _ _ _ _
    ⟨_, create_refines maxSize, hempty⟩ (AllSteps.of_forall (fun a ha _ => hc a ha) _) hl
  exact ⟨replies, l, s, hl, hs, h.entries_eq ▸ hc.linked⟩

/-- A cache of two entries that is read, refilled and updated. -/
theorem lru_of_equal_sizes_two :
    ∃ replies l s,
      run (fun a l => some (Lru.call a l))
          [.put [1] [2], .put [3] [4], .get [1] [], .put [5] [6], .set [1] [7], .get [3] []]
          ⟨(5 : UInt64).toNat / 2, []⟩ = some (replies, l) ∧
      run SimpleLRU.call
          [.put [1] [2], .put [3] [4], .get [1] [], .put [5] [6], .set [1] [7], .get [3] []]
          (SimpleLRU.create 5) = some (replies, s) ∧
      Linked s l.entries :=
  lru_of_equal_sizes 2 5 (by decide) (by decide) _ (by simp [EqualSized])

end Sysprog.Storage
