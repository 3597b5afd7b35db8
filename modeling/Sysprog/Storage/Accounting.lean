import Sysprog.Storage.Refinement

namespace Sysprog.Storage

theorem sizeSub_of_le {a b : Nat} (h : b ≤ a) (ha : a < 2 ^ 64) : sizeSub a b = a - b := by
  unfold sizeSub
  omega

theorem sizeAdd_of_lt {a b : Nat} (h : a + b < 2 ^ 64) : sizeAdd a b = a + b := by
  unfold sizeAdd
  omega

/-- Adding the wrapped difference of two sizes is exact when the result fits. -/
theorem sizeAdd_sizeSub {cur new old : Nat} (h : old ≤ cur) (hr : cur - old + new < 2 ^ 64) :
    sizeAdd cur (sizeSub new old) = cur - old + new := by
  unfold sizeAdd sizeSub
  omega

@[simp] theorem total_nil : total [] = 0 := rfl

@[simp] theorem total_cons (e : Item) (es : List Item) :
    total (e :: es) = itemSize e + total es := by
  simp [total]

@[simp] theorem total_append (es fs : List Item) : total (es ++ fs) = total es + total fs := by
  simp [total]

theorem total_perm {es fs : List Item} (h : es.Perm fs) : total es = total fs :=
  (h.map itemSize).sum_eq

theorem le_total {e : Item} {es : List Item} (h : e ∈ es) : itemSize e ≤ total es := by
  obtain ⟨us, vs, rfl⟩ := List.append_of_mem h
  simp only [total_append, total_cons]
  omega

/-- Size after one entry has changed its value. -/
theorem total_touch {key old : Bytes} {es : List Item} (value : Bytes) (hn : (keys es).Nodup)
    (h : valueOf key es = some old) :
    total (touch key value es) = total es - old.length + value.length ∧ old.length ≤ total es := by
  obtain ⟨us, vs, rfl⟩ := List.append_of_mem (valueOf_mem h)
  have ht := touch_split value hn
  simp only [ht, total_append, total_cons, total_nil, itemSize]
  omega

/-- The entries left when the oldest ones go until the rest takes at most `room` bytes. -/
def keep (room : Nat) : List Item → List Item
  | [] => []
  | e :: es => if total (e :: es) ≤ room then e :: es else keep room es

/-- The entries that go. -/
def victims (room : Nat) : List Item → List Item
  | [] => []
  | e :: es => if total (e :: es) ≤ room then [] else e :: victims room es

theorem victims_append_keep (room : Nat) (es : List Item) :
    victims room es ++ keep room es = es := by
  induction es with
  | nil => rfl
  | cons e es ih =>
    by_cases h : total (e :: es) ≤ room
    · simp only [victims, keep, if_pos h, List.nil_append]
    · simp only [victims, keep, if_neg h, List.cons_append, ih]

theorem total_keep_le (room : Nat) (es : List Item) : total (keep room es) ≤ room := by
  induction es with
  | nil => simp [keep]
  | cons e es ih =>
    by_cases h : total (e :: es) ≤ room
    · simpa only [keep, if_pos h] using h
    · simpa only [keep, if_neg h] using ih

/-- An entry that stays keeps its value. -/
theorem valueOf_keep {room : Nat} {key : Bytes} {es : List Item} (hn : (keys es).Nodup)
    (hk : key ∈ keys (keep room es)) :
    (keys (keep room es)).Nodup ∧ valueOf key (keep room es) = valueOf key es := by
  have hs := victims_append_keep room es
  rw [← hs, keys_append, List.nodup_append] at hn
  refine ⟨hn.2.1, ?_⟩
  conv_rhs => rw [← hs]
  exact (valueOf_append fun hm => hn.2.2 key hm key hk rfl).symm

theorem keep_of_le {room : Nat} {es : List Item} (h : total es ≤ room) :
    keep room es = es ∧ victims room es = [] := by
  cases es with
  | nil => exact ⟨rfl, rfl⟩
  | cons e es => exact ⟨if_pos h, if_pos h⟩

/-- One entry has to go. -/
theorem keep_tail {room : Nat} {e : Item} {es : List Item} (hmore : ¬ total (e :: es) ≤ room)
    (h : total es ≤ room) : keep room (e :: es) = es ∧ victims room (e :: es) = [e] := by
  obtain ⟨hk, hv⟩ := keep_of_le h
  exact ⟨by rw [keep, if_neg hmore, hk], by rw [victims, if_neg hmore, hv]⟩

/-- Making `room` goes right: every entry that has to go is as large as the freshest one, whose
size the code subtracts in its place, and an entry stays. -/
def EvictsAlike (room : Nat) (es : List Item) : Prop :=
  (∀ e ∈ victims room es, itemSize e = tailSize es) ∧ (es = [] ∨ keep room es ≠ [])

instance (room : Nat) (es : List Item) : Decidable (EvictsAlike room es) :=
  inferInstanceAs (Decidable (_ ∧ _))

theorem evictsAlike_of_le {room : Nat} {es : List Item} (h : total es ≤ room) :
    EvictsAlike room es := by
  obtain ⟨hk, hv⟩ := keep_of_le h
  refine ⟨by simp [hv], ?_⟩
  rw [hk]
  exact eq_or_ne es []

theorem evictWhile_keep (full : Nat → Bool) (room : Nat) (es : List Item) (ht : total es < 2 ^ 64)
    (hfull : ∀ fs, fs ≠ [] → fs <:+ es → keep room es <:+ fs →
      full (total fs) = decide (room < total fs))
    (he : es = [] → full 0 = false) (h : EvictsAlike room es) :
    Cache.evictWhile full (total es) es = some (total (keep room es), keep room es) := by
  induction es with
  | nil => simp [Cache.evictWhile, he rfl, keep]
  | cons e es ih =>
    have hsuf : keep room (e :: es) <:+ e :: es := ⟨_, victims_append_keep room (e :: es)⟩
    have hf := hfull (e :: es) (by simp) (List.suffix_refl _) hsuf
    by_cases hr : total (e :: es) ≤ room
    · have hd : full (total (e :: es)) = false := by
        rw [hf]
        exact decide_eq_false (Nat.not_lt.mpr hr)
      rw [(keep_of_le hr).1]
      cases es <;> simp only [Cache.evictWhile, hd, Bool.false_eq_true, if_false]
    · have hd : full (total (e :: es)) = true := by
        rw [hf]
        exact decide_eq_true (Nat.lt_of_not_le hr)
      have hkeep : keep room (e :: es) = keep room es := if_neg hr
      have hvict : victims room (e :: es) = e :: victims room es := if_neg hr
      obtain ⟨hv, hk⟩ := h
      rw [hkeep] at hk hsuf ⊢
      cases es with
      | nil => exact absurd (hk.resolve_left (by simp)) (by simp [keep])
      | cons f es =>
        have hlast : tailSize (e :: f :: es) = tailSize (f :: es) := by simp [tailSize]
        have hsize : itemSize e = tailSize (f :: es) := by
          rw [← hlast]
          exact hv e (by simp [hvict])
        simp only [Cache.evictWhile, hd, if_true]
        have hsub : sizeSub (total (e :: f :: es)) (tailSize (f :: es)) = total (f :: es) := by
          rw [← hsize, total_cons, sizeSub_of_le (by omega) (by simpa using ht)]
          omega
        rw [hsub]
        refine ih (by simp at ht ⊢; omega) ?_ (by simp) ⟨?_, Or.inr (hk.resolve_left (by simp))⟩
        · intro fs hne hfs hkf
          exact hfull fs hne (hfs.trans (List.suffix_cons _ _)) (hkeep ▸ hkf)
        · intro x hx
          rw [← hlast]
          exact hv x (by simp [hvict, hx])

namespace Cache

variable {c : Cache} {key value old : Bytes}

/-- The counter is exact and the entries fit. -/
structure Exact (c : Cache) : Prop where
  max_lt : c.maxSize < 2 ^ 64
  nodup : (keys c.entries).Nodup
  counter : c.currentSize = total c.entries
  fits : total c.entries ≤ c.maxSize

theorem exact_insert (h : c.Exact) (hv : valueOf key c.entries = none) {es : List Item}
    (hs : es <:+ c.entries) (hfit : total es + (key.length + value.length) ≤ c.maxSize) :
    Exact { c with
      entries := es ++ [⟨key, value⟩], currentSize := total (es ++ [⟨key, value⟩]) } := by
  refine ⟨h.max_lt, ?_, rfl, by simpa [itemSize] using hfit⟩
  have hsub : (keys es).Sublist (keys c.entries) := (hs.sublist).map _
  have hnot : key ∉ keys es := fun hm => valueOf_eq_none.mp hv (hsub.subset hm)
  simp only [keys_append, keys_cons, keys_nil]
  refine List.nodup_append.mpr ⟨h.nodup.sublist hsub, by simp, ?_⟩
  intro k hk j hj
  rw [List.mem_singleton.mp hj]
  exact fun he => hnot (he ▸ hk)

theorem exact_touch (h : c.Exact) {es : List Item} (hn : (keys es).Nodup)
    (hfit : total (touch key value es) ≤ c.maxSize) :
    Exact { c with entries := touch key value es, currentSize := total (touch key value es) } :=
  ⟨h.max_lt, nodup_touch hn, rfl, hfit⟩

/-- A successful `Get` only changes the order. -/
theorem exact_get (h : c.Exact) (hv : valueOf key c.entries = some value) :
    Exact { c with entries := touch key value c.entries } := by
  obtain ⟨ht, hle⟩ := total_touch value h.nodup hv
  have hsame : total (touch key value c.entries) = total c.entries := by omega
  exact ⟨h.max_lt, nodup_touch h.nodup, h.counter.trans hsame.symm, hsame ▸ h.fits⟩

/-- A removal that subtracts what is gone. -/
theorem exact_remove (h : c.Exact) {es : List Item} {n : Nat} (hs : es.Sublist c.entries)
    (ht : total c.entries = total es + n) :
    Exact { c with entries := es, currentSize := sizeSub c.currentSize n } := by
  have hfits := h.fits
  have hmax := h.max_lt
  refine ⟨h.max_lt, h.nodup.sublist (hs.map _), ?_, ?_⟩
  · change sizeSub c.currentSize n = total es
    rw [h.counter, sizeSub_of_le (by omega) (by omega)]
    omega
  · change total es ≤ c.maxSize
    omega

/-- Insertion that goes right leaves the entries that can stay, and the new one. -/
theorem insertNewValue_spec (h : c.Exact) (hfit : key.length + value.length ≤ c.maxSize)
    (he : EvictsAlike (c.maxSize - (key.length + value.length)) c.entries) :
    c.insertNewValue key value = some { c with
      entries := keep (c.maxSize - (key.length + value.length)) c.entries ++ [⟨key, value⟩]
      currentSize :=
        total (keep (c.maxSize - (key.length + value.length)) c.entries ++ [⟨key, value⟩]) } := by
  have hmax := h.max_lt
  have hroom : sizeSub (sizeSub c.maxSize key.length) value.length =
      c.maxSize - (key.length + value.length) := by
    rw [sizeSub_of_le (by omega) hmax, sizeSub_of_le (by omega) (by omega)]
    omega
  have hkeep := total_keep_le (c.maxSize - (key.length + value.length)) c.entries
  simp only [insertNewValue, hroom, h.counter]
  rw [evictWhile_keep _ (c.maxSize - (key.length + value.length)) c.entries
    (Nat.lt_of_le_of_lt h.fits hmax) (fun fs _ _ _ => by simp [gt_iff_lt]) (by simp) he]
  simp only [Option.bind_eq_bind, Option.bind_some, Option.pure_def]
  rw [sizeAdd_of_lt (by omega), total_append]
  rfl

/-- Room for the other entries while `key` changes its value. -/
def updateRoom (c : Cache) (old value : Bytes) : Nat := c.maxSize + old.length - value.length

/-- Update that goes right. The new total must be a `size_t`, as it is whenever old and new
values are in memory together. -/
theorem updateValue_spec (h : c.Exact) (hfit : key.length + value.length ≤ c.maxSize)
    (hv : valueOf key c.entries = some old)
    (hw : total c.entries - old.length + value.length < 2 ^ 64)
    (he : EvictsAlike (c.updateRoom old value) c.entries)
    (hk : key ∈ keys (keep (c.updateRoom old value) c.entries)) :
    c.updateValue key old value = some { c with
      entries := touch key value (keep (c.updateRoom old value) c.entries)
      currentSize := total (touch key value (keep (c.updateRoom old value) c.entries)) } := by
  have hmax := h.max_lt
  have htot := h.fits
  have hlt : total c.entries < 2 ^ 64 := Nat.lt_of_le_of_lt htot hmax
  have hspl := victims_append_keep (c.updateRoom old value) c.entries
  obtain ⟨hnk, hvk⟩ := valueOf_keep h.nodup hk
  rw [hv] at hvk
  -- the entry is among those that stay, so every list the loop looks at counts its old value
  have hmem := valueOf_mem hvk
  have hloop : ∀ fs, fs ≠ [] → fs <:+ c.entries → keep (c.updateRoom old value) c.entries <:+ fs →
      decide (sizeAdd (total fs) (sizeSub value.length old.length) > c.maxSize) =
        decide (c.updateRoom old value < total fs) := by
    intro fs _ hfs hkf
    obtain ⟨us, hus⟩ := hfs
    have hle : total fs ≤ total c.entries := by rw [← hus, total_append]; omega
    have hold := le_total (hkf.subset hmem)
    simp only [itemSize] at hold
    rw [sizeAdd_sizeSub (by omega) (by omega)]
    apply decide_eq_decide.mpr
    simp only [updateRoom]
    omega
  have hempty : c.entries = [] → decide (sizeAdd 0 (sizeSub value.length old.length) > c.maxSize)
      = false := by
    intro hnil
    rw [hnil] at hk
    simp [keep] at hk
  obtain ⟨ht, hole⟩ := total_touch value hnk hvk
  have hkl := total_keep_le (c.updateRoom old value) c.entries
  simp only [updateValue, h.counter]
  rw [evictWhile_keep _ (c.updateRoom old value) c.entries hlt hloop hempty he]
  simp only [Option.bind_eq_bind, Option.bind_some, if_pos hk, Option.pure_def]
  rw [ht, sizeAdd_sizeSub hole (by rw [← hspl, total_append] at hw; omega)]

/-- An update goes right: its evictions do, none of them takes the entry itself, and the new
total is a `size_t`. -/
def UpdatesAlike (c : Cache) (key old value : Bytes) : Prop :=
  EvictsAlike (c.updateRoom old value) c.entries ∧
    key ∈ keys (keep (c.updateRoom old value) c.entries) ∧
    total c.entries - old.length + value.length < 2 ^ 64

/-- A deletion goes right: the entry is not the only one, and it is the freshest, or the oldest
and as large as the freshest. -/
def DeletesAlike (c : Cache) (key : Bytes) : Prop :=
  2 ≤ c.entries.length ∧ (c.entries.getLast?.map Entry.key = some key ∨
    c.entries.head?.map (fun e => (e.key, itemSize e)) = some (key, tailSize c.entries))

/-- A pair goes in right, over the value the key has. -/
def StoresAlike (c : Cache) (key value : Bytes) : Option Bytes → Prop
  | none => EvictsAlike (c.maxSize - (key.length + value.length)) c.entries
  | some old => c.UpdatesAlike key old value

/-- No removal the call has to make is one that `_remove_node` gets wrong. -/
def Accountable (a : Call Bytes Bytes) (c : Cache) : Prop :=
  match a with
  | .put k v => k.length + v.length ≤ c.maxSize → c.StoresAlike k v (valueOf k c.entries)
  | .putIfAbsent k v =>
    k.length + v.length ≤ c.maxSize → k ∉ keys c.entries → c.StoresAlike k v none
  | .set k v =>
    k.length + v.length ≤ c.maxSize → k ∈ keys c.entries → c.StoresAlike k v (valueOf k c.entries)
  | .delete k => k ∈ keys c.entries → c.DeletesAlike k
  | .get _ _ => True

instance (c : Cache) (key value : Bytes) : ∀ v, Decidable (c.StoresAlike key value v)
  | none => inferInstanceAs (Decidable (EvictsAlike _ _))
  | some _ => inferInstanceAs (Decidable (_ ∧ _))

instance (c : Cache) (key : Bytes) : Decidable (c.DeletesAlike key) :=
  inferInstanceAs (Decidable (_ ∧ _))

instance : ∀ (a : Call Bytes Bytes) (c : Cache), Decidable (Accountable a c)
  | .put _ _, _ => inferInstanceAs (Decidable (_ → _))
  | .putIfAbsent _ _, _ => inferInstanceAs (Decidable (_ → _))
  | .set _ _, _ => inferInstanceAs (Decidable (_ → _))
  | .delete _, _ => inferInstanceAs (Decidable (_ → _))
  | .get _ _, _ => inferInstanceAs (Decidable True)

theorem insertNewValue_exact (h : c.Exact) (hfit : key.length + value.length ≤ c.maxSize)
    (hv : valueOf key c.entries = none)
    (he : EvictsAlike (c.maxSize - (key.length + value.length)) c.entries) :
    ∃ c', c.insertNewValue key value = some c' ∧ c'.Exact ∧ c'.maxSize = c.maxSize := by
  have hkeep := total_keep_le (c.maxSize - (key.length + value.length)) c.entries
  have hsuf : keep (c.maxSize - (key.length + value.length)) c.entries <:+ c.entries :=
    ⟨_, victims_append_keep _ _⟩
  exact ⟨_, insertNewValue_spec h hfit he, exact_insert h hv hsuf (by omega), rfl⟩

theorem updateValue_exact (h : c.Exact) (hfit : key.length + value.length ≤ c.maxSize)
    (hv : valueOf key c.entries = some old) (hu : c.UpdatesAlike key old value) :
    ∃ c', c.updateValue key old value = some c' ∧ c'.Exact ∧ c'.maxSize = c.maxSize := by
  obtain ⟨he, hk, hw⟩ := hu
  obtain ⟨hnk, hvk⟩ := valueOf_keep h.nodup hk
  obtain ⟨ht, hole⟩ := total_touch value hnk (hvk.trans hv)
  have hkl := total_keep_le (c.updateRoom old value) c.entries
  have hroom : c.updateRoom old value = c.maxSize + old.length - value.length := rfl
  exact ⟨_, updateValue_spec h hfit hv hw he hk, exact_touch h hnk (by omega), rfl⟩

theorem removeNode_exact (h : c.Exact) (hd : c.DeletesAlike key) :
    ∃ c', c.removeNode key = some c' ∧ c'.Exact ∧ c'.maxSize = c.maxSize := by
  obtain ⟨hlen, hlast | hhead⟩ := hd
  · obtain ⟨es, f, e, hs⟩ : ∃ es f e, c.entries = es ++ [f, e] := by
      rcases List.eq_nil_or_concat c.entries with hnil | ⟨fs, e, hfs⟩
      · simp [hnil] at hlen
      · rcases List.eq_nil_or_concat fs with hnil | ⟨es, f, hes⟩
        · simp [hfs, hnil] at hlen
        · exact ⟨es, f, e, by simp [hfs, hes]⟩
    obtain rfl : e.key = key := by simpa [hs] using hlast
    refine ⟨_, removeNode_tail _ _ hs h.nodup, exact_remove h ?_ ?_, rfl⟩
    · rw [hs]
      exact (List.sublist_append_left [f] [e]).append_left es
    · rw [hs, List.append_cons, total_append]
      simp
  · obtain ⟨e, f, es, hs⟩ : ∃ e f es, c.entries = e :: f :: es := by
      match hc : c.entries with
      | [] => simp [hc] at hlen
      | [_] => simp [hc] at hlen
      | e :: f :: es => exact ⟨e, f, es, rfl⟩
    obtain ⟨rfl, hsize⟩ : e.key = key ∧ itemSize e = tailSize c.entries := by
      simpa [hs] using hhead
    have htail : tailSize c.entries = tailSize (f :: es) := by simp [hs, tailSize]
    refine ⟨_, removeNode_head _ _ hs, exact_remove h ?_ ?_, rfl⟩
    · rw [hs]
      exact List.sublist_cons_self _ _
    · rw [← htail, ← hsize, hs, total_cons]
      omega

/-- One call: it returns, and the counter is exact again. -/
theorem call_exact (a : Call Bytes Bytes) (h : c.Exact) (ha : Accountable a c) :
    ∃ b c', call a c = some (b, c') ∧ c'.Exact ∧ c'.maxSize = c.maxSize := by
  cases a with
  | put k v =>
    by_cases hfit : k.length + v.length ≤ c.maxSize
    · have hgt : ¬ k.length + v.length > c.maxSize := by omega
      have ha' := ha hfit
      cases hv : valueOf k c.entries with
      | none =>
        rw [hv] at ha'
        obtain ⟨c', he, hx, hm⟩ := insertNewValue_exact h hfit hv ha'
        exact ⟨.done true, c', by simp [call, put, hgt, hv, he], hx, hm⟩
      | some old =>
        rw [hv] at ha'
        obtain ⟨c', he, hx, hm⟩ := updateValue_exact h hfit hv ha'
        exact ⟨.done true, c', by simp [call, put, hgt, hv, he], hx, hm⟩
    · have hgt : k.length + v.length > c.maxSize := by omega
      exact ⟨.done false, c, by simp [call, put, hgt], h, rfl⟩
  | putIfAbsent k v =>
    by_cases hfit : k.length + v.length ≤ c.maxSize
    · have hgt : ¬ k.length + v.length > c.maxSize := by omega
      cases hv : valueOf k c.entries with
      | none =>
        obtain ⟨c', he, hx, hm⟩ := insertNewValue_exact h hfit hv (ha hfit (valueOf_eq_none.mp hv))
        exact ⟨.done true, c', by simp [call, putIfAbsent, hgt, hv, he], hx, hm⟩
      | some old => exact ⟨.done false, c, by simp [call, putIfAbsent, hgt, hv], h, rfl⟩
    · have hgt : k.length + v.length > c.maxSize := by omega
      exact ⟨.done false, c, by simp [call, putIfAbsent, hgt], h, rfl⟩
  | set k v =>
    by_cases hfit : k.length + v.length ≤ c.maxSize
    · have hgt : ¬ v.length + k.length > c.maxSize := by omega
      cases hv : valueOf k c.entries with
      | none => exact ⟨.done false, c, by simp [call, set, hgt, hv], h, rfl⟩
      | some old =>
        have ha' := ha hfit (mem_keys_of_valueOf hv)
        rw [hv] at ha'
        obtain ⟨c', he, hx, hm⟩ := updateValue_exact h hfit hv ha'
        exact ⟨.done true, c', by simp [call, set, hgt, hv, he], hx, hm⟩
    · have hgt : v.length + k.length > c.maxSize := by omega
      exact ⟨.done false, c, by simp [call, set, hgt], h, rfl⟩
  | delete k =>
    cases hv : valueOf k c.entries with
    | none => exact ⟨.done false, c, by simp [call, delete, hv], h, rfl⟩
    | some old =>
      have hk := mem_keys_of_valueOf hv
      obtain ⟨c', he, hx, hm⟩ := removeNode_exact h (ha hk)
      exact ⟨.done true, c', by simp [call, delete, hv, he], hx, hm⟩
  | get k v =>
    cases hv : valueOf k c.entries with
    | none => exact ⟨.got false v, c, by simp [call, get, hv], h, rfl⟩
    | some w =>
      exact ⟨.got true w, { c with entries := touch k w c.entries }, by simp [call, get, hv],
        exact_get h hv, rfl⟩

end Cache

/-- In a run in which no call has to make a removal that `_remove_node` gets wrong, the counter
is the exact size of the entries, and they fit, in every state reached. -/
theorem current_size_exact (maxSize : UInt64) (calls pre post : List (Call Bytes Bytes))
    (hpre : calls = pre ++ post)
    (h : AllSteps SimpleLRU.call (fun a s => Cache.Accountable a s.view) calls
      (SimpleLRU.create maxSize)) :
    ∃ replies s, run SimpleLRU.call pre (SimpleLRU.create maxSize) = some (replies, s) ∧
      s.currentSize = total (s.nodes.map Prod.snd) ∧
      total (s.nodes.map Prod.snd) ≤ s.maxSize ∧ s.maxSize = maxSize.toNat := by
  rw [hpre] at h
  have hstep : ∀ a s, (∃ c, Refines s c ∧ c.Exact ∧ c.maxSize = maxSize.toNat) →
      Cache.Accountable a s.view → ∃ b s', SimpleLRU.call a s = some (b, s') ∧
        ∃ c, Refines s' c ∧ c.Exact ∧ c.maxSize = maxSize.toNat := by
    intro a s hinv ha
    obtain ⟨c, hc, hx, hm⟩ := hinv
    rw [hc.view_eq] at ha
    obtain ⟨b, c', he, hx', hm'⟩ := Cache.call_exact a hx ha
    obtain ⟨s', hs', hc'⟩ := call_refines_some hc he
    exact ⟨b, s', hs', c', hc', hx', hm'.trans hm⟩
  obtain ⟨replies, s, hr, c, hc, hx, hm⟩ := run_total SimpleLRU.call _ _ hstep pre _
    ⟨_, create_refines maxSize, ⟨maxSize.toNat_lt, by simp, rfl, by simp⟩, rfl⟩ h.of_append
  obtain rfl := hc.view_eq
  exact ⟨replies, s, hr, hx.counter, hx.fits, hm⟩

/-- Two entries fill the store; the third evicts one of equal size. -/
theorem current_size_exact_eviction :
    ∃ replies s, run SimpleLRU.call [.put [1] [2], .put [3] [4], .put [5] [6]]
        (SimpleLRU.create 4) = some (replies, s) ∧
      s.currentSize = total (s.nodes.map Prod.snd) ∧
      total (s.nodes.map Prod.snd) ≤ s.maxSize ∧ s.maxSize = (4 : UInt64).toNat :=
  current_size_exact 4 [.put [1] [2], .put [3] [4], .put [5] [6], .delete [5], .get [3] []] _
    [.delete [5], .get [3] []] rfl (by decide)

/-- A small entry is evicted while a larger one is the freshest: the counter loses the size of the
larger one, and the store is over-filled. -/
theorem current_size_drifts :
    ∃ replies s, run SimpleLRU.call [.put [1] [], .put [2] [3, 3], .put [4] [5, 5, 5, 5, 5]]
        (SimpleLRU.create 8) = some (replies, s) ∧
      s.currentSize = 7 ∧ total (s.nodes.map Prod.snd) = 9 ∧ s.maxSize = 8 := by
  exact ⟨_, _, rfl, by decide, by decide, rfl⟩

end Sysprog.Storage
