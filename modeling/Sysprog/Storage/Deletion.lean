import Sysprog.Storage.Eviction
import Sysprog.Storage.Recency

namespace Sysprog.Storage

variable {s t : SimpleLRU} {us vs : List Item} {e w : Item}

/-- `t` holds `us` and `vs`, in this order, and counts what `s` counts without `e`. -/
structure NeverStored (s : SimpleLRU) (us vs : List Item) (e : Item) (t : SimpleLRU) : Prop where
  linked : Linked t (us ++ vs)
  maxSize : t.maxSize = s.maxSize
  currentSize : t.currentSize = sizeSub s.currentSize (itemSize e)

/-- `Delete` returns true, takes the entry `e` out of the list, and from then on the store answers
as one that never held it. -/
def Deletes (s : SimpleLRU) (us vs : List Item) (e : Item) : Prop :=
  ∃ s', s.delete e.key = some (true, s') ∧ Linked s' (us ++ vs) ∧
    ∀ t, NeverStored s us vs e t → ∀ calls,
      (run SimpleLRU.call calls s').map Prod.fst = (run SimpleLRU.call calls t).map Prod.fst

/-- The entry stands at one end of the list and not at both, and at the front it is as large as the
freshest one. -/
def DeletesRight (us vs : List Item) (e : Item) : Prop :=
  (us = [] ↔ vs ≠ []) ∧ (us = [] → itemSize e = tailSize vs)

theorem Refines.outputs {c : Cache} (h : Refines s c) (calls : List (Call Bytes Bytes)) :
    (run SimpleLRU.call calls s).map Prod.fst = (run Cache.call calls c).map Prod.fst :=
  run_same _ _ Refines (fun a _ _ hr => call_refines a hr) calls h

namespace Cache

/-- What `removeNode` makes of an entry, wherever it stands. -/
theorem removeNode_split {c : Cache} (h : c.entries = us ++ e :: vs) (hn : (keys c.entries).Nodup) :
    c.removeNode e.key = if us = [] ↔ vs ≠ [] then
      some { c with entries := us ++ vs, currentSize := sizeSub c.currentSize (tailSize c.entries) }
    else none := by
  cases us with
  | nil =>
    cases vs with
    | nil => simp [removeNode, h]
    | cons f vs =>
      rw [removeNode_head f vs h]
      simp [h, tailSize]
  | cons u us =>
    obtain ⟨ws, w, hw⟩ : ∃ ws w, u :: us = ws ++ [w] :=
      ⟨_, _, (List.dropLast_append_getLast (List.cons_ne_nil u us)).symm⟩
    rw [hw] at h ⊢
    cases vs with
    | nil =>
      rw [removeNode_tail w ws (by simpa using h) hn]
      simp [h, tailSize]
    | cons f vs =>
      rw [removeNode_middle w f ws vs (by simpa using h) hn]
      simp

variable {c : Cache} {value : Bytes} {full : Nat → Bool} {cur cur' : Nat} {es fs : List Item}

theorem evictWhile_suffix (h : evictWhile full cur es = some (cur', fs)) : fs <:+ es := by
  induction es generalizing cur with
  | nil =>
    cases hf : full cur with
    | true => simp [evictWhile, hf] at h
    | false =>
      obtain ⟨-, rfl⟩ : cur = cur' ∧ [] = fs := by simpa [evictWhile, hf] using h
      exact List.suffix_refl _
  | cons e es ih =>
    cases hf : full cur with
    | true =>
      cases es with
      | nil => simp [evictWhile, hf] at h
      | cons f es =>
        simp only [evictWhile, hf, if_true] at h
        exact (ih h).trans (List.suffix_cons _ _)
    | false =>
      rw [evictWhile_of_room hf] at h
      obtain ⟨-, rfl⟩ : cur = cur' ∧ e :: es = fs := by simpa using h
      exact List.suffix_refl _

/-- The oldest entry does not outlive an eviction. -/
theorem evictWhile_oldest (hn : (keys (w :: es)).Nodup) (hf : full cur = true)
    (h : evictWhile full cur (w :: es) = some (cur', fs)) : w.key ∉ keys fs := by
  cases es with
  | nil => simp [evictWhile, hf] at h
  | cons f es =>
    simp only [evictWhile, hf, if_true] at h
    intro hm
    rw [keys_cons, List.nodup_cons] at hn
    exact hn.1 (((evictWhile_suffix h).map Entry.key).subset hm)

/-- A new value for which the oldest entry has to make room with itself. -/
theorem put_oldest (value : Bytes) (h : c.entries = w :: es) (hn : (keys c.entries).Nodup)
    (hfit : w.key.length + value.length ≤ c.maxSize)
    (hfull : c.maxSize < sizeAdd c.currentSize (sizeSub value.length w.value.length)) :
    c.put w.key value = none := by
  have hgt : ¬w.key.length + value.length > c.maxSize := by omega
  rw [h] at hn
  have hv := valueOf_head w es
  simp only [put, if_neg hgt, h, hv, Option.map_eq_none_iff, updateValue]
  cases hl : evictWhile (fun cur => sizeAdd cur (sizeSub value.length w.value.length) > c.maxSize)
      c.currentSize (w :: es) with
  | none => rfl
  | some r => exact if_neg (evictWhile_oldest hn (decide_eq_true hfull) hl)

/-- A new pair for which the oldest entry has to make room. -/
theorem put_evicts {key : Bytes} {c' : Cache} {b : Bool} (h : c.entries = w :: es)
    (hn : (keys c.entries).Nodup) (hk : key ∉ keys c.entries) (hm : c.maxSize < 2 ^ 64)
    (hfit : key.length + value.length ≤ c.maxSize)
    (hfull : c.maxSize < c.currentSize + (key.length + value.length))
    (hput : c.put key value = some (b, c')) : w.key ∉ keys c'.entries := by
  have hgt : ¬key.length + value.length > c.maxSize := by omega
  have hroom : sizeSub (sizeSub c.maxSize key.length) value.length < c.currentSize := by
    rw [sizeSub_of_le (by omega) hm, sizeSub_of_le (by omega) (by omega)]
    omega
  simp only [put, if_neg hgt, valueOf_eq_none.mpr hk] at hput
  obtain ⟨c1, hc1, hc2⟩ := Option.map_eq_some_iff.mp hput
  obtain ⟨⟨cur, fs⟩, hl, hc3⟩ := Option.bind_eq_some_iff.mp hc1
  obtain ⟨-, rfl⟩ : true = b ∧ c1 = c' := by simpa using hc2
  rw [h] at hn hk hl
  rw [← Option.some.inj hc3, keys_append, List.mem_append]
  intro hmem
  rcases hmem with hmem | hmem
  · exact evictWhile_oldest hn (decide_eq_true hroom) hl hmem
  · have he : w.key = key := by simpa using hmem
    exact hk (by simp [← he])

/-- A new value for the freshest entry, when enough of the others can go. -/
theorem put_freshest {key old : Bytes} {n : Nat} (h : c.entries = us ++ [⟨key, old⟩])
    (hn : (keys c.entries).Nodup) (hfit : key.length + value.length ≤ c.maxSize)
    (hlt : n < c.entries.length)
    (hroom : sizeAdd ((fun x => sizeSub x (key.length + old.length))^[n] c.currentSize)
      (sizeSub value.length old.length) ≤ c.maxSize) :
    ∃ c' vs, c.put key value = some (true, c') ∧ c'.entries = vs ++ [⟨key, value⟩] := by
  have hgt : ¬key.length + value.length > c.maxSize := by omega
  have hv : valueOf key c.entries = some old := by
    rw [h] at hn ⊢
    exact valueOf_split (e := ⟨key, old⟩) hn
  have htail : tailSize c.entries = key.length + old.length := by simp [h, tailSize, itemSize]
  obtain ⟨cur, fs, hl⟩ := @evictWhile_iterate
    (fun x => sizeAdd x (sizeSub value.length old.length) > c.maxSize) _ _ _ hlt
    (decide_eq_false (by rw [htail]; exact Nat.not_lt.mpr hroom))
  have hne : fs ≠ [] := evictWhile_ne_nil hl (by simp [h])
  -- the freshest entry is the one that is never evicted
  have hlast : fs.getLast hne = ⟨key, old⟩ := by
    obtain ⟨gone, hsplit⟩ := evictWhile_suffix hl
    have he := congrArg List.getLast? (hsplit.trans h)
    rw [List.getLast?_append_of_ne_nil _ hne, List.getLast?_eq_some_getLast hne] at he
    simpa using he
  have hmem : key ∈ keys fs :=
    List.mem_map.mpr ⟨_, hlast ▸ List.getLast_mem hne, rfl⟩
  simp only [put, if_neg hgt, hv, updateValue, hl, Option.bind_eq_bind, Option.bind_some,
    if_pos hmem, Option.pure_def, Option.map_some]
  exact ⟨_, _, rfl, rfl⟩

end Cache

section apart

variable {es : List Item} {M m n : Nat}

theorem replicate_notMem {n : Nat} (h : total es < n) : List.replicate n 0 ∉ keys es := by
  intro hm
  obtain ⟨e, he, hk⟩ := List.mem_map.mp hm
  have hle := le_total he
  have hlen := congrArg List.length hk
  rw [List.length_replicate] at hlen
  unfold itemSize at hle
  omega

/-- There is a key that is not stored and no longer than all entries together. -/
theorem exists_absent (es : List Item) :
    ∃ key, key ∉ keys es ∧ key.length ≤ Nat.max 2 (total es) := by
  by_cases hm : List.replicate (total es) 0 ∈ keys es
  · obtain ⟨e, he, hk⟩ := List.mem_map.mp hm
    obtain ⟨us, vs, rfl⟩ := List.append_of_mem he
    have hlen := congrArg List.length hk
    rw [List.length_replicate] at hlen
    simp only [total_append, total_cons, itemSize] at hlen
    -- the entry is all there is, and the others are empty
    by_cases htwo : total (us ++ e :: vs) < 2
    · exact ⟨_, replicate_notMem htwo, by simp⟩
    · refine ⟨List.replicate (total (us ++ e :: vs) - 1) 0, ?_, by simp⟩
      have hrest : List.replicate (total (us ++ e :: vs) - 1) 0 ∉ keys (us ++ vs) := by
        apply replicate_notMem
        simp only [total_append, total_cons, itemSize] at htwo ⊢
        omega
      have he' : List.replicate (total (us ++ e :: vs) - 1) 0 ≠ e.key := by
        intro h
        have hl := congrArg List.length h
        simp only [List.length_replicate, total_append, total_cons, itemSize] at hl htwo
        omega
      intro h
      simp only [keys_append, keys_cons, List.mem_append, List.mem_cons] at h hrest
      tauto
  · exact ⟨_, hm, by simp⟩

/-- A longer value for the oldest entry is room for one of two counters only. -/
theorem apart_of_update (hn : (keys (w :: es)).Nodup) (hlt : m < n) (hhi : n ≤ M)
    (hw : itemSize w ≤ m) (hmax : M + 1 < 2 ^ 64) :
    ∃ calls, (run Cache.call calls ⟨M, m, w :: es⟩).map Prod.fst ≠
      (run Cache.call calls ⟨M, n, w :: es⟩).map Prod.fst := by
  obtain ⟨value, hvalue⟩ : ∃ v : Bytes, v.length = w.value.length + (M - n + 1) :=
    ⟨List.replicate _ 0, List.length_replicate⟩
  unfold itemSize at hw
  have hdelta : ∀ cur ≤ n, sizeAdd cur (sizeSub value.length w.value.length) =
      cur + (M - n + 1) := by
    intro cur hcur
    unfold sizeAdd sizeSub
    omega
  have hlo := Cache.put_present (c := ⟨M, m, w :: es⟩) value (valueOf_head w es)
    (by change _ ≤ M; omega) (by change sizeAdd m _ ≤ M; rw [hdelta m hlt.le]; omega)
  have hhi := Cache.put_oldest (c := ⟨M, n, w :: es⟩) value rfl hn
    (by change _ ≤ M; omega) (by change M < sizeAdd n _; rw [hdelta n le_rfl]; omega)
  exact ⟨[.put w.key value], by simp [run, Cache.call, hlo, hhi]⟩

/-- A new pair is room for one of two counters only. -/
theorem apart_of_insert {key : Bytes} (hn : (keys (w :: es)).Nodup) (hlt : m < n) (hhi : n ≤ M)
    (hmax : M < 2 ^ 64) (hk : key ∉ keys (w :: es)) (hlen : key.length ≤ M - m) :
    ∃ calls, (run Cache.call calls ⟨M, m, w :: es⟩).map Prod.fst ≠
      (run Cache.call calls ⟨M, n, w :: es⟩).map Prod.fst := by
  obtain ⟨value, hvalue⟩ : ∃ v : Bytes, key.length + v.length = M - m :=
    ⟨List.replicate (M - m - key.length) 0, by rw [List.length_replicate]; omega⟩
  have hlo := Cache.put_absent (c := ⟨M, m, w :: es⟩) value hmax (valueOf_eq_none.mpr hk)
    (by change m + _ ≤ M; omega)
  have hold := valueOf_head w (es ++ [⟨key, value⟩])
  refine ⟨[.put key value, .get w.key []], ?_⟩
  cases hhi : Cache.put ⟨M, n, w :: es⟩ key value with
  | none => simp [run, Cache.call, hlo, hhi, Cache.get, hold]
  | some r =>
    have hgone : valueOf w.key r.2.entries = none := valueOf_eq_none.mpr
      (Cache.put_evicts rfl hn hk hmax (by change _ ≤ M; omega) (by change M < n + _; omega) hhi)
    simp [run, Cache.call, hlo, hhi, Cache.get, hold, hgone]

/-- A longer value for the oldest entry takes one of two counters round to zero. -/
theorem apart_of_wrap {f : Item} (hn : (keys (w :: f :: es)).Nodup) (hlt : m < n) (hhi : n ≤ M)
    (hw : itemSize w ≤ m) (ht : total (w :: f :: es) ≤ M) (hmax : M + 1 = 2 ^ 64) :
    ∃ calls, (run Cache.call calls ⟨M, m, w :: f :: es⟩).map Prod.fst ≠
      (run Cache.call calls ⟨M, n, w :: f :: es⟩).map Prod.fst := by
  obtain ⟨value, hvalue⟩ : ∃ v : Bytes, v.length = w.value.length + (2 ^ 64 - n) :=
    ⟨List.replicate _ 0, List.length_replicate⟩
  unfold itemSize at hw
  have hput : ∀ cur, Cache.put ⟨M, cur, w :: f :: es⟩ w.key value =
      some (true, ⟨M, (cur + (2 ^ 64 - n)) % 2 ^ 64, f :: (es ++ [⟨w.key, value⟩])⟩) := by
    intro cur
    have hdelta : sizeAdd cur (sizeSub value.length w.value.length) =
        (cur + (2 ^ 64 - n)) % 2 ^ 64 := by
      unfold sizeAdd sizeSub
      omega
    have h := Cache.put_present (c := ⟨M, cur, w :: f :: es⟩) value (valueOf_head w (f :: es))
      (by change _ ≤ M; omega) (by change sizeAdd cur _ ≤ M; omega)
    have ht : touch w.key value ([] ++ w :: f :: es) = [] ++ f :: es ++ [⟨w.key, value⟩] :=
      touch_split value hn
    rw [List.nil_append] at ht
    rw [h]
    simp [hdelta, ht]
  have hlo : (m + (2 ^ 64 - n)) % 2 ^ 64 = m + (2 ^ 64 - n) := Nat.mod_eq_of_lt (by omega)
  have hhi : (n + (2 ^ 64 - n)) % 2 ^ 64 = 0 := by
    rw [Nat.add_sub_of_le (by omega), Nat.mod_self]
  have hperm : (keys (f :: (es ++ [⟨w.key, value⟩]))).Perm (keys (w :: f :: es)) := by
    simpa using (List.perm_append_singleton w.key (keys (f :: es)))
  obtain ⟨key, hk, hlen⟩ := exists_absent (w :: f :: es)
  obtain ⟨calls, hcalls⟩ := apart_of_insert (M := M) (m := 0) (n := m + (2 ^ 64 - n))
    (hperm.nodup_iff.mpr hn) (by omega) (by omega) (by omega) (fun hm => hk (hperm.mem_iff.mp hm))
    (by rw [Nat.sub_zero]; exact hlen.trans (Nat.max_le.mpr ⟨by omega, ht⟩))
  refine ⟨.put w.key value :: calls, ?_⟩
  have hstep : ∀ cur, (run Cache.call (.put w.key value :: calls) ⟨M, cur, w :: f :: es⟩).map Prod.fst =
      ((run Cache.call calls ⟨M, (cur + (2 ^ 64 - n)) % 2 ^ 64,
        f :: (es ++ [⟨w.key, value⟩])⟩).map Prod.fst).map (.done true :: ·) := by
    intro cur
    exact run_cons_outputs (by simp [Cache.call, hput])
  intro h
  rw [hstep, hstep, hlo, hhi] at h
  exact hcalls (Option.map_injective List.cons_injective h).symm

/-- Stores with the same entries and different counters do not answer alike for ever. -/
theorem exists_apart (hn : (keys (w :: es)).Nodup) (hlt : m < n) (hle : n ≤ M) (hmax : M < 2 ^ 64)
    (ht : total (w :: es) ≤ M) (hw : es = [] ∨ itemSize w ≤ m) :
    ∃ calls, (run Cache.call calls ⟨M, m, w :: es⟩).map Prod.fst ≠
      (run Cache.call calls ⟨M, n, w :: es⟩).map Prod.fst := by
  cases es with
  | nil =>
    obtain ⟨b, hb⟩ : ∃ b : UInt8, [b] ≠ w.key := by
      by_cases h0 : [0] = w.key
      · exact ⟨1, by rw [← h0]; decide⟩
      · exact ⟨0, h0⟩
    have hk : [b] ∉ keys [w] := by simpa using hb
    exact apart_of_insert hn hlt hle hmax hk (by simp; omega)
  | cons f es =>
    have hw := hw.resolve_left (by simp)
    by_cases hM : M + 1 = 2 ^ 64
    · exact apart_of_wrap hn hlt hle hw ht hM
    · exact apart_of_update hn hlt hle hw (by omega)

/-- The size subtracted for the oldest entry can be told from its own by later calls. -/
theorem sizes_eq (hc : Counted s (e :: vs)) (hne : vs ≠ [])
    (h : ∀ calls, (run Cache.call calls ⟨s.maxSize, sizeSub s.currentSize (tailSize vs), vs⟩).map Prod.fst =
      (run Cache.call calls ⟨s.maxSize, sizeSub s.currentSize (itemSize e), vs⟩).map Prod.fst) :
    itemSize e = tailSize vs := by
  have hmax := hc.max_lt
  have hfits := hc.fits
  have hn := hc.exact.nodup
  have htail := tailSize_le_total vs
  simp only [total_cons] at hfits
  simp only [keys_cons, List.nodup_cons] at hn
  have hown : sizeSub s.currentSize (itemSize e) = total vs := by
    rw [hc.counter, total_cons, sizeSub_of_le (by omega) (by omega)]
    omega
  have hcode : sizeSub s.currentSize (tailSize vs) = itemSize e + total vs - tailSize vs := by
    rw [hc.counter, total_cons, sizeSub_of_le (by omega) (by omega)]
  rw [hown, hcode] at h
  obtain ⟨w, es, rfl⟩ := List.exists_cons_of_ne_nil hne
  have hw : es = [] ∨ itemSize w + tailSize (w :: es) ≤ total (w :: es) := by
    cases es with
    | nil => exact .inl rfl
    | cons f es =>
      have hlast : tailSize (w :: f :: es) = tailSize (f :: es) := by simp [tailSize]
      have hrest := tailSize_le_total (f :: es)
      rw [hlast, total_cons]
      exact .inr (by omega)
  have hpos : itemSize w ≤ total (w :: es) := le_total (by simp)
  by_contra hsize
  rcases Nat.lt_or_gt_of_ne hsize with hlt | hgt
  · obtain ⟨calls, hcalls⟩ := exists_apart (m := itemSize e + total (w :: es) - tailSize (w :: es))
      (n := total (w :: es)) hn.2 (by omega) (Nat.le_of_add_left_le hfits) hmax
      (Nat.le_of_add_left_le hfits) (hw.imp_right fun _ => by omega)
    exact hcalls (h calls)
  · obtain ⟨calls, hcalls⟩ := exists_apart (m := total (w :: es))
      (n := itemSize e + total (w :: es) - tailSize (w :: es)) hn.2 (by omega) (by omega) hmax
      (Nat.le_of_add_left_le hfits) (.inr hpos)
    exact hcalls (h calls).symm

end apart

section main

theorem delete_end (h : Linked s (us ++ e :: vs)) (hend : us = [] ↔ vs ≠ []) :
    ∃ s', s.delete e.key = some (true, s') ∧
      Refines s' ⟨s.maxSize, sizeSub s.currentSize (tailSize (us ++ e :: vs)), us ++ vs⟩ := by
  have hn := h.nodup
  have hdel : Option.Rel Agree (s.delete e.key) _ := delete_refines h.refines
  simp only [Cache.delete, valueOf_split hn] at hdel
  rw [Cache.removeNode_split (c := ⟨s.maxSize, s.currentSize, us ++ e :: vs⟩) rfl hn,
    if_pos hend] at hdel
  exact agree_some hdel rfl

/-- Elsewhere the pointer surgery goes through a null pointer. -/
theorem delete_inside (h : Linked s (us ++ e :: vs)) (hend : ¬(us = [] ↔ vs ≠ [])) :
    s.delete e.key = none := by
  have hn := h.nodup
  have hdel : Option.Rel Agree (s.delete e.key) _ := delete_refines h.refines
  simp only [Cache.delete, valueOf_split hn] at hdel
  rw [Cache.removeNode_split (c := ⟨s.maxSize, s.currentSize, us ++ e :: vs⟩) rfl hn,
    if_neg hend] at hdel
  exact agree_none hdel rfl

theorem DeletesRight.tailSize_eq (h : DeletesRight us vs e) :
    tailSize (us ++ e :: vs) = itemSize e := by
  by_cases hu : us = []
  · have htail : tailSize (e :: vs) = tailSize vs := tailSize_append [e] (h.1.mp hu)
    rw [hu, List.nil_append, htail, h.2 hu]
  · have hvs : vs = [] := by
      by_contra hne
      exact hu (h.1.mpr hne)
    simp [hvs, tailSize]

/-- The counter of a store is no part of its list. -/
theorem Linked.recount {es : List Item} (h : Linked s es) (n : Nat) :
    Linked { s with currentSize := n } es :=
  ⟨h.forward, h.backward, ⟨h.rep.owns, h.rep.nodup, h.rep.index, h.rep.fresh⟩⟩

theorem deletes_of_right (h : Linked s (us ++ e :: vs)) (hd : DeletesRight us vs e) :
    Deletes s us vs e := by
  obtain ⟨s', hs', hr⟩ := delete_end h hd.1
  refine ⟨s', hs', hr.linked, ?_⟩
  intro t ht calls
  have htr := ht.linked.refines
  rw [ht.maxSize, ht.currentSize, ← hd.tailSize_eq] at htr
  rw [hr.outputs, htr.outputs]

theorem not_deletes_of_none (h : s.delete e.key = none) : ¬Deletes s us vs e := by
  intro hd
  obtain ⟨t, ht, -⟩ := hd
  cases h.symm.trans ht

theorem Deletes.at_end (h : Linked s (us ++ e :: vs)) (hd : Deletes s us vs e) :
    us = [] ↔ vs ≠ [] := by
  by_contra hend
  exact not_deletes_of_none (delete_inside h hend) hd

/-- The store that is left is compared with itself under the right counter. -/
theorem Deletes.sizes (hc : Counted s (e :: vs)) (hd : Deletes s [] vs e) (hne : vs ≠ []) :
    itemSize e = tailSize vs := by
  have hl : Linked s ([] ++ e :: vs) := hc.linked
  obtain ⟨s', hs', hr⟩ := delete_end hl (iff_of_true rfl hne)
  obtain ⟨t, ht, -, hsame⟩ := hd
  obtain rfl : s' = t := by simpa using hs'.symm.trans ht
  apply sizes_eq hc hne
  intro calls
  have hnever := hr.linked.recount (sizeSub s.currentSize (itemSize e))
  have hcalls := hsame _ ⟨hnever, hr.maxSize_eq, rfl⟩ calls
  have htail : tailSize (e :: vs) = tailSize vs := tailSize_append [e] hne
  rw [hr.outputs, hnever.refines.outputs, hr.maxSize_eq] at hcalls
  simpa only [List.nil_append, htail] using hcalls

/-- `Delete` takes out the entry when it stands at one end of the list and not at both, and the
store then behaves as if it had never been there when its size is the one subtracted. -/
theorem delete_iff (h : Linked s (us ++ e :: vs)) :
    ((∃ s', s.delete e.key = some (true, s') ∧ Linked s' (us ++ vs)) ↔ (us = [] ↔ vs ≠ [])) ∧
    (DeletesRight us vs e → Deletes s us vs e) ∧
    (Counted s (us ++ e :: vs) → (Deletes s us vs e ↔ DeletesRight us vs e)) := by
  refine ⟨⟨?_, ?_⟩, deletes_of_right h, ?_⟩
  · intro hex
    by_contra hend
    obtain ⟨t, ht, -⟩ := hex
    cases (delete_inside h hend).symm.trans ht
  · intro hend
    obtain ⟨s', hs', hr⟩ := delete_end h hend
    exact ⟨s', hs', hr.linked⟩
  · intro hc
    refine ⟨?_, deletes_of_right h⟩
    intro hd
    have hend := hd.at_end h
    refine ⟨hend, ?_⟩
    intro hu
    subst hu
    exact Deletes.sizes hc hd (hend.mp rfl)

/-- The oldest of two entries of one size. -/
theorem delete_oldest :
    ∃ s, Counted s ([] ++ ⟨[1], [2]⟩ :: [⟨[3], [4]⟩]) ∧ Deletes s [] [⟨[3], [4]⟩] ⟨[1], [2]⟩ := by
  obtain ⟨s, hs, -⟩ := exists_full_store
  exact ⟨s, hs, ((delete_iff hs.linked).2.2 hs).mpr ⟨by decide, by decide⟩⟩

/-- The only entry of a store cannot be deleted: the new head is written through a null pointer. -/
theorem delete_only :
    ∃ s, Counted s ([] ++ ⟨[1], [2]⟩ :: []) ∧ s.delete [1] = none ∧ ¬Deletes s [] [] ⟨[1], [2]⟩ := by
  obtain ⟨s, -, hr⟩ := run_refines_some [.put [1] [2]] (create_refines 4) rfl
  have hdel : Option.Rel Agree (s.delete [1]) _ := delete_refines hr
  have hnone : s.delete [1] = none := agree_none hdel rfl
  exact ⟨s, hr.counted ⟨by decide, by decide, rfl, by decide⟩, hnone, not_deletes_of_none hnone⟩

end main

end Sysprog.Storage
