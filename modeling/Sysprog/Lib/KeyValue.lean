import Mathlib.Tactic
import Mathlib.Data.List.Dedup

namespace Sysprog

structure Entry (κ ν : Type) where
  key : κ
  value : ν
  deriving DecidableEq

/-- The calls of a key-value store. `get` carries what the caller's variable holds beforehand. -/
inductive Call (κ ν : Type) where
  | put (key : κ) (value : ν)
  | putIfAbsent (key : κ) (value : ν)
  | set (key : κ) (value : ν)
  | delete (key : κ)
  | get (key : κ) (value : ν)

inductive Reply (ν : Type) where
  | done (ok : Bool)
  | got (ok : Bool) (value : ν)
  deriving DecidableEq

def Call.key {κ ν : Type} : Call κ ν → κ
  | put k _ | putIfAbsent k _ | set k _ | delete k | get k _ => k

def Reply.ok {ν : Type} : Reply ν → Bool
  | done b | got b _ => b

variable {κ ν : Type}

def keys (es : List (Entry κ ν)) : List κ := es.map Entry.key

@[simp] theorem keys_nil : keys ([] : List (Entry κ ν)) = [] := rfl

@[simp] theorem keys_cons (e : Entry κ ν) (es : List (Entry κ ν)) :
    keys (e :: es) = e.key :: keys es := rfl

@[simp] theorem keys_append (es fs : List (Entry κ ν)) : keys (es ++ fs) = keys es ++ keys fs := by
  simp [keys]

variable [DecidableEq κ] {key : κ} {value : ν} {e : Entry κ ν} {es fs : List (Entry κ ν)}

def valueOf (key : κ) (es : List (Entry κ ν)) : Option ν :=
  (es.find? fun e => e.key = key).map Entry.value

/-- The entry of the key becomes the last one, with the value given. -/
def touch (key : κ) (value : ν) (es : List (Entry κ ν)) : List (Entry κ ν) :=
  es.filter (fun e => e.key ≠ key) ++ [⟨key, value⟩]

theorem valueOf_eq_none : valueOf key es = none ↔ key ∉ keys es := by
  simp [valueOf, keys]

theorem valueOf_append (h : key ∉ keys es) : valueOf key (es ++ fs) = valueOf key fs := by
  have hn : es.find? (fun e => e.key = key) = none := by simpa [valueOf] using valueOf_eq_none.mpr h
  simp [valueOf, List.find?_append, hn]

theorem valueOf_head (e : Entry κ ν) (es : List (Entry κ ν)) :
    valueOf e.key (e :: es) = some e.value := by
  simp [valueOf]

theorem valueOf_split (h : (keys (es ++ e :: fs)).Nodup) :
    valueOf e.key (es ++ e :: fs) = some e.value := by
  have hn : e.key ∉ keys es := by
    simp only [keys_append, keys_cons, List.nodup_append] at h
    exact fun hm => h.2.2 e.key hm e.key (by simp) rfl
  rw [valueOf_append hn]
  simp [valueOf]

theorem valueOf_mem (h : valueOf key es = some value) : ⟨key, value⟩ ∈ es := by
  simp only [valueOf, Option.map_eq_some_iff] at h
  obtain ⟨e, he, rfl⟩ := h
  have hk : e.key = key := by simpa using List.find?_some he
  exact hk ▸ List.mem_of_find?_eq_some he

theorem mem_keys_of_valueOf (h : valueOf key es = some value) : key ∈ keys es :=
  List.mem_map.mpr ⟨_, valueOf_mem h, rfl⟩

theorem valueOf_eq_some (hn : (keys es).Nodup) : valueOf key es = some value ↔ ⟨key, value⟩ ∈ es := by
  refine ⟨valueOf_mem, fun hm => ?_⟩
  obtain ⟨us, vs, rfl⟩ := List.append_of_mem hm
  exact valueOf_split hn

/-- Order does not matter to a map. -/
theorem valueOf_perm (hn : (keys es).Nodup) (hp : es.Perm fs) : valueOf key es = valueOf key fs := by
  have hn' : (keys fs).Nodup := (hp.map Entry.key).nodup_iff.mp hn
  cases h : valueOf key fs with
  | none =>
    rw [valueOf_eq_none] at h ⊢
    exact fun hm => h ((hp.map Entry.key).mem_iff.mp hm)
  | some v => exact (valueOf_eq_some hn).mpr (hp.mem_iff.mpr ((valueOf_eq_some hn').mp h))

theorem touch_split (value : ν) (h : (keys (es ++ e :: fs)).Nodup) :
    touch e.key value (es ++ e :: fs) = es ++ fs ++ [⟨e.key, value⟩] := by
  simp only [keys, List.map_append, List.map_cons, List.nodup_append, List.nodup_cons] at h
  have he : es.filter (fun x => x.key ≠ e.key) = es := by
    apply List.filter_eq_self.mpr
    intro x hx
    simpa using h.2.2 x.key (List.mem_map_of_mem hx) e.key (by simp)
  have hf : fs.filter (fun x => x.key ≠ e.key) = fs := by
    apply List.filter_eq_self.mpr
    intro x hx
    have hne : x.key ≠ e.key := fun hk => h.2.1.1 (hk ▸ List.mem_map_of_mem hx)
    simpa using hne
  rw [touch, List.filter_append, List.filter_cons_of_neg (by simp), he, hf]

theorem touch_of_notMem (h : key ∉ keys es) : touch key value es = es ++ [⟨key, value⟩] := by
  have he : es.filter (fun x => x.key ≠ key) = es := by
    apply List.filter_eq_self.mpr
    intro x hx
    have hne : x.key ≠ key := fun hk => h (hk ▸ List.mem_map_of_mem hx)
    simpa using hne
  rw [touch, he]

/-- Touching a key with its own value only reorders. -/
theorem touch_perm (hn : (keys es).Nodup) (h : valueOf key es = some value) :
    (touch key value es).Perm es := by
  obtain ⟨us, vs, rfl⟩ := List.append_of_mem (valueOf_mem h)
  rw [touch_split value hn, List.append_assoc]
  exact (List.perm_append_singleton _ _).append_left us

theorem valueOf_touch (es : List (Entry κ ν)) : valueOf key (touch key value es) = some value := by
  have hn : key ∉ keys (es.filter fun e => e.key ≠ key) := by simp [keys]
  rw [touch, valueOf_append hn]
  simp [valueOf]

theorem keys_touch : keys (touch key value es) = (keys es).filter (fun k => k ≠ key) ++ [key] := by
  simp [touch, keys, List.filter_map, Function.comp_def]

theorem nodup_touch (h : (keys es).Nodup) : (keys (touch key value es)).Nodup := by
  rw [keys_touch]
  refine List.nodup_append.mpr ⟨h.filter _, by simp, ?_⟩
  intro k hk j hj
  rw [List.mem_singleton.mp hj]
  simpa using (List.mem_filter.mp hk).2

/-- Appending a key to an access history moves it to the end of the order of last accesses. -/
theorem dedup_concat (ks : List κ) (k : κ) :
    (ks ++ [k]).dedup = ks.dedup.filter (fun j => j ≠ k) ++ [k] := by
  induction ks with
  | nil => simp
  | cons j ks ih =>
    by_cases hj : j ∈ ks
    · rw [List.cons_append, List.dedup_cons_of_mem (by simp [hj]), List.dedup_cons_of_mem hj, ih]
    · by_cases he : j = k
      · subst he
        rw [List.cons_append, List.dedup_cons_of_mem (by simp), List.dedup_cons_of_notMem hj, ih,
          List.filter_cons_of_neg (by simp)]
      · rw [List.cons_append, List.dedup_cons_of_notMem (by simp [hj, he]),
          List.dedup_cons_of_notMem hj, ih, List.filter_cons_of_pos (by simp [he]), List.cons_append]

/-- The least recently used cache of a fixed number of entries, oldest first. -/
structure Lru (κ ν : Type) where
  capacity : Nat
  entries : List (Entry κ ν)

namespace Lru

/-- Insertion of an absent key; a full cache first loses its oldest entry. -/
def insert (c : Lru κ ν) (key : κ) (value : ν) : Lru κ ν :=
  { c with
    entries := (if c.entries.length < c.capacity then c.entries else c.entries.tail) ++ [⟨key, value⟩] }

def call : Call κ ν → Lru κ ν → Reply ν × Lru κ ν
  | .put k v, c =>
    match valueOf k c.entries with
    | none => (.done true, c.insert k v)
    | some _ => (.done true, { c with entries := touch k v c.entries })
  | .putIfAbsent k v, c =>
    match valueOf k c.entries with
    | none => (.done true, c.insert k v)
    | some _ => (.done false, c)
  | .set k v, c =>
    match valueOf k c.entries with
    | none => (.done false, c)
    | some _ => (.done true, { c with entries := touch k v c.entries })
  | .delete k, c =>
    match valueOf k c.entries with
    | none => (.done false, c)
    | some _ => (.done true, { c with entries := c.entries.filter fun e => e.key ≠ k })
  | .get k v, c =>
    match valueOf k c.entries with
    | none => (.got false v, c)
    | some w => (.got true w, { c with entries := touch k w c.entries })

end Lru

/-- A map that holds every pair `admits` lets in, and the keys of its successful calls. -/
structure PlainMap (κ ν : Type) where
  entries : List (Entry κ ν)
  accesses : List κ

namespace PlainMap

def assign (key : κ) (value : ν) (es : List (Entry κ ν)) : List (Entry κ ν) :=
  if key ∈ keys es then es.map fun e => if e.key = key then ⟨key, value⟩ else e
  else es ++ [⟨key, value⟩]

def call (admits : κ → ν → Bool) : Call κ ν → PlainMap κ ν → Reply ν × PlainMap κ ν
  | .put k v, m =>
    if admits k v then (.done true, ⟨assign k v m.entries, m.accesses ++ [k]⟩) else (.done false, m)
  | .putIfAbsent k v, m =>
    if admits k v ∧ k ∉ keys m.entries then
      (.done true, ⟨assign k v m.entries, m.accesses ++ [k]⟩)
    else (.done false, m)
  | .set k v, m =>
    if admits k v ∧ k ∈ keys m.entries then
      (.done true, ⟨assign k v m.entries, m.accesses ++ [k]⟩)
    else (.done false, m)
  | .delete k, m =>
    if k ∈ keys m.entries then
      (.done true, ⟨m.entries.filter fun e => e.key ≠ k, m.accesses.filter fun j => j ≠ k⟩)
    else (.done false, m)
  | .get k v, m =>
    match valueOf k m.entries with
    | none => (.got false v, m)
    | some w => (.got true w, ⟨m.entries, m.accesses ++ [k]⟩)

theorem map_of_notMem (value : ν) (h : key ∉ keys es) :
    es.map (fun e => if e.key = key then ⟨key, value⟩ else e) = es := by
  calc
    es.map (fun e => if e.key = key then ⟨key, value⟩ else e) = es.map id := by
      apply List.map_congr_left
      intro e he
      have hne : e.key ≠ key := fun hk => h (hk ▸ List.mem_map_of_mem he)
      simp [hne]
    _ = es := List.map_id es

/-- Assignment holds the pairs that a recency list holds after touching the key. -/
theorem touch_perm_assign (hn : (keys es).Nodup) (hp : es.Perm fs) :
    (touch key value es).Perm (assign key value fs) := by
  have hn' : (keys fs).Nodup := (hp.map Entry.key).nodup_iff.mp hn
  have ht : (touch key value es).Perm (touch key value fs) := (hp.filter _).append_right _
  apply ht.trans
  by_cases hk : key ∈ keys fs
  · obtain ⟨e, he, rfl⟩ := List.mem_map.mp hk
    obtain ⟨us, vs, rfl⟩ := List.append_of_mem he
    have hn1 := hn'
    simp only [keys_append, keys_cons, List.nodup_append, List.nodup_cons] at hn1
    have hu : e.key ∉ keys us := fun hm => hn1.2.2 e.key hm e.key (by simp) rfl
    rw [touch_split value hn', assign, if_pos hk, List.map_append, List.map_cons, if_pos rfl,
      map_of_notMem value hu, map_of_notMem value hn1.2.1.1, List.append_assoc]
    exact (List.perm_append_singleton _ _).append_left us
  · rw [touch_of_notMem hk, assign, if_neg hk]

end PlainMap

end Sysprog
