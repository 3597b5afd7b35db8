import Sysprog.Storage.SimpleLRU
import Mathlib.Data.Option.Basic

namespace Sysprog.Storage

/-- What a `SimpleLRU` amounts to once its pointers are forgotten: the counter it keeps and its
entries from the oldest to the freshest. -/
structure Cache where
  maxSize : Nat
  currentSize : Nat
  entries : List Item

/-- Sum of the sizes of all entries. -/
def total (es : List Item) : Nat := (es.map itemSize).sum

/-- Size of the freshest entry. -/
def tailSize (es : List Item) : Nat := (es.getLast?.map itemSize).getD 0

namespace Cache

/-- `_remove_node` on the entry of a key. Only the two ends of a list of two or more can be
taken out; elsewhere the pointer surgery runs into a null pointer. -/
def removeNode (c : Cache) (key : Bytes) : Option Cache :=
  let cur := sizeSub c.currentSize (tailSize c.entries)
  if c.entries.length < 2 then none
  else if c.entries.head?.map Entry.key = some key then
    some { c with entries := c.entries.tail, currentSize := cur }
  else if c.entries.getLast?.map Entry.key = some key then
    some { c with entries := c.entries.dropLast, currentSize := cur }
  else none

/-- The eviction loops: from the oldest entry on, and never the last one left. -/
def evictWhile (full : Nat → Bool) : Nat → List Item → Option (Nat × List Item)
  | cur, e :: f :: es =>
    if full cur then evictWhile full (sizeSub cur (tailSize (f :: es))) (f :: es)
    else some (cur, e :: f :: es)
  | cur, es => if full cur then none else some (cur, es)

def insertNewValue (c : Cache) (key value : Bytes) : Option Cache := do
  let (cur, es) ← evictWhile
    (fun cur => cur > sizeSub (sizeSub c.maxSize key.length) value.length) c.currentSize c.entries
  return { c with
    entries := es ++ [⟨key, value⟩]
    currentSize := sizeAdd cur (key.length + value.length) }

def updateValue (c : Cache) (key old newValue : Bytes) : Option Cache := do
  let deltaSize := sizeSub newValue.length old.length
  let (cur, es) ← evictWhile (fun cur => sizeAdd cur deltaSize > c.maxSize) c.currentSize c.entries
  if key ∈ keys es then
    return { c with entries := touch key newValue es, currentSize := sizeAdd cur deltaSize }
  else none

def put (c : Cache) (key value : Bytes) : Option (Bool × Cache) :=
  if key.length + value.length > c.maxSize then some (false, c)
  else
    match valueOf key c.entries with
    | none => (c.insertNewValue key value).map fun c => (true, c)
    | some old => (c.updateValue key old value).map fun c => (true, c)

def putIfAbsent (c : Cache) (key value : Bytes) : Option (Bool × Cache) :=
  if key.length + value.length > c.maxSize then some (false, c)
  else
    match valueOf key c.entries with
    | none => (c.insertNewValue key value).map fun c => (true, c)
    | some _ => some (false, c)

def set (c : Cache) (key value : Bytes) : Option (Bool × Cache) :=
  if value.length + key.length > c.maxSize then some (false, c)
  else
    match valueOf key c.entries with
    | none => some (false, c)
    | some old => (c.updateValue key old value).map fun c => (true, c)

def delete (c : Cache) (key : Bytes) : Option (Bool × Cache) :=
  match valueOf key c.entries with
  | none => some (false, c)
  | some _ => (c.removeNode key).map fun c => (true, c)

def get (c : Cache) (key value : Bytes) : Option ((Bool × Bytes) × Cache) :=
  match valueOf key c.entries with
  | none => some ((false, value), c)
  | some v => some ((true, v), { c with entries := touch key v c.entries })

def call : Call Bytes Bytes → Cache → Option (Reply Bytes × Cache)
  | .put k v, c => (c.put k v).map fun (b, c) => (.done b, c)
  | .putIfAbsent k v, c => (c.putIfAbsent k v).map fun (b, c) => (.done b, c)
  | .set k v, c => (c.set k v).map fun (b, c) => (.done b, c)
  | .delete k, c => (c.delete k).map fun (b, c) => (.done b, c)
  | .get k v, c => (c.get k v).map fun ((b, w), c) => (.got b w, c)

theorem removeNode_head {c : Cache} {e : Item} (f : Item) (es : List Item) (h : c.entries = e :: f :: es) :
    c.removeNode e.key =
      some { c with entries := f :: es, currentSize := sizeSub c.currentSize (tailSize (f :: es)) } := by
  simp [removeNode, h, tailSize]

private theorem head_key_ne {e : Item} {es fs : List Item} (hs : es ≠ [])
    (h : (keys (es ++ e :: fs)).Nodup) : (es ++ e :: fs).head?.map Entry.key ≠ some e.key := by
  cases es with
  | nil => exact absurd rfl hs
  | cons x es =>
    simp only [keys, List.cons_append, List.map_cons, List.nodup_cons] at h
    intro he
    exact h.1 (by simp_all)

theorem removeNode_tail {c : Cache} {e : Item} (f : Item) (es : List Item) (h : c.entries = es ++ [f, e])
    (hn : (keys c.entries).Nodup) :
    c.removeNode e.key =
      some { c with entries := es ++ [f], currentSize := sizeSub c.currentSize (itemSize e) } := by
  have hs : c.entries = (es ++ [f]) ++ [e] := by simp [h]
  have hh := head_key_ne (by simp) (hs ▸ hn)
  have hl : ¬ c.entries.length < 2 := by simp [h]
  rw [← hs] at hh
  simp only [removeNode, if_neg hl, if_neg hh]
  simp [hs, tailSize]

theorem removeNode_middle {c : Cache} {e : Item} (f g : Item) (es fs : List Item)
    (h : c.entries = es ++ f :: e :: g :: fs) (hn : (keys c.entries).Nodup) :
    c.removeNode e.key = none := by
  have hs : c.entries = (es ++ [f]) ++ e :: (g :: fs) := by simp [h]
  have hh := head_key_ne (by simp) (hs ▸ hn)
  rw [← hs] at hh
  have ht : c.entries.getLast?.map Entry.key ≠ some e.key := by
    intro he
    have hm : e.key ∈ keys (g :: fs) := by
      rw [hs, List.getLast?_append_of_ne_nil _ (by simp), List.getLast?_cons_cons] at he
      obtain ⟨x, hx, hk⟩ := Option.map_eq_some_iff.mp he
      exact hk ▸ List.mem_map_of_mem (List.mem_of_getLast? hx)
    rw [hs] at hn
    simp only [keys, List.map_append, List.map_cons, List.nodup_append, List.nodup_cons] at hn
    exact hn.2.1.1 hm
  simp only [removeNode, if_neg hh, if_neg ht, ite_self]

end Cache

end Sysprog.Storage
