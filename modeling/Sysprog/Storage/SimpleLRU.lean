import Sysprog.Lib.Bytes
import Sysprog.Lib.LinkedList
import Sysprog.Lib.KeyValue

namespace Sysprog.Storage

/-- `key` and `value` of a node. -/
abbrev Item := Entry Bytes Bytes

/-- `key.size() + value.size()`. Two strings never reach 2^64 bytes together. -/
def itemSize (e : Item) : Nat := e.key.length + e.value.length

/-- `lru_node`. -/
abbrev LruNode := Node Item

/-- `size_t` addition and subtraction wrap. -/
def sizeAdd (a b : Nat) : Nat := (a + b) % 2 ^ 64

def sizeSub (a b : Nat) : Nat := (a + (2 ^ 64 - b % 2 ^ 64)) % 2 ^ 64

structure SimpleLRU where
  maxSize : Nat
  currentSize : Nat
  lruHead : Option Addr
  lruTail : Option Addr
  lruIndex : Bytes → Option Addr
  heap : Heap Item
  /-- The address the next allocation returns. -/
  fresh : Addr

namespace SimpleLRU

def create (maxSize : UInt64) : SimpleLRU :=
  ⟨maxSize.toNat, 0, none, none, fun _ => none, fun _ => none, 0⟩

/-- Operations return `none` where the program dereferences a null or dangling pointer. -/
def deref (s : SimpleLRU) (p : Option Addr) : Option LruNode := p.bind s.heap

def setNext (s : SimpleLRU) (p q : Option Addr) : Option SimpleLRU := do
  let a ← p
  let n ← s.heap a
  return { s with heap := s.heap.store a { n with next := q } }

def setPrev (s : SimpleLRU) (p q : Option Addr) : Option SimpleLRU := do
  let a ← p
  let n ← s.heap a
  return { s with heap := s.heap.store a { n with prev := q } }

/-- A local `unique_ptr` goes out of scope. -/
def release (s : SimpleLRU) (p : Option Addr) : Option SimpleLRU := do
  let h ← s.heap.destroy s.fresh p
  return { s with heap := h }

/-- `_remove_node`. The size subtracted is that of the tail, whichever node is removed. -/
def removeNode (s : SimpleLRU) (nodeToDelete : Addr) : Option SimpleLRU := do
  let node ← s.heap nodeToDelete
  let tail ← s.deref s.lruTail
  let s := { s with
    lruIndex := Function.update s.lruIndex node.data.key none
    currentSize := sizeSub s.currentSize (itemSize tail.data) }
  if s.lruHead = some nodeToDelete then
    -- tmp.swap(_lru_head); _lru_head.swap(tmp->next)
    let tmp := s.lruHead
    let t ← s.deref tmp
    let s ← { s with lruHead := t.next }.setNext tmp none
    -- _lru_head->prev = nullptr
    let s ← s.setPrev s.lruHead none
    s.release tmp
  else if s.lruTail = some nodeToDelete then
    -- tmp.swap(_lru_tail->prev->next)
    let p ← s.deref tail.prev
    let tmp := p.next
    let s ← s.setNext tail.prev none
    -- _lru_tail = tmp->prev
    let t ← s.deref tmp
    let s := { s with lruTail := t.prev }
    -- _lru_tail->next.reset(nullptr)
    let q ← s.deref s.lruTail
    let s ← s.setNext s.lruTail none
    let s ← s.release q.next
    s.release tmp
  else
    -- tmp.swap(node_to_delete.prev->next)
    let p ← s.deref node.prev
    let tmp := p.next
    let s ← s.setNext node.prev none
    -- tmp->prev->next.swap(tmp->next)
    let t ← s.deref tmp
    let q ← s.deref t.prev
    let s ← s.setNext t.prev t.next
    let s ← s.setNext tmp q.next
    -- tmp->next->prev = tmp->prev
    let t ← s.deref tmp
    let s ← s.setPrev t.next t.prev
    s.release tmp

/-- First half of `_move_to_fresh_data`: the node leaves its place in the list. -/
def detach (s : SimpleLRU) (recentlyUsed : Addr) : Option SimpleLRU := do
  let node ← s.heap recentlyUsed
  if s.lruHead = some recentlyUsed then
    -- _lru_head.swap(recently_used.next): for a moment the node owns itself
    let s ← { s with lruHead := node.next }.setNext (some recentlyUsed) s.lruHead
    -- _lru_head->prev = nullptr
    s.setPrev s.lruHead none
  else
    -- recently_used.next->prev = recently_used.prev
    let s ← s.setPrev node.next node.prev
    -- recently_used.prev->next.swap(recently_used.next)
    let p ← s.deref node.prev
    let n ← s.heap recentlyUsed
    let s ← s.setNext node.prev n.next
    s.setNext (some recentlyUsed) p.next

/-- Second half of `_move_to_fresh_data`: the node becomes the tail. -/
def attach (s : SimpleLRU) (recentlyUsed : Addr) : Option SimpleLRU := do
  -- _lru_tail->next.swap(recently_used.next)
  let t ← s.deref s.lruTail
  let n ← s.heap recentlyUsed
  let s ← s.setNext s.lruTail n.next
  let s ← s.setNext (some recentlyUsed) t.next
  -- recently_used.prev = _lru_tail; _lru_tail = &recently_used
  let s ← s.setPrev (some recentlyUsed) s.lruTail
  return { s with lruTail := some recentlyUsed }

/-- `_move_to_fresh_data`. -/
def moveToFreshData (s : SimpleLRU) (recentlyUsed : Addr) : Option SimpleLRU :=
  if s.lruTail = some recentlyUsed then some s
  else do
    let s ← s.detach recentlyUsed
    s.attach recentlyUsed

/-- `while (full) _remove_node(*_lru_head)`; every round frees one of the allocated nodes. -/
def evictWhile (full : SimpleLRU → Bool) : Nat → SimpleLRU → Option SimpleLRU
  | 0, _ => none
  | fuel + 1, s =>
    if full s then do
      let head ← s.lruHead
      let s ← s.removeNode head
      evictWhile full fuel s
    else some s

/-- The part of `_insert_new_value` after its loop. -/
def appendNewNode (s : SimpleLRU) (key value : Bytes) : Option SimpleLRU := do
  let newNode := s.fresh
  let s := { s with
    fresh := s.fresh + 1
    heap := s.heap.store newNode ⟨⟨key, value⟩, none, none⟩ }
  let s ←
    if s.lruTail ≠ none then do
      -- new_node->prev = _lru_tail
      let s ← s.setPrev (some newNode) s.lruTail
      -- _lru_tail->next.swap(new_node)
      let t ← s.deref s.lruTail
      let s ← s.setNext s.lruTail (some newNode)
      -- _lru_tail = _lru_tail->next.get()
      let t' ← s.deref s.lruTail
      let s := { s with lruTail := t'.next }
      s.release t.next
    else do
      -- _lru_tail = new_node.get(); _lru_head.swap(new_node)
      let tmp := s.lruHead
      let s := { s with lruTail := some newNode, lruHead := some newNode }
      s.release tmp
  let tail ← s.lruTail
  return { s with
    lruIndex :=
      if (s.lruIndex key).isNone then Function.update s.lruIndex key (some tail) else s.lruIndex
    currentSize := sizeAdd s.currentSize (key.length + value.length) }

/-- `_insert_new_value`. -/
def insertNewValue (s : SimpleLRU) (key value : Bytes) : Option SimpleLRU := do
  let s ← s.evictWhile
    (fun s => s.currentSize > sizeSub (sizeSub s.maxSize key.length) value.length) (s.fresh + 1)
  s.appendNewNode key value

/-- `_update_value`. -/
def updateValue (s : SimpleLRU) (updateNode : Addr) (newValue : Bytes) : Option SimpleLRU := do
  let node ← s.heap updateNode
  let deltaSize := sizeSub newValue.length node.data.value.length
  let s ← s.evictWhile (fun s => sizeAdd s.currentSize deltaSize > s.maxSize) (s.fresh + 1)
  let node ← s.heap updateNode
  let s := { s with heap := s.heap.store updateNode { node with data := ⟨node.data.key, newValue⟩ } }
  let s ← s.moveToFreshData updateNode
  return { s with currentSize := sizeAdd s.currentSize deltaSize }

def put (s : SimpleLRU) (key value : Bytes) : Option (Bool × SimpleLRU) :=
  if key.length + value.length > s.maxSize then some (false, s)
  else
    match s.lruIndex key with
    | none => (s.insertNewValue key value).map fun s => (true, s)
    | some it => (s.updateValue it value).map fun s => (true, s)

def putIfAbsent (s : SimpleLRU) (key value : Bytes) : Option (Bool × SimpleLRU) :=
  if key.length + value.length > s.maxSize then some (false, s)
  else
    match s.lruIndex key with
    | none => (s.insertNewValue key value).map fun s => (true, s)
    | some _ => some (false, s)

def set (s : SimpleLRU) (key value : Bytes) : Option (Bool × SimpleLRU) :=
  if value.length + key.length > s.maxSize then some (false, s)
  else
    match s.lruIndex key with
    | none => some (false, s)
    | some it => (s.updateValue it value).map fun s => (true, s)

def delete (s : SimpleLRU) (key : Bytes) : Option (Bool × SimpleLRU) :=
  match s.lruIndex key with
  | none => some (false, s)
  | some it => (s.removeNode it).map fun s => (true, s)

/-- `value` is the caller's variable; it keeps its content when the key is absent. -/
def get (s : SimpleLRU) (key value : Bytes) : Option ((Bool × Bytes) × SimpleLRU) :=
  match s.lruIndex key with
  | none => some ((false, value), s)
  | some it => do
    let node ← s.heap it
    let s ← s.moveToFreshData it
    return ((true, node.data.value), s)

def call : Call Bytes Bytes → SimpleLRU → Option (Reply Bytes × SimpleLRU)
  | .put k v, s => (s.put k v).map fun (b, s) => (.done b, s)
  | .putIfAbsent k v, s => (s.putIfAbsent k v).map fun (b, s) => (.done b, s)
  | .set k v, s => (s.set k v).map fun (b, s) => (.done b, s)
  | .delete k, s => (s.delete k).map fun (b, s) => (.done b, s)
  | .get k v, s => (s.get k v).map fun ((b, w), s) => (.got b w, s)

end SimpleLRU

end Sysprog.Storage
