import Sysprog.Storage.Refinement

namespace Sysprog.Storage

namespace SimpleLRU

/-- `while (_lru_head->next != nullptr)`: the first node leaves the list, and `node_to_delete` deletes
it at the end of the round. A `unique_ptr` runs the destructor of what it owns, which runs that of
`next`, and so on: `depth` bounds how deep these calls may nest. -/
def deleteWhile (depth : Nat) : Nat → SimpleLRU → Option SimpleLRU
  | 0, _ => none
  | fuel + 1, s => do
    let head ← s.deref s.lruHead
    if head.next ≠ none then do
      -- node_to_delete.swap(_lru_head)
      let nodeToDelete := s.lruHead
      let s := { s with lruHead := none }
      -- _lru_head.swap(node_to_delete->next)
      let n ← s.deref nodeToDelete
      let s ← { s with lruHead := n.next }.setNext nodeToDelete s.lruHead
      let h ← s.heap.destroy depth nodeToDelete
      deleteWhile depth fuel { s with heap := h }
    else some s

/-- `~SimpleLRU`. -/
def destructor (depth : Nat) (s : SimpleLRU) : Option SimpleLRU :=
  if s.lruHead = none then some s
  else do
    let s ← { s with lruIndex := fun _ => none }.deleteWhile depth (s.fresh + 1)
    -- _lru_head.reset()
    let h ← s.heap.destroy depth s.lruHead
    return { s with lruHead := none, heap := h }

end SimpleLRU

/-- What is left of a list while it is deleted from its head: the first node may still point back
to one that is gone. -/
structure Remains (h : Heap Item) (hd : Option Addr) (xs : List (Addr × Item)) : Prop where
  seg : ∃ p, Seg h p xs none
  head : hd = first xs none
  nodup : (addrs xs).Nodup
  only : ∀ a, a ∉ addrs xs → h a = none

namespace Remains

variable {h : Heap Item} {hd : Option Addr} {xs : List (Addr × Item)} {a : Addr} {d : Item}
  {depth : Nat}

theorem of_owns {tl : Option Addr} (o : Owns h hd tl xs) : Remains h hd xs :=
  ⟨⟨none, o.seg⟩, o.head_eq, o.nodup, o.only⟩

theorem read (r : Remains h hd ((a, d) :: xs)) : ∃ p, h a = some ⟨d, first xs none, p⟩ := by
  obtain ⟨p, hs⟩ := r.seg
  exact ⟨p, hs.1⟩

/-- The first node goes; whatever its links were set to before, the rest stays a list. -/
theorem rest (r : Remains h hd ((a, d) :: xs)) {h' : Heap Item} (ha : h' a = none)
    (hsame : ∀ b, b ≠ a → h' b = h b) : Remains h' (first xs none) xs := by
  obtain ⟨p, hs⟩ := r.seg
  obtain ⟨hax, hx⟩ := List.nodup_cons.mp r.nodup
  refine ⟨⟨some a, ?_⟩, rfl, hx, ?_⟩
  · apply seg_congr hs.2
    intro b hb
    exact hsame b (ne_of_mem_of_not_mem hb hax)
  · intro b hb
    by_cases hba : b = a
    · rw [hba, ha]
    · rw [hsame b hba]
      apply r.only
      simp [hba, hb]

/-- The destructor of the owning pointer alone nests as deep as the list is long. -/
theorem destroy_eq (r : Remains h hd xs) (depth : Nat) :
    h.destroy depth hd = if xs.length ≤ depth then some fun _ => none else none := by
  induction xs generalizing h hd depth with
  | nil =>
    have hnone : h = fun _ => none := funext fun a => r.only a (by simp)
    rw [r.head, hnone]
    cases depth <;> rfl
  | cons x xs ih =>
    obtain ⟨a, d⟩ := x
    obtain ⟨p, ha⟩ := r.read
    rw [r.head]
    cases depth with
    | zero => rfl
    | succ depth =>
      have hrest := ih (r.rest (h.free_self a) fun b hb => h.free_ne hb) depth
      simpa [Heap.destroy, ha] using hrest

end Remains

namespace SimpleLRU

variable {s : SimpleLRU} {xs : List (Addr × Item)} {depth : Nat}

/-- The loop leaves the last node, with no call nested in another. -/
theorem deleteWhile_spec {x : Addr × Item} (hd : 0 < depth) (fuel : Nat)
    (r : Remains s.heap s.lruHead (x :: xs)) (hf : xs.length < fuel) :
    ∃ s' y, s.deleteWhile depth fuel = some s' ∧ Remains s'.heap s'.lruHead [y] ∧
      s'.lruIndex = s.lruIndex := by
  induction xs generalizing s x fuel with
  | nil =>
    obtain ⟨a, d⟩ := x
    obtain ⟨fuel, rfl⟩ : ∃ k, fuel = k + 1 := Nat.exists_eq_add_one.mpr hf
    obtain ⟨p, ha⟩ := r.read
    refine ⟨s, (a, d), ?_, r, rfl⟩
    have hhead : s.lruHead = some a := r.head
    simp [deleteWhile, hhead, ha]
  | cons y xs ih =>
    obtain ⟨a, d⟩ := x
    obtain ⟨b, e⟩ := y
    obtain ⟨fuel, rfl⟩ : ∃ k, fuel = k + 1 := Nat.exists_eq_add_one.mpr (Nat.zero_lt_of_lt hf)
    obtain ⟨depth, rfl⟩ : ∃ k, depth = k + 1 := Nat.exists_eq_add_one.mpr hd
    obtain ⟨p, ha⟩ := r.read
    have hhead : s.lruHead = some a := r.head
    let h := (s.heap.store a ⟨d, none, p⟩).free a
    have hrest : Remains h (some b) ((b, e) :: xs) := by
      apply r.rest ((s.heap.store a ⟨d, none, p⟩).free_self a)
      intro c hc
      rw [Heap.free_ne _ hc, Heap.store_ne _ _ hc]
    obtain ⟨s', y, hs', hr', hi⟩ := ih (s := { s with lruHead := some b, heap := h }) fuel hrest
      (Nat.lt_of_succ_lt_succ hf)
    refine ⟨s', y, ?_, hr', hi⟩
    have hfree : Heap.destroy (depth + 1) (s.heap.store a ⟨d, none, p⟩) (some a) = some h :=
      Heap.destroy_last depth (Heap.store_self _ a _) rfl
    simp [deleteWhile, hhead, ha, setNext, deref, hfree, hs']

/-- On a well-formed state, the destructor of the class needs no nesting. -/
theorem destructor_spec (r : Rep s xs) (hd : 0 < depth) :
    ∃ s', s.destructor depth = some s' ∧ s'.heap = (fun _ => none) ∧ s'.lruHead = none ∧
      s'.lruIndex = fun _ => none := by
  cases xs with
  | nil =>
    have hhead : s.lruHead = none := r.owns.head_eq
    have hindex : s.lruIndex = fun _ => none := by
      funext k
      apply Option.eq_none_iff_forall_ne_some.mpr
      intro a ha
      obtain ⟨v, hm⟩ := (r.index k a).mp ha
      cases hm
    exact ⟨s, by simp [destructor, hhead], funext fun a => r.owns.only a (by simp), hhead, hindex⟩
  | cons x xs =>
    obtain ⟨a, d⟩ := x
    have hhead : s.lruHead ≠ none := by simp [r.owns.head_eq]
    have hlen := r.length_le
    obtain ⟨s', y, hs', hr', hindex⟩ := deleteWhile_spec (s := { s with lruIndex := fun _ => none }) hd
      (s.fresh + 1) (.of_owns r.owns) (by simp only [List.length_cons] at hlen; omega)
    have hlast := hr'.destroy_eq depth
    rw [if_pos (show [y].length ≤ depth from hd)] at hlast
    refine ⟨{ s' with lruHead := none, heap := fun _ => none }, ?_, rfl, rfl, hindex⟩
    simp [destructor, hhead, hs', hlast]

end SimpleLRU

/-- Whatever was done with a cache: its destructor deletes every node once, leaves nothing
allocated, and never runs one destructor inside another. The destructor of `_lru_head` alone would
delete the same nodes, but only on a stack that has room for as many calls as there are nodes. -/
theorem destructor_frees (maxSize : UInt64) (calls : List (Call Bytes Bytes)) (depth : Nat)
    {replies : List (Reply Bytes)} {s : SimpleLRU}
    (hr : run SimpleLRU.call calls (.create maxSize) = some (replies, s)) :
    (0 < depth → ∃ s', s.destructor depth = some s' ∧ s'.heap = (fun _ => none) ∧
      s'.lruHead = none ∧ s'.lruIndex = fun _ => none) ∧
    s.heap.destroy depth s.lruHead =
      if s.nodes.length ≤ depth then some fun _ => none else none := by
  have h := run_rel SimpleLRU.call Cache.call Refines (fun a s c h => call_refines a h) calls
    (create_refines maxSize)
  rw [hr] at h
  generalize run Cache.call calls _ = y at h
  cases h with
  | some h =>
    obtain ⟨xs, r, -⟩ := h.2
    refine ⟨SimpleLRU.destructor_spec r, ?_⟩
    rw [r.nodes_eq]
    exact (Remains.of_owns r.owns).destroy_eq depth

/-- Two pairs: their nodes are deleted one by one, without the loop the stack has to hold two calls. -/
theorem destructor_frees_two :
    ∃ s, run SimpleLRU.call [.put [1] [2], .put [3] [4]] (.create 8) =
        some ([.done true, .done true], s) ∧
      (∃ s', s.destructor 1 = some s' ∧ s'.heap = (fun _ => none) ∧ s'.lruHead = none ∧
        s'.lruIndex = fun _ => none) ∧
      s.heap.destroy 1 s.lruHead = if s.nodes.length ≤ 1 then some fun _ => none else none := by
  obtain ⟨s, hr, -⟩ := run_refines_some [.put [1] [2], .put [3] [4]] (create_refines 8) rfl
  obtain ⟨hloop, hplain⟩ := destructor_frees 8 [.put [1] [2], .put [3] [4]] 1 hr
  exact ⟨s, hr, hloop (by decide), hplain⟩

end Sysprog.Storage
