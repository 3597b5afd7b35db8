import Sysprog.Storage.Cache
import Sysprog.Lib.Run

namespace Sysprog.Storage

namespace SimpleLRU

variable {s : SimpleLRU} {a b : Addr} {n : LruNode} {p q : Option Addr}

theorem setNext_some (h : s.heap a = some n) :
    s.setNext (some a) q = some { s with heap := s.heap.store a { n with next := q } } := by
  simp [setNext, h]

theorem setPrev_some (h : s.heap a = some n) :
    s.setPrev (some a) q = some { s with heap := s.heap.store a { n with prev := q } } := by
  simp [setPrev, h]

@[simp] theorem setPrev_none : s.setPrev none q = none := rfl

@[simp] theorem deref_some : s.deref (some a) = s.heap a := rfl

@[simp] theorem release_none : s.release none = some s := by
  cases h : s.fresh <;> simp [release, Heap.destroy]

theorem release_some (h : s.heap a = some n) (hn : n.next = none) (hf : a < s.fresh) :
    s.release (some a) = some { s with heap := s.heap.free a } := by
  obtain ⟨k, hk⟩ := Nat.exists_eq_add_one_of_ne_zero (Nat.ne_of_gt (Nat.zero_lt_of_lt hf))
  simp [release, hk, Heap.destroy_last k h hn]

/-- Second half: a node outside the list becomes its tail. -/
theorem attach_spec {xs : List (Addr × Item)} {d : Item} (hx : xs ≠ [])
    (o : Owns (s.heap.free a) s.lruHead s.lruTail xs)
    (ha : s.heap a = some ⟨d, some a, p⟩) :
    ∃ h, s.attach a = some { s with heap := h, lruTail := some a } ∧
      Owns h s.lruHead (some a) (xs ++ [(a, d)]) := by
  obtain ⟨ws, ⟨t, g⟩, rfl⟩ : ∃ ws x, xs = ws ++ [x] :=
    ⟨xs.dropLast, xs.getLast hx, (List.dropLast_append_getLast hx).symm⟩
  have ht : s.lruTail = some t := by simpa using o.tail_eq
  have hg := (seg_last o.seg).1
  have hta : t ≠ a := by
    intro heq
    subst heq
    simp at hg
  rw [Heap.free_ne _ hta] at hg
  refine ⟨((s.heap.store t ⟨g, some a, last none ws⟩).store a ⟨d, none, p⟩).store a
    ⟨d, none, some t⟩, ?_, ?_⟩
  · simp only [attach, ht, deref_some, hg, ha, Option.bind_eq_bind, Option.bind_some]
    rw [setNext_some hg]
    simp only [Option.bind_some]
    rw [setNext_some (n := ⟨d, some a, p⟩) (by simp [hta.symm, ha])]
    simp only [Option.bind_some]
    rw [setPrev_some (n := ⟨d, none, p⟩) (by simp)]
    simp only [Option.bind_some, ht]
    rfl
  · rw [List.append_assoc]
    apply o.pushBack (by simp) (by simp) (by simp [hta])
    intro c hca hct
    simp [hca, hct]

theorem detach_head_spec {xs : List (Addr × Item)} {d e : Item}
    (o : Owns s.heap s.lruHead s.lruTail ((a, d) :: (b, e) :: xs)) :
    ∃ h, s.detach a = some { s with heap := h, lruHead := some b } ∧
      h a = some ⟨d, some a, none⟩ ∧ Owns (h.free a) (some b) s.lruTail ((b, e) :: xs) := by
  have ha := o.seg.1
  have hb := o.seg.2.1
  have hh : s.lruHead = some a := o.head_eq
  have hab : b ≠ a := o.next_ne
  simp only [first_cons] at ha
  refine ⟨(s.heap.store a ⟨d, some a, none⟩).store b ⟨e, first xs none, none⟩, ?_, ?_, ?_⟩
  · simp only [detach, ha, hh, Option.bind_eq_bind, Option.bind_some, if_true]
    rw [setNext_some (n := ⟨d, some b, none⟩) (by simpa using ha)]
    simp only [Option.bind_some]
    rw [setPrev_some (n := ⟨e, first xs none, some a⟩) (by simpa [hab] using hb)]
  · simp [hab.symm]
  · apply o.popFront (by simp) (by simp [hab])
    intro c hca hcb
    simp [hca, hcb]

theorem detach_middle_spec {xs ys : List (Addr × Item)} {c : Addr} {d e f : Item}
    (o : Owns s.heap s.lruHead s.lruTail (xs ++ (c, f) :: (a, d) :: (b, e) :: ys)) :
    ∃ h, s.detach a = some { s with heap := h } ∧ h a = some ⟨d, some a, some c⟩ ∧
      Owns (h.free a) s.lruHead s.lruTail (xs ++ (c, f) :: (b, e) :: ys) := by
  obtain ⟨-, hc, ha, hb, -⟩ := (seg_append _ none xs _ none).mp o.seg
  simp only [first_cons] at hc ha
  have hn := o.nodup
  simp only [addrs_append, addrs_cons, List.nodup_append, List.nodup_cons, List.mem_cons,
    not_or] at hn
  obtain ⟨-, ⟨⟨hca, hcb, -⟩, ⟨hab, -⟩, -⟩, hx⟩ := hn
  have hh : s.lruHead ≠ some a := by
    rw [o.head_eq]
    cases xs with
    | nil => simpa using hca
    | cons x xs =>
      obtain ⟨k, g⟩ := x
      simpa using hx k (by simp) a (by simp)
  refine ⟨((s.heap.store b ⟨e, first ys none, some c⟩).store c ⟨f, some b, last none xs⟩).store a
    ⟨d, some a, some c⟩, ?_, ?_, ?_⟩
  · simp only [detach, ha, hh, Option.bind_eq_bind, Option.bind_some, if_false]
    rw [setPrev_some hb]
    simp only [Option.bind_some, deref_some, Heap.store_ne _ _ hcb, Heap.store_ne _ _ hab, hc, ha]
    rw [setNext_some (n := ⟨f, some a, last none xs⟩) (by simpa [hcb] using hc)]
    simp only [Option.bind_some]
    rw [setNext_some (n := ⟨d, some b, some c⟩) (by simpa [Ne.symm hca, hab] using ha)]
  · simp
  · apply o.unlink (by simp) (by simp [hca]) (by simp [Ne.symm hab, Ne.symm hcb])
    intro k hka hkb hkc
    simp [hka, hkb, hkc]

/-- `_move_to_fresh_data` takes a node from any place in the list to its tail. -/
theorem moveToFreshData_spec {xs ys : List (Addr × Item)} {d : Item}
    (o : Owns s.heap s.lruHead s.lruTail (xs ++ (a, d) :: ys)) :
    ∃ h hd, s.moveToFreshData a = some { s with heap := h, lruHead := hd, lruTail := some a } ∧
      Owns h hd (some a) (xs ++ ys ++ [(a, d)]) := by
  cases ys with
  | nil =>
    have ht : s.lruTail = some a := by simpa using o.tail_eq
    refine ⟨s.heap, s.lruHead, ?_, by simpa [ht] using o⟩
    rw [moveToFreshData, if_pos ht, ← ht]
  | cons y ys =>
    obtain ⟨b, e⟩ := y
    have ht : s.lruTail ≠ some a := by
      rw [o.tail_eq, last_append, last_cons]
      intro h
      have hm : a ∈ addrs ((b, e) :: ys) := last_mem (p := some a) (by simp) h
      have hn := o.nodup
      simp only [addrs_append, addrs_cons, List.nodup_append, List.nodup_cons] at hn
      exact hn.2.1.1 hm
    rcases List.eq_nil_or_concat xs with rfl | ⟨ws, ⟨c, f⟩, rfl⟩
    · obtain ⟨h, hd, ha, o'⟩ := detach_head_spec o
      obtain ⟨h', he, o''⟩ := attach_spec (s := { s with heap := h, lruHead := some b })
        (by simp) o' ha
      exact ⟨h', some b, by simp [moveToFreshData, ht, hd, he], o''⟩
    · simp only [List.concat_eq_append, List.append_assoc, List.cons_append, List.nil_append] at o ⊢
      obtain ⟨h, hd, ha, o'⟩ := detach_middle_spec o
      obtain ⟨h', he, o''⟩ := attach_spec (s := { s with heap := h }) (by simp) o' ha
      exact ⟨h', s.lruHead, by simp [moveToFreshData, ht, hd, he], by simpa using o''⟩

/-- What `_lru_tail->key.size() + _lru_tail->value.size()` reads. -/
theorem deref_tail {xs : List (Addr × Item)} (hx : xs ≠ [])
    (o : Owns s.heap s.lruHead s.lruTail xs) :
    ∃ t, s.deref s.lruTail = some t ∧ itemSize t.data = tailSize (xs.map Prod.snd) := by
  obtain ⟨ws, ⟨a, d⟩, rfl⟩ : ∃ ws x, xs = ws ++ [x] :=
    ⟨xs.dropLast, xs.getLast hx, (List.dropLast_append_getLast hx).symm⟩
  have ht : s.lruTail = some a := by simpa using o.tail_eq
  exact ⟨_, by rw [ht]; exact (seg_last o.seg).1, by simp [tailSize]⟩

/-- The fields `_remove_node` changes before it touches the list. -/
def unindexed (s : SimpleLRU) (key : Bytes) (size : Nat) : SimpleLRU :=
  { s with lruIndex := Function.update s.lruIndex key none, currentSize := sizeSub s.currentSize size }

theorem removeNode_head {xs : List (Addr × Item)} {d e : Item}
    (o : Owns s.heap s.lruHead s.lruTail ((a, d) :: (b, e) :: xs)) (hf : a < s.fresh) :
    ∃ h, s.removeNode a = some { s.unindexed d.key (tailSize (e :: xs.map Prod.snd)) with
        heap := h, lruHead := some b } ∧ Owns h (some b) s.lruTail ((b, e) :: xs) := by
  obtain ⟨t, ht, hsize⟩ := deref_tail (by simp) o
  have ha := o.seg.1
  have hb := o.seg.2.1
  have hh : s.lruHead = some a := o.head_eq
  have hab : b ≠ a := o.next_ne
  have hts : tailSize (d :: e :: xs.map Prod.snd) = tailSize (e :: xs.map Prod.snd) := by
    simp [tailSize]
  simp only [first_cons] at ha
  simp only [List.map_cons, hts] at hsize
  refine ⟨((s.heap.store a ⟨d, none, none⟩).store b ⟨e, first xs none, none⟩).free a, ?_, ?_⟩
  · simp only [removeNode, ha, ht, hh, hsize, Option.bind_eq_bind, Option.bind_some, if_true,
      deref_some]
    rw [setNext_some (n := ⟨d, some b, none⟩) (by simpa using ha)]
    simp only [Option.bind_some]
    rw [setPrev_some (n := ⟨e, first xs none, some a⟩) (by simpa [hab] using hb)]
    simp only [Option.bind_some]
    rw [release_some (n := ⟨d, none, none⟩) (by simp [hab.symm]) rfl (by exact hf)]
    rfl
  · apply o.popFront (by simp) (by simp [hab])
    intro c hca hcb
    simp [hca, hcb]

theorem removeNode_tail {xs : List (Addr × Item)} {d e : Item}
    (o : Owns s.heap s.lruHead s.lruTail (xs ++ [(b, e), (a, d)])) (hf : a < s.fresh) :
    ∃ h, s.removeNode a = some { s.unindexed d.key (itemSize d) with heap := h, lruTail := some b } ∧
      Owns h s.lruHead (some b) (xs ++ [(b, e)]) := by
  obtain ⟨-, hb, ha, -⟩ := (seg_append _ none xs _ none).mp o.seg
  simp only [first_cons, first_nil] at ha hb
  have ht : s.lruTail = some a := by simpa using o.tail_eq
  have hn := o.nodup
  simp only [addrs_append, addrs_cons, addrs_nil, List.nodup_append, List.nodup_cons,
    List.mem_cons, List.not_mem_nil, or_false] at hn
  have hba : b ≠ a := hn.2.1.1
  have hh : s.lruHead ≠ some a := by
    rw [o.head_eq]
    cases xs with
    | nil => simpa using hba
    | cons x xs =>
      obtain ⟨k, g⟩ := x
      simpa using hn.2.2 k (by simp) a (Or.inr rfl)
  refine ⟨((s.heap.store b ⟨e, none, last none xs⟩).store b ⟨e, none, last none xs⟩).free a,
    ?_, ?_⟩
  · simp only [removeNode, ha, ht, hh, Option.bind_eq_bind, Option.bind_some, if_true, if_false,
      deref_some, hb]
    rw [setNext_some (n := ⟨e, some a, last none xs⟩) (by simpa using hb)]
    simp only [Option.bind_some, Heap.store_ne _ _ hba.symm, ha, deref_some, Heap.store_self]
    rw [setNext_some (n := ⟨e, none, last none xs⟩) (by simp)]
    simp only [Option.bind_some, release_none]
    rw [release_some (n := ⟨d, none, some b⟩) (by simpa [hba.symm] using ha) rfl (by exact hf)]
    rfl
  · apply o.popBack (by simp) (by simp [hba])
    intro c hca hcb
    simp [hca, hcb]

/-- The only node: `_lru_head->prev` is written through the null head. -/
theorem removeNode_only {d : Item} (o : Owns s.heap s.lruHead s.lruTail [(a, d)]) :
    s.removeNode a = none := by
  have ha := o.seg.1
  have hh : s.lruHead = some a := o.head_eq
  have ht : s.lruTail = some a := o.tail_eq
  simp only [first_nil] at ha
  simp only [removeNode, ha, hh, ht, Option.bind_eq_bind, Option.bind_some, if_true, deref_some]
  rw [setNext_some (n := ⟨d, none, none⟩) (by simpa using ha)]
  rfl

/-- A node between two others: after the swaps `tmp->next` is null and is written through. -/
theorem removeNode_middle {xs ys : List (Addr × Item)} {c : Addr} {d e f : Item}
    (o : Owns s.heap s.lruHead s.lruTail (xs ++ (c, f) :: (a, d) :: (b, e) :: ys)) :
    s.removeNode a = none := by
  obtain ⟨t, ht, -⟩ := deref_tail (by simp) o
  obtain ⟨-, hc, ha, -⟩ := (seg_append _ none xs _ none).mp o.seg
  simp only [first_cons] at hc ha
  have hn := o.nodup
  simp only [addrs_append, addrs_cons, List.nodup_append, List.nodup_cons, List.mem_cons,
    not_or] at hn
  obtain ⟨-, ⟨⟨hca, -⟩, ⟨hab, hay⟩, -⟩, hx⟩ := hn
  have hh : s.lruHead ≠ some a := by
    rw [o.head_eq]
    cases xs with
    | nil => simpa using hca
    | cons x xs =>
      obtain ⟨k, g⟩ := x
      simpa using hx k (by simp) a (by simp)
  have hl : s.lruTail ≠ some a := by
    rw [o.tail_eq, last_append, last_cons, last_cons]
    intro h
    have hm : a ∈ addrs ((b, e) :: ys) := last_mem (p := some a) (by simp) h
    simp only [addrs_cons, List.mem_cons] at hm
    exact hm.elim hab hay
  simp only [removeNode, ha, ht, hh, hl, Option.bind_eq_bind, Option.bind_some, if_false,
    deref_some, hc]
  rw [setNext_some (n := ⟨f, some a, last none xs⟩) (by simpa using hc)]
  simp only [Option.bind_some, Heap.store_ne _ _ (Ne.symm hca), ha, deref_some, Heap.store_self]
  rw [setNext_some (n := ⟨f, none, last none xs⟩) (by simp)]
  simp only [Option.bind_some]
  rw [setNext_some (n := ⟨d, some b, some c⟩) (by simpa [Ne.symm hca] using ha)]
  simp

end SimpleLRU

/-- The nodes `xs` are the list, the index refers to exactly these nodes, and their addresses
have been handed out before. -/
structure Rep (s : SimpleLRU) (xs : List (Addr × Item)) : Prop where
  owns : Owns s.heap s.lruHead s.lruTail xs
  nodup : (keys (xs.map Prod.snd)).Nodup
  index : ∀ k a, s.lruIndex k = some a ↔ ∃ v, (a, ⟨k, v⟩) ∈ xs
  fresh : ∀ a ∈ addrs xs, a < s.fresh

def SimpleLRU.toCache (s : SimpleLRU) (xs : List (Addr × Item)) : Cache :=
  ⟨s.maxSize, s.currentSize, xs.map Prod.snd⟩

@[simp] theorem SimpleLRU.toCache_maxSize (s : SimpleLRU) (xs : List (Addr × Item)) :
    (s.toCache xs).maxSize = s.maxSize := rfl

@[simp] theorem SimpleLRU.toCache_entries (s : SimpleLRU) (xs : List (Addr × Item)) :
    (s.toCache xs).entries = xs.map Prod.snd := rfl

/-- A well-formed pointer structure and the cache it stands for. -/
def Refines (s : SimpleLRU) (c : Cache) : Prop := ∃ xs, Rep s xs ∧ c = s.toCache xs

theorem mem_keys {xs : List (Addr × Item)} {a : Addr} {k v : Bytes} (h : (a, ⟨k, v⟩) ∈ xs) :
    k ∈ keys (xs.map Prod.snd) :=
  List.mem_map.mpr ⟨⟨k, v⟩, List.mem_map.mpr ⟨_, h, rfl⟩, rfl⟩

namespace Rep

variable {s : SimpleLRU} {xs ys : List (Addr × Item)} {a : Addr} {d : Item}
  {h : Heap Item} {hd tl : Option Addr} {n : Nat}

theorem create (maxSize : UInt64) : Rep (SimpleLRU.create maxSize) [] :=
  ⟨Owns.empty, by simp [keys], by simp [SimpleLRU.create], by simp⟩

theorem length_le (r : Rep s xs) : xs.length ≤ s.fresh := by
  have hs : addrs xs ⊆ List.range s.fresh := fun a ha => List.mem_range.mpr (r.fresh a ha)
  simpa [addrs] using (List.Nodup.subperm r.owns.nodup hs).length_le

/-- One key, one node. -/
theorem key_unique (r : Rep s (xs ++ (a, d) :: ys)) {b : Addr} {v : Bytes}
    (hm : (b, ⟨d.key, v⟩) ∈ xs ++ ys) : False := by
  have hn := r.nodup
  simp only [keys, List.map_append, List.map_cons, List.nodup_append, List.nodup_cons] at hn
  rcases List.mem_append.mp hm with hm | hm
  · exact hn.2.2 d.key (mem_keys hm) d.key (by simp) rfl
  · exact hn.2.1.1 (mem_keys hm)

theorem remove (r : Rep s (xs ++ (a, d) :: ys)) (o : Owns h hd tl (xs ++ ys)) :
    Rep { s.unindexed d.key n with heap := h, lruHead := hd, lruTail := tl } (xs ++ ys) := by
  refine ⟨o, ?_, ?_, ?_⟩
  · refine r.nodup.sublist ?_
    simp only [keys, List.map_append, List.map_cons]
    exact (List.sublist_cons_self _ _).append_left _
  · intro k b
    change Function.update s.lruIndex d.key none k = some b ↔ _
    by_cases hk : k = d.key
    · subst hk
      simp only [Function.update_self, reduceCtorEq, false_iff]
      intro hex
      obtain ⟨v, hm⟩ := hex
      exact r.key_unique hm
    · rw [Function.update_of_ne hk, r.index k b]
      constructor
      · intro hex
        obtain ⟨v, hm⟩ := hex
        refine ⟨v, ?_⟩
        simp only [List.mem_append, List.mem_cons] at hm ⊢
        rcases hm with hm | hm | hm
        · exact Or.inl hm
        · exact absurd (congrArg (fun x => x.2.key) hm) hk
        · exact Or.inr hm
      · intro hex
        obtain ⟨v, hm⟩ := hex
        exact ⟨v, by simp only [List.mem_append, List.mem_cons] at hm ⊢; tauto⟩
  · intro b hb
    exact r.fresh b (by simp only [addrs_append, addrs_cons, List.mem_append, List.mem_cons] at hb ⊢; tauto)

/-- The node goes to the tail, possibly with a new value under the same key. -/
theorem move (r : Rep s (xs ++ (a, d) :: ys)) (v : Bytes)
    (o : Owns h hd tl (xs ++ ys ++ [(a, ⟨d.key, v⟩)])) :
    Rep { s with heap := h, lruHead := hd, lruTail := tl, currentSize := n }
      (xs ++ ys ++ [(a, ⟨d.key, v⟩)]) := by
  refine ⟨o, ?_, ?_, ?_⟩
  · have hp : (keys ((xs ++ ys ++ [(a, (⟨d.key, v⟩ : Item))]).map Prod.snd)).Perm
        (keys ((xs ++ (a, d) :: ys).map Prod.snd)) := by
      simp only [keys, List.map_append, List.map_cons, List.map_nil, List.append_assoc]
      exact List.Perm.append_left _ (List.perm_append_singleton _ _)
    exact hp.nodup_iff.mpr r.nodup
  · intro k b
    rw [show ({ s with heap := h, lruHead := hd, lruTail := tl, currentSize := n } :
      SimpleLRU).lruIndex k = s.lruIndex k from rfl, r.index k b]
    by_cases hk : k = d.key
    · subst hk
      constructor
      · intro hex
        obtain ⟨w, hm⟩ := hex
        simp only [List.mem_append, List.mem_cons] at hm
        rcases hm with hm | hm | hm
        · exact (r.key_unique (List.mem_append_left _ hm)).elim
        · exact ⟨v, by simp [(Prod.mk.inj hm).1]⟩
        · exact (r.key_unique (List.mem_append_right _ hm)).elim
      · intro hex
        obtain ⟨w, hm⟩ := hex
        rcases List.mem_append.mp hm with hm | hm
        · exact (r.key_unique hm).elim
        · exact ⟨d.value, by simp at hm; simp [hm.1]⟩
    · constructor
      · intro hex
        obtain ⟨w, hm⟩ := hex
        refine ⟨w, ?_⟩
        simp only [List.mem_append, List.mem_cons] at hm ⊢
        rcases hm with hm | hm | hm
        · exact Or.inl (Or.inl hm)
        · exact absurd (congrArg (fun x => x.2.key) hm) hk
        · exact Or.inl (Or.inr hm)
      · intro hex
        obtain ⟨w, hm⟩ := hex
        refine ⟨w, ?_⟩
        simp only [List.mem_append, List.mem_cons, List.not_mem_nil, or_false] at hm ⊢
        rcases hm with (hm | hm) | hm
        · exact Or.inl hm
        · exact Or.inr (Or.inr hm)
        · exact absurd (congrArg (fun x => x.2.key) hm) hk
  · intro b hb
    exact r.fresh b (by
      simp only [addrs_append, addrs_cons, addrs_nil, List.mem_append, List.mem_cons,
        List.not_mem_nil, or_false] at hb ⊢
      tauto)

/-- A new node under a key the index does not have. -/
theorem push (r : Rep s xs) (hk : d.key ∉ keys (xs.map Prod.snd))
    (o : Owns h hd tl (xs ++ [(s.fresh, d)])) :
    Rep { s with
        heap := h, lruHead := hd, lruTail := tl, currentSize := n, fresh := s.fresh + 1
        lruIndex := Function.update s.lruIndex d.key (some s.fresh) } (xs ++ [(s.fresh, d)]) := by
  refine ⟨o, ?_, ?_, ?_⟩
  · simp only [keys, List.map_append, List.map_cons, List.map_nil]
    refine List.nodup_append.mpr ⟨r.nodup, by simp, ?_⟩
    intro k hm j hj heq
    subst heq
    exact hk (List.mem_singleton.mp hj ▸ hm)
  · intro k b
    change Function.update s.lruIndex d.key (some s.fresh) k = some b ↔ _
    by_cases he : k = d.key
    · subst he
      simp only [Function.update_self, Option.some.injEq]
      constructor
      · intro heq
        subst heq
        exact ⟨d.value, by simp⟩
      · intro hex
        obtain ⟨v, hm⟩ := hex
        rcases List.mem_append.mp hm with hm | hm
        · exact absurd (mem_keys hm) hk
        · exact (congrArg Prod.fst (List.mem_singleton.mp hm)).symm
    · rw [Function.update_of_ne he, r.index k b]
      constructor
      · intro hex
        obtain ⟨v, hm⟩ := hex
        exact ⟨v, List.mem_append_left _ hm⟩
      · intro hex
        obtain ⟨v, hm⟩ := hex
        rcases List.mem_append.mp hm with hm | hm
        · exact ⟨v, hm⟩
        · exact absurd (congrArg (fun x => x.2.key) (List.mem_singleton.mp hm)) he
  · intro b hb
    simp only [addrs_append, addrs_cons, addrs_nil, List.mem_append, List.mem_cons,
      List.not_mem_nil, or_false] at hb
    rcases hb with hb | rfl
    · exact Nat.lt_succ_of_lt (r.fresh b hb)
    · exact Nat.lt_succ_self _

end Rep

variable {s : SimpleLRU} {xs ys : List (Addr × Item)} {a : Addr} {d : Item} {key value : Bytes}

theorem removeNode_head_rep {b : Addr} {e : Item} (r : Rep s ((a, d) :: (b, e) :: xs)) :
    ∃ t, s.removeNode a = some t ∧ Rep t ((b, e) :: xs) ∧ t.maxSize = s.maxSize ∧
      t.currentSize = sizeSub s.currentSize (tailSize (e :: xs.map Prod.snd)) := by
  obtain ⟨h, he, o⟩ := SimpleLRU.removeNode_head r.owns (r.fresh a (by simp))
  have r' : Rep s ([] ++ (a, d) :: (b, e) :: xs) := r
  exact ⟨_, he, r'.remove o, rfl, rfl⟩

theorem removeNode_tail_rep {b : Addr} {e : Item} (r : Rep s (xs ++ [(b, e), (a, d)])) :
    ∃ t, s.removeNode a = some t ∧ Rep t (xs ++ [(b, e)]) ∧ t.maxSize = s.maxSize ∧
      t.currentSize = sizeSub s.currentSize (itemSize d) := by
  obtain ⟨h, he, o⟩ := SimpleLRU.removeNode_tail r.owns (r.fresh a (by simp))
  have r' : Rep s ((xs ++ [(b, e)]) ++ (a, d) :: []) := by simpa using r
  refine ⟨_, he, ?_, rfl, rfl⟩
  have h1 := r'.remove (n := (itemSize d)) (by simpa using o)
  rwa [List.append_nil] at h1

/-- Where `_remove_node` can be carried out and where it cannot, node by node. -/
theorem removeNode_refines (r : Rep s xs) (hm : (a, d) ∈ xs) :
    Option.Rel Refines (s.removeNode a) ((s.toCache xs).removeNode d.key) := by
  obtain ⟨ys, zs, rfl⟩ := List.append_of_mem hm
  rcases List.eq_nil_or_concat ys with rfl | ⟨ws, ⟨c, f⟩, rfl⟩
  · cases zs with
    | nil =>
      rw [SimpleLRU.removeNode_only r.owns]
      exact .none
    | cons z zs =>
      obtain ⟨b, e⟩ := z
      obtain ⟨t, ht, r', hmax, hcur⟩ := removeNode_head_rep r
      rw [ht, Cache.removeNode_head e (zs.map Prod.snd) (by simp [SimpleLRU.toCache])]
      exact .some ⟨_, r', by simp [SimpleLRU.toCache, hmax, hcur]⟩
  · cases zs with
    | nil =>
      have r' : Rep s (ws ++ [(c, f), (a, d)]) := by simpa using r
      obtain ⟨t, ht, r'', hmax, hcur⟩ := removeNode_tail_rep r'
      rw [ht, Cache.removeNode_tail f (ws.map Prod.snd) (by simp [SimpleLRU.toCache])
        r.nodup]
      exact .some ⟨_, r'', by simp [SimpleLRU.toCache, hmax, hcur]⟩
    | cons z zs =>
      obtain ⟨b, e⟩ := z
      rw [SimpleLRU.removeNode_middle (by simpa using r.owns), Cache.removeNode_middle f e
        (ws.map Prod.snd) (zs.map Prod.snd) (by simp [SimpleLRU.toCache])
        r.nodup]
      exact .none

/-- The eviction loop takes a prefix off the list, or runs into the null head. -/
theorem evictWhile_rep (full : SimpleLRU → Bool) (full' : Nat → Bool) (fuel : Nat)
    (hfull : ∀ t, t.maxSize = s.maxSize → full t = full' t.currentSize) (r : Rep s xs)
    (hf : xs.length < fuel) :
    Option.Rel (fun t q => ∃ ys zs, xs = ys ++ zs ∧ Rep t zs ∧ t.maxSize = s.maxSize ∧
        q = (t.currentSize, zs.map Prod.snd))
      (s.evictWhile full fuel) (Cache.evictWhile full' s.currentSize (xs.map Prod.snd)) := by
  induction xs generalizing s fuel with
  | nil =>
    obtain ⟨k, rfl⟩ : ∃ k, fuel = k + 1 := ⟨fuel - 1, by omega⟩
    have hh : s.lruHead = none := r.owns.head_eq
    cases hq : full' s.currentSize with
    | true =>
      simp only [SimpleLRU.evictWhile, hfull s rfl, hq, hh, Cache.evictWhile, List.map_nil, if_true]
      exact .none
    | false =>
      simp only [SimpleLRU.evictWhile, hfull s rfl, hq, Cache.evictWhile, List.map_nil,
        Bool.false_eq_true, if_false]
      exact .some ⟨[], [], rfl, r, rfl, rfl⟩
  | cons x xs ih =>
    obtain ⟨a, d⟩ := x
    obtain ⟨k, rfl⟩ : ∃ k, fuel = k + 1 := ⟨fuel - 1, by omega⟩
    have hh : s.lruHead = some a := r.owns.head_eq
    cases hq : full' s.currentSize with
    | true =>
      cases xs with
      | nil =>
        simp only [SimpleLRU.evictWhile, hfull s rfl, hq, hh, if_true, Option.bind_eq_bind,
          Option.bind_some, SimpleLRU.removeNode_only r.owns, Option.bind_none, List.map_cons,
          List.map_nil, Cache.evictWhile]
        exact .none
      | cons y xs =>
        obtain ⟨b, e⟩ := y
        obtain ⟨t, ht, r', hmax, hcur⟩ := removeNode_head_rep r
        have h := ih k (fun u hu => hfull u (hu.trans hmax)) r' (by simpa using hf)
        simp only [SimpleLRU.evictWhile, hfull s rfl, hq, hh, if_true, Option.bind_eq_bind,
          Option.bind_some, ht, List.map_cons, Cache.evictWhile]
        simp only [List.map_cons, hcur] at h
        apply rel_imp h
        intro u q hex
        obtain ⟨ys, zs, hx, r'', hm, hq⟩ := hex
        exact ⟨(a, d) :: ys, zs, by simp [hx], r'', hm.trans hmax, hq⟩
    | false =>
      have hc : Cache.evictWhile full' s.currentSize (((a, d) :: xs).map Prod.snd) =
          some (s.currentSize, ((a, d) :: xs).map Prod.snd) := by
        cases xs <;> simp [Cache.evictWhile, hq]
      rw [hc]
      simp only [SimpleLRU.evictWhile, hfull s rfl, hq, Bool.false_eq_true, if_false]
      exact .some ⟨[], (a, d) :: xs, rfl, r, rfl, rfl⟩

theorem appendNewNode_refines (value : Bytes) (r : Rep s xs) (hk : key ∉ keys (xs.map Prod.snd)) :
    ∃ t, s.appendNewNode key value = some t ∧
      Refines t ⟨s.maxSize, sizeAdd s.currentSize (key.length + value.length),
        xs.map Prod.snd ++ [⟨key, value⟩]⟩ := by
  have hi : s.lruIndex key = none := by
    cases h : s.lruIndex key with
    | none => rfl
    | some a =>
      obtain ⟨v, hm⟩ := (r.index key a).mp h
      exact absurd (mem_keys hm) hk
  have hfree : s.heap s.fresh = none := by
    apply r.owns.only
    intro hm
    exact Nat.lt_irrefl _ (r.fresh _ hm)
  rcases List.eq_nil_or_concat xs with rfl | ⟨ws, ⟨b, e⟩, rfl⟩
  · have ht : s.lruTail = none := r.owns.tail_eq
    have hh : s.lruHead = none := r.owns.head_eq
    have o : Owns (s.heap.store s.fresh ⟨⟨key, value⟩, none, none⟩) (some s.fresh) (some s.fresh)
        [(s.fresh, ⟨key, value⟩)] := r.owns.pushFirst (by simp) (by intro c hc; simp [hc])
    refine ⟨_, ?_, _, r.push (n := sizeAdd s.currentSize (key.length + value.length)) hk o, rfl⟩
    simp [SimpleLRU.appendNewNode, ht, hh, hi]
  · rw [List.concat_eq_append] at *
    have ht : s.lruTail = some b := by simpa using r.owns.tail_eq
    have hb := (seg_last r.owns.seg).1
    have hne : b ≠ s.fresh := by
      intro heq
      subst heq
      rw [hfree] at hb
      cases hb
    have o : Owns (((s.heap.store s.fresh ⟨⟨key, value⟩, none, none⟩).store s.fresh
          ⟨⟨key, value⟩, none, some b⟩).store b ⟨e, some s.fresh, last none ws⟩)
        s.lruHead (some s.fresh) (ws ++ [(b, e), (s.fresh, ⟨key, value⟩)]) :=
      r.owns.pushBack hfree (by simp [hne.symm]) (by simp) (by intro c hc hcb; simp [hc, hcb])
    rw [List.append_cons ws (b, e)] at o
    refine ⟨_, ?_, _, r.push (n := sizeAdd s.currentSize (key.length + value.length)) hk o,
      by simp [SimpleLRU.toCache]⟩
    simp only [SimpleLRU.appendNewNode, ht, ne_eq, reduceCtorEq, not_false_eq_true, if_true,
      Option.bind_eq_bind]
    rw [SimpleLRU.setPrev_some (n := ⟨⟨key, value⟩, none, none⟩) (by simp)]
    simp only [Option.bind_some, SimpleLRU.deref_some, Heap.store_ne _ _ hne, hb]
    rw [SimpleLRU.setNext_some (n := ⟨e, none, last none ws⟩) (by simpa [hne] using hb)]
    simp [hi]

theorem insertNewValue_refines (r : Rep s xs) (hk : key ∉ keys (xs.map Prod.snd)) :
    Option.Rel Refines (s.insertNewValue key value) ((s.toCache xs).insertNewValue key value) := by
  refine rel_bind (evictWhile_rep _ _ _ ?_ r (Nat.lt_succ_of_le r.length_le)) ?_
  · intro t ht
    simp [ht, SimpleLRU.toCache]
  · intro t q hex
    obtain ⟨ys, zs, rfl, r', hmax, rfl⟩ := hex
    have hk' : key ∉ keys (zs.map Prod.snd) := by
      intro hm
      exact hk (by simp only [keys, List.map_append, List.mem_append]; exact Or.inr hm)
    obtain ⟨u, hu, hr⟩ := appendNewNode_refines value r' hk'
    rw [hu]
    exact .some (by simpa only [SimpleLRU.toCache, hmax] using hr)

/-- The node to update survives the evictions, or is gone when its value is assigned. -/
theorem updateValue_refines (value : Bytes) (r : Rep s xs) (hm : (a, d) ∈ xs) :
    Option.Rel Refines (s.updateValue a value) ((s.toCache xs).updateValue d.key d.value value) := by
  obtain ⟨nx, pv, ha⟩ := seg_alloc r.owns.seg a d hm
  simp only [SimpleLRU.updateValue, ha, Option.bind_eq_bind, Option.bind_some]
  refine rel_bind (evictWhile_rep _ _ _ ?_ r (Nat.lt_succ_of_le r.length_le)) ?_
  · intro t ht
    simp [ht, SimpleLRU.toCache]
  · intro t q hex
    obtain ⟨ys, zs, rfl, r', hmax, rfl⟩ := hex
    by_cases hz : (a, d) ∈ zs
    · obtain ⟨us, vs, rfl⟩ := List.append_of_mem hz
      have ha' := ((seg_append _ none us _ none).mp r'.owns.seg).2.1
      have o : Owns (t.heap.store a ⟨⟨d.key, value⟩, first vs none, last none us⟩) t.lruHead
          t.lruTail (us ++ (a, ⟨d.key, value⟩) :: vs) :=
        r'.owns.setData (by simp) (by intro c hc; simp [hc])
      obtain ⟨h, hd, he, o'⟩ := SimpleLRU.moveToFreshData_spec
        (s := { t with heap := t.heap.store a ⟨⟨d.key, value⟩, first vs none, last none us⟩ }) o
      have hkey : d.key ∈ keys ((us ++ (a, d) :: vs).map Prod.snd) := mem_keys hz
      have hn := r'.nodup
      rw [List.map_append, List.map_cons] at hn
      simp only [ha', Option.bind_some, he, if_pos hkey]
      refine .some ⟨_, r'.move value o', ?_⟩
      simp only [SimpleLRU.toCache, List.map_append, List.map_cons, List.map_nil,
        touch_split value hn, hmax]
    · have hzs : a ∉ addrs zs := by
        intro hm'
        obtain ⟨⟨b, e⟩, hb, rfl⟩ := List.mem_map.mp hm'
        have hn := r.owns.nodup
        rcases List.mem_append.mp hm with hy | hy
        · rw [addrs_append, List.nodup_append] at hn
          exact hn.2.2 b (mem_addrs hy) b (mem_addrs hb) rfl
        · exact hz hy
      have hkey : d.key ∉ keys (zs.map Prod.snd) := by
        intro hk
        have hn := r.nodup
        rcases List.mem_append.mp hm with hy | hy
        · rw [List.map_append, keys, List.map_append, List.nodup_append] at hn
          exact hn.2.2 d.key (mem_keys hy) d.key hk rfl
        · exact hz hy
      simp only [r'.owns.only a hzs, Option.bind_none, if_neg hkey]
      exact .none

/-- What the index finds is what the entries hold. -/
theorem index_cases (r : Rep s xs) (key : Bytes) :
    (s.lruIndex key = none ∧ valueOf key (xs.map Prod.snd) = none) ∨
    ∃ a v, s.lruIndex key = some a ∧ (a, ⟨key, v⟩) ∈ xs ∧
      valueOf key (xs.map Prod.snd) = some v := by
  cases h : s.lruIndex key with
  | none =>
    refine Or.inl ⟨rfl, valueOf_eq_none.mpr ?_⟩
    intro hm
    obtain ⟨e, he, rfl⟩ := List.mem_map.mp hm
    obtain ⟨⟨a, e⟩, hx, rfl⟩ := List.mem_map.mp he
    rw [(r.index e.key a).mpr ⟨e.value, hx⟩] at h
    cases h
  | some a =>
    obtain ⟨v, hm⟩ := (r.index key a).mp h
    obtain ⟨ys, zs, rfl⟩ := List.append_of_mem hm
    refine Or.inr ⟨a, v, rfl, hm, ?_⟩
    have hn := r.nodup
    rw [List.map_append, List.map_cons] at hn ⊢
    exact valueOf_split hn

section Calls

variable {c : Cache}

/-- Same answer, related states. -/
def Agree {β : Type} (x : β × SimpleLRU) (y : β × Cache) : Prop := x.1 = y.1 ∧ Refines x.2 y.2

private theorem agree_map {x : Option SimpleLRU} {y : Option Cache} (b : Bool)
    (h : Option.Rel Refines x y) :
    Option.Rel Agree (x.map fun s => (b, s)) (y.map fun c => (b, c)) := by
  cases h with
  | none => exact .none
  | some h => exact .some ⟨rfl, h⟩

theorem put_refines (h : Refines s c) : Option.Rel Agree (s.put key value) (c.put key value) := by
  obtain ⟨xs, r, rfl⟩ := h
  rw [SimpleLRU.put, Cache.put, SimpleLRU.toCache_maxSize, SimpleLRU.toCache_entries]
  split_ifs with hsize
  · exact .some ⟨rfl, xs, r, rfl⟩
  · rcases index_cases r key with ⟨hi, hv⟩ | ⟨a, v, hi, hm, hv⟩
    · simp only [hi, hv]
      exact agree_map true (insertNewValue_refines r (valueOf_eq_none.mp hv))
    · have h := updateValue_refines value r hm
      simp only [hi, hv]
      exact agree_map true h

theorem putIfAbsent_refines (h : Refines s c) :
    Option.Rel Agree (s.putIfAbsent key value) (c.putIfAbsent key value) := by
  obtain ⟨xs, r, rfl⟩ := h
  rw [SimpleLRU.putIfAbsent, Cache.putIfAbsent, SimpleLRU.toCache_maxSize, SimpleLRU.toCache_entries]
  split_ifs with hsize
  · exact .some ⟨rfl, xs, r, rfl⟩
  · rcases index_cases r key with ⟨hi, hv⟩ | ⟨a, v, hi, hm, hv⟩
    · simp only [hi, hv]
      exact agree_map true (insertNewValue_refines r (valueOf_eq_none.mp hv))
    · simp only [hi, hv]
      exact .some ⟨rfl, xs, r, rfl⟩

theorem set_refines (h : Refines s c) : Option.Rel Agree (s.set key value) (c.set key value) := by
  obtain ⟨xs, r, rfl⟩ := h
  rw [SimpleLRU.set, Cache.set, SimpleLRU.toCache_maxSize, SimpleLRU.toCache_entries]
  split_ifs with hsize
  · exact .some ⟨rfl, xs, r, rfl⟩
  · rcases index_cases r key with ⟨hi, hv⟩ | ⟨a, v, hi, hm, hv⟩
    · simp only [hi, hv]
      exact .some ⟨rfl, xs, r, rfl⟩
    · have h := updateValue_refines value r hm
      simp only [hi, hv]
      exact agree_map true h

theorem delete_refines (h : Refines s c) : Option.Rel Agree (s.delete key) (c.delete key) := by
  obtain ⟨xs, r, rfl⟩ := h
  rw [SimpleLRU.delete, Cache.delete, SimpleLRU.toCache_entries]
  rcases index_cases r key with ⟨hi, hv⟩ | ⟨a, v, hi, hm, hv⟩
  · simp only [hi, hv]
    exact .some ⟨rfl, xs, r, rfl⟩
  · simp only [hi, hv]
    exact agree_map true (removeNode_refines r hm)

theorem get_refines (h : Refines s c) : Option.Rel Agree (s.get key value) (c.get key value) := by
  obtain ⟨xs, r, rfl⟩ := h
  rw [SimpleLRU.get, Cache.get, SimpleLRU.toCache_entries]
  rcases index_cases r key with ⟨hi, hv⟩ | ⟨a, v, hi, hm, hv⟩
  · simp only [hi, hv]
    exact .some ⟨rfl, xs, r, rfl⟩
  · obtain ⟨ys, zs, rfl⟩ := List.append_of_mem hm
    have ha := ((seg_append _ none ys _ none).mp r.owns.seg).2.1
    obtain ⟨h, hd, he, o⟩ := SimpleLRU.moveToFreshData_spec r.owns
    have hn := r.nodup
    rw [List.map_append, List.map_cons] at hn
    simp only [hi, hv, ha, Option.bind_eq_bind, Option.bind_some, he]
    refine .some ⟨rfl, _, r.move (n := s.currentSize) v o, ?_⟩
    have ht := touch_split v hn
    simp only [SimpleLRU.toCache, List.map_append, List.map_cons, List.map_nil] at ht ⊢
    rw [ht]

private theorem agree_reply {β : Type} {x : Option (β × SimpleLRU)} {y : Option (β × Cache)}
    (f : β → Reply Bytes) (h : Option.Rel Agree x y) :
    Option.Rel Agree (x.map fun (b, s) => (f b, s)) (y.map fun (b, c) => (f b, c)) := by
  cases h with
  | none => exact .none
  | some h => exact .some ⟨congrArg f h.1, h.2⟩

/-- The pointer structure does what the cache does, call by call, and is undefined where it is. -/
theorem call_refines (a : Call Bytes Bytes) (h : Refines s c) :
    Option.Rel Agree (SimpleLRU.call a s) (Cache.call a c) := by
  cases a with
  | put k v => exact agree_reply .done (put_refines h)
  | putIfAbsent k v => exact agree_reply .done (putIfAbsent_refines h)
  | set k v => exact agree_reply .done (set_refines h)
  | delete k => exact agree_reply .done (delete_refines h)
  | get k v => exact agree_reply (fun p => .got p.1 p.2) (get_refines h)

/-- Where the cache has a result, so has the pointer structure. -/
theorem agree_some {β : Type} {x : Option (β × SimpleLRU)} {y : Option (β × Cache)} {b : β}
    {c' : Cache} (h : Option.Rel Agree x y) (hy : y = some (b, c')) :
    ∃ s', x = some (b, s') ∧ Refines s' c' := by
  rw [hy] at h
  cases x with
  | none => cases h
  | some x =>
    cases h with
    | some h =>
      obtain ⟨b', s'⟩ := x
      obtain ⟨rfl, hs'⟩ := h
      exact ⟨s', rfl, hs'⟩

/-- Where the cache has none, neither has the pointer structure. -/
theorem agree_none {β : Type} {x : Option (β × SimpleLRU)} {y : Option (β × Cache)}
    (h : Option.Rel Agree x y) (hy : y = none) : x = none := by
  rw [hy] at h
  cases h
  rfl

theorem call_refines_some {a : Call Bytes Bytes} {b : Reply Bytes} {c' : Cache} (h : Refines s c)
    (hc : Cache.call a c = some (b, c')) :
    ∃ s', SimpleLRU.call a s = some (b, s') ∧ Refines s' c' :=
  agree_some (call_refines a h) hc

end Calls

/-- The nodes met from `_lru_head` along `next`. -/
def SimpleLRU.nodes (s : SimpleLRU) : List (Addr × Item) := s.heap.followNext s.fresh s.lruHead

/-- The nodes met from `_lru_tail` along `prev`. -/
def SimpleLRU.nodesBack (s : SimpleLRU) : List (Addr × Item) := s.heap.followPrev s.fresh s.lruTail

/-- Reading the list forwards gives the entries `es`, reading it backwards the same nodes in
reverse, and heap, ends and index are exactly those of this list. -/
structure Linked (s : SimpleLRU) (es : List Item) : Prop where
  forward : s.nodes.map Prod.snd = es
  backward : s.nodesBack = s.nodes.reverse
  rep : Rep s s.nodes

theorem Rep.nodes_eq {s : SimpleLRU} {xs : List (Addr × Item)} (r : Rep s xs) : s.nodes = xs := by
  rw [SimpleLRU.nodes, r.owns.head_eq]
  exact seg_followNext s.fresh r.owns.seg r.length_le

theorem Rep.nodesBack_eq {s : SimpleLRU} {xs : List (Addr × Item)} (r : Rep s xs) :
    s.nodesBack = xs.reverse := by
  rw [SimpleLRU.nodesBack, r.owns.tail_eq]
  exact seg_followPrev s.fresh r.owns.seg r.length_le

theorem Refines.linked {s : SimpleLRU} {c : Cache} (h : Refines s c) : Linked s c.entries := by
  obtain ⟨xs, r, rfl⟩ := h
  have hx := r.nodes_eq
  exact ⟨by rw [hx]; rfl, by rw [r.nodesBack_eq, hx], by rw [hx]; exact r⟩

theorem Refines.currentSize_eq {s : SimpleLRU} {c : Cache} (h : Refines s c) :
    s.currentSize = c.currentSize := by
  obtain ⟨xs, -, rfl⟩ := h
  rfl

theorem Refines.maxSize_eq {s : SimpleLRU} {c : Cache} (h : Refines s c) :
    s.maxSize = c.maxSize := by
  obtain ⟨xs, -, rfl⟩ := h
  rfl

/-- The cache a well-formed state stands for can be read off it. -/
def SimpleLRU.view (s : SimpleLRU) : Cache := s.toCache s.nodes

theorem Refines.view_eq {s : SimpleLRU} {c : Cache} (h : Refines s c) : s.view = c := by
  obtain ⟨xs, r, rfl⟩ := h
  rw [SimpleLRU.view, r.nodes_eq]

theorem create_refines (maxSize : UInt64) :
    Refines (SimpleLRU.create maxSize) ⟨maxSize.toNat, 0, []⟩ :=
  ⟨[], Rep.create maxSize, rfl⟩

/-- The calls that a cache can carry out, carried out on the pointer structure. -/
theorem run_refines_some (calls : List (Call Bytes Bytes)) {s : SimpleLRU} {c c' : Cache}
    {replies : List (Reply Bytes)} (h : Refines s c)
    (hr : run Cache.call calls c = some (replies, c')) :
    ∃ s', run SimpleLRU.call calls s = some (replies, s') ∧ Refines s' c' :=
  run_refines SimpleLRU.call Cache.call (fun _ _ => True) Refines
    (fun _ _ _ _ _ h _ hc => call_refines_some h hc) calls s c c' replies h
    (AllSteps.of_forall (fun _ _ _ => trivial) c) hr

end Sysprog.Storage
