import Mathlib.Tactic
import Mathlib.Logic.Function.Basic

namespace Sysprog

/-- Addresses are never handed out twice, so a dangling pointer stays recognisable. -/
abbrev Addr := Nat

/-- A node of a doubly linked list; `next` owns its target, `prev` only points at it. -/
structure Node (α : Type) where
  data : α
  next : Option Addr
  prev : Option Addr

/-- Allocated nodes; `none` is an address that was freed or never allocated. -/
abbrev Heap (α : Type) := Addr → Option (Node α)

variable {α : Type}

namespace Heap

def store (h : Heap α) (a : Addr) (n : Node α) : Heap α := Function.update h a (some n)

def free (h : Heap α) (a : Addr) : Heap α := Function.update h a none

@[simp] theorem store_self (h : Heap α) (a : Addr) (n : Node α) : h.store a n a = some n := by
  simp [store]

@[simp] theorem store_ne (h : Heap α) {a b : Addr} (n : Node α) (hb : b ≠ a) :
    h.store a n b = h b := by
  simp [store, hb]

@[simp] theorem free_self (h : Heap α) (a : Addr) : h.free a a = none := by simp [free]

@[simp] theorem free_ne (h : Heap α) {a b : Addr} (hb : b ≠ a) : h.free a b = h b := by
  simp [free, hb]

/-- Destructor of an owning pointer: deletes the node and, through it, what the node owns. A
dangling pointer has no destructor to run. -/
def destroy : Nat → Heap α → Option Addr → Option (Heap α)
  | _, h, none => some h
  | 0, _, some _ => none
  | fuel + 1, h, some a =>
    match h a with
    | none => none
    | some n => destroy fuel (h.free a) n.next

theorem destroy_last {h : Heap α} {a : Addr} {n : Node α} (fuel : Nat) (ha : h a = some n)
    (hn : n.next = none) : destroy (fuel + 1) h (some a) = some (h.free a) := by
  simp [destroy, ha, hn]

/-- The nodes met along `next`. -/
def followNext (h : Heap α) : Nat → Option Addr → List (Addr × α)
  | fuel + 1, some a =>
    match h a with
    | none => []
    | some n => (a, n.data) :: followNext h fuel n.next
  | _, _ => []

/-- The nodes met along `prev`. -/
def followPrev (h : Heap α) : Nat → Option Addr → List (Addr × α)
  | fuel + 1, some a =>
    match h a with
    | none => []
    | some n => (a, n.data) :: followPrev h fuel n.prev
  | _, _ => []

end Heap

def addrs (xs : List (Addr × α)) : List Addr := xs.map Prod.fst

@[simp] theorem addrs_append (xs ys : List (Addr × α)) : addrs (xs ++ ys) = addrs xs ++ addrs ys := by
  simp [addrs]

@[simp] theorem addrs_cons (a : Addr) (d : α) (xs : List (Addr × α)) :
    addrs ((a, d) :: xs) = a :: addrs xs := rfl

@[simp] theorem addrs_nil : addrs ([] : List (Addr × α)) = [] := rfl

theorem mem_addrs {xs : List (Addr × α)} {a : Addr} {d : α} (h : (a, d) ∈ xs) : a ∈ addrs xs :=
  List.mem_map.mpr ⟨(a, d), h, rfl⟩

/-- Address of the first node, or `n` when there is none. -/
def first : List (Addr × α) → Option Addr → Option Addr
  | [], n => n
  | (a, _) :: _, _ => some a

/-- Address of the last node, or `p` when there is none. -/
def last : Option Addr → List (Addr × α) → Option Addr
  | p, [] => p
  | _, (a, _) :: xs => last (some a) xs

@[simp] theorem first_cons (a : Addr) (d : α) (xs : List (Addr × α)) (n : Option Addr) :
    first ((a, d) :: xs) n = some a := rfl

@[simp] theorem first_nil (n : Option Addr) : first ([] : List (Addr × α)) n = n := rfl

@[simp] theorem first_append (xs ys : List (Addr × α)) (n : Option Addr) :
    first (xs ++ ys) n = first xs (first ys n) := by
  cases xs <;> rfl

@[simp] theorem last_nil (p : Option Addr) : last p ([] : List (Addr × α)) = p := rfl

@[simp] theorem last_cons (p : Option Addr) (a : Addr) (d : α) (xs : List (Addr × α)) :
    last p ((a, d) :: xs) = last (some a) xs := rfl

@[simp] theorem last_append (p : Option Addr) (xs ys : List (Addr × α)) :
    last p (xs ++ ys) = last (last p xs) ys := by
  induction xs generalizing p with
  | nil => rfl
  | cons x xs ih => exact ih (some x.1)

theorem last_mem {p : Option Addr} {xs : List (Addr × α)} {a : Addr} (hx : xs ≠ [])
    (h : last p xs = some a) : a ∈ addrs xs := by
  obtain ⟨ws, ⟨t, g⟩, rfl⟩ : ∃ ws x, xs = ws ++ [x] :=
    ⟨xs.dropLast, xs.getLast hx, (List.dropLast_append_getLast hx).symm⟩
  have ht : t = a := by simpa using h
  simp [ht]

/-- The nodes `xs` are linked in both directions, entered from `p` and left towards `n`. -/
def Seg (h : Heap α) : Option Addr → List (Addr × α) → Option Addr → Prop
  | _, [], _ => True
  | p, (a, d) :: xs, n => h a = some ⟨d, first xs n, p⟩ ∧ Seg h (some a) xs n

theorem seg_append (h : Heap α) (p : Option Addr) (xs ys : List (Addr × α)) (n : Option Addr) :
    Seg h p (xs ++ ys) n ↔ Seg h p xs (first ys n) ∧ Seg h (last p xs) ys n := by
  induction xs generalizing p with
  | nil => simp [Seg]
  | cons x xs ih =>
    obtain ⟨a, d⟩ := x
    simp [Seg, ih, and_assoc]

/-- A segment only depends on the nodes it lists. -/
theorem seg_congr {h h' : Heap α} {p : Option Addr} {xs : List (Addr × α)} {n : Option Addr}
    (hs : Seg h p xs n) (he : ∀ a ∈ addrs xs, h' a = h a) : Seg h' p xs n := by
  induction xs generalizing p with
  | nil => trivial
  | cons x xs ih =>
    refine ⟨(he x.1 (by simp [addrs])).trans hs.1, ih hs.2 ?_⟩
    intro a ha
    exact he a (List.mem_cons_of_mem _ ha)

theorem seg_alloc {h : Heap α} {p : Option Addr} {xs : List (Addr × α)} {n : Option Addr}
    (hs : Seg h p xs n) : ∀ a d, (a, d) ∈ xs → ∃ nx pv, h a = some ⟨d, nx, pv⟩ := by
  induction xs generalizing p with
  | nil => simp
  | cons x xs ih =>
    intro a d hm
    rcases List.mem_cons.mp hm with rfl | hm
    · exact ⟨_, _, hs.1⟩
    · exact ih hs.2 a d hm

/-- Whatever the last node of a segment, its `prev` and `data` are those of the list. -/
theorem seg_last {h : Heap α} {p : Option Addr} {xs : List (Addr × α)} {a : Addr} {d : α}
    {n : Option Addr} (hs : Seg h p (xs ++ [(a, d)]) n) :
    h a = some ⟨d, n, last p xs⟩ ∧ Seg h p xs (some a) := by
  obtain ⟨h1, h2, -⟩ := (seg_append h p xs [(a, d)] n).mp hs
  exact ⟨h2, h1⟩

/-- Only the last node of a segment knows what follows it. -/
theorem seg_setLast {h h' : Heap α} {p n n' : Option Addr} {xs : List (Addr × α)} {a : Addr} {d : α}
    (hs : Seg h p (xs ++ [(a, d)]) n) (ha : h' a = some ⟨d, n', last p xs⟩)
    (he : ∀ b ∈ addrs xs, h' b = h b) : Seg h' p (xs ++ [(a, d)]) n' :=
  (seg_append h' p xs [(a, d)] n').mpr ⟨seg_congr (seg_last hs).2 he, ha, trivial⟩

/-- Only the first node of a segment knows what precedes it. -/
theorem seg_setFirst {h h' : Heap α} {p p' n : Option Addr} {xs : List (Addr × α)} {a : Addr} {d : α}
    (hs : Seg h p ((a, d) :: xs) n) (ha : h' a = some ⟨d, first xs n, p'⟩)
    (he : ∀ b ∈ addrs xs, h' b = h b) : Seg h' p' ((a, d) :: xs) n :=
  ⟨ha, seg_congr hs.2 he⟩

theorem seg_followNext {h : Heap α} {p : Option Addr} {xs : List (Addr × α)} (fuel : Nat)
    (hs : Seg h p xs none) (hf : xs.length ≤ fuel) : h.followNext fuel (first xs none) = xs := by
  induction xs generalizing p fuel with
  | nil => cases fuel <;> rfl
  | cons x xs ih =>
    obtain ⟨a, d⟩ := x
    obtain ⟨fuel, rfl⟩ : ∃ k, fuel = k + 1 := ⟨fuel - 1, by simp at hf; omega⟩
    simp only [first_cons, Heap.followNext, hs.1]
    rw [ih fuel hs.2 (by simpa using hf)]

theorem seg_followPrev {h : Heap α} {xs : List (Addr × α)} {n : Option Addr} (fuel : Nat)
    (hs : Seg h none xs n) (hf : xs.length ≤ fuel) :
    h.followPrev fuel (last none xs) = xs.reverse := by
  induction xs using List.reverseRecOn generalizing fuel n with
  | nil => cases fuel <;> rfl
  | append_singleton xs x ih =>
    obtain ⟨a, d⟩ := x
    obtain ⟨hx, hr⟩ := seg_last hs
    obtain ⟨fuel, rfl⟩ : ∃ k, fuel = k + 1 := ⟨fuel - 1, by simp at hf; omega⟩
    simp only [last_append, last_cons, last_nil, Heap.followPrev, hx, List.reverse_append]
    rw [ih fuel hr (by simpa using hf)]
    rfl

/-- A whole list: both ends null, reached from `head` and `tail`, no node in it twice and no
other node allocated. -/
structure Owns (h : Heap α) (head tail : Option Addr) (xs : List (Addr × α)) : Prop where
  seg : Seg h none xs none
  head_eq : head = first xs none
  tail_eq : tail = last none xs
  nodup : (addrs xs).Nodup
  only : ∀ a, a ∉ addrs xs → h a = none

namespace Owns

variable {h h' : Heap α} {hd tl : Option Addr} {a b c : Addr} {d e f : α}
  {xs ys : List (Addr × α)}

theorem empty : Owns (fun _ => none : Heap α) none none [] :=
  ⟨trivial, rfl, rfl, List.nodup_nil, fun _ _ => rfl⟩

/-- The second node is another one than the first. -/
theorem next_ne (o : Owns h hd tl ((a, d) :: (b, e) :: xs)) : b ≠ a := by
  have hn := o.nodup
  simp only [addrs_cons, List.nodup_cons, List.mem_cons, not_or] at hn
  exact fun he => hn.1.1 he.symm

/-- The first of two or more nodes is freed and the second becomes the head. -/
theorem popFront (o : Owns h hd tl ((a, d) :: (b, e) :: xs)) (ha : h' a = none)
    (hb : h' b = some ⟨e, first xs none, none⟩) (hc : ∀ c, c ≠ a → c ≠ b → h' c = h c) :
    Owns h' (some b) tl ((b, e) :: xs) := by
  obtain ⟨⟨-, -, hs⟩, -, ht, hn, ho⟩ := o
  simp only [addrs_cons, List.nodup_cons, List.mem_cons, not_or] at hn
  obtain ⟨⟨hab, hax⟩, hbx, hx⟩ := hn
  refine ⟨⟨hb, ?_⟩, rfl, ht, List.nodup_cons.mpr ⟨hbx, hx⟩, ?_⟩
  · apply seg_congr hs
    intro c hm
    exact hc c (ne_of_mem_of_not_mem hm hax) (ne_of_mem_of_not_mem hm hbx)
  · intro c hm
    simp only [addrs_cons, List.mem_cons, not_or] at hm
    by_cases hca : c = a
    · rw [hca, ha]
    · rw [hc c hca hm.1]
      exact ho c (by simp [hca, hm.1, hm.2])

/-- The last of two or more nodes is freed and the one before it becomes the tail. -/
theorem popBack (o : Owns h hd tl (xs ++ [(b, e), (a, d)])) (ha : h' a = none)
    (hb : h' b = some ⟨e, none, last none xs⟩) (hc : ∀ c, c ≠ a → c ≠ b → h' c = h c) :
    Owns h' hd (some b) (xs ++ [(b, e)]) := by
  obtain ⟨hs, hh, -, hn, ho⟩ := o
  obtain ⟨hs, -⟩ := (seg_append h none xs _ none).mp hs
  have hnx : a ∉ addrs xs ∧ b ∉ addrs xs ∧ b ≠ a ∧ (addrs xs).Nodup := by
    simp only [addrs_append, addrs_cons, addrs_nil, List.nodup_append, List.nodup_cons,
      List.mem_cons, List.not_mem_nil, or_false] at hn
    refine ⟨fun hm => ?_, fun hm => ?_, hn.2.1.1, hn.1⟩
    · exact hn.2.2 a hm a (Or.inr rfl) rfl
    · exact hn.2.2 b hm b (Or.inl rfl) rfl
  obtain ⟨hax, hbx, hba, hx⟩ := hnx
  refine ⟨?_, ?_, by simp, ?_, ?_⟩
  · refine (seg_append h' none xs _ none).mpr ⟨?_, hb, trivial⟩
    apply seg_congr hs
    intro c hm
    exact hc c (ne_of_mem_of_not_mem hm hax) (ne_of_mem_of_not_mem hm hbx)
  · simpa using hh
  · simp only [addrs_append, addrs_cons, addrs_nil]
    exact List.nodup_append.mpr ⟨hx, by simp, by simpa using fun c hm (he : c = b) => hbx (he ▸ hm)⟩
  · intro c hm
    simp only [addrs_append, addrs_cons, addrs_nil, List.mem_append, List.mem_cons,
      List.not_mem_nil, or_false, not_or] at hm
    by_cases hca : c = a
    · rw [hca, ha]
    · rw [hc c hca hm.2]
      exact ho c (by simp [hca, hm.1, hm.2])

/-- A node between two others is taken out and its neighbours are linked to each other. -/
theorem unlink (o : Owns h hd tl (xs ++ (c, f) :: (a, d) :: (b, e) :: ys)) (ha : h' a = none)
    (hcn : h' c = some ⟨f, some b, last none xs⟩)
    (hb : h' b = some ⟨e, first ys none, some c⟩)
    (hk : ∀ k, k ≠ a → k ≠ b → k ≠ c → h' k = h k) :
    Owns h' hd tl (xs ++ (c, f) :: (b, e) :: ys) := by
  obtain ⟨hs, hh, ht, hn, ho⟩ := o
  obtain ⟨hs1, -, -, -, hs2⟩ := (seg_append h none xs _ none).mp hs
  simp only [addrs_append, addrs_cons, List.nodup_append, List.nodup_cons, List.mem_cons,
    not_or] at hn
  obtain ⟨hx, ⟨⟨hca, hcb, hcy⟩, ⟨hab, hay⟩, hby, hy⟩, hxy⟩ := hn
  refine ⟨?_, by simpa using hh, by simpa using ht, ?_, ?_⟩
  · refine (seg_append h' none xs _ none).mpr ⟨?_, hcn, hb, ?_⟩
    · apply seg_congr hs1
      intro k hm
      exact hk k (fun he => hxy k hm a (by simp) he) (fun he => hxy k hm b (by simp) he)
        (fun he => hxy k hm c (by simp) he)
    · apply seg_congr hs2
      intro k hm
      exact hk k (ne_of_mem_of_not_mem hm hay) (ne_of_mem_of_not_mem hm hby)
        (ne_of_mem_of_not_mem hm hcy)
  · simp only [addrs_append, addrs_cons, List.nodup_append, List.nodup_cons, List.mem_cons, not_or]
    refine ⟨hx, ⟨⟨hcb, hcy⟩, hby, hy⟩, ?_⟩
    intro k hm j hj
    exact hxy k hm j (by tauto)
  · intro k hm
    simp only [addrs_append, addrs_cons, List.mem_append, List.mem_cons, not_or] at hm
    by_cases hka : k = a
    · rw [hka, ha]
    · rw [hk k hka hm.2.2.1 hm.2.1]
      exact ho k (by simp [hka, hm])

/-- A fresh node is linked behind the tail. -/
theorem pushBack (o : Owns h hd tl (xs ++ [(b, e)])) (hf : h a = none)
    (ha : h' a = some ⟨d, none, some b⟩) (hb : h' b = some ⟨e, some a, last none xs⟩)
    (hc : ∀ c, c ≠ a → c ≠ b → h' c = h c) :
    Owns h' hd (some a) (xs ++ [(b, e), (a, d)]) := by
  obtain ⟨hs, hh, -, hn, ho⟩ := o
  obtain ⟨hs1, hs2, -⟩ := (seg_append h none xs _ none).mp hs
  have halloc : ∀ c ∈ addrs (xs ++ [(b, e)]), c ≠ a := by
    intro c hm hca
    obtain ⟨⟨c', f⟩, hm', rfl⟩ := List.mem_map.mp hm
    obtain ⟨nx, pv, he⟩ := seg_alloc hs c' f hm'
    change c' = a at hca
    rw [hca, hf] at he
    cases he
  have hba : b ≠ a := halloc b (by simp)
  have hbx : b ∉ addrs xs := by
    intro hm
    simp only [addrs_append, addrs_cons, addrs_nil, List.nodup_append, List.mem_cons,
      List.not_mem_nil, or_false] at hn
    exact hn.2.2 b hm b rfl rfl
  refine ⟨?_, ?_, by simp, ?_, ?_⟩
  · refine (seg_append h' none xs _ none).mpr ⟨?_, hb, ha, trivial⟩
    apply seg_congr hs1
    intro c hm
    exact hc c (halloc c (by simp [hm])) (ne_of_mem_of_not_mem hm hbx)
  · simpa using hh
  · rw [show xs ++ [(b, e), (a, d)] = (xs ++ [(b, e)]) ++ [(a, d)] by simp, addrs_append]
    exact List.nodup_append.mpr ⟨hn, by simp, by simpa using fun c hm => halloc c (by simpa using hm)⟩
  · intro c hm
    simp only [addrs_append, addrs_cons, addrs_nil, List.mem_append, List.mem_cons,
      List.not_mem_nil, or_false, not_or] at hm
    rw [hc c hm.2.2 hm.2.1]
    exact ho c (by simp [hm.1, hm.2.1])

/-- The first node of an empty list. -/
theorem pushFirst (o : Owns h hd tl ([] : List (Addr × α))) (ha : h' a = some ⟨d, none, none⟩)
    (hc : ∀ c, c ≠ a → h' c = h c) : Owns h' (some a) (some a) [(a, d)] := by
  refine ⟨⟨ha, trivial⟩, rfl, rfl, by simp, ?_⟩
  intro c hm
  have hca : c ≠ a := by simpa using hm
  rw [hc c hca]
  exact o.only c (by simp)

/-- New data in one node, links untouched. -/
theorem setData (o : Owns h hd tl (xs ++ (a, d) :: ys))
    (ha : h' a = some ⟨e, first ys none, last none xs⟩) (hc : ∀ c, c ≠ a → h' c = h c) :
    Owns h' hd tl (xs ++ (a, e) :: ys) := by
  obtain ⟨hs, hh, ht, hn, ho⟩ := o
  obtain ⟨hs1, -, hs2⟩ := (seg_append h none xs _ none).mp hs
  have hsame : addrs (xs ++ (a, e) :: ys) = addrs (xs ++ (a, d) :: ys) := by simp
  have hax : a ∉ addrs xs ∧ a ∉ addrs ys := by
    simp only [addrs_append, addrs_cons, List.nodup_append, List.nodup_cons, List.mem_cons] at hn
    exact ⟨fun hm => hn.2.2 a hm a (Or.inl rfl) rfl, hn.2.1.1⟩
  refine ⟨?_, by simpa using hh, by simpa using ht, hsame ▸ hn, fun c hm => ?_⟩
  · refine (seg_append h' none xs _ none).mpr ⟨?_, ha, ?_⟩
    · exact seg_congr hs1 (fun c hm => hc c (ne_of_mem_of_not_mem hm hax.1))
    · exact seg_congr hs2 (fun c hm => hc c (ne_of_mem_of_not_mem hm hax.2))
  · rw [hsame] at hm
    rw [hc c (by rintro rfl; exact hm (by simp))]
    exact ho c hm

/-- A `next` link joins neighbours. -/
theorem next_split (o : Owns h hd tl xs) {n : Node α} (hb : h b = some n) (hn : n.next = some a) :
    ∃ us e d vs, xs = us ++ (b, e) :: (a, d) :: vs := by
  have hm : b ∈ addrs xs := by
    by_contra hnot
    rw [o.only b hnot] at hb
    cases hb
  obtain ⟨⟨c, e⟩, hx, rfl⟩ := List.mem_map.mp hm
  obtain ⟨us, ws, rfl⟩ := List.append_of_mem hx
  have hseg := ((seg_append h none us _ none).mp o.seg).2.1
  have hnext : first ws none = some a := by
    rw [← hn]
    exact congrArg Node.next (Option.some.inj (hseg.symm.trans hb))
  cases ws with
  | nil => cases hnext
  | cons w vs =>
    obtain ⟨c', d⟩ := w
    obtain rfl : c' = a := by simpa using hnext
    exact ⟨us, e, d, vs, rfl⟩

end Owns

/-- What owns a node: the head pointer, for `none`, or the `next` link of a node. -/
def Owner (h : Heap α) (head : Option Addr) : Option Addr → Addr → Prop
  | none, a => head = some a
  | some b, a => ∃ n, h b = some n ∧ n.next = some a

namespace Owns

variable {h : Heap α} {hd tl : Option Addr} {a : Addr} {d : α} {xs us vs : List (Addr × α)}

theorem notMem_before (o : Owns h hd tl (us ++ (a, d) :: vs)) : a ∉ addrs us ∧ a ∉ addrs vs := by
  have hn := o.nodup
  simp only [addrs_append, addrs_cons, List.nodup_append, List.nodup_cons] at hn
  exact ⟨fun hm => hn.2.2 a hm a (by simp) rfl, hn.2.1.1⟩

/-- A node is owned by the one before it, the first one by the head pointer. -/
theorem owner_iff (o : Owns h hd tl (us ++ (a, d) :: vs)) (p : Option Addr) :
    Owner h hd p a ↔ p = last none us := by
  obtain ⟨hus, -⟩ := o.notMem_before
  cases p with
  | none =>
    change hd = some a ↔ none = last none us
    rw [o.head_eq]
    cases us with
    | nil => simp
    | cons w us =>
      obtain ⟨ws, ⟨k, g⟩, hw⟩ : ∃ ws x, w :: us = ws ++ [x] :=
        ⟨(w :: us).dropLast, (w :: us).getLast (by simp), (List.dropLast_append_getLast _).symm⟩
      have hf : first (w :: us ++ (a, d) :: vs) none ≠ some a := by
        intro he
        have hwa : w.1 = a := by simpa [first] using he
        exact hus (by simp [addrs, hwa])
      have hl : none ≠ last none (w :: us) := by
        rw [hw]
        simp
      exact ⟨fun he => absurd he hf, fun he => absurd he hl⟩
  | some b =>
    constructor
    · intro hex
      obtain ⟨n, hb, hn⟩ := hex
      obtain ⟨ws, e, d', zs, hsplit⟩ := o.next_split hb hn
      have haddr := congrArg addrs hsplit
      rw [show ws ++ (b, e) :: (a, d') :: zs = (ws ++ [(b, e)]) ++ (a, d') :: zs by simp] at hsplit
      have hlen : us.length = (ws ++ [(b, e)]).length := by
        have h1 : addrs us ++ a :: addrs vs = addrs (ws ++ [(b, e)]) ++ a :: addrs zs := by
          simpa using haddr
        have h2 := (List.append_cons_inj_of_notMem o.notMem_before.1 o.notMem_before.2).mp h1
        simpa [addrs] using congrArg List.length h2.1
      rw [(List.append_inj hsplit hlen).1]
      simp
    · intro hl
      rcases List.eq_nil_or_concat us with rfl | ⟨ws, ⟨c, e⟩, rfl⟩
      · cases hl
      · simp only [List.concat_eq_append] at o hl
        obtain rfl : b = c := by simpa using hl
        rw [List.append_assoc] at o
        exact ⟨_, ((seg_append h none ws _ none).mp o.seg).2.1, rfl⟩

theorem owner_unique (o : Owns h hd tl xs) (ha : h a ≠ none) : ∃! p, Owner h hd p a := by
  have hm : a ∈ addrs xs := by
    by_contra hnot
    exact ha (o.only a hnot)
  obtain ⟨⟨b, d⟩, hx, rfl⟩ := List.mem_map.mp hm
  obtain ⟨us, vs, rfl⟩ := List.append_of_mem hx
  exact ⟨last none us, (o.owner_iff _).mpr rfl, fun p hp => (o.owner_iff p).mp hp⟩

/-- No node owns itself. -/
theorem not_owner_self (o : Owns h hd tl xs) : ¬Owner h hd (some a) a := by
  intro hex
  obtain ⟨n, ha, hn⟩ := hex
  obtain ⟨us, e, d, vs, rfl⟩ := o.next_split ha hn
  exact o.notMem_before.2 (by simp)

/-- Two heaps that hold the same nodes hold the same data at every address. -/
theorem data_eq {h' : Heap α} {hd' tl' : Option Addr} {ys : List (Addr × α)} (o : Owns h hd tl xs)
    (o' : Owns h' hd' tl' ys) (hp : ys.Perm xs) (a : Addr) :
    (h' a).map Node.data = (h a).map Node.data := by
  by_cases hm : a ∈ addrs xs
  · obtain ⟨⟨b, d⟩, hx, rfl⟩ := List.mem_map.mp hm
    obtain ⟨nx, pv, ha⟩ := seg_alloc o.seg b d hx
    obtain ⟨nx', pv', ha'⟩ := seg_alloc o'.seg b d (hp.mem_iff.mpr hx)
    simp [ha, ha']
  · have hm' : a ∉ addrs ys := fun h => hm ((hp.map Prod.fst).mem_iff.mp h)
    rw [o.only a hm, o'.only a hm']

end Owns

end Sysprog
