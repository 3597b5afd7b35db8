import Sysprog.Storage.Eviction

namespace Sysprog.Storage

section move

variable {s t : SimpleLRU} {xs ys : List (Addr × Item)} {a : Addr} {d : Item}

/-- What `_move_to_fresh_data` makes of `s`, whose list is `xs`, the node `a` and `ys`. -/
structure Moved (s : SimpleLRU) (xs ys : List (Addr × Item)) (a : Addr) (d : Item) (t : SimpleLRU) :
    Prop where
  order : Owns t.heap t.lruHead t.lruTail (xs ++ ys ++ [(a, d)])
  owned : ∀ b, t.heap b ≠ none → ∃! p, Owner t.heap t.lruHead p b
  noCycle : ∀ b, ¬Owner t.heap t.lruHead (some b) b
  headPrev : ∀ b n, t.lruHead = some b → t.heap b = some n → n.prev = none
  tailNext : ∃ p, t.heap a = some ⟨d, none, p⟩
  tail : t.lruTail = some a
  data : ∀ b, (t.heap b).map Node.data = (s.heap b).map Node.data
  index : t.lruIndex = s.lruIndex
  maxSize : t.maxSize = s.maxSize
  currentSize : t.currentSize = s.currentSize

theorem moved_of_owns (o : Owns s.heap s.lruHead s.lruTail (xs ++ (a, d) :: ys)) {h : Heap Item}
    {hd : Option Addr} (o' : Owns h hd (some a) (xs ++ ys ++ [(a, d)])) :
    Moved s xs ys a d { s with heap := h, lruHead := hd, lruTail := some a } where
  order := o'
  owned := fun _ hb => o'.owner_unique hb
  noCycle := fun _ => o'.not_owner_self
  headPrev := by
    intro b n hb hn
    have hh : some b = first (xs ++ ys ++ [(a, d)]) none := hb.symm.trans o'.head_eq
    have hseg := o'.seg
    generalize xs ++ ys ++ [(a, d)] = zs at hh hseg
    cases zs with
    | nil => cases hh
    | cons z zs =>
      obtain rfl : b = z.1 := by simpa [first] using hh
      rw [← Option.some.inj (hseg.1.symm.trans hn)]
  tailNext := ⟨_, (seg_last o'.seg).1⟩
  tail := rfl
  data := by
    apply o.data_eq o'
    rw [List.append_assoc]
    exact (List.perm_append_singleton _ _).append_left xs
  index := rfl
  maxSize := rfl
  currentSize := rfl

/-- `_move_to_fresh_data` takes any node of any list to the tail, and `Get` does nothing else. -/
theorem move_to_fresh_data (o : Owns s.heap s.lruHead s.lruTail (xs ++ (a, d) :: ys)) :
    (∃ t, s.moveToFreshData a = some t ∧ Moved s xs ys a d t) ∧
    (Rep s (xs ++ (a, d) :: ys) → ∀ value, ∃ t, s.get d.key value = some ((true, d.value), t) ∧
      Moved s xs ys a d t ∧ Linked t ((xs ++ ys ++ [(a, d)]).map Prod.snd)) := by
  obtain ⟨h, hd, he, o'⟩ := SimpleLRU.moveToFreshData_spec o
  have hm := moved_of_owns o o'
  refine ⟨⟨_, he, hm⟩, ?_⟩
  intro r value
  have hi : s.lruIndex d.key = some a := (r.index d.key a).mpr ⟨d.value, by simp⟩
  have ha := ((seg_append _ none xs _ none).mp o.seg).2.1
  refine ⟨_, by simp [SimpleLRU.get, hi, ha, he], hm, ?_⟩
  have hr : Refines _ _ := ⟨_, r.move (n := s.currentSize) d.value o', rfl⟩
  exact hr.linked

/-- The oldest of two nodes becomes the freshest. -/
theorem move_to_fresh_data_head :
    ∃ s a b, Owns s.heap s.lruHead s.lruTail ([] ++ (a, ⟨[1], [2]⟩) :: [(b, ⟨[3], [4]⟩)]) ∧
      ∃ t, s.moveToFreshData a = some t ∧ Moved s [] [(b, ⟨[3], [4]⟩)] a ⟨[1], [2]⟩ t := by
  obtain ⟨s, hs, -⟩ := exists_full_store
  have hrep := hs.linked.rep
  obtain ⟨a, b, hx⟩ : ∃ a b, s.nodes = [(a, ⟨[1], [2]⟩), (b, ⟨[3], [4]⟩)] := by
    have hf := hs.linked.forward
    simpa [List.map_eq_cons_iff] using hf
  rw [hx] at hrep
  exact ⟨s, a, b, hrep.owns, (move_to_fresh_data hrep.owns).1⟩

end move

end Sysprog.Storage
