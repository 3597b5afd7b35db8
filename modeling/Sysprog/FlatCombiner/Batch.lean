import Sysprog.FlatCombiner.Scan

namespace Sysprog.FlatCombiner

variable {α : Type}

namespace Slot

/-- Stamped, where it is pending. -/
def stamp (gen : UInt64) (s : Slot α) : Slot α :=
  if s.needToProcess then { s with generation := gen } else s

def relink (s : Slot α) (ptr : Option α) : Slot α :=
  { s with nextAndAlive := { s.nextAndAlive with ptr } }

/-- What is left of a slot that has been unlinked. -/
def unlinked (s : Slot α) : Option (Slot α) :=
  if s.nextAndAlive.tag then some { s with nextAndAlive := .null } else none

end Slot

namespace Slots

def link (slots : Slots α) (a : α) : Option α := (slots a).bind Slot.next

def pending (slots : Slots α) (a : α) : Bool := (slots a).any fun s => s.needToProcess

/-- What `combining` takes for a slot that has not been used for long. -/
def aged (gen : UInt64) (slots : Slots α) (a : α) : Bool :=
  (slots a).any fun s => !s.needToProcess && decide (s.generation < gen - generationOffset)

end Slots

/-- Idle, and more than `generation_offset` generations behind. -/
def Slots.stale (gen : UInt64) (slots : Slots α) (a : α) : Bool :=
  (slots a).any fun s =>
    !s.needToProcess && decide (s.generation.toNat + generationOffset.toNat < gen.toNat)

/-- A publication list: the slots `xs` between the two dummies. -/
structure Published (slots : Slots α) (head : α) (xs : List α) (tail : α) : Prop where
  linked : Chain slots.link head (xs ++ [tail])
  nodup : (head :: (xs ++ [tail])).Nodup
  there : ∀ a ∈ head :: (xs ++ [tail]), ∃ s, slots a = some s
  head : slots.pending head = false
  tail : slots.pending tail = false

/-- What the loop has made of the slots `scanned`, where those of `rest` are still to come. -/
structure At (gen : UInt64) (slots : Slots α) (head : α) (shot : Block α) (scanned rest : List α)
    (s : Scan α) : Prop where
  linked : Chain s.slots.link head ((scanned.filter fun a => !slots.aged gen a) ++ rest)
  parent : s.parent = (scanned.filter fun a => !slots.aged gen a).getLastD head
  curSlot : s.curSlot = rest.head?
  kept : ∀ a ∈ head :: scanned.filter fun a => !slots.aged gen a,
    ∃ x ptr, slots a = some x ∧ s.slots a = some ((x.stamp gen).relink ptr)
  removed : ∀ a ∈ scanned, slots.aged gen a = true →
    ∀ x, slots a = some x → s.slots a = x.unlinked
  frame : ∀ a, a ≠ head → a ∉ scanned → s.slots a = slots a
  i : s.i = (scanned.filter slots.pending).length
  room : s.i ≤ shot.length
  shot : s.shot = (scanned.filter slots.pending).map some ++ shot.drop s.i

theorem Slot.relink_next (x : Slot α) : x.relink x.next = x := rfl

theorem Slot.stamp_next (gen : UInt64) (x : Slot α) : (x.stamp gen).next = x.next := by
  unfold stamp
  split_ifs <;> rfl

theorem Slots.store_link [DecidableEq α] (m : Slots α) (a : α) (y : Slot α) :
    (m.store a y).link = Function.update m.link a y.next := by
  funext b
  by_cases hb : b = a
  · subst hb
    simp [Slots.link, Slots.store]
  · simp [Slots.link, Slots.store, hb]

/-- A slot is unlinked by giving its link to the slot before it, whatever becomes of it. -/
theorem Slots.chain_unlink [DecidableEq α] {m : Slots α} {head c : α} {ys rest : List α} {x : Slot α}
    (h : Chain m.link head (ys ++ c :: rest)) (nodup : (head :: (ys ++ c :: rest)).Nodup)
    (hx : m c = some x) (q : Slot α) (left : Option (Slot α)) :
    Chain (Slots.link (Function.update (m.store (ys.getLastD head) (q.relink x.next)) c left)) head
      (ys ++ rest) := by
  have chain := h.unlink nodup
  have link : m.link c = x.next := by
    rw [Slots.link, hx]
    rfl
  rw [link] at chain
  apply chain.congr
  intro a ha
  have hc : a ≠ c := by
    rintro rfl
    rw [← List.cons_append] at nodup ha
    rcases List.mem_append.mp ha with ha | ha
    · exact (List.nodup_append.mp nodup).2.2 a ha a List.mem_cons_self rfl
    · exact (List.nodup_cons.mp (List.nodup_append.mp nodup).2.1).1 ha
  have eq : (m.store (ys.getLastD head) (q.relink x.next)).link a =
      Function.update m.link (ys.getLastD head) x.next a := by
    rw [Slots.store_link]
    rfl
  rw [← eq]
  simp [Slots.link, hc]

namespace At

variable {gen : UInt64} {slots : Slots α} {head c : α} {shot : Block α} {scanned rest : List α}
  {s : Scan α} {x : Slot α}

theorem length (h : At gen slots head shot scanned rest s) : s.shot.length = shot.length := by
  have room := h.room
  rw [h.shot, List.length_append, List.length_map, List.length_drop, ← h.i]
  omega

/-- The slots behind the loop are other ones than that under it. -/
theorem ne_here (nodup : (head :: (scanned ++ c :: rest)).Nodup) : ∀ a ∈ head :: scanned, a ≠ c := by
  rintro a ha rfl
  rw [← List.cons_append] at nodup
  exact (List.nodup_append.mp nodup).2.2 a ha a List.mem_cons_self rfl

theorem mem_scanned {a : α} {p : α → Bool} (ha : a ∈ head :: scanned.filter p) :
    a ∈ head :: scanned := by
  rcases List.mem_cons.mp ha with rfl | ha
  · exact List.mem_cons_self
  · exact List.mem_cons_of_mem _ (List.mem_filter.mp ha).1

/-- The slot under the loop is as it was. -/
theorem here (h : At gen slots head shot scanned (c :: rest) s)
    (nodup : (head :: (scanned ++ c :: rest)).Nodup) : s.slots c = slots c := by
  have ne := ne_here nodup
  apply h.frame c
  · exact (ne head List.mem_cons_self).symm
  · intro hc
    exact ne c (List.mem_cons_of_mem _ hc) rfl

/-- The link of the slot under the loop. -/
theorem link_here (h : At gen slots head shot scanned (c :: rest) s) :
    s.slots.link c = rest.head? := by
  have chain := h.linked
  rw [← List.singleton_append, ← List.append_assoc] at chain
  simpa using chain.link_last

/-- What is collected and what is still pending come to the same all along. -/
theorem total {s' : Scan α} (h : At gen slots head shot scanned (c :: rest) s)
    (next : At gen slots head shot (scanned ++ [c]) rest s') :
    s'.i + (rest.filter slots.pending).length = s.i + ((c :: rest).filter slots.pending).length := by
  rw [next.i, h.i, ← List.length_append, ← List.filter_append, ← List.length_append,
    ← List.filter_append, List.append_assoc, List.singleton_append]

variable [DecidableEq α]

/-- The slot under the loop stays in the list. -/
theorem keep (h : At gen slots head shot scanned (c :: rest) s)
    (nodup : (head :: (scanned ++ c :: rest)).Nodup) (hx : slots c = some x)
    (young : slots.aged gen c = false) {i : Nat} {shot' : Block α}
    (hi : i = ((scanned ++ [c]).filter slots.pending).length) (room : i ≤ shot.length)
    (hshot : shot' = ((scanned ++ [c]).filter slots.pending).map some ++ shot.drop i) :
    At gen slots head shot (scanned ++ [c]) rest
      ⟨s.slots.store c (x.stamp gen), c, x.next, i, shot'⟩ := by
  have kept : (scanned ++ [c]).filter (fun a => !slots.aged gen a) =
      (scanned.filter fun a => !slots.aged gen a) ++ [c] := by
    simp [young]
  have now : s.slots c = some x := (h.here nodup).trans hx
  have link : x.next = rest.head? := by
    rw [← h.link_here, Slots.link, now]
    rfl
  have ne := ne_here nodup
  have old : ∀ a, a ≠ c → s.slots.store c (x.stamp gen) a = s.slots a := by
    intro a ha
    simp [Slots.store, ha]
  have same : (s.slots.store c (x.stamp gen)).link = s.slots.link := by
    rw [Slots.store_link, Slot.stamp_next]
    apply Function.update_eq_self_iff.mpr
    simp [Slots.link, now]
  exact
    { linked := by
        show Chain (s.slots.store c (x.stamp gen)).link head _
        rw [same, kept, List.append_assoc]
        exact h.linked
      parent := by
        rw [kept]
        simp
      curSlot := link
      kept := by
        intro a ha
        rw [kept, ← List.cons_append, List.mem_append, List.mem_singleton] at ha
        rcases ha with ha | rfl
        · obtain ⟨y, ptr, hy, hs⟩ := h.kept a ha
          exact ⟨y, ptr, hy, (old a (ne a (mem_scanned ha))).trans hs⟩
        · exact ⟨x, (x.stamp gen).next, hx, by simp [Slots.store, Slot.relink_next]⟩
      removed := by
        intro a ha aged y hy
        rcases List.mem_append.mp ha with ha | ha
        · rw [← h.removed a ha aged y hy]
          exact old a (ne a (List.mem_cons_of_mem _ ha))
        · rw [List.mem_singleton.mp ha, young] at aged
          cases aged
      frame := by
        intro a hh ha
        rw [List.mem_append, List.mem_singleton, not_or] at ha
        exact (old a ha.2).trans (h.frame a hh ha.1)
      i := hi
      room := room
      shot := hshot }

/-- The slot under the loop leaves the list, and the loop goes on from the slot before it. -/
theorem drop (h : At gen slots head shot scanned (c :: rest) s)
    (nodup : (head :: (scanned ++ c :: rest)).Nodup) (hx : slots c = some x)
    (old : slots.aged gen c = true) {q : Slot α} (hq : s.slots s.parent = some q) :
    At gen slots head shot (scanned ++ [c]) rest
      ⟨Function.update (s.slots.store s.parent (q.relink x.next)) c x.unlinked, s.parent, x.next,
        s.i, s.shot⟩ := by
  have kept : (scanned ++ [c]).filter (fun a => !slots.aged gen a) =
      scanned.filter fun a => !slots.aged gen a := by
    simp [old]
  have idle : (scanned ++ [c]).filter slots.pending = scanned.filter slots.pending := by
    have : slots.pending c = false := by
      simp only [Slots.aged, hx, Option.any_some, Bool.and_eq_true, Bool.not_eq_true'] at old
      simp [Slots.pending, hx, old.1]
    simp [this]
  have now : s.slots c = some x := (h.here nodup).trans hx
  have link : s.slots.link c = x.next := by
    rw [Slots.link, now]
    rfl
  have ne := ne_here nodup
  have inside : s.parent ∈ head :: scanned.filter fun a => !slots.aged gen a := by
    rw [h.parent]
    exact getLastD_mem _ _
  have same : ∀ a, a ≠ c → a ≠ s.parent →
      Function.update (s.slots.store s.parent (q.relink x.next)) c x.unlinked a = s.slots a := by
    intro a hc hp
    simp [Slots.store, hc, hp]
  have below : (head :: ((scanned.filter fun a => !slots.aged gen a) ++ c :: rest)).Nodup := by
    exact List.Nodup.sublist ((List.filter_sublist.append (List.Sublist.refl _)).cons_cons head) nodup
  exact
    { linked := by
        rw [kept]
        have chain := Slots.chain_unlink h.linked below now q x.unlinked
        rw [← h.parent] at chain
        exact chain
      parent := by
        rw [kept]
        exact h.parent
      curSlot := link.symm.trans h.link_here
      kept := by
        intro a ha
        rw [kept] at ha
        have hc : a ≠ c := ne a (mem_scanned ha)
        obtain ⟨y, ptr, hy, hs⟩ := h.kept a ha
        by_cases hp : a = s.parent
        · subst hp
          obtain rfl : (y.stamp gen).relink ptr = q := Option.some.inj (hs.symm.trans hq)
          exact ⟨y, x.next, hy, by simp [hc, Slots.store, Slot.relink]⟩
        · exact ⟨y, ptr, hy, (same a hc hp).trans hs⟩
      removed := by
        intro a ha aged y hy
        rcases List.mem_append.mp ha with ha | ha
        · rw [← h.removed a ha aged y hy]
          apply same a (ne a (List.mem_cons_of_mem _ ha))
          rintro rfl
          rcases List.mem_cons.mp inside with eq | hm
          · rw [eq] at ha
            exact (List.nodup_cons.mp nodup).1 (List.mem_append_left _ ha)
          · simp [aged] at hm
        · obtain rfl := List.mem_singleton.mp ha
          obtain rfl : x = y := Option.some.inj (hx.symm.trans hy)
          simp
      frame := by
        intro a hh ha
        rw [List.mem_append, List.mem_singleton, not_or] at ha
        rw [← h.frame a hh ha.1]
        apply same a ha.2
        rintro rfl
        rcases List.mem_cons.mp (mem_scanned inside) with eq | hm
        · exact hh eq
        · exact ha.1 hm
      i := by
        rw [idle]
        exact h.i
      room := h.room
      shot := by
        rw [idle]
        exact h.shot }

end At

theorem Slots.load_eq {m : Slots α} {a : α} {x : Slot α} (h : m a = some x) : m.load a = .ok x := by
  rw [Slots.load, h]

theorem dequeueSlot_eq [DecidableEq α] {m : Slots α} {p c : α} {q x : Slot α} (hp : m p = some q)
    (hc : m c = some x) : dequeueSlot m p c =
      .ok (Function.update (m.store p (q.relink x.next)) c x.unlinked) := by
  simp only [dequeueSlot, Slots.load_eq hp, Slots.load_eq hc, bind, Except.bind]
  cases tag : x.nextAndAlive.tag <;>
    simp [Slots.store, Slots.delete, Slot.unlinked, tag, Slot.relink, Slot.next, TagedPointer.setTag]

namespace At

variable [DecidableEq α] {gen : UInt64} {slots : Slots α} {head c : α} {shot : Block α}
  {scanned rest : List α} {s : Scan α} {x : Slot α}

/-- A pending slot is collected and stamped. -/
theorem turn_pending (h : At gen slots head shot scanned (c :: rest) s)
    (nodup : (head :: (scanned ++ c :: rest)).Nodup) (hx : slots c = some x)
    (pending : x.needToProcess = true) (room : s.i < shot.length) :
    ∃ s', s.turn gen = .ok s' ∧ At gen slots head shot (scanned ++ [c]) rest s' := by
  have now : s.slots c = some x := (h.here nodup).trans hx
  have cur : s.curSlot = some c := h.curSlot
  have young : slots.aged gen c = false := by simp [Slots.aged, hx, pending]
  have collected : (scanned ++ [c]).filter slots.pending = scanned.filter slots.pending ++ [c] := by
    have : slots.pending c = true := by simp [Slots.pending, hx, pending]
    simp [this]
  have stored : s.shot.store s.i c =
      some ((scanned.filter slots.pending ++ [c]).map some ++ shot.drop (s.i + 1)) := by
    have := h.i
    rw [h.shot, this]
    apply Block.store_over c
    rw [← this]
    exact room
  have stamped : x.stamp gen = { x with generation := gen } := if_pos pending
  have i : s.i + 1 = ((scanned ++ [c]).filter slots.pending).length := by simp [collected, h.i]
  refine ⟨_, ?_, h.keep nodup hx young i room (by rw [collected])⟩
  have loaded : (s.slots.store c (x.stamp gen)).load c = .ok (x.stamp gen) :=
    Slots.load_eq (Function.update_self c _ s.slots)
  simp only [Scan.turn, cur, Slots.load_eq now, bind, Except.bind, if_pos pending, stored,
    Scan.advance, ← stamped, loaded, Slot.stamp_next]

/-- There is no room for it. -/
theorem turn_full (h : At gen slots head shot scanned (c :: rest) s)
    (nodup : (head :: (scanned ++ c :: rest)).Nodup) (hx : slots c = some x)
    (pending : x.needToProcess = true) (full : shot.length ≤ s.i) :
    s.turn gen = .error .shot := by
  have now : s.slots c = some x := (h.here nodup).trans hx
  have cur : s.curSlot = some c := h.curSlot
  have stored : s.shot.store s.i c = none := by
    apply Block.store_eq_none
    rw [h.length]
    exact full
  simp only [Scan.turn, cur, Slots.load_eq now, bind, Except.bind, if_pos pending, stored]

/-- An idle slot stays or goes. -/
theorem turn_idle (h : At gen slots head shot scanned (c :: rest) s)
    (nodup : (head :: (scanned ++ c :: rest)).Nodup) (hx : slots c = some x)
    (idle : x.needToProcess = false) :
    ∃ s', s.turn gen = .ok s' ∧ At gen slots head shot (scanned ++ [c]) rest s' := by
  have now : s.slots c = some x := (h.here nodup).trans hx
  have cur : s.curSlot = some c := h.curSlot
  have waits : ¬ x.needToProcess = true := by simp [idle]
  by_cases old : x.generation < gen - generationOffset
  · have aged : slots.aged gen c = true := by simp [Slots.aged, hx, idle, old]
    have inside : s.parent ∈ head :: scanned.filter fun a => !slots.aged gen a := by
      rw [h.parent]
      exact getLastD_mem _ _
    obtain ⟨y, ptr, -, hq⟩ := h.kept _ inside
    refine ⟨_, ?_, h.drop nodup hx aged hq⟩
    have apart : s.parent ≠ c := ne_here nodup _ (mem_scanned inside)
    have back : Slots.load (Function.update (s.slots.store s.parent
        (((y.stamp gen).relink ptr).relink x.next)) c x.unlinked) s.parent =
        .ok (((y.stamp gen).relink ptr).relink x.next) := by
      apply Slots.load_eq
      simp [apart, Slots.store]
    simp only [Scan.turn, cur, Slots.load_eq now, bind, Except.bind, if_neg waits, if_pos old,
      dequeueSlot_eq hq now, Scan.advance, back]
    rfl
  · have young : slots.aged gen c = false := by simp [Slots.aged, hx, old]
    have collected : (scanned ++ [c]).filter slots.pending = scanned.filter slots.pending := by
      have : slots.pending c = false := by simp [Slots.pending, hx, idle]
      simp [this]
    have same : s.slots.store c (x.stamp gen) = s.slots := by
      rw [Slot.stamp, if_neg waits, Slots.store, ← now, Function.update_eq_self]
    have i : s.i = ((scanned ++ [c]).filter slots.pending).length := by rw [collected, h.i]
    have batch : s.shot = ((scanned ++ [c]).filter slots.pending).map some ++ shot.drop s.i := by
      rw [collected]
      exact h.shot
    have next := h.keep nodup hx young i h.room batch
    rw [same] at next
    refine ⟨_, ?_, next⟩
    simp only [Scan.turn, cur, Slots.load_eq now, bind, Except.bind, if_neg waits, if_neg old,
      Scan.advance]

theorem step_turn (h : At gen slots head shot scanned (c :: rest) s) :
    Combining.step gen (.scanning s) = some (.ofTurn (s.turn gen)) := by
  have cur : s.curSlot ≠ none := by simp [h.curSlot]
  rw [Combining.step, if_pos (.inl cur)]

/-- One turn, where there is room for the slot under the loop. -/
theorem turn (h : At gen slots head shot scanned (c :: rest) s)
    (nodup : (head :: (scanned ++ c :: rest)).Nodup) (hx : slots c = some x)
    (room : x.needToProcess = true → s.i < shot.length) :
    ∃ s', Combining.step gen (.scanning s) = some (.scanning s') ∧
      At gen slots head shot (scanned ++ [c]) rest s' := by
  have turned : ∃ s', s.turn gen = .ok s' ∧ At gen slots head shot (scanned ++ [c]) rest s' := by
    cases pending : x.needToProcess with
    | true => exact h.turn_pending nodup hx pending (room pending)
    | false => exact h.turn_idle nodup hx pending
  obtain ⟨s', turned, next⟩ := turned
  exact ⟨s', by rw [h.step_turn, turned]; rfl, next⟩

/-- Where there is room for all that is pending, the loop gets to the end of the list. -/
theorem run (h : At gen slots head shot scanned rest s) (nodup : (head :: (scanned ++ rest)).Nodup)
    (there : ∀ a ∈ rest, ∃ x, slots a = some x)
    (room : s.i + (rest.filter slots.pending).length ≤ shot.length) :
    ∃ s', Reaches (Combining.step gen) (.scanning s) (.scanning s') ∧
      At gen slots head shot (scanned ++ rest) [] s' := by
  induction rest generalizing scanned s with
  | nil => exact ⟨s, .refl, by simpa using h⟩
  | cons c rest ih =>
    obtain ⟨x, hx⟩ := there c List.mem_cons_self
    have fits : x.needToProcess = true → s.i < shot.length := by
      intro pending
      have hp : slots.pending c = true := by simp [Slots.pending, hx, pending]
      rw [List.filter_cons_of_pos hp, List.length_cons] at room
      omega
    obtain ⟨s', step, next⟩ := h.turn nodup hx fits
    rw [← h.total next] at room
    rw [List.append_cons] at nodup ⊢
    obtain ⟨t, reaches, last⟩ := ih next nodup (fun a ha => there a (List.mem_cons_of_mem _ ha)) room
    exact ⟨t, reaches.step step, last⟩

/-- Where there is not, it stores behind the end of the batch. -/
theorem overrun (h : At gen slots head shot scanned rest s)
    (nodup : (head :: (scanned ++ rest)).Nodup) (there : ∀ a ∈ rest, ∃ x, slots a = some x)
    (full : shot.length < s.i + (rest.filter slots.pending).length) :
    Reaches (Combining.step gen) (.scanning s) (.faulted .shot) := by
  induction rest generalizing scanned s with
  | nil => exact absurd h.room (Nat.not_le.mpr full)
  | cons c rest ih =>
    obtain ⟨x, hx⟩ := there c List.mem_cons_self
    by_cases out : x.needToProcess = true ∧ shot.length ≤ s.i
    · refine Relation.ReflTransGen.single ?_
      rw [h.step_turn, h.turn_full nodup hx out.1 out.2]
      rfl
    · have fits : x.needToProcess = true → s.i < shot.length := by
        intro pending
        exact Nat.lt_of_not_le fun le => out ⟨pending, le⟩
      obtain ⟨s', step, next⟩ := h.turn nodup hx fits
      rw [← h.total next] at full
      rw [List.append_cons] at nodup
      have rest := ih next nodup (fun a ha => there a (List.mem_cons_of_mem _ ha)) full
      exact rest.step step

end At

/-- The start of the loop. -/
theorem Published.starts [DecidableEq α] {slots : Slots α} {head tail : α} {xs : List α}
    (h : Published slots head xs tail) (gen : UInt64) (shot : Block α) :
    ∃ s, Combining.start slots head shot = .scanning s ∧ s.i = 0 ∧
      At gen slots head shot [] (xs ++ [tail]) s := by
  obtain ⟨x, hx⟩ := h.there head List.mem_cons_self
  have idle : x.needToProcess = false := by simpa [Slots.pending, hx] using h.head
  have link : slots.link head = x.next := by simp [Slots.link, hx]
  have linked : Chain slots.link head ([] ++ (xs ++ [tail])) := h.linked
  refine ⟨⟨slots, head, x.next, 0, shot⟩, ?_, rfl, ?_⟩
  · simp [Combining.start, Slots.load_eq hx, Combining.ofTurn, bind, Except.bind]
  · exact
      { linked := linked
        parent := rfl
        curSlot := link.symm.trans linked.link_last
        kept := by
          intro a ha
          obtain rfl : a = head := by simpa using ha
          have same : x.stamp gen = x := if_neg (by simp [idle])
          exact ⟨x, x.next, hx, by rw [same]; exact hx⟩
        removed := by simp
        frame := fun _ _ _ => rfl
        i := rfl
        room := Nat.zero_le _
        shot := rfl }

theorem Published.pending_tail {slots : Slots α} {head tail : α} {xs : List α}
    (h : Published slots head xs tail) :
    (xs ++ [tail]).filter slots.pending = xs.filter slots.pending := by
  simp [h.tail]

/-- How `combining` ends, by the number of pending slots: with a null pointer where the batch has
room left, behind the end of the batch where they are too many, and else at the end of the list. -/
theorem Published.ends [DecidableEq α] {slots : Slots α} {head tail : α} {xs : List α}
    (h : Published slots head xs tail) (gen : UInt64) (shot : Block α) :
    ((xs.filter slots.pending).length < shot.length ∧
      Reaches (Combining.step gen) (Combining.start slots head shot) (.faulted .null)) ∨
    (shot.length < (xs.filter slots.pending).length ∧
      Reaches (Combining.step gen) (Combining.start slots head shot) (.faulted .shot)) ∨
    ((xs.filter slots.pending).length = shot.length ∧
      ∃ s, Reaches (Combining.step gen) (Combining.start slots head shot) (.returned s) ∧
        At gen slots head shot (xs ++ [tail]) [] s) := by
  obtain ⟨start, eq, zero, first⟩ := h.starts gen shot
  have there : ∀ a ∈ xs ++ [tail], ∃ x, slots a = some x :=
    fun a ha => h.there a (List.mem_cons_of_mem _ ha)
  rw [eq]
  rcases Nat.lt_or_ge shot.length (xs.filter slots.pending).length with many | few
  · refine .inr (.inl ⟨many, ?_⟩)
    apply first.overrun h.nodup there
    rw [h.pending_tail, zero, Nat.zero_add]
    exact many
  · have room : start.i + ((xs ++ [tail]).filter slots.pending).length ≤ shot.length := by
      rw [h.pending_tail, zero, Nat.zero_add]
      exact few
    obtain ⟨s, reaches, last⟩ := first.run h.nodup there room
    have cur : s.curSlot = none := last.curSlot
    have count : s.i = (xs.filter slots.pending).length := by
      rw [last.i, List.nil_append, h.pending_tail]
    have length := last.length
    rcases Nat.lt_or_eq_of_le few with less | eq
    · refine .inl ⟨less, reaches.tail ?_⟩
      have room : s.i < s.shot.length := by omega
      rw [Combining.step, if_pos (.inr room), Scan.turn, cur]
      rfl
    · refine .inr (.inr ⟨eq, s, reaches.tail ?_, last⟩)
      have done : ¬ (s.curSlot ≠ none ∨ s.i < s.shot.length) := by
        rw [cur]
        simp
        omega
      rw [Combining.step, if_neg done]

section

variable {gen : UInt64} {slots : Slots α} {head tail a : α} {xs : List α} {shot : Block α} {x : Slot α}

/-- What `combining` is to leave behind: the first of the pending slots in the batch, with the stamp
of the generation, and every slot in the list that is not stale. -/
structure Batched (gen : UInt64) (slots : Slots α) (head : α) (xs : List α) (tail : α)
    (shot : Block α) (s : Scan α) : Prop where
  count : s.i = min shot.length (xs.filter slots.pending).length
  batch : s.shot = ((xs.filter slots.pending).take shot.length).map some ++ shot.drop s.i
  linked : Chain s.slots.link head ((xs.filter fun a => !slots.stale gen a) ++ [tail])
  slots : ∀ a ∈ head :: ((xs.filter fun a => !slots.stale gen a) ++ [tail]),
    ∃ x y, slots a = some x ∧ s.slots a = some y ∧ y.needToProcess = x.needToProcess ∧
      y.nextAndAlive.tag = x.nextAndAlive.tag ∧
      (a ∈ (xs.filter slots.pending).take shot.length → y.generation = gen) ∧
      (a ∉ (xs.filter slots.pending).take shot.length → y.generation = x.generation)

/-- `combining(gen)` returns, without a null pointer followed or a store behind the batch, and
leaves this behind. -/
def Combines [DecidableEq α] (gen : UInt64) (slots : Slots α) (head : α) (xs : List α) (tail : α)
    (shot : Block α) : Prop :=
  ∃ s, Reaches (Combining.step gen) (Combining.start slots head shot) (.returned s) ∧
    Batched gen slots head xs tail shot s

/-- As many slots are pending as the batch holds, no difference in the test of the age wraps around
to pass for a great age, and the dummy tail passes for young. -/
structure Ready (gen : UInt64) (slots : Slots α) (xs : List α) (tail : α) (shot : Block α) : Prop where
  full : (xs.filter slots.pending).length = shot.length
  early : gen.toNat < generationOffset.toNat → ∀ a ∈ xs ++ [tail], ∀ x, slots a = some x →
    x.needToProcess = false → 2 ^ 64 + gen.toNat ≤ x.generation.toNat + generationOffset.toNat
  tail : ∀ x, slots tail = some x → gen.toNat ≤ x.generation.toNat + generationOffset.toNat

theorem toNat_sub_offset (gen : UInt64) : (gen - generationOffset).toNat =
    if gen.toNat < 100 then 2 ^ 64 + gen.toNat - 100 else gen.toNat - 100 := by
  have offset : generationOffset.toNat = 100 := by decide
  have := gen.toNat_lt
  rw [UInt64.toNat_sub, offset]
  split_ifs <;> omega

/-- From the generation `generation_offset` on, the test of the age is right. -/
theorem aged_of_late (hx : slots a = some x) (late : 100 ≤ gen.toNat) :
    slots.aged gen a = slots.stale gen a := by
  have offset : generationOffset.toNat = 100 := by decide
  have diff := toNat_sub_offset gen
  rw [if_neg (Nat.not_lt.mpr late)] at diff
  have same : x.generation < gen - generationOffset ↔ x.generation.toNat + 100 < gen.toNat := by
    rw [UInt64.lt_iff_toNat_lt, diff]
    omega
  simp [Slots.aged, Slots.stale, hx, same, offset]

/-- Before, no slot is stale, and nearly every idle one passes for it. -/
theorem aged_of_early (hx : slots a = some x) (early : gen.toNat < 100) :
    (slots.aged gen a = true ↔
      x.needToProcess = false ∧ x.generation.toNat + 100 < 2 ^ 64 + gen.toNat) ∧
    slots.stale gen a = false := by
  have offset : generationOffset.toNat = 100 := by decide
  have diff := toNat_sub_offset gen
  rw [if_pos early] at diff
  have old : x.generation < gen - generationOffset ↔
      x.generation.toNat + 100 < 2 ^ 64 + gen.toNat := by
    rw [UInt64.lt_iff_toNat_lt, diff]
    omega
  constructor
  · simp [Slots.aged, hx, old]
  · simp [Slots.stale, hx, offset]
    omega

theorem pending_eq (hx : slots a = some x) : slots.pending a = x.needToProcess := by
  simp [Slots.pending, hx]

/-- While nothing can be stale, an idle slot stays where the difference does not wrap around past
it. -/
theorem aged_early_iff (hx : slots a = some x) (early : gen.toNat < 100) :
    slots.aged gen a = false ↔
      (x.needToProcess = false → 2 ^ 64 + gen.toNat ≤ x.generation.toNat + 100) := by
  have old := (aged_of_early hx early).1
  constructor
  · intro young idle
    by_contra far
    rw [old.mpr ⟨idle, by omega⟩] at young
    cases young
  · intro near
    by_contra aged
    obtain ⟨idle, far⟩ := old.mp (by simpa using aged)
    have := near idle
    omega

/-- The condition in terms of what `combining` unlinks. -/
theorem ready_iff (h : Published slots head xs tail) : Ready gen slots xs tail shot ↔
    (xs.filter slots.pending).length = shot.length ∧
      (∀ a ∈ xs, slots.aged gen a = slots.stale gen a) ∧ slots.aged gen tail = false := by
  have offset : generationOffset.toNat = 100 := by decide
  have there : ∀ a ∈ xs ++ [tail], ∃ x, slots a = some x :=
    fun a ha => h.there a (List.mem_cons_of_mem _ ha)
  obtain ⟨t, ht⟩ := there tail (by simp)
  have idle : t.needToProcess = false := by rw [← pending_eq ht, h.tail]
  rcases Nat.lt_or_ge gen.toNat 100 with early | late
  · constructor
    · intro r
      have young : ∀ a ∈ xs ++ [tail], slots.aged gen a = false := by
        intro a ha
        obtain ⟨x, hx⟩ := there a ha
        apply (aged_early_iff hx early).mpr
        rw [← offset]
        exact r.early (by omega) a ha x hx
      refine ⟨r.full, ?_, young tail (by simp)⟩
      intro a ha
      obtain ⟨x, hx⟩ := there a (by simp [ha])
      rw [young a (by simp [ha]), (aged_of_early hx early).2]
    · rintro ⟨full, same, last⟩
      refine ⟨full, ?_, by omega⟩
      intro _ a ha x hx
      rw [offset]
      apply (aged_early_iff hx early).mp
      rcases List.mem_append.mp ha with ha | ha
      · rw [same a ha, (aged_of_early hx early).2]
      · rw [List.mem_singleton.mp ha, last]
  · have last : slots.aged gen tail = false ↔ gen.toNat ≤ t.generation.toNat + 100 := by
      rw [aged_of_late ht late]
      simp [Slots.stale, ht, idle, offset]
    have same : ∀ a ∈ xs, slots.aged gen a = slots.stale gen a := by
      intro a ha
      obtain ⟨x, hx⟩ := there a (by simp [ha])
      exact aged_of_late hx late
    constructor
    · intro r
      have := r.tail t ht
      exact ⟨r.full, same, last.mpr (by omega)⟩
    · rintro ⟨full, -, young⟩
      refine ⟨full, by omega, ?_⟩
      intro x hx
      obtain rfl : t = x := Option.some.inj (ht.symm.trans hx)
      have := last.mp young
      omega

/-- What is left in the list is what is to be left, where the tests of the age agree. -/
theorem kept_iff :
    (xs ++ [tail]).filter (fun a => !slots.aged gen a) =
        (xs.filter fun a => !slots.stale gen a) ++ [tail] ↔
      (∀ a ∈ xs, slots.aged gen a = slots.stale gen a) ∧ slots.aged gen tail = false := by
  constructor
  · intro eq
    have last : slots.aged gen tail = false := by
      have : tail ∈ (xs ++ [tail]).filter fun a => !slots.aged gen a := by
        rw [eq]
        simp
      simpa using (List.mem_filter.mp this).2
    rw [List.filter_append] at eq
    have same : xs.filter (fun a => !slots.aged gen a) = xs.filter fun a => !slots.stale gen a := by
      simpa [last] using eq
    refine ⟨?_, last⟩
    intro a ha
    have member : a ∈ xs.filter (fun a => !slots.aged gen a) ↔
        a ∈ xs.filter fun a => !slots.stale gen a := by rw [same]
    simpa [ha] using member
  · rintro ⟨same, last⟩
    rw [List.filter_append]
    congr 1
    · apply List.filter_congr
      intro a ha
      rw [same a ha]
    · simp [last]

/-- At the end of a list with a full batch and the right ages, what was to be left behind is. -/
theorem At.batched {s : Scan α} (h : Published slots head xs tail)
    (last : At gen slots head shot (xs ++ [tail]) [] s)
    (full : (xs.filter slots.pending).length = shot.length)
    (ages : (∀ a ∈ xs, slots.aged gen a = slots.stale gen a) ∧ slots.aged gen tail = false) :
    Batched gen slots head xs tail shot s := by
  have kept := kept_iff.mpr ages
  have count : s.i = (xs.filter slots.pending).length := by rw [last.i, h.pending_tail]
  have all : (xs.filter slots.pending).take shot.length = xs.filter slots.pending :=
    List.take_of_length_le (Nat.le_of_eq full)
  exact
    { count := by rw [count, full, Nat.min_self]
      batch := by
        rw [all, ← h.pending_tail]
        exact last.shot
      linked := by
        have linked := last.linked
        rwa [List.append_nil, kept] at linked
      slots := by
        intro a ha
        rw [← kept] at ha
        obtain ⟨x, ptr, hx, hy⟩ := last.kept a ha
        have member : a ∈ xs.filter slots.pending ↔ x.needToProcess = true := by
          rw [← h.pending_tail, List.mem_filter, pending_eq hx]
          apply and_iff_right_of_imp
          intro waits
          rcases List.mem_cons.mp (At.mem_scanned ha) with rfl | hm
          · rw [← pending_eq hx, h.head] at waits
            cases waits
          · exact hm
        rw [all, member]
        refine ⟨x, _, hx, hy, ?_⟩
        by_cases hp : x.needToProcess = true <;> simp [Slot.stamp, Slot.relink, hp] }

/-- `combining` leaves behind what it is to leave exactly when it is ready to. -/
theorem combines_iff [DecidableEq α] (h : Published slots head xs tail) (gen : UInt64)
    (shot : Block α) : Combines gen slots head xs tail shot ↔ Ready gen slots xs tail shot := by
  rw [ready_iff h]
  constructor
  · rintro ⟨s, reaches, batched⟩
    have alone : ∀ c, Reaches (Combining.step gen) (Combining.start slots head shot) c →
        Combining.step gen c = none → .returned s = c :=
      fun c hc halts => reaches.halt_unique hc rfl halts
    rcases h.ends gen shot with ⟨-, fault⟩ | ⟨-, fault⟩ | ⟨full, t, returns, last⟩
    · exact absurd (alone _ fault rfl) (by simp)
    · exact absurd (alone _ fault rfl) (by simp)
    · obtain rfl : s = t := by simpa using alone _ returns rfl
      have linked := last.linked
      rw [List.append_nil] at linked
      exact ⟨full, kept_iff.mp (linked.unique batched.linked)⟩
  · rintro ⟨full, ages⟩
    rcases h.ends gen shot with ⟨less, -⟩ | ⟨more, -⟩ | ⟨-, s, returns, last⟩
    · omega
    · omega
    · exact ⟨s, returns, last.batched h full ages⟩

/-- Two slots wait, one has not been used for 150 generations, and one has for 50. -/
def several : Slots Nat
  | 0 => some ⟨0, false, ⟨some 1, false⟩⟩
  | 1 => some ⟨120, true, ⟨some 2, true⟩⟩
  | 2 => some ⟨150, false, ⟨some 3, true⟩⟩
  | 3 => some ⟨0, true, ⟨some 4, true⟩⟩
  | 4 => some ⟨250, false, ⟨some 5, true⟩⟩
  | 5 => some ⟨200, false, .null⟩
  | _ => none

theorem published_several : Published several 0 [1, 2, 3, 4] 5 where
  linked := ⟨rfl, rfl, rfl, rfl, rfl, rfl⟩
  nodup := by decide
  there := by simp [several]
  head := rfl
  tail := rfl

theorem combines_several : Combines 300 several 0 [1, 2, 3, 4] 5 (Block.allocate 2) := by
  apply (combines_iff published_several 300 (Block.allocate 2)).mpr
  exact ⟨rfl, by decide, by simp [several]; decide⟩

/-- A list in which one thread has published its slot. -/
def lone : Slots Nat
  | 0 => some ⟨0, false, ⟨some 1, false⟩⟩
  | 1 => some ⟨0, true, ⟨some 2, false⟩⟩
  | 2 => some ⟨0, false, .null⟩
  | _ => none

theorem published_lone : Published lone 0 [1] 2 where
  linked := ⟨rfl, rfl, rfl⟩
  nodup := by decide
  there := by simp [lone]
  head := rfl
  tail := rfl

/-- With one pending slot and room for more, the loop does not end at the end of the list. -/
theorem not_combines_lone : ¬ Combines 1 lone 0 [1] 2 (Block.allocate 64) := by
  rintro ⟨s, reaches, -⟩
  rcases published_lone.ends 1 (Block.allocate 64) with ⟨-, fault⟩ | ⟨many, -⟩ | ⟨full, -⟩
  · exact absurd (reaches.halt_unique fault rfl rfl) (by simp)
  · exact absurd many (by decide)
  · exact absurd full (by decide)

end

end Sysprog.FlatCombiner
