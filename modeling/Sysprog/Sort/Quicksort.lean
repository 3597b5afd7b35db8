import Sysprog.Lib.Partition
import Sysprog.Sort.Task

namespace Sysprog.Sort

/-- The spans that a stack holds, the topmost first. -/
def encode : List Span → List Int
  | [] => []
  | s :: spans => encode spans ++ [(s.lo : Int), (s.hi : Int)]

@[simp]
theorem length_encode (spans : List Span) : (encode spans).length = 2 * spans.length := by
  induction spans with
  | nil => rfl
  | cons s spans ih =>
    simp only [encode, List.length_append, ih, List.length_cons, List.length_nil]
    omega

namespace Task

/-- The used part of the stack of a task. -/
structure Stacked (spans : List Span) (t : Task) : Prop where
  top : t.top = 2 * spans.length - 1
  stack : ∃ free, t.stack = encode spans ++ free

section stack

variable {t : Task} {s : Span} {spans : List Span}

theorem Stacked.read_hi (h : Stacked (s :: spans) t) : read t.stack t.top = some s.hi := by
  obtain ⟨free, hf⟩ := h.stack
  have ht : t.top = ((2 * spans.length + 1 : Nat) : Int) := by
    rw [h.top, List.length_cons]
    omega
  rw [ht, read_natCast, hf]
  simp [encode]

theorem Stacked.read_lo (h : Stacked (s :: spans) t) : read t.stack (t.top - 1) = some s.lo := by
  obtain ⟨free, hf⟩ := h.stack
  have ht : t.top - 1 = ((2 * spans.length : Nat) : Int) := by
    rw [h.top, List.length_cons]
    omega
  rw [ht, read_natCast, hf]
  simp [encode]

/-- What is left on the stack below the topmost span. -/
theorem Stacked.tail (h : Stacked (s :: spans) t) {t' : Task} (ht : t'.top = t.top - 1 - 1)
    (hs : t'.stack = t.stack) : Stacked spans t' := by
  obtain ⟨free, hf⟩ := h.stack
  refine ⟨?_, [(s.lo : Int), (s.hi : Int)] ++ free, ?_⟩
  · rw [ht, h.top, List.length_cons]
    omega
  · rw [hs, hf, encode, List.append_assoc]

/-- The five steps that take a span off the stack and prepare its partition. -/
theorem Stacked.pop (h : Stacked (s :: spans) t) (he : t.env = .popH) {x : Int}
    (hx : t.arr[s.hi]? = some x) : Reaches step t
      { t with
        h := s.hi, l := s.lo, top := t.top - 1 - 1, x := x, i := s.lo - 1, j := s.lo,
        env := .scan } := by
  apply Reaches.step (by simp only [step, he, h.read_hi, Option.bind_eq_bind, Option.bind_some]; rfl)
  apply Reaches.step (by simp only [step, h.read_lo, Option.bind_eq_bind, Option.bind_some]; rfl)
  apply Reaches.step (by simp only [step, read_natCast, hx, Option.bind_eq_bind, Option.bind_some]; rfl)
  refine Reaches.step rfl ?_
  refine Reaches.step rfl ?_
  exact .refl

/-- Two writes put one more span on top, where there is room for it. -/
theorem Stacked.push (h : Stacked spans t) (s : Span)
    (hr : 2 * (s :: spans).length ≤ t.stack.length) :
    ∃ st st', write t.stack (t.top + 1) s.lo = some st ∧
      write st (t.top + 1 + 1) s.hi = some st' ∧ st'.length = t.stack.length ∧
      ∀ e, Stacked (s :: spans) { t with stack := st', top := t.top + 1 + 1, env := e } := by
  obtain ⟨free, hf⟩ := h.stack
  have hl : t.stack.length = 2 * spans.length + free.length := by simp [hf]
  rw [List.length_cons] at hr
  obtain ⟨f0, f1, free, rfl⟩ : ∃ f0 f1 fs, free = f0 :: f1 :: fs := by
    match free with
    | [] => simp at hl; omega
    | [_] => simp at hl; omega
    | f0 :: f1 :: fs => exact ⟨f0, f1, fs, rfl⟩
  have h1 : t.top + 1 = ((2 * spans.length : Nat) : Int) := by
    rw [h.top]
    omega
  have h2 : t.top + 1 + 1 = ((2 * spans.length + 1 : Nat) : Int) := by
    rw [h1]
    omega
  refine ⟨_, _, by rw [h1]; exact write_natCast (by omega) _, by
    rw [h2]; exact write_natCast (by rw [List.length_set]; omega) _, by simp, ?_⟩
  intro e
  refine ⟨?_, free, ?_⟩
  · change t.top + 1 + 1 = _
    rw [h2, List.length_cons]
    omega
  · change (t.stack.set _ _).set _ _ = _
    rw [hf]
    simp [encode]

end stack

/-- What the pushes leave as it is. -/
structure Pushed (t t' : Task) : Prop where
  arr : t'.arr = t.arr
  l : t'.l = t.l
  h : t'.h = t.h
  p : t'.p = t.p
  N : t'.N = t.N
  isFinished : t'.isFinished = t.isFinished
  stack : t'.stack.length = t.stack.length

theorem Pushed.trans {t t' t'' : Task} (h : Pushed t t') (h' : Pushed t' t'') : Pushed t t'' where
  arr := h'.arr.trans h.arr
  l := h'.l.trans h.l
  h := h'.h.trans h.h
  p := h'.p.trans h.p
  N := h'.N.trans h.N
  isFinished := h'.isFinished.trans h.isFinished
  stack := h'.stack.trans h.stack

section push

variable {t : Task} {s : Span} {spans : List Span} {p : Nat}

/-- From `if (p - 1 > l)` to `if (p + 1 < h)`. -/
theorem Stacked.left (h : Stacked spans t) (hl : t.l = s.lo) (hp : t.p = p)
    (hr : 2 * (s.below p ++ spans).length ≤ t.stack.length) :
    ∃ t', Reaches step t.left t'.right ∧ Stacked (s.below p ++ spans) t' ∧ Pushed t t' := by
  by_cases hlt : s.lo + 1 < p
  · have hb : s.below p = [⟨s.lo, p - 1, by omega⟩] := by simp [Span.below, hlt]
    have hle : t.left = { t with env := .leftTop } := if_pos (by omega)
    rw [hb] at hr ⊢
    obtain ⟨st, st', hw, hw', hlen, hst⟩ := h.push ⟨s.lo, p - 1, by omega⟩ hr
    have h1 : write t.stack (t.top + 1) t.l = some st := by
      rw [hl]
      exact hw
    have h2 : write st (t.top + 1 + 1) (t.p - 1) = some st' := by
      rw [show t.p - 1 = ((p - 1 : Nat) : Int) by omega]
      exact hw'
    refine ⟨_, ?_, hst .right, ⟨rfl, rfl, rfl, rfl, rfl, rfl, hlen⟩⟩
    rw [hle]
    refine Reaches.step rfl ?_
    apply Reaches.step (by simp only [step, h1, Option.bind_eq_bind, Option.bind_some]; rfl)
    refine Reaches.step rfl ?_
    apply Reaches.step (by simp only [step, h2, Option.bind_eq_bind, Option.bind_some]; rfl)
    exact .head rfl .refl
  · have hb : s.below p = [] := by simp [Span.below, hlt]
    have hle : t.left = t.right := if_neg (by omega)
    rw [hb, hle]
    exact ⟨t, .refl, h, ⟨rfl, rfl, rfl, rfl, rfl, rfl, rfl⟩⟩

/-- From `if (p + 1 < h)` to `while (top >= 0)`. -/
theorem Stacked.right (h : Stacked spans t) (hh : t.h = s.hi) (hp : t.p = p)
    (hr : 2 * (s.above p ++ spans).length ≤ t.stack.length) :
    ∃ t', Reaches step t.right t'.loop ∧ Stacked (s.above p ++ spans) t' ∧ Pushed t t' := by
  by_cases hlt : p + 1 < s.hi
  · have ha : s.above p = [⟨p + 1, s.hi, hlt⟩] := by simp [Span.above, hlt]
    have hri : t.right = { t with env := .rightTop } := if_pos (by omega)
    rw [ha] at hr ⊢
    obtain ⟨st, st', hw, hw', hlen, hst⟩ := h.push ⟨p + 1, s.hi, hlt⟩ hr
    have h1 : write t.stack (t.top + 1) (t.p + 1) = some st := by
      rw [show t.p + 1 = ((p + 1 : Nat) : Int) by omega]
      exact hw
    have h2 : write st (t.top + 1 + 1) t.h = some st' := by
      rw [hh]
      exact hw'
    refine ⟨_, ?_, hst .loop, ⟨rfl, rfl, rfl, rfl, rfl, rfl, hlen⟩⟩
    rw [hri]
    refine Reaches.step rfl ?_
    apply Reaches.step (by simp only [step, h1, Option.bind_eq_bind, Option.bind_some]; rfl)
    refine Reaches.step rfl ?_
    apply Reaches.step (by simp only [step, h2, Option.bind_eq_bind, Option.bind_some]; rfl)
    exact .head rfl .refl
  · have ha : s.above p = [] := by simp [Span.above, hlt]
    have hri : t.right = t.loop := if_neg (by omega)
    rw [ha, hri]
    exact ⟨t, .refl, h, ⟨rfl, rfl, rfl, rfl, rfl, rfl, rfl⟩⟩

end push

section lines

variable {t : Task} {x y z : Int} {a b : List Int}

/-- An iteration where `arr[j] <= x`. -/
theorem iteration_swap (he : t.env = .scan) (hj : t.j ≤ t.h - 1) (hy : read t.arr t.j = some y)
    (hyx : y ≤ t.x) (hz : read t.arr (t.i + 1) = some z) (ha : write t.arr (t.i + 1) y = some a)
    (hb : write a t.j z = some b) :
    Reaches step t { t with arr := b, i := t.i + 1, j := t.j + 1, t := z, env := .scan } := by
  apply Reaches.step (by simp only [step, he, if_pos hj]; rfl)
  apply Reaches.step (by
    simp only [step, hy, Option.bind_eq_bind, Option.bind_some, if_pos hyx]; rfl)
  refine Reaches.step rfl ?_
  apply Reaches.step (by simp only [step, hz, Option.bind_eq_bind, Option.bind_some]; rfl)
  apply Reaches.step (by simp only [step, hy, ha, Option.bind_eq_bind, Option.bind_some]; rfl)
  apply Reaches.step (by simp only [step, hb, Option.bind_eq_bind, Option.bind_some]; rfl)
  exact .head rfl .refl

/-- An iteration where `arr[j] > x`. -/
theorem iteration_pass (he : t.env = .scan) (hj : t.j ≤ t.h - 1) (hy : read t.arr t.j = some y)
    (hyx : ¬y ≤ t.x) : Reaches step t { t with j := t.j + 1, env := .scan } := by
  apply Reaches.step (by simp only [step, he, if_pos hj]; rfl)
  apply Reaches.step (by
    simp only [step, hy, Option.bind_eq_bind, Option.bind_some, if_neg hyx]; rfl)
  exact .refl

/-- From the end of the loop to `if (p - 1 > l)`. -/
theorem place_pivot (he : t.env = .scan) (hj : ¬t.j ≤ t.h - 1)
    (hz : read t.arr (t.i + 1) = some z) (hx : read t.arr t.h = some x)
    (ha : write t.arr (t.i + 1) x = some a) (hb : write a t.h z = some b) :
    Reaches step t { t with arr := b, t := z, p := t.i + 1, env := .left } := by
  apply Reaches.step (by
    simp only [step, he, if_neg hj, hz, Option.bind_eq_bind, Option.bind_some]; rfl)
  apply Reaches.step (by simp only [step, hx, ha, Option.bind_eq_bind, Option.bind_some]; rfl)
  apply Reaches.step (by simp only [step, hb, Option.bind_eq_bind, Option.bind_some]; rfl)
  exact .head rfl .refl

end lines

/-- At the head of the loop of the partition of `s`, with `i` before `m` and `j` at `q`. -/
structure Scanning (s : Span) (m q : Nat) (t : Task) : Prop where
  env : t.env = .scan
  h : t.h = s.hi
  i : t.i + 1 = m
  j : t.j = q
  scanned : Scanned s t.x m q t.arr

/-- What the loop of the partition leaves as it is. -/
structure Framed (t t' : Task) : Prop where
  stack : t'.stack = t.stack
  top : t'.top = t.top
  l : t'.l = t.l
  N : t'.N = t.N
  isFinished : t'.isFinished = t.isFinished

theorem Framed.trans {t t' t'' : Task} (h : Framed t t') (h' : Framed t' t'') : Framed t t'' where
  stack := h'.stack.trans h.stack
  top := h'.top.trans h.top
  l := h'.l.trans h.l
  N := h'.N.trans h.N
  isFinished := h'.isFinished.trans h.isFinished

section partition

variable {t : Task} {s : Span} {m q : Nat}

theorem Scanning.getElem? (h : Scanning s m q t) {k : Nat} (hk : k ≤ s.hi) :
    k < t.arr.length ∧ ∃ z, t.arr[k]? = some z := by
  have hl : k < t.arr.length :=
    lt_of_le_of_lt hk (List.getElem?_eq_some_iff.mp h.scanned.pivot).1
  exact ⟨hl, _, List.getElem?_eq_getElem hl⟩

theorem Scanning.next (h : Scanning s m q t) (hq : q < s.hi) :
    ∃ t' m', Reaches step t t' ∧ Scanning s m' (q + 1) t' ∧ Framed t t' ∧
      Shuffle s.lo s.hi t.arr t'.arr := by
  have hmq := h.scanned.le_scan
  obtain ⟨hql, y, hy⟩ := h.getElem? hq.le
  obtain ⟨hml, z, hz⟩ := h.getElem? (hmq.trans hq.le)
  have hj : t.j ≤ t.h - 1 := by rw [h.j, h.h]; omega
  have hry : read t.arr t.j = some y := by rw [h.j, read_natCast, hy]
  have hj' : t.j + 1 = ((q + 1 : Nat) : Int) := by rw [h.j]; rfl
  by_cases hyx : y ≤ t.x
  · have hrz : read t.arr (t.i + 1) = some z := by rw [h.i, read_natCast, hz]
    have ha : write t.arr (t.i + 1) y = some (t.arr.set m y) := by rw [h.i, write_natCast hml]
    have hb : write (t.arr.set m y) t.j z = some ((t.arr.set m y).set q z) := by
      rw [h.j, write_natCast (by rwa [List.length_set])]
    refine ⟨_, m + 1, iteration_swap h.env hj hry hyx hrz ha hb, ?_, ⟨rfl, rfl, rfl, rfl, rfl⟩, ?_⟩
    · exact ⟨rfl, h.h, by rw [h.i]; rfl, hj', h.scanned.next_le hq hz hy hyx⟩
    · have hlo := h.scanned.lo_le
      exact Shuffle.swap hz hy hlo (by omega) (by omega) hq.le
  · refine ⟨_, m, iteration_pass h.env hj hry hyx, ?_, ⟨rfl, rfl, rfl, rfl, rfl⟩, .refl _ _ _⟩
    exact ⟨rfl, h.h, h.i, hj', h.scanned.next_gt hq hy hyx⟩

theorem Scanning.all (h : Scanning s m q t) :
    ∃ t' m', Reaches step t t' ∧ Scanning s m' s.hi t' ∧ Framed t t' ∧
      Shuffle s.lo s.hi t.arr t'.arr := by
  -- on what the loop has not reached yet
  induction hd : s.hi - q generalizing t m q with
  | zero =>
    have hle := h.scanned.scan_le
    obtain rfl : q = s.hi := by omega
    exact ⟨t, m, .refl, h, ⟨rfl, rfl, rfl, rfl, rfl⟩, .refl _ _ _⟩
  | succ d ih =>
    obtain ⟨t1, m1, hr1, h1, hf1, hs1⟩ := h.next (by omega)
    obtain ⟨t2, m2, hr2, h2, hf2, hs2⟩ := ih h1 (by omega)
    exact ⟨t2, m2, hr1.trans hr2, h2, hf1.trans hf2, hs1.trans hs2⟩

/-- The partition of `s`, from the head of its loop to `if (p - 1 > l)`. -/
theorem Scanning.partition (h : Scanning s m q t) :
    ∃ t' p, Reaches step t t' ∧ t'.env = .left ∧ t'.p = (p : Nat) ∧ t'.h = s.hi ∧ Framed t t' ∧
      Shuffle s.lo s.hi t.arr t'.arr ∧ Split s p t'.arr := by
  obtain ⟨t1, m1, hr, h1, hf, hs⟩ := h.all
  obtain ⟨hml, z, hz⟩ := h1.getElem? h1.scanned.le_scan
  have hx := h1.scanned.pivot
  have hhl := (List.getElem?_eq_some_iff.mp hx).1
  have hj : ¬t1.j ≤ t1.h - 1 := by rw [h1.j, h1.h]; omega
  have hrz : read t1.arr (t1.i + 1) = some z := by rw [h1.i, read_natCast, hz]
  have hrx : read t1.arr t1.h = some t1.x := by rw [h1.h, read_natCast, hx]
  have ha : write t1.arr (t1.i + 1) t1.x = some (t1.arr.set m1 t1.x) := by
    rw [h1.i, write_natCast hml]
  have hb : write (t1.arr.set m1 t1.x) t1.h z = some ((t1.arr.set m1 t1.x).set s.hi z) := by
    rw [h1.h, write_natCast (by rwa [List.length_set])]
  refine ⟨_, m1, hr.trans (place_pivot h1.env hj hrz hrx ha hb), rfl, h1.i, h1.h,
    hf.trans ⟨rfl, rfl, rfl, rfl, rfl⟩, hs.trans ?_, h1.scanned.split hz⟩
  exact Shuffle.swap hz hx h1.scanned.lo_le h1.scanned.le_scan s.lt.le le_rfl

end partition

/-- At `while (top >= 0)`, with `spans` on the stack and everything else in place. -/
structure Sorting (numbers : List Int) (spans : List Span) (t : Task) : Prop where
  isFinished : t.isFinished = false
  stacked : Stacked spans t
  stack : t.stack.length = t.arr.length
  N : t.N = t.arr.length
  perm : t.arr.Perm numbers
  pending : Pending spans t.arr

/-- After the partition of `s` around position `m`. -/
structure Parted (s : Span) (m : Nat) (t t' : Task) : Prop where
  env : t'.env = .left
  l : t'.l = s.lo
  h : t'.h = s.hi
  p : t'.p = m
  stack : t'.stack = t.stack
  N : t'.N = t.N
  isFinished : t'.isFinished = t.isFinished
  shuffle : Shuffle s.lo s.hi t.arr t'.arr
  split : Split s m t'.arr

/-- The task has sorted its numbers. -/
structure Sorted (numbers : List Int) (t : Task) : Prop where
  env : t.env = .wait
  isFinished : t.isFinished = true
  N : t.N = t.arr.length
  perm : t.arr.Perm numbers
  sorted : t.arr.Pairwise (· ≤ ·)

section sort

variable {t : Task} {s : Span} {spans : List Span} {numbers : List Int}

theorem Sorting.done (h : Sorting numbers [] t) : Sorted numbers t.loop := by
  have ht := h.stacked.top
  have hl : t.loop = { t with isFinished := true, env := .wait } := if_neg (by simp [ht])
  rw [hl]
  exact ⟨rfl, rfl, h.N, h.perm, h.pending.sorted.pairwise⟩

/-- The pushes after the partition of `s`, up to `while (top >= 0)`. -/
theorem Stacked.pushes {p : Nat} (h : Stacked spans t) (hl : t.l = s.lo) (hh : t.h = s.hi)
    (hp : t.p = p) (hr : 2 * (s.above p ++ s.below p ++ spans).length ≤ t.stack.length) :
    ∃ t', Reaches step t.left t'.loop ∧ Stacked (s.above p ++ s.below p ++ spans) t' ∧
      Pushed t t' := by
  have hb : 2 * (s.below p ++ spans).length ≤ t.stack.length := by
    simp only [List.length_append] at hr ⊢
    omega
  obtain ⟨t1, hr1, h1, hk1⟩ := h.left hl hp hb
  have ha : 2 * (s.above p ++ (s.below p ++ spans)).length ≤ t1.stack.length := by
    rw [hk1.stack, ← List.append_assoc]
    exact hr
  obtain ⟨t2, hr2, h2, hk2⟩ := h1.right (hk1.h.trans hh) (hk1.p.trans hp) ha
  rw [List.append_assoc]
  exact ⟨t2, hr1.trans hr2, h2, hk1.trans hk2⟩

/-- The partition of the topmost span, from `while (top >= 0)` to `if (p - 1 > l)`. -/
theorem Sorting.partition (h : Sorting numbers (s :: spans) t) :
    ∃ t' p, Reaches step t.loop t' ∧ Parted s p t t' ∧ Stacked spans t' := by
  have hlo : t.loop = { t with env := .popH } :=
    if_pos (by rw [h.stacked.top, List.length_cons]; omega)
  obtain ⟨x, hx⟩ : ∃ x, t.arr[s.hi]? = some x :=
    ⟨_, List.getElem?_eq_getElem (h.pending.within s List.mem_cons_self)⟩
  have hst : Stacked (s :: spans) { t with env := .popH } := ⟨h.stacked.top, h.stacked.stack⟩
  have hpop := hst.pop rfl hx
  have hsc : Scanning s s.lo s.lo { t with
      h := s.hi, l := s.lo, top := t.top - 1 - 1, x := x, i := s.lo - 1, j := s.lo,
      env := .scan } :=
    ⟨rfl, rfl, Int.sub_add_cancel _ 1, rfl, Scanned.init hx⟩
  obtain ⟨t1, p, hr, he, hp, hh, hf, hs, hsp⟩ := hsc.partition
  rw [hlo]
  exact ⟨t1, p, hpop.trans hr, ⟨he, hf.l, hh, hp, hf.stack, hf.N, hf.isFinished, hs, hsp⟩,
    hst.tail hf.top hf.stack⟩

/-- One iteration of the outer loop. -/
theorem Sorting.next (h : Sorting numbers (s :: spans) t) :
    ∃ t' spans', Reaches step t.loop t'.loop ∧ Sorting numbers spans' t' ∧
      Span.total spans' < Span.total (s :: spans) := by
  obtain ⟨t1, p, hr1, h1, hst⟩ := h.partition
  have hpend := h.pending.split h1.shuffle h1.split
  have hlen := h1.shuffle.perm.length_eq
  have hroom : 2 * (s.above p ++ s.below p ++ spans).length ≤ t1.stack.length := by
    rw [h1.stack, h.stack, ← hlen]
    exact (Span.two_mul_length_le _).trans hpend.room
  obtain ⟨t2, hr2, hst2, hk⟩ := hst.pushes h1.l h1.h h1.p hroom
  have hleft : Reaches step t1 t1.left := .single (by simp only [step, h1.env])
  refine ⟨t2, _, (hr1.trans hleft).trans hr2, ?_,
    Span.total_split_lt s spans h1.split.lo_le h1.split.le_hi⟩
  exact
    { isFinished := (hk.isFinished.trans h1.isFinished).trans h.isFinished
      stacked := hst2
      stack := by rw [hk.stack, h1.stack, h.stack, hk.arr, hlen]
      N := by rw [hk.N, h1.N, h.N, hk.arr, hlen]
      perm := by
        rw [hk.arr]
        exact h1.shuffle.perm.trans h.perm
      pending := by
        rw [hk.arr]
        exact hpend }

/-- The outer loop ends, with the numbers sorted. -/
theorem Sorting.runs (h : Sorting numbers spans t) :
    ∃ f, Reaches step t.loop f ∧ Sorted numbers f := by
  induction hn : Span.total spans using Nat.strong_induction_on generalizing t spans with
  | _ n ih =>
    cases spans with
    | nil => exact ⟨t.loop, .refl, h.done⟩
    | cons s spans =>
      obtain ⟨t', spans', hr, h', hlt⟩ := h.next
      obtain ⟨f, hf, hs⟩ := ih _ (hn ▸ hlt) h' rfl
      exact ⟨f, hr.trans hf, hs⟩

end sort

section landing

theorem loop_isFinished (t : Task) (h : t.isFinished = false) :
    t.loop.isFinished = false ∨ t.loop.env = .wait := by
  unfold loop
  split
  · exact .inl h
  · exact .inr rfl

theorem right_isFinished (t : Task) (h : t.isFinished = false) :
    t.right.isFinished = false ∨ t.right.env = .wait := by
  unfold right
  split
  · exact .inl h
  · exact t.loop_isFinished h

theorem left_isFinished (t : Task) (h : t.isFinished = false) :
    t.left.isFinished = false ∨ t.left.env = .wait := by
  unfold left
  split
  · exact .inl h
  · exact t.right_isFinished h

theorem step_isFinished {t t' : Task} (h : t.isFinished = false) (hs : t.step = some t') :
    t'.isFinished = false ∨ t'.env = .wait := by
  have h1 := t.loop_isFinished h
  have h2 := t.right_isFinished h
  have h3 := t.left_isFinished h
  cases he : t.env <;>
    simp only [step, he, Option.bind_eq_bind, Option.bind_eq_some_iff, Option.some.injEq] at hs <;>
    grind [Option.bind_eq_some_iff]

theorem step_wait {t t' : Task} (h : t.isFinished = true → t.env = .wait)
    (hs : t.step = some t') : t'.isFinished = true → t'.env = .wait := by
  cases hd : t.isFinished with
  | true =>
    obtain rfl : t = t' := by simpa [step, h hd] using hs
    exact h
  | false =>
    intro hd'
    obtain hf | hw := step_isFinished hd hs
    · rw [hf] at hd'
      cases hd'
    · exact hw

/-- A task that is done waits for the others. -/
theorem rests {t : Task} (h : t.isFinished = true → t.env = .wait) (hd : t.isFinished = true) :
    routine.Rests t :=
  ⟨hd, decide_eq_true (h hd), by simp only [routine, step, h hd]⟩

theorem Sorting.lands {t : Task} {spans : List Span} {numbers : List Int}
    (h : Sorting numbers spans t) (he : t.env = .entry) :
    ∃ f n, routine.Lands n t f ∧ Sorted numbers f := by
  have hl : Sorting numbers spans { t with env := .loop } :=
    { h with stacked := ⟨h.stacked.top, h.stacked.stack⟩ }
  obtain ⟨f, hr, hs⟩ := hl.runs
  have hr' : Reaches routine.step t f := by
    apply Reaches.step (by simp only [routine, step, he]; rfl)
    exact .head rfl hr
  obtain ⟨n, hn⟩ := Routine.exists_lands (fun t => t.isFinished = true → t.env = .wait)
    (fun a b ha hs hb => step_wait ha hs hb) (fun a ha hd => rests ha hd) hr'
    (fun hf => by simp [h.isFinished] at hf) hs.isFinished
  exact ⟨f, n, hn, hs⟩

end landing

end Task

end Sysprog.Sort
