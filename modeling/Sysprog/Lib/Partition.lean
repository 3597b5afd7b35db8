import Mathlib.Order.Basic
import Mathlib.Tactic

namespace Sysprog

variable {α : Type}

/-- `b` comes from `a` by moving entries within `lo..hi`. -/
structure Shuffle (lo hi : Nat) (a b : List α) : Prop where
  perm : b.Perm a
  outside : ∀ k, k < lo ∨ hi < k → b[k]? = a[k]?
  inside : ∀ k, lo ≤ k → k ≤ hi → ∃ k', lo ≤ k' ∧ k' ≤ hi ∧ b[k]? = a[k']?

theorem Shuffle.refl (lo hi : Nat) (a : List α) : Shuffle lo hi a a :=
  ⟨.refl a, fun _ _ => rfl, fun k h1 h2 => ⟨k, h1, h2, rfl⟩⟩

theorem Shuffle.trans {lo hi : Nat} {a b c : List α} (h : Shuffle lo hi a b)
    (h' : Shuffle lo hi b c) : Shuffle lo hi a c where
  perm := h'.perm.trans h.perm
  outside := fun k hk => (h'.outside k hk).trans (h.outside k hk)
  inside := by
    intro k h1 h2
    obtain ⟨k1, hl1, hh1, he1⟩ := h'.inside k h1 h2
    obtain ⟨k2, hl2, hh2, he2⟩ := h.inside k1 hl1 hh1
    exact ⟨k2, hl2, hh2, he1.trans he2⟩

/-- Where an entry was before. -/
theorem Shuffle.source {lo hi : Nat} {a b : List α} (h : Shuffle lo hi a b) (k : Nat) :
    ∃ k', b[k]? = a[k']? ∧
      (lo ≤ k ∧ k ≤ hi ∧ lo ≤ k' ∧ k' ≤ hi ∨ (k < lo ∨ hi < k) ∧ k' = k) := by
  by_cases hk : lo ≤ k ∧ k ≤ hi
  · obtain ⟨k', h1, h2, he⟩ := h.inside k hk.1 hk.2
    exact ⟨k', he, .inl ⟨hk.1, hk.2, h1, h2⟩⟩
  · have ho : k < lo ∨ hi < k := by omega
    exact ⟨k, h.outside k ho, .inr ⟨ho, rfl⟩⟩

section swap

variable {a : List α} {i j : Nat} {x y : α}

theorem getElem?_swap (hx : a[i]? = some x) (hy : a[j]? = some y) (k : Nat) :
    ((a.set i y).set j x)[k]? = if k = j then some x else if k = i then some y else a[k]? := by
  have hi := (List.getElem?_eq_some_iff.mp hx).1
  have hj := (List.getElem?_eq_some_iff.mp hy).1
  by_cases hkj : k = j
  · simp [hkj, hj]
  · rw [List.getElem?_set_ne (Ne.symm hkj), if_neg hkj]
    by_cases hki : k = i
    · simp [hki, hi]
    · rw [List.getElem?_set_ne (Ne.symm hki), if_neg hki]

theorem swap_perm (hx : a[i]? = some x) (hy : a[j]? = some y) :
    ((a.set i y).set j x).Perm a := by
  obtain ⟨hi, rfl⟩ := List.getElem?_eq_some_iff.mp hx
  obtain ⟨hj, rfl⟩ := List.getElem?_eq_some_iff.mp hy
  exact List.set_set_perm hi hj

theorem Shuffle.swap {lo hi : Nat} (hx : a[i]? = some x) (hy : a[j]? = some y) (hi1 : lo ≤ i)
    (hi2 : i ≤ hi) (hj1 : lo ≤ j) (hj2 : j ≤ hi) : Shuffle lo hi a ((a.set i y).set j x) where
  perm := swap_perm hx hy
  outside := by
    intro k hk
    rw [getElem?_swap hx hy, if_neg (by omega), if_neg (by omega)]
  inside := by
    intro k h1 h2
    rw [getElem?_swap hx hy]
    by_cases hkj : k = j
    · exact ⟨i, hi1, hi2, by simp [hkj, hx]⟩
    · by_cases hki : k = i
      · exact ⟨j, hj1, hj2, by rw [if_neg hkj, if_pos hki, hy]⟩
      · exact ⟨k, h1, h2, by rw [if_neg hkj, if_neg hki]⟩

end swap

/-- A range of at least two positions, both ends included. -/
structure Span where
  lo : Nat
  hi : Nat
  lt : lo < hi

namespace Span

def Disjoint (s r : Span) : Prop := s.hi < r.lo ∨ r.hi < s.lo

def size (s : Span) : Nat := s.hi + 1 - s.lo

/-- What is left of the span below position `p`, where that is more than one position. -/
def below (s : Span) (p : Nat) : List Span :=
  if h : s.lo + 1 < p then [⟨s.lo, p - 1, by omega⟩] else []

def above (s : Span) (p : Nat) : List Span :=
  if h : p + 1 < s.hi then [⟨p + 1, s.hi, h⟩] else []

theorem lt_of_mem_below {s r : Span} {p : Nat} (h : r ∈ s.below p) : r.lo = s.lo ∧ r.hi < p := by
  unfold below at h
  split at h
  · obtain rfl := List.mem_singleton.mp h
    exact ⟨rfl, by change p - 1 < p; omega⟩
  · cases h

theorem gt_of_mem_above {s r : Span} {p : Nat} (h : r ∈ s.above p) : r.hi = s.hi ∧ p < r.lo := by
  unfold above at h
  split at h
  · obtain rfl := List.mem_singleton.mp h
    exact ⟨rfl, Nat.lt_succ_self p⟩
  · cases h

/-- The entries of the spans. -/
def total (spans : List Span) : Nat := (spans.map size).sum

theorem total_below (s : Span) (p : Nat) : total (s.below p) ≤ p - s.lo := by
  unfold below
  split
  · simp only [total, size, List.map_cons, List.map_nil, List.sum_cons, List.sum_nil]
    omega
  · simp [total]

theorem total_above (s : Span) (p : Nat) : total (s.above p) ≤ s.hi - p := by
  unfold above
  split
  · simp only [total, size, List.map_cons, List.map_nil, List.sum_cons, List.sum_nil]
    omega
  · simp [total]

theorem total_append (ss rs : List Span) : total (ss ++ rs) = total ss + total rs := by
  simp [total]

/-- The pivot is in none of the parts. -/
theorem total_split_lt (s : Span) (rest : List Span) {p : Nat} (h1 : s.lo ≤ p) (h2 : p ≤ s.hi) :
    total (s.above p ++ s.below p ++ rest) < total (s :: rest) := by
  have hb := total_below s p
  have ha := total_above s p
  have hc : total (s :: rest) = s.hi + 1 - s.lo + total rest := by simp [total, size]
  rw [total_append, total_append, hc]
  omega

theorem two_mul_length_le (spans : List Span) : 2 * spans.length ≤ total spans := by
  induction spans with
  | nil => simp
  | cons s spans ih =>
    have hs := s.lt
    have hc : total (s :: spans) = s.hi + 1 - s.lo + total spans := by simp [total, size]
    rw [List.length_cons, hc]
    omega

end Span

section order

variable [LinearOrder α]

/-- Sorted, but for pairs within one of the spans. -/
def SortedBut (spans : List Span) (a : List α) : Prop :=
  ∀ i j x y, i < j → a[i]? = some x → a[j]? = some y →
    x ≤ y ∨ ∃ s ∈ spans, s.lo ≤ i ∧ j ≤ s.hi

theorem SortedBut.pairwise {a : List α} (h : SortedBut [] a) : a.Pairwise (· ≤ ·) := by
  apply List.pairwise_iff_getElem.mpr
  intro i j hi hj hij
  obtain hle | ⟨s, hs, -⟩ := h i j a[i] a[j] hij (by simp) (by simp)
  · exact hle
  · cases hs

/-- The entry at `p` stands between those of the span below and above it. -/
structure Split (s : Span) (p : Nat) (a : List α) : Prop where
  lo_le : s.lo ≤ p
  le_hi : p ≤ s.hi
  below : ∀ k x y, s.lo ≤ k → k < p → a[k]? = some x → a[p]? = some y → x ≤ y
  above : ∀ k x y, p < k → k ≤ s.hi → a[p]? = some x → a[k]? = some y → x ≤ y

section split

variable {s : Span} {rest : List Span} {p : Nat} {a b : List α}

/-- Pairs that are not both in the span keep their order. -/
theorem SortedBut.outside (h : SortedBut (s :: rest) a) (hd : ∀ r ∈ rest, s.Disjoint r)
    (hs : Shuffle s.lo s.hi a b) {i j : Nat} {x y : α} (hij : i < j)
    (hout : ¬(s.lo ≤ i ∧ j ≤ s.hi)) (hx : b[i]? = some x) (hy : b[j]? = some y) :
    x ≤ y ∨ ∃ r ∈ rest, r.lo ≤ i ∧ j ≤ r.hi := by
  obtain ⟨i', hi, hi'⟩ := hs.source i
  obtain ⟨j', hj, hj'⟩ := hs.source j
  have hij' : i' < j' := by omega
  rcases h i' j' x y hij' (hi ▸ hx) (hj ▸ hy) with hle | ⟨r, hr, hr1, hr2⟩
  · exact .inl hle
  · rcases List.mem_cons.mp hr with rfl | hr
    · omega
    · have hdr := hd r hr
      simp only [Span.Disjoint] at hdr
      exact .inr ⟨r, hr, by omega⟩

/-- Pairs within the span are in order around the pivot. -/
theorem Split.inside (hp : Split s p b) {i j : Nat} {x y : α} (hij : i < j) (hi : s.lo ≤ i)
    (hj : j ≤ s.hi) (hx : b[i]? = some x) (hy : b[j]? = some y) :
    x ≤ y ∨ ∃ r ∈ s.above p ++ s.below p, r.lo ≤ i ∧ j ≤ r.hi := by
  by_cases hjp : j < p
  · have hl : s.lo + 1 < p := by omega
    refine .inr ⟨⟨s.lo, p - 1, by omega⟩, ?_, hi, by change j ≤ p - 1; omega⟩
    simp [Span.below, hl]
  · by_cases hpi : p < i
    · have hl : p + 1 < s.hi := by omega
      refine .inr ⟨⟨p + 1, s.hi, hl⟩, ?_, hpi, hj⟩
      simp [Span.above, hl]
    · left
      rcases Nat.eq_or_lt_of_le (not_lt.mp hpi) with rfl | hip
      · exact hp.above j x y hij hj hx hy
      · rcases Nat.eq_or_lt_of_le (not_lt.mp hjp) with rfl | hpj
        · exact hp.below i x y hi hip hx hy
        · have hlt : p < b.length := hpj.trans (List.getElem?_eq_some_iff.mp hy).1
          have hz : b[p]? = some b[p] := List.getElem?_eq_getElem hlt
          exact (hp.below i x _ hi hip hx hz).trans (hp.above j _ y hpj hj hz hy)

theorem SortedBut.split (h : SortedBut (s :: rest) a) (hd : ∀ r ∈ rest, s.Disjoint r)
    (hs : Shuffle s.lo s.hi a b) (hp : Split s p b) :
    SortedBut (s.above p ++ s.below p ++ rest) b := by
  intro i j x y hij hx hy
  by_cases hin : s.lo ≤ i ∧ j ≤ s.hi
  · obtain hle | ⟨r, hr, hij'⟩ := hp.inside hij hin.1 hin.2 hx hy
    · exact .inl hle
    · exact .inr ⟨r, List.mem_append_left _ hr, hij'⟩
  · obtain hle | ⟨r, hr, hij'⟩ := h.outside hd hs hij hin hx hy
    · exact .inl hle
    · exact .inr ⟨r, List.mem_append_right _ hr, hij'⟩

end split

/-- The spans still to be sorted: they lie apart and have room in the array. -/
structure Pending (spans : List Span) (a : List α) : Prop where
  within : ∀ s ∈ spans, s.hi < a.length
  disjoint : spans.Pairwise Span.Disjoint
  room : Span.total spans ≤ a.length
  sorted : SortedBut spans a

theorem Pending.whole {a : List α} (h : 2 ≤ a.length) :
    Pending [⟨0, a.length - 1, by omega⟩] a where
  within := by
    intro s hs
    obtain rfl := List.mem_singleton.mp hs
    change a.length - 1 < a.length
    omega
  disjoint := List.pairwise_singleton _ _
  room := by
    simp only [Span.total, Span.size, List.map_cons, List.map_nil, List.sum_cons, List.sum_nil]
    omega
  sorted := by
    intro i j x y hij hx hy
    have hj := (List.getElem?_eq_some_iff.mp hy).1
    exact .inr ⟨_, List.mem_singleton_self _, Nat.zero_le i, by change j ≤ a.length - 1; omega⟩

/-- A span is replaced by what is left of it on both sides of its pivot. -/
theorem Pending.split {s : Span} {rest : List Span} {p : Nat} {a b : List α}
    (h : Pending (s :: rest) a) (hs : Shuffle s.lo s.hi a b) (hp : Split s p b) :
    Pending (s.above p ++ s.below p ++ rest) b where
  within := by
    intro r hr
    rw [hs.perm.length_eq]
    have hw := h.within s List.mem_cons_self
    have hle := hp.le_hi
    rcases List.mem_append.mp hr with hr | hr
    · rcases List.mem_append.mp hr with hr | hr
      · have ha := Span.gt_of_mem_above hr
        omega
      · have hb := Span.lt_of_mem_below hr
        omega
    · exact h.within r (List.mem_cons_of_mem _ hr)
  disjoint := by
    obtain ⟨hd, hrest⟩ := List.pairwise_cons.mp h.disjoint
    have h1 := hp.lo_le
    have h2 := hp.le_hi
    refine List.pairwise_append.mpr ⟨List.pairwise_append.mpr ⟨?_, ?_, ?_⟩, hrest, ?_⟩
    · unfold Span.above
      split <;> simp
    · unfold Span.below
      split <;> simp
    · intro r hr q hq
      have ha := Span.gt_of_mem_above hr
      have hb := Span.lt_of_mem_below hq
      exact .inr (by omega)
    · intro r hr q hq
      have hdq := hd q hq
      simp only [Span.Disjoint] at hdq ⊢
      have hlt := r.lt
      have hltq := q.lt
      rcases List.mem_append.mp hr with hr | hr
      · have ha := Span.gt_of_mem_above hr
        omega
      · have hb := Span.lt_of_mem_below hr
        omega
  room := by
    have hlt := Span.total_split_lt s rest hp.lo_le hp.le_hi
    have hr := h.room
    rw [hs.perm.length_eq]
    omega
  sorted := h.sorted.split (List.pairwise_cons.mp h.disjoint).1 hs hp

/-- The loop of a partition: up to `q`, the entries at most `x` stand below `m` and the others
from `m` on; the pivot `x` is still at the end of the span. -/
structure Scanned (s : Span) (x : α) (m q : Nat) (a : List α) : Prop where
  lo_le : s.lo ≤ m
  le_scan : m ≤ q
  scan_le : q ≤ s.hi
  pivot : a[s.hi]? = some x
  below : ∀ k y, s.lo ≤ k → k < m → a[k]? = some y → y ≤ x
  above : ∀ k y, m ≤ k → k < q → a[k]? = some y → x ≤ y

section scan

variable {s : Span} {x y z : α} {m q : Nat} {a : List α}

theorem Scanned.init (hx : a[s.hi]? = some x) : Scanned s x s.lo s.lo a where
  lo_le := le_rfl
  le_scan := le_rfl
  scan_le := s.lt.le
  pivot := hx
  below := fun k y h1 h2 => by omega
  above := fun k y h1 h2 => by omega

theorem Scanned.next_gt (h : Scanned s x m q a) (hq : q < s.hi) (hy : a[q]? = some y)
    (hxy : ¬y ≤ x) : Scanned s x m (q + 1) a where
  lo_le := h.lo_le
  le_scan := h.le_scan.trans (Nat.le_succ q)
  scan_le := hq
  pivot := h.pivot
  below := h.below
  above := by
    intro k w h1 h2 hw
    rcases Nat.eq_or_lt_of_le (Nat.le_of_lt_succ h2) with rfl | hk
    · obtain rfl : y = w := Option.some.inj (hy.symm.trans hw)
      exact (not_le.mp hxy).le
    · exact h.above k w h1 hk hw

theorem Scanned.next_le (h : Scanned s x m q a) (hq : q < s.hi) (hz : a[m]? = some z)
    (hy : a[q]? = some y) (hyx : y ≤ x) : Scanned s x (m + 1) (q + 1) ((a.set m y).set q z) where
  lo_le := h.lo_le.trans (Nat.le_succ m)
  le_scan := Nat.succ_le_succ h.le_scan
  scan_le := hq
  pivot := by
    have hm := h.le_scan
    rw [getElem?_swap hz hy, if_neg (by omega), if_neg (by omega), h.pivot]
  below := by
    intro k w h1 h2 hw
    have hm := h.le_scan
    rw [getElem?_swap hz hy] at hw
    by_cases hkm : k = m
    · have hw' : w = y := by
        by_cases hmq : k = q
        · rw [if_pos hmq] at hw
          have hzy : some z = some y := by rw [← hz, ← hy, ← hkm, hmq]
          exact Option.some.inj (hw.symm.trans hzy)
        · rw [if_neg hmq, if_pos hkm] at hw
          exact (Option.some.inj hw).symm
      exact hw' ▸ hyx
    · rw [if_neg (by omega), if_neg hkm] at hw
      exact h.below k w h1 (by omega) hw
  above := by
    intro k w h1 h2 hw
    rw [getElem?_swap hz hy] at hw
    by_cases hkq : k = q
    · rw [if_pos hkq] at hw
      obtain rfl : z = w := Option.some.inj hw
      exact h.above m z le_rfl (by omega) hz
    · rw [if_neg hkq, if_neg (by omega)] at hw
      exact h.above k w (by omega) (by omega) hw

theorem Scanned.getElem?_pivot (h : Scanned s x m s.hi a) (hz : a[m]? = some z) :
    ((a.set m x).set s.hi z)[m]? = some x := by
  rw [getElem?_swap hz h.pivot]
  by_cases hm : m = s.hi
  · rw [if_pos hm, ← hz, hm, h.pivot]
  · rw [if_neg hm, if_pos rfl]

/-- The pivot goes between the two parts. -/
theorem Scanned.split (h : Scanned s x m s.hi a) (hz : a[m]? = some z) :
    Split s m ((a.set m x).set s.hi z) where
  lo_le := h.lo_le
  le_hi := h.le_scan
  below := by
    intro k w v h1 h2 hw hv
    have hm := h.le_scan
    obtain rfl : x = v := Option.some.inj ((h.getElem?_pivot hz).symm.trans hv)
    rw [getElem?_swap hz h.pivot, if_neg (by omega), if_neg (by omega)] at hw
    exact h.below k w h1 h2 hw
  above := by
    intro k v w h1 h2 hv hw
    obtain rfl : x = v := Option.some.inj ((h.getElem?_pivot hz).symm.trans hv)
    rw [getElem?_swap hz h.pivot] at hw
    by_cases hk : k = s.hi
    · rw [if_pos hk] at hw
      obtain rfl : z = w := Option.some.inj hw
      exact h.above m z le_rfl (by omega) hz
    · rw [if_neg hk, if_neg (by omega)] at hw
      exact h.above k w (by omega) (by omega) hw

end scan

end order

end Sysprog
