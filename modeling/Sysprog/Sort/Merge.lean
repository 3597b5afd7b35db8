import Sysprog.Sort.Quicksort

namespace Sysprog.Sort

/-- The first loop of `merge`, over the arrays of two tasks; returns `a`, `b`, `i` and `tmp`. -/
def mergeHeads (x y : Task) (a b i : Int) (tmp : List Int) : Option (Int × Int × Int × List Int) :=
  if a ≤ x.N - 1 ∧ b ≤ y.N - 1 then do
    let v ← read x.arr a
    let w ← read y.arr b
    if v ≤ w then do
      let tmp ← write tmp i v
      mergeHeads x y (a + 1) b (i + 1) tmp
    else do
      let tmp ← write tmp i w
      mergeHeads x y a (b + 1) (i + 1) tmp
  else some (a, b, i, tmp)
termination_by (x.N - a).toNat + (y.N - b).toNat

/-- The loops of `merge` that copy what is left of one array. -/
def copyRest (x : Task) (a i : Int) (tmp : List Int) : Option (List Int) :=
  if a ≤ x.N - 1 then do
    let v ← read x.arr a
    let tmp ← write tmp i v
    copyRest x (a + 1) (i + 1) tmp
  else some tmp
termination_by (x.N - a).toNat

/-- The `tmp` of `merge`: both arrays merged. -/
def mergeTwo (x y : Task) : Option (List Int) := do
  let (a, b, i, tmp) ← mergeHeads x y 0 0 0 (calloc (y.N + x.N))
  if a = x.N then copyRest y b i tmp
  else if b = y.N then copyRest x a i tmp
  else some tmp

/-- `merge(k, arrs)`; a freed array has no entry left that could be accessed. -/
def merge : Nat → List Task → Option (List Task)
  | 0, _ => none
  | 1, arrs => some arrs
  | k + 2, arrs =>
    match arrs with
    | x :: y :: _ => do
      let tmp ← mergeTwo x y
      let arrs := arrs.modify 1 fun t => { t with arr := [] }
      let last ← arrs[k + 1]?
      let arrs := arrs.modify 1 fun t => { t with arr := last.arr, N := last.N }
      let arrs := arrs.modify (k + 1) fun t => { t with arr := tmp, N := y.N + x.N }
      let rest ← merge (k + 1) arrs.tail
      some (x :: rest)
    | _ => none

/-- The part of `tmp` that is written, with room for the entries that are left. -/
structure Filled (x y : Task) (a b : Nat) (pre tmp : List Int) : Prop where
  left : a ≤ x.arr.length
  right : b ≤ y.arr.length
  length : pre.length = a + b
  room : ∃ free, tmp = pre ++ free ∧ free.length = (x.arr.length - a) + (y.arr.length - b)

section filled

variable {x y : Task} {a b : Nat} {pre tmp : List Int} {v : Int}

theorem Filled.write (h : Filled x y a b pre tmp) (v : Int)
    (hr : 0 < (x.arr.length - a) + (y.arr.length - b)) :
    ∃ free, write tmp ((a + b : Nat) : Int) v = some ((pre ++ [v]) ++ free) ∧
      free.length + 1 = (x.arr.length - a) + (y.arr.length - b) := by
  obtain ⟨free, rfl, hf⟩ := h.room
  obtain ⟨f, free, rfl⟩ : ∃ f fs, free = f :: fs :=
    List.exists_cons_of_ne_nil (List.ne_nil_of_length_pos (by omega))
  exact ⟨free, h.length ▸ write_append pre free f v, by simpa using hf⟩

theorem Filled.take_left (h : Filled x y a b pre tmp) (hv : x.arr[a]? = some v) :
    ∃ tmp', Sort.write tmp ((a + b : Nat) : Int) v = some tmp' ∧
      Filled x y (a + 1) b (pre ++ [v]) tmp' := by
  have ha := (List.getElem?_eq_some_iff.mp hv).1
  obtain ⟨free, hw, hf⟩ := h.write v (by omega)
  refine ⟨_, hw, ha, h.right, ?_, free, rfl, by omega⟩
  rw [List.length_append, h.length, List.length_singleton]
  omega

theorem Filled.take_right (h : Filled x y a b pre tmp) (hv : y.arr[b]? = some v) :
    ∃ tmp', Sort.write tmp ((a + b : Nat) : Int) v = some tmp' ∧
      Filled x y a (b + 1) (pre ++ [v]) tmp' := by
  have hb := (List.getElem?_eq_some_iff.mp hv).1
  obtain ⟨free, hw, hf⟩ := h.write v (by omega)
  refine ⟨_, hw, h.left, hb, ?_, free, rfl, by omega⟩
  rw [List.length_append, h.length, List.length_singleton]
  omega

theorem drop_eq_cons {l : List Int} (h : l[a]? = some v) : l.drop a = v :: l.drop (a + 1) := by
  obtain ⟨ha, rfl⟩ := List.getElem?_eq_some_iff.mp h
  exact List.drop_eq_getElem_cons ha

/-- What is written, followed by the merge of what is left, does not change. -/
theorem mergeHeads_spec (hx : x.N = x.arr.length) (hy : y.N = y.arr.length)
    (h : Filled x y a b pre tmp) :
    ∃ (a' b' : Nat) (pre' tmp' : List Int),
      mergeHeads x y a b ((a + b : Nat) : Int) tmp =
        some ((a' : Int), (b' : Int), ((a' + b' : Nat) : Int), tmp') ∧
      Filled x y a' b' pre' tmp' ∧ (a' = x.arr.length ∨ b' = y.arr.length) ∧
      pre' ++ (x.arr.drop a').merge (y.arr.drop b') =
        pre ++ (x.arr.drop a).merge (y.arr.drop b) := by
  induction hd : (x.arr.length - a) + (y.arr.length - b) using Nat.strong_induction_on
    generalizing a b pre tmp with
  | _ d ih =>
    by_cases hin : a < x.arr.length ∧ b < y.arr.length
    · obtain ⟨v, hv⟩ : ∃ v, x.arr[a]? = some v := ⟨_, List.getElem?_eq_getElem hin.1⟩
      obtain ⟨w, hw⟩ : ∃ w, y.arr[b]? = some w := ⟨_, List.getElem?_eq_getElem hin.2⟩
      have hc : (a : Int) ≤ x.N - 1 ∧ (b : Int) ≤ y.N - 1 := by omega
      rw [mergeHeads, if_pos hc]
      simp only [read_natCast, hv, hw, Option.bind_eq_bind, Option.bind_some]
      by_cases hvw : v ≤ w
      · obtain ⟨tmp1, ht, h1⟩ := h.take_left hv
        obtain ⟨a', b', pre', tmp', he, h', hend, hm⟩ := ih _ (by omega) h1 rfl
        refine ⟨a', b', pre', tmp', ?_, h', hend, ?_⟩
        · have hi : ((a + b : Nat) : Int) + 1 = ((a + 1 + b : Nat) : Int) := by omega
          simp only [if_pos hvw, ht, Option.bind_some, hi]
          exact he
        · rw [hm, drop_eq_cons hv, drop_eq_cons hw,
            List.cons_merge_cons_pos _ _ _ (by simpa using hvw), List.append_assoc]
          rfl
      · obtain ⟨tmp1, ht, h1⟩ := h.take_right hw
        obtain ⟨a', b', pre', tmp', he, h', hend, hm⟩ := ih _ (by omega) h1 rfl
        refine ⟨a', b', pre', tmp', ?_, h', hend, ?_⟩
        · simp only [if_neg hvw, ht, Option.bind_some]
          exact he
        · rw [hm, drop_eq_cons hv, drop_eq_cons hw,
            List.cons_merge_cons_neg _ _ _ (by simpa using hvw), List.append_assoc]
          rfl
    · have ha := h.left
      have hb := h.right
      refine ⟨a, b, pre, tmp, ?_, h, by omega, rfl⟩
      rw [mergeHeads, if_neg (by omega)]

theorem copyRest_spec (hx : x.N = x.arr.length) {free : List Int}
    (pre : List Int) (hf : free.length = x.arr.length - a) :
    copyRest x a pre.length (pre ++ free) = some (pre ++ x.arr.drop a) := by
  induction free generalizing a pre with
  | nil =>
    rw [List.length_nil] at hf
    rw [copyRest, if_neg (by omega), List.drop_eq_nil_of_le (by omega)]
  | cons f free ih =>
    rw [List.length_cons] at hf
    obtain ⟨v, hv⟩ : ∃ v, x.arr[a]? = some v := ⟨_, List.getElem?_eq_getElem (by omega)⟩
    have hc : (a : Int) ≤ x.N - 1 := by omega
    have hr := ih (a := a + 1) (pre ++ [v]) (by omega)
    have hd : pre ++ x.arr.drop a = pre ++ [v] ++ x.arr.drop (a + 1) := by
      simp [drop_eq_cons hv]
    rw [copyRest, if_pos hc, hd, ← hr, List.length_append]
    simp only [read_natCast, hv, write_append, Option.bind_eq_bind, Option.bind_some]
    rfl

theorem mergeTwo_eq (hx : x.N = x.arr.length) (hy : y.N = y.arr.length) :
    mergeTwo x y = some (x.arr.merge y.arr) := by
  have h0 : Filled x y 0 0 [] (calloc (y.N + x.N)) := by
    refine ⟨Nat.zero_le _, Nat.zero_le _, rfl, _, rfl, ?_⟩
    simp only [List.length_replicate, hx, hy]
    omega
  obtain ⟨a, b, pre, tmp, he, h, hend, hm⟩ := mergeHeads_spec hx hy h0
  obtain ⟨free, rfl, hf⟩ := h.room
  have he' : mergeHeads x y 0 0 0 (calloc (y.N + x.N)) = _ := he
  simp only [List.drop_zero, List.nil_append] at hm
  unfold mergeTwo
  simp only [he', Option.bind_eq_bind, Option.bind_some]
  have hb := h.right
  by_cases ha : a = x.arr.length
  · rw [if_pos (by rw [ha, hx]), ← h.length, copyRest_spec hy pre (by omega), ← hm, ha, List.drop_length,
      List.nil_merge]
  · have hb : b = y.arr.length := by omega
    rw [if_neg (by rw [hx]; omega), if_pos (by rw [hb, hy]), ← h.length,
      copyRest_spec hx pre (by omega),
      ← hm, hb, List.drop_length, List.merge_right]

end filled

/-- A task whose array is sorted and as long as it says. -/
structure Run (t : Task) : Prop where
  N : t.N = t.arr.length
  sorted : t.arr.Pairwise (· ≤ ·)

section merge

variable {x y : Task} {k : Nat}

theorem Run.merge (hx : Run x) (hy : Run y) (t : Task) :
    Run { t with arr := x.arr.merge y.arr, N := y.N + x.N } where
  N := by
    simp only [List.length_merge, hx.N, hy.N]
    omega
  sorted := by
    have h := @List.pairwise_merge Int (fun a b => decide (a ≤ b))
      (by simpa using fun a b c => Int.le_trans) (by simpa using Int.le_total) x.arr y.arr
      (by simpa using hx.sorted) (by simpa using hy.sorted)
    simpa using h

theorem merge_eq {rest : List Task} {tmp : List Int} {last : Task} (hm : mergeTwo x y = some tmp)
    (hl : ({ y with arr := [] } :: rest)[k]? = some last) :
    merge (k + 2) (x :: y :: rest) =
      (merge (k + 1) (({ y with arr := last.arr, N := last.N } :: rest).modify k fun t =>
        { t with arr := tmp, N := y.N + x.N })).map (x :: ·) := by
  rw [merge]
  simp only [hm, hl, Option.bind_eq_bind, Option.bind_some, List.modify_succ_cons,
    List.modify_zero_cons, List.getElem?_cons_succ, List.tail_cons, Option.map_eq_bind]
  rfl

/-- What `merge` makes of the slots after the second: the last one comes to the front. -/
def lastFirst {α : Type} (l : List α) : List α := l.getLast?.toList ++ l.dropLast

theorem lastFirst_concat {α : Type} (init : List α) (z : α) :
    lastFirst (init ++ [z]) = z :: init := by
  simp [lastFirst]

theorem lastFirst_perm {α : Type} (l : List α) : (lastFirst l).Perm l := by
  obtain rfl | ⟨init, z, rfl⟩ := List.eq_nil_or_concat l
  · rfl
  · rw [List.concat_eq_append, lastFirst_concat]
    exact (List.perm_append_singleton z init).symm

theorem map_lastFirst {α β : Type} (f : α → β) (l : List α) :
    (lastFirst l).map f = lastFirst (l.map f) := by
  obtain rfl | ⟨init, z, rfl⟩ := List.eq_nil_or_concat l
  · rfl
  · rw [List.concat_eq_append, List.map_append, List.map_singleton, lastFirst_concat,
      lastFirst_concat, List.map_cons]

/-- One call: the two first arrays make place for the last one and for what they merge into, and
the rest of the calls is about the tasks after the first. -/
theorem merge_step {rest : List Task} (hk : rest.length = k) (hx : Run x) (hy : Run y)
    (hr : ∀ t ∈ rest, Run t) :
    ∃ arrs, merge (k + 2) (x :: y :: rest) = (merge (k + 1) arrs).map (x :: ·) ∧
      arrs.length = k + 1 ∧ (∀ t ∈ arrs, Run t) ∧
      (arrs.flatMap Task.arr).Perm ((x :: y :: rest).flatMap Task.arr) ∧
      arrs.map Task.arr = lastFirst (rest.map Task.arr) ++ [x.arr.merge y.arr] := by
  have hm : (x.arr.merge y.arr).Perm (x.arr ++ y.arr) :=
    List.merge_perm_append _
  have hrun := hx.merge hy
  obtain rfl | ⟨init, z, rfl⟩ := List.eq_nil_or_concat rest
  · obtain rfl : k = 0 := hk.symm
    refine ⟨[{ y with arr := x.arr.merge y.arr, N := y.N + x.N }], ?_, rfl, ?_, ?_, rfl⟩
    · rw [merge_eq (mergeTwo_eq hx.N hy.N) rfl]
      rfl
    · intro t ht
      obtain rfl := List.mem_singleton.mp ht
      exact hrun y
    · simpa using hm
  · obtain rfl : k = init.length + 1 := by simpa using hk.symm
    refine ⟨{ y with arr := z.arr, N := z.N } ::
      (init ++ [{ z with arr := x.arr.merge y.arr, N := y.N + x.N }]), ?_, by simp, ?_, ?_, ?_⟩
    · have hl : ({ y with arr := [] } :: init.concat z)[init.length + 1]? = some z := by simp
      rw [merge_eq (mergeTwo_eq hx.N hy.N) hl, List.modify_succ_cons,
        List.modify_eq_take_cons_drop (by simp)]
      simp
    · intro t ht
      rcases List.mem_cons.mp ht with rfl | ht
      · have hz := hr z (by simp)
        exact ⟨hz.N, hz.sorted⟩
      · rcases List.mem_append.mp ht with ht | ht
        · exact hr t (by simp [ht])
        · obtain rfl := List.mem_singleton.mp ht
          exact hrun z
    · simp only [List.flatMap_cons, List.flatMap_append, List.flatMap_nil, List.append_nil,
        List.concat_eq_append]
      calc z.arr ++ (init.flatMap Task.arr ++ x.arr.merge y.arr)
          _ |>.Perm (init.flatMap Task.arr ++ x.arr.merge y.arr ++ z.arr) :=
            List.perm_append_comm
          _ |>.Perm (x.arr.merge y.arr ++ init.flatMap Task.arr ++ z.arr) :=
            List.perm_append_comm.append_right _
          _ |>.Perm (x.arr ++ y.arr ++ init.flatMap Task.arr ++ z.arr) :=
            (hm.append_right _).append_right _
          _ = x.arr ++ (y.arr ++ (init.flatMap Task.arr ++ z.arr)) := by
            simp only [List.append_assoc]
    · simp [lastFirst_concat]

/-- The last array ends up with all the numbers, sorted. -/
theorem merge_spec {arrs : List Task} (hl : arrs.length = k + 1) (hr : ∀ t ∈ arrs, Run t) :
    ∃ arrs' last, merge (k + 1) arrs = some arrs' ∧ arrs'[k]? = some last ∧ Run last ∧
      last.arr.Perm (arrs.flatMap Task.arr) := by
  induction k generalizing arrs with
  | zero =>
    obtain ⟨t, rfl⟩ := List.length_eq_one_iff.mp hl
    exact ⟨[t], t, rfl, rfl, hr t (by simp), by simp⟩
  | succ k ih =>
    match arrs with
    | [] => simp at hl
    | [_] => simp at hl
    | x :: y :: rest =>
      obtain ⟨arrs1, he, hl1, hr1, hp1, -⟩ := merge_step (by simpa using hl) (hr x (by simp))
        (hr y (by simp)) fun t ht => hr t (by simp [ht])
      obtain ⟨arrs2, last, hm, hlast, hrun, hp⟩ := ih hl1 hr1
      refine ⟨x :: arrs2, last, ?_, ?_, hrun, hp.trans hp1⟩
      · rw [he, hm]
        rfl
      · simpa using hlast

end merge

end Sysprog.Sort
