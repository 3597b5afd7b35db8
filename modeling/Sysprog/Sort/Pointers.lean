import Sysprog.Sort.Merge
import Sysprog.Lib.LinkedList

namespace Sysprog.Sort

/-- The memory behind the arrays: what `calloc` has given out and nobody has freed. An address is
given out once, also that of an array without entries. -/
structure Arrays where
  cells : Addr → Option (List Int)
  fresh : Addr

/-- The fields of a task that `merge` uses. -/
structure ArraySlot where
  arr : Addr
  /-- `int`. -/
  N : Int
  deriving DecidableEq

/-- Addition of `int`s, with no result where it overflows. -/
def addInt (a b : Int) : Option Int :=
  if -2 ^ 31 ≤ a + b ∧ a + b < 2 ^ 31 then some (a + b) else none

namespace Arrays

def put (h : Arrays) (p : Addr) (a : List Int) : Arrays :=
  { h with cells := Function.update h.cells p (some a) }

def calloc (h : Arrays) (n : Int) : Addr × Arrays :=
  (h.fresh, { h.put h.fresh (Sort.calloc n) with fresh := h.fresh + 1 })

/-- `free`, of an array that has not been freed. -/
def free (h : Arrays) (p : Addr) : Option Arrays :=
  (h.cells p).map fun _ => { h with cells := Function.update h.cells p none }

/-- `p[i]`, with no result outside the array or when it has been freed. -/
def read (h : Arrays) (p : Addr) (i : Int) : Option Int := (h.cells p).bind fun a => Sort.read a i

/-- `p[i] = v`. -/
def write (h : Arrays) (p : Addr) (i v : Int) : Option Arrays :=
  (h.cells p).bind fun a => (Sort.write a i v).map (h.put p)

/-- The first loop of `merge`; returns `a`, `b`, `i` and the memory. -/
def mergeHeads (x y : ArraySlot) (tmp : Addr) (a b i : Int) (h : Arrays) :
    Option (Int × Int × Int × Arrays) :=
  if a ≤ x.N - 1 ∧ b ≤ y.N - 1 then do
    let v ← h.read x.arr a
    let w ← h.read y.arr b
    if v ≤ w then do
      let h ← h.write tmp i v
      mergeHeads x y tmp (a + 1) b (i + 1) h
    else do
      let h ← h.write tmp i w
      mergeHeads x y tmp a (b + 1) (i + 1) h
  else some (a, b, i, h)
termination_by (x.N - a).toNat + (y.N - b).toNat

/-- The loops of `merge` that copy what is left of one array. -/
def copyRest (x : ArraySlot) (tmp : Addr) (a i : Int) (h : Arrays) : Option Arrays :=
  if a ≤ x.N - 1 then do
    let v ← h.read x.arr a
    let h ← h.write tmp i v
    copyRest x tmp (a + 1) (i + 1) h
  else some h
termination_by (x.N - a).toNat

/-- `merge` up to the end of its loops. -/
def mergeTwo (x y : ArraySlot) (tmp : Addr) (h : Arrays) : Option Arrays := do
  let (a, b, i, h) ← h.mergeHeads x y tmp 0 0 0
  if a = x.N then h.copyRest y tmp b i
  else if b = y.N then h.copyRest x tmp a i
  else some h

/-- `merge(k, arrs)`: the tasks and the memory when it returns. -/
def merge : Nat → List ArraySlot → Arrays → Option (List ArraySlot × Arrays)
  | 0, _, _ => none
  | 1, arrs, h => some (arrs, h)
  | k + 2, arrs, h =>
    match arrs with
    | x :: y :: _ => do
      let n ← addInt y.N x.N
      let (tmp, h) := h.calloc n
      let h ← h.mergeTwo x y tmp
      let h ← h.free y.arr
      let tmpN ← addInt y.N x.N
      let last ← arrs[k + 1]?
      let arrs := arrs.modify 1 fun s => { s with arr := last.arr, N := last.N }
      let arrs := arrs.modify (k + 1) fun s => { s with arr := tmp, N := tmpN }
      let (rest, h) ← merge (k + 1) arrs.tail h
      some (x :: rest, h)
    | _ => none

/-- The loop of `main` that frees the arrays. -/
def freeAll : List ArraySlot → Arrays → Option Arrays
  | [], h => some h
  | s :: slots, h => (h.free s.arr).bind (freeAll slots)

/-- The slot points at the array of the task. -/
structure Holds (h : Arrays) (s : ArraySlot) (t : Task) : Prop where
  arr : h.cells s.arr = some t.arr
  N : s.N = t.N

section loops

variable {h : Arrays} {x y : ArraySlot} {X Y : Task} {p tmp : Addr} {t : List Int}

@[simp] theorem put_self (h : Arrays) (p : Addr) (a : List Int) : (h.put p a).cells p = some a := by
  simp [put]

@[simp] theorem put_ne (h : Arrays) {p q : Addr} (a : List Int) (hq : q ≠ p) :
    (h.put p a).cells q = h.cells q := by
  simp [put, hq]

@[simp] theorem put_put (h : Arrays) (p : Addr) (a b : List Int) : (h.put p a).put p b = h.put p b := by
  simp [put]

theorem Holds.read (hx : h.Holds x X) (hne : x.arr ≠ tmp) (t : List Int) (i : Int) :
    (h.put tmp t).read x.arr i = Sort.read X.arr i := by
  simp [Arrays.read, hne, hx.arr]

theorem write_put (h : Arrays) (tmp : Addr) (t : List Int) (i v : Int) :
    (h.put tmp t).write tmp i v = (Sort.write t i v).map (h.put tmp) := by
  have hput : (h.put tmp t).put tmp = h.put tmp := funext fun b => put_put h tmp t b
  simp [Arrays.write, hput]

/-- The loops do on the memory what they do on the arrays by themselves. -/
theorem mergeHeads_eq (hx : h.Holds x X) (hy : h.Holds y Y) (hxt : x.arr ≠ tmp) (hyt : y.arr ≠ tmp)
    (a b i : Int) (t : List Int) :
    (h.put tmp t).mergeHeads x y tmp a b i =
      (Sort.mergeHeads X Y a b i t).map fun r => (r.1, r.2.1, r.2.2.1, h.put tmp r.2.2.2) := by
  fun_induction Sort.mergeHeads X Y a b i t with
  | case1 a b i t hc ih1 ih2 =>
    rw [mergeHeads, hx.N, hy.N, if_pos hc, hx.read hxt, hy.read hyt]
    simp only [write_put]
    cases Sort.read X.arr a with
    | none => rfl
    | some v =>
      cases Sort.read Y.arr b with
      | none => rfl
      | some w =>
        simp only [Option.bind_eq_bind, Option.bind_some]
        split_ifs
        · cases Sort.write t i v with
          | none => rfl
          | some t' => exact ih1 t'
        · cases Sort.write t i w with
          | none => rfl
          | some t' => exact ih2 t'
  | case2 a b i t hc =>
    rw [mergeHeads, hx.N, hy.N, if_neg hc]
    rfl

theorem copyRest_eq (hx : h.Holds x X) (hxt : x.arr ≠ tmp) (a i : Int) (t : List Int) :
    (h.put tmp t).copyRest x tmp a i = (Sort.copyRest X a i t).map (h.put tmp) := by
  fun_induction Sort.copyRest X a i t with
  | case1 a i t hc ih =>
    rw [copyRest, hx.N, if_pos hc, hx.read hxt]
    simp only [write_put]
    cases Sort.read X.arr a with
    | none => rfl
    | some v =>
      simp only [Option.bind_eq_bind, Option.bind_some]
      cases Sort.write t i v with
      | none => rfl
      | some t' => exact ih t'
  | case2 a i t hc =>
    rw [copyRest, hx.N, if_neg hc]
    rfl

/-- What `mergeTwo` leaves in `tmp` is the merge of both arrays, and it leaves nothing else. -/
theorem mergeTwo_eq (hx : h.Holds x X) (hy : h.Holds y Y) (hxt : x.arr ≠ tmp) (hyt : y.arr ≠ tmp) :
    (h.put tmp (Sort.calloc (Y.N + X.N))).mergeTwo x y tmp =
      (Sort.mergeTwo X Y).map (h.put tmp) := by
  rw [mergeTwo, mergeHeads_eq hx hy hxt hyt, Sort.mergeTwo]
  cases Sort.mergeHeads X Y 0 0 0 (Sort.calloc (Y.N + X.N)) with
  | none => rfl
  | some r =>
    obtain ⟨a, b, i, t⟩ := r
    simp only [Option.map_some, Option.bind_eq_bind, Option.bind_some, hx.N, hy.N]
    split_ifs
    · exact copyRest_eq hy hyt b i t
    · exact copyRest_eq hx hxt a i t
    · rfl

end loops

section ownership

variable {h : Arrays} {x y : ArraySlot} {xs ys m : List Int} {n : Int} {k : Nat}
  {es rest : List (ArraySlot × List Int)}

/-- The pointers of the slots. -/
def pointers (es : List (ArraySlot × List Int)) : List Addr := es.map fun e => e.1.arr

/-- Each slot has an array, with this content, for itself. -/
structure Owned (h : Arrays) (es : List (ArraySlot × List Int)) : Prop where
  holds : ∀ e ∈ es, h.cells e.1.arr = some e.2 ∧ e.1.N = e.2.length
  distinct : (pointers es).Nodup
  bounded : ∀ p, h.cells p ≠ none → p < h.fresh

/-- The memory when the recursive call starts. -/
def merged (h : Arrays) (y : ArraySlot) (m : List Int) : Arrays where
  cells := Function.update (Function.update h.cells h.fresh (some m)) y.arr none
  fresh := h.fresh + 1

theorem merged_cells (h : Arrays) {y : ArraySlot} (m : List Int) {p : Addr} (hy : p ≠ y.arr)
    (hf : p ≠ h.fresh) : (h.merged y m).cells p = h.cells p := by
  simp [merged, hy, hf]

theorem Owned.lt_fresh (o : Owned h es) {p : Addr} (hp : p ∈ pointers es) : p < h.fresh := by
  obtain ⟨e, he, rfl⟩ := List.mem_map.mp hp
  exact o.bounded _ (by simp [(o.holds e he).1])

theorem modify_last {slots : List ArraySlot} (y new : ArraySlot) (hl : slots.length = k) :
    ∃ last, (y :: slots)[k]? = some last ∧
      (last :: slots).modify k (fun _ => new) = lastFirst slots ++ [new] := by
  obtain rfl | ⟨init, z, rfl⟩ := List.eq_nil_or_concat slots
  · obtain rfl : k = 0 := hl.symm
    exact ⟨y, rfl, rfl⟩
  · obtain rfl : k = init.length + 1 := by simpa using hl.symm
    refine ⟨z, by simp, ?_⟩
    rw [List.modify_succ_cons, List.modify_eq_take_cons_drop (by simp), List.concat_eq_append,
      lastFirst_concat]
    simp

/-- A task of which only the array counts. -/
def task (a : List Int) : Task := ⟨.wait, true, a, [], 0, 0, 0, 0, 0, 0, 0, 0, a.length⟩

/-- One call up to the recursive one. -/
theorem merge_eq {slots : List ArraySlot} (o : Owned h ((x, xs) :: (y, ys) :: rest))
    (hl : slots.length = k) (hn : (xs.length + ys.length : Int) < 2 ^ 31) :
    h.merge (k + 2) (x :: y :: slots) =
      ((h.merged y (xs.merge ys)).merge (k + 1)
        (lastFirst slots ++ [⟨h.fresh, (xs.merge ys).length⟩])).map fun r => (x :: r.1, r.2) := by
  obtain ⟨hx, hxN⟩ := o.holds (x, xs) (by simp)
  obtain ⟨hy, hyN⟩ := o.holds (y, ys) (by simp)
  have hxf : x.arr ≠ h.fresh := Nat.ne_of_lt (o.lt_fresh (by simp [pointers]))
  have hyf : y.arr ≠ h.fresh := Nat.ne_of_lt (o.lt_fresh (by simp [pointers]))
  have hadd : addInt y.N x.N = some ((xs.merge ys).length : Int) := by
    have hlen : ((xs.merge ys).length : Int) = y.N + x.N := by
      rw [List.length_merge, hxN, hyN]
      push_cast
      exact Int.add_comm _ _
    rw [hlen, addInt, if_pos]
    rw [hxN, hyN]
    simp only
    omega
  have htwo := mergeTwo_eq (h := { h with fresh := h.fresh + 1 }) (X := task xs) (Y := task ys)
    ⟨hx, hxN⟩ ⟨hy, hyN⟩ hxf hyf
  rw [Sort.mergeTwo_eq rfl rfl] at htwo
  have hcalloc : ((task ys).N + (task xs).N : Int) = (xs.merge ys).length := by
    simp only [task, List.length_merge]
    push_cast
    exact Int.add_comm _ _
  rw [hcalloc] at htwo
  have htwo' : (h.calloc (xs.merge ys).length).2.mergeTwo x y h.fresh =
      some (({ h with fresh := h.fresh + 1 } : Arrays).put h.fresh (xs.merge ys)) := htwo
  have hfree : (({ h with fresh := h.fresh + 1 } : Arrays).put h.fresh (xs.merge ys)).free y.arr =
      some (h.merged y (xs.merge ys)) := by
    simp [free, merged, put, hyf, hy]
  obtain ⟨last, hlast, hmodify⟩ := modify_last y ⟨h.fresh, (xs.merge ys).length⟩ hl
  have hlast' : (x :: y :: slots)[k + 1]? = some last := hlast
  rw [merge]
  simp only [hadd, Option.bind_eq_bind, Option.bind_some]
  have hnew : ∀ n, (h.calloc n).1 = h.fresh := fun _ => rfl
  rw [hnew, htwo']
  simp only [Option.bind_some, hfree, hlast', List.modify_succ_cons, List.modify_zero_cons,
    List.tail_cons, Option.map_eq_bind]
  rw [← hmodify]
  rfl

/-- The array of `y` gives way to the merged one, at a new address. -/
theorem Owned.step (o : Owned h ((x, xs) :: (y, ys) :: rest)) (m : List Int) :
    Owned (h.merged y m) (lastFirst rest ++ [(⟨h.fresh, m.length⟩, m)]) := by
  have hd := o.distinct
  simp only [pointers, List.map_cons, List.nodup_cons, List.mem_cons, not_or] at hd
  obtain ⟨-, hyr, hdr⟩ := hd
  have hyf : y.arr ≠ h.fresh := Nat.ne_of_lt (o.lt_fresh (by simp [pointers]))
  have hrf : ∀ p ∈ pointers rest, p ≠ h.fresh := fun p hp =>
    Nat.ne_of_lt (o.lt_fresh (List.mem_cons_of_mem _ (List.mem_cons_of_mem _ hp)))
  have hperm := (lastFirst_perm rest).append_right [((⟨h.fresh, m.length⟩ : ArraySlot), m)]
  refine ⟨?_, ?_, ?_⟩
  · intro e hen
    rcases List.mem_append.mp (hperm.mem_iff.mp hen) with her | hem
    · obtain ⟨hcell, hlen⟩ := o.holds e (by simp [her])
      have hptr : e.1.arr ∈ pointers rest := List.mem_map_of_mem her
      have hpy : e.1.arr ≠ y.arr := fun he => hyr (he ▸ hptr)
      exact ⟨(merged_cells h m hpy (hrf _ hptr)).trans hcell, hlen⟩
    · obtain rfl := List.mem_singleton.mp hem
      exact ⟨by simp [merged, Ne.symm hyf], rfl⟩
  · rw [pointers, (hperm.map _).nodup_iff, List.map_append, List.nodup_append]
    refine ⟨hdr, by simp, ?_⟩
    intro p hp q hq
    obtain rfl : q = h.fresh := by simpa using hq
    exact hrf p hp
  · intro p hpc
    change p < h.fresh + 1
    by_cases hpf : p = h.fresh
    · exact hpf ▸ Nat.lt_add_one _
    · by_cases hpy : p = y.arr
      · simp [merged, hpy] at hpc
      · rw [merged_cells h m hpy hpf] at hpc
        exact Nat.lt_succ_of_lt (o.bounded p hpc)

theorem mem_pointers_next {f p : Addr} :
    p ∈ pointers (lastFirst rest ++ [(⟨f, n⟩, m)]) ↔ p ∈ pointers rest ∨ p = f := by
  rw [pointers, List.map_append, List.mem_append, ((lastFirst_perm rest).map _).mem_iff]
  simp [pointers]

/-- The number of all entries. -/
def total (es : List (ArraySlot × List Int)) : Nat := (es.map fun e => e.2.length).sum

theorem total_next (x y : ArraySlot) (xs ys : List Int) (rest : List (ArraySlot × List Int)) (f : Addr) :
    total (lastFirst rest ++ [(⟨f, (xs.merge ys).length⟩, xs.merge ys)]) =
      total ((x, xs) :: (y, ys) :: rest) := by
  have hperm := ((lastFirst_perm rest).map fun e => e.2.length).sum_eq
  simp only [total, List.map_append, List.sum_append, hperm, List.map_cons, List.map_nil,
    List.sum_cons, List.sum_nil, List.length_merge]
  omega

/-- On the memory `merge` does what it does on the tasks, and all slots keep arrays of their own;
no other array is freed. -/
theorem Owned.merge (o : Owned h es) (hl : es.length = k + 1) (hfit : total es < 2 ^ 31)
    {tasks : List Task} (ht : tasks.map Task.arr = es.map Prod.snd) (hr : ∀ t ∈ tasks, Run t) :
    ∃ es' h' tasks', h.merge (k + 1) (es.map Prod.fst) = some (es'.map Prod.fst, h') ∧
      Sort.merge (k + 1) tasks = some tasks' ∧ es'.map Prod.snd = tasks'.map Task.arr ∧
      Owned h' es' ∧ (∀ p < h.fresh, p ∉ pointers es → h'.cells p = h.cells p) ∧
      (∀ p ∈ pointers es', p ∈ pointers es ∨ h.fresh ≤ p) ∧ es'.length = es.length := by
  induction k generalizing h es tasks with
  | zero =>
    obtain ⟨e, rfl⟩ := List.length_eq_one_iff.mp hl
    obtain ⟨t, rfl, hte⟩ : ∃ t, tasks = [t] ∧ t.arr = e.2 := by
      simpa [List.map_eq_cons_iff] using ht
    exact ⟨[e], h, [t], rfl, rfl, by simp [hte], o, fun _ _ _ => rfl, fun _ hp => .inl hp, rfl⟩
  | succ k ih =>
    obtain ⟨⟨x, xs⟩, ⟨y, ys⟩, rest, rfl⟩ : ∃ e f rest, es = e :: f :: rest := by
      match es, hl with
      | e :: f :: rest, _ => exact ⟨e, f, rest, rfl⟩
    obtain ⟨X, Y, Rest, rfl, rfl, rfl, hrest⟩ : ∃ X Y Rest, tasks = X :: Y :: Rest ∧ X.arr = xs ∧
        Y.arr = ys ∧ Rest.map Task.arr = rest.map Prod.snd := by
      match tasks, ht with
      | X :: Y :: Rest, ht =>
        simp only [List.map_cons, List.cons.injEq] at ht
        exact ⟨X, Y, Rest, rfl, ht.1, ht.2.1, ht.2.2⟩
    have hlr : rest.length = k := by simpa using hl
    have hlR : Rest.length = k := by
      have hlen := congrArg List.length hrest
      simpa [hlr] using hlen
    obtain ⟨arrs, hstep, -, hruns, -, harrs⟩ := merge_step hlR (hr X (by simp)) (hr Y (by simp))
      fun t ht => hr t (by simp [ht])
    have hxy : (X.arr.length + Y.arr.length : Int) < 2 ^ 31 := by
      simp only [total, List.map_cons, List.sum_cons] at hfit
      omega
    have hslots : (rest.map Prod.fst).length = k := by simpa using hlr
    have hcall := merge_eq o hslots hxy
    let m := X.arr.merge Y.arr
    let next := lastFirst rest ++ [((⟨h.fresh, m.length⟩ : ArraySlot), m)]
    have hfst : lastFirst (rest.map Prod.fst) ++ [⟨h.fresh, m.length⟩] = next.map Prod.fst := by
      simp [next, map_lastFirst]
    have hsnd : arrs.map Task.arr = next.map Prod.snd := by
      rw [harrs, hrest]
      simp [next, map_lastFirst, m]
    have hln : next.length = k + 1 := by
      simp [next, (lastFirst_perm rest).length_eq, hlr]
    obtain ⟨es', h', tasks', hm, hM, hsame, o', hframe, hptr, hlen'⟩ := ih (o.step m) hln
      ((total_next x y X.arr Y.arr rest h.fresh).trans_lt hfit) hsnd hruns
    have hd := o.distinct
    simp only [pointers, List.map_cons, List.nodup_cons, List.mem_cons, not_or] at hd
    obtain ⟨⟨hxy', hxr⟩, hyr, -⟩ := hd
    have hxf : x.arr < h.fresh := o.lt_fresh (by simp [pointers])
    have hcell : ∀ p < h.fresh, p ≠ y.arr → p ∉ pointers rest → h'.cells p = h.cells p := by
      intro p hp hpy hpr
      rw [hframe p (Nat.lt_succ_of_lt hp), merged_cells h m hpy (Nat.ne_of_lt hp)]
      rw [mem_pointers_next]
      exact fun hor => hor.elim hpr (Nat.ne_of_lt hp)
    have hnext : ∀ p ∈ pointers es', p ∈ pointers rest ∨ h.fresh ≤ p := by
      intro p hp
      rcases hptr p hp with hpn | hpf
      · rcases mem_pointers_next.mp hpn with hpr | rfl
        · exact .inl hpr
        · exact .inr (Nat.le_refl _)
      · exact .inr (Nat.le_of_succ_le hpf)
    refine ⟨(x, X.arr) :: es', h', X :: tasks', ?_, ?_, ?_, ⟨?_, ?_, o'.bounded⟩, ?_, ?_,
      by simp [hlen', (lastFirst_perm rest).length_eq]⟩
    · rw [List.map_cons, List.map_cons, hcall, hfst, hm]
      rfl
    · rw [hstep, hM]
      rfl
    · simp [hsame]
    · intro e he
      rcases List.mem_cons.mp he with rfl | he
      · obtain ⟨hx, hN⟩ := o.holds (x, X.arr) (by simp)
        exact ⟨(hcell x.arr hxf hxy' hxr).trans hx, hN⟩
      · exact o'.holds e he
    · refine List.nodup_cons.mpr ⟨?_, o'.distinct⟩
      intro hmem
      exact (hnext x.arr hmem).elim hxr (Nat.not_le_of_lt hxf)
    · intro p hp hpe
      simp only [pointers, List.map_cons, List.mem_cons, not_or] at hpe
      exact hcell p hp hpe.2.1 hpe.2.2
    · intro p hp
      rcases List.mem_cons.mp hp with rfl | hp
      · exact .inl (by simp [pointers])
      · exact (hnext p hp).imp (fun hpr => List.mem_cons_of_mem _ (List.mem_cons_of_mem _ hpr)) id

theorem freeAll_ne_none {slots : List ArraySlot} (hd : (slots.map ArraySlot.arr).Nodup)
    (ha : ∀ s ∈ slots, h.cells s.arr ≠ none) : h.freeAll slots ≠ none := by
  induction slots generalizing h with
  | nil => simp [freeAll]
  | cons s slots ih =>
    obtain ⟨a, hs⟩ := Option.ne_none_iff_exists'.mp (ha s (by simp))
    rw [List.map_cons, List.nodup_cons] at hd
    have hfree : h.free s.arr = some { h with cells := Function.update h.cells s.arr none } := by
      simp [free, hs]
    rw [freeAll, hfree, Option.bind_some]
    apply ih hd.2
    intro r hr
    have hne : r.arr ≠ s.arr := fun he => hd.1 (he ▸ List.mem_map_of_mem hr)
    simpa [hne] using ha r (by simp [hr])

/-- `merge` on sorted arrays: the last slot has all entries sorted, and every slot has an array
that the loop of `main` can free. -/
theorem merge_sorted_owned (o : Owned h es) (hne : es ≠ [])
    (hs : ∀ e ∈ es, e.2.Pairwise (· ≤ ·)) (hfit : total es < 2 ^ 31) :
    ∃ slots h' last a, h.merge es.length (es.map Prod.fst) = some (slots, h') ∧
      slots.length = es.length ∧ slots[es.length - 1]? = some last ∧
      h'.cells last.arr = some a ∧ last.N = a.length ∧ a.length = total es ∧
      a.Pairwise (· ≤ ·) ∧ a.Perm (es.flatMap Prod.snd) ∧
      (slots.map ArraySlot.arr).Nodup ∧ (∀ s ∈ slots, h'.cells s.arr ≠ none) ∧
      h'.freeAll slots ≠ none := by
  obtain ⟨k, hk⟩ : ∃ k, es.length = k + 1 :=
    ⟨es.length - 1, by have := List.length_pos_of_ne_nil hne; omega⟩
  let tasks := es.map fun e => task e.2
  have htasks : tasks.map Task.arr = es.map Prod.snd := by
    simp [tasks, task, Function.comp_def]
  have hruns : ∀ t ∈ tasks, Run t := by
    intro t ht
    obtain ⟨e, he, rfl⟩ := List.mem_map.mp ht
    exact ⟨rfl, hs e he⟩
  obtain ⟨es', h', tasks', hm, hM, hsame, o', -, -, hlen⟩ := o.merge hk hfit htasks hruns
  obtain ⟨arrs, t, hM', hlast, hrun, hperm⟩ :=
    merge_spec (k := k) (by simp [tasks, hk]) hruns
  obtain rfl := Option.some.inj (hM.symm.trans hM')
  have hlast' : (es'.map Prod.snd)[k]? = some t.arr := by
    rw [hsame, List.getElem?_map, hlast]
    rfl
  rw [List.getElem?_map] at hlast'
  obtain ⟨e, he, hea⟩ := Option.map_eq_some_iff.mp hlast'
  obtain ⟨hcell, hN⟩ := o'.holds e (List.mem_of_getElem? he)
  have hall : t.arr.Perm (es.flatMap Prod.snd) := by
    rw [List.flatMap_def, ← htasks, ← List.flatMap_def]
    exact hperm
  have hslots : ∀ s ∈ es'.map Prod.fst, h'.cells s.arr ≠ none := by
    intro s hs
    obtain ⟨f, hf, rfl⟩ := List.mem_map.mp hs
    simp [(o'.holds f hf).1]
  have hdistinct : ((es'.map Prod.fst).map ArraySlot.arr).Nodup := by
    have hd := o'.distinct
    rw [List.map_map]
    exact hd
  refine ⟨es'.map Prod.fst, h', e.1, t.arr, ?_, ?_, ?_, hea ▸ hcell, hea ▸ hN, ?_, hrun.sorted,
    hall, hdistinct, hslots, freeAll_ne_none hdistinct hslots⟩
  · rw [hk, hm]
  · rw [List.length_map, hlen]
  · rw [hk, Nat.add_sub_cancel, List.getElem?_map, he]
    rfl
  · rw [hall.length_eq, total, List.length_flatMap]

/-- Three arrays, one of them empty. -/
theorem merge_sorted_owned_three :
    ∃ (h : Arrays) (slots : List ArraySlot) (h' : Arrays),
      h.merge 3 [⟨0, 2⟩, ⟨1, 0⟩, ⟨2, 1⟩] = some (slots, h') ∧ (slots.map ArraySlot.arr).Nodup ∧
        h'.freeAll slots ≠ none := by
  let cells (p : Addr) : Option (List Int) := [[1, 3], [], [2]][p]?
  have o : Owned ⟨cells, 3⟩ [(⟨0, 2⟩, [1, 3]), (⟨1, 0⟩, []), (⟨2, 1⟩, [2])] := by
    refine ⟨by simp [cells], by decide, ?_⟩
    intro p hp
    by_contra hge
    exact hp (List.getElem?_eq_none (Nat.le_of_not_lt hge))
  obtain ⟨slots, h', -, -, hm, -, -, -, -, -, -, -, hd, -, hf⟩ :=
    merge_sorted_owned o (by simp) (by simp) (by decide)
  exact ⟨_, slots, h', hm, hd, hf⟩

end ownership

end Arrays

end Sysprog.Sort
