import Sysprog.Sort.Program

namespace Sysprog.Sort

namespace Task

/-- The indices of `arr` that a task uses before its next switch. -/
def arrIndices (t : Task) : List Int :=
  match t.env with
  | .setX | .writeH => [t.h]
  | .scan => if t.j ≤ t.h - 1 then [] else [t.i + 1]
  | .compare | .writeJ => [t.j]
  | .setT => [t.i]
  | .writeI => [t.j, t.i]
  | .writeP => [t.h, t.i + 1]
  | _ => []

/-- The indices of `stack` that a task uses before its next switch. -/
def stackIndices (t : Task) : List Int :=
  match t.env with
  | .popH | .popL | .leftL | .leftH | .rightL | .rightH => [t.top]
  | _ => []

/-- The points between `++top` and the store at `top`. -/
def pushing : List Point := [.leftL, .leftH, .rightL, .rightH]

/-- Both buffers have `n` entries, and `top` is the index of one of them or negative; between
`++top` and the store this is what the store needs. -/
structure Bounded (n : Nat) (t : Task) : Prop where
  arr : t.arr.length = n
  stack : t.stack.length = n
  top : t.env ∉ pushing → t.top < n

section step

variable {t t' : Task} {n : Nat} {a b : List Int} {i v : Int}

theorem read_bounds (h : read a i = some v) : 0 ≤ i ∧ i < a.length := by
  unfold read at h
  split_ifs at h with hi
  have hlt := (List.getElem?_eq_some_iff.mp h).1
  omega

theorem write_bounds (h : write a i v = some b) : (0 ≤ i ∧ i < a.length) ∧ b.length = a.length := by
  unfold write at h
  split_ifs at h with hi
  obtain rfl := Option.some.inj h
  exact ⟨hi, List.length_set⟩

/-- A task that is not stuck uses indices within its buffers. -/
theorem step_indices (hs : t.step = some t') :
    (∀ i ∈ t.arrIndices, 0 ≤ i ∧ i < t.arr.length) ∧
      (∀ i ∈ t.stackIndices, 0 ≤ i ∧ i < t.stack.length) := by
  cases he : t.env <;>
    simp only [step, he, Option.bind_eq_bind, Option.bind_eq_some_iff] at hs <;>
    simp only [arrIndices, stackIndices, he]
  all_goals grind [→ read_bounds, → write_bounds, Option.bind_eq_some_iff]

theorem loop_bounded (h : t.top < n) (ha : t.arr.length = n) (hb : t.stack.length = n) :
    Bounded n t.loop := by
  unfold loop
  split_ifs <;> exact ⟨ha, hb, fun _ => h⟩

theorem right_bounded (h : t.top < n) (ha : t.arr.length = n) (hb : t.stack.length = n) :
    Bounded n t.right := by
  unfold right
  split_ifs
  · exact ⟨ha, hb, fun _ => h⟩
  · exact loop_bounded h ha hb

theorem left_bounded (h : t.top < n) (ha : t.arr.length = n) (hb : t.stack.length = n) :
    Bounded n t.left := by
  unfold left
  split_ifs
  · exact ⟨ha, hb, fun _ => h⟩
  · exact right_bounded h ha hb

theorem Bounded.step (h : Bounded n t) (hs : t.step = some t') : Bounded n t' := by
  have hidx := (step_indices hs).2
  have htop := h.top
  have harr := h.arr
  have hstack := h.stack
  cases he : t.env <;>
    simp only [Task.step, he, Option.bind_eq_bind, Option.bind_eq_some_iff] at hs <;>
    simp only [stackIndices, he, pushing] at hidx htop
  case loop => exact Option.some.inj hs ▸ loop_bounded (by grind) harr hstack
  case left => exact Option.some.inj hs ▸ left_bounded (by grind) harr hstack
  case right => exact Option.some.inj hs ▸ right_bounded (by grind) harr hstack
  all_goals constructor <;> grind [→ write_bounds, pushing, Option.bind_eq_some_iff]

end step

/-- The buffers are large enough for what the task is about to do. -/
structure InBuffers (n : Nat) (t : Task) : Prop where
  arr : t.arr.length = n
  stack : t.stack.length = n
  top : t.top ≤ n - 1
  arrIndex : ∀ i ∈ t.arrIndices, 0 ≤ i ∧ i ≤ n - 1
  stackIndex : ∀ i ∈ t.stackIndices, 0 ≤ i ∧ i ≤ n - 1

theorem Bounded.inBuffers {n : Nat} {t t' : Task} (h : Bounded n t) (hs : t.step = some t') :
    InBuffers n t := by
  obtain ⟨harr, hstack⟩ := step_indices hs
  rw [h.arr] at harr
  rw [h.stack] at hstack
  refine ⟨h.arr, h.stack, ?_, fun i hi => ?_, fun i hi => ?_⟩
  · by_cases hp : t.env ∈ pushing
    · -- the store that comes next needs `top` to be an index
      have htop : t.top ∈ t.stackIndices := by
        simp only [pushing, List.mem_cons, List.not_mem_nil, or_false] at hp
        rcases hp with he | he | he | he <;> simp [stackIndices, he]
      have hlt := (hstack t.top htop).2
      omega
    · have hlt := h.top hp
      omega
  · have hb := harr i hi
    omega
  · have hb := hstack i hi
    omega

end Task

/-- What `main` has put into a task. -/
theorem File.task_init {file : File} {t : Task} (h : 2 ≤ file.N) (ht : file.task = some t) :
    t.arr = file.numbers ∧ t.stack = [0, (file.N - 1 : Int)] ++ List.replicate (file.N - 2) 0 ∧
      t.top = 1 := by
  obtain ⟨n, hn⟩ : ∃ n, file.N = n + 2 := ⟨file.N - 2, by omega⟩
  obtain ⟨h1, h2⟩ := file.writes_span hn
  simp only [File.task, file.readNumbers_eq, h1, h2, Option.bind_eq_bind, Option.bind_some] at ht
  obtain rfl := Option.some.inj ht
  exact ⟨rfl, by simp [hn], rfl⟩

/-- `q_sort_coro` on the task of one file: it ends with the array sorted, and at every point both
buffers of `N` entries are large enough. -/
theorem File.task_sorts {file : File} (h : 2 ≤ file.N) :
    ∃ t, file.task = some t ∧ t.arr = file.numbers ∧
      t.stack = [0, (file.N - 1 : Int)] ++ List.replicate (file.N - 2) 0 ∧ t.top = 1 ∧
      (∃ n f, Task.routine.Lands n t f ∧ f.isFinished = true ∧ f.arr.Perm file.numbers ∧
        f.arr.Pairwise (· ≤ ·)) ∧
      ∀ u, Reaches Task.step t u → u.step ≠ none ∧ Task.InBuffers file.N u := by
  obtain ⟨t, spans, ht, he, hs⟩ := File.task_sorting h
  obtain ⟨f, n, hl, hf⟩ := hs.lands he
  obtain ⟨harr, hstack, htop⟩ := File.task_init h ht
  have hb : Task.Bounded file.N t := by
    refine ⟨?_, ?_, fun _ => ?_⟩
    · rw [harr, file.counted]
    · simp only [hstack, List.length_append, List.length_cons, List.length_nil,
        List.length_replicate]
      omega
    · rw [htop]
      omega
  refine ⟨t, ht, harr, hstack, htop, ⟨n, f, hl, hf.isFinished, hf.perm, hf.sorted⟩, ?_⟩
  intro u hu
  obtain ⟨-, -, hn⟩ := hl.reaches hu
  have hub : Task.Bounded file.N u :=
    hu.invariant (Task.Bounded file.N) (fun _ _ ha hab => ha.step hab) hb
  obtain ⟨u', hs'⟩ := Option.ne_none_iff_exists'.mp hn
  have hs'' : u.step = some u' := hs'
  exact ⟨hn, hub.inBuffers hs''⟩

/-- Five numbers in the worst order for the pivot. -/
theorem File.task_sorts_five :
    ∃ t, (⟨5, [1, 2, 3, 4, 5], rfl⟩ : File).task = some t ∧
      ∀ u, Reaches Task.step t u → u.step ≠ none ∧ Task.InBuffers 5 u := by
  obtain ⟨t, ht, -, -, -, -, hu⟩ :=
    File.task_sorts (show 2 ≤ (⟨5, [1, 2, 3, 4, 5], rfl⟩ : File).N by decide)
  exact ⟨t, ht, hu⟩

end Sysprog.Sort
