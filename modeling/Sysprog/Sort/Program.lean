import Sysprog.Sort.Merge

namespace Sysprog.Sort

/-- The content of an input file: a count and as many numbers. -/
structure File where
  N : Nat
  numbers : List Int
  counted : numbers.length = N

/-- The reading loop of `main`, at position `j` of `arr` and `stack`. -/
def readNumbers : List Int → Int → List Int → List Int → Option (List Int × List Int)
  | [], _, arr, stack => some (arr, stack)
  | num :: numbers, j, arr, stack => do
    let arr ← write arr j num
    let stack ← write stack j 0
    readNumbers numbers (j + 1) arr stack

/-- What `main` makes of one file. -/
def File.task (file : File) : Option Task := do
  let (arr, stack) ← readNumbers file.numbers 0 (calloc file.N) (calloc file.N)
  let top := -1
  let top := top + 1
  let stack ← write stack top 0
  let top := top + 1
  let stack ← write stack top (file.N - 1)
  some
    { env := .entry, isFinished := false, arr := arr, stack := stack, top := top, l := 0,
      h := file.N - 1, x := 0, i := 0, j := 0, p := 0, t := 0, N := file.N }

/-- The first loop of `main`: `N_all` and `tasks`. -/
def readFiles : List File → Option (Nat × List Task)
  | [] => some (0, [])
  | file :: files => do
    let task ← file.task
    let (all, tasks) ← readFiles files
    some (file.N + all, task :: tasks)

/-- The printing loop of `main`, with `n` numbers left from position `i` on. -/
def print (arr : List Int) : Nat → Int → String → Option String
  | 0, _, out => some out
  | n + 1, i, out => do
    let v ← read arr i
    print arr n (i + 1) (out ++ toString v ++ " ")

inductive Outcome where
  /-- `_exit(1)` without an argument. -/
  | usage
  /-- `arr`, `stack` or `tmp` was accessed outside its allocation. -/
  | fault
  /-- The fuel was not enough. -/
  | running
  /-- The content of `out.txt`. -/
  | written (out : String)
  deriving DecidableEq

/-- `merge` and the printing loop. -/
def finish (all : Nat) (tasks : List Task) : Option String := do
  let arrs ← merge tasks.length tasks
  let last ← arrs[tasks.length - 1]?
  print last.arr all 0 ""

/-- `main`, with at most `fuel` switches between the tasks. -/
def main (fuel : Nat) (files : List File) : Outcome :=
  if files = [] then .usage
  else
    match readFiles files with
    | none => .fault
    | some (all, tasks) =>
      match Task.routine.run fuel ⟨tasks, 0⟩ with
      | .fault => .fault
      | .running _ => .running
      | .returned tasks =>
        match finish all tasks with
        | none => .fault
        | some out => .written out

theorem readNumbers_eq (numbers pre free : List Int) {n : Nat}
    (hf : free.length = numbers.length) (hn : pre.length + numbers.length ≤ n) :
    readNumbers numbers pre.length (pre ++ free) (List.replicate n 0) =
      some (pre ++ numbers, List.replicate n 0) := by
  induction numbers generalizing pre free with
  | nil =>
    obtain rfl : free = [] := List.length_eq_zero_iff.mp hf
    rfl
  | cons num numbers ih =>
    obtain ⟨f, free, rfl⟩ : ∃ f fs, free = f :: fs :=
      List.exists_cons_of_ne_nil (List.ne_nil_of_length_pos (by simp [hf]))
    rw [List.length_cons] at hn
    have hs : write (List.replicate n 0) pre.length 0 = some (List.replicate n 0) := by
      rw [write_natCast (by simp; omega), List.set_replicate_self]
    have hr := ih (pre ++ [num]) free (by simpa using hf) (by simp; omega)
    have he : pre ++ num :: numbers = pre ++ [num] ++ numbers := by simp
    rw [he, ← hr, List.length_append]
    simp only [readNumbers, write_append, hs, Option.bind_eq_bind, Option.bind_some]
    rfl

section file

variable {file : File}

theorem File.readNumbers_eq (file : File) :
    readNumbers file.numbers 0 (calloc file.N) (calloc file.N) =
      some (file.numbers, List.replicate file.N 0) := by
  have hl := file.counted
  exact Sort.readNumbers_eq file.numbers [] (List.replicate file.N 0) (by simp [hl]) (by simp [hl])

/-- The stack of a file with fewer than two numbers has no room for its first span. -/
theorem File.task_eq_none (h : file.N < 2) : file.task = none := by
  simp only [File.task, file.readNumbers_eq, Option.bind_eq_bind, Option.bind_some]
  obtain h0 | h1 : file.N = 0 ∨ file.N = 1 := by omega
  · simp [h0, write]
  · simp [h1, write]

/-- The first span on the stack of a file with two numbers or more. -/
theorem File.writes_span (file : File) {n : Nat} (hn : file.N = n + 2) :
    write (List.replicate file.N 0) (-1 + 1) 0 = some (0 :: 0 :: List.replicate n 0) ∧
      write (0 :: 0 :: List.replicate n 0) (-1 + 1 + 1) (file.N - 1) =
        some (0 :: (file.N - 1 : Int) :: List.replicate n 0) := by
  have hs : List.replicate file.N (0 : Int) = 0 :: 0 :: List.replicate n 0 := by rw [hn]; rfl
  rw [hs]
  exact ⟨write_append [] _ 0 0, write_append [0] _ 0 _⟩

theorem File.task_sorting (h : 2 ≤ file.N) :
    ∃ t spans, file.task = some t ∧ t.env = .entry ∧ Task.Sorting file.numbers spans t := by
  have hl := file.counted
  obtain ⟨n, hn⟩ : ∃ n, file.N = n + 2 := ⟨file.N - 2, by omega⟩
  obtain ⟨h1, h2⟩ := file.writes_span hn
  refine ⟨_, [⟨0, file.numbers.length - 1, by omega⟩], by
    simp only [File.task, file.readNumbers_eq, h1, h2, Option.bind_eq_bind, Option.bind_some]
    rfl, rfl, ?_⟩
  exact
    { isFinished := rfl
      stacked := ⟨rfl, List.replicate n 0, by simp [encode]; omega⟩
      stack := by simp [hl, hn]
      N := by simp [hl]
      perm := .refl _
      pending := Pending.whole (by omega) }

end file

theorem readFiles_eq_none {files : List File} {file : File} (hf : file ∈ files)
    (h : file.N < 2) : readFiles files = none := by
  induction files with
  | nil => cases hf
  | cons f files ih =>
    rcases List.mem_cons.mp hf with rfl | hf
    · simp [readFiles, File.task_eq_none h]
    · simp [readFiles, ih hf]

/-- Every file has its task, which alone comes to rest with the numbers of the file sorted. -/
theorem readFiles_eq_some {files : List File} (h : ∀ file ∈ files, 2 ≤ file.N) :
    ∃ tasks fs, readFiles files = some ((files.map File.N).sum, tasks) ∧
      List.Forall₂ (fun t f => ∃ n, Task.routine.Lands n t f) tasks fs ∧
      List.Forall₂ (fun file f => Task.Sorted file.numbers f) files fs := by
  induction files with
  | nil => exact ⟨[], [], rfl, .nil, .nil⟩
  | cons file files ih =>
    obtain ⟨t, spans, ht, he, hs⟩ := File.task_sorting (h file (by simp))
    obtain ⟨f, n, hl, hf⟩ := hs.lands he
    obtain ⟨tasks, fs, hr, hls, hfs⟩ := ih fun g hg => h g (by simp [hg])
    exact ⟨t :: tasks, f :: fs, by simp [readFiles, ht, hr], .cons ⟨n, hl⟩ hls, .cons hf hfs⟩

/-- Numbers as `out.txt` has them. -/
def text (numbers : List Int) (out : String) : String :=
  numbers.foldl (fun out v => out ++ toString v ++ " ") out

theorem print_eq (numbers pre : List Int) (out : String) :
    print (pre ++ numbers) numbers.length pre.length out = some (text numbers out) := by
  induction numbers generalizing pre out with
  | nil => rfl
  | cons v numbers ih =>
    have hv : (pre ++ v :: numbers)[pre.length]? = some v := by simp
    have hr := ih (pre ++ [v]) (out ++ toString v ++ " ")
    rw [List.append_assoc, List.length_append] at hr
    simp only [List.length_cons, print, read_natCast, hv, Option.bind_eq_bind, Option.bind_some]
    exact hr

theorem finish_eq {tasks : List Task} {all : Nat} (hne : tasks ≠ []) (hr : ∀ t ∈ tasks, Run t)
    (hall : (tasks.flatMap Task.arr).length = all) :
    ∃ numbers, finish all tasks = some (text numbers "") ∧ numbers.Pairwise (· ≤ ·) ∧
      numbers.Perm (tasks.flatMap Task.arr) := by
  obtain ⟨k, hk⟩ : ∃ k, tasks.length = k + 1 :=
    ⟨tasks.length - 1, by have := List.length_pos_of_ne_nil hne; omega⟩
  obtain ⟨arrs, last, hm, hlast, hrun, hp⟩ := merge_spec hk hr
  have hall' : last.arr.length = all := hp.length_eq.trans hall
  have hpr : print last.arr all 0 "" = some (text last.arr "") := hall' ▸ print_eq last.arr [] ""
  refine ⟨last.arr, ?_, hrun.sorted, hp⟩
  simp only [finish, hk, hm, Nat.add_sub_cancel, hlast, hpr, Option.bind_eq_bind, Option.bind_some]

/-- No access is outside its allocation, and the program ends with the numbers of all files sorted
in `out.txt`. -/
def Sorts (files : List File) : Prop :=
  (∀ fuel, main fuel files ≠ .fault) ∧
    ∃ fuel numbers, main fuel files = .written (text numbers "") ∧ numbers.Pairwise (· ≤ ·) ∧
      numbers.Perm (files.flatMap File.numbers)

theorem sorted_runs {files : List File} {fs : List Task}
    (h : List.Forall₂ (fun file f => Task.Sorted file.numbers f) files fs) :
    (∀ f ∈ fs, Run f) ∧ (fs.flatMap Task.arr).Perm (files.flatMap File.numbers) := by
  induction h with
  | nil => simp
  | cons hf _ ih =>
    refine ⟨?_, ?_⟩
    · intro t ht
      rcases List.mem_cons.mp ht with rfl | ht
      · exact ⟨hf.N, hf.sorted⟩
      · exact ih.1 t ht
    · simpa using hf.perm.append ih.2

theorem length_numbers (files : List File) :
    (files.flatMap File.numbers).length = (files.map File.N).sum := by
  induction files with
  | nil => rfl
  | cons file files ih => simp [ih, file.counted]

theorem sorts_of_two_le {files : List File} (hne : files ≠ [])
    (h : ∀ file ∈ files, 2 ≤ file.N) : Sorts files := by
  obtain ⟨tasks, fs, hr, hl, hs⟩ := readFiles_eq_some h
  have hlen : files.length = tasks.length := hs.length_eq.trans hl.length_eq.symm
  have htn : tasks ≠ [] := by
    intro he
    simp [he, hne] at hlen
  have hfn : fs ≠ [] := by
    intro he
    simp [he, htn] at hl
  obtain ⟨k, hk⟩ := Routine.exists_returned htn hl
  obtain ⟨hruns, hperm⟩ := sorted_runs hs
  obtain ⟨numbers, hf, hsorted, hp⟩ :=
    finish_eq hfn hruns (hperm.length_eq.trans (length_numbers files))
  refine ⟨?_, k, numbers, ?_, hsorted, hp.trans hperm⟩
  · intro fuel
    have hu := Task.routine.run_unique (k := k) (n := fuel) (p := ⟨tasks, 0⟩) (by simp [hk])
    simp only [main, if_neg hne, hr]
    cases hf' : Task.routine.run fuel ⟨tasks, 0⟩ with
    | running q => simp
    | fault => simp [hk, hf'] at hu
    | returned states =>
      obtain rfl : fs = states := by simpa [hk, hf'] using hu
      simp [hf]
  · simp only [main, if_neg hne, hr, hk, hf]

/-- The program sorts exactly when every file has at least two numbers. -/
theorem sorts_iff {files : List File} (hne : files ≠ []) :
    Sorts files ↔ ∀ file ∈ files, 2 ≤ file.N := by
  constructor
  · intro hs file hf
    by_contra hlt
    have hn := readFiles_eq_none hf (by omega)
    exact hs.1 0 (by simp only [main, if_neg hne, hn])
  · exact sorts_of_two_le hne

example : main 60 [⟨2, [3, 1], rfl⟩] = .written "1 3 " := by decide

theorem sorts_two_files : Sorts [⟨2, [3, 1], rfl⟩, ⟨3, [2, 2, -1], rfl⟩] :=
  (sorts_iff (by simp)).mpr (by simp)

/-- A file with one number: `h` is pushed behind the end of the stack. -/
theorem one_number_not_sorted : ¬Sorts [⟨1, [5], rfl⟩] := by
  intro hs
  exact hs.1 0 (by decide)

end Sysprog.Sort
