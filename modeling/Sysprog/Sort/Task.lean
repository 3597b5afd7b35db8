import Sysprog.Lib.RoundRobin

namespace Sysprog.Sort

/-- `calloc(n, sizeof(int))`. -/
def calloc (n : Int) : List Int := List.replicate n.toNat 0

/-- `a[i]`, with no result outside the allocation. -/
def read (a : List Int) (i : Int) : Option Int :=
  if 0 ≤ i then a[i.toNat]? else none

/-- `a[i] = v`. -/
def write (a : List Int) (i v : Int) : Option (List Int) :=
  if 0 ≤ i ∧ i < a.length then some (a.set i.toNat v) else none

@[simp]
theorem read_natCast (a : List Int) (n : Nat) : read a n = a[n]? := by
  simp [read]

theorem write_natCast {a : List Int} {n : Nat} (h : n < a.length) (v : Int) :
    write a n v = some (a.set n v) := by
  simp [write, h]

/-- Writes that fill an allocation from its start. -/
theorem write_append (pre free : List Int) (f v : Int) :
    write (pre ++ f :: free) pre.length v = some (pre ++ [v] ++ free) := by
  rw [write_natCast (by simp)]
  simp

/-- The points of `q_sort_coro` at which a task is suspended, named after what it does next. -/
inductive Point where
  /-- In `main`, before `q_sort_coro` is called. -/
  | entry
  /-- At `while (top >= 0)`. -/
  | loop
  | popH
  | popL
  | setX
  | setI
  | setJ
  /-- At `while (j <= h - 1)`. -/
  | scan
  /-- At `if (arr[j] <= x)`. -/
  | compare
  | incI
  | setT
  | writeI
  | writeJ
  | incJ
  | writeP
  | writeH
  | setP
  /-- At `if (p - 1 > l)`. -/
  | left
  | leftTop
  | leftL
  | leftTop'
  | leftH
  /-- At `if (p + 1 < h)`. -/
  | right
  | rightTop
  | rightL
  | rightTop'
  | rightH
  /-- In the loop that waits for `is_finished` of all tasks. -/
  | wait
  deriving DecidableEq

structure Task where
  /-- The execution position that `env` holds. -/
  env : Point
  isFinished : Bool
  arr : List Int
  stack : List Int
  top : Int
  l : Int
  h : Int
  x : Int
  i : Int
  j : Int
  p : Int
  t : Int
  N : Int

namespace Task

/-- From `while (top >= 0)` to the next switch. -/
def loop (t : Task) : Task :=
  if t.top ≥ 0 then { t with env := .popH }
  else { t with isFinished := true, env := .wait }

/-- From `if (p + 1 < h)` to the next switch. -/
def right (t : Task) : Task :=
  if t.p + 1 < t.h then { t with env := .rightTop } else t.loop

/-- From `if (p - 1 > l)` to the next switch. -/
def left (t : Task) : Task :=
  if t.p - 1 > t.l then { t with env := .leftTop } else t.right

/-- `q_sort_coro` from one `check_resched` to the next; no result where `arr` or `stack` is
accessed outside its allocation. -/
def step (t : Task) : Option Task :=
  match t.env with
  | .entry => some { t with env := .loop }
  | .loop => some t.loop
  | .popH => do
    let h ← read t.stack t.top
    some { t with h := h, top := t.top - 1, env := .popL }
  | .popL => do
    let l ← read t.stack t.top
    some { t with l := l, top := t.top - 1, env := .setX }
  | .setX => do
    let x ← read t.arr t.h
    some { t with x := x, env := .setI }
  | .setI => some { t with i := t.l - 1, env := .setJ }
  | .setJ => some { t with j := t.l, env := .scan }
  | .scan =>
    if t.j ≤ t.h - 1 then some { t with env := .compare }
    else do
      let v ← read t.arr (t.i + 1)
      some { t with t := v, env := .writeP }
  | .compare => do
    let v ← read t.arr t.j
    if v ≤ t.x then some { t with env := .incI } else some { t with j := t.j + 1, env := .scan }
  | .incI => some { t with i := t.i + 1, env := .setT }
  | .setT => do
    let v ← read t.arr t.i
    some { t with t := v, env := .writeI }
  | .writeI => do
    let v ← read t.arr t.j
    let arr ← write t.arr t.i v
    some { t with arr := arr, env := .writeJ }
  | .writeJ => do
    let arr ← write t.arr t.j t.t
    some { t with arr := arr, env := .incJ }
  | .incJ => some { t with j := t.j + 1, env := .scan }
  | .writeP => do
    let v ← read t.arr t.h
    let arr ← write t.arr (t.i + 1) v
    some { t with arr := arr, env := .writeH }
  | .writeH => do
    let arr ← write t.arr t.h t.t
    some { t with arr := arr, env := .setP }
  | .setP => some { t with p := t.i + 1, env := .left }
  | .left => some t.left
  | .leftTop => some { t with top := t.top + 1, env := .leftL }
  | .leftL => do
    let stack ← write t.stack t.top t.l
    some { t with stack := stack, env := .leftTop' }
  | .leftTop' => some { t with top := t.top + 1, env := .leftH }
  | .leftH => do
    let stack ← write t.stack t.top (t.p - 1)
    some { t with stack := stack, env := .right }
  | .right => some t.right
  | .rightTop => some { t with top := t.top + 1, env := .rightL }
  | .rightL => do
    let stack ← write t.stack t.top (t.p + 1)
    some { t with stack := stack, env := .rightTop' }
  | .rightTop' => some { t with top := t.top + 1, env := .rightH }
  | .rightH => do
    let stack ← write t.stack t.top t.h
    some { t with stack := stack, env := .loop }
  | .wait => some t

/-- The tasks take turns at every `check_resched`. -/
def routine : Routine Task where
  step := step
  waits := fun t => t.env = .wait
  done := isFinished

end Task

end Sysprog.Sort
