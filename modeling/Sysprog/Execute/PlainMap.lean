import Sysprog.Execute.Simulation
import Sysprog.Storage.Recency

namespace Sysprog.Execute

open Storage.Cache

/-- A storage that holds every pair `admits` lets in. -/
def plainMap (admits : Bytes → Bytes → Bool) : Storage (PlainMap Bytes Bytes) where
  put k v m := done (PlainMap.call admits (.put k v) m)
  putIfAbsent k v m := done (PlainMap.call admits (.putIfAbsent k v) m)
  set k v m := done (PlainMap.call admits (.set k v) m)
  delete k m := done (PlainMap.call admits (.delete k) m)
  get k v m :=
    match PlainMap.call admits (.get k v) m with
    | (.got b w, m) => ((b, w), m)
    | (.done b, m) => ((b, v), m)
where
  done : Reply Bytes × PlainMap Bytes Bytes → Bool × PlainMap Bytes Bytes
    | (r, m) => (r.ok, m)

section

variable {maxSize : Nat} {c : Storage.Cache} {m : PlainMap Bytes Bytes}

/-- The cache holds what the map holds, and answers `x` where the map answers `y`. -/
def Held {β : Type} (maxSize : Nat) (x : β × Option Storage.Cache)
    (y : β × PlainMap Bytes Bytes) : Prop :=
  ∃ c, x = (y.1, some c) ∧ HoldsMap maxSize c y.2

private theorem held_of_call {x : Option (Bool × Storage.Cache)} {c' : Storage.Cache}
    {r : Reply Bytes} (h : x.map (fun (b, c) => (Reply.done b, c)) = some (r, c')) :
    cache.settle false x = (r.ok, some c') := by
  obtain ⟨⟨b, d⟩, rfl, he⟩ := Option.map_eq_some_iff.mp h
  obtain ⟨rfl, rfl⟩ := Prod.mk.inj he
  rfl

theorem held_put (h : HoldsMap maxSize c m) (k v : Bytes)
    (hfit : Storage.total ((plainMap (admits maxSize)).put k v m).2.entries ≤ maxSize) :
    Held maxSize (cache.put k v (some c)) ((plainMap (admits maxSize)).put k v m) := by
  obtain ⟨c', hc, h'⟩ := h.call (.put k v) (by simp) hfit
  exact ⟨c', held_of_call hc, h'⟩

theorem held_putIfAbsent (h : HoldsMap maxSize c m) (k v : Bytes)
    (hfit : Storage.total ((plainMap (admits maxSize)).putIfAbsent k v m).2.entries ≤ maxSize) :
    Held maxSize (cache.putIfAbsent k v (some c)) ((plainMap (admits maxSize)).putIfAbsent k v m) := by
  obtain ⟨c', hc, h'⟩ := h.call (.putIfAbsent k v) (by simp) hfit
  exact ⟨c', held_of_call hc, h'⟩

theorem held_set (h : HoldsMap maxSize c m) (k v : Bytes)
    (hfit : Storage.total ((plainMap (admits maxSize)).set k v m).2.entries ≤ maxSize) :
    Held maxSize (cache.set k v (some c)) ((plainMap (admits maxSize)).set k v m) := by
  obtain ⟨c', hc, h'⟩ := h.call (.set k v) (by simp) hfit
  exact ⟨c', held_of_call hc, h'⟩

theorem plainMap_get_entries (p : Bytes → Bytes → Bool) (k v : Bytes) (m : PlainMap Bytes Bytes) :
    ((plainMap p).get k v m).2.entries = m.entries := by
  simp only [plainMap, PlainMap.call]
  cases valueOf k m.entries <;> rfl

/-- A `Get` evicts nothing, so there is nothing to ask for. -/
theorem held_get (h : HoldsMap maxSize c m) (k v : Bytes) :
    Held maxSize (cache.get k v (some c)) ((plainMap (admits maxSize)).get k v m) := by
  have hent := plainMap_get_entries (admits maxSize) k v m
  have hcall : (PlainMap.call (admits maxSize) (.get k v) m) =
      (.got ((plainMap (admits maxSize)).get k v m).1.1 ((plainMap (admits maxSize)).get k v m).1.2,
        ((plainMap (admits maxSize)).get k v m).2) := by
    simp only [plainMap, PlainMap.call]
    cases valueOf k m.entries <;> rfl
  obtain ⟨c', hc, h'⟩ := h.call (.get k v) (by simp) (by
    rw [hcall, hent, ← Storage.total_perm h.perm, ← h.max_eq]
    exact h.exact.fits)
  rw [hcall] at hc h'
  obtain ⟨⟨⟨b, w⟩, d⟩, hd, he⟩ := Option.map_eq_some_iff.mp hc
  obtain ⟨hr, rfl⟩ := Prod.mk.inj he
  obtain ⟨rfl, rfl⟩ := Reply.got.inj hr
  refine ⟨d, ?_, h'⟩
  change cache.settle (false, v) (c.get k v) = _
  rw [hd]
  rfl

theorem held_getLoop (h : HoldsMap maxSize c m) (keys : List Bytes) (value : Bytes) :
    Held maxSize (getLoop cache keys value (some c)) (getLoop (plainMap (admits maxSize)) keys value m) ∧
    (getLoop (plainMap (admits maxSize)) keys value m).2.entries = m.entries := by
  induction keys generalizing value c m with
  | nil => exact ⟨⟨c, rfl, h⟩, rfl⟩
  | cons key keys ih =>
    obtain ⟨c', hc, h'⟩ := held_get h key value
    have hent := plainMap_get_entries (admits maxSize) key value m
    simp only [getLoop, hc]
    generalize (plainMap (admits maxSize)).get key value m = y at h' hent ⊢
    obtain ⟨⟨b, w⟩, m'⟩ := y
    obtain ⟨⟨c'', hloop, h''⟩, hent'⟩ := ih h' w
    cases b with
    | false => exact ⟨⟨c'', hloop, h''⟩, hent'.trans hent⟩
    | true =>
      refine ⟨⟨c'', ?_, h''⟩, hent'.trans hent⟩
      simp only [hloop]

/-- A command over the cache and over the map, as long as what the map holds afterwards fits. -/
theorem held_execute (h : HoldsMap maxSize c m) (args : Bytes) (cmd : Command)
    (hfit : Storage.total (cmd.execute (plainMap (admits maxSize)) args m).2.entries ≤ maxSize) :
    Held maxSize (cmd.execute cache args (some c))
      (cmd.execute (plainMap (admits maxSize)) args m) := by
  cases cmd with
  | set f =>
    obtain ⟨c', hc, h'⟩ := held_put h f.key args hfit
    exact ⟨c', by simp only [Command.execute, hc], h'⟩
  | add f =>
    obtain ⟨c', hc, h'⟩ := held_putIfAbsent h f.key args hfit
    exact ⟨c', by simp only [Command.execute, hc], h'⟩
  | append f =>
    obtain ⟨c', hc, h'⟩ := held_get h f.key []
    simp only [Command.execute] at hfit ⊢
    rw [hc]
    generalize (plainMap (admits maxSize)).get f.key [] m = y at h' hfit ⊢
    obtain ⟨⟨b, w⟩, m'⟩ := y
    cases b with
    | false => exact ⟨c', rfl, h'⟩
    | true =>
      obtain ⟨c'', hc', h''⟩ := held_put h' f.key (w ++ args) hfit
      exact ⟨c'', by simp only [hc'], h''⟩
  | replace f =>
    obtain ⟨c', hc, h'⟩ := held_get h f.key []
    simp only [Command.execute] at hfit ⊢
    rw [hc]
    generalize (plainMap (admits maxSize)).get f.key [] m = y at h' hfit ⊢
    obtain ⟨⟨b, w⟩, m'⟩ := y
    cases b with
    | false => exact ⟨c', rfl, h'⟩
    | true =>
      obtain ⟨c'', hc', h''⟩ := held_set h' f.key args hfit
      exact ⟨c'', by simp only [hc'], h''⟩
  | get keys =>
    obtain ⟨⟨c', hc, h'⟩, -⟩ := held_getLoop h keys []
    exact ⟨c', by simp only [Command.execute, hc], h'⟩
  | stats => exact ⟨c, rfl, h⟩

end

end Sysprog.Execute
