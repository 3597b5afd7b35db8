import Sysprog.Execute.Contract
import Sysprog.Execute.PlainMap

namespace Sysprog.Execute

variable {σ : Type}

/-- A storage whose method is chosen by the call. -/
def Storage.call (S : Storage σ) : Call Bytes Bytes → σ → Reply Bytes × σ
  | .put k v, s => (.done (S.put k v s).1, (S.put k v s).2)
  | .putIfAbsent k v, s => (.done (S.putIfAbsent k v s).1, (S.putIfAbsent k v s).2)
  | .set k v, s => (.done (S.set k v s).1, (S.set k v s).2)
  | .delete k, s => (.done (S.delete k s).1, (S.delete k s).2)
  | .get k v, s => (.got (S.get k v s).1.1 (S.get k v s).1.2, (S.get k v s).2)

/-- An `Execute` under way: the calls that it has still to make, each with how it goes on after the
reply. -/
inductive Program where
  | done (out : Bytes)
  | call (a : Call Bytes Bytes) (next : Reply Bytes → Program)

/-- Without anyone in between. -/
def Program.run (S : Storage σ) : Program → σ → Bytes × σ
  | done out, s => (out, s)
  | call a next, s => (next (S.call a s).1).run S (S.call a s).2

/-- The loop of `Get::Execute`, with what is in `out` so far. -/
def getProgram : List Bytes → Bytes → Bytes → Program
  | [], _, out => .done (out ++ text "END")
  | key :: keys, value, out => .call (.get key value) fun
    | .got true value => getProgram keys value (out ++ item key value)
    | .got false value => getProgram keys value out
    | .done _ => getProgram keys value out

/-- `Execute` as the calls that it makes. -/
def Command.program (args : Bytes) : Command → Program
  | .set c => .call (.put c.key args) fun _ => .done stored
  | .add c => .call (.putIfAbsent c.key args) fun r => .done (if r.ok then stored else notStored)
  | .append c => .call (.get c.key []) fun
    | .got true value => .call (.put c.key (value ++ args)) fun _ => .done stored
    | _ => .done notStored
  | .replace c => .call (.get c.key []) fun
    | .got true _ => .call (.set c.key args) fun _ => .done stored
    | _ => .done notStored
  | .get keys => getProgram keys [] []
  | .stats => .done (text "END")

theorem getProgram_run (S : Storage σ) (keys : List Bytes) (value out : Bytes) (s : σ) :
    (getProgram keys value out).run S s =
      (out ++ ((getLoop S keys value s).1 ++ text "END"), (getLoop S keys value s).2) := by
  induction keys generalizing value out s with
  | nil => rfl
  | cons key keys ih =>
    rw [getProgram, Program.run, getLoop]
    generalize hy : S.get key value s = y
    obtain ⟨⟨b, w⟩, s'⟩ := y
    cases b with
    | false =>
      simp only [Storage.call, hy]
      exact ih w out s'
    | true =>
      simp only [Storage.call, hy]
      rw [ih w (out ++ item key w) s', List.append_assoc, List.append_assoc]

/-- These calls, one after another, are the command. -/
theorem Command.program_run (S : Storage σ) (args : Bytes) (cmd : Command) (s : σ) :
    (cmd.program args).run S s = cmd.execute S args s := by
  cases cmd with
  | set c => rfl
  | add c => rfl
  | append c =>
    rw [program, Program.run, execute]
    generalize hy : S.get c.key [] s = y
    obtain ⟨⟨b, w⟩, s'⟩ := y
    simp only [Storage.call, hy]
    cases b with
    | false => rfl
    | true => rfl
  | replace c =>
    rw [program, Program.run, execute]
    generalize hy : S.get c.key [] s = y
    obtain ⟨⟨b, w⟩, s'⟩ := y
    simp only [Storage.call, hy]
    cases b with
    | false => rfl
    | true => rfl
  | get keys =>
    rw [program, getProgram_run, List.nil_append]
    rfl
  | stats => rfl

section Map

variable {maxSize : Nat} {f : Bytes → Option Bytes} {s : Storage.SimpleLRU}

open Sysprog.Storage (Cache SimpleLRU total Refines)
open Storage.Cache (HoldsMap admits)

/-- What the call stores fits into the store beside what is there. -/
def Fits (s : SimpleLRU) : Call Bytes Bytes → Prop
  | .put k v => admits s.maxSize k v = true → total (touch k v s.view.entries) ≤ s.maxSize
  | .putIfAbsent k v => admits s.maxSize k v = true → k ∉ keys s.view.entries →
      total (touch k v s.view.entries) ≤ s.maxSize
  | .set k v => admits s.maxSize k v = true → k ∈ keys s.view.entries →
      total (touch k v s.view.entries) ≤ s.maxSize
  | .delete _ | .get _ _ => True

instance (s : SimpleLRU) : DecidablePred (Fits s)
  | .put _ _ => inferInstanceAs (Decidable (_ → _))
  | .putIfAbsent _ _ => inferInstanceAs (Decidable (_ → _ → _))
  | .set _ _ => inferInstanceAs (Decidable (_ → _ → _))
  | .delete _ | .get _ _ => inferInstanceAs (Decidable True)

/-- The associations of the store. -/
def associations (s : SimpleLRU) (k : Bytes) : Option Bytes := valueOf k s.view.entries

/-- The store, with nothing evicted so far, holds these associations. -/
def Associates (maxSize : Nat) (s : SimpleLRU) (f : Bytes → Option Bytes) : Prop :=
  ∃ c m, Refines s c ∧ HoldsMap maxSize c m ∧ f = fun k => valueOf k m.entries

theorem Associates.eq (h : Associates maxSize s f) : associations s = f := by
  obtain ⟨c, m, refines, holds, rfl⟩ := h
  funext k
  rw [associations, refines.view_eq, holds.valueOf_eq]

theorem valueOf_assign {es : List Storage.Item} (nodup : (keys es).Nodup) (key value k : Bytes) :
    valueOf k (PlainMap.assign key value es) =
      Function.update (fun k => valueOf k es) key (some value) k := by
  have perm : (touch key value es).Perm (PlainMap.assign key value es) :=
    PlainMap.touch_perm_assign nodup (List.Perm.refl es)
  rw [← valueOf_perm (nodup_touch nodup) perm]
  by_cases same : k = key
  · rw [same, valueOf_touch, Function.update_self]
  · rw [Function.update_of_ne same]
    have kept : (es.filter fun e => e.key ≠ key).find? (fun e => e.key = k) =
        es.find? fun e => e.key = k := by
      rw [List.find?_filter]
      congr
      funext e
      by_cases eq : e.key = k
      · simp [eq, same]
      · simp [eq]
    simp only [valueOf, touch, List.find?_append, kept]
    simp [Ne.symm same]

/-- The plain map answers as the associations tell. -/
theorem plainMap_call {m : PlainMap Bytes Bytes} (nodup : (keys m.entries).Nodup)
    (a : Call Bytes Bytes) (ha : ∀ k, a ≠ .delete k) :
    (boundedMap maxSize).call a (fun k => valueOf k m.entries) =
      ((PlainMap.call (admits maxSize) a m).1,
        fun k => valueOf k (PlainMap.call (admits maxSize) a m).2.entries) := by
  have mem : ∀ k, k ∈ keys m.entries ↔ valueOf k m.entries ≠ none := by
    intro k
    rw [ne_eq, valueOf_eq_none, not_not]
  have assign := valueOf_assign nodup
  cases a with
  | put k v =>
    by_cases big : k.length + v.length > maxSize
    · simp [Storage.call, boundedMap, PlainMap.call, admits, big, Nat.not_le.mpr big]
    · simp [Storage.call, boundedMap, PlainMap.call, admits, big, Nat.not_lt.mp big, assign]
  | putIfAbsent k v =>
    by_cases big : k.length + v.length > maxSize
    · simp [Storage.call, boundedMap, PlainMap.call, admits, big, Nat.not_le.mpr big]
    · cases there : valueOf k m.entries with
      | none =>
        simp [Storage.call, boundedMap, PlainMap.call, admits, big, Nat.not_lt.mp big, assign, mem,
          there]
      | some w =>
        simp [Storage.call, boundedMap, PlainMap.call, admits, big, mem, there]
  | set k v =>
    by_cases big : k.length + v.length > maxSize
    · simp [Storage.call, boundedMap, PlainMap.call, admits, big, Nat.not_le.mpr big]
    · cases there : valueOf k m.entries with
      | none => simp [Storage.call, boundedMap, PlainMap.call, admits, mem, there]
      | some w =>
        simp [Storage.call, boundedMap, PlainMap.call, admits, big, Nat.not_lt.mp big, assign, mem,
          there]
  | delete k => exact absurd rfl (ha k)
  | get k v =>
    cases there : valueOf k m.entries with
    | none => simp [Storage.call, boundedMap, PlainMap.call, there]
    | some w => simp [Storage.call, boundedMap, PlainMap.call, there]

theorem Fits.total {c : Cache} {m : PlainMap Bytes Bytes} {a : Call Bytes Bytes} (h : Fits s a)
    (ha : ∀ k, a ≠ .delete k) (refines : Refines s c) (holds : HoldsMap maxSize c m) :
    Storage.total (PlainMap.call (admits maxSize) a m).2.entries ≤ maxSize := by
  have size : s.maxSize = maxSize := by
    rw [← holds.max_eq]
    obtain ⟨xs, -, rfl⟩ := refines
    rfl
  have before : Storage.total m.entries ≤ maxSize := by
    rw [← Storage.total_perm holds.perm, ← holds.max_eq]
    exact holds.exact.fits
  have after : ∀ k v, Storage.total (touch k v c.entries) ≤ maxSize →
      Storage.total (PlainMap.assign k v m.entries) ≤ maxSize := by
    intro k v fits
    rwa [← Storage.total_perm (PlainMap.touch_perm_assign holds.exact.nodup holds.perm)]
  have mem : ∀ k, k ∈ keys c.entries ↔ k ∈ keys m.entries := fun k =>
    (holds.perm.map Entry.key).mem_iff
  cases a with
  | put k v =>
    simp only [Fits, size, refines.view_eq] at h
    rw [PlainMap.call]
    split_ifs with admitted
    · exact after k v (h admitted)
    · exact before
  | putIfAbsent k v =>
    simp only [Fits, size, refines.view_eq, mem] at h
    rw [PlainMap.call]
    split_ifs with admitted
    · exact after k v (h admitted.1 admitted.2)
    · exact before
  | set k v =>
    simp only [Fits, size, refines.view_eq, mem] at h
    rw [PlainMap.call]
    split_ifs with admitted
    · exact after k v (h admitted.1 admitted.2)
    · exact before
  | delete k => exact absurd rfl (ha k)
  | get k v =>
    rw [PlainMap.call]
    cases valueOf k m.entries with
    | none => exact before
    | some w => exact before

/-- A call that fits goes through and does what it does to the associations. -/
theorem Associates.call (h : Associates maxSize s f) {a : Call Bytes Bytes}
    (ha : ∀ k, a ≠ .delete k) (fits : Fits s a) :
    ∃ s', SimpleLRU.call a s = some (((boundedMap maxSize).call a f).1, s') ∧
      Associates maxSize s' ((boundedMap maxSize).call a f).2 := by
  obtain ⟨c, m, refines, holds, rfl⟩ := h
  have nodup : (keys m.entries).Nodup :=
    (holds.perm.map Entry.key).nodup_iff.mp holds.exact.nodup
  obtain ⟨c', hc, holds'⟩ := holds.call a ha (fits.total ha refines holds)
  obtain ⟨s', hs, refines'⟩ := Storage.call_refines_some refines hc
  rw [plainMap_call nodup a ha]
  exact ⟨s', hs, c', _, refines', holds', rfl⟩

theorem associates_create (maxSize : UInt64) :
    Associates maxSize.toNat (.create maxSize) fun _ => none :=
  ⟨⟨maxSize.toNat, 0, []⟩, ⟨[], []⟩, Storage.create_refines maxSize,
    ⟨rfl, ⟨maxSize.toNat_lt, by simp, rfl, by simp⟩, List.Perm.refl _, rfl⟩, rfl⟩

end Map

end Sysprog.Execute
