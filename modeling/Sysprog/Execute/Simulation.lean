import Sysprog.Execute.Command
import Sysprog.Storage.Refinement

namespace Sysprog.Execute

variable {σ τ : Type}

/-- Same answer, related states. -/
def Alike {β : Type} (R : σ → τ → Prop) (x : β × σ) (y : β × τ) : Prop := x.1 = y.1 ∧ R x.2 y.2

theorem Alike.cases {β : Type} {R : σ → τ → Prop} {x : β × σ} {y : β × τ} (h : Alike R x y) :
    ∃ b s t, x = (b, s) ∧ y = (b, t) ∧ R s t :=
  ⟨x.1, x.2, y.2, rfl, Prod.ext h.1.symm rfl, h.2⟩

/-- No caller can tell the two storages apart, as long as their states are related by `R`. -/
structure Simulates (S : Storage σ) (T : Storage τ) (R : σ → τ → Prop) : Prop where
  put : ∀ k v {s t}, R s t → Alike R (S.put k v s) (T.put k v t)
  putIfAbsent : ∀ k v {s t}, R s t → Alike R (S.putIfAbsent k v s) (T.putIfAbsent k v t)
  set : ∀ k v {s t}, R s t → Alike R (S.set k v s) (T.set k v t)
  delete : ∀ k {s t}, R s t → Alike R (S.delete k s) (T.delete k t)
  get : ∀ k v {s t}, R s t → Alike R (S.get k v s) (T.get k v t)

/-- The cache without pointers as a storage. As with `simpleLRU`, the state is `none` once a call
has had no result. -/
def cache : Storage (Option Storage.Cache) where
  put k v c := settle false (c.bind fun c => c.put k v)
  putIfAbsent k v c := settle false (c.bind fun c => c.putIfAbsent k v)
  set k v c := settle false (c.bind fun c => c.set k v)
  delete k c := settle false (c.bind fun c => c.delete k)
  get k v c := settle (false, v) (c.bind fun c => c.get k v)
where
  settle {β : Type} (b : β) : Option (β × Storage.Cache) → β × Option Storage.Cache
    | none => (b, none)
    | some (b, c) => (b, some c)

theorem settle_alike {β : Type} (b : β) {x : Option (β × Storage.SimpleLRU)}
    {y : Option (β × Storage.Cache)} (h : Option.Rel Storage.Agree x y) :
    Alike (Option.Rel Storage.Refines) (simpleLRU.settle b x) (cache.settle b y) := by
  cases h with
  | none => exact ⟨rfl, .none⟩
  | some h => exact ⟨h.1, .some h.2⟩

/-- The pointers can be forgotten: also when a call runs into a null or dangling one. -/
theorem simpleLRU_simulates : Simulates simpleLRU cache (Option.Rel Storage.Refines) where
  put k v _ _ h := by
    apply settle_alike
    exact rel_bind h fun _ _ hr => Storage.put_refines hr
  putIfAbsent k v _ _ h := by
    apply settle_alike
    exact rel_bind h fun _ _ hr => Storage.putIfAbsent_refines hr
  set k v _ _ h := by
    apply settle_alike
    exact rel_bind h fun _ _ hr => Storage.set_refines hr
  delete k _ _ h := by
    apply settle_alike
    exact rel_bind h fun _ _ hr => Storage.delete_refines hr
  get k v _ _ h := by
    apply settle_alike
    exact rel_bind h fun _ _ hr => Storage.get_refines hr

section Commands

variable {S : Storage σ} {T : Storage τ} {R : σ → τ → Prop} {s : σ} {t : τ}

theorem Simulates.getLoop (h : Simulates S T R) (keys : List Bytes) (value : Bytes) (hR : R s t) :
    Alike R (Execute.getLoop S keys value s) (Execute.getLoop T keys value t) := by
  induction keys generalizing value s t with
  | nil => exact ⟨rfl, hR⟩
  | cons key keys ih =>
    obtain ⟨⟨b, w⟩, s', t', hs, ht, hR'⟩ := (h.get key value hR).cases
    have hrest := ih w hR'
    simp only [Execute.getLoop, hs, ht]
    cases b with
    | false => exact hrest
    | true => exact ⟨congrArg (item key w ++ ·) hrest.1, hrest.2⟩

/-- A command gives the same output over both storages. -/
theorem Simulates.execute (h : Simulates S T R) (args : Bytes) (hR : R s t) (cmd : Command) :
    Alike R (cmd.execute S args s) (cmd.execute T args t) := by
  cases cmd with
  | set c => exact ⟨rfl, (h.put c.key args hR).2⟩
  | add c =>
    have hput := h.putIfAbsent c.key args hR
    refine ⟨?_, hput.2⟩
    simp only [Command.execute, hput.1]
  | append c =>
    obtain ⟨⟨b, w⟩, s', t', hs, ht, hR'⟩ := (h.get c.key [] hR).cases
    simp only [Command.execute, hs, ht]
    cases b with
    | false => exact ⟨rfl, hR'⟩
    | true => exact ⟨rfl, (h.put c.key (w ++ args) hR').2⟩
  | replace c =>
    obtain ⟨⟨b, w⟩, s', t', hs, ht, hR'⟩ := (h.get c.key [] hR).cases
    simp only [Command.execute, hs, ht]
    cases b with
    | false => exact ⟨rfl, hR'⟩
    | true => exact ⟨rfl, (h.set c.key args hR').2⟩
  | get keys =>
    have hloop := h.getLoop keys [] hR
    refine ⟨?_, hloop.2⟩
    simp only [Command.execute, hloop.1]
  | stats => exact ⟨rfl, hR⟩

end Commands

end Sysprog.Execute
