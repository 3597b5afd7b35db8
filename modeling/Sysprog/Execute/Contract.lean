import Sysprog.Execute.Command

namespace Sysprog.Execute

variable {σ : Type}

/-- What `Storage.h` promises of a storage that holds the associations `value` and, as `SimpleLRU`
does, refuses a pair larger than `maxSize`. A call that succeeds may evict other keys. -/
structure Contract (S : Storage σ) (value : σ → Bytes → Option Bytes) (maxSize : Nat) : Prop where
  put_fits : ∀ k v s, k.length + v.length ≤ maxSize →
    (S.put k v s).1 = true ∧ value (S.put k v s).2 k = some v
  put_oversize : ∀ k v s, k.length + v.length > maxSize →
    (S.put k v s).1 = false ∧ value (S.put k v s).2 = value s
  putIfAbsent_fits : ∀ k v s, k.length + v.length ≤ maxSize → value s k = none →
    (S.putIfAbsent k v s).1 = true ∧ value (S.putIfAbsent k v s).2 k = some v
  putIfAbsent_refused : ∀ k v s, k.length + v.length > maxSize ∨ value s k ≠ none →
    (S.putIfAbsent k v s).1 = false ∧ value (S.putIfAbsent k v s).2 = value s
  set_fits : ∀ k v s, k.length + v.length ≤ maxSize → value s k ≠ none →
    (S.set k v s).1 = true ∧ value (S.set k v s).2 k = some v
  set_refused : ∀ k v s, k.length + v.length > maxSize ∨ value s k = none →
    (S.set k v s).1 = false ∧ value (S.set k v s).2 = value s
  get_present : ∀ k out s v, value s k = some v → (S.get k out s).1 = (true, v)
  get_absent : ∀ k out s, value s k = none → (S.get k out s).1 = (false, out)
  get_value : ∀ k out s, value (S.get k out s).2 = value s

/-- A storage without eviction: each pair that is not too large is kept. -/
def boundedMap (maxSize : Nat) : Storage (Bytes → Option Bytes) where
  put k v s := if k.length + v.length > maxSize then (false, s) else (true, Function.update s k (some v))
  putIfAbsent k v s :=
    if k.length + v.length > maxSize ∨ s k ≠ none then (false, s)
    else (true, Function.update s k (some v))
  set k v s :=
    if k.length + v.length > maxSize ∨ s k = none then (false, s)
    else (true, Function.update s k (some v))
  delete k s := (s k ≠ none, Function.update s k none)
  get k out s := ((s k ≠ none, (s k).getD out), s)

theorem boundedMap_contract (maxSize : Nat) : Contract (boundedMap maxSize) id maxSize where
  put_fits k v s h := by simp [boundedMap, Nat.not_lt.mpr h]
  put_oversize k v s h := by simp [boundedMap, h]
  putIfAbsent_fits k v s h hn := by
    have hn : s k = none := hn
    simp [boundedMap, Nat.not_lt.mpr h, hn]
  putIfAbsent_refused k v s h := by
    have h : k.length + v.length > maxSize ∨ s k ≠ none := h
    simp [boundedMap, h]
  set_fits k v s h hn := by
    have hn : s k ≠ none := hn
    simp [boundedMap, Nat.not_lt.mpr h, hn]
  set_refused k v s h := by
    have h : k.length + v.length > maxSize ∨ s k = none := h
    simp [boundedMap, h]
  get_present k out s v h := by
    have h : s k = some v := h
    simp [boundedMap, h]
  get_absent k out s h := by
    have h : s k = none := h
    simp [boundedMap, h]
  get_value k out s := rfl

/-- The fields of a storing command. -/
def Command.fields : Command → Option InsertCommand
  | set c | add c | append c | replace c => some c
  | get _ | stats => none

/-- The value a storing command promises to leave behind, given the one that was there. -/
def Command.promised (args : Bytes) (previous : Option Bytes) : Command → Option Bytes
  | append _ => previous.map (· ++ args)
  | _ => some args

section

variable (S : Storage σ) (value : σ → Bytes → Option Bytes) (maxSize : Nat)

/-- The reply says what has happened: after `STORED` a `Get` finds the promised value, and
`NOT_STORED` leaves all associations as they were. -/
def Truthful (c : Command) (f : InsertCommand) (args : Bytes) (s : σ) : Prop :=
  let (reply, t) := c.execute S args s
  (reply = stored → ∃ v, c.promised args (value s f.key) = some v ∧
    ∀ out, (S.get f.key out t).1 = (true, v)) ∧
  (reply = notStored → value t = value s)

/-- The pair with the promised value is not too large, or is there already. -/
def Storable (previous : Option Bytes) (key promised : Bytes) : Prop :=
  key.length + promised.length ≤ maxSize ∨ previous = some promised

/-- When the reply is truthful: `Add` passes the refusal of the storage on; the other commands
ignore it, so the pair they store has to be one that the storage does not refuse. -/
def Accepted (previous : Option Bytes) (args : Bytes) : Command → Prop
  | .set c => Storable maxSize previous c.key args
  | .append c => ∀ old, previous = some old → Storable maxSize previous c.key (old ++ args)
  | .replace c => previous ≠ none → Storable maxSize previous c.key args
  | _ => True

end

section

variable {S : Storage σ} {value : σ → Bytes → Option Bytes} {maxSize : Nat}

theorem stored_ne_notStored : stored ≠ notStored := by decide

/-- Whether a `Get` returns a value is decided by the association alone. -/
theorem Contract.get_iff (h : Contract S value maxSize) (k v : Bytes) (t : σ) :
    (∀ out, (S.get k out t).1 = (true, v)) ↔ value t k = some v := by
  constructor
  · intro hg
    cases ht : value t k with
    | none =>
      have hf := hg []
      rw [h.get_absent k [] t ht] at hf
      exact absurd (congrArg Prod.fst hf) Bool.false_ne_true
    | some w =>
      have hf := hg []
      rw [h.get_present k [] t w ht] at hf
      exact congrArg some (congrArg Prod.snd hf)
  · intro hv out
    exact h.get_present k out t v hv

/-- After a `Put` whose result is not looked at, the key has the new value just when the pair was
storable. -/
theorem Contract.put_iff (h : Contract S value maxSize) (k v : Bytes) (s : σ) :
    value (S.put k v s).2 k = some v ↔ Storable maxSize (value s k) k v := by
  unfold Storable
  by_cases hf : k.length + v.length ≤ maxSize
  · simp [hf, (h.put_fits k v s hf).2]
  · simp [hf, (h.put_oversize k v s (Nat.lt_of_not_le hf)).2]

theorem Contract.set_iff (h : Contract S value maxSize) (k v : Bytes) (s : σ) (hk : value s k ≠ none) :
    value (S.set k v s).2 k = some v ↔ Storable maxSize (value s k) k v := by
  unfold Storable
  by_cases hf : k.length + v.length ≤ maxSize
  · simp [hf, (h.set_fits k v s hf hk).2]
  · simp [hf, (h.set_refused k v s (.inl (Nat.lt_of_not_le hf))).2]

/-- A command that answers `STORED` is truthful just when the promised value is there. -/
theorem Contract.truthful_stored (h : Contract S value maxSize) {c : Command} {f : InsertCommand}
    {args v : Bytes} {s t : σ} (he : c.execute S args s = (stored, t))
    (hp : c.promised args (value s f.key) = some v) :
    Truthful S value c f args s ↔ value t f.key = some v := by
  simp [Truthful, he, hp, stored_ne_notStored, h.get_iff]

theorem truthful_notStored {c : Command} {f : InsertCommand} {args : Bytes} {s t : σ}
    (he : c.execute S args s = (notStored, t)) (ht : value t = value s) :
    Truthful S value c f args s := by
  simp [Truthful, he, stored_ne_notStored.symm, ht]

theorem Contract.truthful_set (h : Contract S value maxSize) (c : InsertCommand) (args : Bytes)
    (s : σ) :
    Truthful S value (.set c) c args s ↔ Accepted maxSize (value s c.key) args (.set c) :=
  (h.truthful_stored rfl rfl).trans (h.put_iff c.key args s)

theorem Contract.truthful_add (h : Contract S value maxSize) (c : InsertCommand) (args : Bytes)
    (s : σ) : Truthful S value (.add c) c args s := by
  by_cases hr : c.key.length + args.length > maxSize ∨ value s c.key ≠ none
  · obtain ⟨hb, hv⟩ := h.putIfAbsent_refused c.key args s hr
    apply truthful_notStored _ hv
    simp [Command.execute, hb]
  · rw [not_or, not_not, not_lt] at hr
    obtain ⟨hb, hv⟩ := h.putIfAbsent_fits c.key args s hr.1 hr.2
    apply (h.truthful_stored _ rfl).mpr hv
    simp [Command.execute, hb]

theorem Contract.truthful_append (h : Contract S value maxSize) (c : InsertCommand) (args : Bytes)
    (s : σ) :
    Truthful S value (.append c) c args s ↔ Accepted maxSize (value s c.key) args (.append c) := by
  have hg := h.get_value c.key [] s
  cases hv : value s c.key with
  | none =>
    have hr := h.get_absent c.key [] s hv
    have he : Command.execute S args s (.append c) = (notStored, (S.get c.key [] s).2) := by
      simp only [Command.execute]
      split <;> simp_all
    simp [Accepted, truthful_notStored he hg]
  | some old =>
    have hr := h.get_present c.key [] s old hv
    have he : Command.execute S args s (.append c) =
        (stored, (S.put c.key (old ++ args) (S.get c.key [] s).2).2) := by
      simp only [Command.execute]
      split <;> simp_all
    have hp : Command.promised args (value s c.key) (.append c) = some (old ++ args) := by
      simp [Command.promised, hv]
    rw [h.truthful_stored he hp, h.put_iff, hg, hv]
    simp [Accepted]

theorem Contract.truthful_replace (h : Contract S value maxSize) (c : InsertCommand) (args : Bytes)
    (s : σ) :
    Truthful S value (.replace c) c args s ↔ Accepted maxSize (value s c.key) args (.replace c) := by
  have hg := h.get_value c.key [] s
  cases hv : value s c.key with
  | none =>
    have hr := h.get_absent c.key [] s hv
    have he : Command.execute S args s (.replace c) = (notStored, (S.get c.key [] s).2) := by
      simp only [Command.execute]
      split <;> simp_all
    simp [Accepted, truthful_notStored he hg]
  | some old =>
    have hr := h.get_present c.key [] s old hv
    have he : Command.execute S args s (.replace c) =
        (stored, (S.set c.key args (S.get c.key [] s).2).2) := by
      simp only [Command.execute]
      split <;> simp_all
    have hk : value (S.get c.key [] s).2 c.key ≠ none := by simp [hg, hv]
    rw [h.truthful_stored he rfl, h.set_iff _ _ _ hk, hg, hv]
    simp [Accepted]

/-- `Set`, `Append` and `Replace` answer `STORED` whatever the storage says: the reply of a storing
command can be trusted exactly when the storage does not refuse its pair. -/
theorem truthful_iff (h : Contract S value maxSize) (c : Command) (f : InsertCommand)
    (hf : c.fields = some f) (args : Bytes) (s : σ) :
    Truthful S value c f args s ↔ Accepted maxSize (value s f.key) args c := by
  cases c with
  | set g =>
    cases hf
    exact h.truthful_set _ args s
  | add g =>
    cases hf
    exact iff_of_true (h.truthful_add _ args s) trivial
  | append g =>
    cases hf
    exact h.truthful_append _ args s
  | replace g =>
    cases hf
    exact h.truthful_replace _ args s
  | get keys => cases hf
  | stats => cases hf

theorem truthful_iff_set :
    Truthful (boundedMap 8) id (.set ⟨text "k", 0, 0⟩) ⟨text "k", 0, 0⟩ (text "v") (fun _ => none) :=
  (truthful_iff (boundedMap_contract 8) _ _ rfl _ _).mpr (.inl (by decide))

/-- A pair of nine bytes on storages of eight: `STORED`, and the key is not there. -/
theorem set_oversize_untruthful :
    Contract (boundedMap 8) id 8 ∧
    ¬ Truthful (boundedMap 8) id (.set ⟨text "k", 0, 0⟩) ⟨text "k", 0, 0⟩ (text "12345678")
      (fun _ => none) ∧
    let r := Command.execute simpleLRU (text "12345678") (some (.create 8)) (.set ⟨text "k", 0, 0⟩)
    r.1 = stored ∧ (simpleLRU.get (text "k") [] r.2).1 = (false, []) := by
  refine ⟨boundedMap_contract 8, ?_, by decide +kernel⟩
  intro ht
  obtain ⟨v, -, hv⟩ := ht.1 rfl
  exact absurd (hv []) (by simp [boundedMap, text])

end

end Sysprog.Execute
