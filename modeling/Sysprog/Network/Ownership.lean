import Sysprog.Network.Server

namespace Sysprog.Network

def Effect.destroys : Effect → Option Nat
  | dispatch _ => none
  | deleted p | released p => some p

/-- The identities destroyed in a history, in order. -/
def destroyed (history : List Effect) : List Nat := history.filterMap Effect.destroys

theorem mem_destroyed {history : List Effect} {p : Nat} :
    p ∈ destroyed history ↔ .deleted p ∈ history ∨ .released p ∈ history := by
  simp only [destroyed, List.mem_filterMap]
  constructor
  · intro hex
    obtain ⟨e, he, hp⟩ := hex
    cases e with
    | dispatch q => simp [Effect.destroys] at hp
    | deleted q => exact .inl (Option.some.inj hp ▸ he)
    | released q => exact .inr (Option.some.inj hp ▸ he)
  · rintro (h | h)
    · exact ⟨_, h, rfl⟩
    · exact ⟨_, h, rfl⟩

@[simp] theorem destroyed_append (h h' : List Effect) :
    destroyed (h ++ h') = destroyed h ++ destroyed h' :=
  List.filterMap_append

@[simp] theorem destroyed_dispatch (p : Nat) : destroyed [.dispatch p] = [] := rfl

theorem destroyed_singleton {e : Effect} {p : Nat} (h : e.destroys = some p) :
    destroyed [e] = [p] := by
  simp [destroyed, h]

/-- A history that grows by one effect: only a dispatch has something to answer for. -/
theorem dispatched_snoc {history : List Effect} {e : Effect}
    (h : ∀ earlier later p, history = earlier ++ .dispatch p :: later → p ∉ destroyed earlier)
    (he : ∀ p, e = .dispatch p → p ∉ destroyed history) (earlier later : List Effect) (p : Nat)
    (heq : history ++ [e] = earlier ++ .dispatch p :: later) : p ∉ destroyed earlier := by
  rcases List.eq_nil_or_concat later with rfl | ⟨later, e', rfl⟩
  · obtain ⟨rfl, hlast⟩ := List.append_inj_left' heq rfl, (List.append_inj_right' heq rfl)
    exact he p (by simpa using hlast)
  · rw [List.concat_eq_append, ← List.cons_append, ← List.append_assoc] at heq
    exact h _ _ _ (List.append_inj_left' heq rfl)

def Acceptor.pc : Acceptor → Option Nat
  | idle => none
  | created p | added p | refused p => some p

/-- The `Connection` no other thread has seen. -/
def Acceptor.hidden : Acceptor → Option Nat
  | idle | added _ => none
  | created p | refused p => some p

theorem Acceptor.pc_of_hidden {x : Acceptor} {p : Nat} (h : x.hidden = some p) :
    x.pc = some p := by
  cases x <;> simp_all [hidden, pc]

/-- The pointers a worker has from epoll and is not done with. -/
def Worker.held : Worker → List Nat
  | waiting | stopped => []
  | handling ps => ps
  | served p _ ps | closing p ps => p :: ps

namespace Server

variable {m n : Nat}

/-- The pointers that a step destroys through a `unique_ptr`. -/
def releases : Step m n → Server m n → List Nat
  | .insert a, s =>
    match s.acceptors a with
    | .added pc => if s.taken (s.socket pc) then [pc] else []
    | _ => []
  | .stop, s =>
    match s.stop with
    | .sweeping next =>
      match s.iterator next with
      | some fd => s.tmp fd
      | none => pointers s.connections
    | _ => []
  | _, _ => []

/-- No thread has deleted the object, and no worker has a pointer to it. -/
def Unshared (s : Server m n) (p : Nat) : Prop :=
  Effect.deleted p ∉ s.history ∧ ∀ i, p ∉ (s.workers i).held

/-- What a `unique_ptr` destroys in this step is its own. -/
def SoleOwner (a : Step m n) (s : Server m n) : Prop := ∀ p ∈ releases a s, s.Unshared p

instance (a : Step m n) (s : Server m n) : Decidable (SoleOwner a s) :=
  inferInstanceAs (Decidable (∀ p ∈ releases a s, _ ∧ _))

/-- The object exists. -/
def Live (s : Server m n) (p : Nat) : Prop := p < s.fresh ∧ p ∉ destroyed s.history

/-- No `Connection` is destroyed twice, gets an event after its destruction or is in the epoll set
after it. -/
structure OwnedOnce (s : Server m n) : Prop where
  once : (destroyed s.history).Nodup
  dispatched : ∀ earlier later p, s.history = earlier ++ .dispatch p :: later →
    p ∉ destroyed earlier
  registered : ∀ fd r, s.epoll fd = some r → r.pconn ∉ destroyed s.history

/-- The invariant of the server: an object that a thread can still reach exists, up to the workers'
`delete`, which neither `_connections` nor an acceptor about to insert hears of. -/
structure Inv (s : Server m n) : Prop extends OwnedOnce s where
  born : ∀ p ∈ destroyed s.history, p < s.fresh
  opened : ∀ p, s.Live p → s.opened (s.socket p) = true
  distinct : ∀ p q, s.Live p → s.Live q → s.socket p = s.socket q → p = q
  epoll : ∀ fd r, s.epoll fd = some r → r.pconn < s.fresh ∧ s.socket r.pconn = fd
  held : ∀ i, ∀ p ∈ (s.workers i).held, s.Live p
  disarmed : ∀ i, ∀ p ∈ (s.workers i).held, ∀ r, s.epoll (s.socket p) = some r → r.armed = false
  heldNodup : ∀ i, (s.workers i).held.Nodup
  heldOnce : ∀ i j, ∀ p ∈ (s.workers i).held, p ∈ (s.workers j).held → i = j
  acceptor : ∀ a p, (s.acceptors a).pc = some p → p < s.fresh ∧ .released p ∉ s.history ∧
    p ∉ pointers s.connections
  acceptorOnce : ∀ a b p, (s.acceptors a).pc = some p → (s.acceptors b).pc = some p → a = b
  hidden : ∀ a p, (s.acceptors a).hidden = some p → s.Live p ∧ s.epoll (s.socket p) = none ∧
    ∀ i, p ∉ (s.workers i).held
  connection : ∀ p ∈ pointers s.connections, p < s.fresh ∧ .released p ∉ s.history
  connectionNodup : (pointers s.connections).Nodup

section acceptors

variable {s : Server m n} {a : Fin m} {x : Acceptor} {f g : Acceptor → Option Nat}

theorem of_setAcceptor (hx : ∀ p, f x = some p → f (s.acceptors a) = some p) (b : Fin m) (p : Nat)
    (hb : f ((s.setAcceptor a x).acceptors b) = some p) : f (s.acceptors b) = some p := by
  by_cases hab : b = a
  · subst hab
    exact hx p (by simpa [setAcceptor] using hb)
  · simpa [setAcceptor, hab] using hb

/-- A pointer that its acceptor gives up is no other's. -/
theorem ne_setAcceptor
    (hs : ∀ a b p, g (s.acceptors a) = some p → g (s.acceptors b) = some p → a = b) {p : Nat}
    (ha : g (s.acceptors a) = some p) (hx : f x ≠ some p) (hf : ∀ y, f y = some p → g y = some p)
    (b : Fin m) : f ((s.setAcceptor a x).acceptors b) ≠ some p := by
  intro hb
  by_cases hab : b = a
  · subst hab
    exact hx (by simpa [setAcceptor] using hb)
  · exact hab (hs b a p (hf _ (by simpa [setAcceptor, hab] using hb)) ha)

end acceptors

section workers

variable {s : Server m n} {i : Fin n} {x : Worker} {ready : List Nat}

theorem held_setWorker {j : Fin n} {p : Nat} (hp : p ∈ ((s.setWorker i x).workers j).held) :
    j = i ∧ p ∈ x.held ∨ j ≠ i ∧ p ∈ (s.workers j).held := by
  by_cases hij : j = i
  · subst hij
    exact .inl ⟨rfl, by simpa [setWorker] using hp⟩
  · exact .inr ⟨hij, by simpa [setWorker, hij] using hp⟩

theorem sublist_setWorker (hx : x.held.Sublist (s.workers i).held) (j : Fin n) :
    ((s.setWorker i x).workers j).held.Sublist (s.workers j).held := by
  by_cases hij : j = i
  · subst hij
    simpa [setWorker] using hx
  · simp [setWorker, hij]

theorem nodup_setWorker (hs : ∀ j, (s.workers j).held.Nodup) (hx : x.held.Nodup) (j : Fin n) :
    ((s.setWorker i x).workers j).held.Nodup := by
  by_cases hij : j = i
  · subst hij
    simpa [setWorker] using hx
  · simpa [setWorker, hij] using hs j

/-- Pointers that nobody had are then one worker's. -/
theorem once_setWorker
    (hs : ∀ j k, ∀ p ∈ (s.workers j).held, p ∈ (s.workers k).held → j = k)
    (hx : ∀ p ∈ x.held, ∀ j, p ∉ (s.workers j).held) (j k : Fin n) (p : Nat)
    (hj : p ∈ ((s.setWorker i x).workers j).held) (hk : p ∈ ((s.setWorker i x).workers k).held) :
    j = k := by
  rcases held_setWorker hj with ⟨rfl, hp⟩ | ⟨-, hp⟩ <;>
    rcases held_setWorker hk with ⟨rfl, hq⟩ | ⟨-, hq⟩
  · rfl
  · exact absurd hq (hx p hp k)
  · exact absurd hp (hx p hq j)
  · exact hs j k p hp hq

/-- A pointer that its worker gives up is nobody's. -/
theorem notMem_setWorker (hs : ∀ j k, ∀ p ∈ (s.workers j).held, p ∈ (s.workers k).held → j = k)
    {p : Nat} (hi : p ∈ (s.workers i).held) (hx : p ∉ x.held) (j : Fin n) :
    p ∉ ((s.setWorker i x).workers j).held := by
  intro hj
  rcases held_setWorker hj with ⟨-, hp⟩ | ⟨hij, hp⟩
  · exact hx hp
  · exact hij (hs j i p hp hi)

/-- What epoll hands out was armed. -/
theorem of_mem_modList
    (hs : ∀ fd r, s.epoll fd = some r → r.pconn < s.fresh ∧ s.socket r.pconn = fd)
    (harmed : ∀ fd ∈ ready, (s.epoll fd).map Registration.armed = some true) {p : Nat}
    (hp : p ∈ s.modList ready) : s.socket p ∈ ready ∧ s.epoll (s.socket p) = some ⟨p, true⟩ := by
  obtain ⟨fd, hfd, hp⟩ := List.mem_filterMap.mp hp
  obtain ⟨r, hr, rfl⟩ := Option.map_eq_some_iff.mp hp
  have ha : r.armed = true := by simpa [hr] using harmed fd hfd
  rw [(hs fd r hr).2]
  exact ⟨hfd, by rw [hr, ← ha]⟩

theorem nodup_modList
    (hs : ∀ fd r, s.epoll fd = some r → r.pconn < s.fresh ∧ s.socket r.pconn = fd)
    (hnd : ready.Nodup) : (s.modList ready).Nodup := by
  apply hnd.filterMap
  intro fd fd' p hfd hfd'
  obtain ⟨r, hr, hrp⟩ := Option.map_eq_some_iff.mp hfd
  obtain ⟨r', hr', hrp'⟩ := Option.map_eq_some_iff.mp hfd'
  rw [← (hs fd r hr).2, ← (hs fd' r' hr').2, hrp, hrp']

theorem of_disarm {fd : Nat} {r : Registration} (hr : s.disarm ready fd = some r) :
    ∃ r', s.epoll fd = some r' ∧ r'.pconn = r.pconn ∧ (fd ∈ ready → r.armed = false) ∧
      (fd ∉ ready → r' = r) := by
  unfold disarm at hr
  by_cases hfd : fd ∈ ready
  · rw [if_pos hfd] at hr
    obtain ⟨r', hr', rfl⟩ := Option.map_eq_some_iff.mp hr
    exact ⟨r', hr', rfl, fun _ => rfl, fun hn => absurd hfd hn⟩
  · rw [if_neg hfd] at hr
    exact ⟨r, hr, rfl, fun hm => absurd hm hfd, fun _ => rfl⟩

end workers

namespace Inv

variable {s : Server m n}

theorem start : Inv (Server.start m n) where
  once := List.nodup_nil
  dispatched := by simp [Server.start]
  registered := by simp [Server.start]
  born := by simp [Server.start, destroyed]
  opened := by simp [Server.start, Server.Live]
  distinct := by simp [Server.start, Server.Live]
  epoll := by simp [Server.start]
  held := by simp [Server.start, Worker.held]
  disarmed := by simp [Server.start, Worker.held]
  heldNodup := by simp [Server.start, Worker.held]
  heldOnce := by simp [Server.start, Worker.held]
  acceptor := by simp [Server.start, Acceptor.pc]
  acceptorOnce := by simp [Server.start, Acceptor.pc]
  hidden := by simp [Server.start, Acceptor.hidden]
  connection := by simp [Server.start, pointers]
  connectionNodup := by simp [Server.start, pointers]

/-- An acceptor that keeps or drops its pointer. -/
theorem setAcceptor (h : Inv s) (a : Fin m) {x : Acceptor}
    (hpc : ∀ p, x.pc = some p → (s.acceptors a).pc = some p)
    (hhidden : ∀ p, x.hidden = some p → (s.acceptors a).hidden = some p) :
    Inv (s.setAcceptor a x) := by
  have hpc' := of_setAcceptor hpc
  have hhidden' := of_setAcceptor hhidden
  exact { h with
    acceptor := fun b p hb => h.acceptor b p (hpc' b p hb)
    acceptorOnce := fun b c p hb hc => h.acceptorOnce b c p (hpc' b p hb) (hpc' c p hc)
    hidden := fun b p hb => h.hidden b p (hhidden' b p hb) }

/-- A worker that is done with some of its pointers. -/
theorem setWorker (h : Inv s) (i : Fin n) {x : Worker} (hx : x.held.Sublist (s.workers i).held) :
    Inv (s.setWorker i x) := by
  have hx' := sublist_setWorker hx
  exact { h with
    held := fun j p hp => h.held j p ((hx' j).subset hp)
    disarmed := fun j p hp => h.disarmed j p ((hx' j).subset hp)
    heldNodup := fun j => (h.heldNodup j).sublist (hx' j)
    heldOnce := fun j k p hj hk => h.heldOnce j k p ((hx' j).subset hj) ((hx' k).subset hk)
    hidden := fun a p ha =>
      let ⟨hl, he, hw⟩ := h.hidden a p ha
      ⟨hl, he, fun j hj => hw j ((hx' j).subset hj)⟩ }

theorem fresh_notMem (h : Inv s) : s.fresh ∉ destroyed s.history :=
  fun hp => absurd (h.born _ hp) (lt_irrefl _)

/-- A closed descriptor is no live object's. -/
theorem socket_ne (h : Inv s) {fd p : Nat} (hfd : s.opened fd = false) (hl : s.Live p) :
    s.socket p ≠ fd := by
  intro hs
  rw [← hs, h.opened p hl] at hfd
  cases hfd

theorem epoll_closed (h : Inv s) {fd : Nat} (hfd : s.opened fd = false) : s.epoll fd = none := by
  cases hr : s.epoll fd with
  | none => rfl
  | some r =>
    obtain ⟨hf, hs⟩ := h.epoll _ _ hr
    exact absurd hs (h.socket_ne hfd ⟨hf, h.registered _ _ hr⟩)

/-- `accept4` and `new Connection`. -/
theorem accept (h : Inv s) {a : Fin m} {infd : Nat} (ha : s.acceptors a = .idle)
    (hfd : s.opened infd = false) :
    Inv { s.setAcceptor a (.created s.fresh) with
      fresh := s.fresh + 1
      socket := Function.update s.socket s.fresh infd
      opened := Function.update s.opened infd true } := by
  have hsocket : ∀ p, p < s.fresh → Function.update s.socket s.fresh infd p = s.socket p :=
    fun p hp => Function.update_of_ne (ne_of_lt hp) _ _
  have hlive : ∀ p, p < s.fresh + 1 → p ∉ destroyed s.history → p = s.fresh ∨ s.Live p :=
    fun p hp hd => (Nat.lt_succ_iff_lt_or_eq.mp hp).elim (fun hp => .inr ⟨hp, hd⟩) .inl
  exact { h with
    born := fun p hp => Nat.lt_succ_of_lt (h.born p hp)
    opened := by
      intro p hl
      obtain ⟨hf, hd⟩ := hl
      rcases hlive p hf hd with rfl | hl
      · simp
      · simp [hsocket p hl.1, h.socket_ne hfd hl, h.opened p hl]
    distinct := by
      intro p q hp hq heq
      obtain ⟨hpf, hpd⟩ := hp
      obtain ⟨hqf, hqd⟩ := hq
      rcases hlive p hpf hpd with rfl | hp <;> rcases hlive q hqf hqd with rfl | hq
      · rfl
      · simp only [Function.update_self, hsocket q hq.1] at heq
        exact absurd heq.symm (h.socket_ne hfd hq)
      · simp only [Function.update_self, hsocket p hp.1] at heq
        exact absurd heq (h.socket_ne hfd hp)
      · simp only [hsocket p hp.1, hsocket q hq.1] at heq
        exact h.distinct p q hp hq heq
    epoll := by
      intro fd r hr
      obtain ⟨hf, hs⟩ := h.epoll fd r hr
      exact ⟨Nat.lt_succ_of_lt hf, (hsocket _ hf).trans hs⟩
    held := fun i p hp => ⟨Nat.lt_succ_of_lt (h.held i p hp).1, (h.held i p hp).2⟩
    disarmed := by
      intro i p hp r hr
      apply h.disarmed i p hp r
      simpa only [Server.setAcceptor, hsocket p (h.held i p hp).1] using hr
    acceptor := by
      intro b p hb
      by_cases hab : b = a
      · subst hab
        obtain rfl : s.fresh = p := by simpa [Server.setAcceptor, Acceptor.pc] using hb
        refine ⟨Nat.lt_succ_self _, fun hr => ?_, fun hp => ?_⟩
        · exact h.fresh_notMem (mem_destroyed.mpr (.inr hr))
        · exact absurd (h.connection _ hp).1 (lt_irrefl _)
      · obtain ⟨hf, hr⟩ := h.acceptor b p (by simpa [Server.setAcceptor, hab] using hb)
        exact ⟨Nat.lt_succ_of_lt hf, hr⟩
    acceptorOnce := by
      intro b c p hb hc
      by_cases hab : b = a <;> by_cases hac : c = a
      · rw [hab, hac]
      · subst hab
        obtain rfl : s.fresh = p := by simpa [Server.setAcceptor, Acceptor.pc] using hb
        have hc := h.acceptor c _ (by simpa [Server.setAcceptor, hac] using hc)
        exact absurd hc.1 (lt_irrefl _)
      · subst hac
        obtain rfl : s.fresh = p := by simpa [Server.setAcceptor, Acceptor.pc] using hc
        have hb := h.acceptor b _ (by simpa [Server.setAcceptor, hab] using hb)
        exact absurd hb.1 (lt_irrefl _)
      · exact h.acceptorOnce b c p (by simpa [Server.setAcceptor, hab] using hb)
          (by simpa [Server.setAcceptor, hac] using hc)
    hidden := by
      intro b p hb
      by_cases hab : b = a
      · subst hab
        obtain rfl : s.fresh = p := by simpa [Server.setAcceptor, Acceptor.hidden] using hb
        refine ⟨⟨Nat.lt_succ_self _, h.fresh_notMem⟩, ?_, fun i hp => ?_⟩
        · simpa [Server.setAcceptor] using h.epoll_closed hfd
        · exact absurd (h.held i _ hp).1 (lt_irrefl _)
      · obtain ⟨hl, he, hw⟩ := h.hidden b p (by simpa [Server.setAcceptor, hab] using hb)
        refine ⟨⟨Nat.lt_succ_of_lt hl.1, hl.2⟩, ?_, hw⟩
        simpa only [Server.setAcceptor, hsocket p hl.1] using he
    connection := fun p hp => ⟨Nat.lt_succ_of_lt (h.connection p hp).1, (h.connection p hp).2⟩ }

theorem register (h : Inv s) {p : Nat} (hl : s.Live p) (hheld : ∀ i, p ∉ (s.workers i).held)
    (hhidden : ∀ a, (s.acceptors a).hidden ≠ some p) :
    Inv { s with epoll := Function.update s.epoll (s.socket p) (some ⟨p, true⟩) } := by
  have hcases : ∀ fd r, Function.update s.epoll (s.socket p) (some ⟨p, true⟩) fd = some r →
      (fd = s.socket p ∧ r = ⟨p, true⟩) ∨ s.epoll fd = some r := by
    intro fd r hr
    by_cases hfd : fd = s.socket p
    · subst hfd
      exact .inl ⟨rfl, by simpa [eq_comm] using hr⟩
    · exact .inr (by simpa [hfd] using hr)
  exact { h with
    registered := by
      intro fd r hr
      rcases hcases fd r hr with ⟨rfl, rfl⟩ | hr
      · exact hl.2
      · exact h.registered fd r hr
    epoll := by
      intro fd r hr
      rcases hcases fd r hr with ⟨rfl, rfl⟩ | hr
      · exact ⟨hl.1, rfl⟩
      · exact h.epoll fd r hr
    disarmed := by
      intro i q hq r hr
      rcases hcases _ r hr with ⟨hs, -⟩ | hr
      · obtain rfl := h.distinct q p (h.held i q hq) hl hs
        exact absurd hq (hheld i)
      · exact h.disarmed i q hq r hr
    hidden := by
      intro a q ha
      obtain ⟨hlq, he, hw⟩ := h.hidden a q ha
      refine ⟨hlq, ?_, hw⟩
      have hne : s.socket q ≠ s.socket p := by
        intro hs
        obtain rfl := h.distinct q p hlq hl hs
        exact hhidden a ha
      simpa [hne] using he }

theorem epoll_of_dropped {fd fd' : Nat} {r : Registration}
    (hr : Function.update s.epoll fd none fd' = some r) : fd' ≠ fd ∧ s.epoll fd' = some r := by
  by_cases hfd : fd' = fd
  · simp [hfd] at hr
  · exact ⟨hfd, by simpa [hfd] using hr⟩

theorem unregister (h : Inv s) (fd : Nat) :
    Inv { s with epoll := Function.update s.epoll fd none } :=
  { h with
    registered := fun fd' r hr => h.registered fd' r (epoll_of_dropped hr).2
    epoll := fun fd' r hr => h.epoll fd' r (epoll_of_dropped hr).2
    disarmed := fun i p hp r hr => h.disarmed i p hp r (epoll_of_dropped hr).2
    hidden := fun a p ha =>
      let ⟨hl, he, hw⟩ := h.hidden a p ha
      ⟨hl, by simp [Function.update_apply, he], hw⟩ }

theorem dispatch (h : Inv s) {p : Nat} (hl : s.Live p) :
    Inv { s with history := s.history ++ [.dispatch p] } := by
  have hd : destroyed (s.history ++ [.dispatch p]) = destroyed s.history := by simp
  have hlive : ∀ q, Server.Live { s with history := s.history ++ [.dispatch p] } q ↔ s.Live q := by
    simp [Server.Live]
  have hreleased : ∀ q, .released q ∉ s.history → .released q ∉ s.history ++ [.dispatch p] := by
    simp
  exact { h with
    once := hd ▸ h.once
    dispatched := dispatched_snoc h.dispatched fun q hq => by
      cases hq
      exact hl.2
    registered := fun fd r hr => hd ▸ h.registered fd r hr
    born := fun q hq => h.born q (hd ▸ hq)
    opened := fun q hq => h.opened q ((hlive q).mp hq)
    distinct := fun q r hq hr => h.distinct q r ((hlive q).mp hq) ((hlive r).mp hr)
    held := fun i q hq => (hlive q).mpr (h.held i q hq)
    acceptor := fun a q ha =>
      let ⟨hf, hr, hm⟩ := h.acceptor a q ha
      ⟨hf, hreleased q hr, hm⟩
    hidden := fun a q ha =>
      let ⟨hq, he, hw⟩ := h.hidden a q ha
      ⟨(hlive q).mpr hq, he, hw⟩
    connection := fun q hq => ⟨(h.connection q hq).1, hreleased q (h.connection q hq).2⟩ }

theorem wait (h : Inv s) {i : Fin n} {ready : List Nat} (hnd : ready.Nodup)
    (harmed : ∀ fd ∈ ready, (s.epoll fd).map Registration.armed = some true) :
    Inv { s.setWorker i (.handling (s.modList ready)) with epoll := s.disarm ready } := by
  have hmod : ∀ p ∈ s.modList ready, s.socket p ∈ ready ∧ s.epoll (s.socket p) = some ⟨p, true⟩ :=
    fun p hp => of_mem_modList h.epoll harmed hp
  -- a pointer that was armed is in nobody's hands
  have hnone : ∀ p ∈ s.modList ready, ∀ j, p ∉ (s.workers j).held := by
    intro p hp j hj
    simpa using h.disarmed j p hj _ (hmod p hp).2
  exact { h with
    registered := by
      intro fd r hr
      obtain ⟨r', hr', hp, -⟩ := of_disarm hr
      exact hp ▸ h.registered fd r' hr'
    epoll := by
      intro fd r hr
      obtain ⟨r', hr', hp, -⟩ := of_disarm hr
      exact hp ▸ h.epoll fd r' hr'
    held := by
      intro j p hp
      rcases held_setWorker hp with ⟨-, hp⟩ | ⟨-, hp⟩
      · have hr := (hmod p hp).2
        exact ⟨(h.epoll _ _ hr).1, h.registered _ _ hr⟩
      · exact h.held j p hp
    disarmed := by
      intro j p hp r hr
      obtain ⟨r', hr', -, hin, hout⟩ := of_disarm hr
      rcases held_setWorker hp with ⟨-, hp⟩ | ⟨-, hp⟩
      · exact hin (hmod p hp).1
      · by_cases hm : s.socket p ∈ ready
        · exact hin hm
        · exact hout hm ▸ h.disarmed j p hp r' hr'
    heldNodup := nodup_setWorker h.heldNodup (nodup_modList h.epoll hnd)
    heldOnce := once_setWorker h.heldOnce hnone
    hidden := by
      intro a p ha
      obtain ⟨hl, he, hw⟩ := h.hidden a p ha
      refine ⟨hl, by simp [Server.disarm, Server.setWorker, he], fun j hj => ?_⟩
      rcases held_setWorker hj with ⟨-, hp⟩ | ⟨-, hp⟩
      · exact absurd (hmod p hp).2 (by simp [he])
      · exact hw j hp }

theorem destroy (h : Inv s) {e : Effect} {p : Nat} (he : e.destroys = some p) (hl : s.Live p)
    (hheld : ∀ i, p ∉ (s.workers i).held) (hhidden : ∀ a, (s.acceptors a).hidden ≠ some p)
    (howner : e = .released p → (∀ a, (s.acceptors a).pc ≠ some p) ∧ p ∉ pointers s.connections) :
    Inv (s.destroy e p) := by
  have hd : destroyed (s.history ++ [e]) = destroyed s.history ++ [p] := by
    rw [destroyed_append, destroyed_singleton he]
  have hlive : ∀ q, (s.destroy e p).Live q ↔ s.Live q ∧ q ≠ p := by
    intro q
    simp only [Server.Live, Server.destroy, hd, List.mem_append, List.mem_singleton, not_or,
      and_assoc]
  have hsocket : ∀ q, s.Live q → q ≠ p → s.socket q ≠ s.socket p :=
    fun q hq hne hs => hne (h.distinct q p hq hl hs)
  have hreleased : ∀ q, .released q ∉ s.history →
      ((∃ a, (s.acceptors a).pc = some q) ∨ q ∈ pointers s.connections) →
      .released q ∉ s.history ++ [e] := by
    intro q hq hown hmem
    rcases List.mem_append.mp hmem with hmem | hmem
    · exact hq hmem
    · obtain rfl : .released q = e := by simpa using hmem
      obtain rfl : q = p := by simpa [Effect.destroys] using he
      rcases hown with ⟨a, ha⟩ | hm
      · exact (howner rfl).1 a ha
      · exact (howner rfl).2 hm
  exact { h with
    once := by
      show (destroyed (s.history ++ [e])).Nodup
      rw [hd, ← List.concat_eq_append]
      exact List.Nodup.concat hl.2 h.once
    dispatched := dispatched_snoc h.dispatched fun q hq => by simp [hq, Effect.destroys] at he
    registered := by
      intro fd r hr
      obtain ⟨hfd, hr⟩ := epoll_of_dropped hr
      have hne : r.pconn ≠ p := by
        intro hp
        rw [← hp, (h.epoll fd r hr).2] at hfd
        exact hfd rfl
      show r.pconn ∉ destroyed (s.history ++ [e])
      simpa [hd, hne] using h.registered fd r hr
    born := by
      intro q hq
      rcases List.mem_append.mp (hd ▸ hq) with hq | hq
      · exact h.born q hq
      · obtain rfl : q = p := by simpa using hq
        exact hl.1
    opened := by
      intro q hq
      obtain ⟨hq, hne⟩ := (hlive q).mp hq
      simpa [Server.destroy, hsocket q hq hne] using h.opened q hq
    distinct := fun q r hq hr => h.distinct q r ((hlive q).mp hq).1 ((hlive r).mp hr).1
    epoll := fun fd r hr => h.epoll fd r (epoll_of_dropped hr).2
    held := by
      intro i q hq
      refine (hlive q).mpr ⟨h.held i q hq, ?_⟩
      intro heq
      subst heq
      exact hheld i hq
    disarmed := fun i q hq r hr => h.disarmed i q hq r (epoll_of_dropped hr).2
    acceptor := fun a q ha =>
      let ⟨hf, hr, hm⟩ := h.acceptor a q ha
      ⟨hf, hreleased q hr (.inl ⟨a, ha⟩), hm⟩
    hidden := by
      intro a q ha
      obtain ⟨hq, hempty, hw⟩ := h.hidden a q ha
      have hne : q ≠ p := by
        intro heq
        subst heq
        exact hhidden a ha
      refine ⟨(hlive q).mpr ⟨hq, hne⟩, ?_, hw⟩
      simpa [Server.destroy, hsocket q hq hne] using hempty
    connection := fun q hq =>
      ⟨(h.connection q hq).1, hreleased q (h.connection q hq).2 (.inr hq)⟩ }

/-- The map takes over the pointer of an acceptor. -/
theorem insert (h : Inv s) {p : Nat} (hp : p < s.fresh ∧ .released p ∉ s.history ∧
    p ∉ pointers s.connections) (hacceptor : ∀ a, (s.acceptors a).pc ≠ some p) (fd : Nat) :
    Inv { s with connections := s.connections ++ [(fd, some p)] } := by
  have hcs : pointers (s.connections ++ [(fd, some p)]) = pointers s.connections ++ [p] := by
    simp [pointers]
  exact { h with
    acceptor := by
      intro a q ha
      obtain ⟨hf, hr, hm⟩ := h.acceptor a q ha
      refine ⟨hf, hr, ?_⟩
      simp only [hcs, List.mem_append, List.mem_singleton, not_or]
      exact ⟨hm, fun hq => hacceptor a (hq ▸ ha)⟩
    connection := by
      intro q hq
      rcases List.mem_append.mp (hcs ▸ hq) with hq | hq
      · exact h.connection q hq
      · obtain rfl := List.mem_singleton.mp hq
        exact ⟨hp.1, hp.2.1⟩
    connectionNodup := by
      show (pointers (s.connections ++ [(fd, some p)])).Nodup
      rw [hcs, ← List.concat_eq_append]
      exact List.Nodup.concat hp.2.2 h.connectionNodup }

/-- The `unique_ptr`s of objects that nothing else refers to. -/
theorem release (h : Inv s) {ps : List Nat} (hnd : ps.Nodup) (hps : ∀ p ∈ ps, s.Live p ∧
      (∀ i, p ∉ (s.workers i).held) ∧ (∀ a, (s.acceptors a).pc ≠ some p) ∧
      p ∉ pointers s.connections) :
    Inv (Server.release ps s) := by
  induction ps generalizing s with
  | nil => exact h
  | cons p ps ih =>
    obtain ⟨hp, hnd⟩ := List.nodup_cons.mp hnd
    obtain ⟨hl, hheld, hpc, hm⟩ := hps p (by simp)
    refine ih (h.destroy rfl hl hheld (fun a ha => hpc a (Acceptor.pc_of_hidden ha))
      fun _ => ⟨hpc, hm⟩) hnd fun q hq => ?_
    obtain ⟨hlq, hrest⟩ := hps q (by simp [hq])
    refine ⟨⟨hlq.1, ?_⟩, hrest⟩
    have hne : q ≠ p := by
      intro heq
      subst heq
      exact hp hq
    simpa [Server.destroy, destroyed_singleton (e := .released p) rfl, hne] using hlq.2

/-- The map gives up some of its pointers. -/
theorem releaseOwned (h : Inv s) {ps : List Nat} {cs : List (Nat × Option Nat)}
    (hperm : (ps ++ pointers cs).Perm (pointers s.connections)) (hps : ∀ p ∈ ps, s.Unshared p)
    (stop : Stop) : Inv (Server.release ps { s with connections := cs, stop := stop }) := by
  have hmem : ∀ p, p ∈ ps ++ pointers cs → p ∈ pointers s.connections :=
    fun p hp => hperm.mem_iff.mp hp
  obtain ⟨hnd, hndcs, hdisj⟩ := List.nodup_append.mp (hperm.nodup_iff.mpr h.connectionNodup)
  have hinv : Inv { s with connections := cs, stop := stop } := { h with
    acceptor := fun a p ha =>
      let ⟨hf, hr, hm⟩ := h.acceptor a p ha
      ⟨hf, hr, fun hp => hm (hmem p (by simp [hp]))⟩
    connection := fun p hp => h.connection p (hmem p (by simp [hp]))
    connectionNodup := hndcs }
  apply hinv.release hnd
  intro p hp
  have hown : p ∈ pointers s.connections := hmem p (by simp [hp])
  obtain ⟨hf, hr⟩ := h.connection p hown
  obtain ⟨hd, hheld⟩ := hps p hp
  refine ⟨⟨hf, fun hm => ?_⟩, hheld, fun a ha => (h.acceptor a p ha).2.2 hown, fun hm => ?_⟩
  · exact (mem_destroyed.mp hm).elim hd hr
  · exact hdisj p hp p hm rfl

theorem tmp_swapOut (s : Server m n) (fd : Nat) :
    (s.tmp fd ++ pointers (s.swapOut fd)).Perm (pointers s.connections) := by
  simp only [Server.tmp, Server.swapOut, pointers]
  induction s.connections with
  | nil => rfl
  | cons e es ih =>
    obtain ⟨k, p⟩ := e
    by_cases hk : k = fd
    · cases p <;> simpa [hk] using ih
    · cases p with
      | none => simpa [hk] using ih
      | some p =>
        simp only [hk, decide_false, Bool.false_eq_true, not_false_eq_true,
          List.filter_cons_of_neg, List.map_cons, if_false]
        exact List.perm_middle.trans (ih.cons p)

theorem added (h : Inv s) {a : Fin m} {pc : Nat} (ha : s.acceptors a = .created pc) :
    Inv { s.setAcceptor a (.added pc) with
      epoll := Function.update s.epoll (s.socket pc) (some ⟨pc, true⟩) } := by
  obtain ⟨hl, -, hheld⟩ := h.hidden a pc (by simp [ha, Acceptor.hidden])
  have hinv : Inv (s.setAcceptor a (.added pc)) :=
    h.setAcceptor a (by simp [ha, Acceptor.pc]) (by simp [Acceptor.hidden])
  apply hinv.register hl hheld
  exact ne_setAcceptor h.acceptorOnce (by simp [ha, Acceptor.pc]) (by simp [Acceptor.hidden])
    fun _ => Acceptor.pc_of_hidden

theorem setIdle (h : Inv s) (a : Fin m) : Inv (s.setAcceptor a .idle) :=
  h.setAcceptor a (by simp [Acceptor.pc]) (by simp [Acceptor.hidden])

theorem inserted (h : Inv s) {a : Fin m} {pc : Nat} (ha : s.acceptors a = .added pc) :
    Inv { s.setAcceptor a .idle with
      connections := s.connections ++ [(s.socket pc, some pc)] } := by
  have hpc : (s.acceptors a).pc = some pc := by simp [ha, Acceptor.pc]
  exact (h.setIdle a).insert (h.acceptor a pc hpc)
    (ne_setAcceptor h.acceptorOnce hpc (by simp [Acceptor.pc]) fun _ => id) (s.socket pc)

theorem notInserted (h : Inv s) {a : Fin m} {pc : Nat} (ha : s.acceptors a = .added pc)
    (hun : s.Unshared pc) : Inv (Server.release [pc] (s.setAcceptor a .idle)) := by
  have hpc : (s.acceptors a).pc = some pc := by simp [ha, Acceptor.pc]
  obtain ⟨hf, hr, hm⟩ := h.acceptor a pc hpc
  apply (h.setIdle a).release (List.nodup_singleton pc)
  intro p hp
  obtain rfl := List.mem_singleton.mp hp
  refine ⟨⟨hf, fun hd => (mem_destroyed.mp hd).elim hun.1 hr⟩, hun.2, ?_, hm⟩
  exact ne_setAcceptor h.acceptorOnce hpc (by simp [Acceptor.pc]) fun _ => id

theorem discarded (h : Inv s) {a : Fin m} {pc : Nat} (ha : s.acceptors a = .refused pc) :
    Inv ((s.setAcceptor a .idle).destroy (.deleted pc) pc) := by
  obtain ⟨hl, -, hheld⟩ := h.hidden a pc (by simp [ha, Acceptor.hidden])
  refine (h.setIdle a).destroy rfl hl hheld ?_ (by simp)
  exact ne_setAcceptor h.acceptorOnce (by simp [ha, Acceptor.pc]) (by simp [Acceptor.hidden])
    fun _ => Acceptor.pc_of_hidden

theorem dispatched_served (h : Inv s) {i : Fin n} {p : Nat} {ps : List Nat} (alive : Bool)
    (hi : s.workers i = .handling (p :: ps)) :
    Inv { s.setWorker i (.served p alive ps) with history := s.history ++ [.dispatch p] } := by
  have hl : s.Live p := h.held i p (by simp [hi, Worker.held])
  exact (h.setWorker i (by simp [hi, Worker.held])).dispatch hl

/-- What a worker has is no acceptor's secret. -/
theorem not_hidden (h : Inv s) {i : Fin n} {p : Nat} (hi : p ∈ (s.workers i).held) (a : Fin m) :
    (s.acceptors a).hidden ≠ some p :=
  fun ha => (h.hidden a p ha).2.2 i hi

theorem rearmed (h : Inv s) {i : Fin n} {p : Nat} {ps : List Nat} {alive : Bool}
    (hi : s.workers i = .served p alive ps) :
    Inv { s.setWorker i (.handling ps) with
      epoll := Function.update s.epoll (s.socket p) (some ⟨p, true⟩) } := by
  have hp : p ∈ (s.workers i).held := by simp [hi, Worker.held]
  have hnd : p ∉ ps := (List.nodup_cons.mp (by simpa [hi, Worker.held] using h.heldNodup i)).1
  have hinv : Inv (s.setWorker i (.handling ps)) := h.setWorker i (by simp [hi, Worker.held])
  exact hinv.register (h.held i p hp) (notMem_setWorker h.heldOnce hp hnd) (h.not_hidden hp)

theorem deleted (h : Inv s) {i : Fin n} {p : Nat} {ps : List Nat}
    (hi : s.workers i = .closing p ps) :
    Inv ((s.setWorker i (.handling ps)).destroy (.deleted p) p) := by
  have hp : p ∈ (s.workers i).held := by simp [hi, Worker.held]
  have hnd : p ∉ ps := (List.nodup_cons.mp (by simpa [hi, Worker.held] using h.heldNodup i)).1
  have hinv : Inv (s.setWorker i (.handling ps)) := h.setWorker i (by simp [hi, Worker.held])
  exact hinv.destroy rfl (h.held i p hp) (notMem_setWorker h.heldOnce hp hnd) (h.not_hidden hp)
    (by simp)

theorem step (h : Inv s) {a : Server.Step m n} {s' : Server m n}
    (hsole : Server.SoleOwner a s) (hm : s.Moves a s') : Inv s' := by
  cases hm with
  | accept ha hfd => exact h.accept ha hfd
  | refused ha => exact h.setAcceptor _ (by simp [ha, Acceptor.pc]) (by simp [ha, Acceptor.hidden])
  | add ha => exact h.added ha
  | @notInserted a pc ha ht =>
    have hp : pc ∈ Server.releases (.insert a) s := by simp [Server.releases, ha, ht]
    exact h.notInserted ha (hsole pc hp)
  | insert ha => exact h.inserted ha
  | discard ha => exact h.discarded ha
  | loop hi =>
    apply h.setWorker
    split <;> simp [Worker.held]
  | wait hi hnd harmed => exact h.wait hnd harmed
  | dispatch hi => exact h.dispatched_served _ hi
  | rearmFailed hi => exact h.setWorker _ (by simp [hi, Worker.held])
  | rearm hi => exact h.rearmed hi
  | unregisterFailed hi => exact h.setWorker _ (by simp [hi, Worker.held])
  | @unregister i p ps hi =>
    have hinv : Inv (s.setWorker i (.closing p ps)) := h.setWorker i (by simp [hi, Worker.held])
    exact hinv.unregister _
  | delete hi => exact h.deleted hi
  | stop hst => exact { h with }
  | @sweep next fd hst hit =>
    have hown : ∀ p ∈ s.tmp fd, s.Unshared p := by
      intro p hp
      exact hsole p (by simpa [Server.releases, hst, hit] using hp)
    exact h.releaseOwned (tmp_swapOut s fd) hown _
  | clear hst hit =>
    have hown : ∀ p ∈ pointers s.connections, s.Unshared p := by
      intro p hp
      exact hsole p (by simpa [Server.releases, hst, hit] using hp)
    exact h.releaseOwned (by simp [pointers]) hown _

end Inv

end Server

/-- In a run of the acceptors, the workers and `Stop` in which a `unique_ptr` destroys a
`Connection` only when no thread has deleted it and no worker has a pointer to it, every
`Connection` is destroyed at most once, and is neither dispatched to nor registered after that. -/
theorem owned_once {m n : Nat} (steps : List (Server.Step m n)) (us : List Unit) (s : Server m n)
    (h : AllSteps Server.step Server.SoleOwner steps (Server.start m n))
    (hr : run Server.step steps (Server.start m n) = some (us, s)) : s.OwnedOnce := by
  have hinv : s.Inv := run_invariant _ _ Server.Inv
    (fun _ _ _ _ hi hp hs => hi.step hp (Server.moves_of_step hs)) steps _ _ us
    Server.Inv.start h hr
  exact hinv.toOwnedOnce

/-- Two clients: the second goes away, and `Stop` gets to the entry of the first. -/
theorem owned_once_two_clients :
    ∃ us s, run Server.step [.accept 0 5, .add 0 true, .insert 0, .accept 0 6, .add 0 true,
        .insert 0, .loop 0, .wait 0 [5, 6], .dispatch 0 true, .rearm 0 true, .dispatch 0 false,
        .unregister 0 true, .delete 0, .stop, .stop] (Server.start 1 1) = some (us, s) ∧
      s.history = [.dispatch 0, .dispatch 1, .deleted 1, .released 0] ∧ s.OwnedOnce :=
  ⟨_, _, rfl, rfl, owned_once [.accept 0 5, .add 0 true, .insert 0, .accept 0 6, .add 0 true,
    .insert 0, .loop 0, .wait 0 [5, 6], .dispatch 0 true, .rearm 0 true, .dispatch 0 false,
    .unregister 0 true, .delete 0, .stop, .stop] _ _ (by decide) rfl⟩

/-- A client connects and goes away: the worker deletes its `Connection`, the entry stays in
`_connections`, and `Stop` destroys it once more. -/
theorem destroyed_twice :
    ∃ us s, run Server.step [.accept 0 5, .add 0 true, .insert 0, .loop 0, .wait 0 [5],
        .dispatch 0 false, .unregister 0 true, .delete 0, .stop, .stop] (Server.start 1 1) =
        some (us, s) ∧
      s.history = [.dispatch 0, .deleted 0, .released 0] ∧ ¬ s.OwnedOnce :=
  ⟨_, _, rfl, rfl, fun h => absurd h.once (by decide)⟩

end Sysprog.Network
