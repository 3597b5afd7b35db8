import Sysprog.Network.Interest
import Sysprog.Network.Ownership

namespace Sysprog.Network

variable {m n : Nat}

namespace Server

/-- Each `Connection` that epoll has handed out is in the hands of one worker, once, and will not be
handed out again before that worker rearms it. -/
structure Exclusive (s : Server m n) : Prop where
  heldNodup : ∀ i, (s.workers i).held.Nodup
  heldOnce : ∀ i j, ∀ p ∈ (s.workers i).held, p ∈ (s.workers j).held → i = j
  heldFresh : ∀ i, ∀ p ∈ (s.workers i).held, p < s.fresh
  disarmed : ∀ i, ∀ p ∈ (s.workers i).held, ∀ fd, s.epoll fd ≠ some ⟨p, true⟩
  epoll : ∀ fd r, s.epoll fd = some r → r.pconn < s.fresh ∧ s.socket r.pconn = fd
  acceptor : ∀ a p, (s.acceptors a).hidden = some p → p < s.fresh
  acceptorOnce : ∀ a b p, (s.acceptors a).hidden = some p → (s.acceptors b).hidden = some p → a = b
  hidden : ∀ a p, (s.acceptors a).hidden = some p →
    (∀ fd r, s.epoll fd = some r → r.pconn ≠ p) ∧ ∀ i, p ∉ (s.workers i).held

namespace Exclusive

variable {s : Server m n}

theorem start : Exclusive (Server.start m n) where
  heldNodup := by simp [Server.start, Worker.held]
  heldOnce := by simp [Server.start, Worker.held]
  heldFresh := by simp [Server.start, Worker.held]
  disarmed := by simp [Server.start, Worker.held]
  epoll := by simp [Server.start]
  acceptor := by simp [Server.start, Acceptor.hidden]
  acceptorOnce := by simp [Server.start, Acceptor.hidden]
  hidden := by simp [Server.start, Acceptor.hidden]

/-- Registrations can go away. -/
theorem drop (h : Exclusive s) {epoll : Nat → Option Registration} (opened : Nat → Bool)
    (history : List Effect) (he : ∀ fd r, epoll fd = some r → s.epoll fd = some r) :
    Exclusive { s with opened := opened, epoll := epoll, history := history } :=
  { h with
    disarmed := fun i p hp fd hfd => h.disarmed i p hp fd (he fd _ hfd)
    epoll := fun fd r hr => h.epoll fd r (he fd r hr)
    hidden := fun a p ha =>
      ⟨fun fd r hr => (h.hidden a p ha).1 fd r (he fd r hr), (h.hidden a p ha).2⟩ }

theorem destroy (h : Exclusive s) (e : Effect) (p : Nat) : Exclusive (s.destroy e p) := by
  apply h.drop
  intro fd r hr
  by_cases hfd : fd = s.socket p
  · simp [hfd] at hr
  · simpa [Function.update_of_ne hfd] using hr

theorem release (h : Exclusive s) (ps : List Nat) : Exclusive (Server.release ps s) := by
  induction ps generalizing s with
  | nil => exact h
  | cons p ps ih => exact ih (h.destroy _ p)

/-- A worker goes on with some of what it holds. -/
theorem setWorker (h : Exclusive s) (i : Fin n) {x : Worker} (hx : x.held.Sublist (s.workers i).held) :
    Exclusive (s.setWorker i x) := by
  have hx' := sublist_setWorker hx
  exact { h with
    heldNodup := fun j => (h.heldNodup j).sublist (hx' j)
    heldOnce := fun j k p hj hk => h.heldOnce j k p ((hx' j).subset hj) ((hx' k).subset hk)
    heldFresh := fun j p hp => h.heldFresh j p ((hx' j).subset hp)
    disarmed := fun j p hp => h.disarmed j p ((hx' j).subset hp)
    hidden := fun a p ha =>
      ⟨(h.hidden a p ha).1, fun j hj => (h.hidden a p ha).2 j ((hx' j).subset hj)⟩ }

/-- An acceptor goes on with what it has, or shows it. -/
theorem setAcceptor (h : Exclusive s) (a : Fin m) {x : Acceptor}
    (hx : ∀ p, x.hidden = some p → (s.acceptors a).hidden = some p) : Exclusive (s.setAcceptor a x) := by
  have hhidden := of_setAcceptor hx
  exact { h with
    acceptor := fun b p hb => h.acceptor b p (hhidden b p hb)
    acceptorOnce := fun b c p hb hc => h.acceptorOnce b c p (hhidden b p hb) (hhidden c p hc)
    hidden := fun b p hb => h.hidden b p (hhidden b p hb) }

/-- A `Connection` that nobody holds is registered and armed. -/
theorem register (h : Exclusive s) {p : Nat} (hp : p < s.fresh) (hheld : ∀ i, p ∉ (s.workers i).held)
    (hhidden : ∀ a, (s.acceptors a).hidden ≠ some p) :
    Exclusive { s with epoll := Function.update s.epoll (s.socket p) (some ⟨p, true⟩) } := by
  have hcases : ∀ fd r, Function.update s.epoll (s.socket p) (some ⟨p, true⟩) fd = some r →
      r = ⟨p, true⟩ ∧ fd = s.socket p ∨ s.epoll fd = some r := by
    intro fd r hr
    by_cases hfd : fd = s.socket p
    · subst hfd
      simp only [Function.update_self, Option.some.injEq] at hr
      exact .inl ⟨hr.symm, rfl⟩
    · exact .inr (by simpa [Function.update_of_ne hfd] using hr)
  exact { h with
    disarmed := by
      intro i q hq fd hfd
      rcases hcases fd _ hfd with ⟨he, -⟩ | hfd
      · cases he
        exact hheld i hq
      · exact h.disarmed i q hq fd hfd
    epoll := by
      intro fd r hr
      rcases hcases fd r hr with ⟨he, hfd⟩ | hr
      · subst he
        exact ⟨hp, hfd.symm⟩
      · exact h.epoll fd r hr
    hidden := by
      intro a q ha
      refine ⟨?_, (h.hidden a q ha).2⟩
      intro fd r hr he
      rcases hcases fd r hr with ⟨hr, -⟩ | hr
      · subst hr
        subst he
        exact hhidden a ha
      · exact (h.hidden a q ha).1 fd r hr he }

theorem accept (h : Exclusive s) {a : Fin m} (infd : Nat) (opened : Nat → Bool) :
    Exclusive { s.setAcceptor a (.created s.fresh) with
      fresh := s.fresh + 1
      socket := Function.update s.socket s.fresh infd
      opened := opened } := by
  have hcases : ∀ b p, ((s.setAcceptor a (.created s.fresh)).acceptors b).hidden = some p →
      b = a ∧ p = s.fresh ∨ (s.acceptors b).hidden = some p := by
    intro b p hb
    by_cases hab : b = a
    · subst hab
      exact .inl ⟨rfl, by simpa [Server.setAcceptor, Acceptor.hidden, eq_comm] using hb⟩
    · exact .inr (by simpa [Server.setAcceptor, hab] using hb)
  exact { h with
    heldFresh := fun i p hp => Nat.lt_succ_of_lt (h.heldFresh i p hp)
    epoll := by
      intro fd r hr
      obtain ⟨hlt, hs⟩ := h.epoll fd r hr
      refine ⟨Nat.lt_succ_of_lt hlt, ?_⟩
      dsimp only
      rwa [Function.update_of_ne (Nat.ne_of_lt hlt)]
    acceptor := by
      intro b p hb
      rcases hcases b p hb with ⟨-, rfl⟩ | hb
      · exact Nat.lt_succ_self _
      · exact Nat.lt_succ_of_lt (h.acceptor b p hb)
    acceptorOnce := by
      intro b c p hb hc
      rcases hcases b p hb with ⟨hba, hp⟩ | hb' <;> rcases hcases c p hc with ⟨hca, hq⟩ | hc'
      · rw [hba, hca]
      · exact absurd (h.acceptor c p hc') (by simp [hp])
      · exact absurd (h.acceptor b p hb') (by simp [hq])
      · exact h.acceptorOnce b c p hb' hc'
    hidden := by
      intro b p hb
      rcases hcases b p hb with ⟨-, rfl⟩ | hb
      · exact ⟨fun fd r hr => Nat.ne_of_lt (h.epoll fd r hr).1,
          fun i hi => absurd (h.heldFresh i _ hi) (Nat.lt_irrefl _)⟩
      · exact h.hidden b p hb }

theorem wait (h : Exclusive s) {i : Fin n} {ready : List Nat} (hnd : ready.Nodup)
    (harmed : ∀ fd ∈ ready, (s.epoll fd).map Registration.armed = some true) :
    Exclusive { s.setWorker i (.handling (s.modList ready)) with epoll := s.disarm ready } := by
  have hmod : ∀ p ∈ s.modList ready, s.socket p ∈ ready ∧ s.epoll (s.socket p) = some ⟨p, true⟩ :=
    fun p hp => of_mem_modList h.epoll harmed hp
  -- a pointer that was armed is in nobody's hands
  have hnone : ∀ p ∈ s.modList ready, ∀ j, p ∉ (s.workers j).held :=
    fun p hp j hj => h.disarmed j p hj _ (hmod p hp).2
  exact { h with
    heldNodup := nodup_setWorker h.heldNodup (nodup_modList h.epoll hnd)
    heldOnce := once_setWorker h.heldOnce hnone
    heldFresh := by
      intro j p hp
      rcases held_setWorker hp with ⟨-, hp⟩ | ⟨-, hp⟩
      · exact (h.epoll _ _ (hmod p hp).2).1
      · exact h.heldFresh j p hp
    disarmed := by
      intro j p hp fd hfd
      obtain ⟨r', hr', hpr, hin, hout⟩ := of_disarm hfd
      by_cases hm : fd ∈ ready
      · simpa using hin hm
      · rcases held_setWorker hp with ⟨-, hp⟩ | ⟨-, hp⟩
        · -- the registration of the pointer is the one that was ready
          have hs := (h.epoll fd r' hr').2
          rw [hpr] at hs
          exact hm (hs ▸ (hmod p hp).1)
        · exact h.disarmed j p hp fd (hout hm ▸ hr')
    epoll := by
      intro fd r hr
      obtain ⟨r', hr', hp, -⟩ := of_disarm hr
      exact hp ▸ h.epoll fd r' hr'
    hidden := by
      intro a p ha
      obtain ⟨he, hw⟩ := h.hidden a p ha
      refine ⟨?_, ?_⟩
      · intro fd r hr
        obtain ⟨r', hr', hp, -⟩ := of_disarm hr
        exact hp ▸ he fd r' hr'
      · intro j hj
        rcases held_setWorker hj with ⟨-, hp⟩ | ⟨-, hp⟩
        · exact he _ _ (hmod p hp).2 rfl
        · exact hw j hp }

theorem added (h : Exclusive s) {a : Fin m} {pc : Nat} (ha : s.acceptors a = .created pc) :
    Exclusive { s.setAcceptor a (.added pc) with
      epoll := Function.update s.epoll (s.socket pc) (some ⟨pc, true⟩) } := by
  have hpc : (s.acceptors a).hidden = some pc := by simp [ha, Acceptor.hidden]
  have hnext : Exclusive (s.setAcceptor a (.added pc)) := h.setAcceptor a (by simp [Acceptor.hidden])
  exact hnext.register (h.acceptor a pc hpc) (h.hidden a pc hpc).2
    (ne_setAcceptor h.acceptorOnce hpc (by simp [Acceptor.hidden]) fun _ => id)

theorem rearmed (h : Exclusive s) {i : Fin n} {p : Nat} {ps : List Nat} {alive : Bool}
    (hi : s.workers i = .served p alive ps) :
    Exclusive { s.setWorker i (.handling ps) with
      epoll := Function.update s.epoll (s.socket p) (some ⟨p, true⟩) } := by
  have hp : p ∈ (s.workers i).held := by simp [hi, Worker.held]
  have hnd : p ∉ ps := (List.nodup_cons.mp (by simpa [hi, Worker.held] using h.heldNodup i)).1
  have hnext : Exclusive (s.setWorker i (.handling ps)) := h.setWorker i (by simp [hi, Worker.held])
  exact hnext.register (h.heldFresh i p hp) (notMem_setWorker h.heldOnce hp hnd)
    fun a ha => (h.hidden a p ha).2 i hp

/-- No step of any thread breaks it, whatever becomes of the objects. -/
theorem moves (h : Exclusive s) {a : Server.Step m n} {t : Server m n} (hm : s.Moves a t) :
    Exclusive t := by
  cases hm with
  | accept ha hfd => exact h.accept _ _
  | refused ha => exact h.setAcceptor _ (by simp [ha, Acceptor.hidden])
  | add ha => exact h.added ha
  | notInserted ha ht => exact (h.setAcceptor _ (by simp [Acceptor.hidden])).release _
  | @insert a pc ha =>
    have hidle : Exclusive (s.setAcceptor a .idle) := h.setAcceptor a (by simp [Acceptor.hidden])
    exact { hidle with }
  | discard ha => exact (h.setAcceptor _ (by simp [Acceptor.hidden])).destroy _ _
  | loop hi =>
    apply h.setWorker
    split <;> simp [Worker.held]
  | wait hi hnd harmed => exact h.wait hnd harmed
  | @dispatch i alive p ps hi =>
    have hnext : Exclusive (s.setWorker i (.served p alive ps)) :=
      h.setWorker i (by simp [hi, Worker.held])
    exact { hnext with }
  | rearmFailed hi => exact h.setWorker _ (by simp [hi, Worker.held])
  | rearm hi => exact h.rearmed hi
  | unregisterFailed hi => exact h.setWorker _ (by simp [hi, Worker.held])
  | @unregister i p ps hi =>
    have hnext : Exclusive (s.setWorker i (.closing p ps)) := h.setWorker i (by simp [hi, Worker.held])
    apply hnext.drop s.opened s.history
    intro fd r hr
    by_cases hfd : fd = s.socket p
    · simp [hfd] at hr
    · simpa [Server.setWorker, Function.update_of_ne hfd] using hr
  | delete hi => exact (h.setWorker _ (by simp [hi, Worker.held])).destroy _ _
  | stop hst => exact { h with }
  | @sweep next fd hst hit =>
    have hnext : Exclusive { s with connections := s.swapOut fd, stop := .sweeping (fd + 1) } := { h with }
    exact hnext.release _
  | clear hst hit =>
    have hnext : Exclusive { s with connections := [], stop := .after } := { h with }
    exact hnext.release _

end Exclusive

end Server

/-- The server with the masks of its connections. -/
structure Masked (m n : Nat) where
  server : Server m n
  /-- `_event.events` of each `Connection`. -/
  events : Nat → Mask
  /-- The mask the kernel has for each descriptor of the epoll set. -/
  registered : Nat → Mask

namespace Masked

def start (m n : Nat) : Masked m n := ⟨.start m n, fun _ => .assigned true false, fun _ => .assigned true false⟩

/-- A step of the server; for the handlers of an event also the last mask that `DoRead` and `DoWrite`
have assigned, by its `EPOLLOUT`, if they have assigned one. -/
structure Step (m n : Nat) where
  step : Server.Step m n
  assigned : Option Bool

/-- `EPOLL_CTL_ADD` or `EPOLL_CTL_MOD` with the event of a connection. -/
def control (x : Masked m n) (t : Server m n) (p : Nat) (events : Mask) (ok : Bool) : Masked m n :=
  ⟨t, Function.update x.events p events,
    if ok then Function.update x.registered (x.server.socket p) events else x.registered⟩

/-- The kernel disarms the descriptors that were registered with `EPOLLONESHOT`, and no others. -/
def delivered (x : Masked m n) (t : Server m n) (ready : List Nat) : Server m n :=
  { t with epoll := fun fd =>
      if fd ∈ ready ∧ (x.registered fd).epolloneshot = false then x.server.epoll fd else t.epoll fd }

/-- What a step of the server does to the masks; with the mask that is passed to `epoll_ctl`. -/
def update (a : Step m n) (x : Masked m n) (t : Server m n) : Option Mask × Masked m n :=
  match a.step with
  | .accept _ _ =>
    -- Start
    (none, { x with server := t, events := Function.update x.events x.server.fresh (.assigned true false) })
  | .add c ok =>
    match x.server.acceptors c with
    | .created pc =>
      let events := { x.events pc with epollet := true, epolloneshot := true }
      (some events, x.control t pc events ok)
    | _ => (none, { x with server := t })
  | .wait _ ready => (none, { x with server := x.delivered t ready })
  | .dispatch i _ =>
    match x.server.workers i with
    | .handling (p :: _) =>
      (none, { x with
        server := t
        events := Function.update x.events p (a.assigned.elim (x.events p) (.assigned true)) })
    | _ => (none, { x with server := t })
  | .rearm i ok =>
    match x.server.workers i with
    | .served p _ _ =>
      let events := { x.events p with epolloneshot := true }
      (some events, x.control t p events ok)
    | _ => (none, { x with server := t })
  | _ => (none, { x with server := t })

def step (a : Step m n) (x : Masked m n) : Option (Option Mask × Masked m n) :=
  (Server.step a.step x.server).map fun (_, t) => x.update a t

/-- The mask is still the old one, or one that `DoRead` or `DoWrite` has assigned. -/
def Reassigned (old new : Mask) : Prop :=
  ∃ assigned : Option Bool, new = assigned.elim old (.assigned true)

section Handlers

open Execute

variable {σ : Type} {S : Storage σ} {c : Polled σ} {old : Mask}

theorem doRead_reassigned (h : Reassigned old c.output.events) (chunks : List Bytes) (last : ReadEnd) :
    Reassigned old (c.doRead S true chunks last).output.events := by
  refine Conn.readLoop_preserves (P := fun o : Output => Reassigned old o.events) ⟨fun _ h => h, ?_⟩ _
    h chunks
  intro result o o' _ hr
  cases hr
  exact ⟨some true, rfl⟩

theorem doWrite_reassigned (h : Reassigned old c.output.events) (sendResult : Int) :
    Reassigned old (c.doWrite true sendResult).output.events := by
  simp only [Polled.doWrite]
  split_ifs
  · exact h
  · exact ⟨some false, rfl⟩
  · exact ⟨some true, rfl⟩

/-- The steps of this model cover what the handlers of an event do to the mask. -/
theorem dispatch_reassigned (S : Storage σ) (e : Reported) (c : Polled σ) :
    Reassigned c.output.events (Loop.mtNonblock.dispatch S e c).output.events := by
  have hsame : Reassigned c.output.events c.output.events := ⟨none, rfl⟩
  have hread : Reassigned c.output.events
      (if e.epollin then c.doRead S true e.chunks e.last else c).output.events := by
    split_ifs
    · exact doRead_reassigned hsame _ _
    · exact hsame
  simp only [Loop.dispatch, Loop.epollerr]
  split_ifs at hread ⊢
  all_goals first
    | exact hsame
    | exact hread
    | exact doWrite_reassigned hread _

end Handlers

/-- All registrations are for one shot. -/
def Oneshot (x : Masked m n) : Prop :=
  ∀ fd, x.server.epoll fd ≠ none → (x.registered fd).epolloneshot = true

theorem release_epoll (ps : List Nat) (s : Server m n) {fd : Nat}
    (h : (Server.release ps s).epoll fd ≠ none) : s.epoll fd ≠ none := by
  induction ps generalizing s with
  | nil => exact h
  | cons p ps ih =>
    have hd := ih _ h
    by_cases hfd : fd = s.socket p
    · simp [Server.destroy, hfd] at hd
    · simpa [Server.destroy, Function.update_of_ne hfd] using hd

/-- Where all registrations are for one shot, the kernel disarms what it delivers. -/
theorem delivered_eq {x : Masked m n} (h : x.Oneshot) {ready : List Nat} (t : Server m n)
    (harmed : ∀ fd ∈ ready, (x.server.epoll fd).map Registration.armed = some true) :
    x.delivered t ready = t := by
  have hepoll : (x.delivered t ready).epoll = t.epoll := by
    funext fd
    have hno : ¬ (fd ∈ ready ∧ (x.registered fd).epolloneshot = false) := by
      intro hc
      have hsome : x.server.epoll fd ≠ none := by
        intro hnone
        simpa [hnone] using harmed fd hc.1
      simp [h fd hsome] at hc
    simp only [delivered, if_neg hno]
  exact congrArg (fun epoll => { t with epoll := epoll }) hepoll

/-- A registration that is made for one shot keeps all of them so. -/
theorem control_oneshot {x : Masked m n} (h : x.Oneshot) {t : Server m n} {p : Nat} {mask : Mask}
    {ok : Bool} (hm : mask.epolloneshot = true)
    (ht : ∀ fd, t.epoll fd ≠ none → x.server.epoll fd ≠ none ∨ ok = true ∧ fd = x.server.socket p) :
    (x.control t p mask ok).Oneshot := by
  intro fd hfd
  cases ok with
  | false =>
    simp only [control, Bool.false_eq_true, if_false]
    exact h fd ((ht fd hfd).resolve_right (by simp))
  | true =>
    simp only [control, if_true]
    by_cases hp : fd = x.server.socket p
    · rw [hp, Function.update_self]
      exact hm
    · rw [Function.update_of_ne hp]
      exact h fd ((ht fd hfd).resolve_right fun hc => hp hc.2)

theorem update_epoll {epoll : Nat → Option Registration} {fd fd' : Nat} {r : Option Registration}
    (h : Function.update epoll fd' r fd ≠ none) : epoll fd ≠ none ∨ fd = fd' := by
  by_cases hfd : fd = fd'
  · exact .inr hfd
  · exact .inl (by simpa [Function.update_of_ne hfd] using h)

/-- One step with masks is a step of the server, and passes only masks with `EPOLLONESHOT` on. -/
theorem update_oneshot {x : Masked m n} (h : x.Oneshot) {a : Step m n} {t : Server m n}
    (hm : x.server.Moves a.step t) :
    (x.update a t).2.server = t ∧ (x.update a t).2.Oneshot ∧
      ∀ mask, (x.update a t).1 = some mask → mask.epolloneshot = true := by
  obtain ⟨a, assigned⟩ := a
  cases hm with
  | accept ha hfd => exact ⟨rfl, h, by simp [update]⟩
  | refused ha =>
    simp only [update, ha]
    exact ⟨rfl, control_oneshot h rfl fun fd hfd => .inl hfd, fun mask hmask => by cases hmask; rfl⟩
  | add ha =>
    simp only [update, ha]
    refine ⟨rfl, control_oneshot h rfl fun fd hfd => ?_, fun mask hmask => by cases hmask; rfl⟩
    exact (update_epoll hfd).imp_right fun he => ⟨rfl, he⟩
  | notInserted ha ht =>
    exact ⟨rfl, fun fd hfd => h fd (release_epoll [_] (x.server.setAcceptor _ .idle) hfd),
      by simp [update]⟩
  | insert ha => exact ⟨rfl, h, by simp [update]⟩
  | discard ha =>
    exact ⟨rfl, fun fd hfd => h fd (release_epoll [_] (x.server.setAcceptor _ .idle) hfd),
      by simp [update]⟩
  | loop hi => exact ⟨rfl, h, by simp [update]⟩
  | wait hi hnd harmed =>
    simp only [update, delivered_eq h _ harmed]
    refine ⟨trivial, fun fd hfd => h fd ?_, by simp⟩
    intro hnone
    simp [Server.disarm, hnone] at hfd
  | dispatch hi =>
    simp only [update, hi]
    exact ⟨trivial, h, by simp⟩
  | rearmFailed hi =>
    simp only [update, hi]
    exact ⟨rfl, control_oneshot h rfl fun fd hfd => .inl hfd, fun mask hmask => by cases hmask; rfl⟩
  | rearm hi =>
    simp only [update, hi]
    refine ⟨rfl, control_oneshot h rfl fun fd hfd => ?_, fun mask hmask => by cases hmask; rfl⟩
    exact (update_epoll hfd).imp_right fun he => ⟨rfl, he⟩
  | unregisterFailed hi => exact ⟨rfl, h, by simp [update]⟩
  | @unregister i p ps hi =>
    refine ⟨rfl, fun fd hfd => h fd ?_, by simp [update]⟩
    by_cases hp : fd = x.server.socket p
    · simp [update, hp] at hfd
    · simpa [update, Server.setWorker, Function.update_of_ne hp] using hfd
  | delete hi =>
    exact ⟨rfl, fun fd hfd => h fd (release_epoll [_] (x.server.setWorker _ _) hfd), by simp [update]⟩
  | stop hst => exact ⟨rfl, h, by simp [update]⟩
  | sweep hst hit =>
    refine ⟨rfl, fun fd hfd => ?_, by simp [update]⟩
    have hbefore := release_epoll _ _ hfd
    exact h fd hbefore
  | clear hst hit =>
    refine ⟨rfl, fun fd hfd => ?_, by simp [update]⟩
    have hbefore := release_epoll _ _ hfd
    exact h fd hbefore

end Masked

/-- `DoRead` and `DoWrite` drop `EPOLLONESHOT` from the mask, but every mask that goes to epoll has it;
so each `Connection` has at any time one worker at most that has an event for it or has not rearmed
it yet. -/
theorem one_worker_per_connection (steps : List (Masked.Step m n)) (masks : List (Option Mask))
    (x : Masked m n) (hr : run Masked.step steps (.start m n) = some (masks, x)) :
    (∀ mask, some mask ∈ masks → mask.epolloneshot = true) ∧
    (∀ i, (x.server.workers i).held.Nodup) ∧
    ∀ i j p, p ∈ (x.server.workers i).held → p ∈ (x.server.workers j).held → i = j := by
  obtain ⟨⟨hx, -⟩, hmasks⟩ := run_outputs Masked.step (fun _ _ => True)
    (fun x => x.server.Exclusive ∧ x.Oneshot)
    (fun out => ∀ mask, out = some mask → mask.epolloneshot = true)
    (fun a x out y hi _ hs => by
      obtain ⟨⟨u, t⟩, ht, he⟩ := Option.map_eq_some_iff.mp hs
      have he : x.update a t = (out, y) := he
      have hm := Server.moves_of_step ht
      obtain ⟨hserver, hone, hout⟩ := Masked.update_oneshot hi.2 hm
      rw [he] at hserver hone hout
      dsimp only at hserver hone hout
      exact ⟨⟨hserver ▸ hi.1.moves hm, hone⟩, hout⟩)
    steps _ x masks ⟨Server.Exclusive.start, by simp [Masked.Oneshot, Masked.start, Server.start]⟩
    (AllSteps.of_forall (fun _ _ _ => trivial) _) hr
  exact ⟨fun mask hm => hmasks _ hm mask rfl, hx.heldNodup, hx.heldOnce⟩

/-- Two workers and one connection: the second one gets its next event after the first has
rearmed it. -/
theorem one_worker_per_connection_two :
    let steps : List (Masked.Step 1 2) := [⟨.accept 0 5, none⟩, ⟨.add 0 true, none⟩, ⟨.insert 0, none⟩,
      ⟨.loop 0, none⟩, ⟨.loop 1, none⟩, ⟨.wait 0 [5], none⟩, ⟨.dispatch 0 true, some true⟩,
      ⟨.rearm 0 true, none⟩, ⟨.wait 1 [5], none⟩]
    ∃ masks x, run Masked.step steps (.start 1 2) = some (masks, x) ∧
      masks.filterMap id = [⟨⟨true, false, true, true⟩, true, true⟩, ⟨⟨true, true, true, true⟩, false, true⟩] ∧
      (∀ mask, some mask ∈ masks → mask.epolloneshot = true) ∧
      (∀ i, (x.server.workers i).held.Nodup) ∧
      ∀ i j p, p ∈ (x.server.workers i).held → p ∈ (x.server.workers j).held → i = j := by
  intro steps
  exact ⟨_, _, rfl, by decide, one_worker_per_connection steps _ _ rfl⟩

end Sysprog.Network
