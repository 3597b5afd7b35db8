import Sysprog.Network.StNonblock

namespace Sysprog.Network.STnonblock

def Event.pc : Event → Option Nat
  | connection pc => some pc
  | eventFd | serverSocket => none

/-- The pointers `OnRun` has from epoll and is not done with. -/
def OnRun.held : OnRun → List Nat
  | waiting | stopped => []
  | handling es | accepting es => es.filterMap Event.pc
  | served pc _ _ es => pc :: es.filterMap Event.pc

/-- The connection whose handlers have just returned. -/
def OnRun.inHand : OnRun → List Nat
  | served pc _ _ _ => [pc]
  | waiting | stopped | handling _ | accepting _ => []

namespace Server

/-- The pointers that `Stop` destroys in its next step. -/
def swept (s : Server) : List Nat :=
  match s.stop with
  | .standing fd => s.pointerAt fd
  | .swept => pointers s.connections
  | _ => []

/-- A changed mask is accepted by the kernel, `Stop` destroys a connection only when `OnRun` has no
pointer to it, and `OnRun` does not erase the entry that the iterator of `Stop` is on. -/
def Undisturbed : Step → Server → Prop
  | .change ok, _ => ok = true
  | .close _, s => ∀ p ∈ s.onRun.inHand, s.socket p ∉ s.stop.entry
  | .stop, s => ∀ p ∈ s.swept, p ∉ s.onRun.held
  | _, _ => True

instance : ∀ a s, Decidable (Undisturbed a s)
  | .change ok, _ => inferInstanceAs (Decidable (ok = true))
  | .close _, s => inferInstanceAs (Decidable (∀ p ∈ s.onRun.inHand, s.socket p ∉ s.stop.entry))
  | .stop, s => inferInstanceAs (Decidable (∀ p ∈ s.swept, p ∉ s.onRun.held))
  | .loop, _ | .wait _, _ | .wakeup, _ | .onNewConnection, _ | .accept _ _, _ | .noMore, _
  | .dispatch _ _, _ | .keep, _ => inferInstanceAs (Decidable True)

/-- No connection is destroyed twice, no method is called on a destroyed one, and what has left
`_connections` is out of the epoll set or closed. -/
structure Lifetime (s : Server) : Prop where
  once : s.destroyed.Nodup
  misused : s.misused = []
  removed : ∀ p ∈ s.inserted, p ∉ pointers s.connections →
    (∀ fd, s.epoll fd ≠ some p) ∨ p ∈ s.destroyed

/-- The map owns the connections that exist, and whatever else refers to one refers to these. -/
structure Inv (s : Server) : Prop where
  nodup : (pointers s.connections).Nodup
  live : ∀ p ∈ pointers s.connections, p < s.fresh ∧ p ∉ s.destroyed
  born : ∀ p ∈ s.destroyed, p < s.fresh
  once : s.destroyed.Nodup
  key : ∀ fd p, (fd, some p) ∈ s.connections → s.socket p = fd
  keys : (s.connections.map Prod.fst).Nodup
  epoll : ∀ fd p, s.epoll fd = some p → p ∈ pointers s.connections ∧ s.socket p = fd
  held : ∀ p ∈ s.onRun.held, p ∈ pointers s.connections
  heldNodup : s.onRun.held.Nodup
  inserted : ∀ p ∈ s.inserted, p ∈ pointers s.connections ∨ p ∈ s.destroyed
  misused : s.misused = []
  iterator : s.stop ≠ .dangling

theorem mem_pointers {cs : List (Nat × Option Nat)} {p : Nat} :
    p ∈ pointers cs ↔ ∃ fd, (fd, some p) ∈ cs := by
  simp [pointers]

theorem call_eq {s : Server} {p : Nat} (h : p ∉ s.destroyed) : s.call p = s := by simp [call, h]

/-- What a `release` changes. -/
theorem release_eq (s : Server) (ps : List Nat) :
    ∃ opened epoll, s.release ps = { s with
      opened := opened, epoll := epoll, destroyed := s.destroyed ++ ps } ∧
    ∀ fd q, epoll fd = some q → s.epoll fd = some q ∧ ∀ p ∈ ps, s.socket p ≠ fd := by
  induction ps generalizing s with
  | nil => exact ⟨s.opened, s.epoll, by simp [release], by simp⟩
  | cons p ps ih =>
    obtain ⟨opened, epoll, heq, hepoll⟩ := ih (s.destroy p)
    refine ⟨opened, epoll, ?_, ?_⟩
    · change (s.destroy p).release ps = _
      rw [heq]
      simp [destroy]
    · intro fd q hq
      obtain ⟨hd, hps⟩ := hepoll fd q hq
      have hne : s.socket p ≠ fd := by
        intro he
        simp [destroy, he] at hd
      refine ⟨by simpa [destroy, Function.update_of_ne (Ne.symm hne)] using hd, ?_⟩
      intro r hr
      rcases List.mem_cons.mp hr with rfl | hr
      · exact hne
      · exact hps r hr

namespace Inv

variable {s : Server}

theorem start : Inv Server.start := by
  constructor <;> simp [Server.start, pointers, OnRun.held]

theorem lifetime (h : Inv s) : Lifetime s :=
  ⟨h.once, h.misused, fun p hp hm => .inr ((h.inserted p hp).resolve_left hm)⟩

/-- `OnRun` goes on with some of what it holds. -/
theorem setOnRun (h : Inv s) {x : OnRun} (hx : x.held.Sublist s.onRun.held) :
    Inv { s with onRun := x } :=
  { h with
    held := fun p hp => h.held p (hx.subset hp)
    heldNodup := h.heldNodup.sublist hx }

/-- A method of a connection that exists. -/
theorem call (h : Inv s) {p : Nat} (hp : p ∉ s.destroyed) : Inv (s.call p) := by
  rwa [call_eq hp]

/-- The map gives up some of its pointers and they are destroyed; nothing else has them. -/
theorem remove (h : Inv s) {ps : List Nat} {cs : List (Nat × Option Nat)} {stop : Stop}
    (epoll : Nat → Option Nat) (hperm : (ps ++ pointers cs).Perm (pointers s.connections))
    (hsub : ∀ fd p, (fd, some p) ∈ cs → (fd, some p) ∈ s.connections)
    (hstop : stop ≠ .dangling) (hkeys : (cs.map Prod.fst).Nodup) (hepoll : ∀ fd p, epoll fd = some p → s.epoll fd = some p)
    (hheld : ∀ p ∈ s.onRun.held, p ∉ ps) :
    Inv ({ s with epoll := epoll, connections := cs, stop := stop }.release ps) := by
  obtain ⟨opened, epoll', heq, hdrop⟩ :=
    release_eq { s with epoll := epoll, connections := cs, stop := stop } ps
  obtain ⟨hndps, hndcs, hdisj⟩ := List.nodup_append.mp (hperm.nodup_iff.mpr h.nodup)
  have hmem : ∀ p, p ∈ pointers s.connections → p ∉ ps → p ∈ pointers cs := by
    intro p hp hps
    exact (List.mem_append.mp (hperm.mem_iff.mpr hp)).resolve_left hps
  have hold : ∀ p ∈ ps, p ∈ pointers s.connections :=
    fun p hp => hperm.mem_iff.mp (List.mem_append_left _ hp)
  have hnew : ∀ p ∈ pointers cs, p ∈ pointers s.connections :=
    fun p hp => hperm.mem_iff.mp (List.mem_append_right _ hp)
  rw [heq]
  exact {
    nodup := hndcs
    live := by
      intro p hp
      obtain ⟨hlt, hd⟩ := h.live p (hnew p hp)
      refine ⟨hlt, ?_⟩
      intro hm
      rcases List.mem_append.mp hm with hm | hm
      · exact hd hm
      · exact hdisj p hm p hp rfl
    born := by
      intro p hp
      rcases List.mem_append.mp hp with hp | hp
      · exact h.born p hp
      · exact (h.live p (hold p hp)).1
    once := by
      refine List.nodup_append.mpr ⟨h.once, hndps, ?_⟩
      intro p hp q hq he
      exact (h.live q (hold q hq)).2 (he ▸ hp)
    key := fun fd p hp => h.key fd p (hsub fd p hp)
    keys := hkeys
    epoll := by
      intro fd p hp
      obtain ⟨hep, hps⟩ := hdrop fd p hp
      obtain ⟨hm, hs⟩ := h.epoll fd p (hepoll fd p hep)
      exact ⟨hmem p hm fun hp => hps p hp hs, hs⟩
    held := fun p hp => hmem p (h.held p hp) (hheld p hp)
    heldNodup := h.heldNodup
    inserted := by
      intro p hp
      by_cases hps : p ∈ ps
      · exact .inr (List.mem_append_right _ hps)
      · rcases h.inserted p hp with hm | hd
        · exact .inl (hmem p hm hps)
        · exact .inr (List.mem_append_left _ hd)
    misused := h.misused
    iterator := hstop }

theorem pointerAt_perm (s : Server) (fd : Nat) :
    (s.pointerAt fd ++ pointers (s.without fd)).Perm (pointers s.connections) := by
  have hperm := (List.filter_append_perm (fun e : Nat × Option Nat => decide (e.1 = fd)) s.connections)
  have hmap := hperm.filterMap Prod.snd
  simpa [pointerAt, without, pointers, List.filterMap_append] using hmap

theorem pointers_swapOut (s : Server) (fd : Nat) :
    pointers (s.swapOut fd) = pointers (s.without fd) := by
  simp only [swapOut, without, pointers]
  induction s.connections with
  | nil => rfl
  | cons e es ih =>
    obtain ⟨k, p⟩ := e
    by_cases hk : k = fd
    · simpa [hk] using ih
    · cases p <;> simpa [hk] using ih

/-- The entry of a connection that exists is its own, and no other has its descriptor. -/
theorem pointerAt_socket (h : Inv s) {p : Nat} (hp : p ∈ pointers s.connections) :
    s.pointerAt (s.socket p) = [p] := by
  obtain ⟨fd, hm⟩ := mem_pointers.mp hp
  obtain rfl := h.key fd p hm
  obtain ⟨cs, ds, hsplit⟩ := List.append_of_mem hm
  have hk := h.keys
  rw [hsplit, List.map_append, List.map_cons, List.nodup_append, List.nodup_cons] at hk
  have hcs : cs.filter (fun e => e.1 = s.socket p) = [] := by
    apply List.filter_eq_nil_iff.mpr
    intro e he hfd
    exact hk.2.2 e.1 (List.mem_map_of_mem he) _ List.mem_cons_self (by simpa using hfd)
  have hds : ds.filter (fun e => e.1 = s.socket p) = [] := by
    apply List.filter_eq_nil_iff.mpr
    intro e he hfd
    have hfd : e.1 = s.socket p := by simpa using hfd
    have hmem : e.1 ∈ ds.map Prod.fst := List.mem_map_of_mem he
    exact hk.2.1.1 (hfd ▸ hmem)
  simp [pointerAt, hsplit, List.filter_append, hcs, hds, pointers]

theorem created (h : Inv s) (infd : Nat) : Inv (s.created infd) := by
  have hsocket : ∀ p, p < s.fresh → (s.created infd).socket p = s.socket p := by
    intro p hp
    exact Function.update_of_ne (Nat.ne_of_lt hp) ..
  exact { h with
    live := fun p hp => ⟨Nat.lt_succ_of_lt (h.live p hp).1, (h.live p hp).2⟩
    born := fun p hp => Nat.lt_succ_of_lt (h.born p hp)
    key := by
      intro fd p hp
      rw [hsocket p (h.live p (mem_pointers.mpr ⟨fd, hp⟩)).1]
      exact h.key fd p hp
    epoll := by
      intro fd p hp
      obtain ⟨hm, hs⟩ := h.epoll fd p hp
      rw [hsocket p (h.live p hm).1]
      exact ⟨hm, hs⟩ }

/-- An object that the map does not own is destroyed. -/
theorem discard (h : Inv s) {p : Nat} (hlt : p < s.fresh) (hd : p ∉ s.destroyed)
    (hm : p ∉ pointers s.connections) : Inv (s.destroy p) :=
  { h with
    live := by
      intro q hq
      refine ⟨(h.live q hq).1, ?_⟩
      intro hmem
      rcases List.mem_append.mp hmem with hmem | hmem
      · exact (h.live q hq).2 hmem
      · exact hm (List.mem_singleton.mp hmem ▸ hq)
    born := by
      intro q hq
      rcases List.mem_append.mp hq with hq | hq
      · exact h.born q hq
      · exact List.mem_singleton.mp hq ▸ hlt
    once := by
      change (s.destroyed ++ [p]).Nodup
      rw [← List.concat_eq_append]
      exact h.once.concat hd
    epoll := by
      intro fd q hq
      have hne : fd ≠ s.socket p := by
        intro he
        simp [Server.destroy, he] at hq
      exact h.epoll fd q (by simpa [Server.destroy, Function.update_of_ne hne] using hq)
    inserted := fun q hq => (h.inserted q hq).imp_right (List.mem_append_left _) }

/-- An object that exists gets its entry and its registration. -/
theorem insert (h : Inv s) {p : Nat} (hlt : p < s.fresh) (hd : p ∉ s.destroyed)
    (hm : p ∉ pointers s.connections) (hkey : s.socket p ∉ s.connections.map Prod.fst) :
    Inv { s with
      epoll := Function.update s.epoll (s.socket p) (some p)
      connections := s.connections ++ [(s.socket p, some p)]
      inserted := s.inserted ++ [p] } := by
  have hpointers : pointers (s.connections ++ [(s.socket p, some p)]) = pointers s.connections ++ [p] := by
    simp [pointers]
  have hmem : ∀ q, q ∈ pointers s.connections → q ∈ pointers (s.connections ++ [(s.socket p, some p)]) := by
    intro q hq
    rw [hpointers]
    exact List.mem_append_left _ hq
  have hown : p ∈ pointers (s.connections ++ [(s.socket p, some p)]) := by simp [hpointers]
  exact { h with
    nodup := by
      rw [hpointers, ← List.concat_eq_append]
      exact h.nodup.concat hm
    live := by
      intro q hq
      rw [hpointers] at hq
      rcases List.mem_append.mp hq with hq | hq
      · exact h.live q hq
      · rw [List.mem_singleton.mp hq]
        exact ⟨hlt, hd⟩
    key := by
      intro fd q hq
      rcases List.mem_append.mp hq with hq | hq
      · exact h.key fd q hq
      · cases List.mem_singleton.mp hq
        rfl
    keys := by
      rw [List.map_append, List.map_singleton, ← List.concat_eq_append]
      exact h.keys.concat hkey
    epoll := by
      intro fd q hq
      by_cases hfd : fd = s.socket p
      · subst hfd
        simp only [Function.update_self, Option.some.injEq] at hq
        subst hq
        exact ⟨hown, rfl⟩
      · simp only [Function.update_of_ne hfd] at hq
        exact ⟨hmem q (h.epoll fd q hq).1, (h.epoll fd q hq).2⟩
    held := fun q hq => hmem q (h.held q hq)
    inserted := by
      intro q hq
      rcases List.mem_append.mp hq with hq | hq
      · exact (h.inserted q hq).imp_left (hmem q)
      · rw [List.mem_singleton.mp hq]
        exact .inl hown }

theorem fresh_notMem (h : Inv s) : s.fresh ∉ s.destroyed ∧ s.fresh ∉ pointers s.connections :=
  ⟨fun hd => Nat.lt_irrefl _ (h.born _ hd), fun hm => Nat.lt_irrefl _ (h.live _ hm).1⟩

theorem accept (h : Inv s) (infd : Nat) : Inv (((s.created infd).call s.fresh).register s.fresh) := by
  obtain ⟨hd, hm⟩ := h.fresh_notMem
  have hc := h.created infd
  have hcall := call_eq (s := s.created infd) hd
  have hlt : s.fresh < (s.created infd).fresh := Nat.lt_succ_self _
  rw [hcall]
  unfold register
  dsimp only
  split_ifs with htaken
  · -- the registration goes with the descriptor
    have heq : Server.destroy { s.created infd with
        epoll := Function.update (s.created infd).epoll ((s.created infd).socket s.fresh) (some s.fresh) }
        s.fresh = (s.created infd).destroy s.fresh := by
      simp [Server.destroy]
    rw [heq]
    exact hc.discard hlt hd hm
  · apply hc.insert hlt hd hm
    intro hk
    obtain ⟨e, he, hfd⟩ := List.mem_map.mp hk
    exact htaken (List.any_eq_true.mpr ⟨e, he, by simpa using hfd⟩)

theorem refused (h : Inv s) (infd : Nat) : Inv (((s.created infd).call s.fresh).destroy s.fresh) := by
  obtain ⟨hd, hm⟩ := h.fresh_notMem
  have hcall := call_eq (s := s.created infd) hd
  rw [hcall]
  exact (h.created infd).discard (Nat.lt_succ_self _) hd hm

theorem wait (h : Inv s) {ready : List Ready} (hnd : ready.Nodup) :
    Inv { s with onRun := .handling (ready.filterMap s.event) } := by
  have hevent : ∀ r p, s.event r = some (.connection p) → ∃ fd, r = .descriptor fd ∧ s.epoll fd = some p := by
    intro r p hr
    cases r with
    | eventFd =>
      simp only [event] at hr
      split_ifs at hr
      cases hr
    | serverSocket => cases hr
    | descriptor fd => exact ⟨fd, rfl, by simpa [event] using hr⟩
  have hpc : ∀ r p, (s.event r).bind Event.pc = some p → s.event r = some (.connection p) := by
    intro r p hr
    obtain ⟨e, he, hp⟩ := Option.bind_eq_some_iff.mp hr
    cases e with
    | connection q =>
      cases hp
      exact he
    | eventFd => cases hp
    | serverSocket => cases hp
  have hheld : OnRun.held (.handling (ready.filterMap s.event)) =
      ready.filterMap fun r => (s.event r).bind Event.pc := by
    simp [OnRun.held, List.filterMap_filterMap]
  exact { h with
    held := by
      intro p hp
      rw [hheld] at hp
      obtain ⟨r, -, hr⟩ := List.mem_filterMap.mp hp
      obtain ⟨fd, -, he⟩ := hevent r p (hpc r p hr)
      exact (h.epoll fd p he).1
    heldNodup := by
      rw [hheld]
      apply hnd.filterMap
      intro r r' p hr hr'
      obtain ⟨fd, rfl, he⟩ := hevent r p (hpc r p hr)
      obtain ⟨fd', rfl, he'⟩ := hevent r' p (hpc r' p hr')
      rw [← (h.epoll fd p he).2, (h.epoll fd' p he').2] }

theorem closeDead (h : Inv s) {p : Nat} (hp : p ∈ pointers s.connections) (hheld : p ∉ s.onRun.held)
    (hentry : s.socket p ∉ s.stop.entry) (ok : Bool) : Inv (s.closeDead p ok) := by
  let epoll := if ok then Function.update s.epoll (s.socket p) none else s.epoll
  have hcall := call_eq (s := { s with epoll := epoll }.erase (s.socket p)) (h.live p hp).2
  change Inv ((({ s with epoll := epoll }.erase (s.socket p)).call p).release
    (s.pointerAt (s.socket p)))
  rw [hcall]
  change Inv ({ s with
    epoll := epoll
    connections := s.without (s.socket p)
    stop := s.stop.erase (s.socket p) }.release (s.pointerAt (s.socket p)))
  apply h.remove
  · exact pointerAt_perm s (s.socket p)
  · intro fd q hq
    exact (List.mem_filter.mp hq).1
  · rw [Stop.erase, if_neg hentry]
    exact h.iterator
  · exact h.keys.sublist (List.filter_sublist.map _)
  · intro fd q hq
    simp only [epoll] at hq
    split_ifs at hq
    · by_cases hfd : fd = s.socket p
      · simp [hfd] at hq
      · simpa [Function.update_of_ne hfd] using hq
    · exact hq
  · intro q hq hm
    rw [h.pointerAt_socket hp] at hm
    exact hheld (List.mem_singleton.mp hm ▸ hq)

theorem sweep (h : Inv s) {fd : Nat} (hheld : ∀ p ∈ s.pointerAt fd, p ∉ s.onRun.held) :
    Inv ({ s with connections := s.swapOut fd, stop := .passed fd }.release (s.pointerAt fd)) := by
  apply h.remove s.epoll
  · rw [pointers_swapOut]
    exact pointerAt_perm s fd
  · intro fd' p hm
    obtain ⟨e, he, heq⟩ := List.mem_map.mp hm
    split_ifs at heq
    · cases heq
    · exact heq ▸ he
  · simp
  · have hsame : (s.swapOut fd).map Prod.fst = s.connections.map Prod.fst := by
      rw [swapOut, List.map_map]
      apply List.map_congr_left
      intro e _
      simp only [Function.comp_apply]
      split_ifs <;> rfl
    rw [hsame]
    exact h.keys
  · exact fun _ _ he => he
  · exact fun p hp hm => hheld p hm hp

theorem clear (h : Inv s) (hheld : ∀ p ∈ pointers s.connections, p ∉ s.onRun.held) :
    Inv ({ s with connections := [], stop := .after }.release (pointers s.connections)) := by
  apply h.remove s.epoll
  · simp [pointers]
  · simp
  · simp
  · simp
  · exact fun _ _ he => he
  · exact fun p hp hm => hheld p hm hp

theorem moves (h : Inv s) {a : Step} {t : Server} (hu : Undisturbed a s) (hm : s.Moves a t) : Inv t := by
  cases hm with
  | loop ho =>
    apply h.setOnRun
    split <;> simp [OnRun.held]
  | wait ho hnd => exact h.wait hnd
  | @wakeup es ho =>
    have hnext : Inv { s with onRun := .handling es } := h.setOnRun (by simp [ho, OnRun.held, List.filterMap_cons, Event.pc])
    exact { hnext with }
  | onNewConnection ho => exact h.setOnRun (by simp [ho, OnRun.held, List.filterMap_cons, Event.pc])
  | accept ho => exact h.accept _
  | @refused infd es ho =>
    have hnext : Inv { s with onRun := .handling es } := h.setOnRun (by simp [ho, OnRun.held])
    exact hnext.refused infd
  | noMore ho => exact h.setOnRun (by simp [ho, OnRun.held])
  | @dispatch alive changed pc es ho =>
    have hnext : Inv { s with onRun := .served pc alive changed es } :=
      h.setOnRun (by simp [ho, OnRun.held, Event.pc])
    exact hnext.call (h.live pc (h.held pc (by simp [ho, OnRun.held, Event.pc]))).2
  | @close ok changed pc es ho =>
    have hnext : Inv { s with onRun := .handling es } := h.setOnRun (by simp [ho, OnRun.held])
    have hnd := h.heldNodup
    rw [ho, OnRun.held, List.nodup_cons] at hnd
    have hentry : s.socket pc ∉ s.stop.entry := hu pc (by simp [ho, OnRun.inHand])
    exact hnext.closeDead (h.held pc (by simp [ho, OnRun.held])) hnd.1 hentry ok
  | @changed pc es ho =>
    have hnext : Inv { s with onRun := .handling es } := h.setOnRun (by simp [ho, OnRun.held])
    exact hnext.call (h.live pc (h.held pc (by simp [ho, OnRun.held]))).2
  | changeFailed ho => cases hu
  | @keep pc es ho =>
    have hnext : Inv { s with onRun := .handling es } := h.setOnRun (by simp [ho, OnRun.held])
    exact hnext.call (h.live pc (h.held pc (by simp [ho, OnRun.held]))).2
  | stop hst => exact { h with iterator := by simp }
  | @iterate fd => exact { h with iterator := by cases fd <;> simp [Stop.of] }
  | sweep hst => exact h.sweep fun p hp => hu p (by simpa [swept, hst] using hp)
  | clear hst => exact h.clear fun p hp => hu p (by simpa [swept, hst] using hp)

end Inv

end Server

/-- The life of a connection is in order in every run in which the kernel accepts every changed
mask, `Stop` destroys nothing that `OnRun` has a pointer to, and `OnRun` leaves the entry that the
iterator of `Stop` is on; and the iterator never dangles. -/
theorem lifetimes_in_order (steps : List Step) (us : List Unit) (s : Server)
    (h : AllSteps Server.step Server.Undisturbed steps .start)
    (hr : run Server.step steps .start = some (us, s)) : s.Lifetime ∧ s.stop ≠ .dangling := by
  have hinv : s.Inv := run_invariant Server.step Server.Undisturbed Server.Inv
    (fun _ _ _ _ hi hu hs => hi.moves hu (Server.moves_of_step hs)) steps _ s us
    Server.Inv.start h hr
  exact ⟨hinv.lifetime, hinv.iterator⟩

/-- Three clients: one goes away before `Stop`, one while `Stop` is on the entry of another, and
that one is destroyed by `Stop`. -/
theorem lifetimes_in_order_three :
    let steps : List Step := [.loop, .wait [.serverSocket], .onNewConnection, .accept 5 true,
      .accept 6 true, .accept 7 true, .noMore, .loop, .wait [.descriptor 5, .descriptor 6],
      .dispatch true true, .change true, .dispatch false false, .close false, .loop,
      .wait [.descriptor 7], .stop, .stop, .stop, .dispatch false false, .close true, .stop, .stop,
      .loop, .wait [.eventFd], .wakeup, .loop]
    ∃ us s, run Server.step steps .start = some (us, s) ∧ s.destroyed = [1, 0, 2] ∧
      s.Lifetime ∧ s.stop ≠ .dangling := by
  intro steps
  exact ⟨_, _, rfl, rfl, lifetimes_in_order steps _ _ (by decide) rfl⟩

/-- The kernel refuses to change the mask: the connection is destroyed by `erase`, gets `OnError` and
is deleted. `Stop` destroys a connection whose event `OnRun` has in its `mod_list`. And `OnRun`
erases the entry that the iterator of `Stop` is on, which cannot go on then. -/
theorem lifetimes_out_of_order :
    (∃ us s, run Server.step [.loop, .wait [.serverSocket], .onNewConnection, .accept 5 true, .noMore,
        .loop, .wait [.descriptor 5], .dispatch true true, .change false] .start = some (us, s) ∧
      s.destroyed = [0, 0] ∧ s.misused = [0] ∧ ¬ s.Lifetime) ∧
    (∃ us s, run Server.step [.loop, .wait [.serverSocket], .onNewConnection, .accept 5 true, .noMore,
        .loop, .wait [.descriptor 5], .stop, .stop, .stop, .dispatch true false] .start =
          some (us, s) ∧
      s.destroyed = [0] ∧ s.misused = [0] ∧ ¬ s.Lifetime) ∧
    (∃ us s, run Server.step [.loop, .wait [.serverSocket], .onNewConnection, .accept 5 true,
        .accept 7 true, .noMore, .loop, .wait [.descriptor 7], .dispatch false false, .stop, .stop,
        .stop, .stop, .close true] .start = some (us, s) ∧
      s.destroyed = [0, 1] ∧ s.stop = .dangling ∧ Server.step .stop s = none) :=
  ⟨⟨_, _, rfl, rfl, rfl, fun h => absurd h.once (by decide)⟩,
    ⟨_, _, rfl, rfl, rfl, fun h => absurd h.misused (by decide)⟩, ⟨_, _, rfl, rfl, rfl, rfl⟩⟩

end Sysprog.Network.STnonblock
