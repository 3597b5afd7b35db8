import Sysprog.Execute.PlainMap
import Sysprog.Network.Clients
import Sysprog.Network.HalfClose

namespace Sysprog.Network

open Execute Protocol

variable {σ τ : Type}

section Serial

variable {S : Storage σ} {T : Storage τ} {R : σ → τ → Prop}

theorem Serial.simulates (hS : Simulates S T R) {s s' : σ} {t : τ} {es : List Executed} (hR : R s t)
    (h : Serial S s es s') : ∃ t', Serial T t es t' ∧ R s' t' := by
  induction es generalizing s t with
  | nil =>
    obtain rfl : s = s' := h
    exact ⟨t, rfl, hR⟩
  | cons e es ih =>
    obtain ⟨hresult, hR'⟩ := hS.execute e.argument hR e.command
    obtain ⟨t', ht, hR''⟩ := ih hR' h.2
    exact ⟨t', ⟨hresult.symm.trans h.1, ht⟩, hR''⟩

open Storage.Cache in
/-- A command on the plain map, whatever it was answered before. -/
def mapStep (maxSize : Nat) (e : Executed) (m : PlainMap Bytes Bytes) :
    Option (Bytes × PlainMap Bytes Bytes) :=
  some (e.command.execute (plainMap (admits maxSize)) e.argument m)

open Storage.Cache in
/-- What the plain map holds after a command is no more than the store can hold. -/
def MapFits (maxSize : Nat) (e : Executed) (m : PlainMap Bytes Bytes) : Prop :=
  Storage.total (e.command.execute (plainMap (admits maxSize)) e.argument m).2.entries ≤ maxSize

instance (maxSize : Nat) (e : Executed) (m : PlainMap Bytes Bytes) :
    Decidable (MapFits maxSize e m) := inferInstanceAs (Decidable (_ ≤ _))

open Storage.Cache in
theorem Serial.plainMap {maxSize : Nat} {c : Storage.Cache} {m : PlainMap Bytes Bytes}
    {es : List Executed} {x : Option Storage.Cache} (hm : HoldsMap maxSize c m)
    (h : Serial cache (some c) es x) (hfit : AllSteps (mapStep maxSize) (MapFits maxSize) es m) :
    ∃ m' c', Serial (Execute.plainMap (admits maxSize)) m es m' ∧ x = some c' ∧
      HoldsMap maxSize c' m' := by
  induction es generalizing c m with
  | nil =>
    obtain rfl : some c = x := h
    exact ⟨m, c, rfl, rfl, hm⟩
  | cons e es ih =>
    obtain ⟨c1, hc, hm1⟩ := held_execute hm e.argument e.command hfit.1
    have hresult := h.1
    have hrest := h.2
    rw [hc] at hresult hrest
    obtain ⟨m', c', hserial, hx, hm'⟩ := ih hm1 hrest (hfit.tail rfl)
    exact ⟨m', c', ⟨hresult, hserial⟩, hx, hm'⟩

end Serial

namespace Connection

/-- The bytes a call reads. -/
def Op.bytes : Op → Bytes
  | .doRead chunks _ => chunks.flatten
  | .doWrite _ => []

@[simp] theorem Op.bytes_doRead (chunks : List Bytes) (last : ReadEnd) :
    (Op.doRead chunks last).bytes = chunks.flatten := rfl

@[simp] theorem Op.bytes_doWrite (n : Int) : (Op.doWrite n).bytes = [] := rfl

/-- Nothing goes wrong on the socket: each `read` returns some bytes, until the end of the stream or
`EAGAIN`, and `send` takes some of the bytes that are pending. -/
def Smooth : Op → Connection σ → Prop
  | .doRead chunks last, _ =>
    (∀ chunk ∈ chunks, 1 ≤ chunk.length ∧ chunk.length ≤ 4096) ∧ last.Graceful
  | .doWrite n, c => 1 ≤ n ∧ n ≤ c.pending.results.length ∧ n < 2 ^ 63

instance : ∀ (op : Op) (c : Connection σ), Decidable (Smooth op c)
  | .doRead chunks last, _ =>
    have : Decidable (∀ chunk ∈ chunks, 1 ≤ chunk.length ∧ chunk.length ≤ 4096) :=
      List.decidableBAll _ _
    inferInstanceAs (Decidable (_ ∧ last.Graceful))
  | .doWrite _, _ => inferInstanceAs (Decidable (_ ∧ _ ∧ _))

end Connection

section Fed

variable {S : Storage σ} {T : Storage τ} {E : Bytes → Bytes → Prop} {R : σ → τ → Prop}

theorem Conn.Matches.ready {c : Conn σ} {d : Conn τ} (h : Conn.Matches R E c d) (hd : d.Ready) :
    c.Ready := by
  obtain ⟨t, es, rfl, -⟩ := h
  exact ⟨hd.alive, hd.idle, hd.waiting⟩

/-- Which bytes do what is independent of the storage. -/
theorem Conn.Matches.foldl_feed {c : Conn σ} {d : Conn τ}
    (h : Conn.Matches (fun _ _ => True) (fun _ _ => True) c d) (hd : d.Ready) (bytes : Bytes)
    (ha : (bytes.foldl (Conn.feed T) d).fault = none) :
    Conn.Matches (fun _ _ => True) (fun _ _ => True) (bytes.foldl (Conn.feed S) c)
      (bytes.foldl (Conn.feed T) d) := by
  let o : Pending := ⟨[], ⟨true, false, true, true⟩⟩
  obtain ⟨hread, -⟩ := Conn.Matches.readLoop (S := S) (T := T) (fun _ _ _ _ _ => ⟨trivial, trivial⟩)
    (Clients.nonBlocking_progress true) h (o := o) (p := o) trivial [bytes]
  have hfc := Conn.readLoop_feed (S := S) (nonBlocking_succeeds true) (h.ready hd) o [bytes]
  have hfd := Conn.readLoop_feed (S := T) (nonBlocking_succeeds true) hd o [bytes]
  rw [List.flatten_singleton] at hfc hfd
  have hnone : (d.readLoop T (nonBlocking true) o [bytes]).1.fault = none := by
    rw [← hfd] at ha
    simpa [Conn.unplaced] using ha
  rw [Conn.unplaced_of_alive hnone] at hfd
  rw [Conn.unplaced_of_alive (hread.fault.trans hnone)] at hfc
  rwa [hfc, hfd] at hread

end Fed

namespace Clients

variable {S : Storage σ} {epollerr : Bool} {x y : Clients σ} {c₀ : Nat → Conn σ}
  {read : Nat → Bytes}

/-- Every connection is alive, has taken the bytes it has read, and has lost no output. -/
structure Fed (S : Storage σ) (c₀ : Nat → Conn σ) (read : Nat → Bytes) (x : Clients σ) : Prop where
  alive : ∀ i, (x.connections i).alive = true
  conn : ∀ i, Conn.Matches (fun _ _ => True) (fun _ _ => True) (x.connections i).conn
    ((read i).foldl (Conn.feed S) (c₀ i))
  conserves : ∀ i, (x.connections i).Conserves

theorem Fed.doRead (h : Fed S c₀ read x) (hready : ∀ i, (c₀ i).Ready) {i : Nat} {chunks : List Bytes}
    {last : ReadEnd} (hok : ((read i ++ chunks.flatten).foldl (Conn.feed S) (c₀ i)).fault = none)
    (hl : last.Graceful) :
    Fed S c₀ (Function.update read i (read i ++ chunks.flatten))
      (x.save i ((x.load i).doRead S epollerr chunks last)) := by
  have hd : ((read i).foldl (Conn.feed S) (c₀ i)).fault = none := by
    by_contra hf
    rw [List.foldl_append, Conn.foldl_feed_of_fault (Option.isSome_iff_ne_none.mpr hf)] at hok
    exact hf hok
  have hr := Conn.foldl_feed_ready (hready i) (read i) hd
  have hload : Conn.Matches (fun _ _ => True) (fun _ _ => True) (x.load i).conn
      ((read i).foldl (Conn.feed S) (c₀ i)) := by
    obtain ⟨t, es, he, -, hes⟩ := h.conn i
    exact ⟨t, es, he, trivial, hes⟩
  have hready' := hload.ready hr
  rw [List.foldl_append] at hok
  have hmatch := hload.foldl_feed (S := S) hr chunks.flatten hok
  have hfeed := Conn.readLoop_feed (S := S) (nonBlocking_succeeds epollerr) hready'
    (x.load i).pending chunks
  have hfault : ((x.load i).conn.readLoop S (nonBlocking epollerr) (x.load i).pending chunks).1.fault =
      none := by
    have hf := hmatch.fault.trans hok
    rw [← hfeed] at hf
    simpa [Conn.unplaced] using hf
  rw [Conn.unplaced_of_alive hfault] at hfeed
  have hload : (x.load i).Conserves := h.conserves i
  have hcons : ((x.load i).doRead S epollerr chunks last).Conserves :=
    Connection.doRead_conserves hload chunks last
  rw [Connection.doRead_graceful epollerr hready'.alive chunks hl] at hcons ⊢
  refine ⟨fun j => ?_, fun j => ?_, fun j => ?_⟩
  all_goals by_cases hj : j = i
  · subst hj
    have ha : (x.load j).alive = true := h.alive j
    simp [save, ha, hfault]
  · simpa only [save, Function.update_of_ne hj] using h.alive j
  · subst hj
    simp only [save, Function.update_self, List.foldl_append, hfeed]
    exact hmatch
  · simpa only [save, Function.update_of_ne hj] using h.conn j
  · subst hj
    simpa only [save, Function.update_self] using hcons
  · simpa only [save, Function.update_of_ne hj] using h.conserves j

theorem Fed.doWrite (h : Fed S c₀ read x) {i : Nat} {n : Int}
    (hs : Connection.Smooth (.doWrite n) (x.connections i)) :
    Fed S c₀ read (x.save i ((x.load i).doWrite epollerr n)) := by
  obtain ⟨h1, hle, hlt⟩ := hs
  have hn : Connection.unsignedLong n = n.toNat := by
    rw [Connection.unsignedLong, Int.emod_eq_of_lt (by omega) (by omega)]
  have hpos : ¬ n.toNat ≤ 0 := by omega
  have hload : (x.load i).Conserves := h.conserves i
  have hcons : ((x.load i).doWrite epollerr n).Conserves :=
    Connection.doWrite_conserves hload (.inr (.inr ⟨h1, hle, hlt⟩)) (.inr (by omega))
  have hconn : ((x.load i).doWrite epollerr n).conn = (x.load i).conn := Connection.doWrite_conn n
  have halive : ((x.load i).doWrite epollerr n).alive = true := by
    simp only [Connection.doWrite, hn, hpos, if_false]
    split_ifs <;> exact h.alive i
  refine ⟨fun j => ?_, fun j => ?_, fun j => ?_⟩
  all_goals by_cases hj : j = i
  · subst hj
    simpa only [save, Function.update_self] using halive
  · simpa only [save, Function.update_of_ne hj] using h.alive j
  · subst hj
    obtain ⟨t, es, he, -, hes⟩ := h.conn j
    simp only [save, Function.update_self, hconn]
    exact ⟨t, es, he, trivial, hes⟩
  · simpa only [save, Function.update_of_ne hj] using h.conn j
  · subst hj
    simpa only [save, Function.update_self] using hcons
  · simpa only [save, Function.update_of_ne hj] using h.conserves j

/-- A whole run in which nothing goes wrong on the sockets, on streams that nothing is wrong with. -/
theorem Fed.run (hready : ∀ i, (c₀ i).Ready) (ops : List (Nat × Connection.Op)) {us : List Unit}
    (h : Fed S c₀ read x)
    (hok : ∀ i, ((read i ++ (own i ops).flatMap Connection.Op.bytes).foldl (Conn.feed S)
      (c₀ i)).fault = none)
    (hs : AllSteps (step S epollerr) (fun a x => Connection.Smooth a.2 (x.connections a.1)) ops x)
    (hr : Sysprog.run (step S epollerr) ops x = some (us, y)) :
    Fed S c₀ (fun i => read i ++ (own i ops).flatMap Connection.Op.bytes) y := by
  induction ops generalizing x us read with
  | nil =>
    obtain ⟨-, rfl⟩ : [] = us ∧ x = y := by simpa [Sysprog.run] using hr
    simpa using h
  | cons a ops ih =>
    cases hstep : step S epollerr a x with
    | none => simp [Sysprog.run, hstep] at hr
    | some r =>
      have hstep' : step S epollerr a x = some (r.1, r.2) := hstep
      rw [run_cons hstep'] at hr
      obtain ⟨⟨vs, z⟩, hz, he⟩ := Option.map_eq_some_iff.mp hr
      obtain ⟨-, rfl⟩ := Prod.mk.inj he
      obtain ⟨v, c, hc, hsave⟩ := step_cases hstep'
      have hsmooth := hs.1
      have htail := hs.tail hstep'
      obtain ⟨i, op⟩ := a
      -- the bytes this call reads go from what is to come to what was read
      have hsplit : ∀ j, Function.update read i (read i ++ op.bytes) j ++
          (own j ops).flatMap Connection.Op.bytes =
          read j ++ (own j ((i, op) :: ops)).flatMap Connection.Op.bytes := by
        intro j
        by_cases hj : i = j
        · subst hj
          simp [own_cons_self]
        · simp [own_cons_ne hj, Function.update_of_ne (Ne.symm hj)]
      have hnext : Fed S c₀ (Function.update read i (read i ++ op.bytes)) r.2 := by
        cases op with
        | doRead chunks last =>
          obtain ⟨-, rfl⟩ := Prod.mk.inj (Option.some.inj hc)
          rw [hsave]
          apply h.doRead hready _ hsmooth.2
          by_contra hf
          have hall := hok i
          rw [own_cons_self, List.flatMap_cons, Connection.Op.bytes_doRead, ← List.append_assoc, List.foldl_append,
            Conn.foldl_feed_of_fault (Option.isSome_iff_ne_none.mpr hf)] at hall
          exact hf hall
        | doWrite n =>
          obtain ⟨-, rfl⟩ := Prod.mk.inj (Option.some.inj hc)
          rw [hsave]
          simpa using h.doWrite hsmooth
      have hrest := ih hnext (fun j => by rw [hsplit]; exact hok j) htail hz
      simpa only [hsplit] using hrest

end Clients

open Storage.Cache in
/-- `STnonblock` as its clients see it. Any number of clients send requests that are in order, the
bytes arrive in any pieces and in any order among the clients, nothing goes wrong on the sockets, and
all of them get through; as long as the data fit into the store, every result is what a plain map
gives for the commands in the order in which they were completed, each client gets all its answers in
the order of its requests, and the store holds what the map holds, ordered by last access. -/
theorem served_as_map (maxSize : UInt64) (argRemains : Nat → Nat)
    (negative : Nat → Bool) (requests : Nat → List Request)
    (hr : ∀ i, ∀ r ∈ requests i, r.WellFormed ∧ r.HasBody ∧ r.Expires)
    (ops : List (Nat × Connection.Op)) (us : List Unit) (x : Clients (Option Storage.SimpleLRU))
    (hbytes : ∀ i, (own i ops).flatMap Connection.Op.bytes = (requests i).flatMap Request.encode)
    (hsmooth : AllSteps (Clients.step simpleLRU false)
      (fun a x => Connection.Smooth a.2 (x.connections a.1)) ops
      (.start false (some (.create maxSize)) argRemains negative))
    (hrun : run (Clients.step simpleLRU false) ops
      (.start false (some (.create maxSize)) argRemains negative) = some (us, x))
    (hfit : AllSteps (mapStep maxSize.toNat) (MapFits maxSize.toNat) (x.history.map Prod.snd)
      ⟨[], []⟩) :
    (∃ m s es, Serial (plainMap (admits maxSize.toNat)) ⟨[], []⟩ (x.history.map Prod.snd) m ∧
      x.storage = some s ∧ Storage.Linked s es ∧ es.Perm m.entries ∧ keys es = m.accesses.dedup) ∧
    ∀ i, (own i x.history).map (fun e => (e.command, e.argument)) =
        (requests i).map (fun r => (r.command, r.data)) ∧
      (x.connections i).alive = true ∧
      (x.connections i).accepted ++ (x.connections i).pending.results =
        framed terminated (own i x.history) := by
  have hconsistent : Clients.Consistent simpleLRU (some (.create maxSize)) x := by
    refine run_invariant (Clients.step simpleLRU false) (fun _ _ => True)
      (Clients.Consistent simpleLRU (some (.create maxSize))) ?_ ops _ x us
      (Clients.start_consistent _ argRemains negative) (AllSteps.of_forall (fun _ _ _ => trivial) _) hrun
    intro a x u y hx _ hs
    exact hx.step hs
  constructor
  · obtain ⟨t, hcache, hrel⟩ := hconsistent.serial.simulates simpleLRU_simulates
      (.some (Storage.create_refines maxSize))
    have hempty : HoldsMap maxSize.toNat ⟨maxSize.toNat, 0, []⟩ ⟨[], []⟩ :=
      ⟨rfl, ⟨maxSize.toNat_lt, by simp, rfl, by simp⟩, List.Perm.refl _, rfl⟩
    obtain ⟨m, c, hm, rfl, hc⟩ := hcache.plainMap hempty hfit
    generalize x.storage = st at hrel ⊢
    cases hrel with
    | @some s _ href => exact ⟨m, s, c.entries, hm, rfl, href.linked, hc.perm, hc.recency⟩
  · have hidle := fun i => Conn.create_idle (some (Storage.SimpleLRU.create maxSize)) (argRemains i)
      (negative i)
    have hwhole := fun i => Conn.foldl_feed_sequence (S := simpleLRU) (hidle i)
      (fun r hm => (hr i r hm).1) (fun r hm => (hr i r hm).2)
    have hstart : Clients.Fed simpleLRU
        (fun i => .create (some (.create maxSize)) (argRemains i) (negative i)) (fun _ => [])
        (.start false (some (.create maxSize)) argRemains negative) :=
      ⟨fun _ => rfl, fun i => .create trivial _ _, fun _ _ => rfl⟩
    have hfed := hstart.run (fun i => Conn.create_ready _ _ _) ops
      (fun i => by rw [List.nil_append, hbytes]; exact (hwhole i).1.alive) hsmooth hrun
    intro i
    have howns := hconsistent.own i
    refine ⟨?_, hfed.alive i, ?_⟩
    · have hrequests := (hfed.conn i).requests_eq
      rw [List.nil_append, hbytes] at hrequests
      rw [howns, hrequests, (hwhole i).2]
      simp [Conn.create]
    · rw [howns]
      exact hfed.conserves i (hfed.alive i)

open Storage.Cache in
/-- A `set` and, from another client, an `append` and a `get`; each client's bytes come in two pieces. -/
theorem served_as_map_two :
    let requests : Nat → List Request := fun i =>
      if i = 0 then [.store .set [107] 0 0 [97]]
      else if i = 1 then [.store .append [107] 0 0 [98], .get [[107]]] else []
    let ops : List (Nat × Connection.Op) :=
      [(0, .doRead [text "set k 0 0 1\r\na"] (.failed true [])),
        (1, .doRead [text "append k 0 0 1\r\nb\r"] (.failed true [])),
        (0, .doRead [text "\r\n"] .closed),
        (1, .doRead [text "\nget", text " k\r\n"] (.failed true [])), (0, .doWrite 8), (1, .doWrite 5)]
    ∃ us x, run (Clients.step simpleLRU false) ops
        (.start false (some (.create 64)) (fun _ => 3) fun _ => true) = some (us, x) ∧
      (∃ m s es, Serial (plainMap (admits (64 : UInt64).toNat)) ⟨[], []⟩ (x.history.map Prod.snd) m ∧
        x.storage = some s ∧ Storage.Linked s es ∧ es.Perm m.entries ∧ keys es = m.accesses.dedup) ∧
      ∀ i, (own i x.history).map (fun e => (e.command, e.argument)) =
          (requests i).map (fun r => (r.command, r.data)) ∧
        (x.connections i).alive = true ∧
        (x.connections i).accepted ++ (x.connections i).pending.results =
          framed terminated (own i x.history) := by
  intro requests ops
  have hfits : (run (Clients.step simpleLRU false) ops
      (.start false (some (.create 64)) (fun _ => 3) fun _ => true)).map (fun y =>
        decide (AllSteps (mapStep 64) (MapFits 64) (y.2.history.map Prod.snd) ⟨[], []⟩)) =
      some true := by
    decide +kernel
  obtain ⟨⟨us, x⟩, hx, hfit⟩ := Option.map_eq_some_iff.mp hfits
  refine ⟨us, x, hx, served_as_map 64 _ _ requests ?_ ops us x ?_ (by decide +kernel) hx
    (of_decide_eq_true hfit)⟩
  · intro i
    match i with
    | 0 => decide
    | 1 => decide
    | _ + 2 => simp [requests]
  · intro i
    match i with
    | 0 => decide
    | 1 => decide
    | n + 2 => simp [requests, ops, own]

end Sysprog.Network
