import Sysprog.Network.Framing
import Sysprog.Storage.Recency

namespace Sysprog.Network

open Execute Protocol

variable {key value args : Bytes} {room : Nat}

theorem simpleLRU_put {s : Storage.SimpleLRU} {c c' : Storage.Cache} {b : Bool}
    (h : Storage.Refines s c) (hc : c.put key value = some (b, c')) :
    ∃ s', simpleLRU.put key value (some s) = (b, some s') ∧ Storage.Refines s' c' := by
  obtain ⟨s', hs', hr⟩ := Storage.agree_some (Storage.put_refines h) hc
  exact ⟨s', by simp [simpleLRU, simpleLRU.settle, hs'], hr⟩

theorem simpleLRU_get {s : Storage.SimpleLRU} {c c' : Storage.Cache} {b : Bool} {w : Bytes}
    (h : Storage.Refines s c) (hc : c.get key value = some ((b, w), c')) :
    ∃ s', simpleLRU.get key value (some s) = ((b, w), some s') ∧ Storage.Refines s' c' := by
  obtain ⟨s', hs', hr⟩ := Storage.agree_some (Storage.get_refines h) hc
  exact ⟨s', by simp [simpleLRU, simpleLRU.settle, hs'], hr⟩

/-- The store is in order, has `value` for `key`, and `room` more bytes go in. -/
def Stored (st : Option Storage.SimpleLRU) (key value : Bytes) (room : Nat) : Prop :=
  ∃ s c, st = some s ∧ Storage.Refines s c ∧ c.Holds key value room

theorem execute_set {s : Storage.SimpleLRU} {c : Storage.Cache} (args : Bytes) (flags : Nat)
    (expire : Int)
    (h : Storage.Refines s c) (hm : c.maxSize < 2 ^ 64) (hv : valueOf key c.entries = none)
    (hr : c.currentSize + (key.length + args.length) + room ≤ c.maxSize) :
    ∃ st, (Command.set ⟨key, flags, expire⟩).execute simpleLRU args (some s) = (stored, st) ∧
      Stored st key args room := by
  obtain ⟨c', hc', hh⟩ := Storage.Cache.put_of_room hm hv hr
  obtain ⟨s', hs', href⟩ := simpleLRU_put h hc'
  exact ⟨some s', by simp [Command.execute, hs'], s', c', rfl, href, hh⟩

theorem execute_append {st : Option Storage.SimpleLRU} (args : Bytes) (flags : Nat) (expire : Int)
    (h : Stored st key value (args.length + room)) :
    ∃ st', (Command.append ⟨key, flags, expire⟩).execute simpleLRU args st = (stored, st') ∧
      Stored st' key (value ++ args) room := by
  obtain ⟨s, c, rfl, href, hh⟩ := h
  obtain ⟨c1, hc1, hh1⟩ := Storage.Cache.get_of_holds hh []
  obtain ⟨s1, hs1, href1⟩ := simpleLRU_get href hc1
  obtain ⟨c2, hc2, hh2⟩ := Storage.Cache.put_of_holds (value ++ args) hh1 (by simp)
  obtain ⟨s2, hs2, href2⟩ := simpleLRU_put href1 hc2
  exact ⟨some s2, by simp [Command.execute, hs1, hs2], s2, c2, rfl, href2, hh2⟩

theorem execute_get {st : Option Storage.SimpleLRU} (h : Stored st key value room) :
    ((Command.get [key]).execute simpleLRU args st).1 = item key value ++ text "END" := by
  obtain ⟨s, c, rfl, href, hh⟩ := h
  obtain ⟨c1, hc1, -⟩ := Storage.Cache.get_of_holds hh []
  obtain ⟨s1, hs1, -⟩ := simpleLRU_get href hc1
  simp [Command.execute, getLoop, hs1]

theorem expireFits_zero : ExpireFits 0 := by decide

/-- A longer value makes a longer item. -/
theorem item_length_lt {v w : Bytes} (h : v.length < w.length) :
    (item key v).length < (item key w).length := by
  have hd := decimal_length_mono (Nat.le_of_lt h)
  simp only [item, List.length_append]
  omega

section Bodies

variable {s : Storage.SimpleLRU} {es : List Storage.Item} {body more : Bytes}

/-- After a `set`, the store holds the body and its delimiter. -/
theorem feed_set (argRemains : Nat) (negative : Bool) (room : Nat) (hs : Storage.Linked s es)
    (hm : s.maxSize < 2 ^ 64) (hk : KeyWellFormed key) (ha : key ∉ keys es) (hb : body ≠ [])
    (hl : body.length < 2 ^ 32)
    (hr : s.currentSize + (key.length + (body.length + 2)) + room ≤ s.maxSize) :
    let c := (Request.store .set key 0 0 body).encode.foldl (Conn.feed simpleLRU)
      (Conn.create (some s) argRemains negative)
    c.Idle ∧ c.executed = [⟨(Request.store .set key 0 0 body).command, body ++ crlf, stored⟩] ∧
      Stored c.storage key (body ++ crlf) room := by
  intro c
  obtain ⟨hidle, hex, hst⟩ := Conn.foldl_feed_request (S := simpleLRU)
    (Conn.create_idle (some s) argRemains negative)
    (r := .store .set key 0 0 body) ⟨hk, by decide, hl⟩ expireFits_zero hb
  have href : Storage.Refines s s.view := ⟨s.nodes, hs.rep, rfl⟩
  have hnone : valueOf key s.view.entries = none := by
    rw [valueOf_eq_none]
    have hview : s.view.entries = es := hs.forward
    rwa [hview]
  have hlen : (body ++ crlf).length = body.length + 2 := by simp [crlf, text]
  obtain ⟨st, hexec, hstored⟩ := execute_set (body ++ crlf) 0 (parsedExpire 0) href hm hnone
    (by rw [hlen]; exact hr)
  have hcmd : (Request.store .set key 0 0 body).command.execute simpleLRU (body ++ crlf) (some s) =
      (stored, st) := hexec
  refine ⟨hidle, ?_, ?_⟩
  · simpa [c, Request.data, Conn.create, hcmd] using hex
  · rw [hst]
    simpa [Request.data, Conn.create, hcmd] using hstored

/-- What a `get` adds to the output of a connection. -/
theorem feed_get {c : Conn (Option Storage.SimpleLRU)} (h : c.Idle) (hk : KeyWellFormed key)
    (hs : Stored c.storage key value room) :
    framed terminated ((Request.get [key]).encode.foldl (Conn.feed simpleLRU) c).executed =
      framed terminated c.executed ++ terminated (item key value ++ text "END") := by
  obtain ⟨-, hex, -⟩ := Conn.foldl_feed_request (S := simpleLRU) h (r := .get [key])
    ⟨by simp, by simpa using hk⟩ trivial trivial
  have hcmd : ((Request.get [key]).command.execute simpleLRU [] c.storage).1 =
      item key value ++ text "END" := execute_get hs
  rw [hex, framed_append]
  simp only [Request.data, hcmd]
  simp [framed]

/-- After an `append` of a body that is not empty, the store holds both bodies, each with its
delimiter. -/
theorem feed_append {c : Conn (Option Storage.SimpleLRU)} (h : c.Idle) (hk : KeyWellFormed key)
    (hm : more ≠ []) (hl : more.length < 2 ^ 32)
    (hs : Stored c.storage key value (more.length + 2 + room)) :
    let d := (Request.store .append key 0 0 more).encode.foldl (Conn.feed simpleLRU) c
    d.Idle ∧ framed terminated d.executed = framed terminated c.executed ++ terminated stored ∧
      Stored d.storage key (value ++ (more ++ crlf)) room := by
  intro d
  obtain ⟨hidle, hex, hst⟩ := Conn.foldl_feed_request (S := simpleLRU) h
    (r := .store .append key 0 0 more) ⟨hk, by decide, hl⟩ expireFits_zero hm
  have hlen : (more ++ crlf).length = more.length + 2 := by simp [crlf, text]
  obtain ⟨st, hexec, hstored⟩ := execute_append (more ++ crlf) 0 (parsedExpire 0)
    (by rw [hlen]; exact hs)
  have hcmd : (Request.store .append key 0 0 more).command.execute simpleLRU (more ++ crlf) c.storage =
      (stored, st) := hexec
  refine ⟨hidle, ?_, ?_⟩
  · rw [hex, framed_append]
    simp only [Request.data, hcmd]
    simp [framed]
  · rw [hst]
    simpa [Request.data, hcmd] using hstored

end Bodies

/-- No body comes back as it was stored: what is stored includes the delimiter of the data block,
so a `get` answers with a value that is longer by it, also behind an `append`. -/
theorem body_never_round_trips (s : Storage.SimpleLRU) (es : List Storage.Item) (argRemains : Nat)
    (negative : Bool) (key body more : Bytes) (hs : Storage.Linked s es) (hm : s.maxSize < 2 ^ 64)
    (hk : KeyWellFormed key) (ha : key ∉ keys es) (hb : body ≠ []) (hl : body.length < 2 ^ 32)
    (hl' : more.length < 2 ^ 32)
    (hr : s.currentSize + (key.length + (body.length + 2) + (more.length + 2)) ≤ s.maxSize) :
    (∀ cut, Cut ((Request.store .set key 0 0 body).encode ++ (Request.get [key]).encode) cut →
      ((Conn.create (some s) argRemains negative).readLoop simpleLRU (stBlocking sendAll)
        ⟨[], 0⟩ cut).2.sent ≠ terminated stored ++ terminated (item key body ++ text "END")) ∧
    (∀ cut, Cut ((Request.store .set key 0 0 body).encode ++
        (Request.store .append key 0 0 more).encode ++ (Request.get [key]).encode) cut →
      ((Conn.create (some s) argRemains negative).readLoop simpleLRU (stBlocking sendAll)
        ⟨[], 0⟩ cut).2.sent ≠ terminated stored ++ terminated stored ++
          terminated (item key (body ++ more) ++ text "END")) := by
  obtain ⟨hidle, hex, hstored⟩ := feed_set argRemains negative (more.length + 2 + 0) hs hm hk ha
    hb hl (by omega)
  have hout : framed terminated ((Request.store .set key 0 0 body).encode.foldl
      (Conn.feed simpleLRU) (Conn.create (some s) argRemains negative)).executed =
      terminated stored := by
    rw [hex]
    simp [framed]
  constructor
  · intro cut hcut hsent
    rw [stBlocking_sent hcut, List.foldl_append, feed_get hidle hk hstored, hout] at hsent
    have hlen := congrArg List.length hsent
    have hlt : (item key body).length < (item key (body ++ crlf)).length :=
      item_length_lt (by simp [crlf, text])
    simp only [terminated, List.length_append] at hlen
    omega
  · intro cut hcut hsent
    rw [stBlocking_sent hcut, List.foldl_append, List.foldl_append] at hsent
    by_cases hmore : more = []
    · -- the delimiter behind the empty body ends the connection before the `get`
      obtain ⟨hfault, hex2⟩ := Conn.foldl_feed_empty (S := simpleLRU) hidle
        (r := .store .append key 0 0 more) ⟨hk, by decide, hl'⟩ expireFits_zero
        (fun hne => hne hmore)
      obtain ⟨st, hexec, -⟩ := execute_append [] 0 (parsedExpire 0) (by simpa using hstored)
      have hcmd : (Request.store .append key 0 0 more).command.execute simpleLRU [] _ = (stored, st) :=
        hexec
      rw [Conn.foldl_feed_of_fault (by simp [hfault]), hex2, framed_append, hout, hcmd] at hsent
      have hlen := congrArg List.length hsent
      simp [framed, terminated, crlf, text] at hlen
    · obtain ⟨hidle2, hout2, hstored2⟩ := feed_append hidle hk hmore hl' hstored
      rw [feed_get hidle2 hk hstored2, hout2, hout] at hsent
      have hlen := congrArg List.length hsent
      have hlt : (item key (body ++ more)).length <
          (item key (body ++ crlf ++ (more ++ crlf))).length := by
        have hcrlf : crlf.length = 2 := rfl
        apply item_length_lt
        simp only [List.length_append]
        omega
      simp only [terminated, List.length_append] at hlen
      omega

/-- `set foo 0 0 6` of `foobar` and `append` of `bar` into an empty store of 64 bytes. -/
theorem body_never_round_trips_foobar :
    (∀ cut, Cut ((Request.store .set (text "foo") 0 0 (text "foobar")).encode ++
        (Request.get [text "foo"]).encode) cut →
      ((Conn.create (some (Storage.SimpleLRU.create 64)) 0 false).readLoop simpleLRU
        (stBlocking sendAll) ⟨[], 0⟩ cut).2.sent ≠
          terminated stored ++ terminated (item (text "foo") (text "foobar") ++ text "END")) ∧
    (∀ cut, Cut ((Request.store .set (text "foo") 0 0 (text "foobar")).encode ++
        (Request.store .append (text "foo") 0 0 (text "bar")).encode ++
        (Request.get [text "foo"]).encode) cut →
      ((Conn.create (some (Storage.SimpleLRU.create 64)) 0 false).readLoop simpleLRU
        (stBlocking sendAll) ⟨[], 0⟩ cut).2.sent ≠ terminated stored ++ terminated stored ++
          terminated (item (text "foo") (text "foobar" ++ text "bar") ++ text "END")) :=
  body_never_round_trips (Storage.SimpleLRU.create 64) [] 0 false (text "foo") (text "foobar")
    (text "bar") (Storage.create_refines 64).linked (by decide) (by decide) (by simp) (by decide)
    (by decide) (by decide) (by decide)

/-- The server answers `VALUE foo 0 8` and eight bytes. -/
theorem body_not_round_tripped :
    ((Conn.create (some (Storage.SimpleLRU.create 64)) 0 false).readLoop simpleLRU
      (stBlocking sendAll) ⟨[], 0⟩ [text "set foo 0 0 6\r\nfoobar\r\nget foo\r\n"]).2.sent =
        text "STORED\r\nVALUE foo 0 8\r\nfoobar\r\n\r\nEND\r\n" ∧
    text "VALUE foo 0 8\r\nfoobar\r\n\r\nEND\r\n" ≠ text "VALUE foo 0 6\r\nfoobar\r\nEND\r\n" := by
  decide

end Sysprog.Network
