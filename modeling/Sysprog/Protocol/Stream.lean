import Sysprog.Protocol.Request

namespace Sysprog.Protocol

open Execute

namespace Parser

/-- `Parse` left through an exception. -/
def Parsed.Thrown (r : Parsed) : Prop := r.error ≠ none

/-- `Parse` returned this flag. -/
def Parsed.Returns (r : Parsed) (complete : Bool) : Prop :=
  r.error = none ∧ r.parser.parseComplete = complete

instance (r : Parsed) : Decidable r.Thrown := inferInstanceAs (Decidable (_ ≠ _))

instance (r : Parsed) (complete : Bool) : Decidable (r.Returns complete) :=
  inferInstanceAs (Decidable (_ ∧ _))

variable {p : Parser} {u v : Bytes} {chunks : List Bytes}

theorem Parsed.thrown_or_returns (r : Parsed) : r.Thrown ∨ r.Returns true ∨ r.Returns false := by
  cases he : r.error with
  | some e => exact .inl (by simp [Thrown, he])
  | none =>
    cases hc : r.parser.parseComplete with
    | true => exact .inr (.inl ⟨he, hc⟩)
    | false => exact .inr (.inr ⟨he, hc⟩)

@[simp] theorem parse_nil (p : Parser) : p.parse [] = ⟨p, 0, none⟩ := rfl

/-- What has thrown or completed on `u` is not touched by further bytes. -/
theorem parse_append_of_stopped (v : Bytes) (h : (p.parse u).Thrown ∨ (p.parse u).Returns true) :
    p.parse (u ++ v) = p.parse u := by
  induction u generalizing p with
  | nil =>
    obtain ht | hr := h
    · exact absurd rfl ht
    · exact parse_of_complete hr.2 v
  | cons c u ih =>
    cases hp : p.parseComplete with
    | true => rw [parse_of_complete hp, parse_of_complete hp]
    | false =>
      cases hs : p.step 0 c with
      | error e => rw [List.cons_append, parse_cons_error hp hs, parse_cons_error hp hs]
      | ok p' =>
        rw [parse_cons_ok hp hs] at h
        have h' : (p'.parse u).Thrown ∨ (p'.parse u).Returns true := by
          simpa [Parsed.Thrown, Parsed.Returns] using h
        rw [List.cons_append, parse_cons_ok hp hs, parse_cons_ok hp hs, ih h']

/-- Otherwise the next call goes on where this one has stopped. -/
theorem parse_append_of_pending (v : Bytes) (h : (p.parse u).Returns false) :
    p.parse (u ++ v) =
      ⟨((p.parse u).parser.parse v).parser, u.length + ((p.parse u).parser.parse v).pos,
        ((p.parse u).parser.parse v).error.map (Error.shift u.length)⟩ := by
  induction u generalizing p with
  | nil =>
    rw [List.nil_append, List.length_nil, Nat.zero_add]
    exact parseLoop_pos p 0 v
  | cons c u ih =>
    cases hp : p.parseComplete with
    | true =>
      rw [parse_of_complete hp] at h
      exact absurd (hp.symm.trans h.2) (by simp)
    | false =>
      cases hs : p.step 0 c with
      | error e =>
        rw [parse_cons_error hp hs] at h
        cases h.1
      | ok p' =>
        rw [parse_cons_ok hp hs] at h
        have h' : (p'.parse u).Returns false := by simpa [Parsed.Returns] using h
        rw [List.cons_append, parse_cons_ok hp hs, parse_cons_ok hp hs, ih h']
        simp only [Option.map_map, List.length_cons, Parsed.mk.injEq, true_and]
        refine ⟨by omega, ?_⟩
        congr 1
        funext e
        exact Error.shift_shift _ _ e

/-- `Parse` behind bytes that it has got through without completing. -/
theorem Reads.parse_pending {q : Parser} (h : Reads p u q) (hq : q.parseComplete = false) (v : Bytes) :
    p.parse (u ++ v) =
      ⟨(q.parse v).parser, u.length + (q.parse v).pos, (q.parse v).error.map (Error.shift u.length)⟩ := by
  have hu : p.parse u = ⟨q, u.length, none⟩ := by
    clear hq
    induction u generalizing p with
    | nil =>
      obtain rfl : p = q := h
      rfl
    | cons c u ih =>
      obtain ⟨hp, p', hs, hr⟩ := h
      rw [parse_cons_ok hp hs, ih hr]
      rfl
  rw [parse_append_of_pending v ⟨by rw [hu], by rw [hu]; exact hq⟩, hu]

/-- Completion within `u` takes bytes of `u` only. -/
theorem parse_pos_le (p : Parser) (u : Bytes) : (p.parse u).pos ≤ u.length := by
  induction u generalizing p with
  | nil => exact Nat.le_refl _
  | cons c u ih =>
    cases hp : p.parseComplete with
    | true => rw [parse_of_complete hp]; exact Nat.zero_le _
    | false =>
      cases hs : p.step 0 c with
      | error e => rw [parse_cons_error hp hs]; exact Nat.zero_le _
      | ok p' =>
        rw [parse_cons_ok hp hs]
        exact Nat.succ_le_succ (ih p')

/-- `Parse` on a stream in two parts. -/
theorem parse_homomorphism (p : Parser) (u v : Bytes) :
    ((p.parse (u ++ v)).Thrown ↔
      (p.parse u).Thrown ∨ (p.parse u).Returns false ∧ ((p.parse u).parser.parse v).Thrown) ∧
    ((p.parse u).Returns true →
      p.parse (u ++ v) = p.parse u ∧ (p.parse u).pos ≤ u.length) ∧
    ((p.parse u).Returns false → (p.parse u).pos = u.length ∧
      ∀ complete, ((p.parse u).parser.parse v).Returns complete →
        (p.parse (u ++ v)).Returns complete ∧
        (p.parse (u ++ v)).parser = ((p.parse u).parser.parse v).parser ∧
        (p.parse (u ++ v)).pos = u.length + ((p.parse u).parser.parse v).pos) ∧
    (p.parseComplete = true →
      (p.parse u).Returns true ∧ (p.parse u).pos = 0 ∧ (p.parse u).parser = p) ∧
    (p.parseComplete = false → u ≠ [] → ¬(p.parse u).Thrown → 1 ≤ (p.parse u).pos) := by
  refine ⟨?_, ?_, ?_, ?_, ?_⟩
  · rcases (p.parse u).thrown_or_returns with ht | hr | hr
    · simp [parse_append_of_stopped v (.inl ht), ht]
    · have hn : ¬(p.parse u).Thrown := fun ht => ht hr.1
      have hf : ¬(p.parse u).Returns false := fun hf => absurd (hr.2.symm.trans hf.2) (by simp)
      simp [parse_append_of_stopped v (.inr hr), hn, hf]
    · have hn : ¬(p.parse u).Thrown := fun ht => ht hr.1
      rw [parse_append_of_pending v hr]
      simp [Parsed.Thrown, hr.1, hr]
  · intro hr
    exact ⟨parse_append_of_stopped v (.inr hr), parse_pos_le p u⟩
  · intro hr
    refine ⟨parse_pos_of_incomplete p u hr.1 hr.2, ?_⟩
    intro complete hv
    rw [parse_append_of_pending v hr]
    exact ⟨⟨by simp [hv.1], hv.2⟩, rfl, rfl⟩
  · intro hp
    rw [parse_of_complete hp]
    exact ⟨⟨rfl, hp⟩, rfl, rfl⟩
  · intro hp hu hn
    exact parse_pos_pos hp hu (by simpa [Parsed.Thrown] using hn)

/-- `Parse` called on one chunk after the other until it returns true or throws; `pos` counts
the bytes of all calls. -/
def feed (p : Parser) : List Bytes → Parsed
  | [] => ⟨p, 0, none⟩
  | chunk :: chunks =>
    let r := p.parse chunk
    if r.error ≠ none ∨ r.parser.parseComplete = true then r
    else
      let s := r.parser.feed chunks
      ⟨s.parser, r.pos + s.pos, s.error⟩

theorem feed_of_stopped (h : (p.parse u).Thrown ∨ (p.parse u).Returns true) :
    p.feed (u :: chunks) = p.parse u := by
  have hc : (p.parse u).error ≠ none ∨ (p.parse u).parser.parseComplete = true :=
    h.imp id And.right
  simp only [feed, if_pos hc]

theorem feed_of_pending (h : (p.parse u).Returns false) :
    p.feed (u :: chunks) =
      ⟨((p.parse u).parser.feed chunks).parser, (p.parse u).pos + ((p.parse u).parser.feed chunks).pos,
        ((p.parse u).parser.feed chunks).error⟩ := by
  have hc : ¬((p.parse u).error ≠ none ∨ (p.parse u).parser.parseComplete = true) := by
    simp [h.1, h.2]
  simp only [feed, if_neg hc]

/-- How a stream is cut into chunks shows in nothing but the position an exception names. -/
theorem feed_flatten (p : Parser) (chunks : List Bytes) :
    (p.feed chunks).parser = (p.parse chunks.flatten).parser ∧
    ((p.feed chunks).Thrown ↔ (p.parse chunks.flatten).Thrown) ∧
    (¬(p.feed chunks).Thrown → (p.feed chunks).pos = (p.parse chunks.flatten).pos) := by
  induction chunks generalizing p with
  | nil => exact ⟨rfl, Iff.rfl, fun _ => rfl⟩
  | cons u chunks ih =>
    rw [List.flatten_cons]
    rcases (p.parse u).thrown_or_returns with ht | hr | hr
    · rw [feed_of_stopped (.inl ht), parse_append_of_stopped _ (.inl ht)]
      exact ⟨rfl, Iff.rfl, fun _ => rfl⟩
    · rw [feed_of_stopped (.inr hr), parse_append_of_stopped _ (.inr hr)]
      exact ⟨rfl, Iff.rfl, fun _ => rfl⟩
    · obtain ⟨hparser, hthrown, hpos⟩ := ih (p.parse u).parser
      rw [feed_of_pending hr, parse_append_of_pending _ hr]
      refine ⟨hparser, ?_, ?_⟩
      · simpa [Parsed.Thrown] using hthrown
      · intro hn
        change (p.parse u).pos + _ = u.length + _
        rw [parse_pos_of_incomplete p u hr.1 hr.2, hpos hn]

/-- A line that completes the header does so however it arrives. -/
theorem Reads.feed {line rest : Bytes} {q : Parser} (h : Reads p line q)
    (hq : q.parseComplete = true) (hc : chunks.flatten = line ++ rest) :
    (p.feed chunks).Returns true ∧ (p.feed chunks).pos = line.length ∧
      (p.feed chunks).parser = q := by
  obtain ⟨hparser, hthrown, hpos⟩ := feed_flatten p chunks
  have hline := h.parse hq rest
  rw [hc, hline] at hparser hthrown hpos
  have hn : ¬(p.feed chunks).Thrown := fun ht => hthrown.mp ht rfl
  refine ⟨⟨by simpa [Parsed.Thrown] using hn, ?_⟩, hpos hn, hparser⟩
  rw [hparser]
  exact hq

/-- `get ` and the keys with single spaces between them. -/
def getLine (keys : List Bytes) : Bytes :=
  text "get " ++ [byte ' '].intercalate keys ++ crlf

theorem intercalate_space (key : Bytes) (keys : List Bytes) :
    [byte ' '].intercalate (key :: keys) = key ++ keys.flatMap (fun k => text " " ++ k) := by
  induction keys generalizing key with
  | nil => simp [List.intercalate]
  | cons next keys ih =>
    have h : [byte ' '].intercalate (key :: next :: keys) =
        key ++ [byte ' '] ++ [byte ' '].intercalate (next :: keys) := by
      simp [List.intercalate]
    rw [h, ih next]
    simp [text]

theorem getLine_eq_header (key : Bytes) (keys : List Bytes) :
    getLine (key :: keys) = (Request.get (key :: keys)).header := by
  rw [getLine, intercalate_space]
  simp [Request.header, text]

/-- A retrieval line comes out as its keys, in any chunks and whatever follows it. -/
theorem get_round_trip (h : p.Fresh) {keys : List Bytes} (hne : keys ≠ [])
    (hk : ∀ k ∈ keys, ∀ b ∈ k, b ≠ byte ' ' ∧ b ≠ byte '\r') (rest : Bytes)
    (hc : chunks.flatten = getLine keys ++ rest) :
    (p.feed chunks).Returns true ∧ (p.feed chunks).pos = (getLine keys).length ∧
      (p.feed chunks).parser.build = .command (.get keys) 0 := by
  obtain ⟨q, hr, hq, hb⟩ := reads_get h hne hk
  obtain ⟨key, keys, rfl⟩ := List.exists_cons_of_ne_nil hne
  rw [← getLine_eq_header] at hr
  obtain ⟨hret, hpos, hparser⟩ := hr.feed hq hc
  exact ⟨hret, hpos, hparser ▸ hb⟩

/-- Two keys, the first one empty, cut inside the second one and before the LF. -/
theorem get_round_trip_cut :
    ((create false).feed [text "get  k", text "ey\r", text "\nx"]).Returns true ∧
    ((create false).feed [text "get  k", text "ey\r", text "\nx"]).pos =
      (getLine [[], text "key"]).length ∧
    ((create false).feed [text "get  k", text "ey\r", text "\nx"]).parser.build =
      .command (.get [[], text "key"]) 0 :=
  get_round_trip (fresh_create false) (by simp)
    (fun k hk => forall_of_all (by
      rcases List.mem_cons.mp hk with rfl | hk
      · rfl
      · rw [List.mem_singleton.mp hk]; decide))
    (text "x") (by decide)

end Parser

end Sysprog.Protocol
