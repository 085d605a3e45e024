import Vx.Transport.Model

namespace Vx.Transport

open List
open Remote

section

def headerOf (m : Message) : Bytes :=
  wirePutU32 wireMagic ++ (wirePutU32 wireVersion ++ (wirePutU32 m.type ++ wirePutU64 m.body.length))

def frames (ms : List Message) : Bytes := ms.flatMap fun m => headerOf m ++ m.body

variable (m : Message)

theorem length_headerOf : (headerOf m).length = headerBytes := rfl

theorem frames_cons (ms : List Message) : frames (m :: ms) = headerOf m ++ (m.body ++ frames ms) := by
  rfl

theorem getHeader_some {r r₁ r₂ r₃ r₄ : Bytes} {magic version type len : ℕ}
    (hmagic : wireGetU32 r = some (magic, r₁)) (hversion : wireGetU32 r₁ = some (version, r₂))
    (htype : wireGetU32 r₂ = some (type, r₃)) (hlen : wireGetU64 r₃ = some (len, r₄)) :
    getHeader r = some (magic, version, type, len) := by
  simp [getHeader, hmagic, hversion, htype, hlen]

theorem getHeader_headerOf : getHeader (headerOf m) = some (wireMagic, wireVersion, m.type, m.body.length) := by
  have hlen := wireGetU64_put m.body_lt []
  exact getHeader_some (wireGetU32_put (by decide) _) (wireGetU32_put (by decide) _) (wireGetU32_put m.type_lt _) hlen

theorem send_eq : send m = .next (.header (headerOf m)) := by
  rfl

end

def Sender.unsent : Sender → Bytes
  | .sending (.header rest) m left => rest ++ (m.body ++ frames left)
  | .sending (.body rest) _ left => rest ++ frames left
  | .finished => []
  | .broken => []

def Sender.Good : Sender → Prop
  | .sending state _ _ => state.rest ≠ []
  | .finished => True
  | .broken => False

theorem Sender.start_cons (m : Message) (left : List Message) :
    Sender.start (m :: left) = .sending (.header (headerOf m)) m left := by
  rw [Sender.start, send_eq]

theorem Sender.start_unsent (ms : List Message) : (Sender.start ms).unsent = frames ms := by
  cases ms with
  | nil => rfl
  | cons m left => rw [Sender.start_cons, frames_cons, Sender.unsent]

theorem Sender.start_good (ms : List Message) : (Sender.start ms).Good := by
  cases ms with
  | nil => trivial
  | cons m left =>
    exact cons_ne_nil _ _

theorem writeAll_of_ne {rest : Bytes} (h : rest ≠ []) : writeAll rest = .next rest := if_neg h

theorem settle_body (m : Message) (left : List Message) (rest : Bytes) :
    (Sender.settle m left (sendBody (writeAll rest))).unsent = rest ++ frames left ∧
      (Sender.settle m left (sendBody (writeAll rest))).Good := by
  by_cases hrest : rest = []
  · subst hrest
    exact ⟨Sender.start_unsent left, Sender.start_good left⟩
  · rw [writeAll_of_ne hrest]
    exact ⟨rfl, hrest⟩

theorem settle_header (m : Message) (left : List Message) (rest : Bytes) :
    (Sender.settle m left (sendHeader m (writeAll rest))).unsent = rest ++ (m.body ++ frames left) ∧
      (Sender.settle m left (sendHeader m (writeAll rest))).Good := by
  by_cases hrest : rest = []
  · subst hrest
    have hdone : sendHeader m (writeAll []) = sendBody (writeAll m.body) := by
      by_cases hbody : m.body = []
      · simp [writeAll, sendHeader, sendBody, hbody]
      · simp [writeAll, sendHeader, hbody]
    rw [hdone]
    exact settle_body m left m.body
  · rw [writeAll_of_ne hrest]
    exact ⟨rfl, hrest⟩

theorem Sender.settle_wrote (state : SendState) (m : Message) (left : List Message) (n : ℕ) :
    state.rest.take (n + 1) ++ (Sender.settle m left (sendAfter m (.wrote (n + 1)) state)).unsent =
        (Sender.sending state m left).unsent ∧
      (Sender.settle m left (sendAfter m (.wrote (n + 1)) state)).Good := by
  cases state with
  | header rest =>
    obtain ⟨hunsent, hgood⟩ := settle_header m left (rest.drop (n + 1))
    refine ⟨?_, hgood⟩
    have htake : rest.take (n + 1) ++ (rest.drop (n + 1) ++ (m.body ++ frames left)) = rest ++ (m.body ++ frames left) := by
      rw [← append_assoc, take_append_drop]
    exact (congrArg (rest.take (n + 1) ++ ·) hunsent).trans htake
  | body rest =>
    obtain ⟨hunsent, hgood⟩ := settle_body m left (rest.drop (n + 1))
    refine ⟨?_, hgood⟩
    have htake : rest.take (n + 1) ++ (rest.drop (n + 1) ++ frames left) = rest ++ frames left := by
      rw [← append_assoc, take_append_drop]
    exact (congrArg (rest.take (n + 1) ++ ·) hunsent).trans htake

theorem Sender.settle_interrupted {state : SendState} {m : Message} {left : List Message} (h : state.rest ≠ []) :
    Sender.settle m left (sendAfter m .interrupted state) = .sending state m left := by
  cases state with
  | header rest =>
    have hrest : rest ≠ [] := h
    rw [sendAfter, writeAllAfter, writeAll_of_ne hrest, sendHeader, Sender.settle]
  | body rest =>
    have hrest : rest ≠ [] := h
    rw [sendAfter, writeAllAfter, writeAll_of_ne hrest, sendBody, Sender.settle]

section

inductive Awaits : RecvState → ℕ → List Message → Bytes → Prop
  | header {got rest : Bytes} {capacity : ℕ} {ms : List Message} (hbytes : got ++ rest = frames ms)
      (hgot : got.length < headerBytes) : Awaits (.header got) capacity ms rest
  | body {got rest : Bytes} {capacity : ℕ} {m : Message} {ms : List Message}
      (hbytes : got ++ rest = m.body ++ frames ms) (hgot : got.length < m.body.length)
      (hfits : m.body.length ≤ capacity) : Awaits (.body m.type m.body.length got) capacity (m :: ms) rest
  | drain {got rest last : Bytes} {capacity : ℕ} {m : Message} {ms : List Message}
      (hbytes : got ++ rest = last ++ frames ms) (hgot : got.length < chunk last.length)
      (hlarge : capacity < m.body.length) :
      Awaits (.drain m.type m.body.length last.length got) capacity (m :: ms) rest

theorem chunk_le (left : ℕ) : chunk left ≤ left := by
  unfold chunk
  split <;> omega

theorem chunk_pos {left : ℕ} (h : 0 < left) : 0 < chunk left := by
  unfold chunk scratchBytes
  split <;> omega

variable {state : RecvState} {capacity : ℕ} {rest : Bytes} {ms : List Message}

theorem Awaits.asks_pos (h : Awaits state capacity ms rest) : 0 < state.asks := by
  cases h with
  | header _ hgot | body _ hgot _ | drain _ hgot _ => exact Nat.sub_pos_of_lt hgot

theorem readAll_eq (len : ℕ) (got : Bytes) :
    readAll len got = if got.length < len then .next got else .stop (.ok, got) := rfl

theorem awaits_drain {last : Bytes} {m : Message}
    (hbytes : rest = last ++ frames ms) (hlarge : capacity < m.body.length) :
    (∃ state, drain m.type m.body.length last.length = .next state ∧ Awaits state capacity (m :: ms) rest) ∨
      (drain m.type m.body.length last.length = .stop (delivered m capacity) ∧ rest = frames ms) := by
  unfold drain
  by_cases hpos : 0 < last.length
  · rw [if_pos hpos]
    exact .inl ⟨_, rfl, .drain hbytes (chunk_pos hpos) hlarge⟩
  have hnil : last = [] := eq_nil_of_length_eq_zero (by omega)
  right
  rw [delivered, if_pos hlarge, hbytes, hnil]
  exact ⟨rfl, rfl⟩

theorem awaits_after_header (capacity : ℕ) {m : Message} (hbytes : rest = m.body ++ frames ms) :
    (∃ state, recvHeader capacity (.stop (.ok, headerOf m)) = .next state ∧ Awaits state capacity (m :: ms) rest) ∨
      (recvHeader capacity (.stop (.ok, headerOf m)) = .stop (delivered m capacity) ∧ rest = frames ms) := by
  have hours : ¬ (wireMagic ≠ wireMagic ∨ wireVersion ≠ wireVersion) := by decide
  unfold recvHeader
  dsimp only
  rw [getHeader_headerOf]
  dsimp only
  by_cases hlarge : capacity < m.body.length
  · rw [if_pos hlarge]
    exact awaits_drain hbytes hlarge
  rw [if_neg hlarge]
  by_cases hempty : m.body.length = 0
  · have hnil : m.body = [] := eq_nil_of_length_eq_zero hempty
    right
    rw [delivered, if_neg hlarge, hbytes, hnil]
    exact ⟨rfl, rfl⟩
  · have hpos : ([] : Bytes).length < m.body.length := Nat.pos_of_ne_zero hempty
    rw [if_neg hempty, readAll_eq, if_pos hpos]
    exact .inl ⟨_, rfl, .body hbytes hpos (not_lt.1 hlarge)⟩

theorem Awaits.read {b : UInt8} {bytes : Bytes}
    (h : Awaits state capacity ms (b :: bytes ++ rest)) (hn : bytes.length < state.asks) :
    (∃ state', recvAfter capacity (.got (b :: bytes)) state = .next state' ∧ Awaits state' capacity ms rest) ∨
      ∃ m ms', ms = m :: ms' ∧ recvAfter capacity (.got (b :: bytes)) state = .stop (delivered m capacity) ∧
        rest = frames ms' := by
  have hlen (got : Bytes) : (got ++ b :: bytes).length = got.length + (bytes.length + 1) := by
    rw [length_append, length_cons]
  cases h with
  | @header got _ _ _ hbytes hgot =>
    have hasks : bytes.length < headerBytes - got.length := hn
    rw [← append_assoc] at hbytes
    rw [recvAfter, readAllAfter, readAll_eq]
    by_cases hmore : (got ++ b :: bytes).length < headerBytes
    · rw [if_pos hmore]
      exact .inl ⟨_, rfl, .header hbytes hmore⟩
    have hfull : (got ++ b :: bytes).length = headerBytes := by
      rw [hlen] at hmore ⊢
      omega
    cases ms with
    | nil =>
      have hnil := List.append_eq_nil_iff.1 hbytes
      rw [hnil.1] at hfull
      cases hfull
    | cons m ms' =>
      rw [frames_cons] at hbytes
      obtain ⟨hheader, hrest⟩ := append_inj hbytes (by rw [hfull, length_headerOf])
      rw [hheader]
      rcases awaits_after_header capacity hrest with hnext | hstop
      · exact .inl hnext
      · exact .inr ⟨m, ms', rfl, hstop⟩
  | @body got _ _ m ms' hbytes hgot hfits =>
    have hasks : bytes.length < m.body.length - got.length := hn
    rw [← append_assoc] at hbytes
    rw [recvAfter, readAllAfter, readAll_eq]
    by_cases hmore : (got ++ b :: bytes).length < m.body.length
    · rw [if_pos hmore]
      exact .inl ⟨_, rfl, .body hbytes hmore hfits⟩
    rw [if_neg hmore]
    have hfull : (got ++ b :: bytes).length = m.body.length := by
      rw [hlen] at hmore ⊢
      omega
    obtain ⟨hbody, hrest⟩ := append_inj hbytes hfull
    refine .inr ⟨m, ms', rfl, ?_, hrest⟩
    rw [hbody, recvBody, delivered, if_neg (not_lt.2 hfits)]
  | @drain got _ last _ m ms' hbytes hgot hlarge =>
    have hasks : bytes.length < chunk last.length - got.length := hn
    rw [← append_assoc] at hbytes
    rw [recvAfter, readAllAfter, readAll_eq]
    by_cases hmore : (got ++ b :: bytes).length < chunk last.length
    · rw [if_pos hmore]
      exact .inl ⟨_, rfl, .drain hbytes hmore hlarge⟩
    rw [if_neg hmore, drainChunk]
    have hfull : (got ++ b :: bytes).length = chunk last.length := by
      rw [hlen] at hmore ⊢
      omega
    -- the chunk is the first part of what is left of the body
    have hsplit : last.take (chunk last.length) ++ (last.drop (chunk last.length) ++ frames ms') =
        last ++ frames ms' := by
      rw [← append_assoc, take_append_drop]
    have htake : (last.take (chunk last.length)).length = chunk last.length := by
      rw [length_take, Nat.min_eq_left (chunk_le _)]
    obtain ⟨-, hrest⟩ := append_inj (hbytes.trans hsplit.symm) (by rw [hfull, htake])
    rw [← length_drop]
    rcases awaits_drain hrest hlarge with hnext | hstop
    · exact .inl hnext
    · exact .inr ⟨m, ms', rfl, hstop⟩

theorem Awaits.eof (h : Awaits state capacity ms []) :
    ms = [] ∧ recvAfter capacity (.got []) state = .stop ⟨.eof, none, none⟩ := by
  cases h with
  | header hbytes hgot =>
    rw [append_nil] at hbytes
    cases ms with
    | nil =>
      have hnil : _ = ([] : Bytes) := hbytes
      rw [hnil]
      exact ⟨rfl, rfl⟩
    | cons m ms' =>
      have hlen := congrArg List.length hbytes
      rw [frames_cons, length_append, length_headerOf] at hlen
      omega
  | body hbytes hgot hfits =>
    have hlen := congrArg List.length hbytes
    rw [append_nil, length_append] at hlen
    omega
  | @drain _ _ last _ _ _ hbytes hgot hlarge =>
    have hlen := congrArg List.length hbytes
    have hle := chunk_le last.length
    rw [append_nil, length_append] at hlen
    omega

theorem Awaits.interrupted
    (h : Awaits state capacity ms rest) : recvAfter capacity .interrupted state = .next state := by
  cases h with
  | header _ hgot => rw [recvAfter, readAllAfter, readAll_eq, if_pos hgot, recvHeader]
  | body _ hgot _ => rw [recvAfter, readAllAfter, readAll_eq, if_pos hgot, recvBody]
  | drain _ hgot _ => rw [recvAfter, readAllAfter, readAll_eq, if_pos hgot, drainChunk]

theorem Receiver.start_cons (capacity : ℕ) (left : List ℕ) :
    Receiver.start (capacity :: left) = (.receiving (.header []) capacity left, []) := rfl

variable (ms : List Message) (capacities : List ℕ)

inductive Follows : Receiver → List Outcome → Bytes → Prop
  | receiving {state : RecvState} {capacity : ℕ} {left : List ℕ} {outcomes : List Outcome} {rest : Bytes}
      {ms' : List Message} (hawaits : Awaits state capacity ms' rest)
      (houtcomes : outcomes ++ expected ms' (capacity :: left) = expected ms capacities) :
      Follows (.receiving state capacity left) outcomes rest
  | finished {outcomes : List Outcome} {rest : Bytes} (houtcomes : outcomes = expected ms capacities) :
      Follows .finished outcomes rest

structure Inv (σ : System) : Prop where
  good : σ.sender.Good
  follows : Follows ms capacities σ.receiver σ.outcomes (σ.stream ++ σ.sender.unsent)

variable {ms capacities}

theorem follows_start {ms' : List Message} {left : List ℕ} {rest : Bytes} (outcomes : List Outcome)
    (hrest : rest = frames ms') (houtcomes : outcomes ++ expected ms' left = expected ms capacities) :
    Follows ms capacities (Receiver.start left).1 (outcomes ++ (Receiver.start left).2) rest := by
  cases left with
  | nil =>
    refine .finished ?_
    rw [← houtcomes]
    cases ms' <;> rfl
  | cons capacity left =>
    rw [Receiver.start_cons, append_nil]
    exact .receiving (.header hrest (by decide)) houtcomes

theorem follows_stop (ms' : List Message) {capacity : ℕ} {left : List ℕ} {outcomes : List Outcome} {rest : Bytes}
    {outcome : Outcome} (hrest : rest = frames ms')
    (houtcomes : outcomes ++ outcome :: expected ms' left = expected ms capacities) :
    Follows ms capacities (Receiver.settle capacity left (.stop outcome)).1
      (outcomes ++ (Receiver.settle capacity left (.stop outcome)).2) rest := by
  have hstart := follows_start (outcomes ++ [outcome]) hrest (by rw [append_assoc, singleton_append]; exact houtcomes)
  rwa [append_assoc, singleton_append] at hstart

theorem inv_start : Inv ms capacities (.start ms capacities) := by
  refine ⟨Sender.start_good ms, ?_⟩
  exact follows_start [] (Sender.start_unsent ms) rfl

theorem Inv.moves {σ σ' : System} (h : Inv ms capacities σ) (hstep : Moves σ σ') : Inv ms capacities σ' := by
  obtain ⟨hgood, hfollows⟩ := h
  cases hstep with
  | @write state m left n hsender hn =>
    obtain ⟨hunsent, hgood'⟩ := Sender.settle_wrote state m left n
    refine ⟨hgood', ?_⟩
    rw [hsender, ← hunsent, ← append_assoc] at hfollows
    exact hfollows
  | @read state capacity left b bytes rest hreceiver hstream hn =>
    refine ⟨hgood, ?_⟩
    rw [hreceiver, hstream, append_assoc] at hfollows
    cases hfollows with
    | receiving hawaits houtcomes =>
      rcases hawaits.read hn with ⟨state', hnext, hawaits'⟩ | ⟨m, ms'', rfl, hstop, hrest⟩
      · rw [hnext, System.received, Receiver.settle, append_nil]
        exact .receiving hawaits' houtcomes
      · rw [hstop]
        exact follows_stop _ hrest houtcomes
  | @eof state capacity left hreceiver hstream hsender =>
    refine ⟨hgood, ?_⟩
    rw [hreceiver, hstream, hsender] at hfollows
    cases hfollows with
    | receiving hawaits houtcomes =>
      obtain ⟨rfl, hstop⟩ := hawaits.eof
      rw [hstop]
      refine follows_stop [] ?_ houtcomes
      change [] ++ σ.sender.unsent = _
      rw [hsender]
      rfl

theorem Inv.interrupts {σ σ' : System} (h : Inv ms capacities σ) (hstep : Interrupts σ σ') : σ' = σ := by
  obtain ⟨hgood, hfollows⟩ := h
  cases hstep with
  | write hsender =>
    rw [hsender] at hgood
    rw [Sender.settle_interrupted hgood, ← hsender]
  | read hreceiver =>
    rw [hreceiver] at hfollows
    cases hfollows with
    | receiving hawaits _ =>
      rw [hawaits.interrupted, System.received, Receiver.settle, append_nil, ← hreceiver]

theorem inv_of_reachable {σ : System} (h : Reachable ms capacities σ) : Inv ms capacities σ := by
  induction h with
  | refl => exact inv_start
  | tail _ hstep ih =>
    rcases hstep with hmoves | hinterrupts
    · exact ih.moves hmoves
    · rw [ih.interrupts hinterrupts]
      exact ih

end

def Receiver.callsLeft : Receiver → ℕ
  | .receiving _ _ left => left.length + 1
  | .finished => 0

def System.work (σ : System) : ℕ := 2 * σ.sender.unsent.length + σ.stream.length + σ.receiver.callsLeft

theorem Receiver.callsLeft_start (left : List ℕ) : (Receiver.start left).1.callsLeft = left.length := by
  cases left <;> rfl

theorem Receiver.callsLeft_settle (capacity : ℕ) (left : List ℕ) (turn : Turn RecvState Outcome) :
    (Receiver.settle capacity left turn).1.callsLeft ≤ left.length + 1 := by
  cases turn with
  | next state => exact Nat.le_refl _
  | stop outcome =>
    rw [Receiver.settle, Receiver.callsLeft_start]
    omega

variable {ms : List Message} {capacities : List ℕ} {σ σ' : System}

theorem Inv.work_lt (h : Inv ms capacities σ) (hstep : Moves σ σ') : σ'.work < σ.work := by
  cases hstep with
  | @write state m left n hsender hn =>
    obtain ⟨hunsent, -⟩ := Sender.settle_wrote state m left n
    have hlen := congrArg List.length hunsent
    rw [length_append, length_take, Nat.min_eq_left hn] at hlen
    simp only [System.work, System.write, hsender, length_append, length_take, Nat.min_eq_left hn]
    omega
  | @read state capacity left b bytes rest hreceiver hstream hn =>
    have hcalls := Receiver.callsLeft_settle capacity left (recvAfter capacity (.got (b :: bytes)) state)
    have hbefore : σ.receiver.callsLeft = left.length + 1 := by rw [hreceiver, Receiver.callsLeft]
    simp only [System.work, System.received, hbefore, hstream, length_append, length_cons]
    omega
  | @eof state capacity left hreceiver hstream hsender =>
    have hfollows := h.follows
    rw [hreceiver, hstream, hsender] at hfollows
    cases hfollows with
    | receiving hawaits _ =>
      rw [hawaits.eof.2]
      have hbefore : σ.receiver.callsLeft = left.length + 1 := by rw [hreceiver, Receiver.callsLeft]
      simp only [System.work, System.received, hbefore, hstream, Receiver.settle, Receiver.callsLeft_start]
      omega

theorem Inv.exists_moves (h : Inv ms capacities σ) {state : RecvState} {capacity : ℕ} {left : List ℕ}
    (hreceiver : σ.receiver = .receiving state capacity left) : ∃ σ', Moves σ σ' := by
  have hfollows := h.follows
  rw [hreceiver] at hfollows
  cases hfollows with
  | receiving hawaits _ =>
    cases hstream : σ.stream with
    | cons b rest =>
      have hn : ([] : Bytes).length < state.asks := hawaits.asks_pos
      exact ⟨_, .read hreceiver (hstream : σ.stream = b :: [] ++ rest) hn⟩
    | nil =>
      cases hsender : σ.sender with
      | sending send m left =>
        have hgood := h.good
        rw [hsender] at hgood
        exact ⟨_, .write (n := 0) hsender (length_pos_of_ne_nil hgood)⟩
      | finished => exact ⟨_, .eof hreceiver hstream hsender⟩
      | broken =>
        have hgood := h.good
        rw [hsender] at hgood
        exact hgood.elim

theorem Inv.outcomes_first (h : Inv ms capacities σ) : σ.outcomes <+: expected ms capacities := by
  cases hreceiver : σ.receiver with
  | receiving state capacity left =>
    have hfollows := h.follows
    rw [hreceiver] at hfollows
    cases hfollows with
    | receiving _ houtcomes => exact ⟨_, houtcomes⟩
  | finished =>
    have hfollows := h.follows
    rw [hreceiver] at hfollows
    cases hfollows with
    | finished houtcomes => exact ⟨[], by rw [houtcomes, append_nil]⟩

/-- At any time the receiver has got the first of what the messages give; an interrupted call changes nothing; only so
many calls move bytes, and when none can, the receiver has got everything. -/
structure InStep (ms : List Message) (capacities : List ℕ) : Prop where
  first : ∀ σ, Reachable ms capacities σ → σ.outcomes <+: expected ms capacities
  interrupted : ∀ σ σ', Reachable ms capacities σ → Interrupts σ σ' → σ' = σ
  bounded : ∀ σ σ', Reachable ms capacities σ → Moves σ σ' → σ'.work < σ.work
  complete : ∀ σ, Reachable ms capacities σ → (∀ σ', ¬ Moves σ σ') → σ.outcomes = expected ms capacities

theorem framing_in_step (ms : List Message) (capacities : List ℕ) : InStep ms capacities where
  first σ h := (inv_of_reachable h).outcomes_first
  interrupted σ σ' h hstep := (inv_of_reachable h).interrupts hstep
  bounded σ σ' h hstep := (inv_of_reachable h).work_lt hstep
  complete σ h hstuck := by
    have hinv := inv_of_reachable h
    cases hreceiver : σ.receiver with
    | receiving state capacity left =>
      obtain ⟨σ', hstep⟩ := hinv.exists_moves hreceiver
      exact absurd hstep (hstuck σ')
    | finished =>
      have hfollows := hinv.follows
      rw [hreceiver] at hfollows
      cases hfollows with
      | finished houtcomes => exact houtcomes

end Vx.Transport
