import RaftProofs.Network

/-!
How the test network hands messages to its peers: `dispatch` and `send` of
`harness/src/network.rs`.

The peers are raft nodes behind `Interface`, which is not among the sources. A peer is a value
of a type `P`, and the two methods of `Interface` that the network calls are parameters:
`step` gives the result of `Interface::step` and the peer after it, which the call changes
whatever its result, and `readMessages` gives the messages the peer has to send and the peer
after. The peers are looked up by id in a `PeerMap`; `get_mut(&to).unwrap()` on an absent peer
panics.

`dispatch` filters the messages once, then steps each kept one at its addressee and stops at
the first error. `send` steps the given messages, filters what each stepped peer answers, and
goes on with the kept answers until none is left. It need not stop, so the model runs it for
at most `fuel` turns of its loop and returns the messages of each turn; the results hold for
every number of turns, so for every prefix of a run that never ends. Both return, beside the
result, the messages stepped: a record of the run, which the code does not keep.

Delays only sleep: what the peers see does not depend on `delaym` or on the draws that
`maybe_delay` makes, only the cursor does. So each call is compared with the peers stepping
the same messages with no rules and no delays: `stepAll` for `dispatch` (`dispatchLoop_eq`),
and `answerAll` for each turn of `send`, whose next turn is what the rules keep of the answers
(`Exchange`).
-/

namespace RaftProofs.Harness.Network

variable {T P E : Type}

/-- The peers by id. -/
abbrev PeerMap (P : Type) := UInt64 → Option P

/-- The message of the panic of `Option::unwrap` on `None`. -/
def unwrapNone : String := "called Option::unwrap() on a None value"

/-- What the rules let through: a message of a type not ignored, other than `msgHup`, on a
connection dropped at a rate below one, which a NaN rate is not. -/
def Passes (net : Network T) (msgHup : T) (m : Message T) : Prop :=
  net.ignored m.msgType = false ∧ m.msgType ≠ msgHup ∧ (net.dropRate m).lt (.fin 1) = true

section

variable [DecidableEq T] (msgHup : T) (step : P → Message T → Except E Unit × P)
  (readMessages : P → List (Message T) × P)

/-- The peers stepping the messages in turn, each at its addressee, up to the first error:
the result, the messages stepped and the peers after. -/
def stepAll :
    List (Message T) → PeerMap P → Except String (Except E Unit × List (Message T) × PeerMap P)
  | [], peers => .ok (.ok (), [], peers)
  | m :: ms, peers =>
    match peers m.to with
    | none => .error unwrapNone
    | some p =>
      match step p m with
      | (.error e, p) => .ok (.error e, [m], Function.update peers m.to (some p))
      | (.ok (), p) => (fun (res, out, peers) => (res, m :: out, peers)) <$>
          stepAll ms (Function.update peers m.to (some p))

/-- The loop of `dispatch` over the kept messages: `maybe_delay`, then the addressee steps the
message; the first error is returned. Beside the result: the messages stepped, the peers and
the cursor after. -/
def dispatchLoop (net : Network T) (draw : Draws) :
    List (Message T) → PeerMap P → ℕ →
      Except String (Except E Unit × List (Message T) × PeerMap P × ℕ)
  | [], peers, i => .ok (.ok (), [], peers, i)
  | m :: ms, peers, i =>
    let i := (net.maybeDelay draw i m.from m.to).2
    match peers m.to with
    | none => .error unwrapNone
    | some p =>
      match step p m with
      | (.error e, p) => .ok (.error e, [m], Function.update peers m.to (some p), i)
      | (.ok (), p) => (fun (res, out, peers, i) => (res, m :: out, peers, i)) <$>
          dispatchLoop net draw ms (Function.update peers m.to (some p)) i

/-- `dispatch`: filter the messages, then step the kept ones. -/
def dispatch (net : Network T) (draw : Draws) (ms : List (Message T)) (peers : PeerMap P)
    (i : ℕ) : Except String (Except E Unit × List (Message T) × PeerMap P × ℕ) :=
  filter msgHup net draw i ms >>= fun (kept, i) => dispatchLoop step net draw kept peers i

/-- One message of `send`: `maybe_delay`, then the addressee steps it, whatever the result,
and gives the messages it has to send. -/
def deliver (net : Network T) (draw : Draws) (peers : PeerMap P) (i : ℕ) (m : Message T) :
    Except String (List (Message T) × PeerMap P × ℕ) :=
  let i := (net.maybeDelay draw i m.from m.to).2
  match peers m.to with
  | none => .error unwrapNone
  | some p =>
    let (resp, p) := readMessages (step p m).2
    .ok (resp, Function.update peers m.to (some p), i)

/-- One turn of the loop of `send`: deliver each message, and keep what `filter` keeps of
each answer, in order. -/
def sendRound (net : Network T) (draw : Draws) :
    List (Message T) → PeerMap P → ℕ → Except String (List (Message T) × PeerMap P × ℕ)
  | [], peers, i => .ok ([], peers, i)
  | m :: ms, peers, i =>
    deliver step readMessages net draw peers i m >>= fun (resp, peers, i) =>
      filter msgHup net draw i resp >>= fun (kept, i) =>
        (fun (rest, peers, i) => (kept ++ rest, peers, i)) <$> sendRound net draw ms peers i

/-- `send`, for at most `fuel` turns of its loop: the messages of each turn, the peers and
the cursor after them. -/
def send (net : Network T) (draw : Draws) :
    ℕ → List (Message T) → PeerMap P → ℕ →
      Except String (List (List (Message T)) × PeerMap P × ℕ)
  | 0, _, peers, i => .ok ([], peers, i)
  | _ + 1, [], peers, i => .ok ([], peers, i)
  | fuel + 1, m :: ms, peers, i =>
    sendRound msgHup step readMessages net draw (m :: ms) peers i >>= fun (next, peers, i) =>
      (fun (rounds, peers, i) => ((m :: ms) :: rounds, peers, i)) <$>
        send net draw fuel next peers i

/-- The peers stepping the messages in turn, each at its addressee, which then answers whatever
the result of the step, with no rules and no delays: the answers to each message and the peers
after. -/
def answerAll :
    List (Message T) → PeerMap P → Except String (List (List (Message T)) × PeerMap P)
  | [], peers => .ok ([], peers)
  | m :: ms, peers =>
    match peers m.to with
    | none => .error unwrapNone
    | some p =>
      let (resp, p) := readMessages (step p m).2
      (fun (answers, peers) => (resp :: answers, peers)) <$>
        answerAll ms (Function.update peers m.to (some p))

end

/-! ### What the peers step -/

section

variable (step : P → Message T → Except E Unit × P) (readMessages : P → List (Message T) × P)

/-- The delays are not seen by the peers: without the cursor, the loop of `dispatch` is
`stepAll`, whatever `delaym` and the draws. -/
lemma dispatchLoop_eq (net : Network T) (draw : Draws) (ms : List (Message T))
    (peers : PeerMap P) (i : ℕ) :
    (fun (res, out, peers, _) => (res, out, peers)) <$> dispatchLoop step net draw ms peers i =
      stepAll step ms peers := by
  induction ms generalizing peers i with
  | nil => rfl
  | cons m ms ih =>
    simp only [dispatchLoop, stepAll]
    split
    · rfl
    split
    · rfl
    · rw [← ih]
      cases dispatchLoop step net draw ms _ _ <;> rfl

/-- What the peers go through when they step messages: a prefix of them is stepped, all of
them unless a step fails, and only their addressees change. -/
lemma stepAll_spec {ms stepped : List (Message T)} {peers peers' : PeerMap P}
    {res : Except E Unit} (h : stepAll step ms peers = .ok (res, stepped, peers')) :
    stepped <+: ms ∧ (res = .ok () → stepped = ms) ∧
      ∀ id, (∀ m ∈ stepped, m.to ≠ id) → peers' id = peers id := by
  induction ms generalizing peers stepped with
  | nil => cases h; exact ⟨List.prefix_rfl, fun _ => rfl, fun _ _ => rfl⟩
  | cons m ms ih =>
    simp only [stepAll] at h
    split at h
    · cases h
    split at h
    · cases h
      refine ⟨List.cons_prefix_cons.mpr ⟨rfl, List.nil_prefix⟩, nofun, fun id hid => ?_⟩
      exact Function.update_noteq (hid m (.head _)).symm _ _
    · obtain ⟨⟨res', out, peers₁⟩, h', he⟩ := map_eq_ok.mp h
      cases he
      obtain ⟨hpre, hok, hframe⟩ := ih h'
      refine ⟨List.cons_prefix_cons.mpr ⟨rfl, hpre⟩, fun hr => by rw [hok hr], fun id hid => ?_⟩
      rw [hframe id fun m' hm' => hid m' (.tail _ hm')]
      exact Function.update_noteq (hid m (.head _)).symm _ _

/-- What `deliver` does when it returns: the addressee steps the message, answers, and is
replaced by the peer after. -/
lemma deliver_eq_ok {net : Network T} {draw : Draws} {peers peers' : PeerMap P} {i j : ℕ}
    {m : Message T} {resp : List (Message T)}
    (h : deliver step readMessages net draw peers i m = .ok (resp, peers', j)) :
    ∃ p, peers m.to = some p ∧ resp = (readMessages (step p m).2).1 ∧
      peers' = Function.update peers m.to (some (readMessages (step p m).2).2) := by
  simp only [deliver] at h
  split at h
  · cases h
  · rename_i p hp
    cases h
    exact ⟨p, hp, rfl, rfl⟩

/-- `deliver` changes only the addressee. -/
lemma deliver_frame {net : Network T} {draw : Draws} {peers peers' : PeerMap P} {i j : ℕ}
    {m : Message T} {resp : List (Message T)}
    (h : deliver step readMessages net draw peers i m = .ok (resp, peers', j)) {id : UInt64}
    (hid : m.to ≠ id) : peers' id = peers id := by
  obtain ⟨p, -, -, rfl⟩ := deliver_eq_ok step readMessages h
  exact Function.update_noteq hid.symm _ _

/-- `deliver` returns only when the addressee is a peer, and keeps the ids of the peers. -/
lemma deliver_isSome {net : Network T} {draw : Draws} {peers peers' : PeerMap P} {i j : ℕ}
    {m : Message T} {resp : List (Message T)}
    (h : deliver step readMessages net draw peers i m = .ok (resp, peers', j)) :
    (peers m.to).isSome ∧ ∀ id, (peers' id).isSome = (peers id).isSome := by
  obtain ⟨p, hp, -, rfl⟩ := deliver_eq_ok step readMessages h
  refine ⟨by simp [hp], fun id => ?_⟩
  by_cases hid : id = m.to
  · subst hid
    simp [hp]
  · rw [Function.update_noteq hid]

end

/-- A message that `filter` keeps passes the rules. -/
lemma passes_of_mem_filter [DecidableEq T] {msgHup : T} {net : Network T} {draw : Draws}
    (hdraw : ∀ i, draw i < 1) {ms out : List (Message T)} {i j : ℕ}
    (h : filter msgHup net draw i ms = .ok (out, j)) {m : Message T} (hm : m ∈ out) :
    net.Passes msgHup m := by
  obtain ⟨hign, hrate⟩ := mem_filter hdraw h hm
  refine ⟨hign, fun hhup => ?_, hrate⟩
  obtain ⟨e, he⟩ := filter_eq_error.mpr ⟨m, (filter_sublist h).subset hm, hign, hhup⟩
  cases he.symm.trans h

/-- `next` is what the rules may keep of `answers`: a sub-list, in order, of messages that pass
the rules; no answer of a type not ignored is a `MsgHup`, and each one on a connection dropped
at a rate at most zero is kept. -/
def Kept (net : Network T) (msgHup : T) (answers next : List (Message T)) : Prop :=
  next.Sublist answers ∧ (∀ m ∈ next, net.Passes msgHup m) ∧
    ∀ m ∈ answers, net.ignored m.msgType = false →
      m.msgType ≠ msgHup ∧ ((net.dropRate m).le (.fin 0) = true → m ∈ next)

section

variable {net : Network T} {msgHup : T}

lemma Kept.nil : Kept net msgHup [] [] := ⟨.slnil, nofun, nofun⟩

lemma Kept.append {a₁ a₂ n₁ n₂ : List (Message T)} (h₁ : Kept net msgHup a₁ n₁)
    (h₂ : Kept net msgHup a₂ n₂) : Kept net msgHup (a₁ ++ a₂) (n₁ ++ n₂) := by
  refine ⟨h₁.1.append h₂.1, fun m hm => ?_, fun m hm hign => ?_⟩
  · rcases List.mem_append.mp hm with hm | hm
    exacts [h₁.2.1 m hm, h₂.2.1 m hm]
  · rcases List.mem_append.mp hm with hm | hm
    · exact (h₁.2.2 m hm hign).imp_right fun h hr => List.mem_append_left _ (h hr)
    · exact (h₂.2.2 m hm hign).imp_right fun h hr => List.mem_append_right _ (h hr)

end

/-! ### `dispatch` -/

/-- **What `dispatch` hands to the peers.** With every draw below one, when `dispatch` returns:
the peers step, in order and each at its addressee, the messages that `filter` keeps, up to
the first whose step fails, as if there were no delays; every message stepped passes the rules,
so none is of an ignored type, a `MsgHup` or on a connection dropped at rate one; and no peer
but an addressee of a message stepped changes. -/
theorem dispatch_spec [DecidableEq T] (msgHup : T) (step : P → Message T → Except E Unit × P)
    (net : Network T) (draw : Draws) (hdraw : ∀ i, draw i < 1) (ms : List (Message T))
    (peers : PeerMap P) (i : ℕ) {res : Except E Unit} {stepped : List (Message T)}
    {peers' : PeerMap P} {j : ℕ}
    (h : dispatch msgHup step net draw ms peers i = .ok (res, stepped, peers', j)) :
    ∃ kept, (∃ j₀, filter msgHup net draw i ms = .ok (kept, j₀)) ∧
      stepAll step kept peers = .ok (res, stepped, peers') ∧ stepped <+: kept ∧
      (res = .ok () → stepped = kept) ∧ (∀ m ∈ stepped, net.Passes msgHup m) ∧
      ∀ id, (∀ m ∈ stepped, m.to ≠ id) → peers' id = peers id := by
  obtain ⟨⟨kept, j₀⟩, hf, hl⟩ := bind_eq_ok.mp h
  have hl : dispatchLoop step net draw kept peers j₀ = .ok (res, stepped, peers', j) := hl
  have hs : stepAll step kept peers = .ok (res, stepped, peers') := by
    rw [← dispatchLoop_eq step net draw kept peers j₀, hl]
    rfl
  obtain ⟨hpre, hok, hframe⟩ := stepAll_spec step hs
  exact ⟨kept, ⟨j₀, hf⟩, hs, hpre, hok,
    fun m hm => passes_of_mem_filter hdraw hf (hpre.subset hm), hframe⟩

theorem dispatch_spec_example :
    (∀ i, (fun _ => 0 : Draws) i < 1) ∧
    ∃ res stepped peers' j, dispatch true (fun (p : ℕ) (_ : Message Bool) => (.ok (), p + 1))
        ((new 2 : Network Bool).cut 1 2) (fun _ => 0) [⟨false, 1, 2⟩, ⟨false, 2, 2⟩]
        (fun id => if id ≤ 2 then some 0 else none) 0 = .ok (res, stepped, peers', j) ∧
      ∃ kept, (∃ j₀, filter true ((new 2 : Network Bool).cut 1 2) (fun _ => 0) 0
          [⟨false, 1, 2⟩, ⟨false, 2, 2⟩] = .ok (kept, j₀)) ∧
        stepAll (fun (p : ℕ) (_ : Message Bool) => ((.ok () : Except Unit Unit), p + 1)) kept
          (fun id => if id ≤ 2 then some 0 else none) = .ok (res, stepped, peers') ∧
        stepped <+: kept ∧ (res = .ok () → stepped = kept) ∧
        (∀ m ∈ stepped, ((new 2 : Network Bool).cut 1 2).Passes true m) ∧
        ∀ id, (∀ m ∈ stepped, m.to ≠ id) →
          peers' id = (fun id => if id ≤ 2 then some 0 else none) id :=
  ⟨fun _ => zero_lt_one, _, _, _, _, rfl, dispatch_spec true
    (fun (p : ℕ) (_ : Message Bool) => ((.ok () : Except Unit Unit), p + 1))
    ((new 2 : Network Bool).cut 1 2) (fun _ => 0) (fun _ => zero_lt_one)
    [⟨false, 1, 2⟩, ⟨false, 2, 2⟩] (fun id => if id ≤ 2 then some 0 else none) 0 rfl⟩

/-! ### When `dispatch` panics -/

section

variable (step : P → Message T → Except E Unit × P)

/-- Stepping keeps the ids of the peers. -/
lemma stepAll_isSome {ms stepped : List (Message T)} {peers peers' : PeerMap P}
    {res : Except E Unit} (h : stepAll step ms peers = .ok (res, stepped, peers')) (id : UInt64) :
    (peers' id).isSome = (peers id).isSome := by
  induction ms generalizing peers stepped with
  | nil => cases h; rfl
  | cons m ms ih =>
    simp only [stepAll] at h
    split at h
    · cases h
    rename_i p hp
    have hupd : ∀ p', (Function.update peers m.to (some p') id).isSome = (peers id).isSome := by
      intro p'
      by_cases hid : id = m.to
      · subst hid
        simp [hp]
      · rw [Function.update_noteq hid]
    split at h
    · cases h
      exact hupd _
    · obtain ⟨⟨res', out, peers₁⟩, h', he⟩ := map_eq_ok.mp h
      cases he
      exact (ih h').trans (hupd _)

/-- After messages that all step, the peers go on with the rest. -/
lemma stepAll_append {ms₁ ms₂ : List (Message T)} {peers peers₁ : PeerMap P}
    (h : stepAll step ms₁ peers = .ok (.ok (), ms₁, peers₁)) :
    stepAll step (ms₁ ++ ms₂) peers =
      (fun (res, out, peers) => (res, ms₁ ++ out, peers)) <$> stepAll step ms₂ peers₁ := by
  induction ms₁ generalizing peers with
  | nil =>
    cases h
    rw [List.nil_append]
    rcases stepAll step ms₂ peers₁ with _ | ⟨res, out, peers₂⟩ <;> rfl
  | cons m ms₁ ih =>
    simp only [stepAll] at h
    split at h
    · cases h
    rename_i p hp
    split at h
    · cases h
    rename_i p' hstep
    obtain ⟨⟨res', out, peers₂⟩, h', he⟩ := map_eq_ok.mp h
    simp only [Prod.mk.injEq, List.cons.injEq, true_and] at he
    obtain ⟨rfl, rfl, rfl⟩ := he
    simp only [List.cons_append, stepAll, hp, hstep, List.append_eq]
    rw [ih h']
    rcases stepAll step ms₂ peers₂ with _ | ⟨res, out, peers₃⟩ <;> rfl

/-- The peers stepping messages panic exactly at a message addressed to no peer, after messages
that all step. -/
lemma stepAll_eq_error {ms : List (Message T)} {peers : PeerMap P} {e : String} :
    stepAll step ms peers = .error e ↔ e = unwrapNone ∧
      ∃ ms₁ m ms₂ peers₁, ms = ms₁ ++ m :: ms₂ ∧
        stepAll step ms₁ peers = .ok (.ok (), ms₁, peers₁) ∧ peers m.to = none := by
  constructor
  · intro h
    induction ms generalizing peers with
    | nil => cases h
    | cons m ms ih =>
      simp only [stepAll] at h
      split at h
      · cases h
        exact ⟨rfl, [], m, ms, peers, rfl, rfl, ‹_›⟩
      rename_i p hp
      split at h
      · cases h
      rename_i p' hstep
      obtain ⟨rfl, ms₁, m', ms₂, peers₁, rfl, h₁, hnone⟩ := ih (map_eq_error.mp h)
      have hne : m'.to ≠ m.to := fun hto => by
        rw [hto, Function.update_same] at hnone
        cases hnone
      refine ⟨rfl, m :: ms₁, m', ms₂, peers₁, rfl, ?_, ?_⟩
      · simp only [stepAll, hp, hstep, h₁]
        rfl
      · rwa [Function.update_noteq hne] at hnone
  · rintro ⟨rfl, ms₁, m, ms₂, peers₁, rfl, h₁, hnone⟩
    have hnone₁ : peers₁ m.to = none := by
      simpa [hnone] using stepAll_isSome step h₁ m.to
    rw [stepAll_append step h₁, stepAll, hnone₁]
    rfl

end

/-- **When `dispatch` panics.** `dispatch` panics exactly in two ways. Either a `MsgHup` of a
type not ignored is among the messages, and `filter` panics with `unexpected msgHup`. Or
`filter` keeps a message addressed to no peer, after kept messages whose steps all succeed,
and `get_mut(&to).unwrap()` panics on it. An error from a step does not panic: `dispatch`
returns it. -/
theorem dispatch_panics [DecidableEq T] (msgHup : T) (step : P → Message T → Except E Unit × P)
    (net : Network T) (draw : Draws) (ms : List (Message T)) (peers : PeerMap P) (i : ℕ)
    (e : String) :
    dispatch msgHup step net draw ms peers i = .error e ↔
      (∃ m ∈ ms, net.ignored m.msgType = false ∧ m.msgType = msgHup) ∧
          e = "unexpected msgHup" ∨
        ∃ kept j, filter msgHup net draw i ms = .ok (kept, j) ∧ e = unwrapNone ∧
          ∃ kept₁ m kept₂ peers₁, kept = kept₁ ++ m :: kept₂ ∧
            stepAll step kept₁ peers = .ok (.ok (), kept₁, peers₁) ∧ peers m.to = none := by
  have hloop : ∀ kept j, dispatchLoop step net draw kept peers j = .error e ↔
      stepAll step kept peers = .error e := fun kept j => by
    rw [← dispatchLoop_eq step net draw kept peers j, map_eq_error]
  rw [dispatch, bind_eq_error]
  constructor
  · rintro (hf | ⟨⟨kept, j⟩, hf, hl⟩)
    · exact .inl ⟨filter_eq_error.mp ⟨e, hf⟩, filter_error_msg hf⟩
    · exact .inr ⟨kept, j, hf, (stepAll_eq_error step).mp ((hloop kept j).mp hl)⟩
  · rintro (⟨hhup, rfl⟩ | ⟨kept, j, hf, hs⟩)
    · obtain ⟨e', he'⟩ := filter_eq_error.mpr hhup
      exact .inl (filter_error_msg he' ▸ he')
    · exact .inr ⟨(kept, j), hf, (hloop kept j).mpr ((stepAll_eq_error step).mpr hs)⟩

example : dispatch true (fun (p : ℕ) (_ : Message Bool) => ((.ok () : Except Unit Unit), p))
    (new 2 : Network Bool) (fun _ => 0) [⟨false, 1, 2⟩, ⟨false, 1, 3⟩]
    (fun id => if id ≤ 2 then some 0 else none) 0 = .error unwrapNone := rfl

/-! ### `send` -/

/-- The turns `rounds` of an exchange from the peers `peers` to `peers'`: the peers step each
turn as `answerAll` does, and the next turn is what the rules may keep of their answers. After
the last turn the exchange has `ended`, and the rules kept none of the answers, or it was cut
short. -/
def Exchange (msgHup : T) (step : P → Message T → Except E Unit × P)
    (readMessages : P → List (Message T) × P) (net : Network T) (ended : Bool) :
    PeerMap P → List (List (Message T)) → PeerMap P → Prop
  | peers, [], peers' => peers' = peers
  | peers, ms :: rounds, peers' =>
    ∃ answers peers₁, answerAll step readMessages ms peers = .ok (answers, peers₁) ∧
      ((rounds = [] → ended = true) → Kept net msgHup answers.flatten (rounds.headD [])) ∧
      Exchange msgHup step readMessages net ended peers₁ rounds peers'

section

variable {msgHup : T} {step : P → Message T → Except E Unit × P}
  {readMessages : P → List (Message T) × P} {net : Network T} {ended : Bool}
  {peers peers' : PeerMap P}

@[simp] lemma exchange_nil :
    Exchange msgHup step readMessages net ended peers [] peers' ↔ peers' = peers := Iff.rfl

end

section

variable [DecidableEq T] {msgHup : T} (step : P → Message T → Except E Unit × P)
  (readMessages : P → List (Message T) × P) {net : Network T} {draw : Draws}

/-- One turn of `send` steps its messages at their addressees and goes on with messages that
pass the rules. -/
lemma sendRound_spec (hdraw : ∀ i, draw i < 1) {ms next : List (Message T)}
    {peers peers' : PeerMap P} {i j : ℕ}
    (h : sendRound msgHup step readMessages net draw ms peers i = .ok (next, peers', j)) :
    (∀ m ∈ next, net.Passes msgHup m) ∧ ∀ id, (∀ m ∈ ms, m.to ≠ id) → peers' id = peers id := by
  induction ms generalizing peers i next with
  | nil => cases h; exact ⟨nofun, fun _ _ => rfl⟩
  | cons m ms ih =>
    obtain ⟨⟨resp, peers₁, i₁⟩, hd, h⟩ := bind_eq_ok.mp h
    obtain ⟨⟨kept, i₂⟩, hf, h⟩ := bind_eq_ok.mp h
    obtain ⟨⟨rest, peers₂, i₃⟩, hr, he⟩ := map_eq_ok.mp h
    cases he
    obtain ⟨hpass, hframe⟩ := ih hr
    refine ⟨fun m' hm' => ?_, fun id hid => ?_⟩
    · rcases List.mem_append.mp hm' with hm' | hm'
      exacts [passes_of_mem_filter hdraw hf hm', hpass m' hm']
    · rw [hframe id fun m' hm' => hid m' (.tail _ hm')]
      exact deliver_frame step readMessages hd (hid m (.head _))

/-- Every way `send` can return: nothing more to do, or one turn and the rest. -/
lemma send_eq_ok_cases {fuel : ℕ} {msgs : List (Message T)} {peers peers' : PeerMap P}
    {i j : ℕ} {rounds : List (List (Message T))}
    (h : send msgHup step readMessages net draw fuel msgs peers i = .ok (rounds, peers', j)) :
    (fuel = 0 ∨ msgs = []) ∧ rounds = [] ∧ peers' = peers ∨
    ∃ fuel' next peers₁ i₁ rounds', fuel = fuel' + 1 ∧ msgs ≠ [] ∧
      sendRound msgHup step readMessages net draw msgs peers i = .ok (next, peers₁, i₁) ∧
      send msgHup step readMessages net draw fuel' next peers₁ i₁ = .ok (rounds', peers', j) ∧
      rounds = msgs :: rounds' := by
  match fuel, msgs with
  | 0, _ => cases h; exact .inl ⟨.inl rfl, rfl, rfl⟩
  | _ + 1, [] => cases h; exact .inl ⟨.inr rfl, rfl, rfl⟩
  | fuel + 1, m :: ms =>
    obtain ⟨⟨next, peers₁, i₁⟩, hr, h⟩ := bind_eq_ok.mp h
    obtain ⟨⟨rounds', peers₂, i₂⟩, hs, he⟩ := map_eq_ok.mp h
    cases he
    exact .inr ⟨fuel, next, peers₁, i₁, rounds', rfl, nofun, hr, hs, rfl⟩

/-- Along the turns of `send`: every turn after the first passes the rules, and only the
addressees of the messages stepped change. -/
lemma send_inv (hdraw : ∀ i, draw i < 1) {fuel : ℕ} {msgs : List (Message T)}
    {peers peers' : PeerMap P} {i j : ℕ} {rounds : List (List (Message T))}
    (h : send msgHup step readMessages net draw fuel msgs peers i = .ok (rounds, peers', j)) :
    (∀ r ∈ rounds.tail, ∀ m ∈ r, net.Passes msgHup m) ∧
      ∀ id, (∀ r ∈ rounds, ∀ m ∈ r, m.to ≠ id) → peers' id = peers id := by
  induction fuel generalizing msgs peers i rounds with
  | zero =>
    obtain ⟨-, rfl, rfl⟩ | ⟨_, _, _, _, _, h0, -⟩ := send_eq_ok_cases step readMessages h
    exacts [⟨nofun, fun _ _ => rfl⟩, absurd h0 (Nat.zero_ne_add_one _)]
  | succ fuel ih =>
    obtain ⟨-, rfl, rfl⟩ | ⟨_, next, peers₁, i₁, rounds', hf, -, hr, hs, rfl⟩ :=
      send_eq_ok_cases step readMessages h
    · exact ⟨nofun, fun _ _ => rfl⟩
    cases Nat.succ.inj hf
    obtain ⟨hpass, hframe⟩ := sendRound_spec step readMessages hdraw hr
    obtain ⟨ihpass, ihframe⟩ := ih hs
    refine ⟨fun r hr' => ?_, fun id hid => ?_⟩
    · obtain ⟨-, rfl, -⟩ | ⟨_, _, _, _, rounds'', -, -, -, -, rfl⟩ :=
        send_eq_ok_cases step readMessages hs
      · cases hr'
      rcases List.mem_cons.mp hr' with rfl | hr'
      exacts [hpass, ihpass r hr']
    · rw [ihframe id fun r hr' => hid r (.tail _ hr')]
      exact hframe id (hid _ (.head _))

/-- One turn of `send` returns only when every addressee is a peer, and keeps the ids of the
peers. -/
lemma sendRound_isSome {ms next : List (Message T)} {peers peers' : PeerMap P} {i j : ℕ}
    (h : sendRound msgHup step readMessages net draw ms peers i = .ok (next, peers', j)) :
    (∀ m ∈ ms, (peers m.to).isSome) ∧ ∀ id, (peers' id).isSome = (peers id).isSome := by
  induction ms generalizing peers i next with
  | nil => cases h; exact ⟨nofun, fun _ => rfl⟩
  | cons m ms ih =>
    obtain ⟨⟨resp, peers₁, i₁⟩, hd, h⟩ := bind_eq_ok.mp h
    obtain ⟨⟨kept, i₂⟩, -, h⟩ := bind_eq_ok.mp h
    obtain ⟨⟨rest, peers₂, i₃⟩, hr, he⟩ := map_eq_ok.mp h
    cases he
    obtain ⟨hto, hdom⟩ := deliver_isSome step readMessages hd
    obtain ⟨ihto, ihdom⟩ := ih hr
    refine ⟨fun m' hm' => ?_, fun id => (ihdom id).trans (hdom id)⟩
    rcases List.mem_cons.mp hm' with rfl | hm'
    exacts [hto, (hdom _).symm.trans (ihto m' hm')]

/-- Along the turns of `send`, every message stepped is addressed to a peer, and the ids of
the peers stay the same. -/
lemma send_isSome {fuel : ℕ} {msgs : List (Message T)} {peers peers' : PeerMap P} {i j : ℕ}
    {rounds : List (List (Message T))}
    (h : send msgHup step readMessages net draw fuel msgs peers i = .ok (rounds, peers', j)) :
    (∀ r ∈ rounds, ∀ m ∈ r, (peers m.to).isSome) ∧
      ∀ id, (peers' id).isSome = (peers id).isSome := by
  induction fuel generalizing msgs peers i rounds with
  | zero =>
    obtain ⟨-, rfl, rfl⟩ | ⟨_, _, _, _, _, h0, -⟩ := send_eq_ok_cases step readMessages h
    exacts [⟨nofun, fun _ => rfl⟩, absurd h0 (Nat.zero_ne_add_one _)]
  | succ fuel ih =>
    obtain ⟨-, rfl, rfl⟩ | ⟨_, next, peers₁, i₁, rounds', hf, -, hr, hs, rfl⟩ :=
      send_eq_ok_cases step readMessages h
    · exact ⟨nofun, fun _ => rfl⟩
    cases Nat.succ.inj hf
    obtain ⟨hto, hdom⟩ := sendRound_isSome step readMessages hr
    obtain ⟨ihto, ihdom⟩ := ih hs
    refine ⟨fun r hr' m hm => ?_, fun id => (ihdom id).trans (hdom id)⟩
    rcases List.mem_cons.mp hr' with rfl | hr'
    exacts [hto m hm, (hdom _).symm.trans (ihto r hr' m hm)]

end

end RaftProofs.Harness.Network
