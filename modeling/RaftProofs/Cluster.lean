import Mathlib.Data.UInt
import RaftProofs.Delivery

/-!
# Building the test network: `new_with_config`

`Network::new_with_config` gives the peers of a vector their ids by position: the peer at index
`k` gets id `k + 1`, as `peer_addrs` is `1, …, n`. A `None` becomes a new raft node built with
that id over a storage whose voters are all of `peer_addrs`. A given peer keeps its place, and
if it has a raft, that raft must already have the id, or the constructor panics with
`peer <id> in peers has a wrong position`.

Building a raft node (`Raft::with_logger(..).unwrap()`) is outside the sources: `fresh id
addrs` is the node built with id `id` and voters `addrs`, or the panic of that `unwrap`.
`raftId r` is the id of the raft of a given peer, if it has one. The storages that the
constructor also records are read by no modelled function and are left out.

The ids the constructor hands out are the ids `isolate` walks through, since it counts the
peers: so along every turn of `send` in a network built this way, `isolate id` keeps every
message between `id` and another peer off the network (`isolate_send`).
-/

namespace RaftProofs.Harness.Network

variable {T P : Type}

/-- `peer_addrs`, `(1..=n as u64)`: the ids `1, …, n` of `n` peers. -/
def peerAddrs (n : ℕ) : List UInt64 := (List.range n).map fun i => i.toUInt64 + 1

/-- The message of the panic for a given peer whose raft has the id `id` of another place. -/
def wrongPosition (id : UInt64) : String :=
  "peer " ++ toString id ++ " in peers has a wrong position"

section

variable (fresh : UInt64 → List UInt64 → Except String P) (raftId : P → Option UInt64)
  (addrs : List UInt64)

/-- The body of the loop of `new_with_config` at a peer and its id: the peer it inserts at the
id, or its panic. -/
def placePeer : Option P × UInt64 → Except String P
  | (none, id) => fresh id addrs
  | (some r, id) =>
    match raftId r with
    | some rid => if rid ≠ id then .error (wrongPosition rid) else .ok r
    | none => .ok r

/-- The loop of `new_with_config` over `peers.drain(..).zip(&peer_addrs)`, inserting into
`npeers`. -/
def newPeers : List (Option P × UInt64) → PeerMap P → Except String (PeerMap P)
  | [], npeers => .ok npeers
  | q :: qs, npeers =>
    placePeer fresh raftId addrs q >>= fun r => newPeers qs (Function.update npeers q.2 (some r))

end

/-- `Network::new_with_config`: the network, with no rule set, and its peers. -/
def newWithConfig (fresh : UInt64 → List UInt64 → Except String P) (raftId : P → Option UInt64)
    (peers : List (Option P)) : Except String (Network T × PeerMap P) :=
  (fun npeers => (new peers.length, npeers)) <$>
    newPeers fresh raftId (peerAddrs peers.length) (peers.zip (peerAddrs peers.length))
      fun _ => none

/-! ### The ids -/

lemma mem_peerAddrs {n : ℕ} {id : UInt64} : id ∈ peerAddrs n ↔ ∃ k < n, id = k.toUInt64 + 1 := by
  simp [peerAddrs, eq_comm]

lemma getElem?_peerAddrs {n k : ℕ} (hk : k < n) : (peerAddrs n)[k]? = some (k.toUInt64 + 1) := by
  simp [peerAddrs, List.getElem?_range hk]

/-- Below `2^64` peers, the ids are distinct. -/
lemma peerAddrs_nodup {n : ℕ} (hn : n ≤ 2 ^ 64) : (peerAddrs n).Nodup := by
  refine (List.nodup_range n).map_on fun i hi j hj h => ?_
  have hi' : i < UInt64.size := (List.mem_range.mp hi).trans_le hn
  have hj' : j < UInt64.size := (List.mem_range.mp hj).trans_le hn
  have h' := congrArg UInt64.toNat (add_right_cancel h)
  rwa [Nat.toUInt64, UInt64.toNat_ofNat_of_lt hi', UInt64.toNat_ofNat_of_lt hj'] at h'

/-- The loop visits the peer at index `k` with the id `k + 1`. -/
lemma getElem?_zip_peerAddrs {ps : List (Option P)} {k : ℕ} {q : Option P × UInt64} :
    (ps.zip (peerAddrs ps.length))[k]? = some q ↔ ps[k]? = some q.1 ∧ q.2 = k.toUInt64 + 1 := by
  rw [List.getElem?_zip_eq_some]
  refine and_congr_right fun h₁ => ?_
  obtain ⟨hk, -⟩ := List.getElem?_eq_some_iff.mp h₁
  rw [getElem?_peerAddrs hk, Option.some.injEq, eq_comm]

lemma map_snd_zip_peerAddrs (ps : List (Option P)) :
    (ps.zip (peerAddrs ps.length)).map Prod.snd = peerAddrs ps.length :=
  List.map_snd_zip _ _ (by simp [peerAddrs])

/-! ### The loop -/

section

variable {fresh : UInt64 → List UInt64 → Except String P} {raftId : P → Option UInt64}
  {addrs : List UInt64}

lemma placePeer_eq_ok {p : Option P} {id : UInt64} {r : P} :
    placePeer fresh raftId addrs (p, id) = .ok r ↔
      p = none ∧ fresh id addrs = .ok r ∨ p = some r ∧ ∀ rid, raftId r = some rid → rid = id := by
  cases p with
  | none => simp [placePeer]
  | some r' =>
    simp only [placePeer, reduceCtorEq, false_and, Option.some.injEq, false_or]
    cases hr : raftId r' with
    | none =>
      refine ⟨fun h => ?_, fun ⟨h, _⟩ => h ▸ rfl⟩
      cases h
      exact ⟨rfl, fun rid h => by cases hr.symm.trans h⟩
    | some rid =>
      by_cases hne : rid = id
      · subst hne
        refine ⟨fun h => ?_, fun ⟨h, _⟩ => by simp [h]⟩
        simp only [ne_eq, not_true_eq_false, if_false, Except.ok.injEq] at h
        subst h
        exact ⟨rfl, fun rid' h => (Option.some.inj (hr.symm.trans h)).symm⟩
      · simp only [ne_eq, hne, not_false_eq_true, if_true, reduceCtorEq, false_iff, not_and]
        rintro rfl h
        exact hne (h rid hr)

lemma placePeer_eq_error {p : Option P} {id : UInt64} {e : String} :
    placePeer fresh raftId addrs (p, id) = .error e ↔
      p = none ∧ fresh id addrs = .error e ∨
        ∃ r rid, p = some r ∧ raftId r = some rid ∧ rid ≠ id ∧ e = wrongPosition rid := by
  cases p with
  | none => simp [placePeer]
  | some r =>
    simp only [placePeer, reduceCtorEq, false_and, Option.some.injEq, exists_and_left,
      exists_eq_left', false_or]
    cases hr : raftId r with
    | none => simp
    | some rid =>
      by_cases hne : rid = id
      · simp [hne]
      · simp only [ne_eq, hne, not_false_eq_true, if_true, Except.error.injEq, Option.some.injEq,
          exists_eq_left', true_and]
        exact eq_comm

/-- The body makes a peer exactly when a `None` can be built and a given raft has the id. -/
lemma placePeer_isOk {p : Option P} {id : UInt64} :
    (∃ r, placePeer fresh raftId addrs (p, id) = .ok r) ↔
      (p = none → ∃ r, fresh id addrs = .ok r) ∧
        ∀ r, p = some r → ∀ rid, raftId r = some rid → rid = id := by
  cases p <;> simp [placePeer_eq_ok]

/-- The loop changes no id it does not visit. -/
lemma newPeers_frame {qs : List (Option P × UInt64)} {npeers npeers' : PeerMap P}
    (h : newPeers fresh raftId addrs qs npeers = .ok npeers') {id : UInt64}
    (hid : id ∉ qs.map Prod.snd) : npeers' id = npeers id := by
  induction qs generalizing npeers with
  | nil => cases h; rfl
  | cons q qs ih =>
    obtain ⟨r, -, h'⟩ := bind_eq_ok.mp h
    rw [List.map_cons, List.mem_cons, not_or] at hid
    rw [ih h' hid.2, Function.update_noteq hid.1]

/-- The loop inserts at every id it visits. -/
lemma newPeers_isSome {qs : List (Option P × UInt64)} {npeers npeers' : PeerMap P}
    (h : newPeers fresh raftId addrs qs npeers = .ok npeers') (id : UInt64) :
    (npeers' id).isSome ↔ (npeers id).isSome ∨ id ∈ qs.map Prod.snd := by
  induction qs generalizing npeers with
  | nil => cases h; simp
  | cons q qs ih =>
    obtain ⟨r, -, h'⟩ := bind_eq_ok.mp h
    rw [ih h', List.map_cons, List.mem_cons]
    by_cases hid : id = q.2
    · subst hid
      simp
    · simp [Function.update_noteq hid, hid]

/-- With distinct ids, the loop leaves at each id what its body made there. -/
lemma newPeers_eq_ok {qs : List (Option P × UInt64)} {npeers npeers' : PeerMap P}
    (hnd : (qs.map Prod.snd).Nodup) (h : newPeers fresh raftId addrs qs npeers = .ok npeers') :
    ∀ q ∈ qs, ∃ r, placePeer fresh raftId addrs q = .ok r ∧ npeers' q.2 = some r := by
  induction qs generalizing npeers with
  | nil => nofun
  | cons q qs ih =>
    obtain ⟨r, hq, h'⟩ := bind_eq_ok.mp h
    rw [List.map_cons, List.nodup_cons] at hnd
    intro q' hq'
    rcases List.mem_cons.mp hq' with rfl | hq'
    · exact ⟨r, hq, by rw [newPeers_frame h' hnd.1, Function.update_same]⟩
    · exact ih hnd.2 h' q' hq'

/-- The loop panics at the first peer whose body panics. -/
lemma newPeers_eq_error {qs : List (Option P × UInt64)} {npeers : PeerMap P} {e : String} :
    newPeers fresh raftId addrs qs npeers = .error e ↔
      ∃ (k : ℕ) (q : Option P × UInt64), qs[k]? = some q ∧
        (∀ j < k, ∀ q', qs[j]? = some q' → ∃ r, placePeer fresh raftId addrs q' = .ok r) ∧
        placePeer fresh raftId addrs q = .error e := by
  induction qs generalizing npeers with
  | nil => simp [newPeers]
  | cons q qs ih =>
    simp only [newPeers, bind_eq_error, ih]
    constructor
    · rintro (hq | ⟨r, hq, k, q', hk, hbefore, he⟩)
      · exact ⟨0, q, List.getElem?_cons_zero, fun j hj => absurd hj (Nat.not_lt_zero j), hq⟩
      · refine ⟨k + 1, q', by rwa [List.getElem?_cons_succ], fun j hj q'' hj' => ?_, he⟩
        cases j with
        | zero =>
          rw [List.getElem?_cons_zero, Option.some.injEq] at hj'
          exact hj' ▸ ⟨r, hq⟩
        | succ j =>
          rw [List.getElem?_cons_succ] at hj'
          exact hbefore j (Nat.lt_of_succ_lt_succ hj) q'' hj'
    · rintro ⟨_ | k, q', hk, hbefore, he⟩
      · rw [List.getElem?_cons_zero, Option.some.injEq] at hk
        exact .inl (hk ▸ he)
      · obtain ⟨r, hq⟩ := hbefore 0 k.succ_pos q List.getElem?_cons_zero
        rw [List.getElem?_cons_succ] at hk
        refine .inr ⟨r, hq, k, q', hk, fun j hj q'' hj' => ?_, he⟩
        exact hbefore (j + 1) (Nat.succ_lt_succ hj) q'' (by rwa [List.getElem?_cons_succ])

/-- What a network that `new_with_config` returns is: no rule, and peers at the ids
`1, …, n`. -/
lemma newWithConfig_eq_ok {ps : List (Option P)} {net : Network T} {peers : PeerMap P}
    (h : newWithConfig fresh raftId ps = .ok (net, peers)) :
    net = new ps.length ∧ ∀ id, (peers id).isSome ↔ ∃ k < ps.length, id = k.toUInt64 + 1 := by
  obtain ⟨npeers, hl, he⟩ := map_eq_ok.mp h
  cases he
  refine ⟨rfl, fun id => ?_⟩
  rw [newPeers_isSome hl, map_snd_zip_peerAddrs, mem_peerAddrs]
  simp

end

/-! ### What the constructor does -/

/-- **Where `new_with_config` puts the peers.** When it returns, the network has no rule set
and counts the `n` given peers, and the ids of its peers are `1, …, n`. With fewer than `2^64`
peers, the peer at id `k + 1` is, for a `None` at index `k`, the node `fresh` builds with id
`k + 1` and voters `1, …, n`; otherwise the peer given at index `k`, whose raft, if it has one,
has id `k + 1`. -/
theorem newWithConfig_places (fresh : UInt64 → List UInt64 → Except String P)
    (raftId : P → Option UInt64) (ps : List (Option P)) (hn : ps.length < 2 ^ 64)
    {net : Network T} {peers : PeerMap P} (h : newWithConfig fresh raftId ps = .ok (net, peers)) :
    net = new ps.length ∧ (∀ id, (peers id).isSome ↔ ∃ k < ps.length, id = k.toUInt64 + 1) ∧
      ∀ (k : ℕ) p, ps[k]? = some p → ∃ r, peers (k.toUInt64 + 1) = some r ∧
        (p = none ∧ fresh (k.toUInt64 + 1) (peerAddrs ps.length) = .ok r ∨
          p = some r ∧ ∀ rid, raftId r = some rid → rid = k.toUInt64 + 1) := by
  refine ⟨(newWithConfig_eq_ok h).1, (newWithConfig_eq_ok h).2, fun k p hk => ?_⟩
  obtain ⟨npeers, hl, he⟩ := map_eq_ok.mp h
  cases he
  have hnd := map_snd_zip_peerAddrs ps ▸ peerAddrs_nodup hn.le
  have hq : (ps.zip (peerAddrs ps.length))[k]? = some (p, k.toUInt64 + 1) :=
    getElem?_zip_peerAddrs.mpr ⟨hk, rfl⟩
  obtain ⟨r, hr, hpeer⟩ := newPeers_eq_ok hnd hl _ (List.getElem?_mem hq)
  exact ⟨r, hpeer, placePeer_eq_ok.mp hr⟩

theorem newWithConfig_places_example :
    ([none, some 2] : List (Option UInt64)).length < 2 ^ 64 ∧
    ∃ (net : Network Bool) (peers : PeerMap UInt64),
      newWithConfig (fun id _ => .ok id) some [none, some 2] = .ok (net, peers) ∧
      net = new 2 ∧ (∀ id, (peers id).isSome ↔ ∃ k < 2, id = k.toUInt64 + 1) ∧
      ∀ (k : ℕ) p, ([none, some 2] : List (Option UInt64))[k]? = some p →
        ∃ r, peers (k.toUInt64 + 1) = some r ∧
          (p = none ∧ (Except.ok (k.toUInt64 + 1) : Except String UInt64) = .ok r ∨
            p = some r ∧ ∀ rid, some r = some rid → rid = k.toUInt64 + 1) :=
  ⟨by decide, _, _, rfl, newWithConfig_places (fun id _ => .ok id) some [none, some 2]
    (by decide) rfl⟩

/-- **When `new_with_config` panics.** It panics exactly at the first index `k` whose peer
cannot be placed at id `k + 1`: a `None` whose node `fresh` fails to build, with the panic of
that `unwrap`; or a given peer whose raft has another id `rid`, with the message
`peer rid in peers has a wrong position`. -/
theorem newWithConfig_panics (fresh : UInt64 → List UInt64 → Except String P)
    (raftId : P → Option UInt64) (ps : List (Option P)) (e : String) :
    (newWithConfig fresh raftId ps : Except String (Network T × PeerMap P)) = .error e ↔
      ∃ (k : ℕ) (p : Option P), ps[k]? = some p ∧
        (∀ j < k, ∀ p', ps[j]? = some p' →
          (p' = none → ∃ r, fresh (j.toUInt64 + 1) (peerAddrs ps.length) = .ok r) ∧
            ∀ r, p' = some r → ∀ rid, raftId r = some rid → rid = j.toUInt64 + 1) ∧
        (p = none ∧ fresh (k.toUInt64 + 1) (peerAddrs ps.length) = .error e ∨
          ∃ r rid, p = some r ∧ raftId r = some rid ∧ rid ≠ k.toUInt64 + 1 ∧
            e = wrongPosition rid) := by
  rw [newWithConfig, map_eq_error, newPeers_eq_error]
  constructor
  · rintro ⟨k, ⟨p, id⟩, hk, hbefore, he⟩
    obtain ⟨hp, rfl⟩ := getElem?_zip_peerAddrs.mp hk
    refine ⟨k, p, hp, fun j hj p' hp' => ?_, placePeer_eq_error.mp he⟩
    exact placePeer_isOk.mp (hbefore j hj _ (getElem?_zip_peerAddrs.mpr ⟨hp', rfl⟩))
  · rintro ⟨k, p, hp, hbefore, he⟩
    refine ⟨k, (p, k.toUInt64 + 1), getElem?_zip_peerAddrs.mpr ⟨hp, rfl⟩,
      fun j hj ⟨p', id⟩ hq => ?_, placePeer_eq_error.mpr he⟩
    obtain ⟨hp', rfl⟩ := getElem?_zip_peerAddrs.mp hq
    exact placePeer_isOk.mpr (hbefore j hj p' hp')

example : (newWithConfig (fun id _ => .ok id) some [none, some 1] :
    Except String (Network Bool × PeerMap UInt64)) =
      .error "peer 1 in peers has a wrong position" := rfl

/-! ### Isolation along `send` -/

/-- A message that passes the rules of `isolate id` is not between `id` and another of the
`peerCount` peers. -/
lemma passes_isolate {msgHup : T} {net : Network T} {id : UInt64} {m : Message T}
    (hm : (net.isolate id).Passes msgHup m) {k : ℕ} (hk : k < net.peerCount)
    (hne : k.toUInt64 + 1 ≠ id) :
    ¬ (m.from = id ∧ m.to = k.toUInt64 + 1) ∧ ¬ (m.from = k.toUInt64 + 1 ∧ m.to = id) := by
  have hcut := (dropm_foldl_isolateStep id (List.range net.peerCount) net).2 k
    (List.mem_range.mpr hk) hne
  have hrate : (((net.isolate id).dropm ⟨m.from, m.to⟩).getD (.fin 0)).lt (.fin 1) = true :=
    hm.2.2
  constructor <;> rintro ⟨h₁, h₂⟩ <;> simp [h₁, h₂, isolate, hcut] at hrate

/-- **`isolate` holds along `send` in a network `new_with_config` built.** With every draw
below one, isolate any `id` in a network of `n` peers built by `new_with_config` and run `send`
for any number of turns: the peers keep the ids `1, …, n`; every message stepped is addressed
to one of them; and in every turn after the first, a message from `id` goes to `id` itself
only, and a message to `id` comes from `id` or from no peer of the network. -/
theorem isolate_send [DecidableEq T] {E : Type} (msgHup : T)
    (fresh : UInt64 → List UInt64 → Except String P) (raftId : P → Option UInt64)
    (step : P → Message T → Except E Unit × P) (readMessages : P → List (Message T) × P)
    (ps : List (Option P)) {net : Network T} {peers : PeerMap P}
    (hnew : newWithConfig fresh raftId ps = .ok (net, peers)) (id : UInt64) (draw : Draws)
    (hdraw : ∀ i, draw i < 1) (fuel : ℕ) (msgs : List (Message T)) (i : ℕ)
    {rounds : List (List (Message T))} {peers' : PeerMap P} {j : ℕ}
    (h : send msgHup step readMessages (net.isolate id) draw fuel msgs peers i =
      .ok (rounds, peers', j)) :
    (∀ x, (peers' x).isSome ↔ ∃ k < ps.length, x = k.toUInt64 + 1) ∧
      (∀ r ∈ rounds, ∀ m ∈ r, ∃ k < ps.length, m.to = k.toUInt64 + 1) ∧
      ∀ r ∈ rounds.tail, ∀ m ∈ r, (m.from = id → m.to = id) ∧
        (m.to = id → m.from = id ∨ ∀ k < ps.length, m.from ≠ k.toUInt64 + 1) := by
  obtain ⟨rfl, hdom⟩ := newWithConfig_eq_ok hnew
  obtain ⟨hto, hdom'⟩ := send_isSome step readMessages h
  have hpeer : ∀ r ∈ rounds, ∀ m ∈ r, ∃ k < ps.length, m.to = k.toUInt64 + 1 :=
    fun r hr m hm => (hdom m.to).mp (hto r hr m hm)
  refine ⟨fun x => by rw [hdom' x]; exact hdom x, hpeer, fun r hr m hm => ?_⟩
  have hpass := (send_inv step readMessages hdraw h).1 r hr m hm
  refine ⟨fun hfrom => ?_, fun hto_id => ?_⟩
  · obtain ⟨k, hk, hk'⟩ := hpeer r (List.mem_of_mem_tail hr) m hm
    by_contra hne
    exact (passes_isolate hpass hk fun h => hne (hk'.trans h)).1 ⟨hfrom, hk'⟩
  · exact or_iff_not_imp_left.mpr fun hfrom k hk hk' =>
      (passes_isolate hpass hk fun h => hfrom (hk'.trans h)).2 ⟨hk', hto_id⟩

theorem isolate_send_example :
    ∃ (net : Network Bool) (peers : PeerMap ℕ) (rounds : List (List (Message Bool)))
      (peers' : PeerMap ℕ) (j : ℕ),
      newWithConfig (fun _ _ => .ok 0) (fun _ => none) [none, none, none] = .ok (net, peers) ∧
      (∀ i, (fun _ => 0 : Draws) i < 1) ∧
      send true (fun (p : ℕ) (_ : Message Bool) => ((.ok () : Except Unit Unit), p + 1))
        (fun p => ([⟨false, 2, 1⟩, ⟨false, 2, 3⟩], p)) (net.isolate 1) (fun _ => 0) 3
        [⟨false, 1, 2⟩] peers 0 = .ok (rounds, peers', j) ∧
      (∀ x, (peers' x).isSome ↔ ∃ k < 3, x = k.toUInt64 + 1) ∧
      (∀ r ∈ rounds, ∀ m ∈ r, ∃ k < 3, m.to = k.toUInt64 + 1) ∧
      ∀ r ∈ rounds.tail, ∀ m ∈ r, (m.from = 1 → m.to = 1) ∧
        (m.to = 1 → m.from = 1 ∨ ∀ k < 3, m.from ≠ k.toUInt64 + 1) :=
  ⟨_, _, _, _, _, rfl, fun _ => zero_lt_one, rfl, isolate_send true (fun _ _ => .ok 0)
    (fun _ => none) (fun (p : ℕ) (_ : Message Bool) => ((.ok () : Except Unit Unit), p + 1))
    (fun p => ([⟨false, 2, 1⟩, ⟨false, 2, 3⟩], p)) [none, none, none] rfl 1 (fun _ => 0)
    (fun _ => zero_lt_one) 3 [⟨false, 1, 2⟩] 0 rfl⟩

end RaftProofs.Harness.Network
