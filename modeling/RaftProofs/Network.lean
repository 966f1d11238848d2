import Mathlib.Algebra.Order.Ring.Rat
import RaftProofs.ReadOnly

/-!
The fault injection of the test network (`harness/src/network.rs`).

A `Network` keeps three tables of rules: `dropm`, the rate at which the messages of a
connection are dropped; `delaym`, the rate at which they are delayed and for how long; and
`ignorem`, the message types that are always dropped. `filter` applies them to a batch of
messages: a message of an ignored type goes, a `MsgHup` panics, and any other message is kept
when a random draw in `[0, 1)` is at least the drop rate of its connection.

Rates are `f64`s, which `drop` and `delay` take as they come: NaN, an infinity or a finite
value (`F64`). They are only compared, and `f64` compares finite values exactly, so a finite
value is taken as a rational; every comparison with a NaN is false, so a connection dropped at
rate NaN loses every message, although its rate is not above zero. Randomness is an oracle:
`draw i` is the `i`-th value `rand::random::<f64>()` returns, and a function that draws takes
and returns a cursor into it. The results hold for every oracle whose values lie in `[0, 1)`.
The message type is a parameter `T` with `msgHup` among its values. The peers and their
storage are not modelled here: `isolate` reads only how many peers there are. `send` and
`dispatch`, which step the peers, are in `RaftProofs.Delivery`.
-/

namespace RaftProofs.Harness

/-- An `f64`: NaN, an infinity, or a finite value, taken as a rational. -/
inductive F64
  | nan
  | negInf
  | posInf
  | fin (q : ℚ)
  deriving DecidableEq

namespace F64

/-- `<=` on `f64`: false when a side is NaN. -/
def le : F64 → F64 → Bool
  | nan, _ | _, nan => false
  | negInf, _ | _, posInf => true
  | posInf, _ | _, negInf => false
  | fin p, fin q => decide (p ≤ q)

/-- `<` on `f64`: false when a side is NaN. -/
def lt : F64 → F64 → Bool
  | nan, _ | _, nan => false
  | _, negInf | posInf, _ => false
  | negInf, _ | _, posInf => true
  | fin p, fin q => decide (p < q)

/-- `==` on `f64`: false when a side is NaN; both zeros are the finite value `0`. -/
def beq : F64 → F64 → Bool
  | fin p, fin q => decide (p = q)
  | negInf, negInf | posInf, posInf => true
  | _, _ => false

@[simp] lemma le_fin (p q : ℚ) : (fin p).le (fin q) = decide (p ≤ q) := rfl

@[simp] lemma lt_fin (p q : ℚ) : (fin p).lt (fin q) = decide (p < q) := rfl

@[simp] lemma beq_fin (p q : ℚ) : (fin p).beq (fin q) = decide (p = q) := rfl

/-- A value at most `x` is below every `y > x`. -/
lemma lt_fin_of_le {a : F64} {x y : ℚ} (h : a.le (fin x) = true) (hxy : x < y) :
    a.lt (fin y) = true := by
  cases a <;> simp_all [le, lt]
  exact h.trans_lt hxy

end F64

/-- A connection from one node to another, the key of the rules. -/
structure Connection where
  «from» : UInt64
  «to» : UInt64
  deriving DecidableEq

/-- The fields of a `Message` that the network reads. -/
structure Message (T : Type) where
  msgType : T
  «from» : UInt64
  «to» : UInt64

/-- `Network`, with the number of its peers in place of the peers. -/
structure Network (T : Type) where
  peerCount : ℕ
  dropm : Connection → Option F64
  delaym : Connection → Option (F64 × UInt64)
  ignorem : T → Option Bool

/-- The values of `rand::random::<f64>()`, in the order they are drawn: finite values, taken as
rationals. -/
abbrev Draws := ℕ → ℚ

namespace Network

variable {T : Type}

/-- `Network::new_with_config` on `peerCount` peers: no rule is set. -/
def new (peerCount : ℕ) : Network T := ⟨peerCount, fun _ => none, fun _ => none, fun _ => none⟩

/-- Drop every message of type `t`. -/
def ignore [DecidableEq T] (net : Network T) (t : T) : Network T :=
  { net with ignorem := Function.update net.ignorem t (some true) }

/-- Set the drop rate of the connection from `from` to `to`. -/
def drop (net : Network T) («from» «to» : UInt64) (perc : F64) : Network T :=
  { net with dropm := Function.update net.dropm ⟨«from», «to»⟩ (some perc) }

/-- `delay`: a rule with no duration is not recorded. -/
def delay (net : Network T) («from» «to» : UInt64) (perc : F64) (duration : UInt64) :
    Network T :=
  if duration > 0 then
    { net with delaym := Function.update net.delaym ⟨«from», «to»⟩ (some (perc, duration)) }
  else net

/-- `maybe_delay`: the microseconds it sleeps, if it does, and the cursor after it. It draws
only when the delay rate of the connection is not `0`, a NaN rate included. -/
def maybeDelay (net : Network T) (draw : Draws) (i : ℕ) («from» «to» : UInt64) :
    Option UInt64 × ℕ :=
  let (perc, time) := (net.delaym ⟨«from», «to»⟩).getD (.fin 0, 0)
  if !perc.beq (.fin 0) then (if (F64.fin (draw i)).le perc then some time else none, i + 1)
  else (none, i)

/-- Drop every message between `one` and `other`, both ways. -/
def cut (net : Network T) (one other : UInt64) : Network T :=
  (net.drop one other (.fin 1)).drop other one (.fin 1)

/-- One turn of the loop of `isolate`: cut `id` from peer `i + 1` unless that is `id`. -/
def isolateStep (id : UInt64) (net : Network T) (i : ℕ) : Network T :=
  let nid := i.toUInt64 + 1
  if nid ≠ id then (net.drop id nid (.fin 1)).drop nid id (.fin 1) else net

/-- `isolate`: cut `id` from each of the peers `1, …, peerCount` other than itself. -/
def isolate (net : Network T) (id : UInt64) : Network T :=
  (List.range net.peerCount).foldl (isolateStep id) net

/-- Clear every drop, delay and ignore rule. -/
def recover (net : Network T) : Network T :=
  { net with dropm := fun _ => none, delaym := fun _ => none, ignorem := fun _ => none }

/-- Whether `ignorem` drops messages of type `t`. -/
def ignored (net : Network T) (t : T) : Bool := (net.ignorem t).getD false

/-- The drop rate of the connection of `m`. -/
def dropRate (net : Network T) (m : Message T) : F64 := (net.dropm ⟨m.from, m.to⟩).getD (.fin 0)

section

variable [DecidableEq T] (msgHup : T)

/-- `filter`, from draw `i` on: the messages kept and the cursor after them. -/
def filter (net : Network T) (draw : Draws) :
    ℕ → List (Message T) → Except String (List (Message T) × ℕ)
  | i, [] => .ok ([], i)
  | i, m :: ms =>
    if net.ignored m.msgType then filter net draw i ms
    else if m.msgType = msgHup then .error "unexpected msgHup"
    else
      (fun (out, j) => (if (net.dropRate m).le (.fin (draw i)) then m :: out else out, j)) <$>
        filter net draw (i + 1) ms

/-! ### What `filter` keeps -/

section

variable {msgHup} {net : Network T} {draw : Draws}

/-- What `filter` does with the first message when it does not panic. -/
lemma filter_cons_eq_ok {m : Message T} {ms out : List (Message T)} {i j : ℕ}
    (h : filter msgHup net draw i (m :: ms) = .ok (out, j)) :
    net.ignored m.msgType = true ∧ filter msgHup net draw i ms = .ok (out, j) ∨
    net.ignored m.msgType = false ∧ ∃ out', filter msgHup net draw (i + 1) ms = .ok (out', j) ∧
      out = if (net.dropRate m).le (.fin (draw i)) then m :: out' else out' := by
  simp only [filter] at h
  split at h
  · exact .inl ⟨‹_›, h⟩
  rename_i hign
  split at h
  · cases h
  obtain ⟨⟨out', j'⟩, h', he⟩ := map_eq_ok.mp h
  cases he
  exact .inr ⟨Bool.eq_false_iff.mpr hign, out', h', rfl⟩

lemma filter_sublist {ms : List (Message T)} {i j : ℕ} {out : List (Message T)}
    (h : filter msgHup net draw i ms = .ok (out, j)) : out.Sublist ms := by
  induction ms generalizing i out with
  | nil => cases h; exact .slnil
  | cons m ms ih =>
    rcases filter_cons_eq_ok h with ⟨-, h'⟩ | ⟨-, out', h', rfl⟩
    · exact (ih h').cons m
    split
    exacts [(ih h').cons₂ m, (ih h').cons m]

/-- A message that `filter` keeps is of a type not ignored, and its connection is dropped at a
rate below one: not NaN. -/
lemma mem_filter {ms : List (Message T)} {i j : ℕ} {out : List (Message T)}
    (hdraw : ∀ i, draw i < 1) (h : filter msgHup net draw i ms = .ok (out, j))
    {m : Message T} (hm : m ∈ out) :
    net.ignored m.msgType = false ∧ (net.dropRate m).lt (.fin 1) = true := by
  induction ms generalizing i out with
  | nil => cases h; cases hm
  | cons m' ms ih =>
    rcases filter_cons_eq_ok h with ⟨-, h'⟩ | ⟨hign, out', h', rfl⟩
    · exact ih h' hm
    split at hm
    · rename_i hle
      rcases List.mem_cons.mp hm with rfl | hm
      exacts [⟨hign, F64.lt_fin_of_le hle (hdraw i)⟩, ih h' hm]
    · exact ih h' hm

/-- `filter` panics, with `unexpected msgHup`, exactly when a `MsgHup` of a type not ignored
is among the messages. -/
lemma filter_eq_error {ms : List (Message T)} {i : ℕ} :
    (∃ e, filter msgHup net draw i ms = .error e) ↔
      ∃ m ∈ ms, net.ignored m.msgType = false ∧ m.msgType = msgHup := by
  induction ms generalizing i with
  | nil => simp [filter]
  | cons m ms ih =>
    simp only [filter, List.mem_cons, or_and_right, exists_or, exists_eq_left]
    split
    · rename_i hign
      simp [ih, hign]
    rename_i hign
    split
    · rename_i hhup
      exact iff_of_true ⟨_, rfl⟩ (.inl ⟨Bool.eq_false_iff.mpr hign, hhup⟩)
    · rename_i hhup
      rw [← ih]
      cases filter msgHup net draw (i + 1) ms <;> simp [Except.map_ok, hhup]

lemma filter_error_msg {ms : List (Message T)} {i : ℕ} {e : String}
    (h : filter msgHup net draw i ms = .error e) : e = "unexpected msgHup" := by
  induction ms generalizing i with
  | nil => cases h
  | cons m ms ih =>
    simp only [filter] at h
    split at h
    · exact ih h
    split at h
    · cases h; rfl
    cases hf : filter msgHup net draw (i + 1) ms with
    | error e' => rw [hf] at h; cases h; exact ih hf
    | ok r => rw [hf] at h; cases h

end

end

/-! ### The rules `cut`, `isolate` and `recover` set -/

section

variable {net : Network T}

@[simp] lemma dropm_drop (a b : UInt64) (perc : F64) (c : Connection) :
    (net.drop a b perc).dropm c = if c = ⟨a, b⟩ then some perc else net.dropm c := by
  simp [drop, Function.update_apply]

@[simp] lemma peerCount_drop (a b : UInt64) (perc : F64) :
    (net.drop a b perc).peerCount = net.peerCount := rfl

lemma dropm_cut (a b : UInt64) :
    (net.cut a b).dropm ⟨a, b⟩ = some (.fin 1) ∧ (net.cut a b).dropm ⟨b, a⟩ = some (.fin 1) := by
  simp [cut]

/-- The loop of `isolate` keeps every rule at rate one and cuts `id` from each peer it
visits. -/
lemma dropm_foldl_isolateStep (id : UInt64) (is : List ℕ) (net : Network T) :
    (∀ c, net.dropm c = some (.fin 1) →
      (is.foldl (isolateStep id) net).dropm c = some (.fin 1)) ∧
      ∀ i ∈ is, i.toUInt64 + 1 ≠ id →
        (is.foldl (isolateStep id) net).dropm ⟨id, i.toUInt64 + 1⟩ = some (.fin 1) ∧
          (is.foldl (isolateStep id) net).dropm ⟨i.toUInt64 + 1, id⟩ = some (.fin 1) := by
  induction is generalizing net with
  | nil => simp
  | cons i is ih =>
    have hstep : ∀ c, net.dropm c = some (.fin 1) →
        (isolateStep id net i).dropm c = some (.fin 1) := by
      intro c hc
      by_cases hne : i.toUInt64 + 1 = id <;> simp [isolateStep, hne, hc]
    refine ⟨fun c hc => (ih _).1 c (hstep c hc), fun i' hi' hne => ?_⟩
    rcases List.mem_cons.mp hi' with rfl | hi'
    · exact ⟨(ih _).1 _ (by simp [isolateStep, hne]), (ih _).1 _ (by simp [isolateStep, hne])⟩
    · exact (ih _).2 i' hi' hne

lemma recover_dropRate (m : Message T) : net.recover.dropRate m = .fin 0 := rfl

lemma recover_ignored (t : T) : net.recover.ignored t = false := rfl

/-- After `recover`, `filter` keeps every message, drawing once for each. -/
lemma filter_recover [DecidableEq T] (msgHup : T) (draw : Draws) (hdraw : ∀ i, 0 ≤ draw i)
    {ms : List (Message T)} (hms : ∀ m ∈ ms, m.msgType ≠ msgHup) (i : ℕ) :
    filter msgHup net.recover draw i ms = .ok (ms, i + ms.length) := by
  induction ms generalizing i with
  | nil => rfl
  | cons m ms ih =>
    rw [filter, if_neg (by simp [recover_ignored]), if_neg (hms m (.head _)),
      ih (fun m hm => hms m (.tail _ hm)), recover_dropRate]
    simp [Except.map_ok, hdraw i]
    omega

lemma recover_maybeDelay (draw : Draws) (i : ℕ) (a b : UInt64) :
    net.recover.maybeDelay draw i a b = (none, i) := by
  simp [maybeDelay, recover]

/-- No message on a connection dropped at rate one passes `filter`. -/
lemma not_mem_filter [DecidableEq T] {msgHup : T} {draw : Draws} (hdraw : ∀ i, draw i < 1)
    {ms out : List (Message T)} {i j : ℕ} (h : filter msgHup net draw i ms = .ok (out, j))
    {m : Message T} (hc : net.dropm ⟨m.from, m.to⟩ = some (.fin 1)) : m ∉ out := fun hm => by
  simpa [dropRate, hc] using (mem_filter hdraw h hm).2

end

/-! ### The contract of the fault rules -/

/-- **`cut`, `isolate` and `recover` do what they say, whatever the draws.** With every draw
in `[0, 1)`: after `cut a b` no message from `a` to `b` or back passes `filter`; after
`isolate id` no message between `id` and another peer `k + 1`, `k < peerCount`, passes; and
after `recover` every message passes, with one draw each, and `maybe_delay` neither sleeps
nor draws. -/
theorem fault_rules [DecidableEq T] (msgHup : T) (net : Network T) (draw : Draws)
    (hdraw : ∀ i, 0 ≤ draw i ∧ draw i < 1) :
    (∀ a b i ms out j, filter msgHup (net.cut a b) draw i ms = .ok (out, j) →
      ∀ m ∈ out, ¬ (m.from = a ∧ m.to = b ∨ m.from = b ∧ m.to = a)) ∧
    (∀ id i ms out j, filter msgHup (net.isolate id) draw i ms = .ok (out, j) →
      ∀ m ∈ out, ∀ k < net.peerCount, k.toUInt64 + 1 ≠ id →
        ¬ (m.from = id ∧ m.to = k.toUInt64 + 1 ∨ m.from = k.toUInt64 + 1 ∧ m.to = id)) ∧
    (∀ i ms, (∀ m ∈ ms, m.msgType ≠ msgHup) →
      filter msgHup net.recover draw i ms = .ok (ms, i + ms.length)) ∧
    ∀ i a b, net.recover.maybeDelay draw i a b = (none, i) := by
  have hlt : ∀ i, draw i < 1 := fun i => (hdraw i).2
  refine ⟨fun a b i ms out j h m hm hab => ?_, fun id i ms out j h m hm k hk hne hab => ?_,
    fun i ms hms => filter_recover msgHup draw (fun i => (hdraw i).1) hms i,
    fun i a b => recover_maybeDelay draw i a b⟩
  · refine not_mem_filter hlt h ?_ hm
    rcases hab with ⟨h₁, h₂⟩ | ⟨h₁, h₂⟩ <;> rw [h₁, h₂]
    exacts [(dropm_cut a b).1, (dropm_cut a b).2]
  · have hcut := (dropm_foldl_isolateStep id (List.range net.peerCount) net).2 k
      (List.mem_range.mpr hk) hne
    refine not_mem_filter hlt h ?_ hm
    rcases hab with ⟨h₁, h₂⟩ | ⟨h₁, h₂⟩ <;> rw [h₁, h₂]
    exacts [hcut.1, hcut.2]

theorem fault_rules_example :
    (∀ i, 0 ≤ (fun _ => 0 : Draws) i ∧ (fun _ => 0 : Draws) i < 1) ∧
    (∀ a b i ms out j, filter true ((new 3 : Network Bool).cut a b) (fun _ => 0) i ms =
        .ok (out, j) → ∀ m ∈ out, ¬ (m.from = a ∧ m.to = b ∨ m.from = b ∧ m.to = a)) ∧
    (∀ id i ms out j, filter true ((new 3 : Network Bool).isolate id) (fun _ => 0) i ms =
        .ok (out, j) → ∀ m ∈ out, ∀ k < (new 3 : Network Bool).peerCount, k.toUInt64 + 1 ≠ id →
          ¬ (m.from = id ∧ m.to = k.toUInt64 + 1 ∨ m.from = k.toUInt64 + 1 ∧ m.to = id)) ∧
    (∀ i ms, (∀ m ∈ ms, m.msgType ≠ true) →
      filter true (new 3 : Network Bool).recover (fun _ => 0) i ms = .ok (ms, i + ms.length)) ∧
    ∀ i a b, (new 3 : Network Bool).recover.maybeDelay (fun _ => 0) i a b = (none, i) :=
  ⟨fun _ => ⟨le_rfl, zero_lt_one⟩,
    fault_rules true (new 3) (fun _ => 0) fun _ => ⟨le_rfl, zero_lt_one⟩⟩

end Network

end RaftProofs.Harness
