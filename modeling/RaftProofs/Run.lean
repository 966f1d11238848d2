import RaftProofs.Registry

/-!
Runs of the registry: a sequence of calls of its interface, made one after the other. A run
records every call with the state it was made in and its reply, which is what statements
about whole histories read, and it stops at the first panic. The registry invariant holds
after every run from `ReadOnly.new`. The readiness gate does not stay inside the queue, but
it does along the runs that call `advance(_, true)` only while no read is gated.
-/

namespace RaftProofs

/-- A call of the registry's interface. -/
inductive Call
  | addRequest (index : UInt64) (m : Message)
  | recvAck (m : Message)
  | advance (m : Message) (ready : Bool)
  | advanceByCommit (committed : UInt64)

/-- What a call returns. -/
inductive Reply
  | unit
  | acks (acks : Finset UInt64)
  | statuses (rss : List ReadIndexStatus)

namespace ReadOnly

/-- Make one call: the method it names, with that method's result as the reply. -/
def call (s : ReadOnly) : Call → Except Panic (Reply × ReadOnly)
  | .addRequest index m => (fun s => (.unit, s)) <$> s.addRequest index m
  | .recvAck m => .ok (.acks (s.recvAck m).1, (s.recvAck m).2)
  | .advance m ready => (fun (rss, s) => (.statuses rss, s)) <$> s.advance m ready
  | .advanceByCommit c => (fun (rss, s) => (.statuses rss, s)) <$> s.advanceByCommit c

end ReadOnly

/-- A call of a run: the state it was made in, the call, and its reply. -/
structure Event where
  pre : ReadOnly
  call : Call
  reply : Reply

/-- Make the calls `cs` from `s`, one after the other; the first panic ends the run. -/
def run (s : ReadOnly) : List Call → Except Panic (List Event × ReadOnly)
  | [] => .ok ([], s)
  | c :: cs => s.call c >>= fun (r, s') => (fun (es, t) => (⟨s, c, r⟩ :: es, t)) <$> run s' cs

lemma run_cons_eq_ok {s t : ReadOnly} {c : Call} {cs : List Call} {es : List Event} :
    run s (c :: cs) = .ok (es, t) ↔
      ∃ r s' es', s.call c = .ok (r, s') ∧ run s' cs = .ok (es', t) ∧ es = ⟨s, c, r⟩ :: es' := by
  simp only [run, bind_eq_ok, map_eq_ok, Prod.exists, Prod.mk.injEq]
  constructor
  · rintro ⟨r, s', hc, es', t', hr, rfl, rfl⟩
    exact ⟨r, s', es', hc, hr, rfl⟩
  · rintro ⟨r, s', es', hc, hr, rfl⟩
    exact ⟨r, s', hc, es', t, hr, rfl, rfl⟩

lemma run_cons_eq_error {s : ReadOnly} {c : Call} {cs : List Call} {e : Panic} :
    run s (c :: cs) = .error e ↔
      s.call c = .error e ∨ ∃ r s', s.call c = .ok (r, s') ∧ run s' cs = .error e := by
  simp only [run, bind_eq_error, map_eq_error, Prod.exists]

/-- A property that every call keeps holds after every run. -/
lemma run_inv {P : ReadOnly → Prop}
    (hstep : ∀ {s s' : ReadOnly} {c : Call} {r : Reply}, P s → s.call c = .ok (r, s') → P s') :
    ∀ {cs : List Call} {s t : ReadOnly} {es : List Event}, P s → run s cs = .ok (es, t) → P t
  | [], _, _, _, hs, h => by cases h; exact hs
  | _ :: _, _, _, _, hs, h => by
    obtain ⟨_, _, _, hc, hr, -⟩ := run_cons_eq_ok.mp h
    exact run_inv hstep (hstep hs hc) hr

namespace ReadOnly

lemma Registry.call {s s' : ReadOnly} {c : Call} {r : Reply} (hs : s.Registry)
    (h : s.call c = .ok (r, s')) : s'.Registry := by
  cases c with
  | addRequest index m =>
    obtain ⟨s₁, h₁, he⟩ := map_eq_ok.mp h
    cases he
    exact hs.addRequest h₁
  | recvAck m =>
    cases h
    exact hs.recvAck m
  | advance m ready =>
    obtain ⟨⟨rss, s₁⟩, h₁, he⟩ := map_eq_ok.mp h
    cases he
    exact hs.advance h₁
  | advanceByCommit c =>
    obtain ⟨⟨rss, s₁⟩, h₁, he⟩ := map_eq_ok.mp h
    cases he
    exact hs.advanceByCommit h₁

/-- What one call does to the status of a context: it registers the context afresh, or the
status is the one before, with the acker added when the call is a `recv_ack` for it. -/
lemma pending_of_call {s s' : ReadOnly} {c : Call} {r : Reply} (hs : s.Registry)
    (h : s.call c = .ok (r, s')) {t : List UInt8} {st : ReadIndexStatus}
    (ht : s'.pendingReadIndex t = some st) :
    (∃ index m e es, c = .addRequest index m ∧ m.entries = e :: es ∧ e.data = t ∧
      s.pendingReadIndex t = none ∧ st = ⟨m, index, ∅⟩) ∨
    ∃ st₀, s.pendingReadIndex t = some st₀ ∧
      ((∀ m, c = .recvAck m → m.context ≠ t) ∧ st = st₀ ∨
        ∃ m, c = .recvAck m ∧ m.context = t ∧
          st = { st₀ with acks := insert m.from st₀.acks }) := by
  have hkeep : ∀ m, c = .recvAck m → m.context ≠ t → (∀ m, c = .recvAck m → m.context ≠ t) :=
    fun m hc hne m' hc' => (Call.recvAck.inj (hc.symm.trans hc')) ▸ hne
  cases c with
  | addRequest index m =>
    obtain ⟨s₁, h₁, he⟩ := map_eq_ok.mp h
    cases he
    obtain ⟨e, es, hm, ⟨-, rfl⟩ | ⟨hk, rfl⟩⟩ := addRequest_cases h₁
    · exact .inr ⟨st, ht, .inl ⟨nofun, rfl⟩⟩
    rcases eq_or_ne t e.data with rfl | hne
    · simp only [Function.update_same, Option.some.injEq] at ht
      exact .inl ⟨index, m, e, es, rfl, hm, rfl, hk, ht.symm⟩
    · exact .inr ⟨st, by simpa [hne] using ht, .inl ⟨nofun, rfl⟩⟩
  | recvAck m =>
    cases h
    cases hp : s.pendingReadIndex m.context with
    | none =>
      have hne : m.context ≠ t := by rintro rfl; simp [recvAck_of_none hp, hp] at ht
      rw [recvAck_of_none hp] at ht
      exact .inr ⟨st, ht, .inl ⟨hkeep m rfl hne, rfl⟩⟩
    | some rs =>
      rw [recvAck_of_some hp] at ht
      rcases eq_or_ne m.context t with rfl | hne
      · simp only [Function.update_same, Option.some.injEq] at ht
        exact .inr ⟨rs, hp, .inr ⟨m, rfl, rfl, ht.symm⟩⟩
      · exact .inr ⟨st, by simpa [Ne.symm hne] using ht, .inl ⟨hkeep m rfl hne, rfl⟩⟩
  | advance m ready =>
    obtain ⟨⟨rss, s₁⟩, h₁, he⟩ := map_eq_ok.mp h
    cases he
    refine .inr ⟨st, ?_, .inl ⟨nofun, rfl⟩⟩
    obtain ⟨-, rfl⟩ | ⟨i, -, -, -, -, rfl⟩ | ⟨n, -, -, -, rfl⟩ := advance_cases hs h₁
    exacts [ht, ht, eraseAll_eq_some ht]
  | advanceByCommit c =>
    obtain ⟨⟨rss, s₁⟩, h₁, he⟩ := map_eq_ok.mp h
    cases he
    refine .inr ⟨st, ?_, .inl ⟨nofun, rfl⟩⟩
    obtain ⟨-, rfl⟩ | ⟨-, -, rfl⟩ := advanceByCommit_cases hs h₁
    exacts [ht, eraseAll_eq_some ht]

lemma advance_isOk {s : ReadOnly} (hs : s.Registry) (m : Message) (ready : Bool) :
    ∃ r, s.advance m ready = .ok r := by
  by_cases hc : m.context ∈ s.readIndexQueue
  · obtain ⟨i, hi, hic⟩ := List.getElem_of_mem hc
    cases ready
    · exact ⟨_, advance_false_of_getElem hs hi hic⟩
    · exact ⟨_, advance_true_of_getElem hs hi hic⟩
  · exact ⟨_, advance_of_not_mem hs hc ready⟩

lemma advanceByCommit_error {s : ReadOnly} (hs : s.Registry) {c : UInt64} {e : Panic}
    (h : s.advanceByCommit c = .error e) : e = .splitOff := by
  rcases Nat.eq_zero_or_pos s.waitingForReady with h0 | hpos
  · rw [advanceByCommit_of_zero h0] at h
    cases h
  by_cases hw : s.waitingForReady ≤ s.readIndexQueue.length
  · rw [advanceByCommit_of_pos hs hw hpos] at h
    cases h
  · rw [advanceByCommit_of_lt (by omega)] at h
    cases h
    rfl

end ReadOnly

open ReadOnly

/-- **The registry invariant holds along every run.** After any calls from `new`, the queue
lists every pending context once; so the scan of `advance` never trips its assertion,
neither release loop fails to find a status, and a panic can only come from `split_off`. -/
theorem registry_of_run (option : ReadOnlyOption) (cs : List Call) {es : List Event}
    {s : ReadOnly} (h : run (new option) cs = .ok (es, s)) :
    s.Registry ∧ (∀ m ready, ∃ r, s.advance m ready = .ok r) ∧
      ∀ c e, s.advanceByCommit c = .error e → e = .splitOff := by
  have hs : s.Registry := run_inv (fun hs hc => hs.call hc) (registry_new option) h
  exact ⟨hs, advance_isOk hs, fun _ _ => advanceByCommit_error hs⟩

theorem registry_of_run_example :
    ∃ es s, run (new .safe) [.addRequest 3 ⟨1, 1, [], [⟨[7]⟩]⟩, .recvAck ⟨2, 1, [7], []⟩,
        .advance ⟨2, 1, [7], []⟩ false] = .ok (es, s) ∧
      s.Registry ∧ (∀ m ready, ∃ r, s.advance m ready = .ok r) ∧
      ∀ c e, s.advanceByCommit c = .error e → e = .splitOff :=
  ⟨_, _, rfl, registry_of_run .safe [.addRequest 3 ⟨1, 1, [], [⟨[7]⟩]⟩,
    .recvAck ⟨2, 1, [7], []⟩, .advance ⟨2, 1, [7], []⟩ false] rfl⟩

namespace ReadOnly

/-- One call keeps the gate inside the queue, unless it is `advance(_, true)` made while
reads are gated. -/
lemma gate_le_call {s s' : ReadOnly} {c : Call} {r : Reply} (hs : s.Registry)
    (hw : s.waitingForReady ≤ s.readIndexQueue.length)
    (hready : ∀ m, c = .advance m true → s.waitingForReady = 0) (h : s.call c = .ok (r, s')) :
    s'.waitingForReady ≤ s'.readIndexQueue.length := by
  cases c with
  | addRequest index m =>
    obtain ⟨s₁, h₁, he⟩ := map_eq_ok.mp h
    cases he
    obtain ⟨e, -, -, ⟨-, rfl⟩ | ⟨-, rfl⟩⟩ := addRequest_cases h₁
    · exact hw
    · simp only [List.length_append, List.length_singleton]; omega
  | recvAck m =>
    cases h
    simpa using hw
  | advance m ready =>
    obtain ⟨⟨rss, s₁⟩, h₁, he⟩ := map_eq_ok.mp h
    cases he
    obtain ⟨-, rfl⟩ | ⟨i, hi, -, -, -, rfl⟩ | ⟨n, -, rfl, -, rfl⟩ := advance_cases hs h₁
    · exact hw
    · exact max_le hw hi
    · simp [hready m rfl]
  | advanceByCommit c =>
    obtain ⟨⟨rss, s₁⟩, h₁, he⟩ := map_eq_ok.mp h
    cases he
    obtain ⟨-, rfl⟩ | ⟨-, -, rfl⟩ := advanceByCommit_cases hs h₁
    · exact hw
    · simp

end ReadOnly

lemma gate_le_run {cs : List Call} {s t : ReadOnly} {es : List Event} (hs : s.Registry)
    (hw : s.waitingForReady ≤ s.readIndexQueue.length) (h : run s cs = .ok (es, t))
    (hready : ∀ e ∈ es, ∀ m, e.call = .advance m true → e.pre.waitingForReady = 0) :
    t.waitingForReady ≤ t.readIndexQueue.length := by
  induction cs generalizing s es with
  | nil => cases h; exact hw
  | cons c cs ih =>
    obtain ⟨r, s', es', hc, hr, rfl⟩ := run_cons_eq_ok.mp h
    exact ih (hs.call hc) (gate_le_call hs hw (hready _ (.head _)) hc) hr
      fun e he => hready e (.tail _ he)

/-- **The gate stays inside the queue when `advance(_, true)` waits for it.** Along any run
from `new` in which `advance(_, true)` is called only while no read is gated, the gate never
passes the end of the queue, so `advance_by_commit` never panics. -/
theorem gate_le_queue_of_run (option : ReadOnlyOption) (cs : List Call) {es : List Event}
    {s : ReadOnly} (h : run (new option) cs = .ok (es, s))
    (hready : ∀ e ∈ es, ∀ m, e.call = .advance m true → e.pre.waitingForReady = 0) :
    s.waitingForReady ≤ s.readIndexQueue.length ∧ ∀ c, ∃ r, s.advanceByCommit c = .ok r := by
  have hs : s.Registry := run_inv (fun hs hc => hs.call hc) (registry_new option) h
  have hw := gate_le_run (registry_new option) le_rfl h hready
  refine ⟨hw, fun c => ?_⟩
  rcases Nat.eq_zero_or_pos s.waitingForReady with h0 | hpos
  exacts [⟨_, advanceByCommit_of_zero h0 c⟩, ⟨_, advanceByCommit_of_pos hs hw hpos⟩]

theorem gate_le_queue_of_run_example :
    ∃ es s, run (new .safe) [.addRequest 1 ⟨1, 1, [], [⟨[1]⟩]⟩, .addRequest 1 ⟨1, 1, [], [⟨[2]⟩]⟩,
        .advance ⟨2, 1, [2], []⟩ false, .advanceByCommit 4, .advance ⟨2, 1, [1], []⟩ true] =
        .ok (es, s) ∧
      (∀ e ∈ es, ∀ m, e.call = .advance m true → e.pre.waitingForReady = 0) ∧
      s.waitingForReady ≤ s.readIndexQueue.length ∧ ∀ c, ∃ r, s.advanceByCommit c = .ok r := by
  refine ⟨_, _, rfl, (fun h => ⟨h, gate_le_queue_of_run .safe [.addRequest 1 ⟨1, 1, [], [⟨[1]⟩]⟩,
    .addRequest 1 ⟨1, 1, [], [⟨[2]⟩]⟩, .advance ⟨2, 1, [2], []⟩ false, .advanceByCommit 4,
    .advance ⟨2, 1, [1], []⟩ true] rfl h⟩) ?_⟩
  intro e he m hm
  simp only [List.mem_cons, List.mem_nil_iff, or_false] at he
  rcases he with rfl | rfl | rfl | rfl | rfl <;> cases hm
  rfl

/-- **The gate leaves the queue.** Two reads are registered, the second is reported not
ready, so the gate covers both; the first is then released by `advance(_, true)`, which
does not lower the gate. The gate now counts two contexts of a queue of one, and the next
`advance_by_commit` panics in `split_off`. -/
theorem gate_exceeds_queue :
    (∃ es s, run (new .safe) [.addRequest 1 ⟨1, 1, [], [⟨[1]⟩]⟩,
        .addRequest 1 ⟨1, 1, [], [⟨[2]⟩]⟩, .advance ⟨2, 1, [2], []⟩ false,
        .advance ⟨2, 1, [1], []⟩ true] = .ok (es, s) ∧
      s.readIndexQueue.length = 1 ∧ s.waitingForReady = 2) ∧
    run (new .safe) [.addRequest 1 ⟨1, 1, [], [⟨[1]⟩]⟩,
        .addRequest 1 ⟨1, 1, [], [⟨[2]⟩]⟩, .advance ⟨2, 1, [2], []⟩ false,
        .advance ⟨2, 1, [1], []⟩ true, .advanceByCommit 5] = .error .splitOff :=
  ⟨⟨_, _, rfl, rfl, rfl⟩, rfl⟩

/-! ### Where a run can panic -/

/-- A run panics exactly when some call panics after the calls before it have returned. -/
lemma run_eq_error {s : ReadOnly} {cs : List Call} {e : Panic} :
    run s cs = .error e ↔ ∃ cs₁ c cs₂ es t, cs = cs₁ ++ c :: cs₂ ∧ run s cs₁ = .ok (es, t) ∧
      t.call c = .error e := by
  induction cs generalizing s with
  | nil => simp [run]
  | cons c cs ih =>
    rw [run_cons_eq_error]
    constructor
    · rintro (h | ⟨r, s', hc, h⟩)
      · exact ⟨[], c, cs, [], s, rfl, rfl, h⟩
      · obtain ⟨cs₁, c', cs₂, es, t, rfl, h₁, h'⟩ := ih.mp h
        exact ⟨c :: cs₁, c', cs₂, _, t, rfl, run_cons_eq_ok.mpr ⟨r, s', es, hc, h₁, rfl⟩, h'⟩
    · rintro ⟨_ | ⟨c₀, cs₁⟩, c', cs₂, es, t, hcs, h₁, h'⟩
      · cases h₁
        obtain ⟨rfl, rfl⟩ := List.cons.inj hcs
        exact .inl h'
      · obtain ⟨rfl, rfl⟩ := List.cons.inj hcs
        obtain ⟨r, s', es', hc, h₁, -⟩ := run_cons_eq_ok.mp h₁
        exact .inr ⟨r, s', hc, ih.mpr ⟨cs₁, c', cs₂, es', t, rfl, h₁, h'⟩⟩

namespace ReadOnly

/-- The calls that panic under the invariant: an `add_request` of a message without entries,
and an `advance_by_commit` while the gate passes the end of the queue. -/
lemma call_eq_error {s : ReadOnly} (hs : s.Registry) {c : Call} {e : Panic} :
    s.call c = .error e ↔
      (∃ index m, c = .addRequest index m ∧ m.entries = [] ∧ e = .entriesIndex) ∨
        ∃ committed, c = .advanceByCommit committed ∧
          s.readIndexQueue.length < s.waitingForReady ∧ e = .splitOff := by
  cases c with
  | addRequest index m => simp [call, map_eq_error, addRequest_eq_error, and_assoc]
  | recvAck m => simp [call]
  | advance m ready =>
    obtain ⟨r, hr⟩ := advance_isOk hs m ready
    simp [call, map_eq_error, hr]
  | advanceByCommit c => simp [call, map_eq_error, advanceByCommit_eq_error hs]

end ReadOnly

/-- **The only panics of the registry.** A run from `new` panics exactly when one of its calls,
made once the calls before it have returned, is an `add_request` of a message without
entries, which panics in `entries[0]`, or an `advance_by_commit` made while the gate passes
the end of the queue, which panics in `split_off`. The debug assertion in the scan of
`advance` and the `unwrap`s of the two release loops never fail. -/
theorem run_panics_iff (option : ReadOnlyOption) (cs : List Call) (e : Panic) :
    run (new option) cs = .error e ↔
      ∃ cs₁ c cs₂ es s, cs = cs₁ ++ c :: cs₂ ∧ run (new option) cs₁ = .ok (es, s) ∧
        ((∃ index m, c = .addRequest index m ∧ m.entries = [] ∧ e = .entriesIndex) ∨
          ∃ committed, c = .advanceByCommit committed ∧
            s.readIndexQueue.length < s.waitingForReady ∧ e = .splitOff) := by
  have hs : ∀ {cs₁ es s}, run (new option) cs₁ = .ok (es, s) → s.Registry :=
    run_inv (fun hs hc => hs.call hc) (registry_new option)
  rw [run_eq_error]
  exact exists_congr fun cs₁ => exists_congr fun c => exists_congr fun cs₂ =>
    exists_congr fun es => exists_congr fun s => and_congr_right fun _ =>
      and_congr_right fun h => call_eq_error (hs h)

end RaftProofs
