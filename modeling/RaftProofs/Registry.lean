import RaftProofs.ReadOnly
import Mathlib.Data.List.Forall2
import Mathlib.Data.List.Nodup

/-!
The registry invariant of `ReadOnly`: `readIndexQueue` lists each pending context exactly
once. Under it the scan of `advance` finds the one position of a context without tripping
its debug assertion, and both release loops take a prefix of the queue out of both halves
of the registry, so neither `unwrap` fails.
-/

namespace RaftProofs
namespace ReadOnly

/-- The registry invariant: the queue lists every pending context, each once. -/
structure Registry (s : ReadOnly) : Prop where
  nodup : s.readIndexQueue.Nodup
  mem_iff : ∀ k, k ∈ s.readIndexQueue ↔ (s.pendingReadIndex k).isSome

/-- The map without the statuses of `ks`. -/
def eraseAll (p : PendingMap) (ks : List (List UInt8)) : PendingMap :=
  fun k => if k ∈ ks then none else p k

@[simp] lemma eraseAll_nil (p : PendingMap) : eraseAll p [] = p := rfl

lemma eraseAll_eq_some {p : PendingMap} {ks : List (List UInt8)} {k : List UInt8}
    {st : ReadIndexStatus} (h : eraseAll p ks k = some st) : p k = some st := by
  unfold eraseAll at h
  split at h
  · cases h
  · exact h

lemma eraseAll_update (p : PendingMap) (x : List UInt8) (ks : List (List UInt8)) :
    eraseAll (Function.update p x none) ks = eraseAll p (x :: ks) := by
  funext k
  rcases eq_or_ne k x with rfl | h <;> simp [eraseAll, *]

/-- The statuses stored for `ks`, in the order of `ks`. -/
lemma forall₂_filterMap {p : PendingMap} {ks : List (List UInt8)}
    (h : ∀ k ∈ ks, (p k).isSome) :
    List.Forall₂ (fun k st => p k = some st) ks (ks.filterMap p) := by
  induction ks with
  | nil => exact .nil
  | cons k ks ih =>
    obtain ⟨st, hst⟩ := Option.isSome_iff_exists.mp (h k (.head _))
    simpa [hst] using ih fun k' hk' => h k' (.tail _ hk')

lemma Registry.isSome {s : ReadOnly} (hs : s.Registry) {k : List UInt8}
    (hk : k ∈ s.readIndexQueue) : (s.pendingReadIndex k).isSome :=
  (hs.mem_iff k).mp hk

/-- Releasing a prefix of the queue from both halves keeps the invariant. -/
lemma Registry.release {s t : ReadOnly} (hs : s.Registry) (n : ℕ)
    (hq : t.readIndexQueue = s.readIndexQueue.drop n)
    (hp : t.pendingReadIndex = eraseAll s.pendingReadIndex (s.readIndexQueue.take n)) :
    t.Registry where
  nodup := hq ▸ hs.nodup.sublist (List.drop_sublist _ _)
  mem_iff k := by
    have hdis := List.disjoint_take_drop hs.nodup (le_refl n)
    have hsplit := List.take_append_drop n s.readIndexQueue
    rw [hq, hp, eraseAll]
    by_cases ht : k ∈ s.readIndexQueue.take n
    · have hd : k ∉ s.readIndexQueue.drop n := fun hd => hdis ht hd
      simp [ht, hd]
    · have hd : k ∈ s.readIndexQueue ↔ k ∈ s.readIndexQueue.drop n :=
        ⟨fun hk => by rw [← hsplit, List.mem_append] at hk; exact hk.resolve_left ht,
          List.mem_of_mem_drop⟩
      simp [ht, ← hd, hs.mem_iff]

/-! ### The scan and the two loops -/

lemma position_of_not_mem {p : PendingMap} {ctx : List UInt8} {q : List (List UInt8)}
    (h : ∀ x ∈ q, (p x).isSome) (hc : ctx ∉ q) : position p ctx q = .ok none := by
  induction q with
  | nil => rfl
  | cons x q ih =>
    have hx : x ≠ ctx := by rintro rfl; exact hc (.head _)
    rw [position, if_pos (h x (.head _)), if_neg hx,
      ih (fun y hy => h y (.tail _ hy)) (fun hq => hc (.tail _ hq))]
    rfl

lemma position_of_getElem {p : PendingMap} {ctx : List UInt8} {q : List (List UInt8)}
    (h : ∀ x ∈ q, (p x).isSome) (hq : q.Nodup) {i : ℕ} (hi : i < q.length) (hc : q[i] = ctx) :
    position p ctx q = .ok (some i) := by
  induction q generalizing i with
  | nil => simp at hi
  | cons x q ih =>
    rw [position, if_pos (h x (.head _))]
    obtain _ | i := i
    · simp_all
    · have hx : x ≠ ctx := by
        rintro rfl; exact (List.nodup_cons.mp hq).1 (hc ▸ List.getElem_mem _)
      rw [if_neg hx, ih (fun y hy => h y (.tail _ hy)) hq.of_cons (by simpa using hi) hc]
      rfl

lemma popStatuses_eq {p : PendingMap} {q : List (List UInt8)} {n : ℕ} (hq : q.Nodup)
    (hn : n ≤ q.length) (hp : ∀ x ∈ q.take n, (p x).isSome) :
    popStatuses n q p = .ok ((q.take n).filterMap p, q.drop n, eraseAll p (q.take n)) := by
  induction n generalizing q p with
  | zero => rfl
  | succ n ih =>
    obtain _ | ⟨x, q⟩ := q
    · simp at hn
    obtain ⟨st, hst⟩ := Option.isSome_iff_exists.mp (hp x (by simp))
    have hne : ∀ y ∈ q.take n, Function.update p x none y = p y := fun y hy =>
      Function.update_noteq
        (by rintro rfl; exact (List.nodup_cons.mp hq).1 (List.mem_of_mem_take hy)) _ _
    have hrest := ih (p := Function.update p x none) hq.of_cons (by simpa using hn)
      fun y hy => by rw [hne y hy]; exact hp y (by simp [hy])
    simp only [popStatuses, removeUnwrap, hst, ok_bind, hrest, Except.map_ok]
    simp [List.filterMap_congr hne, eraseAll_update, hst]

lemma stampStatuses_eq {p : PendingMap} {q : List (List UInt8)} (hq : q.Nodup)
    (hp : ∀ x ∈ q, (p x).isSome) (c : UInt64) :
    stampStatuses c q p =
      .ok ((q.filterMap p).map fun st => { st with index := c }, eraseAll p q) := by
  induction q generalizing p with
  | nil => rfl
  | cons x q ih =>
    obtain ⟨st, hst⟩ := Option.isSome_iff_exists.mp (hp x (.head _))
    have hne : ∀ y ∈ q, Function.update p x none y = p y := fun y hy =>
      Function.update_noteq (by rintro rfl; exact (List.nodup_cons.mp hq).1 hy) _ _
    have hrest := ih (p := Function.update p x none) hq.of_cons
      fun y hy => by rw [hne y hy]; exact hp y (.tail _ hy)
    simp only [stampStatuses, removeUnwrap, hst, ok_bind, hrest, Except.map_ok]
    simp [List.filterMap_congr hne, eraseAll_update, hst]

/-! ### The operations under the invariant -/

section

variable {s : ReadOnly} (hs : s.Registry)
include hs

lemma Registry.take {n : ℕ} {x : List UInt8} (hx : x ∈ s.readIndexQueue.take n) :
    (s.pendingReadIndex x).isSome :=
  hs.isSome (List.mem_of_mem_take hx)

lemma advance_of_not_mem {m : Message} (hc : m.context ∉ s.readIndexQueue) (ready : Bool) :
    s.advance m ready = .ok ([], s) := by
  rw [advance, position_of_not_mem (fun _ => hs.isSome) hc]
  rfl

lemma advance_false_of_getElem {m : Message} {i : ℕ} (hi : i < s.readIndexQueue.length)
    (hc : s.readIndexQueue[i] = m.context) :
    s.advance m false = .ok ([], { s with waitingForReady := max s.waitingForReady (i + 1) }) := by
  rw [advance, position_of_getElem (fun _ => hs.isSome) hs.nodup hi hc]
  rfl

lemma advance_true_of_getElem {m : Message} {i : ℕ} (hi : i < s.readIndexQueue.length)
    (hc : s.readIndexQueue[i] = m.context) :
    s.advance m true = .ok ((s.readIndexQueue.take (i + 1)).filterMap s.pendingReadIndex,
      { s with
        readIndexQueue := s.readIndexQueue.drop (i + 1)
        pendingReadIndex := eraseAll s.pendingReadIndex (s.readIndexQueue.take (i + 1)) }) := by
  simp only [advance, position_of_getElem (fun _ => hs.isSome) hs.nodup hi hc, ok_bind,
    ↓reduceIte, popStatuses_eq hs.nodup hi fun _ => hs.take, Except.map_ok]

lemma advanceByCommit_of_pos {c : UInt64} (hw : s.waitingForReady ≤ s.readIndexQueue.length)
    (hpos : 0 < s.waitingForReady) :
    s.advanceByCommit c =
      .ok (((s.readIndexQueue.take s.waitingForReady).filterMap s.pendingReadIndex).map
          fun st => { st with index := c },
        { s with
          pendingReadIndex := eraseAll s.pendingReadIndex (s.readIndexQueue.take s.waitingForReady)
          readIndexQueue := s.readIndexQueue.drop s.waitingForReady
          waitingForReady := 0 }) := by
  simp only [advanceByCommit, if_pos hpos, splitOff, if_pos hw, ok_bind,
    stampStatuses_eq (hs.nodup.sublist (List.take_sublist _ _)) (fun _ => hs.take), Except.map_ok]

end

lemma advanceByCommit_of_zero {s : ReadOnly} (h0 : s.waitingForReady = 0) (c : UInt64) :
    s.advanceByCommit c = .ok ([], s) := by
  simp [advanceByCommit, h0]

lemma advanceByCommit_of_lt {s : ReadOnly} (hlt : s.readIndexQueue.length < s.waitingForReady)
    (c : UInt64) : s.advanceByCommit c = .error .splitOff := by
  rw [advanceByCommit, if_pos (by omega), splitOff, if_neg (by omega)]
  rfl

/-- `advance_by_commit` panics exactly when the gate passes the end of the queue. -/
lemma advanceByCommit_eq_error {s : ReadOnly} (hs : s.Registry) {c : UInt64} {e : Panic} :
    s.advanceByCommit c = .error e ↔
      s.readIndexQueue.length < s.waitingForReady ∧ e = .splitOff := by
  constructor
  · intro h
    rcases Nat.eq_zero_or_pos s.waitingForReady with h0 | hpos
    · rw [advanceByCommit_of_zero h0] at h
      cases h
    by_cases hw : s.waitingForReady ≤ s.readIndexQueue.length
    · rw [advanceByCommit_of_pos hs hw hpos] at h
      cases h
    · rw [advanceByCommit_of_lt (by omega)] at h
      cases h
      exact ⟨by omega, rfl⟩
  · rintro ⟨hlt, rfl⟩
    exact advanceByCommit_of_lt hlt c

/-- **`advance` under the invariant.** A context that is not queued releases nothing and
changes nothing. A context at position `i` either raises the gate to `i + 1`, or releases
the first `i + 1` statuses as stored and takes their contexts out of the queue and the map.
-/
theorem advance_spec {s : ReadOnly} (hs : s.Registry) (m : Message) :
    (m.context ∉ s.readIndexQueue → ∀ ready, s.advance m ready = .ok ([], s)) ∧
    ∀ i (hi : i < s.readIndexQueue.length), s.readIndexQueue[i] = m.context →
      s.advance m false = .ok ([], { s with waitingForReady := max s.waitingForReady (i + 1) }) ∧
      ∃ rss, s.advance m true = .ok (rss, { s with
          readIndexQueue := s.readIndexQueue.drop (i + 1)
          pendingReadIndex := eraseAll s.pendingReadIndex (s.readIndexQueue.take (i + 1)) }) ∧
        List.Forall₂ (fun k st => s.pendingReadIndex k = some st)
          (s.readIndexQueue.take (i + 1)) rss :=
  ⟨advance_of_not_mem hs, fun _ hi hc => ⟨advance_false_of_getElem hs hi hc, _,
    advance_true_of_getElem hs hi hc, forall₂_filterMap fun _ => hs.take⟩⟩

theorem advance_spec_example :
    let s : ReadOnly :=
      ⟨.safe, Function.update (fun _ => none) [7] (some ⟨⟨1, 1, [], [⟨[7]⟩]⟩, 3, ∅⟩), [[7]], 0⟩
    let m : Message := ⟨2, 1, [7], []⟩
    s.Registry ∧
    (m.context ∉ s.readIndexQueue → ∀ ready, s.advance m ready = .ok ([], s)) ∧
    ∀ i (hi : i < s.readIndexQueue.length), s.readIndexQueue[i] = m.context →
      s.advance m false = .ok ([], { s with waitingForReady := max s.waitingForReady (i + 1) }) ∧
      ∃ rss, s.advance m true = .ok (rss, { s with
          readIndexQueue := s.readIndexQueue.drop (i + 1)
          pendingReadIndex := eraseAll s.pendingReadIndex (s.readIndexQueue.take (i + 1)) }) ∧
        List.Forall₂ (fun k st => s.pendingReadIndex k = some st)
          (s.readIndexQueue.take (i + 1)) rss := by
  intro s m
  have hs : s.Registry :=
    ⟨by decide, fun k => by rcases eq_or_ne k [7] with rfl | h <;> simp [s, *]⟩
  exact ⟨hs, advance_spec hs m⟩

/-- **`advance_by_commit` under the invariant**, with the gate inside the queue: it releases
the gated statuses stamped with the commit index, and empties the gate. -/
theorem advanceByCommit_spec {s : ReadOnly} (hs : s.Registry)
    (hw : s.waitingForReady ≤ s.readIndexQueue.length) (c : UInt64) :
    (s.waitingForReady = 0 → s.advanceByCommit c = .ok ([], s)) ∧
    (0 < s.waitingForReady → ∃ rss, s.advanceByCommit c = .ok (rss, { s with
        pendingReadIndex := eraseAll s.pendingReadIndex (s.readIndexQueue.take s.waitingForReady)
        readIndexQueue := s.readIndexQueue.drop s.waitingForReady
        waitingForReady := 0 }) ∧
      List.Forall₂ (fun k st => ∃ st₀,
        s.pendingReadIndex k = some st₀ ∧ st = { st₀ with index := c })
        (s.readIndexQueue.take s.waitingForReady) rss) :=
  ⟨fun h0 => advanceByCommit_of_zero h0 c, fun hpos => ⟨_, advanceByCommit_of_pos hs hw hpos,
    List.forall₂_map_right_iff.mpr ((forall₂_filterMap fun _ => hs.take).imp
      fun _ st h => ⟨st, h, rfl⟩)⟩⟩

theorem advanceByCommit_spec_example :
    let s : ReadOnly :=
      ⟨.safe, Function.update (fun _ => none) [7] (some ⟨⟨1, 1, [], [⟨[7]⟩]⟩, 3, ∅⟩), [[7]], 1⟩
    s.Registry ∧ s.waitingForReady ≤ s.readIndexQueue.length ∧
    (s.waitingForReady = 0 → s.advanceByCommit 9 = .ok ([], s)) ∧
    (0 < s.waitingForReady → ∃ rss, s.advanceByCommit 9 = .ok (rss, { s with
        pendingReadIndex := eraseAll s.pendingReadIndex (s.readIndexQueue.take s.waitingForReady)
        readIndexQueue := s.readIndexQueue.drop s.waitingForReady
        waitingForReady := 0 }) ∧
      List.Forall₂ (fun k st => ∃ st₀,
        s.pendingReadIndex k = some st₀ ∧ st = { st₀ with index := 9 })
        (s.readIndexQueue.take s.waitingForReady) rss) := by
  intro s
  have hs : s.Registry :=
    ⟨by decide, fun k => by rcases eq_or_ne k [7] with rfl | h <;> simp [s, *]⟩
  exact ⟨hs, by decide, advanceByCommit_spec hs (by decide) 9⟩

/-- **Deferring a release to the commit releases the same reads.** When the gate is at or
before the position `i` of `m.context`, reporting `m` not ready and then committing at `c`
releases the statuses that `advance(m, true)` releases, in the same order, each with its index
replaced by `c`, and reaches the same state, except for the gate: the commit empties it, where
`advance(m, true)` leaves it as it was. -/
theorem advance_then_commit {s : ReadOnly} (hs : s.Registry) {m : Message} {i : ℕ}
    (hi : s.readIndexQueue[i]? = some m.context) (hw : s.waitingForReady ≤ i + 1) (c : UInt64) :
    (s.advance m false >>= fun (_, s₁) => s₁.advanceByCommit c) =
      (fun (rss, s₂) => (rss.map fun st => { st with index := c },
        { s₂ with waitingForReady := 0 })) <$> s.advance m true := by
  obtain ⟨hlt, hc⟩ := List.getElem?_eq_some_iff.mp hi
  have hs₁ : ({ s with waitingForReady := i + 1 } : ReadOnly).Registry := ⟨hs.nodup, hs.mem_iff⟩
  rw [advance_false_of_getElem hs hlt hc, advance_true_of_getElem hs hlt hc, ok_bind,
    max_eq_right hw]
  dsimp only
  rw [advanceByCommit_of_pos hs₁ hlt (Nat.succ_pos i)]
  rfl

theorem advance_then_commit_example :
    let s : ReadOnly :=
      ⟨.safe, Function.update (fun _ => none) [7] (some ⟨⟨1, 1, [], [⟨[7]⟩]⟩, 3, ∅⟩), [[7]], 0⟩
    let m : Message := ⟨2, 1, [7], []⟩
    s.Registry ∧ s.readIndexQueue[0]? = some m.context ∧ s.waitingForReady ≤ 0 + 1 ∧
      (s.advance m false >>= fun (_, s₁) => s₁.advanceByCommit 9) =
        (fun (rss, s₂) => (rss.map fun st => { st with index := 9 },
          { s₂ with waitingForReady := 0 })) <$> s.advance m true := by
  intro s m
  have hs : s.Registry :=
    ⟨by decide, fun k => by rcases eq_or_ne k [7] with rfl | h <;> simp [s, *]⟩
  exact ⟨hs, rfl, by decide, @advance_then_commit s hs m 0 rfl (by decide) 9⟩

/-! ### What each call can do -/

lemma addRequest_cases {s s' : ReadOnly} {index : UInt64} {m : Message}
    (h : s.addRequest index m = .ok s') :
    ∃ e es, m.entries = e :: es ∧
      ((s.pendingReadIndex e.data).isSome ∧ s' = s ∨
        s.pendingReadIndex e.data = none ∧ s' = { s with
          pendingReadIndex := Function.update s.pendingReadIndex e.data (some ⟨m, index, ∅⟩)
          readIndexQueue := s.readIndexQueue ++ [e.data] }) := by
  rcases hm : m.entries with _ | ⟨e, es⟩ <;> simp only [addRequest, hm] at h
  · cases h
  refine ⟨e, es, rfl, ?_⟩
  by_cases hk : (s.pendingReadIndex e.data).isSome
  · simp only [hk, if_true, Except.ok.injEq] at h
    exact .inl ⟨hk, h.symm⟩
  · simp only [hk, Bool.false_eq_true, if_false, Except.ok.injEq] at h
    exact .inr ⟨Option.not_isSome_iff_eq_none.mp hk, h.symm⟩

lemma addRequest_eq_error {s : ReadOnly} {index : UInt64} {m : Message} {e : Panic} :
    s.addRequest index m = .error e ↔ m.entries = [] ∧ e = .entriesIndex := by
  cases hm : m.entries with
  | nil => simp [addRequest, hm, eq_comm]
  | cons x xs =>
    simp only [addRequest, hm, reduceCtorEq, false_and, iff_false]
    split <;> simp

lemma recvAck_of_none {s : ReadOnly} {m : Message} (h : s.pendingReadIndex m.context = none) :
    s.recvAck m = (∅, s) := by
  simp [recvAck, h]

lemma recvAck_of_some {s : ReadOnly} {m : Message} {rs : ReadIndexStatus}
    (h : s.pendingReadIndex m.context = some rs) :
    s.recvAck m = (insert m.from rs.acks ∪ {m.to}, { s with
      pendingReadIndex := Function.update s.pendingReadIndex m.context
        (some { rs with acks := insert m.from rs.acks }) }) := by
  simp [recvAck, h]

@[simp] lemma recvAck_readIndexQueue (s : ReadOnly) (m : Message) :
    (s.recvAck m).2.readIndexQueue = s.readIndexQueue := by
  unfold recvAck; split <;> rfl

@[simp] lemma recvAck_waitingForReady (s : ReadOnly) (m : Message) :
    (s.recvAck m).2.waitingForReady = s.waitingForReady := by
  unfold recvAck; split <;> rfl

section

variable {s s' : ReadOnly} {rss : List ReadIndexStatus} (hs : s.Registry)
include hs

/-- Every way `advance` can return, under the invariant. -/
lemma advance_cases {m : Message} {ready : Bool} (h : s.advance m ready = .ok (rss, s')) :
    rss = [] ∧ s' = s ∨
    (∃ i < s.readIndexQueue.length, s.readIndexQueue[i]? = some m.context ∧ ready = false ∧
      rss = [] ∧ s' = { s with waitingForReady := max s.waitingForReady (i + 1) }) ∨
    ∃ n ≤ s.readIndexQueue.length, ready = true ∧
      rss = (s.readIndexQueue.take n).filterMap s.pendingReadIndex ∧
      s' = { s with
        readIndexQueue := s.readIndexQueue.drop n
        pendingReadIndex := eraseAll s.pendingReadIndex (s.readIndexQueue.take n) } := by
  by_cases hc : m.context ∈ s.readIndexQueue
  · obtain ⟨i, hi, hic⟩ := List.getElem_of_mem hc
    cases ready
    · rw [advance_false_of_getElem hs hi hic, Except.ok.injEq, Prod.mk.injEq] at h
      exact .inr (.inl ⟨i, hi, hic ▸ List.getElem?_eq_getElem hi, rfl, h.1.symm, h.2.symm⟩)
    · rw [advance_true_of_getElem hs hi hic, Except.ok.injEq, Prod.mk.injEq] at h
      exact .inr (.inr ⟨i + 1, hi, rfl, h.1.symm, h.2.symm⟩)
  · rw [advance_of_not_mem hs hc, Except.ok.injEq, Prod.mk.injEq] at h
    exact .inl ⟨h.1.symm, h.2.symm⟩

/-- Every way `advance_by_commit` can return, under the invariant. -/
lemma advanceByCommit_cases {c : UInt64} (h : s.advanceByCommit c = .ok (rss, s')) :
    rss = [] ∧ s' = s ∨
    s.waitingForReady ≤ s.readIndexQueue.length ∧
      rss = ((s.readIndexQueue.take s.waitingForReady).filterMap s.pendingReadIndex).map
        (fun st => { st with index := c }) ∧
      s' = { s with
        pendingReadIndex := eraseAll s.pendingReadIndex (s.readIndexQueue.take s.waitingForReady)
        readIndexQueue := s.readIndexQueue.drop s.waitingForReady
        waitingForReady := 0 } := by
  rcases Nat.eq_zero_or_pos s.waitingForReady with h0 | hpos
  · rw [advanceByCommit_of_zero h0, Except.ok.injEq, Prod.mk.injEq] at h
    exact .inl ⟨h.1.symm, h.2.symm⟩
  · by_cases hw : s.waitingForReady ≤ s.readIndexQueue.length
    · rw [advanceByCommit_of_pos hs hw hpos, Except.ok.injEq, Prod.mk.injEq] at h
      exact .inr ⟨hw, h.1.symm, h.2.symm⟩
    · rw [advanceByCommit_of_lt (by omega)] at h
      cases h

/-- What `advance_by_commit` releases: the statuses of gated contexts, stamped with the
commit index. -/
lemma mem_advanceByCommit {c : UInt64} (h : s.advanceByCommit c = .ok (rss, s'))
    {st : ReadIndexStatus} (hst : st ∈ rss) :
    ∃ j < s.waitingForReady, ∃ t st₀, s.readIndexQueue[j]? = some t ∧
      s.pendingReadIndex t = some st₀ ∧ st = { st₀ with index := c } := by
  obtain ⟨rfl, -⟩ | ⟨-, rfl, -⟩ := advanceByCommit_cases hs h
  · cases hst
  obtain ⟨st₀, hst₀, rfl⟩ := List.mem_map.mp hst
  obtain ⟨t, ht, h₀⟩ := List.mem_filterMap.mp hst₀
  obtain ⟨j, hj⟩ := List.mem_iff_getElem?.mp ht
  rw [List.getElem?_take] at hj
  split at hj
  · exact ⟨j, ‹_›, t, st₀, hj, h₀, rfl⟩
  · cases hj

end

/-! ### The invariant along the calls -/

lemma registry_new (option : ReadOnlyOption) : (new option).Registry :=
  ⟨List.nodup_nil, fun _ => by simp [new]⟩

lemma Registry.addRequest {s s' : ReadOnly} {index : UInt64} {m : Message} (hs : s.Registry)
    (h : s.addRequest index m = .ok s') : s'.Registry := by
  obtain ⟨e, -, -, ⟨-, rfl⟩ | ⟨hk, rfl⟩⟩ := addRequest_cases h
  · exact hs
  have hnot : e.data ∉ s.readIndexQueue := fun hmem => by simpa [hk] using hs.isSome hmem
  refine ⟨hs.nodup.append (List.nodup_singleton _) (by simpa using hnot), fun k => ?_⟩
  rcases eq_or_ne k e.data with rfl | hne
  · simp
  · simp [hne, hs.mem_iff]

lemma Registry.recvAck {s : ReadOnly} (hs : s.Registry) (m : Message) :
    (s.recvAck m).2.Registry := by
  cases h : s.pendingReadIndex m.context with
  | none => rwa [recvAck_of_none h]
  | some rs =>
    rw [recvAck_of_some h]
    refine ⟨hs.nodup, fun k => ?_⟩
    rcases eq_or_ne k m.context with rfl | hne
    · simp [hs.mem_iff, h]
    · simp [hne, hs.mem_iff]

lemma Registry.advance {s s' : ReadOnly} {rss : List ReadIndexStatus} {m : Message} {ready : Bool}
    (hs : s.Registry) (h : s.advance m ready = .ok (rss, s')) : s'.Registry := by
  obtain ⟨-, rfl⟩ | ⟨i, -, -, -, -, rfl⟩ | ⟨n, -, -, -, rfl⟩ := advance_cases hs h
  · exact hs
  · exact ⟨hs.nodup, hs.mem_iff⟩
  · exact hs.release n rfl rfl

lemma Registry.advanceByCommit {s s' : ReadOnly} {rss : List ReadIndexStatus} {c : UInt64}
    (hs : s.Registry) (h : s.advanceByCommit c = .ok (rss, s')) : s'.Registry := by
  obtain ⟨-, rfl⟩ | ⟨-, -, rfl⟩ := advanceByCommit_cases hs h
  · exact hs
  · exact hs.release _ rfl rfl

end ReadOnly

end RaftProofs
