import RaftProofs.Run

/-!
What the registry is for, as a model of its own: the pending reads in registration order,
each under its context with no context twice, and the readiness gate. Registering appends
a read, an ack updates the read under its context, and both releases take a prefix of the
reads. Under the registry invariant `ReadOnly` refines it: every call returns what the
abstract call returns and leaves the state that the abstract call leaves.
-/

namespace RaftProofs

/-- The registry of the spec: the pending reads in registration order, each under its
context and no context twice, and the readiness gate. -/
@[ext] structure Pending where
  reads : List (List UInt8 × ReadIndexStatus)
  nodup : (reads.map Prod.fst).Nodup
  gate : ℕ

namespace Pending

/-- The position of `ctx` among the contexts `ks`. -/
def findKey (ctx : List UInt8) : List (List UInt8) → Option ℕ
  | [] => none
  | k :: ks => if k = ctx then some 0 else (findKey ctx ks).map (· + 1)

lemma findKey_lt {ctx : List UInt8} {ks : List (List UInt8)} {i : ℕ}
    (h : findKey ctx ks = some i) : i < ks.length := by
  induction ks generalizing i with
  | nil => cases h
  | cons k ks ih =>
    simp only [findKey] at h
    split at h
    · cases h; simp
    · obtain ⟨j, hj, rfl⟩ := Option.map_eq_some'.mp h
      simpa using ih hj

/-- The reads after the first `n`, behind the gate `gate`. -/
def dropReads (P : Pending) (n gate : ℕ) : Pending :=
  ⟨P.reads.drop n, by rw [List.map_drop]; exact P.nodup.sublist (List.drop_sublist _ _), gate⟩

/-- Register a read under `k`, unless a read under `k` is pending. -/
def register (P : Pending) (k : List UInt8) (index : UInt64) (m : Message) : Pending :=
  if h : k ∈ P.reads.map Prod.fst then P
  else ⟨P.reads ++ [(k, ⟨m, index, ∅⟩)], by
    rw [List.map_append]
    exact P.nodup.append (List.nodup_singleton k) (List.disjoint_singleton.mpr h), P.gate⟩

/-- The read under `ctx`, with `acker` added to its acks. -/
def ackRead (ctx : List UInt8) (acker : UInt64) (r : List UInt8 × ReadIndexStatus) :
    List UInt8 × ReadIndexStatus :=
  if r.1 = ctx then (r.1, { r.2 with acks := insert acker r.2.acks }) else r

@[simp] lemma ackRead_fst (ctx : List UInt8) (acker : UInt64) (r : List UInt8 × ReadIndexStatus) :
    (ackRead ctx acker r).1 = r.1 := by
  unfold ackRead; split <;> rfl

/-- Add `m.from` to the acks of the read under `m.context`, and return them with `m.to`. -/
def ack (P : Pending) (m : Message) : Finset UInt64 × Pending :=
  match P.reads.find? (·.1 = m.context) with
  | none => (∅, P)
  | some r => (insert m.from r.2.acks ∪ {m.to}, ⟨P.reads.map (ackRead m.context m.from),
      by simpa [Function.comp_def] using P.nodup, P.gate⟩)

/-- Release the reads up to the one under `ctx`, or, when not ready, gate them. -/
def releaseThrough (P : Pending) (ctx : List UInt8) (ready : Bool) :
    List ReadIndexStatus × Pending :=
  match findKey ctx (P.reads.map Prod.fst) with
  | none => ([], P)
  | some i =>
    if ready then ((P.reads.take (i + 1)).map Prod.snd, P.dropReads (i + 1) P.gate)
    else ([], { P with gate := max P.gate (i + 1) })

/-- Release the gated reads, stamped with the commit index `c`. -/
def releaseGated (P : Pending) (c : UInt64) : List ReadIndexStatus × Pending :=
  if 0 < P.gate then
    ((P.reads.take P.gate).map fun r => { r.2 with index := c }, P.dropReads P.gate 0)
  else ([], P)

/-- One call on the abstract registry. -/
def step (P : Pending) : Call → Reply × Pending
  | .addRequest index m =>
    match m.entries with
    | [] => (.unit, P)
    | e :: _ => (.unit, P.register e.data index m)
  | .recvAck m => (.acks (P.ack m).1, (P.ack m).2)
  | .advance m ready =>
    (.statuses (P.releaseThrough m.context ready).1, (P.releaseThrough m.context ready).2)
  | .advanceByCommit c => (.statuses (P.releaseGated c).1, (P.releaseGated c).2)

/-- The empty registry, with no read and an empty gate. -/
def empty : Pending := ⟨[], List.nodup_nil, 0⟩

/-- Make the calls `cs` one after the other. -/
def run (P : Pending) : List Call → List Reply × Pending
  | [] => ([], P)
  | c :: cs => ((P.step c).1 :: ((P.step c).2.run cs).1, ((P.step c).2.run cs).2)

end Pending

/-! ### The view of a `ReadOnly` -/

namespace ReadOnly

/-- The pending reads of `q`, each with its status in `p`. -/
def viewReads (p : PendingMap) (q : List (List UInt8)) : List (List UInt8 × ReadIndexStatus) :=
  q.filterMap fun k => (p k).map (k, ·)

section

variable {p : PendingMap} {q : List (List UInt8)}

lemma map_fst_viewReads (h : ∀ k ∈ q, (p k).isSome) : (viewReads p q).map Prod.fst = q := by
  induction q with
  | nil => rfl
  | cons k q ih =>
    obtain ⟨st, hst⟩ := Option.isSome_iff_exists.mp (h k (.head _))
    have := ih fun k' hk' => h k' (.tail _ hk')
    simp only [viewReads] at this
    simp [viewReads, hst, this]

lemma map_snd_viewReads : (viewReads p q).map Prod.snd = q.filterMap p := by
  induction q with
  | nil => rfl
  | cons k q ih =>
    simp only [viewReads] at ih
    cases hk : p k <;> simp [viewReads, hk, ih]

lemma viewReads_append (q' : List (List UInt8)) :
    viewReads p (q ++ q') = viewReads p q ++ viewReads p q' :=
  List.filterMap_append _ _ _

lemma viewReads_congr {p' : PendingMap} (h : ∀ k ∈ q, p k = p' k) :
    viewReads p q = viewReads p' q :=
  List.filterMap_congr fun k hk => by rw [h k hk]

lemma viewReads_take (h : ∀ k ∈ q, (p k).isSome) (n : ℕ) :
    (viewReads p q).take n = viewReads p (q.take n) := by
  induction q generalizing n with
  | nil => simp [viewReads]
  | cons k q ih =>
    obtain ⟨st, hst⟩ := Option.isSome_iff_exists.mp (h k (.head _))
    cases n with
    | zero => simp [viewReads, hst]
    | succ n =>
      have := ih (fun k' hk' => h k' (.tail _ hk')) n
      simp only [viewReads] at this
      simp [viewReads, hst, this]

lemma viewReads_drop (h : ∀ k ∈ q, (p k).isSome) (n : ℕ) :
    (viewReads p q).drop n = viewReads p (q.drop n) := by
  induction q generalizing n with
  | nil => simp [viewReads]
  | cons k q ih =>
    obtain ⟨st, hst⟩ := Option.isSome_iff_exists.mp (h k (.head _))
    cases n with
    | zero => simp [viewReads, hst]
    | succ n =>
      have := ih (fun k' hk' => h k' (.tail _ hk')) n
      simp only [viewReads] at this
      simp [viewReads, hst, this]

lemma find?_viewReads (h : ∀ k ∈ q, (p k).isSome) (ctx : List UInt8) :
    (viewReads p q).find? (·.1 = ctx) = if ctx ∈ q then (p ctx).map (ctx, ·) else none := by
  induction q with
  | nil => rfl
  | cons k q ih =>
    obtain ⟨st, hst⟩ := Option.isSome_iff_exists.mp (h k (.head _))
    rcases eq_or_ne k ctx with rfl | hk
    · simp [viewReads, hst]
    · have := ih fun k' hk' => h k' (.tail _ hk')
      simp only [viewReads] at this
      simp [viewReads, hst, hk, this, Ne.symm hk]

end

/-- The abstract registry a `ReadOnly` stands for. -/
def view (s : ReadOnly) (hs : s.Registry) : Pending :=
  ⟨viewReads s.pendingReadIndex s.readIndexQueue,
    by rw [map_fst_viewReads fun _ => hs.isSome]; exact hs.nodup, s.waitingForReady⟩

lemma keys_view {s : ReadOnly} (hs : s.Registry) :
    (s.view hs).reads.map Prod.fst = s.readIndexQueue :=
  map_fst_viewReads fun _ => hs.isSome

/-- The scan of `advance`, under the invariant, is `findKey`. -/
lemma position_eq_findKey {p : PendingMap} {ctx : List UInt8} {q : List (List UInt8)}
    (h : ∀ x ∈ q, (p x).isSome) : position p ctx q = .ok (Pending.findKey ctx q) := by
  induction q with
  | nil => rfl
  | cons x q ih =>
    rw [position, if_pos (h x (.head _)), Pending.findKey, ih fun y hy => h y (.tail _ hy)]
    split <;> rfl

/-- What is left of the view after a release of the first `n` contexts. -/
lemma viewReads_release {s : ReadOnly} (hs : s.Registry) (n : ℕ) :
    viewReads (eraseAll s.pendingReadIndex (s.readIndexQueue.take n)) (s.readIndexQueue.drop n) =
      (s.view hs).reads.drop n := by
  rw [view, viewReads_drop (fun _ => hs.isSome)]
  refine viewReads_congr fun k hk => ?_
  have : k ∉ s.readIndexQueue.take n := fun ht =>
    List.disjoint_take_drop hs.nodup (le_refl n) ht hk
  simp [eraseAll, this]

/-! ### Refinement -/

section

variable {s : ReadOnly} (hs : s.Registry)
include hs

lemma view_addRequest {s' : ReadOnly} {index : UInt64} {m : Message}
    (h : s.addRequest index m = .ok s') :
    s'.view (hs.addRequest h) = ((s.view hs).step (.addRequest index m)).2 := by
  have hkeys := map_fst_viewReads fun k (hk : k ∈ s.readIndexQueue) => hs.isSome hk
  obtain ⟨e, es, hm, ⟨hk, hs'⟩ | ⟨hk, rfl⟩⟩ := addRequest_cases h
  · subst s'
    have : e.data ∈ s.readIndexQueue := (hs.mem_iff _).mpr hk
    simp [Pending.step, hm, Pending.register, view, hkeys, this]
  · have hq : e.data ∉ s.readIndexQueue := by simp [hs.mem_iff, hk]
    have hcongr : viewReads (Function.update s.pendingReadIndex e.data (some ⟨m, index, ∅⟩))
        s.readIndexQueue = viewReads s.pendingReadIndex s.readIndexQueue :=
      viewReads_congr fun k hk => Function.update_noteq (by rintro rfl; exact hq hk) _ _
    ext1
    · simp only [view, Pending.step, hm, Pending.register, hkeys, hq, dite_false,
        viewReads_append, hcongr]
      simp [viewReads]
    · simp [view, Pending.step, hm, Pending.register, hkeys, hq]

lemma view_recvAck (m : Message) :
    (.acks (s.recvAck m).1, (s.recvAck m).2.view (hs.recvAck m)) =
      (s.view hs).step (.recvAck m) := by
  have hfind := find?_viewReads (fun k (hk : k ∈ s.readIndexQueue) => hs.isSome hk) m.context
  cases h : s.pendingReadIndex m.context with
  | none =>
    simp only [h, Option.map_none', ite_self] at hfind
    simp [Pending.step, Pending.ack, view, hfind, recvAck_of_none h]
  | some rs =>
    have hq : m.context ∈ s.readIndexQueue := (hs.mem_iff _).mpr (by simp [h])
    simp only [h, hq, if_true, Option.map_some'] at hfind
    simp only [Pending.step, Pending.ack, view, hfind, recvAck_of_some h, Prod.mk.injEq,
      true_and]
    ext1
    · simp only [viewReads, List.map_filterMap]
      refine List.filterMap_congr fun k _ => ?_
      rcases eq_or_ne k m.context with rfl | hk
      · simp [h, Pending.ackRead]
      · cases hp : s.pendingReadIndex k <;> simp [hk, hp, Pending.ackRead]
    · rfl

lemma view_advance {s' : ReadOnly} {rss : List ReadIndexStatus} {m : Message} {ready : Bool}
    (h : s.advance m ready = .ok (rss, s')) :
    (Reply.statuses rss, s'.view (hs.advance h)) = (s.view hs).step (.advance m ready) := by
  generalize hs.advance h = hs'
  have hkeys := map_fst_viewReads fun k (hk : k ∈ s.readIndexQueue) => hs.isSome hk
  rw [advance, position_eq_findKey fun _ => hs.isSome, ok_bind] at h
  cases hf : Pending.findKey m.context s.readIndexQueue with
  | none =>
    rw [hf] at h
    cases h
    simp [Pending.step, Pending.releaseThrough, view, hkeys, hf]
  | some i =>
    rw [hf] at h
    cases ready
    · cases h
      simp [Pending.step, Pending.releaseThrough, view, hkeys, hf]
    · simp only [if_true, popStatuses_eq hs.nodup (Pending.findKey_lt hf) fun _ => hs.take,
        Except.map_ok] at h
      cases h
      simp only [Pending.step, Pending.releaseThrough, view, hkeys, hf, if_true]
      refine Prod.ext ?_ (Pending.ext ?_ rfl)
      · simp [viewReads_take (fun _ => hs.isSome), map_snd_viewReads]
      · exact viewReads_release hs (i + 1)

lemma view_advanceByCommit {s' : ReadOnly} {rss : List ReadIndexStatus} {c : UInt64}
    (h : s.advanceByCommit c = .ok (rss, s')) :
    (Reply.statuses rss, s'.view (hs.advanceByCommit h)) =
      (s.view hs).step (.advanceByCommit c) := by
  generalize hs.advanceByCommit h = hs'
  rcases Nat.eq_zero_or_pos s.waitingForReady with h0 | hpos
  · rw [advanceByCommit_of_zero h0] at h
    cases h
    simp [Pending.step, Pending.releaseGated, view, h0]
  by_cases hw : s.waitingForReady ≤ s.readIndexQueue.length
  · rw [advanceByCommit_of_pos hs hw hpos] at h
    cases h
    simp only [Pending.step, Pending.releaseGated, view, hpos, if_true]
    refine Prod.ext ?_ (Pending.ext ?_ rfl)
    · simp [viewReads_take (fun _ => hs.isSome), ← map_snd_viewReads, Function.comp_def]
    · exact viewReads_release hs _
  · rw [advanceByCommit_of_lt (by omega)] at h
    cases h

/-- **`ReadOnly` refines the abstract registry.** Under the registry invariant, a call that
does not panic returns what the abstract call returns and leaves the view that the abstract
call leaves. -/
lemma call_refines {c : Call} {r : Reply} {s' : ReadOnly} (h : s.call c = .ok (r, s')) :
    (r, s'.view (hs.call h)) = (s.view hs).step c := by
  generalize hs.call h = hs'
  cases c with
  | addRequest index m =>
    obtain ⟨s₁, h₁, he⟩ := map_eq_ok.mp h
    cases he
    refine Prod.ext ?_ (view_addRequest hs h₁)
    simp only [Pending.step]
    split <;> rfl
  | recvAck m =>
    cases h
    exact view_recvAck hs m
  | advance m ready =>
    obtain ⟨⟨rss, s₁⟩, h₁, he⟩ := map_eq_ok.mp h
    cases he
    exact view_advance hs h₁
  | advanceByCommit c =>
    obtain ⟨⟨rss, s₁⟩, h₁, he⟩ := map_eq_ok.mp h
    cases he
    exact view_advanceByCommit hs h₁

end

lemma run_refines_of_registry {cs : List Call} {s t : ReadOnly} {es : List Event}
    (hs : s.Registry) (h : run s cs = .ok (es, t)) :
    ∃ ht : t.Registry, (es.map Event.reply, t.view ht) = (s.view hs).run cs := by
  induction cs generalizing s es with
  | nil => cases h; exact ⟨hs, rfl⟩
  | cons c cs ih =>
    obtain ⟨r, s', es', hc, hr, rfl⟩ := run_cons_eq_ok.mp h
    obtain ⟨ht, heq⟩ := ih (hs.call hc) hr
    refine ⟨ht, ?_⟩
    rw [Pending.run, ← call_refines hs hc, ← heq]
    rfl

end ReadOnly

open ReadOnly

/-- **Every run of `ReadOnly` is a run of the abstract registry.** A run from `new` that
does not panic gives, call by call, the replies of the same calls made on the empty abstract
registry, and ends in the view of the abstract run's last state. -/
theorem run_refines (option : ReadOnlyOption) (cs : List Call) {es : List Event}
    {t : ReadOnly} (h : run (new option) cs = .ok (es, t)) :
    ∃ ht : t.Registry, (es.map Event.reply, t.view ht) = Pending.empty.run cs :=
  run_refines_of_registry (registry_new option) h

theorem run_refines_example :
    ∃ es t, run (new .safe) [.addRequest 1 ⟨1, 1, [], [⟨[1]⟩]⟩,
        .recvAck ⟨2, 1, [1], []⟩, .advance ⟨2, 1, [1], []⟩ true] = .ok (es, t) ∧
      ∃ ht : t.Registry, (es.map Event.reply, t.view ht) =
        Pending.empty.run [.addRequest 1 ⟨1, 1, [], [⟨[1]⟩]⟩, .recvAck ⟨2, 1, [1], []⟩,
          .advance ⟨2, 1, [1], []⟩ true] :=
  ⟨_, _, rfl, run_refines .safe [.addRequest 1 ⟨1, 1, [], [⟨[1]⟩]⟩,
    .recvAck ⟨2, 1, [1], []⟩, .advance ⟨2, 1, [1], []⟩ true] rfl⟩

end RaftProofs
