import RaftProofs.Acks

/-!
What the readiness gate stands for. The field comment of `waiting_for_ready` says that the first
`waiting_for_ready` contexts of the queue are pending because the leader has not committed in
its term. The only call that raises the gate is `advance(m, false)`, made while it has not,
and it gates the contexts at or before `m.context`; so the comment holds when each gated
context was reported so since it was registered. The gate keeps that meaning, and
`advance_by_commit` releases only such reads, along the runs that call `advance(_, true)` only
while no read is gated, as the leader does once it has committed in its term. Without that
discipline the gate leaves the queue (`gate_exceeds_queue`).

The statement reads the history of the run: a context was reported since its last
registration when some event reports it and no later event registers it again.
-/

namespace RaftProofs

/-- The event reports `k` not ready: an `advance(m, false)` made while `k` stood in the queue
at or before `m.context`. -/
def Event.ReportsNotReady (k : List UInt8) (e : Event) : Prop :=
  ∃ (m : Message) (i j : ℕ), e.call = .advance m false ∧ i ≤ j ∧ e.pre.readIndexQueue[i]? = some k ∧
    e.pre.readIndexQueue[j]? = some m.context

/-- In the history `hist`, `k` was reported not ready since it was last registered. -/
def Reported (hist : List Event) (k : List UInt8) : Prop :=
  ∃ es₁ e es₂, hist = es₁ ++ e :: es₂ ∧ e.ReportsNotReady k ∧ ∀ e' ∈ es₂, ¬ e'.Registers k

/-- The gate invariant of the field comment, after the history `hist`: the gate lies inside
the queue, and each gated context was reported not ready since its last registration. -/
def GateReported (hist : List Event) (s : ReadOnly) : Prop :=
  s.waitingForReady ≤ s.readIndexQueue.length ∧
    ∀ j < s.waitingForReady, ∀ k, s.readIndexQueue[j]? = some k → Reported hist k

/-- A call does not register a context that is pending when it is made. -/
lemma not_registers_of_pending {e : Event} {k : List UInt8}
    (hk : (e.pre.pendingReadIndex k).isSome) : ¬ e.Registers k := by
  rintro ⟨m, hm, hkey⟩
  obtain ⟨k', hk', hnone⟩ := ReadOnly.key_of_accepted hm
  cases hkey.symm.trans hk'
  simp [hnone] at hk

/-- A report stands after an event that does not register the context again. -/
lemma Reported.append {hist : List Event} {k : List UInt8} (h : Reported hist k) {e : Event}
    (he : ¬ e.Registers k) : Reported (hist ++ [e]) k := by
  obtain ⟨es₁, e₀, es₂, rfl, hrep, hafter⟩ := h
  refine ⟨es₁, e₀, es₂ ++ [e], by simp, hrep, fun e' he' => ?_⟩
  rcases List.mem_append.mp he' with he' | he'
  exacts [hafter e' he', (List.mem_singleton.mp he') ▸ he]

open ReadOnly

variable {hist : List Event} {s s' : ReadOnly} {r : Reply}

/-- One call keeps the gate invariant, unless it is `advance(_, true)` made while reads are
gated: a call leaves the gated contexts where they are, or empties the gate, and an
`advance(m, false)` reports the contexts it adds to the gate. -/
lemma GateReported.call {c : Call} (hs : s.Registry) (hg : GateReported hist s)
    (hready : ∀ m, c = .advance m true → s.waitingForReady = 0) (h : s.call c = .ok (r, s')) :
    GateReported (hist ++ [⟨s, c, r⟩]) s' := by
  refine ⟨gate_le_call hs hg.1 hready h, ?_⟩
  have hold : ∀ j < s.waitingForReady, ∀ k, s.readIndexQueue[j]? = some k →
      Reported (hist ++ [⟨s, c, r⟩]) k := fun j hj k hk =>
    (hg.2 j hj k hk).append (not_registers_of_pending
      (hs.isSome (List.mem_iff_getElem?.mpr ⟨j, hk⟩)))
  cases c with
  | addRequest index m =>
    obtain ⟨s₁, h₁, he⟩ := map_eq_ok.mp h
    cases he
    obtain ⟨e, -, -, ⟨-, rfl⟩ | ⟨-, rfl⟩⟩ := addRequest_cases h₁
    · exact hold
    · intro j hj k hk
      rw [List.getElem?_append_left (hj.trans_le hg.1)] at hk
      exact hold j hj k hk
  | recvAck m =>
    cases h
    simpa using hold
  | advance m ready =>
    obtain ⟨⟨rss, s₁⟩, h₁, he⟩ := map_eq_ok.mp h
    cases he
    obtain ⟨-, rfl⟩ | ⟨i, -, hic, rfl, -, rfl⟩ | ⟨n, -, rfl, -, rfl⟩ := advance_cases hs h₁
    · exact hold
    · intro j hj k hk
      rcases lt_or_le j s.waitingForReady with hjw | hjw
      · exact hold j hjw k hk
      · refine ⟨hist, _, [], rfl, ⟨m, j, i, rfl, ?_, hk, hic⟩, nofun⟩
        simp only [lt_max_iff] at hj
        omega
    · simp [hready m rfl]
  | advanceByCommit c =>
    obtain ⟨⟨rss, s₁⟩, h₁, he⟩ := map_eq_ok.mp h
    cases he
    obtain ⟨-, rfl⟩ | ⟨-, -, rfl⟩ := advanceByCommit_cases hs h₁
    · exact hold
    · simp

/-- What `advance_by_commit` releases under the gate invariant: statuses of reported
contexts, each stored under the context of its own request. -/
lemma released_of_gateReported {c : UInt64} (hs : s.Registry) (hk : s.Keyed)
    (hg : GateReported hist s) (h : s.call (.advanceByCommit c) = .ok (r, s')) :
    ∀ st ∈ r.released, ∃ k, st.req.key = some k ∧ Reported hist k := by
  obtain ⟨⟨rss, s₁⟩, h₁, he⟩ := map_eq_ok.mp h
  cases he
  intro st hst
  obtain ⟨j, hj, k, st₀, hjk, h₀, rfl⟩ := mem_advanceByCommit hs h₁ hst
  exact ⟨k, hk k st₀ h₀, hg.2 j hj k hjk⟩

/-- The gate invariant along a run from any state that keeps it, and what each
`advance_by_commit` of the run releases. -/
lemma gateReported_run {cs : List Call} {hist : List Event} {s t : ReadOnly} {es : List Event}
    (hs : s.Registry) (hk : s.Keyed) (hg : GateReported hist s) (h : run s cs = .ok (es, t))
    (hready : ∀ e ∈ es, ∀ m, e.call = .advance m true → e.pre.waitingForReady = 0) :
    GateReported (hist ++ es) t ∧ ∀ es₁ e es₂ c, es = es₁ ++ e :: es₂ →
      e.call = .advanceByCommit c →
      ∀ st ∈ e.reply.released, ∃ k, st.req.key = some k ∧ Reported (hist ++ es₁) k := by
  induction cs generalizing s hist es with
  | nil => cases h; exact ⟨by simpa using hg, fun es₁ e es₂ _ h => by simp at h⟩
  | cons c cs ih =>
    obtain ⟨r, s', es', hc, hr, rfl⟩ := run_cons_eq_ok.mp h
    obtain ⟨hg', hrel⟩ := ih (hs.call hc) (hk.call hs hc)
      (hg.call hs (hready _ (.head _)) hc) hr fun e he => hready e (.tail _ he)
    refine ⟨by simpa using hg', fun es₁ e es₂ c' hes hce => ?_⟩
    rcases List.cons_eq_append_iff.mp hes with ⟨rfl, hes'⟩ | ⟨es₁', rfl, hes'⟩
    · cases (List.cons.inj hes').1
      subst hce
      simpa using released_of_gateReported hs hk hg hc
    · simpa using hrel es₁' e es₂ c' hes' hce

/-- **Under the discipline, the gate covers only reported reads.** Along any run from `new`
in which `advance(_, true)` is called only while no read is gated, the gate lies inside the
queue and each gated context was reported not ready, by an `advance(m, false)` made while it
stood at or before `m.context`, since it was last registered; and every status that an
`advance_by_commit` of the run releases is stored under such a context. -/
theorem commit_releases_reported (option : ReadOnlyOption) (cs : List Call) {es : List Event}
    {s : ReadOnly} (h : run (new option) cs = .ok (es, s))
    (hready : ∀ e ∈ es, ∀ m, e.call = .advance m true → e.pre.waitingForReady = 0) :
    GateReported es s ∧ ∀ es₁ e es₂ c, es = es₁ ++ e :: es₂ → e.call = .advanceByCommit c →
      ∀ st ∈ e.reply.released, ∃ k, st.req.key = some k ∧ Reported es₁ k := by
  have hg : GateReported [] (new option) := ⟨Nat.zero_le _, fun j hj => absurd hj (by simp [new])⟩
  simpa using gateReported_run (registry_new option) (fun _ _ h => nomatch h) hg h hready

theorem commit_releases_reported_example :
    ∃ es s, run (new .safe) [.addRequest 1 ⟨1, 1, [], [⟨[1]⟩]⟩, .addRequest 1 ⟨1, 1, [], [⟨[2]⟩]⟩,
        .advance ⟨2, 1, [2], []⟩ false, .advanceByCommit 4, .advance ⟨2, 1, [1], []⟩ true] =
        .ok (es, s) ∧
      (∀ e ∈ es, ∀ m, e.call = .advance m true → e.pre.waitingForReady = 0) ∧
      GateReported es s ∧ ∀ es₁ e es₂ c, es = es₁ ++ e :: es₂ → e.call = .advanceByCommit c →
        ∀ st ∈ e.reply.released, ∃ k, st.req.key = some k ∧ Reported es₁ k := by
  refine ⟨_, _, rfl, (fun h => ⟨h, commit_releases_reported .safe
    [.addRequest 1 ⟨1, 1, [], [⟨[1]⟩]⟩, .addRequest 1 ⟨1, 1, [], [⟨[2]⟩]⟩,
      .advance ⟨2, 1, [2], []⟩ false, .advanceByCommit 4, .advance ⟨2, 1, [1], []⟩ true]
    rfl h⟩) ?_⟩
  intro e he m hm
  simp only [List.mem_cons, List.mem_nil_iff, or_false] at he
  rcases he with rfl | rfl | rfl | rfl | rfl <;> cases hm
  rfl

end RaftProofs
