import RaftProofs.History

/-!
The ack set of a pending read is exactly what `recv_ack` recorded for its context since the
`add_request` that registered it: a duplicate registration does not reset it, and nothing
recorded for an earlier, released registration of the same context survives. The ack sets
then leave the registry unchanged in the released statuses.
-/

namespace RaftProofs

namespace Event

/-- The call is an accepted `add_request` that registers `t`. -/
def Registers (t : List UInt8) (e : Event) : Prop := ∃ m, e.accepted = some m ∧ m.key = some t

/-- The acker a `recv_ack` for `t` names. -/
def ackFrom (t : List UInt8) (e : Event) : Option UInt64 :=
  match e.call with
  | .recvAck m => if m.context = t then some m.from else none
  | _ => none

end Event

namespace ReadOnly

/-- An accepted request's context was not pending. -/
lemma key_of_accepted {e : Event} {m : Message} (h : e.accepted = some m) :
    ∃ k, m.key = some k ∧ e.pre.pendingReadIndex k = none := by
  unfold Event.accepted at h
  split at h
  · split at h
    · cases h
    · rename_i k ks hks
      split at h
      · cases h
      · rename_i hnone
        cases h
        exact ⟨k.data, by simp [Message.key, hks], by simpa using hnone⟩
  · cases h

/-- **One call and the acks of `t`.** A call either registers `t` afresh, with no acks, or
keeps the acks `t` had and adds the acker of a `recv_ack` for `t`. -/
lemma acks_step {s s' : ReadOnly} {c : Call} {r : Reply} (hs : s.Registry)
    (h : s.call c = .ok (r, s')) {t : List UInt8} {st : ReadIndexStatus}
    (ht : s'.pendingReadIndex t = some st) :
    (Event.Registers t ⟨s, c, r⟩ ∧ st.acks = ∅) ∨
    (¬ Event.Registers t ⟨s, c, r⟩ ∧ ∃ st₀, s.pendingReadIndex t = some st₀ ∧
      st.acks = st₀.acks ∪ (Event.ackFrom t ⟨s, c, r⟩).toList.toFinset) := by
  rcases pending_of_call hs h ht with ⟨index, m, e, es, rfl, hm, rfl, hk, rfl⟩ | ⟨st₀, h₀, hst⟩
  · exact .inl ⟨⟨m, by simp [Event.accepted, hm, hk], by simp [Message.key, hm]⟩, rfl⟩
  refine .inr ⟨fun ⟨m, hm, hkey⟩ => ?_, st₀, h₀, ?_⟩
  · obtain ⟨k, hk, hnone⟩ := key_of_accepted hm
    cases hkey.symm.trans hk
    simp [h₀] at hnone
  rcases hst with ⟨hne, rfl⟩ | ⟨m, rfl, rfl, rfl⟩
  · have hnone : Event.ackFrom t ⟨s, c, r⟩ = none := by
      unfold Event.ackFrom
      split
      · rename_i m hc
        simp [hne m hc]
      · rfl
    simp [hnone]
  · simp [Event.ackFrom, Finset.insert_eq, Finset.union_comm]

end ReadOnly

open ReadOnly

/-- The acks of a pending read after a run: those recorded since the run registered it, or,
when the run did not, those it had before with the ones the run recorded. -/
lemma acks_run {cs : List Call} {s t : ReadOnly} {es : List Event} (hs : s.Registry)
    (h : run s cs = .ok (es, t)) {k : List UInt8} {st : ReadIndexStatus}
    (hk : t.pendingReadIndex k = some st) :
    (∃ es₁ e es₂, es = es₁ ++ e :: es₂ ∧ e.Registers k ∧
      (∀ e' ∈ es₂, ¬ e'.Registers k) ∧
      st.acks = (es₂.filterMap (Event.ackFrom k)).toFinset) ∨
    ((∀ e ∈ es, ¬ e.Registers k) ∧ ∃ st₀, s.pendingReadIndex k = some st₀ ∧
      st.acks = st₀.acks ∪ (es.filterMap (Event.ackFrom k)).toFinset) := by
  induction cs generalizing s es with
  | nil =>
    cases h
    exact .inr ⟨nofun, st, hk, by simp⟩
  | cons c cs ih =>
    obtain ⟨r, s', es', hc, hr, rfl⟩ := run_cons_eq_ok.mp h
    rcases ih (hs.call hc) hr with
      ⟨es₁, e, es₂, rfl, he, hafter, hacks⟩ | ⟨hnone, st₁, h₁, hacks⟩
    · exact .inl ⟨⟨s, c, r⟩ :: es₁, e, es₂, rfl, he, hafter, hacks⟩
    rcases acks_step hs hc h₁ with ⟨hreg, h₀⟩ | ⟨hreg, st₀, h₀, hacks₀⟩
    · exact .inl ⟨[], _, es', rfl, hreg, hnone, by simp [hacks, h₀]⟩
    · refine .inr ⟨?_, st₀, h₀, ?_⟩
      · rintro e (_ | ⟨_, he⟩)
        exacts [hreg, hnone e he]
      · rw [hacks, hacks₀, Finset.union_assoc]
        cases ha : Event.ackFrom k ⟨s, c, r⟩ <;>
          simp [List.filterMap_cons, ha, Finset.insert_eq]

/-- **The acks of a pending read are those recorded since its registration.** After any run
from `new`, a pending context `t` was registered by an accepted `add_request` of the run,
and its acks are the ackers of the `recv_ack` calls for `t` made after the last such one.
From there `recv_ack` adds its acker and returns the acks with the local node; on a context
that is not pending it returns nothing and changes nothing; and both releases hand out the
stored statuses, acks unchanged. -/
theorem acks_of_run (option : ReadOnlyOption) (cs : List Call) {es : List Event} {s : ReadOnly}
    (h : run (new option) cs = .ok (es, s)) :
    (∀ t st, s.pendingReadIndex t = some st →
      ∃ es₁ e es₂, es = es₁ ++ e :: es₂ ∧ e.Registers t ∧
        (∀ e' ∈ es₂, ¬ e'.Registers t) ∧
        st.acks = (es₂.filterMap (Event.ackFrom t)).toFinset) ∧
    (∀ m st, s.pendingReadIndex m.context = some st →
      (s.recvAck m).2.pendingReadIndex m.context =
        some { st with acks := insert m.from st.acks } ∧
      (s.recvAck m).1 = insert m.from st.acks ∪ {m.to}) ∧
    (∀ m, s.pendingReadIndex m.context = none → s.recvAck m = (∅, s)) ∧
    (∀ m ready rss s', s.advance m ready = .ok (rss, s') →
      ∀ st ∈ rss, ∃ t, s.pendingReadIndex t = some st) ∧
    (∀ c rss s', s.advanceByCommit c = .ok (rss, s') →
      ∀ st ∈ rss, ∃ t st₀, s.pendingReadIndex t = some st₀ ∧
        st = { st₀ with index := c }) := by
  have hs : s.Registry := run_inv (fun hs hc => hs.call hc) (registry_new option) h
  refine ⟨fun t st ht => ?_, fun m st hm => ?_, fun m hm => recvAck_of_none hm,
    fun m ready rss s' ha st hst => ?_, fun c rss s' ha st hst => ?_⟩
  · rcases acks_run (registry_new option) h ht with hreg | ⟨-, st₀, h₀, -⟩
    · exact hreg
    · cases h₀
  · simp [recvAck_of_some hm]
  · obtain ⟨rfl, -⟩ | ⟨i, -, -, -, rfl, -⟩ | ⟨n, -, -, rfl, -⟩ := advance_cases hs ha
    · cases hst
    · cases hst
    · obtain ⟨t, -, ht⟩ := List.mem_filterMap.mp hst
      exact ⟨t, ht⟩
  · obtain ⟨-, -, t, st₀, -, ht, rfl⟩ := mem_advanceByCommit hs ha hst
    exact ⟨t, st₀, ht, rfl⟩

theorem acks_of_run_example :
    ∃ es s, run (new .safe) [.addRequest 1 ⟨1, 1, [], [⟨[1]⟩]⟩,
        .recvAck ⟨2, 1, [1], []⟩, .addRequest 2 ⟨1, 1, [], [⟨[1]⟩]⟩,
        .recvAck ⟨3, 1, [1], []⟩] = .ok (es, s) ∧
    (∀ t st, s.pendingReadIndex t = some st →
      ∃ es₁ e es₂, es = es₁ ++ e :: es₂ ∧ e.Registers t ∧
        (∀ e' ∈ es₂, ¬ e'.Registers t) ∧
        st.acks = (es₂.filterMap (Event.ackFrom t)).toFinset) ∧
    (∀ m st, s.pendingReadIndex m.context = some st →
      (s.recvAck m).2.pendingReadIndex m.context =
        some { st with acks := insert m.from st.acks } ∧
      (s.recvAck m).1 = insert m.from st.acks ∪ {m.to}) ∧
    (∀ m, s.pendingReadIndex m.context = none → s.recvAck m = (∅, s)) ∧
    (∀ m ready rss s', s.advance m ready = .ok (rss, s') →
      ∀ st ∈ rss, ∃ t, s.pendingReadIndex t = some st) ∧
    (∀ c rss s', s.advanceByCommit c = .ok (rss, s') →
      ∀ st ∈ rss, ∃ t st₀, s.pendingReadIndex t = some st₀ ∧
        st = { st₀ with index := c }) :=
  ⟨_, _, rfl, acks_of_run .safe [.addRequest 1 ⟨1, 1, [], [⟨[1]⟩]⟩,
    .recvAck ⟨2, 1, [1], []⟩, .addRequest 2 ⟨1, 1, [], [⟨[1]⟩]⟩,
    .recvAck ⟨3, 1, [1], []⟩] rfl⟩

end RaftProofs
