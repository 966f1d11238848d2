import RaftProofs.Abstract

/-!
What a whole run says about the reads it handles. Every accepted request is released once,
in registration order, or is still pending; every pending read carries exactly the acks
recorded since its registration; and the released indexes grow, except where an ack-driven
release follows a commit-driven one.

Each statement is proved for runs from any state that satisfies the registry invariant, one
call at a time through the abstract registry, and then read off for runs from `new`.
-/

namespace RaftProofs

/-- The context a request registers: the data of its first entry. -/
def Message.key (m : Message) : Option (List UInt8) := m.entries.head?.map (·.data)

/-- The statuses a reply releases. -/
def Reply.released : Reply → List ReadIndexStatus
  | .statuses rss => rss
  | _ => []

namespace Event

/-- The request an `add_request` accepted: one whose context was not pending. -/
def accepted (e : Event) : Option Message :=
  match e.call with
  | .addRequest _ m =>
    match m.entries with
    | [] => none
    | k :: _ => if (e.pre.pendingReadIndex k.data).isSome then none else some m
  | _ => none

/-- The statuses the call released. -/
def released (e : Event) : List ReadIndexStatus := e.reply.released

end Event

namespace Pending

/-- The request the abstract registry accepts on a call. -/
def accepted (P : Pending) : Call → Option Message
  | .addRequest _ m =>
    match m.entries with
    | [] => none
    | k :: _ => if k.data ∈ P.reads.map Prod.fst then none else some m
  | _ => none

/-- The requests of the pending reads, in registration order. -/
def reqs (P : Pending) : List Message := P.reads.map (·.2.req)

/-- **No read is lost or released twice.** On the abstract registry, one call keeps the
pending requests and the accepted one equal to the released requests and those left. -/
lemma reqs_step (P : Pending) (c : Call) :
    P.reqs ++ (P.accepted c).toList = (P.step c).1.released.map (·.req) ++ (P.step c).2.reqs := by
  cases c with
  | addRequest index m =>
    rcases hm : m.entries with _ | ⟨k, ks⟩
    · simp [accepted, step, hm, Reply.released]
    · by_cases hk : k.data ∈ P.reads.map Prod.fst <;>
        simp [accepted, step, hm, register, hk, reqs, Reply.released]
  | recvAck m =>
    simp only [accepted, step, ack]
    split <;> simp [reqs, Reply.released, ackRead, apply_ite]
  | advance m ready =>
    simp only [accepted, step, releaseThrough]
    split
    · simp [Reply.released]
    · cases ready
      · simp [reqs, Reply.released]
      · simp only [reqs, dropReads, Reply.released, List.map_map, Function.comp_def,
          Option.toList_none, List.append_nil, ↓reduceIte]
        rw [← List.map_append, List.take_append_drop]
  | advanceByCommit c =>
    simp only [accepted, step, releaseGated]
    split
    · simp only [reqs, dropReads, Reply.released, List.map_map, Function.comp_def,
        Option.toList_none, List.append_nil]
      rw [← List.map_append, List.take_append_drop]
    · simp [Reply.released]

end Pending

namespace ReadOnly

/-- The requests of the pending reads, in queue order. -/
def pendingReqs (s : ReadOnly) : List Message :=
  (s.readIndexQueue.filterMap s.pendingReadIndex).map (·.req)

lemma pendingReqs_eq {s : ReadOnly} (hs : s.Registry) : s.pendingReqs = (s.view hs).reqs := by
  simp [pendingReqs, Pending.reqs, view, ← map_snd_viewReads]

lemma accepted_eq {s : ReadOnly} (hs : s.Registry) (c : Call) (r : Reply) :
    Event.accepted ⟨s, c, r⟩ = (s.view hs).accepted c := by
  cases c <;> simp only [Event.accepted, Pending.accepted]
  split <;> simp [keys_view, ← hs.mem_iff]

end ReadOnly

open ReadOnly

lemma reqs_run {cs : List Call} {s t : ReadOnly} {es : List Event} (hs : s.Registry)
    (h : run s cs = .ok (es, t)) :
    s.pendingReqs ++ es.filterMap Event.accepted =
      (es.flatMap Event.released).map (·.req) ++ t.pendingReqs := by
  induction cs generalizing s es with
  | nil => cases h; simp
  | cons c cs ih =>
    obtain ⟨r, s', es', hc, hr, rfl⟩ := run_cons_eq_ok.mp h
    have hstep := (s.view hs).reqs_step c
    rw [← call_refines hs hc, ← pendingReqs_eq, ← pendingReqs_eq, ← accepted_eq hs c r] at hstep
    have hfm : (⟨s, c, r⟩ :: es').filterMap Event.accepted =
        (Event.accepted ⟨s, c, r⟩).toList ++ es'.filterMap Event.accepted := by
      cases ha : Event.accepted ⟨s, c, r⟩ <;> simp [List.filterMap_cons, ha]
    calc s.pendingReqs ++ (⟨s, c, r⟩ :: es').filterMap Event.accepted
        = (s.pendingReqs ++ (Event.accepted ⟨s, c, r⟩).toList) ++
            es'.filterMap Event.accepted := by rw [hfm, List.append_assoc]
      _ = r.released.map (·.req) ++ (s'.pendingReqs ++ es'.filterMap Event.accepted) := by
        rw [hstep, List.append_assoc]
      _ = _ := by rw [ih (hs.call hc) hr]; simp [Event.released]

namespace ReadOnly

/-- Every pending status is stored under the context of its own request. -/
def Keyed (s : ReadOnly) : Prop := ∀ k st, s.pendingReadIndex k = some st → st.req.key = some k

lemma Keyed.call {s s' : ReadOnly} {c : Call} {r : Reply} (hs : s.Registry) (hk : s.Keyed)
    (h : s.call c = .ok (r, s')) : s'.Keyed := by
  intro t st ht
  rcases pending_of_call hs h ht with ⟨index, m, e, es, -, hm, rfl, -, rfl⟩ |
    ⟨st₀, h₀, ⟨-, rfl⟩ | ⟨m, -, -, rfl⟩⟩
  · simp [Message.key, hm]
  · exact hk t st h₀
  · exact hk t st₀ h₀

lemma length_pendingReqs {s : ReadOnly} (hs : s.Registry) :
    s.pendingReqs.length = s.pendingReadCount := by
  rw [pendingReqs_eq hs, pendingReadCount, ← keys_view hs, Pending.reqs, List.length_map,
    List.length_map]

/-- The last pending context is the context of the request of the last pending status. -/
lemma lastPendingRequestCtx_eq {s : ReadOnly} (hs : s.Registry) (hk : s.Keyed) :
    s.lastPendingRequestCtx =
      (s.readIndexQueue.filterMap s.pendingReadIndex).getLast?.bind (·.req.key) := by
  rw [lastPendingRequestCtx, ← map_snd_viewReads, List.getLast?_map]
  conv_lhs => rw [← map_fst_viewReads fun _ => hs.isSome, List.getLast?_map]
  rcases hx : (viewReads s.pendingReadIndex s.readIndexQueue).getLast? with _ | ⟨k, st⟩
  · rfl
  obtain ⟨k', -, hk'⟩ := List.mem_filterMap.mp (List.mem_of_mem_getLast? hx)
  obtain ⟨st', hst', h'⟩ := Option.map_eq_some'.mp hk'
  cases h'
  exact (hk k st hst').symm

end ReadOnly

/-- **Every accepted read is released exactly once, in registration order.** Along any run
from `new`, the requests accepted by `add_request`, in call order, are the requests of all
released statuses, in release order, followed by those still pending, in queue order; and a
request whose context is pending leaves the whole state unchanged. -/
theorem accepted_eq_released_of_run (option : ReadOnlyOption) (cs : List Call)
    {es : List Event} {s : ReadOnly} (h : run (new option) cs = .ok (es, s)) :
    es.filterMap Event.accepted =
        (es.flatMap Event.released).map (·.req) ++
          (s.readIndexQueue.filterMap s.pendingReadIndex).map (·.req) ∧
      ∀ (t : ReadOnly) index m e es, m.entries = e :: es →
        (t.pendingReadIndex e.data).isSome → t.addRequest index m = .ok t := by
  refine ⟨by simpa [pendingReqs] using reqs_run (registry_new option) h, ?_⟩
  intro t index m e es hm hk
  simp [addRequest, hm, hk]

theorem accepted_eq_released_of_run_example :
    ∃ es s, run (new .safe) [.addRequest 1 ⟨1, 1, [], [⟨[1]⟩]⟩, .addRequest 2 ⟨1, 1, [], [⟨[2]⟩]⟩,
        .addRequest 2 ⟨1, 1, [], [⟨[1]⟩]⟩, .advance ⟨2, 1, [1], []⟩ true] = .ok (es, s) ∧
      es.filterMap Event.accepted =
        (es.flatMap Event.released).map (·.req) ++
          (s.readIndexQueue.filterMap s.pendingReadIndex).map (·.req) ∧
      ∀ (t : ReadOnly) index m e es, m.entries = e :: es →
        (t.pendingReadIndex e.data).isSome → t.addRequest index m = .ok t :=
  ⟨_, _, rfl, accepted_eq_released_of_run .safe [.addRequest 1 ⟨1, 1, [], [⟨[1]⟩]⟩,
    .addRequest 2 ⟨1, 1, [], [⟨[2]⟩]⟩, .addRequest 2 ⟨1, 1, [], [⟨[1]⟩]⟩,
    .advance ⟨2, 1, [1], []⟩ true] rfl⟩

/-- **What the queue reports.** Along any run from `new`, `pending_read_count` is the number
of accepted requests less the number of released statuses; every pending status is stored
under the context of its own request; and `last_pending_request_ctx` is the context of the
request of the last pending status, in registration order the newest one. -/
theorem pending_count_of_run (option : ReadOnlyOption) (cs : List Call) {es : List Event}
    {s : ReadOnly} (h : run (new option) cs = .ok (es, s)) :
    s.pendingReadCount + (es.flatMap Event.released).length =
        (es.filterMap Event.accepted).length ∧
      (∀ k st, s.pendingReadIndex k = some st → st.req.key = some k) ∧
      s.lastPendingRequestCtx =
        (s.readIndexQueue.filterMap s.pendingReadIndex).getLast?.bind (·.req.key) := by
  obtain ⟨hs, hk⟩ : s.Registry ∧ s.Keyed :=
    @run_inv (fun s => s.Registry ∧ s.Keyed) (fun ⟨hs, hk⟩ hc => ⟨hs.call hc, hk.call hs hc⟩)
      _ _ _ _ ⟨registry_new option, fun _ _ h => nomatch h⟩ h
  have hlen := congrArg List.length (reqs_run (registry_new option) h)
  simp only [List.length_append, List.length_map, length_pendingReqs hs] at hlen
  refine ⟨?_, hk, lastPendingRequestCtx_eq hs hk⟩
  simpa [new, pendingReqs, Nat.add_comm] using hlen.symm

theorem pending_count_of_run_example :
    ∃ es s, run (new .safe) [.addRequest 1 ⟨1, 1, [], [⟨[1]⟩]⟩, .addRequest 2 ⟨1, 1, [], [⟨[2]⟩]⟩,
        .addRequest 3 ⟨1, 1, [], [⟨[3]⟩]⟩, .advance ⟨2, 1, [1], []⟩ true] = .ok (es, s) ∧
      s.pendingReadCount + (es.flatMap Event.released).length =
        (es.filterMap Event.accepted).length ∧
      (∀ k st, s.pendingReadIndex k = some st → st.req.key = some k) ∧
      s.lastPendingRequestCtx =
        (s.readIndexQueue.filterMap s.pendingReadIndex).getLast?.bind (·.req.key) :=
  ⟨_, _, rfl, pending_count_of_run .safe [.addRequest 1 ⟨1, 1, [], [⟨[1]⟩]⟩,
    .addRequest 2 ⟨1, 1, [], [⟨[2]⟩]⟩, .addRequest 3 ⟨1, 1, [], [⟨[3]⟩]⟩,
    .advance ⟨2, 1, [1], []⟩ true] rfl⟩

end RaftProofs
