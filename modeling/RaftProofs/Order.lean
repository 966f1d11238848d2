import RaftProofs.History

/-!
The order of the released indexes. A read released by `advance` carries the index captured
when it was registered, while `advance_by_commit` stamps the reads it releases with the
commit index it is given. When the indexes given to the registry never decrease, the
released indexes never decrease either, except in one place: a read released by `advance`
may carry a smaller index than one released earlier by `advance_by_commit`.
-/

namespace RaftProofs

/-- The index a call is given: that of an `add_request`, or the commit index of an
`advance_by_commit`. -/
def Call.arg : Call → Option UInt64
  | .addRequest index _ => some index
  | .advanceByCommit c => some c
  | _ => none

/-- Whether the call is an `advance_by_commit`. -/
def Call.byCommit : Call → Bool
  | .advanceByCommit _ => true
  | _ => false

/-- Two releases in order: the later index is no smaller, unless the earlier release was
driven by a commit and the later one by an ack. -/
def InOrder (a b : Bool × UInt64) : Prop := a.2 ≤ b.2 ∨ (a.1 = true ∧ b.1 = false)

namespace Pending

/-- What the released indexes `R` and the pending reads keep, below the last index `b` the
registry was given. -/
structure Ordered (P : Pending) (R : List (Bool × UInt64)) (b : UInt64) : Prop where
  released_le : ∀ x ∈ R, x.2 ≤ b
  pending_le : ∀ r ∈ P.reads, r.2.index ≤ b
  released_pending : ∀ x ∈ R, ∀ r ∈ P.reads, x.2 ≤ r.2.index ∨ x.1 = true
  released : R.Pairwise InOrder
  pending : (P.reads.map (·.2.index)).Pairwise (· ≤ ·)

variable {P : Pending} {R : List (Bool × UInt64)} {b : UInt64}

/-- A new, larger bound keeps the invariant when the reads and releases stay. -/
lemma Ordered.raise (h : P.Ordered R b) {b' : UInt64} (hb : b ≤ b') : P.Ordered R b' :=
  ⟨fun x hx => UInt64.le_trans (h.released_le x hx) hb,
    fun r hr => UInt64.le_trans (h.pending_le r hr) hb, h.released_pending, h.released, h.pending⟩

lemma Ordered.register (h : P.Ordered R b) (k : List UInt8) {index : UInt64} (hb : b ≤ index)
    (m : Message) : (P.register k index m).Ordered R index := by
  unfold Pending.register
  split
  · exact h.raise hb
  refine ⟨fun x hx => UInt64.le_trans (h.released_le x hx) hb, ?_, ?_, h.released, ?_⟩
  · simp only [List.mem_append, List.mem_singleton]
    rintro r (hr | rfl)
    exacts [UInt64.le_trans (h.pending_le r hr) hb, UInt64.le_refl _]
  · simp only [List.mem_append, List.mem_singleton]
    rintro x hx r (hr | rfl)
    exacts [h.released_pending x hx r hr, .inl (UInt64.le_trans (h.released_le x hx) hb)]
  · simp only [List.map_append, List.map_singleton, List.pairwise_append, List.mem_singleton,
      List.mem_map]
    refine ⟨h.pending, List.pairwise_singleton _ _, ?_⟩
    rintro _ ⟨r, hr, rfl⟩ _ rfl
    exact UInt64.le_trans (h.pending_le r hr) hb

lemma Ordered.ack (h : P.Ordered R b) (m : Message) : (P.ack m).2.Ordered R b := by
  unfold Pending.ack
  split
  · exact h
  have hidx : ∀ r, (ackRead m.context m.from r).2.index = r.2.index := fun r => by
    unfold ackRead; split <;> rfl
  have hmap : (P.reads.map (ackRead m.context m.from)).map (·.2.index) =
      P.reads.map (·.2.index) := by
    simp [Function.comp_def, hidx]
  refine ⟨h.released_le, fun r hr => ?_, fun x hx r hr => ?_, h.released,
    by simpa only [hmap] using h.pending⟩
  · obtain ⟨r₀, hr₀, rfl⟩ := List.mem_map.mp hr
    rw [hidx]; exact h.pending_le r₀ hr₀
  · obtain ⟨r₀, hr₀, rfl⟩ := List.mem_map.mp hr
    rw [hidx]; exact h.released_pending x hx r₀ hr₀

/-- The reads before position `n` carry no larger index than those after it. -/
lemma Ordered.take_drop (h : P.Ordered R b) (n : ℕ) :
    ((P.reads.take n).map (·.2.index)).Pairwise (· ≤ ·) ∧
    ((P.reads.drop n).map (·.2.index)).Pairwise (· ≤ ·) ∧
    ∀ r₁ ∈ P.reads.take n, ∀ r₂ ∈ P.reads.drop n, r₁.2.index ≤ r₂.2.index := by
  have hpw := h.pending
  rw [← List.take_append_drop n P.reads, List.map_append, List.pairwise_append] at hpw
  exact ⟨hpw.1, hpw.2.1, fun r₁ h₁ r₂ h₂ =>
    hpw.2.2 _ (List.mem_map_of_mem _ h₁) _ (List.mem_map_of_mem _ h₂)⟩

/-- What stays pending after the first `n` reads are released. -/
lemma Ordered.dropReads (h : P.Ordered R b) (n g : ℕ) :
    (∀ r ∈ (P.dropReads n g).reads, r.2.index ≤ b) ∧
    (∀ x ∈ R, ∀ r ∈ (P.dropReads n g).reads, x.2 ≤ r.2.index ∨ x.1 = true) ∧
    ((P.dropReads n g).reads.map (·.2.index)).Pairwise (· ≤ ·) :=
  ⟨fun r hr => h.pending_le r (List.mem_of_mem_drop hr),
    fun x hx r hr => h.released_pending x hx r (List.mem_of_mem_drop hr), (h.take_drop n).2.1⟩

/-- Releasing the first `n` reads through `advance`, each with its registration index. -/
lemma Ordered.releaseThrough (h : P.Ordered R b) (n g : ℕ) :
    (P.dropReads n g).Ordered (R ++ (P.reads.take n).map fun r => (false, r.2.index)) b := by
  obtain ⟨hle, hrp, hpw⟩ := h.dropReads n g
  obtain ⟨htake, -, hcross⟩ := h.take_drop n
  refine ⟨?_, hle, ?_, ?_, hpw⟩
  · simp only [List.mem_append, List.mem_map]
    rintro x (hx | ⟨r, hr, rfl⟩)
    exacts [h.released_le x hx, h.pending_le r (List.mem_of_mem_take hr)]
  · simp only [List.mem_append, List.mem_map]
    rintro x (hx | ⟨r₁, hr₁, rfl⟩) r hr
    exacts [hrp x hx r hr, .inl (hcross r₁ hr₁ r hr)]
  · rw [List.pairwise_append, List.pairwise_map]
    refine ⟨h.released, (List.pairwise_map.mp htake).imp .inl, ?_⟩
    simp only [List.mem_map]
    rintro x hx _ ⟨r, hr, rfl⟩
    rcases h.released_pending x hx r (List.mem_of_mem_take hr) with hxr | hxt
    exacts [.inl hxr, .inr ⟨hxt, rfl⟩]

/-- Releasing the first `n` reads through `advance_by_commit`, stamped with `c`. -/
lemma Ordered.releaseGated (h : P.Ordered R b) (n g : ℕ) {c : UInt64} (hb : b ≤ c) :
    (P.dropReads n g).Ordered (R ++ (P.reads.take n).map fun _ => (true, c)) c := by
  obtain ⟨hle, hrp, hpw⟩ := h.dropReads n g
  refine ⟨?_, fun r hr => UInt64.le_trans (hle r hr) hb, ?_, ?_, hpw⟩
  · simp only [List.mem_append, List.mem_map]
    rintro x (hx | ⟨r, -, rfl⟩)
    exacts [UInt64.le_trans (h.released_le x hx) hb, UInt64.le_refl c]
  · simp only [List.mem_append, List.mem_map]
    rintro x (hx | ⟨r₁, -, rfl⟩) r hr
    exacts [hrp x hx r hr, .inr rfl]
  · rw [List.pairwise_append, List.pairwise_map]
    refine ⟨h.released, List.Pairwise.imp (fun _ => .inl (UInt64.le_refl c))
      (List.pairwise_of_forall fun _ _ => trivial), ?_⟩
    simp only [List.mem_map]
    rintro x hx _ ⟨r, -, rfl⟩
    exact .inl (UInt64.le_trans (h.released_le x hx) hb)

/-- **One call keeps the order**, when the index it is given is no smaller than the last. -/
lemma Ordered.step (h : P.Ordered R b) (c : Call) (hc : ∀ a ∈ c.arg, b ≤ a) :
    (P.step c).2.Ordered (R ++ (P.step c).1.released.map fun st => (c.byCommit, st.index))
      (c.arg.getD b) := by
  cases c with
  | addRequest index m =>
    have hb := hc index rfl
    simp only [Pending.step, Call.arg, Option.getD_some]
    split
    · simpa [Reply.released] using h.raise hb
    · simpa [Reply.released] using h.register _ hb m
  | recvAck m => simpa [Pending.step, Reply.released] using h.ack m
  | advance m ready =>
    simp only [Pending.step, Pending.releaseThrough, Call.arg, Option.getD_none]
    split
    · simpa [Reply.released] using h
    · cases ready
      · simp only [Bool.false_eq_true, if_false, Reply.released, List.map_nil, List.append_nil]
        exact ⟨h.1, h.2, h.3, h.4, h.5⟩
      · simpa [Reply.released, Call.byCommit, Function.comp_def] using h.releaseThrough _ P.gate
  | advanceByCommit c =>
    have hb := hc c rfl
    simp only [Pending.step, Pending.releaseGated, Call.arg, Option.getD_some]
    split
    · simpa [Reply.released, Call.byCommit, Function.comp_def] using h.releaseGated P.gate 0 hb
    · simpa [Reply.released] using h.raise hb

end Pending

open ReadOnly

end RaftProofs
