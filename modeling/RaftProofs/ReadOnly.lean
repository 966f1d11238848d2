import Mathlib.Data.Finset.Basic

/-!
The read-only request registry of a raft leader (`src/read_only.rs`), as explicit state
passing.

A `ReadOnly` keeps every pending read twice: its status by context in `pendingReadIndex`, and
its context in registration order in `readIndexQueue`. `waitingForReady` counts the contexts
at the front of the queue whose release waits for the leader to commit in its term. Every
method returns its result beside the new state. Where the Rust code can panic (an index out
of bounds, an `unwrap` on `None`, a failed debug assertion) the model returns an error: a
`Panic` value stands for the panic at the place it names, and a call that returns `ok` is one
that does not panic.
-/

namespace RaftProofs

/-- A log entry, with the one field the registry reads. -/
structure Entry where
  data : List UInt8
  deriving DecidableEq, Repr

/-- A raft message, with the fields the registry reads. -/
structure Message where
  «from» : UInt64
  «to» : UInt64
  context : List UInt8
  entries : List Entry
  deriving DecidableEq, Repr

/-- `ReadOnlyOption`; its default is `Safe`. -/
inductive ReadOnlyOption
  | safe
  | leaseBased
  deriving DecidableEq, Repr

instance : Inhabited ReadOnlyOption := ⟨.safe⟩

/-- The status of a pending read: its request, the commit index it waits for, and the peers
that acknowledged it. -/
structure ReadIndexStatus where
  req : Message
  index : UInt64
  acks : Finset UInt64
  deriving DecidableEq

/-- Where the Rust code panics. -/
inductive Panic
  /-- `m.entries[0]` on a message without entries. -/
  | entriesIndex
  /-- `debug_assert!(self.pending_read_index.contains_key(x))` in the scan of `advance`. -/
  | debugAssert
  /-- `self.read_index_queue.pop_front().unwrap()` on an empty queue. -/
  | popFrontUnwrap
  /-- `self.pending_read_index.remove(&rs).unwrap()` on a context without a status. -/
  | removeUnwrap
  /-- `self.read_index_queue.split_off(at)` with `at` past the end. -/
  | splitOff
  deriving DecidableEq, Repr

/-- The `HashMap` from contexts to statuses, as a function. -/
abbrev PendingMap := List UInt8 → Option ReadIndexStatus

/-- The registry: the status of each pending read by context, the contexts in registration
order, and how many contexts at the front of the queue wait for the leader's commit. -/
structure ReadOnly where
  option : ReadOnlyOption
  pendingReadIndex : PendingMap
  readIndexQueue : List (List UInt8)
  waitingForReady : ℕ

/-! ### Except -/

@[simp] lemma ok_bind {ε α β : Type} (a : α) (f : α → Except ε β) :
    (Except.ok a >>= f) = f a := rfl

@[simp] lemma error_bind {ε α β : Type} (e : ε) (f : α → Except ε β) :
    (Except.error e >>= f) = Except.error e := rfl

@[simp] lemma map_error {ε α β : Type} (e : ε) (f : α → β) :
    (f <$> (Except.error e : Except ε α)) = Except.error e := rfl

lemma bind_eq_ok {ε α β : Type} {x : Except ε α} {f : α → Except ε β} {b : β} :
    (x >>= f) = .ok b ↔ ∃ a, x = .ok a ∧ f a = .ok b := by
  cases x <;> simp

lemma map_eq_ok {ε α β : Type} {x : Except ε α} {f : α → β} {b : β} :
    (f <$> x) = .ok b ↔ ∃ a, x = .ok a ∧ f a = b := by
  cases x <;> simp [Except.map_ok]

lemma bind_eq_error {ε α β : Type} {x : Except ε α} {f : α → Except ε β} {e : ε} :
    (x >>= f) = .error e ↔ x = .error e ∨ ∃ a, x = .ok a ∧ f a = .error e := by
  cases x <;> simp

lemma map_eq_error {ε α β : Type} {x : Except ε α} {f : α → β} {e : ε} :
    (f <$> x) = .error e ↔ x = .error e := by
  cases x <;> simp [Except.map_ok]

namespace ReadOnly

/-- An empty registry with the given option. -/
def new (option : ReadOnlyOption) : ReadOnly := ⟨option, fun _ => none, [], 0⟩

/-- `add_request`: register `m` under the data of its first entry, unless that context is
pending already. -/
def addRequest (s : ReadOnly) (index : UInt64) (m : Message) : Except Panic ReadOnly :=
  match m.entries with
  | [] => .error .entriesIndex
  | e :: _ =>
    if (s.pendingReadIndex e.data).isSome then .ok s
    else .ok { s with
      pendingReadIndex := Function.update s.pendingReadIndex e.data (some ⟨m, index, ∅⟩)
      readIndexQueue := s.readIndexQueue ++ [e.data] }

/-- `recv_ack`: record `m.from` for the context of `m`, and return the recorded acks with
the local node `m.to` added. -/
def recvAck (s : ReadOnly) (m : Message) : Finset UInt64 × ReadOnly :=
  match s.pendingReadIndex m.context with
  | none => (∅, s)
  | some rs =>
    let rs := { rs with acks := insert m.from rs.acks }
    (rs.acks ∪ {m.to},
      { s with pendingReadIndex := Function.update s.pendingReadIndex m.context (some rs) })

/-- `read_index_queue.iter().position(..)` in `advance`, with its debug assertion on every
context it passes. -/
def position (p : PendingMap) (ctx : List UInt8) :
    List (List UInt8) → Except Panic (Option ℕ)
  | [] => .ok none
  | x :: q =>
    if (p x).isSome then
      if x = ctx then .ok (some 0) else Option.map (· + 1) <$> position p ctx q
    else .error .debugAssert

/-- `self.pending_read_index.remove(&rs).unwrap()`: take the status of `rs` out of the map, and
panic if it has none. -/
def removeUnwrap (p : PendingMap) (rs : List UInt8) : Except Panic (ReadIndexStatus × PendingMap) :=
  match p rs with
  | none => .error .removeUnwrap
  | some status => .ok (status, Function.update p rs none)

/-- The loop of `advance`: `n` times, pop the front context and remove its status. -/
def popStatuses : ℕ → List (List UInt8) → PendingMap →
    Except Panic (List ReadIndexStatus × List (List UInt8) × PendingMap)
  | 0, q, p => .ok ([], q, p)
  | _ + 1, [], _ => .error .popFrontUnwrap
  | n + 1, rs :: q, p =>
    removeUnwrap p rs >>= fun (status, p) =>
      (fun (rss, q, p) => (status :: rss, q, p)) <$> popStatuses n q p

/-- `advance`: release the pending reads up to the one of `m.context`, or, when the leader
is not ready, remember that they wait for its commit. -/
def advance (s : ReadOnly) (m : Message) (ready : Bool) :
    Except Panic (List ReadIndexStatus × ReadOnly) :=
  position s.pendingReadIndex m.context s.readIndexQueue >>= fun
    | none => .ok ([], s)
    | some i =>
      if ready then
        (fun (rss, q, p) => (rss, { s with readIndexQueue := q, pendingReadIndex := p })) <$>
          popStatuses (i + 1) s.readIndexQueue s.pendingReadIndex
      else .ok ([], { s with waitingForReady := max s.waitingForReady (i + 1) })

/-- `VecDeque::split_off`: the first `n` contexts and the rest; it panics past the end. -/
def splitOff (q : List (List UInt8)) (n : ℕ) :
    Except Panic (List (List UInt8) × List (List UInt8)) :=
  if n ≤ q.length then .ok (q.take n, q.drop n) else .error .splitOff

/-- The loop of `advance_by_commit`: remove the status of every context of `q`, with its
index replaced by `committed`. -/
def stampStatuses (committed : UInt64) :
    List (List UInt8) → PendingMap → Except Panic (List ReadIndexStatus × PendingMap)
  | [], p => .ok ([], p)
  | rs :: q, p =>
    removeUnwrap p rs >>= fun (status, p) =>
      (fun (rss, p) => ({ status with index := committed } :: rss, p)) <$>
        stampStatuses committed q p

/-- `advance_by_commit`: release the reads that wait for the leader's commit. -/
def advanceByCommit (s : ReadOnly) (committed : UInt64) :
    Except Panic (List ReadIndexStatus × ReadOnly) :=
  if s.waitingForReady > 0 then
    splitOff s.readIndexQueue s.waitingForReady >>= fun (front, remained) =>
      (fun (rss, p) => (rss, { s with
          pendingReadIndex := p, readIndexQueue := remained, waitingForReady := 0 })) <$>
        stampStatuses committed front s.pendingReadIndex
  else .ok ([], s)

/-- `last_pending_request_ctx`: the back of the queue. -/
def lastPendingRequestCtx (s : ReadOnly) : Option (List UInt8) := s.readIndexQueue.getLast?

/-- `pending_read_count`: the length of the queue. -/
def pendingReadCount (s : ReadOnly) : ℕ := s.readIndexQueue.length

end ReadOnly

end RaftProofs
