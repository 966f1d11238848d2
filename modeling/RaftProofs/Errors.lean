import Mathlib.Logic.Basic

/-!
The error types of raft (`src/errors.rs`) and their hand-written equality.

`Error::eq` compares two `Io` errors by their kind alone and has no arm for `CodecError`,
`Exists` and `NotExists`, so such an error is not equal even to itself. The relation is still
symmetric and transitive, the contract of `PartialEq`: it holds between two errors exactly
when both have an arm and agree on what the arm compares (`beq_iff_norm`). `StorageError::eq`
is plain equality.

An `std::io::Error` is its kind, of a type `κ` standing for `std::io::ErrorKind`, and its
message; a protobuf error is its text.
-/

namespace RaftProofs

/-- The errors a log storage reports. -/
inductive StorageError
  | compacted
  | unavailable
  | snapshotOutOfDate
  | snapshotTemporarilyUnavailable
  deriving DecidableEq, Repr

/-- The hand-written equality of storage errors: one arm per variant. -/
def StorageError.eq : StorageError → StorageError → Bool
  | .compacted, .compacted => true
  | .unavailable, .unavailable => true
  | .snapshotOutOfDate, .snapshotOutOfDate => true
  | .snapshotTemporarilyUnavailable, .snapshotTemporarilyUnavailable => true
  | _, _ => false

instance : BEq StorageError := ⟨StorageError.eq⟩

/-- `StorageError::eq` is equality. -/
instance : LawfulBEq StorageError where
  eq_of_beq {a b} h := by cases a <;> cases b <;> first | rfl | cases h
  rfl {a} := by cases a <;> rfl

/-- `std::io::Error`: its kind and its message. -/
structure IoError (κ : Type) where
  kind : κ
  msg : String

/-- The errors of raft: an I/O error, a storage error, and the failures of stepping, of
proposals, of configuration, of decoding and of membership changes. -/
inductive Error (κ : Type)
  | io (err : IoError κ)
  | store (err : StorageError)
  | stepLocalMsg
  | stepPeerNotFound
  | proposalDropped
  | configInvalid (desc : String)
  | codecError (err : String)
  | «exists» (id : UInt64) (set : String)
  | notExists (id : UInt64) (set : String)
  | requestSnapshotDropped

namespace Error

variable {κ : Type} [DecidableEq κ]

/-- The hand-written equality of errors: `Io` errors by kind, the variants with data by that
data, and no arm for `CodecError`, `Exists` and `NotExists`. -/
def eq : Error κ → Error κ → Bool
  | .stepPeerNotFound, .stepPeerNotFound => true
  | .proposalDropped, .proposalDropped => true
  | .store e1, .store e2 => e1 == e2
  | .io e1, .io e2 => e1.kind = e2.kind
  | .stepLocalMsg, .stepLocalMsg => true
  | .configInvalid e1, .configInvalid e2 => e1 = e2
  | .requestSnapshotDropped, .requestSnapshotDropped => true
  | _, _ => false

instance : BEq (Error κ) := ⟨eq⟩

/-- What `eq` compares of an error: the variant and the data its arm reads, which for `Io`
is the kind and not the message; `none` for the variants without an arm. -/
def norm : Error κ → Option (Error κ)
  | .io e => some (.io ⟨e.kind, ""⟩)
  | .codecError _ | .exists _ _ | .notExists _ _ => none
  | e => some e

/-- Two errors are equal exactly when both have an arm in `eq` and agree on what it reads. -/
lemma beq_iff_norm {a b : Error κ} : (a == b) = true ↔ ∃ k, a.norm = some k ∧ b.norm = some k := by
  show a.eq b = true ↔ _
  cases a <;> cases b <;> simp [eq, norm] <;> exact eq_comm

instance : PartialEquivBEq (Error κ) where
  symm h := by
    obtain ⟨k, ha, hb⟩ := beq_iff_norm.mp h
    exact beq_iff_norm.mpr ⟨k, hb, ha⟩
  trans h₁ h₂ := by
    obtain ⟨k, ha, hb⟩ := beq_iff_norm.mp h₁
    obtain ⟨k', hb', hc⟩ := beq_iff_norm.mp h₂
    exact beq_iff_norm.mpr ⟨k, ha, (Option.some.inj (hb.symm.trans hb')) ▸ hc⟩

end Error

/-- **`Error::eq` keeps the contract of `PartialEq`, not that of `Eq`.** `StorageError::eq`
is equality. `Error::eq` is symmetric and transitive, and an error is equal to itself unless
it is a `CodecError`, an `Exists` or a `NotExists`, which are equal to no error at all. -/
theorem error_eq_partial_equiv {κ : Type} [DecidableEq κ] :
    (∀ a b : StorageError, a.eq b = true ↔ a = b) ∧
    (∀ a b : Error κ, (a == b) = (b == a)) ∧ (∀ a b c : Error κ, a == b → b == c → a == c) ∧
      ∀ a : Error κ, ((a == a) = false ↔ ∀ b, (a == b) = false) ∧
        ((a == a) = false ↔ (∃ e, a = .codecError e) ∨ (∃ id set, a = .exists id set) ∨
          ∃ id set, a = .notExists id set) := by
  refine ⟨fun a b => (beq_iff_eq : (a == b) = true ↔ a = b), fun a b => BEq.comm,
    fun a b c => PartialEquivBEq.trans, fun a => ⟨?_, ?_⟩⟩
  · refine ⟨fun h b => Bool.eq_false_iff.mpr fun hb => ?_, fun h => h a⟩
    simpa [h] using PartialEquivBEq.trans hb (BEq.symm hb)
  · rw [Bool.eq_false_iff, Ne, Error.beq_iff_norm]
    cases a <;> simp [Error.norm]

end RaftProofs
