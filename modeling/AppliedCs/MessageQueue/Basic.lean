import Mathlib.Data.Nat.Notation

namespace MessageQueue

inductive Error
  | unknownProducerId (producerId : Int64)
  | producerFenced (expected received : Int16)
  | duplicateSequence (expected received : Int32)
  | outOfOrderSequence (expected received : Int32)
  | invalidTransactionState (message : String)
  | offsetOutOfRange (offset start stop : ℕ)
  | storageFull
  | illegalState (message : String)
  | serialization (message : String)
  | crcMismatch (expected actual : UInt32)
  | io
  deriving DecidableEq, Repr

abbrev Result (α : Type) :=
  Except Error α

-- A call may also panic.
inductive Failure
  | error (e : Error)
  | panic
  deriving DecidableEq, Repr

abbrev Outcome (α : Type) :=
  Except Failure α

@[simp]
theorem ok_bind {α β : Type} (a : α) (f : α → Outcome β) : (Except.ok a : Outcome α) >>= f = f a :=
  rfl

@[simp]
theorem error_bind {α β : Type} (e : Failure) (f : α → Outcome β) :
    (Except.error e : Outcome α) >>= f = .error e :=
  rfl

end MessageQueue
