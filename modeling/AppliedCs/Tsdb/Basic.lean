import Mathlib.Init

namespace Tsdb

inductive TsdbError
  | decompression (message : String)
  | storageError (message : String)
  | walError (message : String)
  | corruption (message : String)
  | invalidFormat (message : String)
  | checksumMismatch (expected actual : UInt32)
  | databaseClosed
  | io
  deriving DecidableEq, Repr

-- A call returns an error or panics.
inductive Failure
  | error (e : TsdbError)
  | panic
  deriving DecidableEq, Repr

abbrev Result (α : Type) :=
  Except Failure α

@[simp]
theorem ok_bind {α β : Type} (a : α) (f : α → Result β) : (Except.ok a : Result α) >>= f = f a :=
  rfl

@[simp]
theorem error_bind {α β : Type} (e : Failure) (f : α → Result β) :
    (Except.error e : Result α) >>= f = .error e :=
  rfl

-- Unsigned subtraction panics below zero.
def uintSub (a b : Nat) : Result Nat :=
  if b ≤ a then .ok (a - b) else .error .panic

theorem uintSub_eq {a b : Nat} (h : b ≤ a) : uintSub a b = .ok (a - b) :=
  if_pos h

end Tsdb
