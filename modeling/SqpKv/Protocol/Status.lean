import SqpKv.Lib.Block

/-!
# `Status` and `StatusOr` (include/sqpkv/status.h, src/protocol/status.cc)

A code and a message.  `Status(rocksdb::Status)` keeps the text of a store
error; `Status::Err()` takes the text `strerror(errno)` gives, an argument here.
A `StatusOr` has a status and a pointer.  The conversion from a pointer makes
the status Ok and does not look at the pointer.
-/

namespace SqpKv

open Wire

/-- `Status::Code`; a cast byte that names no enumerator is kept as it is. -/
inductive Code
  | kOk
  | kErr
  | kEof
  | unnamed (b : UInt8) (h : b ≠ 0 ∧ b ≠ 1 ∧ b ≠ 2)
deriving DecidableEq

/-- `static_cast<char>(code)`. -/
def Code.toByte : Code → UInt8
  | .kOk => 0
  | .kErr => 1
  | .kEof => 2
  | .unnamed b _ => b

/-- `static_cast<Status::Code>(scode)`. -/
def Code.ofByte (b : UInt8) : Code :=
  if h0 : b = 0 then .kOk
  else if h1 : b = 1 then .kErr
  else if h2 : b = 2 then .kEof
  else .unnamed b ⟨h0, h1, h2⟩

@[simp] theorem Code.ofByte_toByte (c : Code) : Code.ofByte c.toByte = c := by
  cases c with
  | unnamed b h => simp [toByte, ofByte, h.1, h.2.1, h.2.2]
  | _ => rfl

@[simp] theorem Code.toByte_ofByte (b : UInt8) : (Code.ofByte b).toByte = b := by
  unfold ofByte
  split
  · next h => exact h.symm
  · split
    · next h => exact h.symm
    · split
      · next h => exact h.symm
      · rfl

structure Status where
  code : Code
  message : Bytes
deriving DecidableEq

namespace Status

/-- `Status()` and `Status::Ok()`: the message is "OK". -/
def Ok : Status := ⟨.kOk, [79, 75]⟩

/-- `Status::Eof()`. -/
def Eof : Status := ⟨.kEof, []⟩

/-- `Status::Err(message)`. -/
def Err (message : Bytes) : Status := ⟨.kErr, message⟩

def ok (s : Status) : Bool := s.code = .kOk
def err (s : Status) : Bool := s.code = .kErr
def eof (s : Status) : Bool := s.code = .kEof

end Status

/-- `rocksdb::Status` as `Status` reads it: `ok()`, else what `ToString()` gives. -/
inductive RocksStatus
  | ok
  | error (text : Bytes)

/-- `Status(rocksdb::Status)`. -/
def Status.ofRocks : RocksStatus → Status
  | .ok => .Ok
  | .error text => .Err text

/-! ## `StatusOr` -/

/-- `obj` is what the `unique_ptr` points to; `none` is the null pointer. -/
structure StatusOr (α : Type) where
  status : Status
  obj : Option α

namespace StatusOr

variable {α : Type}

/-- `StatusOr(std::unique_ptr<T> obj)`. -/
def ofPtr (obj : Option α) : StatusOr α := ⟨.Ok, obj⟩

/-- `StatusOr(Status status)`. -/
def ofStatus (status : Status) : StatusOr α := ⟨status, none⟩

def ok (s : StatusOr α) : Bool := s.status.ok
def err (s : StatusOr α) : Bool := s.status.err
def eof (s : StatusOr α) : Bool := s.status.eof

/-- What `operator->` and `*GetPtr()` reach. -/
def deref (s : StatusOr α) : Except Fault α :=
  match s.obj with
  | some obj => .ok obj
  | none => .error .nullPointer

end StatusOr

end SqpKv
