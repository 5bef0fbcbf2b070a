import Coccl.Foundations.Checked

/-!
# Results, datatypes and communicators

The parts of the NCCL interface the rest is written over. A call that can fail returns a `Result`.
`size_t` values are natural numbers; an operation the source checks against `SIZE_MAX` is checked
against `sizeMax`, and one it does not check wraps modulo `sizeMax + 1`.
-/

namespace Coccl

/-- The result codes of `ncclResult_t` other than `ncclSuccess`. -/
inductive NcclError where
  | unhandledCudaError
  | systemError
  | internalError
  | invalidArgument
  | invalidUsage
  | remoteError
  | inProgress
  deriving DecidableEq, Repr

/-- A call that returns an `ncclResult_t`, with the value it stores on success. -/
abbrev Result := Except NcclError

/-- The element types of `ncclDataType_t`; `numTypes` is the bound the source uses as "none". -/
inductive DataType where
  | int8
  | uint8
  | int32
  | uint32
  | int64
  | uint64
  | float16
  | float32
  | float64
  | bfloat16
  | numTypes
  deriving DecidableEq, Repr

/-- Bytes of one element, `-1` for anything that is not an element type. -/
def ncclTypeSize : DataType → ℤ
  | .int8 | .uint8 => 1
  | .float16 | .bfloat16 => 2
  | .int32 | .uint32 | .float32 => 4
  | .int64 | .uint64 | .float64 => 8
  | .numTypes => -1

/-- `SIZE_MAX`, and `UINTPTR_MAX` with it. -/
def sizeMax : ℕ := 2 ^ 64 - 1

/-- An unchecked `size_t` product. -/
def sizeMul (a b : ℕ) : ℕ := a * b % (sizeMax + 1)

/-- An unchecked `size_t` sum. -/
def sizeAdd (a b : ℕ) : ℕ := (a + b) % (sizeMax + 1)

theorem sizeMul_eq {a b : ℕ} (h : a * b ≤ sizeMax) : sizeMul a b = a * b :=
  Nat.mod_eq_of_lt (Nat.lt_succ_of_le h)

theorem sizeAdd_eq {a b : ℕ} (h : a + b ≤ sizeMax) : sizeAdd a b = a + b :=
  Nat.mod_eq_of_lt (Nat.lt_succ_of_le h)

/-- What one rank holds of a communicator. `handle` stands for the pointer's identity. -/
@[ext]
structure Comm where
  handle : ℕ
  rank : ℕ
  nRanks : ℕ
  localRanks : ℕ
  nNodes : ℕ
  rank_lt : rank < nRanks
  localRanks_pos : 0 < localRanks
  deriving DecidableEq

theorem Comm.nRanks_pos (comm : Comm) : 0 < comm.nRanks :=
  Nat.zero_lt_of_lt comm.rank_lt

end Coccl
