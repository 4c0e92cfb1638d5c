import MemoryKit.Log
import MemoryKit.Text.Blank
import MemoryKit.Text.Quoted
import MemoryKit.Word

/-! # Configuration of a registry

The two numbers a registry is configured by, their defaults, and how they are read from named
settings. A setting that is not a positive size is ignored with a warning.
-/

namespace MemoryKit

inductive SizeError where
  | empty
  | invalidDigit
  | tooLarge
  deriving DecidableEq, Repr

def SizeError.message : SizeError → String
  | .empty => "cannot parse integer from empty string"
  | .invalidDigit => "invalid digit found in string"
  | .tooLarge => "number too large to fit in target type"

def digitValue? (c : Char) : Option Nat :=
  if '0' ≤ c ∧ c ≤ '9' then some (c.toNat - '0'.toNat) else none

/-- Reads the digits that follow a number; the first fault from the left is reported. -/
def readDigits (value : Nat) : List Char → Except SizeError Nat
  | [] => .ok value
  | c :: rest =>
    match digitValue? c with
    | none => .error .invalidDigit
    | some d =>
      if sizeLimit ≤ 10 * value + d then .error .tooLarge else readDigits (10 * value + d) rest

def readSize : List Char → Except SizeError Nat
  | [] => .error .empty
  | ['+'] => .error .invalidDigit
  | '+' :: digits => readDigits 0 digits
  | digits => readDigits 0 digits

structure RegistryConfig where
  /-- The number of entries, placeholders aside. -/
  capacity : Nat := 1024
  /-- The number of requests that one batch carries out. -/
  flushBatch : Nat := 64
  deriving DecidableEq, Repr

namespace RegistryConfig

def capacitySetting : String := "MEMSYNC_REGISTRY_CAPACITY"

def flushBatchSetting : String := "MEMSYNC_REGISTRY_FLUSH_BATCH"

def readSetting (name : String) (value : Option String) : Option Nat × List Record :=
  match value with
  | none => (none, [])
  | some raw =>
    match readSize (Text.trimmed raw.toList) with
    | .ok 0 => (none, [.warn s!"Ignoring {name}=0, using the default"])
    | .ok n => (some n, [])
    | .error e => (none, [.warn s!"Ignoring {name}={Text.quoted raw}: {e.message}"])

/-- The configuration that settings ask for, with the defaults for missing and invalid ones. -/
def ofSettings (lookup : String → Option String) : RegistryConfig × List Record :=
  let (capacity, capacityLog) := readSetting capacitySetting (lookup capacitySetting)
  let (batch, batchLog) := readSetting flushBatchSetting (lookup flushBatchSetting)
  let standard : RegistryConfig := {}
  ({ capacity := capacity.getD standard.capacity, flushBatch := batch.getD standard.flushBatch },
    capacityLog ++ batchLog)

def text (c : RegistryConfig) : String :=
  "RegistryConfig \x7b capacity: " ++ toString c.capacity ++ ", flush_batch: " ++
    toString c.flushBatch ++ " \x7d"

end RegistryConfig

end MemoryKit
