import MemoryKit.Allocator.Diagnostics

/-! # Using an allocator

The callers of an allocator hold allocations. They may ask for anything, as long as they hand in
null or pointers that they hold, and write where their allocations lie. Every state that can be
reached this way from a new allocator over an arena is reachable, whatever the arena held.
-/

namespace MemoryKit

namespace Allocator

/-- An allocation that somebody holds, with what was asked for it last. -/
structure Holding where
  pointer : Nat
  bytes : Nat
  label : Label
  options : AllocationOptions

def Holding.resized (x : Holding) (pointer moved bytes : Nat) : Holding :=
  if x.pointer = pointer then { x with pointer := moved, bytes } else x

/-- What the callers of an allocator may do. -/
inductive Call where
  | allocate (bytes : Nat) (label : Label) (options : AllocationOptions)
  | reallocate (pointer bytes : Nat)
  | deallocate (pointer : Nat)
  | reset
  | valid
  /-- The owner of an allocation writes bytes at an offset from the start of the arena. -/
  | write (offset : Nat) (bytes : List UInt8)

def Call.pointer? : Call → Option Nat
  | reallocate pointer _ => some pointer
  | deallocate pointer => some pointer
  | _ => none

end Allocator

open Allocator

structure Usage where
  allocator : Allocator
  held : List Holding

namespace Usage

/-- Pointers are null or held, and callers write into their allocations only. -/
def Permits (u : Usage) : Call → Prop
  | .reallocate pointer _ => pointer = 0 ∨ ∃ x ∈ u.held, x.pointer = pointer
  | .deallocate pointer => pointer = 0 ∨ ∃ x ∈ u.held, x.pointer = pointer
  | .write offset bytes =>
    ∃ x ∈ u.held, ∃ size, u.allocator.size? x.pointer = some size ∧
      x.pointer ≤ u.allocator.region.address offset ∧
        u.allocator.region.address offset + bytes.length ≤ x.pointer + size
  | _ => True

def after (u : Usage) : Call → Usage
  | .allocate bytes label options =>
    let r := u.allocator.allocate bytes label options
    match r.answer with
    | some pointer => ⟨r.state, ⟨pointer, bytes, label, options⟩ :: u.held⟩
    | none => ⟨r.state, u.held⟩
  | .reallocate pointer bytes =>
    let r := u.allocator.reallocate pointer bytes
    match r.answer with
    | some moved =>
      if pointer = 0 then ⟨r.state, ⟨moved, bytes, .resized, .standard⟩ :: u.held⟩
      else ⟨r.state, u.held.map (·.resized pointer moved bytes)⟩
    | none => ⟨r.state, u.held⟩
  | .deallocate pointer =>
    match u.allocator.deallocate pointer with
    | (.ok (), a) => ⟨a, u.held.filter (·.pointer != pointer)⟩
    | (.error _, a) => ⟨a, u.held⟩
  | .reset => ⟨u.allocator.reset.state, []⟩
  | .valid => ⟨u.allocator.valid.state, u.held⟩
  | .write offset bytes => ⟨u.allocator.write offset bytes, u.held⟩

/-- The states that a new allocator over an arena can come to. -/
inductive Reachable (arena : Arena) : Usage → Prop where
  | start {a : Allocator} {log : List Record} :
      ofArena arena = .ok (a, log) → Reachable arena ⟨a, []⟩
  | step {u : Usage} {call : Call} :
      Reachable arena u → u.Permits call → Reachable arena (u.after call)

end Usage

end MemoryKit
