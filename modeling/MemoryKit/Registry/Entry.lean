import MemoryKit.ConfigError
import MemoryKit.KeyTable
import MemoryKit.Text.Quoted

/-! # Entries of a registry

An entry names a slot and the generation of its use. The generation counts how often the slot was
given up, so that an entry that was unmade does not stand for the next use of its slot.
-/

namespace MemoryKit

/-- A slot of a registry in one of its uses. -/
structure Entry where
  index : UInt32
  generation : UInt32
  deriving DecidableEq, Repr, Inhabited

def Entry.text (e : Entry) : String :=
  "Entry \x7b index: " ++ toString e.index ++ ", generation: " ++ toString e.generation ++ " \x7d"

inductive EntryState where
  | making
  | made
  | failed
  | unmaking
  /-- It is one of the placeholders, which stay. -/
  | placeholder
  deriving DecidableEq, Repr

def EntryState.text : EntryState → String
  | .making => "Making"
  | .made => "Made"
  | .failed => "Failed"
  | .unmaking => "Unmaking"
  | .placeholder => "Placeholder"

structure Placeholders (α : Type) where
  /-- For names that were never made. -/
  missing : α
  /-- Shown by entries whose creation failed. -/
  failed : α
  /-- Shown by entries that wait for their first creation. -/
  making : α
  deriving DecidableEq, Repr, Inhabited

namespace Placeholders

variable {α β : Type}

def names : Placeholders String := ⟨"missing", "failed", "making"⟩

def count : Nat := 3

def toList (p : Placeholders α) : List α := [p.missing, p.failed, p.making]

def map (f : α → β) (p : Placeholders α) : Placeholders β := ⟨f p.missing, f p.failed, f p.making⟩

def named (p : Placeholders α) : List (String × α) := names.toList.zip p.toList

end Placeholders

inductive RegistryError where
  | config (cause : ConfigError)
  | placeholder (name reason : String)
  | nullKey
  | full
  | stale (entry : Entry)
  | permanentEntry (entry : Entry)
  | closed
  deriving DecidableEq, Repr

namespace RegistryError

def message : RegistryError → String
  | .config cause => s!"invalid registry configuration: {cause.message}"
  | .placeholder name reason =>
    s!"creating the {Text.quoted name} placeholder failed: {reason}"
  | .nullKey => "the null key can't be used as a registry key"
  | .full => "every entry of the registry is in use"
  | .stale entry => s!"the entry {entry.text} is no longer valid"
  | .permanentEntry entry => s!"the placeholder {entry.text} can't be unmade"
  | .closed => "the flusher of the registry was dropped"

def ofKeyTable : KeyTableError → RegistryError
  | .nullKey => .nullKey
  | .full => .full
  | .tooSmall _ _ => .full

end RegistryError

end MemoryKit
