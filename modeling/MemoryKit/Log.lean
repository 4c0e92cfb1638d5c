/-! # Log records

Operations answer with the records they would write to a log, oldest first, next to their result
and the state they leave behind.
-/

namespace MemoryKit

inductive Level where
  | error
  | warn
  | debug
  deriving DecidableEq, Repr

def Level.name : Level → String
  | .error => "ERROR"
  | .warn => "WARN"
  | .debug => "DEBUG"

structure Record where
  level : Level
  message : String
  deriving DecidableEq, Repr

namespace Record

def error (message : String) : Record := ⟨.error, message⟩

def warn (message : String) : Record := ⟨.warn, message⟩

def debug (message : String) : Record := ⟨.debug, message⟩

def text (r : Record) : String := r.level.name ++ " " ++ r.message

end Record

/-- What an operation on a state of type `σ` leaves behind. -/
structure Outcome (σ α : Type) where
  answer : α
  state : σ
  log : List Record

namespace Outcome

variable {σ τ α β : Type}

def quiet (answer : α) (state : σ) : Outcome σ α := ⟨answer, state, []⟩

def after (records : List Record) (o : Outcome σ α) : Outcome σ α :=
  { o with log := records ++ o.log }

def lift (f : σ → τ) (o : Outcome σ α) : Outcome τ α := ⟨o.answer, f o.state, o.log⟩

def map (f : α → β) (o : Outcome σ α) : Outcome σ β := ⟨f o.answer, o.state, o.log⟩

@[simp] theorem quiet_answer (a : α) (s : σ) : (quiet a s).answer = a := rfl
@[simp] theorem quiet_state (a : α) (s : σ) : (quiet a s).state = s := rfl
@[simp] theorem quiet_log (a : α) (s : σ) : (quiet a s).log = [] := rfl
@[simp] theorem after_answer (l : List Record) (o : Outcome σ α) :
    (after l o).answer = o.answer := rfl
@[simp] theorem after_state (l : List Record) (o : Outcome σ α) :
    (after l o).state = o.state := rfl
@[simp] theorem after_log (l : List Record) (o : Outcome σ α) :
    (after l o).log = l ++ o.log := rfl
@[simp] theorem lift_answer (f : σ → τ) (o : Outcome σ α) : (lift f o).answer = o.answer := rfl
@[simp] theorem lift_state (f : σ → τ) (o : Outcome σ α) : (lift f o).state = f o.state := rfl
@[simp] theorem lift_log (f : σ → τ) (o : Outcome σ α) : (lift f o).log = o.log := rfl
@[simp] theorem map_answer (f : α → β) (o : Outcome σ α) : (map f o).answer = f o.answer := rfl
@[simp] theorem map_state (f : α → β) (o : Outcome σ α) : (map f o).state = o.state := rfl
@[simp] theorem map_log (f : α → β) (o : Outcome σ α) : (map f o).log = o.log := rfl

theorem lift_after (f : σ → τ) (l : List Record) (o : Outcome σ α) :
    (o.after l).lift f = (o.lift f).after l := rfl

theorem lift_map (f : σ → τ) (g : α → β) (o : Outcome σ α) :
    (o.map g).lift f = (o.lift f).map g := rfl

end Outcome

end MemoryKit
