import MemoryKit.Registry.Basic

/-! # Sessions with a registry

While a handle is created or destroyed, the code in charge may itself call the registry. Such code
is a session: it asks one request after the other, each with an answer of its own type, writes
records to the log, and ends with a result. A registry serves a session by carrying out its
requests in order.
-/

namespace MemoryKit.Registry

variable {P H α β : Type}

inductive Request (P : Type) where
  | make (q : MakeRequest P)
  | unmake (e : Entry)
  | get (key : UInt64)
  | value (e : Entry)
  | state (e : Entry)
  | name (e : Entry)
  | path (e : Entry)
  | len
  | pending
  | placeholders
  | config

def Request.Answer (H : Type) : Request P → Type
  | .make _ => Except RegistryError Entry
  | .unmake _ => Except RegistryError Unit
  | .get _ => Option Entry
  | .value _ => Option H
  | .state _ => Option EntryState
  | .name _ => Option String
  | .path _ => Option String
  | .len => Nat
  | .pending => Nat
  | .placeholders => Placeholders Entry
  | .config => RegistryConfig

def serve (r : Registry P H) : (q : Request P) → Outcome (Registry P H) (q.Answer H)
  | .make q => r.make q
  | .unmake e => r.unmake e
  | .get key => .quiet (r.get key) r
  | .value e => .quiet (r.value e) r
  | .state e => .quiet (r.state e) r
  | .name e => .quiet (r.name e) r
  | .path e => .quiet (r.path e) r
  | .len => .quiet r.len r
  | .pending => .quiet r.pending r
  | .placeholders => .quiet (r.placeholders.map Prod.fst) r
  | .config => .quiet r.config r

/-- What a call is answered while there is no registry yet. -/
def Request.unserved : (q : Request P) → q.Answer H
  | .make _ => .error .closed
  | .unmake e => .error (.stale e)
  | .get _ => (none : Option Entry)
  | .value _ => (none : Option H)
  | .state _ => (none : Option EntryState)
  | .name _ => (none : Option String)
  | .path _ => (none : Option String)
  | .len => (0 : Nat)
  | .pending => (0 : Nat)
  | .placeholders => (default : Placeholders Entry)
  | .config => ({} : RegistryConfig)

/-- Code that calls a registry. -/
inductive Session (P H α : Type) where
  | done (answer : α)
  | note (record : Record) (next : Session P H α)
  | ask (q : Request P) (next : q.Answer H → Session P H α)

namespace Session

def bind : Session P H α → (α → Session P H β) → Session P H β
  | .done a, f => f a
  | .note record next, f => .note record (next.bind f)
  | .ask q next, f => .ask q fun answer => (next answer).bind f

instance : Monad (Session P H) where
  pure := .done
  bind := .bind

def call (q : Request P) : Session P H (q.Answer H) := .ask q .done

def run (r : Registry P H) : Session P H α → Outcome (Registry P H) α
  | .done a => .quiet a r
  | .note record next => (next.run r).after [record]
  | .ask q next =>
    let served := r.serve q
    ((next served.answer).run served.state).after served.log

def runAlone : Session P H α → α × List Record
  | .done a => (a, [])
  | .note record next =>
    let (a, log) := next.runAlone
    (a, record :: log)
  | .ask q next => (next q.unserved).runAlone

end Session

end MemoryKit.Registry
