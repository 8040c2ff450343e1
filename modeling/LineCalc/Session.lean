/-
Sessions: lines evaluated one after another, with the store as all that lives on between them.

A line is refused unseen if it is too long. Otherwise all of it is scanned first, up to the first illegal character,
and every name on the way is noted in the store. An empty line and a line that begins with `help` are settled by their
first tokens; any other line is run as a statement.
-/
import LineCalc.Lexeme
import LineCalc.Statement

namespace LineCalc

/-- what a line without a fault yields -/
inductive Outcome where
  | value (v : Int64)
  | help
deriving DecidableEq, Repr

/-- the names that are known, and the length in bytes that a line has to stay below -/
structure Session where
  store : Store
  limit : Nat
deriving DecidableEq, Repr

namespace Session

def defaultLimit : Nat := 1023

/-- a session that has seen no line -/
def start (limit : Nat) : Session := ⟨.empty, limit⟩

/-- notes the names among `tokens` in the store, up to the first illegal character, which is reported -/
def scan : List Token → Store → Except Diagnostic Unit × Store
  | [], store => (.ok (), store)
  | t :: tokens, store =>
    match t.terminal with
    | .illegal c => (.error (.illegalChar c t.column), store)
    | .identifier name => scan tokens (store.declare name t.column)
    | _ => scan tokens store

/-- the outcome of a line of legal tokens, and the store it leaves -/
def dispatch (tokens : List Token) (store : Store) : Except Diagnostic Outcome × Store :=
  let first := current tokens
  let second := current tokens.tail
  match first.terminal with
  | .eof => (.error (.unexpectedEnd first.column), store)
  | .keyword .help =>
    (if second.terminal = .eof then .ok .help else .error (.trailingHelp second.column), store)
  | _ =>
    let result := Statement.run tokens store
    (result.1.map .value, result.2)

/-- the outcome of a line that is short enough, and the store it leaves -/
def read (line : String) (store : Store) : Except Diagnostic Outcome × Store :=
  let tokens := tokensOf line
  match scan tokens store with
  | (.error d, store) => (.error d, store)
  | (.ok (), store) => dispatch tokens store

/-- the outcome of a line, and the session after it -/
def evaluate (s : Session) (line : String) : Except Diagnostic Outcome × Session :=
  if line.utf8ByteSize ≥ s.limit then
    (.error (.inputTooLong s.limit), s)
  else
    let result := read line s.store
    (result.1, { s with store := result.2 })

end Session

end LineCalc
