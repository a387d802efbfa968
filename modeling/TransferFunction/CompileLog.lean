import TransferFunction.Session

/-! # What compiling reports

The records of a compilation and of an edit, in order. A level lets through the records that are at least as severe.
-/

namespace TransferFunction

namespace CompileLog

/-- From silence to the finest detail. -/
inductive Level | off | error | warn | info | debug | trace deriving DecidableEq

def Level.rank : Level → Nat
  | .off => 0
  | .error => 1
  | .warn => 2
  | .info => 3
  | .debug => 4
  | .trace => 5

def Level.text : Level → String
  | .off => "OFF"
  | .error => "ERROR"
  | .warn => "WARN"
  | .info => "INFO"
  | .debug => "DEBUG"
  | .trace => "TRACE"

structure Record where
  level : Level
  text : String
deriving DecidableEq

/-- The stages that were passed: both token lists are traced. -/
def stages (x : Variable) (source : String) : List Record :=
  match Token.scan x source with
  | .error _ => []
  | .ok tokens => ⟨.trace, "tokens"⟩ :: match ExplicitForm.ofTokens tokens with
    | .error _ => []
    | .ok _ => [⟨.trace, "normalized tokens"⟩]

def outcome [Arithmetic] (x : Variable) (source : String) : Record :=
  match Expression.programOf x source with
  | .ok p => ⟨.debug, "compiled '" ++ source ++ "' to " ++ toString p.length ++ " elements: " ++ p.text⟩
  | .error e => ⟨.debug, "failed to compile '" ++ source ++ "': " ++ e.message⟩

def ofCompile [Arithmetic] (x : Variable) (source : String) : List Record := stages x source ++ [outcome x source]

/-- An edit that fails also reports that the expression goes. -/
def ofEdit [Arithmetic] (x : Variable) (source : String) : List Record :=
  ofCompile x source ++ match Expression.compile x source with
    | .ok _ => []
    | .error e => [⟨.debug, "discarding the expression: " ++ e.message⟩]

/-- A new session and one edit of it. -/
def ofSession [Arithmetic] (x : Variable) (source : String) : List Record :=
  ofEdit x Session.startingSource ++ ofEdit x source

/-- The records that `level` lets through. -/
def atLevel (level : Level) (rs : List Record) : List Record := rs.filter (·.level.rank ≤ level.rank)

end CompileLog
end TransferFunction
