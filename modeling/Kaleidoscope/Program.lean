import Kaleidoscope.Grammar

/-! Programs: definitions, external declarations and expressions, one after another, with
semicolons between them where the writer likes. A construct that does not parse costs one token
more, and the next one starts there. -/

set_option autoImplicit false

namespace Kaleidoscope

inductive ConstructKind where
  | definition | external | expression
  deriving DecidableEq, Repr, Inhabited

def ConstructKind.name : ConstructKind → String
  | .definition => "definition"
  | .external => "extern"
  | .expression => "expression"

abbrev ParseResult := Except Diagnostic Node

/-- The one way to say "neither" or "both". -/
structure ParseResult.Ambiguity where
  deriving DecidableEq, Repr

def ParseResult.Ambiguity.message (_ : Ambiguity) : String :=
  "ParseResult needs exactly one of node or error"

def ParseResult.ofParts (node : Option Node) (error : Option Diagnostic) :
    Except Ambiguity ParseResult :=
  match node, error with
  | some n, none => .ok (.ok n)
  | none, some d => .ok (.error d)
  | _, _ => .error {}

structure Outcome where
  kind : ConstructKind
  result : ParseResult

namespace Outcome

def node? (o : Outcome) : Option Node :=
  match o.result with
  | .ok n => some n
  | .error _ => none

def succeeded (o : Outcome) : Bool := o.node?.isSome

end Outcome

/-- What the current token calls for at top level. -/
inductive Stage where
  | finished
  | separator
  | construct (kind : ConstructKind)
  deriving DecidableEq, Repr

def Token.stage (t : Token) : Stage :=
  match t.kind with
  | .endOfInput => .finished
  | .define => .construct .definition
  | .external => .construct .external
  | _ => if t.isChar ";" then .separator else .construct .expression

/-- What happened, and the parser at that moment: on the semicolon, or behind the construct. -/
inductive Event where
  | separator (parser : Parser)
  | outcome (o : Outcome) (parser : Parser)

structure Run where
  events : List Event
  fault : Option Fault
  final : Parser

def Run.after (event : Event) (run : Run) : Run := { run with events := event :: run.events }

structure Request where
  separators : Nat
  result : EStateM.Result Fault Parser (Option Outcome)

namespace Grammar

def rule (g : Grammar) : ConstructKind → Rule Node
  | .definition => g.definition
  | .external => external
  | .expression => g.standalone

/-- Parses a construct. After a failure the token it stopped at is skipped. -/
def construct (g : Grammar) (kind : ConstructKind) : EStateM Fault Parser Outcome := do
  let outcome : Outcome := ⟨kind, ← (g.rule kind).attempt⟩
  if !outcome.succeeded then Parser.advance
  return outcome

def runWithin (g : Grammar) : Nat → Parser → Run
  | 0, p => ⟨[], none, p⟩
  | n + 1, p =>
    match p.feed.current.stage with
    | .finished => ⟨[], none, p⟩
    | .separator =>
      Run.after (.separator p) <|
        match p.advance with
        | .ok () p => runWithin g n p
        | .error f p => ⟨[], some f, p⟩
    | .construct kind =>
      match g.construct kind p with
      | .ok o p => Run.after (.outcome o p) (runWithin g n p)
      | .error f p => ⟨[], some f, p⟩

/-- Each turn passes a token, so there are no more turns than tokens left. -/
def run (g : Grammar) (p : Parser) : Run := g.runWithin (p.feed.size + 1) p

def requestWithin (g : Grammar) : Nat → Parser → Request
  | 0, p => ⟨0, .ok none p⟩
  | n + 1, p =>
    match p.feed.current.stage with
    | .finished => ⟨0, .ok none p⟩
    | .separator =>
      match p.advance with
      | .ok () p =>
        let request := requestWithin g n p
        { request with separators := request.separators + 1 }
      | .error f p => ⟨1, .error f p⟩
    | .construct kind =>
      match g.construct kind p with
      | .ok o p => ⟨0, .ok (some o) p⟩
      | .error f p => ⟨0, .error f p⟩

def request (g : Grammar) (p : Parser) : Request := g.requestWithin (p.feed.size + 1) p

end Grammar

namespace Event

def outcomes (events : List Event) : List Outcome :=
  events.filterMap fun
    | .separator _ => none
    | .outcome o _ => some o

def separatorPlaces (before : Nat) : List Event → List Nat
  | [] => []
  | .separator _ :: events => before :: separatorPlaces before events
  | .outcome .. :: events => separatorPlaces (before + 1) events

end Event

/-- How a parser is set up: with the standard operators unless a table is given. -/
structure Setup where
  table : Option (List (Datum × Datum)) := none
  maxDepth : Int := ({} : Grammar).maxDepth

inductive SetupError where
  | fault (f : Fault) (taken : Nat)
  | table (e : Precedence.TableError) (taken : Nat)

def SetupError.taken : SetupError → Nat
  | .fault _ n => n
  | .table _ n => n

namespace Setup

def grammar (setup : Setup) : Except Precedence.TableError Grammar :=
  match setup.table with
  | none => .ok { maxDepth := setup.maxDepth }
  | some entries => do
    let precedence ← Precedence.ofEntries entries
    return { precedence, maxDepth := setup.maxDepth }

/-- The source is opened first, then the table is checked, then the first token is read. -/
def parser (setup : Setup) (source : Source) : Except SetupError (Grammar × Parser) :=
  match Scanner.start source with
  | .error f scanner => .error (.fault f scanner.source.taken)
  | .ok () scanner =>
    match setup.grammar with
    | .error e => .error (.table e scanner.source.taken)
    | .ok g =>
      match Parser.start scanner with
      | .error f p => .error (.fault f p.feed.taken)
      | .ok () p => .ok (g, p)

def run (setup : Setup) (source : Source) : Except SetupError Run := do
  let (g, p) ← setup.parser source
  return g.run p

end Setup

end Kaleidoscope
