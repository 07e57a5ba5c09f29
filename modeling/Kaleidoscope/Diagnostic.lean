import Kaleidoscope.Token

/-! Diagnostics: what the parser complains of, and where. -/

set_option autoImplicit false

namespace Kaleidoscope

inductive Complaint where
  | tooDeep
  | noExpression
  | malformedNumber (text : String)
  | unclosedParenthesis
  | unclosedArguments
  | noFunctionName
  | noParameterList
  | unclosedParameters
  | noDefinition
  | noExternal
  | other (message : String)
  deriving DecidableEq, Repr

def Complaint.message : Complaint → String
  | .tooDeep => "expression nested too deeply"
  | .noExpression => "unknown token when expecting an expression"
  | .malformedNumber text => s!"malformed number '{text}'"
  | .unclosedParenthesis => "expected ')'"
  | .unclosedArguments => "Expected ')' or ',' in argument list"
  | .noFunctionName => "Expected function name in prototype"
  | .noParameterList => "Expected '(' in prototype"
  | .unclosedParameters => "Expected ')' in prototype"
  | .noDefinition => "Expected 'def'"
  | .noExternal => "Expected 'extern'"
  | .other message => message

structure Diagnostic where
  complaint : Complaint
  position : Position := {}
  token : Option Token := none
  deriving DecidableEq, Repr

namespace Diagnostic

def atToken (t : Token) (complaint : Complaint) : Diagnostic := ⟨complaint, t.start, some t⟩

def message (d : Diagnostic) : String := d.complaint.message

def shown (d : Diagnostic) : String :=
  if d.position.line = 0 then d.message
  else s!"line {d.position.line}, column {d.position.column}: {d.message}"

end Diagnostic

end Kaleidoscope
