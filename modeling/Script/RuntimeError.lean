import Script.Token

/-!
The errors that end the run of a program.
-/

namespace Script

/-- What is wrong with an operator or its operands. -/
inductive OperandFault where
  | notNumber
  | notNumbers
  | notAddable
  | notUnary
  | notBinary
deriving DecidableEq, Repr

def OperandFault.message : OperandFault → String
  | .notNumber => "Operand must be a number."
  | .notNumbers => "Operands must be numbers."
  | .notAddable => "Operands must be two numbers or two strings."
  | .notUnary => "Expected a unary operator."
  | .notBinary => "Expected a binary operator."

/-- How a property was asked for. -/
inductive Access where
  | read
  | write
deriving DecidableEq, Repr

def Access.message : Access → String
  | .read => "Only instances have properties."
  | .write => "Only instances have fields."

/-- Why output is refused. -/
inductive OutputFault where
  | full
  | unflushed
deriving DecidableEq, Repr

def OutputFault.message : OutputFault → String
  | .full => "sink full"
  | .unflushed => "flush refused"

/-- An error with the token it is found at. Output has no place in the program. -/
inductive RuntimeError where
  | undefinedProperty (name : Token)
  | undefinedVariable (name : Token)
  | operand (operator : Token) (fault : OperandFault)
  | notCallable (paren : Token)
  | arity (paren : Token) (expected found : Nat)
  | stackOverflow (paren : Token)
  | notAnInstance (name : Token) (access : Access)
  | output (fault : OutputFault)
deriving DecidableEq, Repr

namespace RuntimeError

def message : RuntimeError → String
  | .undefinedProperty name => "Undefined property '" ++ name.lexeme ++ "'."
  | .undefinedVariable name => "Undefined variable '" ++ name.lexeme ++ "'."
  | .operand _ fault => fault.message
  | .notCallable _ => "Can only call functions and classes."
  | .arity _ expected found =>
    "Expected " ++ toString expected ++ " arguments but got " ++ toString found ++ "."
  | .stackOverflow _ => "Stack overflow."
  | .notAnInstance _ access => access.message
  | .output fault => "failed to write output: " ++ fault.message

def token? : RuntimeError → Option Token
  | .undefinedProperty token | .undefinedVariable token | .operand token _ | .notCallable token
  | .arity token _ _ | .stackOverflow token | .notAnInstance token _ => some token
  | .output _ => none

/-- The line of the token, 0 if there is none. -/
def line (error : RuntimeError) : Nat :=
  error.token?.elim 0 Token.line

end RuntimeError

end Script
