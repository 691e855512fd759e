/-!
The causes of syntax errors that reading statements and expressions can meet.
-/

namespace Script

/-- What a declaration of parameters and a body is for. -/
inductive Role where
  | function
  | method
deriving DecidableEq, Repr

def Role.text : Role → String
  | .function => "function"
  | .method => "method"

/-- What has to stand at a place, and does not. -/
inductive Expected where
  | className
  | classOpening
  | classClosing
  | name (role : Role)
  | parametersOpening (role : Role)
  | parameterName
  | parametersClosing
  | bodyOpening (role : Role)
  | variableName
  | variableEnd
  | ifOpening
  | ifClosing
  | whileOpening
  | whileClosing
  | forOpening
  | forConditionEnd
  | forClosing
  | printEnd
  | returnEnd
  | blockClosing
  | expressionEnd
  | propertyName
  | argumentsClosing
  | groupClosing
  | expression
deriving DecidableEq, Repr

def Expected.message : Expected → String
  | .className => "Expect class name."
  | .classOpening => "Expect '\x7b' before class body."
  | .classClosing => "Expect '\x7d' after class body."
  | .name role => "Expect " ++ role.text ++ " name."
  | .parametersOpening role => "Expect '(' after " ++ role.text ++ " name."
  | .parameterName => "Expect parameter name."
  | .parametersClosing => "Expect ')' after parameters."
  | .bodyOpening role => "Expect '\x7b' before " ++ role.text ++ " body."
  | .variableName => "Expect variable name."
  | .variableEnd => "Expect ';' after variable declaration."
  | .ifOpening => "Expect '(' after 'if'."
  | .ifClosing => "Expect ')' after if condition."
  | .whileOpening => "Expect '(' after 'while'."
  | .whileClosing => "Expect ')' after condition."
  | .forOpening => "Expect '(' after 'for'."
  | .forConditionEnd => "Expect ';' after loop condition."
  | .forClosing => "Expect ')' after for clauses."
  | .printEnd => "Expect ';' after value."
  | .returnEnd => "Expect ';' after return value."
  | .blockClosing => "Expect '\x7d' after block."
  | .expressionEnd => "Expect ';' after expression."
  | .propertyName => "Expect property name after '.'."
  | .argumentsClosing => "Expect ')' after arguments."
  | .groupClosing => "Expect ')' after expression."
  | .expression => "Expect expression."

/-- The entries of a list that has a greatest length. -/
inductive Entries where
  | parameters
  | arguments
deriving DecidableEq, Repr

/-- The greatest length of a list of parameters or arguments. -/
def Entries.most : Nat := 255

def Entries.text : Entries → String
  | .parameters => "parameters"
  | .arguments => "arguments"

/-- Something missing ends the declaration around it. The other errors are reported, and reading goes
on. -/
inductive SyntaxError where
  | missing (expected : Expected)
  | tooMany (entries : Entries)
  | assignmentTarget
deriving DecidableEq, Repr

def SyntaxError.message : SyntaxError → String
  | .missing expected => expected.message
  | .tooMany entries => "Can't have more than " ++ toString Entries.most ++ " " ++ entries.text ++ "."
  | .assignmentTarget => "Invalid assignment target."

end Script
