import Script.Stmt
import Script.SyntaxError

/-!
# The grammar

What a row of tokens stands for, said without saying how to read it. A derivation relates the tokens
of a phrase to its tree. Operators of one level group to the left because the left operand of a chain
may be a chain of the same level and the right one may not; assignment groups to the right because
its value may be an assignment.

The grammar of statements has one ambiguity, the `else` that may belong to more than one `if`.
`ElseRule` says whether any of them will do.
-/

namespace Script.Grammar

/-- A token of one kind. -/
abbrev Word (kind : Kind) : Type :=
  { token : Token // token.kind = kind }

/-- Phrases in order, with a comma between any two neighbours. -/
inductive Separated : List (List Token) → List Token → Prop where
  | nil : Separated [] []
  | single (phrase : List Token) : Separated [phrase] phrase
  | cons (phrase : List Token) (comma : Word .comma) {next : List Token}
      {phrases : List (List Token)} {read : List Token}
      (hrest : Separated (next :: phrases) read) :
      Separated (phrase :: next :: phrases) (phrase ++ comma.1 :: read)

/-! ### Expressions -/

inductive ExprSymbol where
  | expression
  | logicOr
  | logicAnd
  | equality
  | comparison
  | term
  | factor
  | unary
  | call
  | primary
deriving DecidableEq, Repr

/-- A line of the grammar that reads `operand (operator operand)*`, and the node it builds. -/
structure Chain where
  operand : ExprSymbol
  operators : List Kind
  node : Expr → Token → Expr → Expr

def ExprSymbol.chain? : ExprSymbol → Option Chain
  | .logicOr => some ⟨.logicAnd, [.orWord], .logical⟩
  | .logicAnd => some ⟨.equality, [.andWord], .logical⟩
  | .equality => some ⟨.comparison, [.bangEqual, .equalEqual], .binary⟩
  | .comparison => some ⟨.term, [.greater, .greaterEqual, .less, .lessEqual], .binary⟩
  | .term => some ⟨.factor, [.minus, .plus], .binary⟩
  | .factor => some ⟨.unary, [.slash, .star], .binary⟩
  | _ => none

/-- `Expression symbol read tree`: the tokens `read` are a phrase of the symbol with that tree. -/
inductive Expression : ExprSymbol → List Token → Expr → Prop where
  | assign (name : Word .identifier) (equals : Word .equal) {read : List Token} {value : Expr}
      (hvalue : Expression .expression read value) :
      Expression .expression (name.1 :: equals.1 :: read) (.assign name value)
  | set {before : List Token} {object : Expr} (hobject : Expression .call before object)
      (dot : Word .dot) (name : Word .identifier) (equals : Word .equal) {read : List Token}
      {value : Expr} (hvalue : Expression .expression read value) :
      Expression .expression (before ++ dot.1 :: name.1 :: equals.1 :: read) (.set object name value)
  | value {read : List Token} {tree : Expr} (hvalue : Expression .logicOr read tree) :
      Expression .expression read tree
  | operand {symbol : ExprSymbol} {chain : Chain} (hchain : symbol.chain? = some chain)
      {read : List Token} {tree : Expr} (hoperand : Expression chain.operand read tree) :
      Expression symbol read tree
  | operation {symbol : ExprSymbol} {chain : Chain} (hchain : symbol.chain? = some chain)
      {before : List Token} {left : Expr} (hleft : Expression symbol before left)
      (operator : Token) (hoperator : operator.kind ∈ chain.operators) {read : List Token}
      {right tree : Expr} (hright : Expression chain.operand read right)
      (htree : tree = chain.node left operator right) :
      Expression symbol (before ++ operator :: read) tree
  | sign (operator : Token) (hoperator : operator.kind = .bang ∨ operator.kind = .minus)
      {read : List Token} {tree : Expr} (hoperand : Expression .unary read tree) :
      Expression .unary (operator :: read) (.unary operator tree)
  | unsigned {read : List Token} {tree : Expr} (hcall : Expression .call read tree) :
      Expression .unary read tree
  | bare {read : List Token} {tree : Expr} (hprimary : Expression .primary read tree) :
      Expression .call read tree
  | call {before : List Token} {callee : Expr} (hcallee : Expression .call before callee)
      (opening : Word .leftParen) (arguments : List (List Token × Expr))
      (harguments : ∀ argument ∈ arguments, Expression .expression argument.1 argument.2)
      (hmost : arguments.length ≤ Entries.most) {read : List Token}
      (hread : Separated (arguments.map Prod.fst) read) (closing : Word .rightParen) :
      Expression .call (before ++ opening.1 :: (read ++ [closing.1]))
        (.call callee closing (arguments.map Prod.snd))
  | get {before : List Token} {object : Expr} (hobject : Expression .call before object)
      (dot : Word .dot) (name : Word .identifier) :
      Expression .call (before ++ [dot.1, name.1]) (.get object name)
  | falseLiteral (word : Word .falseWord) : Expression .primary [word.1] (.literal (.bool false))
  | trueLiteral (word : Word .trueWord) : Expression .primary [word.1] (.literal (.bool true))
  | nilLiteral (word : Word .nilWord) : Expression .primary [word.1] (.literal .none)
  | number (word : Word .number) : Expression .primary [word.1] (.literal word.1.literal)
  | string (word : Word .string) : Expression .primary [word.1] (.literal word.1.literal)
  | name (name : Word .identifier) : Expression .primary [name.1] (.variable name)
  | this (word : Word .thisWord) : Expression .primary [word.1] (.this word)
  | grouping (opening : Word .leftParen) {read : List Token} {inner : Expr}
      (hinner : Expression .expression read inner) (closing : Word .rightParen) :
      Expression .primary (opening.1 :: (read ++ [closing.1])) (.grouping inner)

inductive Optional : List Token → Option Expr → Prop where
  | none : Optional [] none
  | some {read : List Token} {tree : Expr} (htree : Expression .expression read tree) :
      Optional read (some tree)

/-- A node that the grammar builds from an operator and its operands. -/
def isOperation : Expr → Bool
  | .binary .. | .logical .. | .unary .. => true
  | _ => false

/-- Below an assignment, a phrase without operators is a call. -/
theorem Expression.call_of_not_isOperation {symbol : ExprSymbol} {read : List Token} {tree : Expr}
    (h : Expression symbol read tree) (hsymbol : symbol = .unary ∨ symbol.chain?.isSome = true)
    (htree : isOperation tree = false) : Expression .call read tree := by
  induction h with
  | operand hchain _ ih =>
      refine ih ?_ htree
      unfold ExprSymbol.chain? at hchain
      split at hchain <;> cases hchain <;> simp [ExprSymbol.chain?]
  | operation hchain _ operator _ _ hnode =>
      subst hnode
      unfold ExprSymbol.chain? at hchain
      split at hchain <;> cases hchain <;> cases htree
  | sign => cases htree
  | unsigned hcall => exact hcall
  | _ => simp [ExprSymbol.chain?] at hsymbol

theorem Expression.of_variable {read : List Token} {name : Token}
    (h : Expression .logicOr read (.variable name)) :
    ∃ word : Word .identifier, name = word ∧ read = [word.1] := by
  cases h.call_of_not_isOperation (Or.inr rfl) rfl with
  | operand hchain => cases hchain
  | operation hchain => cases hchain
  | bare hprimary =>
      cases hprimary with
      | operand hchain => cases hchain
      | operation hchain => cases hchain
      | name word => exact ⟨word, rfl, rfl⟩

theorem Expression.of_get {read : List Token} {object : Expr} {name : Token}
    (h : Expression .logicOr read (.get object name)) :
    ∃ (before : List Token) (dot : Word .dot) (word : Word .identifier),
      read = before ++ [dot.1, word.1] ∧ name = word ∧ Expression .call before object := by
  cases h.call_of_not_isOperation (Or.inr rfl) rfl with
  | operand hchain => cases hchain
  | operation hchain => cases hchain
  | bare hprimary =>
      cases hprimary with
      | operand hchain => cases hchain
      | operation hchain => cases hchain
  | get hobject dot word => exact ⟨_, dot, word, rfl, rfl, hobject⟩

/-! ### Statements -/

/-- `expression ";"` -/
inductive ExpressionStatement : List Token → Stmt → Prop where
  | mk {read : List Token} {tree : Expr} (htree : Expression .expression read tree)
      (stop : Word .semicolon) : ExpressionStatement (read ++ [stop.1]) (.expression tree)

/-- `VAR IDENTIFIER ("=" expression)? ";"` -/
inductive VarDeclaration : List Token → Stmt → Prop where
  | plain (keyword : Word .varWord) (name : Word .identifier) (stop : Word .semicolon) :
      VarDeclaration [keyword.1, name.1, stop.1] (.var name none)
  | initialized (keyword : Word .varWord) (name : Word .identifier) (equals : Word .equal)
      {read : List Token} {value : Expr} (hvalue : Expression .expression read value)
      (stop : Word .semicolon) :
      VarDeclaration (keyword.1 :: name.1 :: equals.1 :: (read ++ [stop.1])) (.var name (some value))

/-- To which `if` an `else` may belong: to any that lacks one, or only to the nearest of them. -/
inductive ElseRule where
  | any
  | nearest
deriving DecidableEq, Repr

/-- A statement that `mayDangle` may end with an `if` that lacks its `else`. A `forTail` is a `for`
from the end of its initializer on. -/
inductive StmtSymbol where
  | declaration
  | function
  | block
  | statement (mayDangle : Bool)
  | forTail (mayDangle : Bool)
deriving DecidableEq, Repr

/-- Whether the statement between an `if` and its `else` may itself lack an `else`. -/
def ElseRule.mayDangle : ElseRule → Bool
  | .any => true
  | .nearest => false

inductive Statement (rule : ElseRule) : StmtSymbol → List Token → Stmt → Prop where
  | classDecl (keyword : Word .classWord) (name : Word .identifier) (opening : Word .leftBrace)
      (methods : List (List Token × Declaration))
      (hmethods : ∀ method ∈ methods, Statement rule .function method.1 (.function method.2))
      (closing : Word .rightBrace) :
      Statement rule .declaration
        (keyword.1 :: name.1 :: opening.1 :: (methods.flatMap Prod.fst ++ [closing.1]))
        (.classDecl name (methods.map Prod.snd))
  | functionDecl (keyword : Word .funcWord) {read : List Token} {function : Stmt}
      (hfunction : Statement rule .function read function) :
      Statement rule .declaration (keyword.1 :: read) function
  | varDecl {read : List Token} {tree : Stmt} (hvar : VarDeclaration read tree) :
      Statement rule .declaration read tree
  | statement {read : List Token} {tree : Stmt}
      (hstatement : Statement rule (.statement true) read tree) :
      Statement rule .declaration read tree
  | function (name : Word .identifier) (opening : Word .leftParen)
      (params : List (Word .identifier)) (hmost : params.length ≤ Entries.most)
      {read : List Token} (hread : Separated (params.map fun param => [param.1]) read)
      (closing : Word .rightParen) {block : List Token} {body : List Stmt}
      (hblock : Statement rule .block block (.block body)) :
      Statement rule .function (name.1 :: opening.1 :: (read ++ closing.1 :: block))
        (.function { name := name.1, params := params.map Subtype.val, body })
  | block (opening : Word .leftBrace) (items : List (List Token × Stmt))
      (hitems : ∀ item ∈ items, Statement rule .declaration item.1 item.2)
      (closing : Word .rightBrace) :
      Statement rule .block (opening.1 :: (items.flatMap Prod.fst ++ [closing.1]))
        (.block (items.map Prod.snd))
  | nested {mayDangle : Bool} {read : List Token} {tree : Stmt}
      (hblock : Statement rule .block read tree) :
      Statement rule (.statement mayDangle) read tree
  | ifOnly (keyword : Word .ifWord) (opening : Word .leftParen) {test : List Token}
      {condition : Expr} (hcondition : Expression .expression test condition)
      (closing : Word .rightParen) {read : List Token} {whenTrue : Stmt}
      (htrue : Statement rule (.statement true) read whenTrue) :
      Statement rule (.statement true) (keyword.1 :: opening.1 :: (test ++ closing.1 :: read))
        (.conditional condition whenTrue none)
  | ifElse {mayDangle : Bool} (keyword : Word .ifWord) (opening : Word .leftParen)
      {test : List Token} {condition : Expr} (hcondition : Expression .expression test condition)
      (closing : Word .rightParen) {first : List Token} {whenTrue : Stmt}
      (htrue : Statement rule (.statement rule.mayDangle) first whenTrue)
      (otherwise : Word .elseWord) {second : List Token} {whenFalse : Stmt}
      (hfalse : Statement rule (.statement mayDangle) second whenFalse) :
      Statement rule (.statement mayDangle)
        (keyword.1 :: opening.1 :: (test ++ closing.1 :: (first ++ otherwise.1 :: second)))
        (.conditional condition whenTrue (some whenFalse))
  | whileLoop {mayDangle : Bool} (keyword : Word .whileWord) (opening : Word .leftParen)
      {test : List Token} {condition : Expr} (hcondition : Expression .expression test condition)
      (closing : Word .rightParen) {read : List Token} {body : Stmt}
      (hbody : Statement rule (.statement mayDangle) read body) :
      Statement rule (.statement mayDangle) (keyword.1 :: opening.1 :: (test ++ closing.1 :: read))
        (.loop condition body)
  | forOnly {mayDangle : Bool} (keyword : Word .forWord) (opening : Word .leftParen)
      (stop : Word .semicolon) {read : List Token} {loop : Stmt}
      (hloop : Statement rule (.forTail mayDangle) read loop) :
      Statement rule (.statement mayDangle) (keyword.1 :: opening.1 :: stop.1 :: read) loop
  | forFrom {mayDangle : Bool} (keyword : Word .forWord) (opening : Word .leftParen)
      {first : List Token} {initializer : Stmt}
      (hfirst : VarDeclaration first initializer ∨ ExpressionStatement first initializer)
      {read : List Token} {loop : Stmt} (hloop : Statement rule (.forTail mayDangle) read loop) :
      Statement rule (.statement mayDangle) (keyword.1 :: opening.1 :: (first ++ read))
        (.block [initializer, loop])
  | forTail {mayDangle : Bool} {test : List Token} {condition : Option Expr}
      (hcondition : Optional test condition) (stop : Word .semicolon) (closing : Word .rightParen)
      {read : List Token} {body : Stmt}
      (hbody : Statement rule (.statement mayDangle) read body) :
      Statement rule (.forTail mayDangle) (test ++ stop.1 :: closing.1 :: read)
        (.loop (condition.getD (.literal (.bool true))) body)
  | forTailStep {mayDangle : Bool} {test : List Token} {condition : Option Expr}
      (hcondition : Optional test condition) (stop : Word .semicolon) {step : List Token}
      {increment : Expr} (hincrement : Expression .expression step increment)
      (closing : Word .rightParen) {read : List Token} {body : Stmt}
      (hbody : Statement rule (.statement mayDangle) read body) :
      Statement rule (.forTail mayDangle) (test ++ stop.1 :: (step ++ closing.1 :: read))
        (.loop (condition.getD (.literal (.bool true))) (.block [body, .expression increment]))
  | print {mayDangle : Bool} (keyword : Word .printWord) {read : List Token} {tree : Expr}
      (htree : Expression .expression read tree) (stop : Word .semicolon) :
      Statement rule (.statement mayDangle) (keyword.1 :: (read ++ [stop.1])) (.print tree)
  | return {mayDangle : Bool} (keyword : Word .returnWord) {read : List Token}
      {value : Option Expr} (hvalue : Optional read value) (stop : Word .semicolon) :
      Statement rule (.statement mayDangle) (keyword.1 :: (read ++ [stop.1])) (.return keyword value)
  | expression {mayDangle : Bool} {read : List Token} {tree : Stmt}
      (htree : ExpressionStatement read tree) :
      Statement rule (.statement mayDangle) read tree

/-- The tokens of a program, up to the end of the list. -/
def Program (rule : ElseRule) (read : List Token) (tree : List Stmt) : Prop :=
  ∃ items : List (List Token × Stmt),
    (∀ item ∈ items, Statement rule .declaration item.1 item.2) ∧
      read = items.flatMap Prod.fst ∧ tree = items.map Prod.snd

end Script.Grammar
