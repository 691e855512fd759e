import Mathlib.Data.List.Forall2
import Mathlib.Data.Option.Defs
import Script.Stmt

/-!
# Trees that differ in their tokens

Two trees are alike if they have the same shape and their tokens correspond, place by place. What has to
hold of two tokens may depend on what the tree uses them for.
-/

namespace Script

/-- What a tree uses a token for: the name of a variable, a function, a class or a property, the object of
a method, an operator between two operands or before one, the end of a call, or a mark that is kept for its
line or its kind. -/
inductive Use where
  | name
  | receiver
  | operator
  | sign
  | paren
  | mark
deriving DecidableEq, Repr

/-- What has to hold of two tokens that are used alike. -/
abbrev Matching := Use → Token → Token → Prop

variable {T : Matching}

inductive Expr.Like (T : Matching) : Expr → Expr → Prop where
  | assign {name name' : Token} {value value' : Expr} (hname : T .name name name')
      (hvalue : Like T value value') : Like T (.assign name value) (.assign name' value')
  | binary {left left' right right' : Expr} {operator operator' : Token} (hleft : Like T left left')
      (hoperator : T .operator operator operator') (hright : Like T right right') :
      Like T (.binary left operator right) (.binary left' operator' right')
  | call {callee callee' : Expr} {paren paren' : Token} {arguments arguments' : List Expr}
      (hcallee : Like T callee callee') (hparen : T .paren paren paren')
      (harguments : List.Forall₂ (Like T) arguments arguments') :
      Like T (.call callee paren arguments) (.call callee' paren' arguments')
  | get {object object' : Expr} {name name' : Token} (hobject : Like T object object')
      (hname : T .name name name') : Like T (.get object name) (.get object' name')
  | grouping {inner inner' : Expr} (hinner : Like T inner inner') :
      Like T (.grouping inner) (.grouping inner')
  | literal (value : Literal) : Like T (.literal value) (.literal value)
  | logical {left left' right right' : Expr} {operator operator' : Token} (hleft : Like T left left')
      (hoperator : T .mark operator operator') (hright : Like T right right') :
      Like T (.logical left operator right) (.logical left' operator' right')
  | set {object object' value value' : Expr} {name name' : Token} (hobject : Like T object object')
      (hname : T .name name name') (hvalue : Like T value value') :
      Like T (.set object name value) (.set object' name' value')
  | this {keyword keyword' : Token} (hkeyword : T .receiver keyword keyword') :
      Like T (.this keyword) (.this keyword')
  | unary {operator operator' : Token} {right right' : Expr} (hoperator : T .sign operator operator')
      (hright : Like T right right') : Like T (.unary operator right) (.unary operator' right')
  | variable {name name' : Token} (hname : T .name name name') : Like T (.variable name) (.variable name')

mutual

inductive Stmt.Like (T : Matching) : Stmt → Stmt → Prop where
  | block {statements statements' : List Stmt} (h : List.Forall₂ (Stmt.Like T) statements statements') :
      Stmt.Like T (.block statements) (.block statements')
  | classDecl {name name' : Token} {methods methods' : List Declaration} (hname : T .name name name')
      (hmethods : List.Forall₂ (Declaration.Like T) methods methods') :
      Stmt.Like T (.classDecl name methods) (.classDecl name' methods')
  | expression {expression expression' : Expr} (h : Expr.Like T expression expression') :
      Stmt.Like T (.expression expression) (.expression expression')
  | function {declaration declaration' : Declaration} (h : Declaration.Like T declaration declaration') :
      Stmt.Like T (.function declaration) (.function declaration')
  | conditional {condition condition' : Expr} {whenTrue whenTrue' : Stmt}
      {whenFalse whenFalse' : Option Stmt} (hcondition : Expr.Like T condition condition')
      (hwhenTrue : Stmt.Like T whenTrue whenTrue')
      (hwhenFalse : Option.Rel (Stmt.Like T) whenFalse whenFalse') :
      Stmt.Like T (.conditional condition whenTrue whenFalse) (.conditional condition' whenTrue' whenFalse')
  | print {expression expression' : Expr} (h : Expr.Like T expression expression') :
      Stmt.Like T (.print expression) (.print expression')
  | return {keyword keyword' : Token} {value value' : Option Expr} (hkeyword : T .mark keyword keyword')
      (hvalue : Option.Rel (Expr.Like T) value value') :
      Stmt.Like T (.return keyword value) (.return keyword' value')
  | var {name name' : Token} {initializer initializer' : Option Expr} (hname : T .name name name')
      (hinitializer : Option.Rel (Expr.Like T) initializer initializer') :
      Stmt.Like T (.var name initializer) (.var name' initializer')
  | loop {condition condition' : Expr} {body body' : Stmt} (hcondition : Expr.Like T condition condition')
      (hbody : Stmt.Like T body body') : Stmt.Like T (.loop condition body) (.loop condition' body')

inductive Declaration.Like (T : Matching) : Declaration → Declaration → Prop where
  | mk {declaration declaration' : Declaration} (hname : T .name declaration.name declaration'.name)
      (hparams : List.Forall₂ (T .name) declaration.params declaration'.params)
      (hbody : List.Forall₂ (Stmt.Like T) declaration.body declaration'.body) :
      Declaration.Like T declaration declaration'

end

/-! ### The tokens of a tree -/

mutual

/-- The tokens of an expression, with what each is used for. -/
def Expr.tokens : Expr → List (Use × Token)
  | .assign name value => (.name, name) :: value.tokens
  | .binary left operator right => left.tokens ++ (.operator, operator) :: right.tokens
  | .call callee paren arguments => callee.tokens ++ (.paren, paren) :: Expr.listTokens arguments
  | .get object name => object.tokens ++ [(.name, name)]
  | .grouping inner => inner.tokens
  | .literal _ => []
  | .logical left operator right => left.tokens ++ (.mark, operator) :: right.tokens
  | .set object name value => object.tokens ++ (.name, name) :: value.tokens
  | .this keyword => [(.receiver, keyword)]
  | .unary operator right => (.sign, operator) :: right.tokens
  | .variable name => [(.name, name)]

def Expr.listTokens : List Expr → List (Use × Token)
  | [] => []
  | expression :: rest => expression.tokens ++ Expr.listTokens rest

end

mutual

def Stmt.tokens : Stmt → List (Use × Token)
  | .block statements => Stmt.listTokens statements
  | .classDecl name methods => (.name, name) :: Declaration.listTokens methods
  | .expression expression => expression.tokens
  | .function declaration => declaration.tokens
  | .conditional condition whenTrue none => condition.tokens ++ whenTrue.tokens
  | .conditional condition whenTrue (some whenFalse) =>
    condition.tokens ++ (whenTrue.tokens ++ whenFalse.tokens)
  | .print expression => expression.tokens
  | .return keyword value => (.mark, keyword) :: value.elim [] Expr.tokens
  | .var name initializer => (.name, name) :: initializer.elim [] Expr.tokens
  | .loop condition body => condition.tokens ++ body.tokens

def Stmt.listTokens : List Stmt → List (Use × Token)
  | [] => []
  | statement :: rest => statement.tokens ++ Stmt.listTokens rest

def Declaration.tokens : Declaration → List (Use × Token)
  | ⟨name, params, body⟩ => (.name, name) :: (params.map (Prod.mk .name) ++ Stmt.listTokens body)

def Declaration.listTokens : List Declaration → List (Use × Token)
  | [] => []
  | declaration :: rest => declaration.tokens ++ Declaration.listTokens rest

end

/-! ### Trees that are alike to themselves -/

mutual

/-- It is enough to compare each token of a tree with itself. -/
theorem Expr.like_self (expression : Expr) (h : ∀ entry ∈ expression.tokens, T entry.1 entry.2 entry.2) :
    Expr.Like T expression expression := by
  cases expression with
  | assign name value =>
      rw [Expr.tokens, List.forall_mem_cons] at h
      exact .assign h.1 (value.like_self h.2)
  | binary left operator right =>
      rw [Expr.tokens, List.forall_mem_append, List.forall_mem_cons] at h
      exact .binary (left.like_self h.1) h.2.1 (right.like_self h.2.2)
  | call callee paren arguments =>
      rw [Expr.tokens, List.forall_mem_append, List.forall_mem_cons] at h
      exact .call (callee.like_self h.1) h.2.1 (Expr.listLike_self arguments h.2.2)
  | get object name =>
      rw [Expr.tokens, List.forall_mem_append, List.forall_mem_singleton] at h
      exact .get (object.like_self h.1) h.2
  | grouping inner => exact .grouping (inner.like_self h)
  | literal value => exact .literal value
  | logical left operator right =>
      rw [Expr.tokens, List.forall_mem_append, List.forall_mem_cons] at h
      exact .logical (left.like_self h.1) h.2.1 (right.like_self h.2.2)
  | set object name value =>
      rw [Expr.tokens, List.forall_mem_append, List.forall_mem_cons] at h
      exact .set (object.like_self h.1) h.2.1 (value.like_self h.2.2)
  | this keyword => exact .this (h _ List.mem_cons_self)
  | unary operator right =>
      rw [Expr.tokens, List.forall_mem_cons] at h
      exact .unary h.1 (right.like_self h.2)
  | «variable» name => exact .variable (h _ List.mem_cons_self)

theorem Expr.listLike_self (expressions : List Expr)
    (h : ∀ entry ∈ Expr.listTokens expressions, T entry.1 entry.2 entry.2) :
    List.Forall₂ (Expr.Like T) expressions expressions := by
  cases expressions with
  | nil => exact .nil
  | cons expression rest =>
      rw [Expr.listTokens, List.forall_mem_append] at h
      exact .cons (expression.like_self h.1) (Expr.listLike_self rest h.2)

end

theorem Expr.optionLike_self (expression? : Option Expr)
    (h : ∀ entry ∈ expression?.elim [] Expr.tokens, T entry.1 entry.2 entry.2) :
    Option.Rel (Expr.Like T) expression? expression? := by
  cases expression? with
  | none => exact .none
  | some expression => exact .some (expression.like_self h)

mutual

theorem Stmt.like_self (statement : Stmt) (h : ∀ entry ∈ statement.tokens, T entry.1 entry.2 entry.2) :
    Stmt.Like T statement statement := by
  cases statement with
  | block statements => exact .block (Stmt.listLike_self statements h)
  | classDecl name methods =>
      rw [Stmt.tokens, List.forall_mem_cons] at h
      exact .classDecl h.1 (Declaration.listLike_self methods h.2)
  | expression expression => exact .expression (expression.like_self h)
  | function declaration => exact .function (declaration.like_self h)
  | conditional condition whenTrue whenFalse =>
      cases whenFalse with
      | none =>
          rw [Stmt.tokens, List.forall_mem_append] at h
          exact .conditional (condition.like_self h.1) (whenTrue.like_self h.2) .none
      | some whenFalse =>
          rw [Stmt.tokens, List.forall_mem_append, List.forall_mem_append] at h
          exact .conditional (condition.like_self h.1) (whenTrue.like_self h.2.1)
            (.some (whenFalse.like_self h.2.2))
  | print expression => exact .print (expression.like_self h)
  | «return» keyword value =>
      rw [Stmt.tokens, List.forall_mem_cons] at h
      exact .return h.1 (Expr.optionLike_self value h.2)
  | var name initializer =>
      rw [Stmt.tokens, List.forall_mem_cons] at h
      exact .var h.1 (Expr.optionLike_self initializer h.2)
  | loop condition body =>
      rw [Stmt.tokens, List.forall_mem_append] at h
      exact .loop (condition.like_self h.1) (body.like_self h.2)

theorem Stmt.listLike_self (statements : List Stmt)
    (h : ∀ entry ∈ Stmt.listTokens statements, T entry.1 entry.2 entry.2) :
    List.Forall₂ (Stmt.Like T) statements statements := by
  cases statements with
  | nil => exact .nil
  | cons statement rest =>
      rw [Stmt.listTokens, List.forall_mem_append] at h
      exact .cons (statement.like_self h.1) (Stmt.listLike_self rest h.2)

theorem Declaration.like_self (declaration : Declaration)
    (h : ∀ entry ∈ declaration.tokens, T entry.1 entry.2 entry.2) :
    Declaration.Like T declaration declaration := by
  obtain ⟨name, params, body⟩ := declaration
  rw [Declaration.tokens, List.forall_mem_cons, List.forall_mem_append, List.forall_mem_map] at h
  exact .mk h.1 (List.forall₂_same.mpr h.2.1) (Stmt.listLike_self body h.2.2)

theorem Declaration.listLike_self (declarations : List Declaration)
    (h : ∀ entry ∈ Declaration.listTokens declarations, T entry.1 entry.2 entry.2) :
    List.Forall₂ (Declaration.Like T) declarations declarations := by
  cases declarations with
  | nil => exact .nil
  | cons declaration rest =>
      rw [Declaration.listTokens, List.forall_mem_append] at h
      exact .cons (declaration.like_self h.1) (Declaration.listLike_self rest h.2)

end

/-! ### Trees with the same tokens -/

/-- Tokens correspond to themselves only. -/
def Matching.same : Matching :=
  fun _ => Eq

mutual

theorem Expr.eq_of_like {expression expression' : Expr} (h : Expr.Like .same expression expression') :
    expression = expression' := by
  cases h with
  | assign hname hvalue => rw [show _ = _ from hname, Expr.eq_of_like hvalue]
  | binary hleft hoperator hright =>
      rw [Expr.eq_of_like hleft, show _ = _ from hoperator, Expr.eq_of_like hright]
  | call hcallee hparen harguments =>
      rw [Expr.eq_of_like hcallee, show _ = _ from hparen, Expr.eq_of_listLike harguments]
  | get hobject hname => rw [Expr.eq_of_like hobject, show _ = _ from hname]
  | grouping hinner => rw [Expr.eq_of_like hinner]
  | literal => rfl
  | logical hleft hoperator hright =>
      rw [Expr.eq_of_like hleft, show _ = _ from hoperator, Expr.eq_of_like hright]
  | set hobject hname hvalue =>
      rw [Expr.eq_of_like hobject, show _ = _ from hname, Expr.eq_of_like hvalue]
  | this hkeyword => rw [show _ = _ from hkeyword]
  | unary hoperator hright => rw [show _ = _ from hoperator, Expr.eq_of_like hright]
  | «variable» hname => rw [show _ = _ from hname]

theorem Expr.eq_of_listLike {expressions expressions' : List Expr}
    (h : List.Forall₂ (Expr.Like .same) expressions expressions') : expressions = expressions' := by
  cases h with
  | nil => rfl
  | cons hfirst hrest => rw [Expr.eq_of_like hfirst, Expr.eq_of_listLike hrest]

end

theorem Expr.eq_of_optionLike {expression? expression?' : Option Expr}
    (h : Option.Rel (Expr.Like .same) expression? expression?') : expression? = expression?' := by
  cases h with
  | none => rfl
  | some h => rw [Expr.eq_of_like h]

mutual

theorem Stmt.eq_of_like (statement : Stmt) {statement' : Stmt}
    (h : Stmt.Like .same statement statement') : statement = statement' := by
  cases statement with
  | block statements =>
      cases h with
      | block h => rw [Stmt.eq_of_listLike statements h]
  | classDecl name methods =>
      cases h with
      | classDecl hname hmethods =>
          rw [show _ = _ from hname, Declaration.eq_of_listLike methods hmethods]
  | expression =>
      cases h with
      | expression h => rw [Expr.eq_of_like h]
  | function declaration =>
      cases h with
      | function h => rw [Declaration.eq_of_like declaration h]
  | conditional _ whenTrue whenFalse =>
      cases h with
      | conditional hcondition hwhenTrue hwhenFalse =>
          rw [Expr.eq_of_like hcondition, Stmt.eq_of_like whenTrue hwhenTrue,
            Stmt.eq_of_optionLike whenFalse hwhenFalse]
  | print =>
      cases h with
      | print h => rw [Expr.eq_of_like h]
  | «return» =>
      cases h with
      | «return» hkeyword hvalue => rw [show _ = _ from hkeyword, Expr.eq_of_optionLike hvalue]
  | var =>
      cases h with
      | var hname hinitializer => rw [show _ = _ from hname, Expr.eq_of_optionLike hinitializer]
  | loop _ body =>
      cases h with
      | loop hcondition hbody => rw [Expr.eq_of_like hcondition, Stmt.eq_of_like body hbody]

theorem Stmt.eq_of_optionLike (statement? : Option Stmt) {statement?' : Option Stmt}
    (h : Option.Rel (Stmt.Like .same) statement? statement?') : statement? = statement?' := by
  cases statement? with
  | none =>
      cases h
      rfl
  | some statement =>
      cases h with
      | some h => rw [Stmt.eq_of_like statement h]

theorem Stmt.eq_of_listLike (statements : List Stmt) {statements' : List Stmt}
    (h : List.Forall₂ (Stmt.Like .same) statements statements') : statements = statements' := by
  cases statements with
  | nil =>
      cases h
      rfl
  | cons statement rest =>
      cases h with
      | cons hfirst hrest => rw [Stmt.eq_of_like statement hfirst, Stmt.eq_of_listLike rest hrest]

theorem Declaration.eq_of_like (declaration : Declaration) {declaration' : Declaration}
    (h : Declaration.Like .same declaration declaration') : declaration = declaration' := by
  cases declaration with
  | mk name params body =>
      obtain ⟨name', params', body'⟩ := declaration'
      cases h with
      | mk hname hparams hbody =>
          have hname : name = name' := hname
          have hparams : List.Forall₂ Eq params params' := hparams
          rw [List.forall₂_eq_eq_eq] at hparams
          have hbody : body = body' := Stmt.eq_of_listLike body hbody
          rw [hname, hparams, hbody]

theorem Declaration.eq_of_listLike (declarations : List Declaration) {declarations' : List Declaration}
    (h : List.Forall₂ (Declaration.Like .same) declarations declarations') :
    declarations = declarations' := by
  cases declarations with
  | nil =>
      cases h
      rfl
  | cons declaration rest =>
      cases h with
      | cons hfirst hrest =>
          rw [Declaration.eq_of_like declaration hfirst, Declaration.eq_of_listLike rest hrest]

end

end Script
