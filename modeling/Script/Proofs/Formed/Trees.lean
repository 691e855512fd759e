import Script.Proofs.Alike.Operations
import Script.Proofs.Alike.Parser
import Script.Proofs.Receiver.Layers

/-!
# Well formed trees

A tree that the parser can give keeps tokens of the kinds that it uses them as, and no node of it stands where it
would need parentheses: an operand binds as tightly as its operator, or more tightly where the other way of grouping
is meant. What stands between parentheses may bind as loosely as it likes.
-/

namespace Script

/-! ### Ranks -/

/-- How tightly the operators of a level bind. -/
def Level.rank : Level → Nat
  | .disjunction => 1
  | .conjunction => 2
  | .equality => 3
  | .comparison => 4
  | .sum => 5
  | .product => 6

/-- How tightly an operator binds its two operands. -/
def Kind.rank (kind : Kind) : Nat :=
  (Level.all.find? (·.has kind)).elim 0 Level.rank

/-- How tightly an expression holds together: an assignment least of all, then operations by their operators, signs,
calls and properties, and what nothing can break up. -/
def Expr.rank : Expr → Nat
  | .assign _ _ | .set _ _ _ => 0
  | .binary _ operator _ | .logical _ operator _ => operator.kind.rank
  | .unary _ _ => 7
  | .call _ _ _ | .get _ _ => 8
  | .grouping _ | .literal _ | .this _ | .variable _ => 9

theorem Level.rank_of_has {level : Level} {kind : Kind} (h : level.has kind = true) : kind.rank = level.rank := by
  revert h
  cases level <;> cases kind <;> decide

theorem Kind.rank_of_mem_operators {kind : Kind} (h : kind ∈ operators) : 3 ≤ kind.rank ∧ kind.rank ≤ 6 := by
  have hall : ∀ kind ∈ operators, 3 ≤ kind.rank ∧ kind.rank ≤ 6 := by decide
  exact hall kind h

/-! ### Expressions -/

variable {P Q : Token → Prop}

/-- One of the tokens, of a kind that fits its use. -/
def Use.Of (P : Token → Prop) (use : Use) (token : Token) : Prop :=
  P token ∧ use.Fits token.kind

/-- All tokens of the expression are of those given and fit their uses, and operands bind as tightly as they have to
where they stand. Constants are those of words, or of tokens for numbers and strings. -/
inductive Expr.Formed (P : Token → Prop) : Expr → Prop where
  | assign {name : Token} {value : Expr} (hname : Use.name.Of P name) (hvalue : Formed P value) :
      Formed P (.assign name value)
  | binary {left right : Expr} {operator : Token} (hleft : Formed P left) (hoperator : Use.operator.Of P operator)
      (hright : Formed P right) (hloose : operator.kind.rank ≤ left.rank) (htight : operator.kind.rank < right.rank) :
      Formed P (.binary left operator right)
  | call {callee : Expr} {paren : Token} {arguments : List Expr} (hcallee : Formed P callee)
      (hparen : Use.paren.Of P paren) (harguments : ∀ argument ∈ arguments, Formed P argument)
      (htight : 8 ≤ callee.rank) : Formed P (.call callee paren arguments)
  | get {object : Expr} {name : Token} (hobject : Formed P object) (hname : Use.name.Of P name)
      (htight : 8 ≤ object.rank) : Formed P (.get object name)
  | grouping {inner : Expr} (hinner : Formed P inner) : Formed P (.grouping inner)
  | truth (value : Bool) : Formed P (.literal (.bool value))
  | nil : Formed P (.literal .none)
  | constant {token : Token} (htoken : P token) (hkind : token.kind = .number ∨ token.kind = .string) :
      Formed P (.literal token.literal)
  | logical {left right : Expr} {operator : Token} (hleft : Formed P left) (hoperator : P operator)
      (hkind : operator.kind = .orWord ∨ operator.kind = .andWord) (hright : Formed P right)
      (hloose : operator.kind.rank ≤ left.rank) (htight : operator.kind.rank < right.rank) :
      Formed P (.logical left operator right)
  | set {object value : Expr} {name : Token} (hobject : Formed P object) (hname : Use.name.Of P name)
      (hvalue : Formed P value) (htight : 8 ≤ object.rank) : Formed P (.set object name value)
  | this {keyword : Token} (hkeyword : Use.receiver.Of P keyword) : Formed P (.this keyword)
  | unary {operator : Token} {right : Expr} (hoperator : Use.sign.Of P operator) (hright : Formed P right)
      (htight : 7 ≤ right.rank) : Formed P (.unary operator right)
  | variable {name : Token} (hname : Use.name.Of P name) : Formed P (.variable name)

theorem Use.Of.mono {use : Use} {token : Token} (h : use.Of P token) (hmono : ∀ token, P token → Q token) :
    use.Of Q token :=
  h.imp_left (hmono token)

theorem Expr.Formed.mono {tree : Expr} (h : tree.Formed P) (hmono : ∀ token, P token → Q token) : tree.Formed Q := by
  induction h with
  | assign hname _ ih => exact .assign (hname.mono hmono) ih
  | binary _ hoperator _ hloose htight ihLeft ihRight =>
      exact .binary ihLeft (hoperator.mono hmono) ihRight hloose htight
  | call _ hparen _ htight ihCallee ihArguments => exact .call ihCallee (hparen.mono hmono) ihArguments htight
  | get _ hname htight ih => exact .get ih (hname.mono hmono) htight
  | grouping _ ih => exact .grouping ih
  | truth value => exact .truth value
  | nil => exact .nil
  | constant htoken hkind => exact .constant (hmono _ htoken) hkind
  | logical _ hoperator hkind _ hloose htight ihLeft ihRight =>
      exact .logical ihLeft (hmono _ hoperator) hkind ihRight hloose htight
  | set _ hname _ htight ihObject ihValue => exact .set ihObject (hname.mono hmono) ihValue htight
  | this hkeyword => exact .this (hkeyword.mono hmono)
  | unary hoperator _ htight ih => exact .unary (hoperator.mono hmono) ih htight
  | «variable» hname => exact .variable (hname.mono hmono)

theorem Expr.Formed.of_mem_parts {tree part : Expr} (h : tree.Formed P) (hpart : part ∈ tree.parts) :
    part.Formed P := by
  cases h with
  | assign _ hvalue => exact List.mem_singleton.mp hpart ▸ hvalue
  | binary hleft _ hright | logical hleft _ _ hright | set hleft _ hright =>
      rcases List.mem_pair.mp hpart with rfl | rfl
      · exact hleft
      · exact hright
  | call hcallee _ harguments => exact List.forall_mem_cons.mpr ⟨hcallee, harguments⟩ part hpart
  | get hobject | grouping hobject => exact List.mem_singleton.mp hpart ▸ hobject
  | unary _ hright => exact List.mem_singleton.mp hpart ▸ hright
  | truth | nil | constant | this | «variable» => cases hpart

/-! ### Statements -/

/-- The names that the declaration of a function or a method gives. -/
structure Declaration.Named (P : Token → Prop) (declaration : Declaration) : Prop where
  name : Use.name.Of P declaration.name
  params : ∀ param ∈ declaration.params, Use.name.Of P param

/-- All expressions and tokens in the statement are well formed, and no declaration is a branch or the body of a
loop. -/
inductive Stmt.Formed (P : Token → Prop) : Stmt → Prop where
  | block {statements : List Stmt} (h : ∀ inner ∈ statements, Formed P inner) : Formed P (.block statements)
  | classDecl {name : Token} {methods : List Declaration} (hname : Use.name.Of P name)
      (hmethods : ∀ method ∈ methods, method.Named P)
      (hbodies : ∀ method ∈ methods, ∀ inner ∈ method.body, Formed P inner) :
      Formed P (.classDecl name methods)
  | expression {expression : Expr} (h : expression.Formed P) : Formed P (.expression expression)
  | function {declaration : Declaration} (hnames : declaration.Named P)
      (hbody : ∀ inner ∈ declaration.body, Formed P inner) : Formed P (.function declaration)
  | conditional {condition : Expr} {whenTrue : Stmt} {whenFalse : Option Stmt} (hcondition : condition.Formed P)
      (htrue : Formed P whenTrue) (hplainTrue : whenTrue.defines = none)
      (hfalse : ∀ branch ∈ whenFalse, Formed P branch)
      (hplainFalse : ∀ branch ∈ whenFalse, branch.defines = none) :
      Formed P (.conditional condition whenTrue whenFalse)
  | print {expression : Expr} (h : expression.Formed P) : Formed P (.print expression)
  | return {keyword : Token} {value : Option Expr} (hkeyword : P keyword) (hkind : keyword.kind = .returnWord)
      (hvalue : ∀ expression ∈ value, expression.Formed P) : Formed P (.return keyword value)
  | var {name : Token} {initializer : Option Expr} (hname : Use.name.Of P name)
      (hinitializer : ∀ expression ∈ initializer, expression.Formed P) : Formed P (.var name initializer)
  | loop {condition : Expr} {body : Stmt} (hcondition : condition.Formed P) (hbody : Formed P body)
      (hplain : body.defines = none) : Formed P (.loop condition body)

/-- What is no declaration itself has none as a branch or as the body of a loop, at any depth. -/
theorem Stmt.Formed.definesNothing {statement : Stmt} (h : statement.Formed P) (hplain : statement.defines = none) :
    statement.definesNothing = true := by
  induction h with
  | block | expression | print | «return» => rfl
  | classDecl | function | var => nomatch hplain
  | @conditional _ _ whenFalse _ _ hplainTrue _ hplainFalse ihTrue ihFalse =>
      cases whenFalse with
      | none => exact ihTrue hplainTrue
      | some branch => exact Bool.and_eq_true_iff.mpr ⟨ihTrue hplainTrue, ihFalse branch rfl (hplainFalse branch rfl)⟩
  | loop _ _ hplainBody ih => exact ih hplainBody

/-- A task is one with well formed trees. -/
def Task.Formed (P : Token → Prop) : Task → Prop
  | .eval expression => expression.Formed P
  | .exec statement => statement.Formed P

namespace Task.Formed

theorem of_mem_parts {task part : Task} (h : task.Formed P) (hpart : part ∈ task.parts) : part.Formed P := by
  cases task with
  | eval expression =>
      obtain ⟨operand, hoperand, rfl⟩ := List.mem_map.mp hpart
      exact Expr.Formed.of_mem_parts h hoperand
  | exec statement =>
      have heval {value : Option Expr} (hvalue : ∀ expression ∈ value, expression.Formed P)
          (hmem : part ∈ value.toList.map Task.eval) : part.Formed P := by
        obtain ⟨expression, hexpression, rfl⟩ := List.mem_map.mp hmem
        exact hvalue expression (Option.mem_toList.mp hexpression)
      cases h with
      | expression h | print h => exact List.mem_singleton.mp hpart ▸ h
      | conditional hcondition htrue _ hfalse =>
          rcases List.mem_cons.mp hpart with rfl | hbranch
          · exact hcondition
          rcases List.mem_cons.mp hbranch with rfl | hbranch
          · exact htrue
          · obtain ⟨branch, hmem, rfl⟩ := List.mem_map.mp hbranch
            exact hfalse branch (Option.mem_toList.mp hmem)
      | «return» _ _ hvalue => exact heval hvalue hpart
      | var _ hinitializer => exact heval hinitializer hpart
      | loop hcondition hbody =>
          rcases List.mem_pair.mp hpart with rfl | rfl
          · exact hcondition
          · exact hbody
      | block | classDecl | function => cases hpart

theorem of_mem_layers {statement inner : Stmt} {layer : Layer × List Stmt} (h : statement.Formed P)
    (hlayer : layer ∈ statement.layers) (hinner : inner ∈ layer.2) : inner.Formed P := by
  cases h with
  | block h | function _ h =>
      obtain rfl := List.mem_singleton.mp hlayer
      exact h inner hinner
  | classDecl _ _ hbodies =>
      obtain ⟨method, hmethod, rfl⟩ := List.mem_map.mp hlayer
      exact hbodies method hmethod inner hinner
  | expression | conditional | print | «return» | var | loop => cases hlayer

end Task.Formed

/-- In well formed programs, all there is somewhere is well formed. -/
theorem Occurs.formed {programs : Set Task} (hprograms : ∀ task ∈ programs, task.Formed P) {layers : List Layer}
    {task : Task} (h : Occurs programs layers task) : task.Formed P := by
  induction h with
  | whole h => exact hprograms _ h
  | part _ hpart ih => exact ih.of_mem_parts hpart
  | inside _ hlayer hstatement ih => exact Task.Formed.of_mem_layers ih hlayer hstatement

end Script
