import Script.Proofs.Grammar

/-!
# The tolerant grammar

What a row of tokens stands for if a list of parameters or arguments may have any length, and if anything may stand
left of `=`. Either slip is reported, and nothing is lost by it but the value of an assignment without a target. A
derivation relates the tokens of a phrase to its tree and its slips, in the order in which they are reported: that of
an entry beyond the greatest length before those within it, that of an assignment after those of its value.

A phrase of the grammar is a tolerant one without slips.
-/

namespace Script.Grammar

variable {α : Type} {which : Entries}

/-- An error that reading goes on after, at a token. -/
structure Slip where
  token : Token
  error : SyntaxError

/-- That an entry is one too many, at its first token. -/
def Slip.tooMany? (which : Entries) (read : List Token) : Option Slip :=
  read.head?.map (⟨·, .tooMany which⟩)

/-- A part of a list: its tokens, what they stand for, and the slips in them. -/
structure Entry (α : Type) where
  read : List Token
  value : α
  slips : List Slip

namespace Entry

/-- Tokens without slips. -/
def plain (piece : List Token × α) : Entry α :=
  ⟨piece.1, piece.2, []⟩

def word {kind : Kind} (word : Word kind) : Entry Token :=
  plain ([word.1], word.1)

end Entry

/-- The slips of entries of a list, of which there are so many before them. -/
def slipsFrom (which : Entries) : Nat → List (Entry α) → List Slip
  | _, [] => []
  | place, entry :: entries =>
    (if Entries.most ≤ place then (Slip.tooMany? which entry.read).toList else []) ++
      (entry.slips ++ slipsFrom which (place + 1) entries)

/-- Entries without slips of their own are reported from the greatest length on. -/
theorem slipsFrom_of_clean {entries : List (Entry α)} (hclean : ∀ entry ∈ entries, entry.slips = []) (place : Nat) :
    slipsFrom which place entries =
      ((entries.drop (Entries.most - place)).map Entry.read).filterMap (Slip.tooMany? which) := by
  induction entries generalizing place with
  | nil => simp [slipsFrom]
  | cons entry entries ih =>
      rw [List.forall_mem_cons] at hclean
      rw [slipsFrom, hclean.1, ih hclean.2, List.nil_append]
      by_cases hplace : Entries.most ≤ place
      · rw [if_pos hplace, Nat.sub_eq_zero_of_le hplace, Nat.sub_eq_zero_of_le (Nat.le_succ_of_le hplace)]
        cases htooMany : Slip.tooMany? which entry.read <;> simp [htooMany]
      · have hdrop : Entries.most - place = Entries.most - (place + 1) + 1 := by omega
        rw [if_neg hplace, hdrop, List.drop_succ_cons, List.nil_append]

/-- They are as many as there are entries beyond that length, each at the first token of its entry. -/
theorem slipsFrom_map {β : Type} {entry : β → Entry α} {first : β → Token}
    (hclean : ∀ piece, (entry piece).slips = []) (hfirst : ∀ piece, (entry piece).read.head? = some (first piece))
    (pieces : List β) : slipsFrom which 0 (pieces.map entry) =
      (pieces.drop Entries.most).map fun piece => ⟨first piece, .tooMany which⟩ := by
  have htooMany : (Slip.tooMany? which ∘ Entry.read) ∘ entry =
      fun piece => some ⟨first piece, .tooMany which⟩ := by
    funext piece
    simp [Slip.tooMany?, hfirst]
  rw [slipsFrom_of_clean (List.forall_mem_map.mpr fun piece _ => hclean piece), Nat.sub_zero, ← List.map_drop,
    List.filterMap_map, List.filterMap_map, htooMany, List.filterMap_eq_map']

theorem slipsFrom_plain {pieces : List (List Token × α)} (hmost : pieces.length ≤ Entries.most) :
    slipsFrom which 0 (pieces.map Entry.plain) = [] := by
  have hclean : ∀ entry ∈ pieces.map Entry.plain, entry.slips = [] :=
    List.forall_mem_map.mpr fun _ _ => rfl
  rw [slipsFrom_of_clean hclean, List.drop_of_length_le (by simpa using hmost), List.map_nil, List.filterMap_nil]

/-- What can stand left of `=`. -/
def isTarget : Expr → Bool
  | .variable _ | .get _ _ => true
  | _ => false

namespace Tolerant

/-! ### Expressions -/

/-- `Expression symbol read tree slips`: the tokens `read` are a phrase of the symbol with that tree and those slips. -/
inductive Expression : ExprSymbol → List Token → Expr → List Slip → Prop where
  | assign (name : Word .identifier) (equals : Word .equal) {read : List Token} {value : Expr} {slips : List Slip}
      (hvalue : Expression .expression read value slips) :
      Expression .expression (name.1 :: equals.1 :: read) (.assign name value) slips
  | set {before : List Token} {object : Expr} {first : List Slip} (hobject : Expression .call before object first)
      (dot : Word .dot) (name : Word .identifier) (equals : Word .equal) {read : List Token} {value : Expr}
      {second : List Slip} (hvalue : Expression .expression read value second) :
      Expression .expression (before ++ dot.1 :: name.1 :: equals.1 :: read) (.set object name value)
        (first ++ second)
  | misplaced {before : List Token} {target : Expr} {first : List Slip}
      (htarget : Expression .logicOr before target first) (hkind : isTarget target = false) (equals : Word .equal)
      {read : List Token} {value : Expr} {second : List Slip} (hvalue : Expression .expression read value second) :
      Expression .expression (before ++ equals.1 :: read) target
        (first ++ (second ++ [⟨equals.1, .assignmentTarget⟩]))
  | value {read : List Token} {tree : Expr} {slips : List Slip} (hvalue : Expression .logicOr read tree slips) :
      Expression .expression read tree slips
  | operand {symbol : ExprSymbol} {chain : Chain} (hchain : symbol.chain? = some chain) {read : List Token}
      {tree : Expr} {slips : List Slip} (hoperand : Expression chain.operand read tree slips) :
      Expression symbol read tree slips
  | operation {symbol : ExprSymbol} {chain : Chain} (hchain : symbol.chain? = some chain) {before : List Token}
      {left : Expr} {first : List Slip} (hleft : Expression symbol before left first) (operator : Token)
      (hoperator : operator.kind ∈ chain.operators) {read : List Token} {right tree : Expr} {second : List Slip}
      (hright : Expression chain.operand read right second) (htree : tree = chain.node left operator right) :
      Expression symbol (before ++ operator :: read) tree (first ++ second)
  | sign (operator : Token) (hoperator : operator.kind = .bang ∨ operator.kind = .minus) {read : List Token}
      {tree : Expr} {slips : List Slip} (hoperand : Expression .unary read tree slips) :
      Expression .unary (operator :: read) (.unary operator tree) slips
  | unsigned {read : List Token} {tree : Expr} {slips : List Slip} (hcall : Expression .call read tree slips) :
      Expression .unary read tree slips
  | bare {read : List Token} {tree : Expr} {slips : List Slip} (hprimary : Expression .primary read tree slips) :
      Expression .call read tree slips
  | call {before : List Token} {callee : Expr} {slips : List Slip} (hcallee : Expression .call before callee slips)
      (opening : Word .leftParen) (arguments : List (Entry Expr))
      (harguments : ∀ argument ∈ arguments, Expression .expression argument.read argument.value argument.slips)
      {read : List Token} (hread : Separated (arguments.map Entry.read) read) (closing : Word .rightParen) :
      Expression .call (before ++ opening.1 :: (read ++ [closing.1]))
        (.call callee closing (arguments.map Entry.value)) (slips ++ slipsFrom .arguments 0 arguments)
  | get {before : List Token} {object : Expr} {slips : List Slip} (hobject : Expression .call before object slips)
      (dot : Word .dot) (name : Word .identifier) :
      Expression .call (before ++ [dot.1, name.1]) (.get object name) slips
  | grouping (opening : Word .leftParen) {read : List Token} {inner : Expr} {slips : List Slip}
      (hinner : Expression .expression read inner slips) (closing : Word .rightParen) :
      Expression .primary (opening.1 :: (read ++ [closing.1])) (.grouping inner) slips
  | atom {token : Token} {tree : Expr} (hatom : Grammar.Expression .primary [token] tree) :
      Expression .primary [token] tree []

inductive Optional : List Token → Option Expr → List Slip → Prop where
  | none : Optional [] none []
  | some {read : List Token} {tree : Expr} {slips : List Slip} (htree : Expression .expression read tree slips) :
      Optional read (some tree) slips

/-! ### Statements -/

/-- `expression ";"` -/
inductive ExpressionStatement : List Token → Stmt → List Slip → Prop where
  | mk {read : List Token} {tree : Expr} {slips : List Slip} (htree : Expression .expression read tree slips)
      (stop : Word .semicolon) : ExpressionStatement (read ++ [stop.1]) (.expression tree) slips

/-- `VAR IDENTIFIER ("=" expression)? ";"` -/
inductive VarDeclaration : List Token → Stmt → List Slip → Prop where
  | plain (keyword : Word .varWord) (name : Word .identifier) (stop : Word .semicolon) :
      VarDeclaration [keyword.1, name.1, stop.1] (.var name none) []
  | initialized (keyword : Word .varWord) (name : Word .identifier) (equals : Word .equal) {read : List Token}
      {value : Expr} {slips : List Slip} (hvalue : Expression .expression read value slips)
      (stop : Word .semicolon) :
      VarDeclaration (keyword.1 :: name.1 :: equals.1 :: (read ++ [stop.1])) (.var name (some value)) slips

/-- Each `else` belongs to the nearest `if`. -/
inductive Statement : StmtSymbol → List Token → Stmt → List Slip → Prop where
  | classDecl (keyword : Word .classWord) (name : Word .identifier) (opening : Word .leftBrace)
      (methods : List (Entry Declaration))
      (hmethods : ∀ method ∈ methods, Statement .function method.read (.function method.value) method.slips)
      (closing : Word .rightBrace) :
      Statement .declaration
        (keyword.1 :: name.1 :: opening.1 :: (methods.flatMap Entry.read ++ [closing.1]))
        (.classDecl name (methods.map Entry.value)) (methods.flatMap Entry.slips)
  | functionDecl (keyword : Word .funcWord) {read : List Token} {function : Stmt} {slips : List Slip}
      (hfunction : Statement .function read function slips) :
      Statement .declaration (keyword.1 :: read) function slips
  | varDecl {read : List Token} {tree : Stmt} {slips : List Slip} (hvar : VarDeclaration read tree slips) :
      Statement .declaration read tree slips
  | statement {read : List Token} {tree : Stmt} {slips : List Slip}
      (hstatement : Statement (.statement true) read tree slips) : Statement .declaration read tree slips
  | function (name : Word .identifier) (opening : Word .leftParen) (params : List (Word .identifier))
      {read : List Token} (hread : Separated (params.map fun param => [param.1]) read)
      (closing : Word .rightParen) {block : List Token} {body : List Stmt} {slips : List Slip}
      (hblock : Statement .block block (.block body) slips) :
      Statement .function (name.1 :: opening.1 :: (read ++ closing.1 :: block))
        (.function { name := name.1, params := params.map Subtype.val, body })
        (slipsFrom .parameters 0 (params.map Entry.word) ++ slips)
  | block (opening : Word .leftBrace) (items : List (Entry Stmt))
      (hitems : ∀ item ∈ items, Statement .declaration item.read item.value item.slips)
      (closing : Word .rightBrace) :
      Statement .block (opening.1 :: (items.flatMap Entry.read ++ [closing.1])) (.block (items.map Entry.value))
        (items.flatMap Entry.slips)
  | nested {mayDangle : Bool} {read : List Token} {tree : Stmt} {slips : List Slip}
      (hblock : Statement .block read tree slips) : Statement (.statement mayDangle) read tree slips
  | ifOnly (keyword : Word .ifWord) (opening : Word .leftParen) {test : List Token} {condition : Expr}
      {first : List Slip} (hcondition : Expression .expression test condition first) (closing : Word .rightParen)
      {read : List Token} {whenTrue : Stmt} {second : List Slip}
      (htrue : Statement (.statement true) read whenTrue second) :
      Statement (.statement true) (keyword.1 :: opening.1 :: (test ++ closing.1 :: read))
        (.conditional condition whenTrue none) (first ++ second)
  | ifElse {mayDangle : Bool} (keyword : Word .ifWord) (opening : Word .leftParen) {test : List Token}
      {condition : Expr} {first : List Slip} (hcondition : Expression .expression test condition first)
      (closing : Word .rightParen) {before : List Token} {whenTrue : Stmt} {second : List Slip}
      (htrue : Statement (.statement false) before whenTrue second) (otherwise : Word .elseWord)
      {read : List Token} {whenFalse : Stmt} {third : List Slip}
      (hfalse : Statement (.statement mayDangle) read whenFalse third) :
      Statement (.statement mayDangle)
        (keyword.1 :: opening.1 :: (test ++ closing.1 :: (before ++ otherwise.1 :: read)))
        (.conditional condition whenTrue (some whenFalse)) (first ++ (second ++ third))
  | whileLoop {mayDangle : Bool} (keyword : Word .whileWord) (opening : Word .leftParen) {test : List Token}
      {condition : Expr} {first : List Slip} (hcondition : Expression .expression test condition first)
      (closing : Word .rightParen) {read : List Token} {body : Stmt} {second : List Slip}
      (hbody : Statement (.statement mayDangle) read body second) :
      Statement (.statement mayDangle) (keyword.1 :: opening.1 :: (test ++ closing.1 :: read))
        (.loop condition body) (first ++ second)
  | forOnly {mayDangle : Bool} (keyword : Word .forWord) (opening : Word .leftParen) (stop : Word .semicolon)
      {read : List Token} {loop : Stmt} {slips : List Slip} (hloop : Statement (.forTail mayDangle) read loop slips) :
      Statement (.statement mayDangle) (keyword.1 :: opening.1 :: stop.1 :: read) loop slips
  | forFrom {mayDangle : Bool} (keyword : Word .forWord) (opening : Word .leftParen) {before : List Token}
      {initializer : Stmt} {first : List Slip}
      (hfirst : VarDeclaration before initializer first ∨ ExpressionStatement before initializer first)
      {read : List Token} {loop : Stmt} {second : List Slip} (hloop : Statement (.forTail mayDangle) read loop second) :
      Statement (.statement mayDangle) (keyword.1 :: opening.1 :: (before ++ read)) (.block [initializer, loop])
        (first ++ second)
  | forTail {mayDangle : Bool} {test : List Token} {condition : Option Expr} {first : List Slip}
      (hcondition : Optional test condition first) (stop : Word .semicolon) (closing : Word .rightParen)
      {read : List Token} {body : Stmt} {second : List Slip}
      (hbody : Statement (.statement mayDangle) read body second) :
      Statement (.forTail mayDangle) (test ++ stop.1 :: closing.1 :: read)
        (.loop (condition.getD (.literal (.bool true))) body) (first ++ second)
  | forTailStep {mayDangle : Bool} {test : List Token} {condition : Option Expr} {first : List Slip}
      (hcondition : Optional test condition first) (stop : Word .semicolon) {step : List Token} {increment : Expr}
      {second : List Slip} (hincrement : Expression .expression step increment second)
      (closing : Word .rightParen) {read : List Token} {body : Stmt} {third : List Slip}
      (hbody : Statement (.statement mayDangle) read body third) :
      Statement (.forTail mayDangle) (test ++ stop.1 :: (step ++ closing.1 :: read))
        (.loop (condition.getD (.literal (.bool true))) (.block [body, .expression increment]))
        (first ++ (second ++ third))
  | print {mayDangle : Bool} (keyword : Word .printWord) {read : List Token} {tree : Expr} {slips : List Slip}
      (htree : Expression .expression read tree slips) (stop : Word .semicolon) :
      Statement (.statement mayDangle) (keyword.1 :: (read ++ [stop.1])) (.print tree) slips
  | return {mayDangle : Bool} (keyword : Word .returnWord) {read : List Token} {value : Option Expr}
      {slips : List Slip} (hvalue : Optional read value slips) (stop : Word .semicolon) :
      Statement (.statement mayDangle) (keyword.1 :: (read ++ [stop.1])) (.return keyword value) slips
  | expression {mayDangle : Bool} {read : List Token} {tree : Stmt} {slips : List Slip}
      (htree : ExpressionStatement read tree slips) : Statement (.statement mayDangle) read tree slips

/-- The tokens of a program, up to the end of the list. -/
def Program (read : List Token) (tree : List Stmt) (slips : List Slip) : Prop :=
  ∃ items : List (Entry Stmt), (∀ item ∈ items, Statement .declaration item.read item.value item.slips) ∧
    read = items.flatMap Entry.read ∧ tree = items.map Entry.value ∧ slips = items.flatMap Entry.slips

end Tolerant

/-! ### Phrases without slips -/

section Plain

variable (pieces : List (List Token × α))

theorem map_read_plain : (pieces.map Entry.plain).map Entry.read = pieces.map Prod.fst :=
  List.map_map

theorem map_value_plain : (pieces.map Entry.plain).map Entry.value = pieces.map Prod.snd :=
  List.map_map

theorem flatMap_read_plain : (pieces.map Entry.plain).flatMap Entry.read = pieces.flatMap Prod.fst :=
  List.flatMap_map ..

theorem flatMap_slips_plain : (pieces.map Entry.plain).flatMap Entry.slips = [] :=
  List.flatMap_eq_nil_iff.mpr (List.forall_mem_map.mpr fun _ _ => rfl)

end Plain

theorem Expression.tolerant {symbol : ExprSymbol} {read : List Token} {tree : Expr} (h : Expression symbol read tree) :
    Tolerant.Expression symbol read tree [] := by
  induction h with
  | assign name equals _ ih => exact .assign name equals ih
  | set _ dot name equals _ ihobject ihvalue => exact .set ihobject dot name equals ihvalue
  | value _ ih => exact .value ih
  | operand hchain _ ih => exact .operand hchain ih
  | operation hchain _ operator hoperator _ htree ihleft ihright =>
      exact .operation hchain ihleft operator hoperator ihright htree
  | sign operator hoperator _ ih => exact .sign operator hoperator ih
  | unsigned _ ih => exact .unsigned ih
  | bare _ ih => exact .bare ih
  | call _ opening arguments _ hmost hread closing ihcallee iharguments =>
      have harguments : ∀ argument ∈ arguments.map Entry.plain,
          Tolerant.Expression .expression argument.read argument.value argument.slips :=
        List.forall_mem_map.mpr iharguments
      rw [← map_read_plain] at hread
      have hcall := Tolerant.Expression.call ihcallee opening _ harguments hread closing
      rwa [map_value_plain, slipsFrom_plain hmost] at hcall
  | get _ dot name ih => exact .get ih dot name
  | falseLiteral word => exact .atom (.falseLiteral word)
  | trueLiteral word => exact .atom (.trueLiteral word)
  | nilLiteral word => exact .atom (.nilLiteral word)
  | number word => exact .atom (.number word)
  | string word => exact .atom (.string word)
  | name word => exact .atom (.name word)
  | this word => exact .atom (.this word)
  | grouping opening _ closing ih => exact .grouping opening ih closing

theorem Optional.tolerant {read : List Token} {value : Option Expr} (h : Optional read value) :
    Tolerant.Optional read value [] := by
  cases h with
  | none => exact .none
  | some htree => exact .some htree.tolerant

theorem ExpressionStatement.tolerant {read : List Token} {tree : Stmt} (h : ExpressionStatement read tree) :
    Tolerant.ExpressionStatement read tree [] := by
  cases h with
  | mk htree stop => exact .mk htree.tolerant stop

theorem VarDeclaration.tolerant {read : List Token} {tree : Stmt} (h : VarDeclaration read tree) :
    Tolerant.VarDeclaration read tree [] := by
  cases h with
  | plain keyword name stop => exact .plain keyword name stop
  | initialized keyword name equals hvalue stop => exact .initialized keyword name equals hvalue.tolerant stop

theorem Statement.tolerant {symbol : StmtSymbol} {read : List Token} {tree : Stmt}
    (h : Statement .nearest symbol read tree) : Tolerant.Statement symbol read tree [] := by
  induction h with
  | classDecl keyword name opening methods _ closing ih =>
      have hmethods : ∀ method ∈ methods.map Entry.plain,
          Tolerant.Statement .function method.read (.function method.value) method.slips :=
        List.forall_mem_map.mpr ih
      rw [← flatMap_read_plain, ← map_value_plain, ← flatMap_slips_plain methods]
      exact .classDecl keyword name opening _ hmethods closing
  | functionDecl keyword _ ih => exact .functionDecl keyword ih
  | varDecl hvar => exact .varDecl hvar.tolerant
  | statement _ ih => exact .statement ih
  | function name opening params hmost hread closing _ ih =>
      have hslips : slipsFrom .parameters 0 (params.map Entry.word) = [] := by
        have hwords : params.map Entry.word = (params.map fun param => ([param.1], param.1)).map Entry.plain :=
          (List.map_map ..).symm
        rw [hwords, slipsFrom_plain (by simpa using hmost)]
      have hfunction := Tolerant.Statement.function name opening params hread closing ih
      rwa [hslips] at hfunction
  | block opening items _ closing ih =>
      have hitems : ∀ item ∈ items.map Entry.plain,
          Tolerant.Statement .declaration item.read item.value item.slips :=
        List.forall_mem_map.mpr ih
      rw [← flatMap_read_plain, ← map_value_plain, ← flatMap_slips_plain items]
      exact .block opening _ hitems closing
  | nested _ ih => exact .nested ih
  | ifOnly keyword opening hcondition closing _ ih => exact .ifOnly keyword opening hcondition.tolerant closing ih
  | ifElse keyword opening hcondition closing _ otherwise _ ihtrue ihfalse =>
      exact .ifElse keyword opening hcondition.tolerant closing ihtrue otherwise ihfalse
  | whileLoop keyword opening hcondition closing _ ih =>
      exact .whileLoop keyword opening hcondition.tolerant closing ih
  | forOnly keyword opening stop _ ih => exact .forOnly keyword opening stop ih
  | forFrom keyword opening hfirst _ ih =>
      exact .forFrom keyword opening (hfirst.imp VarDeclaration.tolerant ExpressionStatement.tolerant) ih
  | forTail hcondition stop closing _ ih => exact .forTail hcondition.tolerant stop closing ih
  | forTailStep hcondition stop hincrement closing _ ih =>
      exact .forTailStep hcondition.tolerant stop hincrement.tolerant closing ih
  | print keyword htree stop => exact .print keyword htree.tolerant stop
  | «return» keyword hvalue stop => exact .return keyword hvalue.tolerant stop
  | expression htree => exact .expression htree.tolerant

end Script.Grammar
