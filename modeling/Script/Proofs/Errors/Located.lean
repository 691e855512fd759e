import Script.Proofs.Moments.Raising
import Script.Proofs.Receiver.This

/-!
# Where runtime errors are found

The operation that raises an error is somewhere in the sources of a session, with tokens that the parser has put
there. So the token of an error is one of a source, and of a kind that the error is about.
-/

namespace Script

/-- The kinds of token that an error can be found at. -/
def RuntimeError.kinds : RuntimeError → List Kind
  | .undefinedProperty _ | .notAnInstance _ _ => [.identifier]
  | .undefinedVariable _ => [.identifier, .thisWord]
  | .operand _ _ => [.minus, .plus, .slash, .star, .greater, .greaterEqual, .less, .lessEqual]
  | .notCallable _ | .arity _ _ _ | .stackOverflow _ => [.rightParen]
  | .output _ => []

/-- An error is one of output, or found at a token of some source, on one of its lines. No error says that an
operator is none. -/
structure RuntimeError.LocatedIn (sources : List String) (error : RuntimeError) : Prop where
  token : (∃ fault, error = .output fault) ∨ ∃ source ∈ sources, ∃ token ∈ (scan source).tokens,
    error.token? = some token ∧ token.kind ∈ error.kinds ∧
      1 ≤ error.line ∧ error.line ≤ 1 + source.toList.count '\n'
  notUnary : error.message ≠ "Expected a unary operator."
  notBinary : error.message ≠ "Expected a binary operator."

/-! ### Lines and kinds -/

/-- The closing mark of a source is on its last line, and no token is on a later one. -/
theorem line_of_mem_scan {source : String} {token : Token} (h : token ∈ (scan source).tokens) :
    1 ≤ token.line ∧ token.line ≤ 1 + source.toList.count '\n' := by
  rcases List.mem_append.mp h with hpiece | hclosing
  · obtain ⟨piece, hmem, htoken⟩ := List.mem_filterMap.mp hpiece
    obtain ⟨before, after, hpieces⟩ := List.append_of_mem hmem
    have hcut : Cut 1 source.toList (before ++ piece :: after) := hpieces ▸ cut_iff.mpr rfl
    have hline : token.line = piece.line := by
      unfold Piece.token? at htoken
      split at htoken <;> cases htoken
      rfl
    have hread : (before ++ piece :: after).flatMap Piece.text =
        (before ++ [piece]).flatMap Piece.text ++ after.flatMap Piece.text := by simp
    rw [hline, hcut.piece_at.2, ← hcut.flatMap_text, hread, List.count_append]
    omega
  · rw [List.mem_singleton.mp hclosing]
    exact ⟨Nat.le_add_right _ _, Nat.le_refl _⟩

/-- Signs do not fail for being none, and negation is the one that fails. -/
theorem Kind.unary_fault {kind : Kind} (hsign : kind = .bang ∨ kind = .minus) {x : Value} {fault : OperandFault}
    (h : kind.unary x = .error fault) : kind = .minus ∧ fault = .notNumber := by
  rcases hsign with rfl | rfl
  · cases h
  · refine ⟨rfl, ?_⟩
    cases x <;> cases h <;> rfl

theorem Value.numeric_fault {compute : Float → Float → Value} {x y : Value} {fault : OperandFault}
    (h : x.numeric compute y = .error fault) : fault = .notNumbers := by
  unfold numeric at h
  split at h <;> cases h
  rfl

theorem Value.add_fault {x y : Value} {fault : OperandFault} (h : x.add y = .error fault) :
    fault = .notAddable := by
  unfold add at h
  split at h <;> cases h
  rfl

/-- Operators do not fail for being none, and comparing for equality does not fail at all. -/
theorem Kind.binary_fault {kind : Kind} (hoperator : kind ∈ Kind.operators) {x y : Value} {fault : OperandFault}
    (h : kind.binary x y = .error fault) :
    kind ∈ [Kind.minus, .plus, .slash, .star, .greater, .greaterEqual, .less, .lessEqual] ∧
      (fault = .notNumbers ∨ fault = .notAddable) := by
  cases kind with
  | plus => exact ⟨by decide, .inr (Value.add_fault h)⟩
  | minus | slash | star | greater | greaterEqual | less | lessEqual =>
      exact ⟨by decide, .inl (Value.numeric_fault h)⟩
  | bangEqual | equalEqual => cases h
  | _ => exact absurd hoperator (by decide)

/-! ### Messages -/

theorem OperandFault.message_injective : Function.Injective message := by
  intro fault other h
  cases fault <;> cases other <;> first | rfl | exact absurd h (by decide +kernel)

/-- Only errors of operands say that something was expected that begins with a letter: a wrong number of
arguments comes closest, but has a digit there. -/
theorem RuntimeError.exists_fault_of_message {error : RuntimeError} (rest : String)
    (h : error.message = "Expected a" ++ rest) : ∃ operator fault, error = .operand operator fault := by
  have hchars : error.message.toList = "Expected a".toList ++ rest.toList := by
    rw [h, String.toList_append]
  have hfirst {word : String} {others : List Char} (hword : word.toList.head?.any (· != 'E') = true) :
      error.message.toList ≠ word.toList ++ others := by
    intro heq
    obtain ⟨c, hc, hne⟩ := (Option.any_eq_true _ _).mp hword
    have hheads := congrArg List.head? (heq.symm.trans hchars)
    have hexpected : "Expected a".toList.head? = some 'E' := by decide +kernel
    rw [List.head?_append, List.head?_append, hc, hexpected] at hheads
    rw [Option.some.inj hheads] at hne
    exact absurd hne (by decide)
  have hconstant {word : String} (hword : word.toList.head?.any (· != 'E') = true) : error.message ≠ word := by
    intro heq
    exact @hfirst word [] hword (by rw [heq, List.append_nil])
  cases error with
  | operand operator fault => exact ⟨operator, fault, rfl⟩
  | undefinedProperty name =>
      have hmessage : (undefinedProperty name).message = "Undefined property '" ++ name.lexeme ++ "'." := rfl
      rw [String.append_assoc] at hmessage
      exact absurd (hmessage ▸ String.toList_append) (hfirst (by decide +kernel))
  | undefinedVariable name =>
      have hmessage : (undefinedVariable name).message = "Undefined variable '" ++ name.lexeme ++ "'." := rfl
      rw [String.append_assoc] at hmessage
      exact absurd (hmessage ▸ String.toList_append) (hfirst (by decide +kernel))
  | output fault => exact absurd String.toList_append (hfirst (by decide +kernel))
  | notCallable paren =>
      have hmessage : (notCallable paren).message = "Can only call functions and classes." := rfl
      exact absurd hmessage (hconstant (by decide +kernel))
  | stackOverflow paren =>
      have hmessage : (stackOverflow paren).message = "Stack overflow." := rfl
      exact absurd hmessage (hconstant (by decide +kernel))
  | notAnInstance name access =>
      have hmessage : (notAnInstance name access).message = access.message := rfl
      exact absurd hmessage (hconstant (by cases access <;> decide +kernel))
  | arity paren expected found =>
      have hmessage : (arity paren expected found).message =
          "Expected " ++ (toString expected ++ (" arguments but got " ++ toString found ++ ".")) := by
        simp only [← String.append_assoc]
        rfl
      obtain ⟨digit, others, hdigits⟩ := List.exists_cons_of_ne_nil (Nat.toDigits_ne_nil (n := expected) (b := 10))
      have hdigit : digit.isDigit = true :=
        Nat.isDigit_of_mem_toDigits (b := 10) (Nat.succ_pos 9) (Nat.le_refl 10) (hdigits ▸ List.mem_cons_self)
      have hprefix : "Expected a".toList = "Expected ".toList ++ ['a'] := by decide +kernel
      rw [hmessage, String.toList_append, String.toList_append, Nat.toString_eq_repr, Nat.toList_repr, hdigits,
        hprefix, List.append_assoc] at hchars
      rw [(List.cons.inj (List.append_cancel_left hchars)).1] at hdigit
      exact absurd hdigit (by decide)

/-! ### Errors of a session -/

/-- Tokens of some sources, each used for what its kind fits. -/
def Matching.fromSources (sources : List String) : Matching :=
  fun use token _ => use.Fits token.kind ∧ ∃ source ∈ sources, token ∈ (scan source).tokens

/-- What is in progress is somewhere in the programs that the requests ask for. -/
theorem InProgress.exists_occurs {requests : List Request} {results : List Value} {moment : Moment}
    {around : List Moment} (h : InProgress requests results (moment :: around)) :
    ∃ layers, Occurs (Request.programs requests) layers moment.task := by
  obtain ⟨_, -, -, hfits, -⟩ := (admits_receiverDiscipline requests).inProgress h
  obtain ⟨layers, -, hoccurs, -⟩ := (hfits _ List.mem_cons_self).task.place
  exact ⟨layers, hoccurs⟩

/-- All that is in progress has its tokens from the sources. -/
theorem InProgress.fromSources {requests : List Request} {results : List Value} {moment : Moment}
    {around : List Moment} (h : InProgress requests results (moment :: around)) :
    Task.Like (.fromSources (requests.map Request.source)) moment.task moment.task := by
  obtain ⟨layers, hoccurs⟩ := h.exists_occurs
  refine hoccurs.like ?_
  rintro task ⟨request, hrequest, htask⟩
  exact request.tasks_like (fun token hmem => ⟨rfl, fun _ => rfl, fun use hfits =>
    ⟨hfits, request.source, List.mem_map_of_mem hrequest, hmem⟩⟩) task htask

/-- The token of an error puts it in the sources, if it is of the right kind and the fault is not that an
operator is none. -/
theorem RuntimeError.locatedIn_of_token {sources : List String} {error : RuntimeError} {use : Use} {token : Token}
    (htoken : Matching.fromSources sources use token token) (hself : error.token? = some token)
    (hkind : token.kind ∈ error.kinds)
    (hfault : ∀ operator fault, error = .operand operator fault → fault ≠ .notUnary ∧ fault ≠ .notBinary) :
    error.LocatedIn sources := by
  obtain ⟨-, source, hsource, hmem⟩ := htoken
  have hline : error.line = token.line := by
    rw [line, hself]
    rfl
  refine ⟨.inr ⟨source, hsource, token, hmem, hself, hkind, ?_⟩, fun hmessage => ?_, fun hmessage => ?_⟩
  · rw [hline]
    exact line_of_mem_scan hmem
  · obtain ⟨operator, fault, rfl⟩ := exists_fault_of_message " unary operator." hmessage
    exact (hfault operator fault rfl).1 (OperandFault.message_injective hmessage)
  · obtain ⟨operator, fault, rfl⟩ := exists_fault_of_message " binary operator." hmessage
    exact (hfault operator fault rfl).2 (OperandFault.message_injective hmessage)

theorem RuntimeError.locatedIn_of_output (sources : List String) (fault : OutputFault) :
    (RuntimeError.output fault).LocatedIn sources := by
  have hmessage (rest : String) : (RuntimeError.output fault).message ≠ "Expected a" ++ rest := by
    intro h
    obtain ⟨_, _, heq⟩ := exists_fault_of_message rest h
    cases heq
  exact ⟨.inl ⟨fault, rfl⟩, hmessage " unary operator.", hmessage " binary operator."⟩

/-- An error is where the operation is that raises it. -/
theorem Task.Raises.locatedIn {sources : List String} {task : Task} {error : RuntimeError}
    (h : task.Raises error) (hlike : Task.Like (.fromSources sources) task task) : error.LocatedIn sources := by
  have hat {use : Use} {token : Token} (htoken : Matching.fromSources sources use token token)
      (hself : error.token? = some token) (hkind : use.Fits token.kind → token.kind ∈ error.kinds)
      (hoperand : ∀ operator fault, error ≠ .operand operator fault) : error.LocatedIn sources :=
    RuntimeError.locatedIn_of_token htoken hself (hkind htoken.1) fun operator fault heq =>
      absurd heq (hoperand operator fault)
  have hidentifier {name : Token} (hkind : Use.Fits .name name.kind) : name.kind ∈ [Kind.identifier] :=
    List.mem_singleton.mpr hkind
  have hparen {paren : Token} (hkind : Use.Fits .paren paren.kind) : paren.kind ∈ [Kind.rightParen] :=
    List.mem_singleton.mpr hkind
  cases hlike with
  | exec =>
      cases h with
      | output e fault => exact RuntimeError.locatedIn_of_output sources fault
  | eval hlike =>
      cases hlike with
      | «variable» hname =>
          cases h with
          | «variable» =>
              exact hat hname rfl (fun hkind => List.mem_cons.mpr (.inl hkind)) (fun _ _ => RuntimeError.noConfusion)
      | this hkeyword =>
          cases h with
          | this =>
              exact hat hkeyword rfl (fun hkind => List.mem_cons_of_mem _ (List.mem_singleton.mpr hkind))
                (fun _ _ => RuntimeError.noConfusion)
      | assign hname =>
          cases h with
          | assign =>
              exact hat hname rfl (fun hkind => List.mem_cons.mpr (.inl hkind)) (fun _ _ => RuntimeError.noConfusion)
      | get _ hname => cases h <;> exact hat hname rfl hidentifier (fun _ _ => RuntimeError.noConfusion)
      | set _ hname =>
          cases h
          exact hat hname rfl hidentifier (fun _ _ => RuntimeError.noConfusion)
      | call _ htoken => cases h <;> exact hat htoken rfl hparen (fun _ _ => RuntimeError.noConfusion)
      | binary _ hoperator =>
          cases h with
          | binary hfault =>
              obtain ⟨hkind, hfault⟩ := Kind.binary_fault hoperator.1 hfault
              refine RuntimeError.locatedIn_of_token hoperator rfl hkind fun operator fault heq => ?_
              cases heq
              rcases hfault with rfl | rfl <;> decide
      | unary hoperator =>
          cases h with
          | unary hfault =>
              obtain ⟨hkind, rfl⟩ := Kind.unary_fault hoperator.1 hfault
              refine RuntimeError.locatedIn_of_token hoperator rfl (hkind ▸ List.mem_cons_self)
                fun operator fault heq => ?_
              cases heq
              decide
      | grouping | literal | logical => cases h

/-! ### Errors of a session -/

section Sessions

variable {requests : List Request} {results : List Value}

variable {machine after : Machine} {level : Nat} {source : String} {error : RuntimeError}
  (h : Session requests results machine)

include h

theorem Session.locatedIn_of_run (hrun : machine.run level source = .failed (.runtime error) after) :
    error.LocatedIn (source :: requests.map Request.source) := by
  rcases h.exists_failsItself_of_run hrun with ⟨fault, rfl⟩ | ⟨moment, around, hprogress, hfails⟩
  · exact RuntimeError.locatedIn_of_output _ fault
  · exact hfails.raises.locatedIn hprogress.fromSources

theorem Session.locatedIn_of_evaluate
    (hevaluate : machine.evaluate level source = .failed (.runtime error) after) :
    error.LocatedIn (source :: requests.map Request.source) := by
  obtain ⟨moment, around, hprogress, hfails⟩ := h.exists_failsItself_of_evaluate hevaluate
  exact hfails.raises.locatedIn hprogress.fromSources

end Sessions

/-- Whatever a session has served before, an error that ends the next request is one of output, or found at a
token that some source of the session has, and of a kind that fits the error. -/
theorem errors_areLocated (requests : List Request) (results : List Value) (machine : Machine)
    (h : Session requests results machine) (level : Nat) (source : String) (error : RuntimeError)
    (after : Machine) :
    (machine.run level source = .failed (.runtime error) after →
      error.LocatedIn (source :: requests.map Request.source)) ∧
    (machine.evaluate level source = .failed (.runtime error) after →
      error.LocatedIn (source :: requests.map Request.source)) :=
  ⟨h.locatedIn_of_run, h.locatedIn_of_evaluate⟩

/-- A function of an earlier source fails at its minus when a later one calls it. -/
theorem errors_areLocated_in_function :
    let declaration := "func f() \x7b return\n-nil; \x7d"
    let call := "f()"
    ∃ machine error after, Session [.run declaration] [] machine ∧
      machine.evaluate 20 call = .failed (.runtime error) after ∧
      error.kinds.length = 8 ∧ error.line = 2 ∧ error.LocatedIn [call, declaration] := by
  intro declaration call
  have hrun : (((Machine.run 20 declaration (.start {} 0)).machine?.bind fun machine =>
      (machine.evaluate 20 call).error?).any fun error =>
        match error with
        | .runtime error => error.kinds.length == 8 && error.line == 2
        | .unreadable _ => false) = true := by
    decide +kernel
  obtain ⟨failure, hfailure, hchecks⟩ := (Option.any_eq_true _ _).mp hrun
  obtain ⟨machine, hmachine, herror⟩ := Option.bind_eq_some_iff.mp hfailure
  obtain ⟨_, hdone⟩ := Outcome.exists_of_machine? hmachine
  obtain ⟨after, hfailed⟩ := Outcome.exists_of_error? herror
  have hends : (Machine.run 20 declaration (.start {} 0)).Ends (some ()) machine := hdone ▸ .done () machine
  have hsession : Session [.run declaration] [] machine := .run (.start {} 0) 20 declaration hends
  cases failure with
  | unreadable => cases hchecks
  | runtime error =>
      simp only [Bool.and_eq_true, beq_iff_eq] at hchecks
      exact ⟨machine, error, after, hsession, hfailed, hchecks.1, hchecks.2,
        (errors_areLocated _ [] machine hsession 20 call error after).2 hfailed⟩

end Script
