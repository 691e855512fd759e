import Script.Diagnostic
import Script.SyntaxError

/-!
Reading from a list of tokens. A parser gives a value with the tokens it leaves unread, or fails at
some point of the list; either way it reports the errors it met, in order. `Parser.iterate` is the one
loop.

A token list ends where it runs out of tokens, or at an end mark, which is never read: `next?` is all
that a parser sees of the list.
-/

namespace Script

variable {α β σ : Type}

/-- An error, met where the tokens `unread` were still to come. -/
structure Report where
  unread : List Token
  error : SyntaxError
deriving DecidableEq, Repr

/-- The outcome of reading. A failure stands where its cause was met, after the earlier reports. A
parser that is not given enough levels of nesting, or turns of a loop, is exhausted. -/
inductive Parse (α : Type) where
  | done (value : α) (unread : List Token) (reports : List Report)
  | failed (unread : List Token) (reports : List Report) (cause : Expected)
  | exhausted
deriving DecidableEq, Repr

/-- The outcome with some earlier reports. -/
def Parse.after (earlier : List Report) : Parse α → Parse α
  | .done value unread reports => .done value unread (earlier ++ reports)
  | .failed unread reports cause => .failed unread (earlier ++ reports) cause
  | .exhausted => .exhausted

theorem Parse.after_done (earlier : List Report) (value : α) (unread : List Token)
    (reports : List Report) :
    (Parse.done value unread reports).after earlier = .done value unread (earlier ++ reports) :=
  rfl

theorem Parse.after_failed (earlier : List Report) (unread : List Token) (reports : List Report)
    (cause : Expected) :
    (Parse.failed unread reports cause : Parse α).after earlier =
      .failed unread (earlier ++ reports) cause :=
  rfl

theorem Parse.after_exhausted (earlier : List Report) :
    (Parse.exhausted : Parse α).after earlier = .exhausted :=
  rfl

@[simp]
theorem Parse.after_nil (outcome : Parse α) : outcome.after [] = outcome := by
  cases outcome <;> rfl

@[simp]
theorem Parse.after_after (first second : List Report) (outcome : Parse α) :
    (outcome.after second).after first = outcome.after (first ++ second) := by
  cases outcome <;> simp [after]

def Parser (α : Type) : Type :=
  List Token → Parse α

namespace Parser

@[always_inline, inline]
protected def pure (value : α) : Parser α :=
  fun tokens => .done value tokens []

@[always_inline, inline]
protected def bind (parser : Parser α) (next : α → Parser β) : Parser β :=
  fun tokens =>
    match parser tokens with
    | .done value unread [] => next value unread
    | .done value unread reports => (next value unread).after reports
    | .failed unread reports cause => .failed unread reports cause
    | .exhausted => .exhausted

instance : Monad Parser where
  pure := Parser.pure
  bind := Parser.bind

theorem bind_apply (parser : Parser α) (next : α → Parser β) (tokens : List Token) :
    (parser >>= next) tokens =
      match parser tokens with
      | .done value unread reports => (next value unread).after reports
      | .failed unread reports cause => .failed unread reports cause
      | .exhausted => .exhausted := by
  change Parser.bind parser next tokens = _
  unfold Parser.bind
  cases parser tokens with
  | done value unread reports => cases reports <;> simp
  | failed | exhausted => rfl

theorem pure_apply (value : α) (tokens : List Token) :
    (pure value : Parser α) tokens = .done value tokens [] :=
  rfl

instance : LawfulMonad Parser :=
  .mk' Parser
    (fun parser => by
      funext tokens
      change (parser >>= pure) tokens = _
      rw [bind_apply]
      cases parser tokens <;> simp [pure_apply, Parse.after])
    (fun value next => by
      funext tokens
      simp [bind_apply, pure_apply])
    (fun parser next last => by
      funext tokens
      simp only [bind_apply]
      cases parser tokens with
      | done value unread reports =>
        simp only
        cases next value unread <;> simp [Parse.after_done, Parse.after_failed, Parse.after_exhausted]
      | failed | exhausted => rfl)

/-- The next token and those after it, none at the end of the list. -/
def next? : List Token → Option (Token × List Token)
  | [] => none
  | token :: rest => if token.kind = .endMark then none else some (token, rest)

def atEnd (tokens : List Token) : Bool :=
  (next? tokens).isNone

def sees (kind : Kind) (tokens : List Token) : Bool :=
  (next? tokens).any (·.1.kind == kind)

def unread : Parser (List Token) :=
  fun tokens => .done tokens tokens []

/-- Reports an error at some point of the list and goes on. -/
def report (tokens : List Token) (error : SyntaxError) : Parser Unit :=
  fun unread => .done () unread [⟨tokens, error⟩]

def fail (expected : Expected) : Parser α :=
  fun tokens => .failed tokens [] expected

def exhausted : Parser α :=
  fun _ => .exhausted

/-- Reads the next token if its kind is among some kinds. -/
def accept (kinds : Kind → Bool) : Parser (Option Token) :=
  fun tokens =>
    match next? tokens with
    | some (token, rest) => if kinds token.kind then .done (some token) rest [] else .done none tokens []
    | none => .done none tokens []

def expect (kind : Kind) (expected : Expected) : Parser Token :=
  fun tokens =>
    match next? tokens with
    | some (token, rest) => if token.kind = kind then .done token rest [] else fail expected tokens
    | none => fail expected tokens

/-- Nothing if the next token is of the given kind, which is left unread, and else what the parser
reads. -/
def unlessSees (kind : Kind) (parser : Parser α) : Parser (Option α) :=
  fun tokens => if sees kind tokens then .done none tokens [] else (some <$> parser) tokens

/-- What a turn of a loop makes of the state: more turns are to follow, or none. -/
inductive Turn (σ : Type) where
  | again (state : σ)
  | last (state : σ)

/-- The loop with the reports of the turns so far, last first. -/
def iterateAfter (turn : σ → Parser (Turn σ)) : Nat → List Report → σ → Parser σ
  | 0, _, _ => exhausted
  | turns + 1, earlier, state =>
    fun tokens =>
      match turn state tokens with
      | .done (.again state) unread reports =>
        iterateAfter turn turns (reports.reverse ++ earlier) state unread
      | .done (.last state) unread reports => .done state unread (earlier.reverse ++ reports)
      | .failed unread reports cause => .failed unread (earlier.reverse ++ reports) cause
      | .exhausted => .exhausted

/-- Takes turns on a state, at most as many as given, until one of them is the last. -/
def iterate (turn : σ → Parser (Turn σ)) (turns : Nat) (state : σ) : Parser σ :=
  iterateAfter turn turns [] state

theorem iterateAfter_eq (turn : σ → Parser (Turn σ)) (turns : Nat) (earlier : List Report) (state : σ)
    (tokens : List Token) :
    iterateAfter turn turns earlier state tokens =
      (iterate turn turns state tokens).after earlier.reverse := by
  unfold iterate
  induction turns generalizing earlier state tokens with
  | zero => rfl
  | succ turns ih =>
    simp only [iterateAfter]
    cases turn state tokens with
    | done next unread reports =>
      cases next with
      | again state =>
        simp only
        rw [ih, ih (reports.reverse ++ [])]
        simp
      | last state => simp [Parse.after]
    | failed | exhausted => simp [Parse.after]

theorem iterate_succ (turn : σ → Parser (Turn σ)) (turns : Nat) (state : σ) :
    iterate turn (turns + 1) state = (do
      match ← turn state with
      | .again state => iterate turn turns state
      | .last state => pure state) := by
  funext tokens
  rw [bind_apply]
  conv => lhs; unfold iterate iterateAfter
  cases turn state tokens with
  | done next unread reports =>
    cases next with
    | again state => simp [iterateAfter_eq]
    | last state => simp [pure_apply, Parse.after]
  | failed | exhausted => rfl

end Parser

end Script
