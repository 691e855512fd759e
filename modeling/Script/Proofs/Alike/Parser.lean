import Script.Parser.Program
import Script.Proofs.Alike.Trees
import Script.Proofs.Parser.Reading

/-!
# Lists of tokens that a parser cannot tell apart

A parser sees no more of a token than its kind, and copies its constant. What it makes of two lists whose
tokens correspond is therefore alike, tree and errors. `Tracks` says which lists may be compared: those
that correspond up to their ends, or at least up to the next semicolon, behind which no expression looks.
The two parsers may have different levels of nesting to spend.
-/

namespace Script

variable {α β σ : Type}

/-- The operators that compute something of two operands. -/
def Kind.operators : List Kind :=
  [.bangEqual, .equalEqual, .greater, .greaterEqual, .less, .lessEqual, .minus, .plus, .slash, .star]

/-- Which kinds of token a tree uses so. -/
def Use.Fits : Use → Kind → Prop
  | .name, kind => kind = .identifier
  | .receiver, kind => kind = .thisWord
  | .operator, kind => kind ∈ Kind.operators
  | .sign, kind => kind = .bang ∨ kind = .minus
  | .paren, kind => kind = .rightParen
  | .mark, _ => True

/-- The other levels are those of the logical operators, which may settle without their second operand. -/
theorem Level.mem_operators_of_has {level : Level} {kind : Kind} (h : level.has kind = true)
    (hlevel : level ≠ .disjunction ∧ level ≠ .conjunction) : kind ∈ Kind.operators := by
  revert h hlevel
  cases level <;> cases kind <;> decide

/-- Tokens of the same kind that match whatever they can be used for. The constants that a tree takes over, those
of strings and numbers, are the same. -/
structure Token.Twin (T : Matching) (token token' : Token) : Prop where
  kind : token'.kind = token.kind
  literal : token.kind ≠ .identifier → token'.literal = token.literal
  matching : ∀ use : Use, use.Fits token.kind → T use token token'

/-- Related lists are both at their end, or have corresponding next tokens, and stay related behind these
unless they are semicolons. -/
def Tracks (T : Matching) (along : List Token → List Token → Prop) : Prop :=
  ∀ near far, along near far →
    (Parser.next? near = none ∧ Parser.next? far = none) ∨
    ∃ token token' near' far', near = token :: near' ∧ far = token' :: far' ∧
      token.kind ≠ .endMark ∧ token.Twin T token' ∧ (token.kind ≠ .semicolon → along near' far')

/-- The tokens behind corresponding semicolons. -/
def past (along : List Token → List Token → Prop) (near far : List Token) : Prop :=
  ∃ stop stop', stop.kind = .semicolon ∧ along (stop :: near) (stop' :: far)

/-- Lists that correspond stay related behind semicolons too. -/
def Through (along : List Token → List Token → Prop) : Prop :=
  ∀ near far, past along near far → along near far

/-- The same error, met at related places. -/
def Report.Alike (along : List Token → List Token → Prop) (report report' : Report) : Prop :=
  report.error = report'.error ∧ along report.unread report'.unread

/-- Both outcomes come to the same, or one is exhausted. -/
def Parse.Alike (along post : List Token → List Token → Prop) (V : α → α → Prop) :
    Parse α → Parse α → Prop
  | .done value near reports, .done value' far reports' =>
    V value value' ∧ post near far ∧ List.Forall₂ (Report.Alike along) reports reports'
  | .failed near reports cause, .failed far reports' cause' =>
    cause = cause' ∧ along near far ∧ List.Forall₂ (Report.Alike along) reports reports'
  | .exhausted, _ | _, .exhausted => True
  | _, _ => False

section Outcomes

variable {along post : List Token → List Token → Prop} {V : α → α → Prop} {outcome outcome' : Parse α}

theorem Parse.alike_exhausted (outcome : Parse α) : Parse.Alike along post V outcome .exhausted := by
  cases outcome <;> trivial

theorem Parse.Alike.after (h : Parse.Alike along post V outcome outcome') {near far : List Report}
    (hreports : List.Forall₂ (Report.Alike along) near far) :
    Parse.Alike along post V (outcome.after near) (outcome'.after far) := by
  cases outcome <;> cases outcome' <;> try trivial
  · obtain ⟨hvalue, hpost, hagree⟩ := h
    exact ⟨hvalue, hpost, List.rel_append hreports hagree⟩
  · obtain ⟨hcause, halong, hagree⟩ := h
    exact ⟨hcause, halong, List.rel_append hreports hagree⟩

theorem Parse.Alike.mono (h : Parse.Alike along post V outcome outcome')
    {wider : List Token → List Token → Prop} {U : α → α → Prop}
    (hpost : ∀ near far, post near far → wider near far)
    (hvalue : ∀ value value', V value value' → U value value') :
    Parse.Alike along wider U outcome outcome' := by
  cases outcome <;> cases outcome' <;> try trivial
  exact ⟨hvalue _ _ h.1, hpost _ _ h.2.1, h.2.2⟩

/-- The same errors at related places, with the one that ends the parse. -/
theorem Parse.Alike.reports (h : Parse.Alike along post V outcome outcome') (hends : outcome ≠ .exhausted)
    (hends' : outcome' ≠ .exhausted) : List.Forall₂ (Report.Alike along) outcome.reports outcome'.reports := by
  cases outcome <;> cases outcome' <;> try contradiction
  · exact h.2.2
  · obtain ⟨rfl, hplace, hreports⟩ := h
    exact List.rel_append hreports (.cons ⟨rfl, hplace⟩ .nil)

end Outcomes

namespace Parser

/-- Lists correspond if their first tokens do, and what is behind these unless they are at their end. -/
theorem tracks_of_cons {T : Matching} {along : List Token → List Token → Prop}
    (h : ∀ near far, along near far → (near = [] ∧ far = []) ∨
      ∃ token token' near' far', near = token :: near' ∧ far = token' :: far' ∧ token.Twin T token' ∧
        (token.kind ≠ .endMark → along near' far')) : Tracks T along := by
  intro near far halong
  rcases h near far halong with ⟨rfl, rfl⟩ | ⟨token, token', near', far', rfl, rfl, htwin, hbehind⟩
  · exact .inl ⟨rfl, rfl⟩
  · by_cases hend : token.kind = .endMark
    · exact .inl ⟨by simp [next?, hend], by simp [next?, htwin.kind, hend]⟩
    · exact .inr ⟨token, token', near', far', rfl, rfl, hend, htwin, fun _ => hbehind hend⟩

def Simulates (along post : List Token → List Token → Prop) (V : α → α → Prop)
    (parser parser' : Parser α) : Prop :=
  ∀ near far, along near far → Parse.Alike along post V (parser near) (parser' far)

/-- The state of a loop, and whether it goes on. -/
inductive Turn.Alike (S : σ → σ → Prop) : Turn σ → Turn σ → Prop where
  | again {state state' : σ} (h : S state state') : Alike S (.again state) (.again state')
  | last {state state' : σ} (h : S state state') : Alike S (.last state) (.last state')

/-- Arrays with related entries, place by place. -/
def Entrywise (V : α → α → Prop) (read read' : Array α) : Prop :=
  List.Forall₂ V read.toList read'.toList

theorem Entrywise.push {V : α → α → Prop} {read read' : Array α} (h : Entrywise V read read')
    {value value' : α} (hvalue : V value value') : Entrywise V (read.push value) (read'.push value') := by
  unfold Entrywise
  rw [Array.toList_push, Array.toList_push]
  exact List.rel_append h (.cons hvalue .nil)

theorem Entrywise.size_eq {V : α → α → Prop} {read read' : Array α} (h : Entrywise V read read') :
    read.size = read'.size :=
  List.Forall₂.length_eq h

section Combinators

variable {along post : List Token → List Token → Prop} {V : α → α → Prop} {U : β → β → Prop}
  {S : σ → σ → Prop}

theorem simulates_exhausted_left (parser : Parser α) : Simulates along post V exhausted parser :=
  fun _ _ _ => trivial

theorem simulates_exhausted_right (parser : Parser α) : Simulates along post V parser exhausted :=
  fun near _ _ => Parse.alike_exhausted (parser near)

theorem simulates_pure {value value' : α} (hvalue : V value value') :
    Simulates along along V (pure value) (pure value') :=
  fun _ _ halong => ⟨hvalue, halong, .nil⟩

theorem Simulates.mono {parser parser' : Parser α} (h : Simulates along post V parser parser')
    {wider : List Token → List Token → Prop} {U : α → α → Prop}
    (hpost : ∀ near far, post near far → wider near far)
    (hvalue : ∀ value value', V value value' → U value value') :
    Simulates along wider U parser parser' :=
  fun near far halong => (h near far halong).mono hpost hvalue

theorem simulates_bind {parser parser' : Parser α} {next next' : α → Parser β}
    (hparser : Simulates along along V parser parser')
    (hnext : ∀ value value', V value value' → Simulates along post U (next value) (next' value')) :
    Simulates along post U (parser >>= next) (parser' >>= next') := by
  intro near far halong
  have hfirst := hparser near far halong
  rw [bind_apply, bind_apply]
  cases hnear : parser near with
  | exhausted => trivial
  | done value unread reports =>
      cases hfar : parser' far with
      | exhausted => exact Parse.alike_exhausted _
      | done value' unread' reports' =>
          rw [hnear, hfar] at hfirst
          obtain ⟨hvalue, hunread, hreports⟩ := hfirst
          exact (hnext value value' hvalue unread unread' hunread).after hreports
      | failed =>
          rw [hnear, hfar] at hfirst
          exact hfirst.elim
  | failed unread reports cause =>
      cases hfar : parser' far with
      | exhausted => trivial
      | done =>
          rw [hnear, hfar] at hfirst
          exact hfirst.elim
      | failed unread' reports' cause' =>
          rw [hnear, hfar] at hfirst
          exact hfirst

theorem simulates_map {parser parser' : Parser α} (hparser : Simulates along along V parser parser')
    {f f' : α → β} (hf : ∀ value value', V value value' → U (f value) (f' value')) :
    Simulates along along U (f <$> parser) (f' <$> parser') := by
  rw [map_eq_pure_bind, map_eq_pure_bind]
  exact simulates_bind hparser fun value value' hvalue => simulates_pure (hf value value' hvalue)

theorem simulates_iterate {turn turn' : σ → Parser (Turn σ)}
    (hturn : ∀ state state', S state state' →
      Simulates along along (Turn.Alike S) (turn state) (turn' state')) (turns turns' : Nat)
    {state state' : σ} (hstate : S state state') :
    Simulates along along S (iterate turn turns state) (iterate turn' turns' state') := by
  induction turns generalizing turns' state state' with
  | zero => exact simulates_exhausted_left _
  | succ turns ih =>
      cases turns' with
      | zero => exact simulates_exhausted_right _
      | succ turns' =>
          rw [iterate_succ, iterate_succ]
          refine simulates_bind (hturn state state' hstate) fun next next' hnext => ?_
          cases hnext with
          | again hstate => exact ih turns' hstate
          | last hstate => exact simulates_pure hstate

theorem simulates_unread {next next' : List Token → Parser α}
    (hnext : ∀ near far, along near far → Simulates along post V (next near) (next' far)) :
    Simulates along post V (unread >>= next) (unread >>= next') := by
  intro near far halong
  have hread := hnext near far halong near far halong
  rw [bind_apply, bind_apply]
  exact hread.after .nil

theorem simulates_report {place place' : List Token} (hplace : along place place')
    (error : SyntaxError) :
    Simulates along along (fun _ _ => True) (report place error) (report place' error) :=
  fun _ _ halong => ⟨trivial, halong, .cons ⟨rfl, hplace⟩ .nil⟩

end Combinators

/-! ### Single tokens -/

section Tokens

variable {T : Matching} {along post : List Token → List Token → Prop} {V : α → α → Prop}
  (htracks : Tracks T along)

include htracks

theorem heads_eq_of_along {near far : List Token} (halong : along near far) (kinds : Kind → Bool) :
    heads kinds near = heads kinds far := by
  rcases htracks near far halong with ⟨hnear, hfar⟩ | ⟨token, token', _, _, rfl, rfl, hend, htwin, -⟩
  · rw [heads, heads, hnear, hfar]
  · rw [heads_cons hend, heads_cons (htwin.kind ▸ hend), htwin.kind]

theorem atEnd_eq_of_along {near far : List Token} (halong : along near far) : atEnd near = atEnd far := by
  rcases htracks near far halong with ⟨hnear, hfar⟩ | ⟨token, token', _, _, rfl, rfl, hend, htwin, -⟩
  · rw [atEnd, atEnd, hnear, hfar]
  · rw [atEnd, atEnd, next?_cons hend, next?_cons (htwin.kind ▸ hend)]
    rfl

omit htracks in
theorem along_behind {token token' : Token} {near far : List Token}
    (hbehind : token.kind ≠ .semicolon → along near far)
    (hkind : token.kind ≠ .semicolon ∨ Through along) (halong : along (token :: near) (token' :: far)) :
    along near far := by
  by_cases hstop : token.kind = .semicolon
  · rcases hkind with hkind | hthrough
    · exact absurd hstop hkind
    · exact hthrough near far ⟨token, token', hstop, halong⟩
  · exact hbehind hstop

theorem simulates_expect {kind : Kind} (hkind : kind ≠ .semicolon ∨ Through along)
    (expected : Expected) :
    Simulates along along (fun token token' => token.kind = kind ∧ token.Twin T token')
      (expect kind expected) (expect kind expected) := by
  intro near far halong
  unfold expect
  rcases htracks near far halong with ⟨hnear, hfar⟩ |
    ⟨token, token', near', far', rfl, rfl, hend, htwin, hbehind⟩
  · rw [hnear, hfar]
    exact ⟨rfl, halong, .nil⟩
  · rw [next?_cons hend, next?_cons (htwin.kind ▸ hend)]
    simp only
    rw [htwin.kind]
    by_cases htoken : token.kind = kind
    · rw [if_pos htoken, if_pos htoken]
      refine ⟨⟨htoken, htwin⟩, ?_, .nil⟩
      exact along_behind hbehind (hkind.imp_left fun hkind => htoken ▸ hkind) halong
    · rw [if_neg htoken, if_neg htoken]
      exact ⟨rfl, halong, .nil⟩

theorem simulates_accept {kinds : Kind → Bool} (hkinds : kinds .semicolon = false ∨ Through along) :
    Simulates along along (Option.Rel fun token token' => kinds token.kind = true ∧ token.Twin T token')
      (accept kinds) (accept kinds) := by
  intro near far halong
  unfold accept
  rcases htracks near far halong with ⟨hnear, hfar⟩ |
    ⟨token, token', near', far', rfl, rfl, hend, htwin, hbehind⟩
  · rw [hnear, hfar]
    exact ⟨.none, halong, .nil⟩
  · rw [next?_cons hend, next?_cons (htwin.kind ▸ hend)]
    simp only
    rw [htwin.kind]
    by_cases htoken : kinds token.kind = true
    · rw [if_pos htoken, if_pos htoken]
      refine ⟨.some ⟨htoken, htwin⟩, along_behind hbehind (hkinds.imp_left ?_) halong, .nil⟩
      rintro hkinds hkind
      rw [hkind, hkinds] at htoken
      cases htoken
    · rw [if_neg htoken, if_neg htoken]
      exact ⟨.none, halong, .nil⟩

theorem simulates_unlessSees {parser parser' : Parser α}
    (hparser : Simulates along along V parser parser') (kind : Kind) :
    Simulates along along (Option.Rel V) (unlessSees kind parser) (unlessSees kind parser') := by
  intro near far halong
  unfold unlessSees
  rw [sees_eq_heads, sees_eq_heads, heads_eq_of_along htracks halong]
  by_cases hsees : heads (· == kind) far = true
  · rw [if_pos hsees, if_pos hsees]
    exact ⟨.none, halong, .nil⟩
  · rw [if_neg hsees, if_neg hsees]
    exact simulates_map hparser (fun _ _ => .some) near far halong

/-! ### Expressions -/

theorem simulates_operation {operand operand' : Parser Expr}
    (hoperand : Simulates along along (Expr.Like T) operand operand') (level : Level) {left left' : Expr}
    (hleft : Expr.Like T left left') :
    Simulates along along (Turn.Alike (Expr.Like T)) (operation level operand left)
      (operation level operand' left') := by
  have hlevel : level.has .semicolon = false := by
    cases level <;> rfl
  unfold operation
  refine simulates_bind (simulates_accept htracks (.inl hlevel)) fun mark mark' hmark => ?_
  cases hmark with
  | none => exact simulates_pure (.last hleft)
  | some hoperator =>
      refine simulates_bind hoperand fun right right' hright => simulates_pure (.again ?_)
      have hjoins := hoperator.1
      cases level with
      | disjunction | conjunction => exact .logical hleft (hoperator.2.matching .mark trivial) hright
      | equality | comparison | sum | product =>
          exact .binary hleft (hoperator.2.matching .operator (Level.mem_operators_of_has hjoins (by decide)))
            hright

theorem simulates_chains {operand operand' : Parser Expr}
    (hoperand : Simulates along along (Expr.Like T) operand operand') (turns turns' : Nat)
    (levels : List Level) :
    Simulates along along (Expr.Like T) (chains operand turns levels) (chains operand' turns' levels) := by
  induction levels with
  | nil => exact hoperand
  | cons level tighter ih =>
      refine simulates_bind ih fun left left' hleft => ?_
      exact simulates_iterate (fun _ _ hleft => simulates_operation htracks ih level hleft) turns turns'
        hleft

theorem simulates_oneMore {item item' : Parser α} (hitem : Simulates along along V item item')
    {read read' : Array α} (hread : Entrywise V read read') :
    Simulates along along (Turn.Alike (Entrywise V)) (oneMore item read) (oneMore item' read') := by
  refine simulates_bind hitem fun value value' hvalue => ?_
  refine simulates_bind (simulates_accept htracks (.inl rfl)) fun mark mark' hmark => ?_
  cases hmark with
  | none => exact simulates_pure (.last (hread.push hvalue))
  | some => exact simulates_pure (.again (hread.push hvalue))

theorem simulates_entry {item item' : Parser α} (hitem : Simulates along along V item item')
    (which : Entries) {read read' : Array α} (hread : Entrywise V read read') :
    Simulates along along (Turn.Alike (Entrywise V)) (entry which item read) (entry which item' read') := by
  have hrest := simulates_oneMore htracks hitem hread
  unfold entry
  rw [hread.size_eq]
  by_cases hmost : Entries.most ≤ read'.size
  · rw [if_pos hmost, if_pos hmost]
    refine simulates_unread fun place place' hplace => ?_
    exact simulates_bind (simulates_report hplace _) fun _ _ _ => hrest
  · rw [if_neg hmost, if_neg hmost]
    exact hrest

theorem simulates_entries {item item' : Parser α} (hitem : Simulates along along V item item')
    (which : Entries) (turns turns' : Nat) :
    Simulates along along (List.Forall₂ V) (entries which item turns) (entries which item' turns') := by
  have hempty : Entrywise V #[] #[] := .nil
  have hloop := simulates_iterate (fun _ _ hread => simulates_entry htracks hitem which hread) turns turns'
    hempty
  unfold entries
  refine simulates_bind (simulates_unlessSees htracks hloop _) fun read read' hread => ?_
  cases hread with
  | none => exact simulates_pure .nil
  | some hread => exact simulates_pure hread

section Parts

variable {expression expression' : Parser Expr}
  (hexpression : Simulates along along (Expr.Like T) expression expression')

include hexpression

theorem simulates_suffix (turns turns' : Nat) {callee callee' : Expr} (hcallee : Expr.Like T callee callee') :
    Simulates along along (Turn.Alike (Expr.Like T)) (suffix expression turns callee)
      (suffix expression' turns' callee') := by
  unfold suffix
  refine simulates_bind (simulates_accept htracks (.inl rfl)) fun mark mark' hmark => ?_
  cases hmark with
  | none => exact simulates_pure (.last hcallee)
  | @some mark mark' hmark =>
      simp only [hmark.2.kind]
      by_cases hdot : mark.kind = .dot
      · rw [if_pos hdot, if_pos hdot]
        refine simulates_bind (simulates_expect htracks (.inl (by decide)) _) fun name name' hname => ?_
        exact simulates_pure (.again (.get hcallee (hname.2.matching .name hname.1)))
      · rw [if_neg hdot, if_neg hdot]
        refine simulates_bind (simulates_entries htracks hexpression _ turns turns') ?_
        intro arguments arguments' harguments
        refine simulates_bind (simulates_expect htracks (.inl (by decide)) _) fun paren paren' hparen => ?_
        exact simulates_pure (.again (.call hcallee (hparen.2.matching .paren hparen.1) harguments))

theorem simulates_primary :
    Simulates along along (Expr.Like T) (primary expression) (primary expression') := by
  have hgroup : Simulates along along (Expr.Like T) (primary.group expression)
      (primary.group expression') := by
    refine simulates_bind hexpression fun inner inner' hinner => ?_
    exact simulates_bind (simulates_expect htracks (.inl (by decide)) _) fun _ _ _ =>
      simulates_pure (.grouping hinner)
  intro near far halong
  unfold primary
  rcases htracks near far halong with ⟨hnear, hfar⟩ |
    ⟨token, token', near', far', rfl, rfl, hend, htwin, hbehind⟩
  · rw [hnear, hfar]
    exact ⟨rfl, halong, .nil⟩
  rw [next?_cons hend, next?_cons (htwin.kind ▸ hend)]
  simp only
  rw [htwin.kind]
  have hrest (hkind : token.kind ≠ .semicolon) : along near' far' := hbehind hkind
  split
  case h_1 hkind | h_2 hkind | h_3 hkind =>
    exact ⟨.literal _, hrest (by rw [hkind]; decide), .nil⟩
  case h_4 hkind | h_5 hkind =>
    rw [htwin.literal (by rw [hkind]; decide)]
    exact ⟨.literal _, hrest (by rw [hkind]; decide), .nil⟩
  case h_6 hkind =>
    exact ⟨.variable (htwin.matching .name hkind), hrest (by rw [hkind]; decide), .nil⟩
  case h_7 hkind => exact ⟨.this (htwin.matching .receiver hkind), hrest (by rw [hkind]; decide), .nil⟩
  case h_8 hkind => exact hgroup near' far' (hrest (by rw [hkind]; decide))
  case h_9 => exact ⟨rfl, halong, .nil⟩

theorem simulates_call (turns turns' : Nat) :
    Simulates along along (Expr.Like T) (call expression turns) (call expression' turns') := by
  refine simulates_bind (simulates_primary htracks hexpression) fun callee callee' hcallee => ?_
  exact simulates_iterate (fun _ _ hcallee => simulates_suffix htracks hexpression turns turns' hcallee)
    turns turns' hcallee

end Parts

theorem simulates_signed {operand operand' call call' : Parser Expr}
    (hoperand : Simulates along along (Expr.Like T) operand operand')
    (hcall : Simulates along along (Expr.Like T) call call') :
    Simulates along along (Expr.Like T) (signed operand call) (signed operand' call') := by
  unfold signed
  refine simulates_bind (simulates_accept htracks (.inl rfl)) fun mark mark' hmark => ?_
  cases hmark with
  | none => exact hcall
  | some hoperator =>
      refine simulates_bind hoperand fun right right' hright => simulates_pure ?_
      exact .unary (hoperator.2.matching .sign (by simpa [Use.Fits] using hoperator.1)) hright

theorem simulates_assignment {target target' value value' : Parser Expr}
    (htarget : Simulates along along (Expr.Like T) target target')
    (hvalue : Simulates along along (Expr.Like T) value value') :
    Simulates along along (Expr.Like T) (assignment target value) (assignment target' value') := by
  unfold assignment
  refine simulates_bind htarget fun left left' hleft => ?_
  refine simulates_unread fun place place' hplace => ?_
  refine simulates_bind (simulates_accept htracks (.inl rfl)) fun mark mark' hmark => ?_
  cases hmark with
  | none => exact simulates_pure hleft
  | some =>
      refine simulates_bind hvalue fun right right' hright => ?_
      have hinvalid : Simulates along along (Expr.Like T)
          (do
            report place .assignmentTarget
            return left)
          (do
            report place' .assignmentTarget
            return left') :=
        simulates_bind (simulates_report hplace _) fun _ _ _ => simulates_pure hleft
      cases hleft with
      | «variable» hname => exact simulates_pure (.assign hname hright)
      | get hobject hname => exact simulates_pure (.set hobject hname hright)
      | _ => exact hinvalid

theorem simulates_expression_unary (level level' : Nat) :
    Simulates along along (Expr.Like T) (expression level) (expression level') ∧
      Simulates along along (Expr.Like T) (unary level) (unary level') := by
  induction level generalizing level' with
  | zero => exact ⟨simulates_exhausted_left _, simulates_exhausted_left _⟩
  | succ level ih =>
      cases level' with
      | zero => exact ⟨simulates_exhausted_right _, simulates_exhausted_right _⟩
      | succ level' =>
          obtain ⟨hexpression, hunary⟩ := ih level'
          constructor
          · exact simulates_assignment htracks
              (simulates_chains htracks hunary level level' Level.all) hexpression
          · exact simulates_signed htracks hunary (simulates_call htracks hexpression level level')

theorem simulates_expression (level level' : Nat) :
    Simulates along along (Expr.Like T) (expression level) (expression level') :=
  (simulates_expression_unary htracks level level').1

end Tokens

end Parser

end Script
