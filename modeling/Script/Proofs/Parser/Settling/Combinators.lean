import Script.Proofs.Parser.Loops

/-!
# Readers that come to an end

`Settles quiet size least parser` says of every list of at most `size` tokens that `parser` is not
exhausted on it, leaves unread a suffix of it, reports only `quiet` errors before it fails, and reads
at least `least value` tokens before it gives `value`. The bounds on size are what makes the levels of
nesting suffice: a part that follows a token has a shorter list to read.
-/

namespace Script

variable {α β σ : Type}

/-- The errors after which reading goes on. -/
def SyntaxError.isFatal : SyntaxError → Bool
  | .missing _ => true
  | .tooMany _ | .assignmentTarget => false

def Parse.Settled (quiet : SyntaxError → Prop) (least : α → Nat) (tokens : List Token) :
    Parse α → Prop
  | .done value unread reports =>
    unread <:+ tokens ∧ unread.length + least value ≤ tokens.length ∧
      ∀ report ∈ reports, quiet report.error
  | .failed unread reports _ => unread <:+ tokens ∧ ∀ report ∈ reports, quiet report.error
  | .exhausted => False

namespace Parser

def Settles (quiet : SyntaxError → Prop) (size : Nat) (least : α → Nat) (parser : Parser α) : Prop :=
  ∀ tokens, tokens.length ≤ size → (parser tokens).Settled quiet least tokens

/-- As `Settles`, for a parser that is used only before the end of the list, and reads something. -/
def Advances (quiet : SyntaxError → Prop) (size : Nat) (parser : Parser α) : Prop :=
  ∀ tokens, tokens.length ≤ size → atEnd tokens = false →
    (parser tokens).Settled quiet (fun _ => 1) tokens

/-- How many tokens an optional token is. -/
def taken (mark : Option Token) : Nat :=
  mark.elim 0 fun _ => 1

/-- A turn has to read something if there is to be another one. -/
def Turn.least : Turn σ → Nat
  | .again _ => 1
  | .last _ => 0

theorem Turn.least_le_one (turn : Turn σ) : turn.least ≤ 1 := by
  cases turn with
  | again => exact Nat.le_refl 1
  | last => exact Nat.zero_le 1

variable {quiet : SyntaxError → Prop} {size : Nat} {least : α → Nat} {parser : Parser α}

theorem Settles.mono (h : Settles quiet size least parser) {smaller : Nat} (hsize : smaller ≤ size)
    {fewer : α → Nat} (hleast : ∀ value, fewer value ≤ least value) :
    Settles quiet smaller fewer parser := by
  intro tokens htokens
  have hsettled := h tokens (Nat.le_trans htokens hsize)
  cases hparse : parser tokens with
  | done value unread reports =>
      rw [hparse] at hsettled
      obtain ⟨hsuffix, hlength, hreports⟩ := hsettled
      exact ⟨hsuffix, Nat.le_trans (Nat.add_le_add_left (hleast value) _) hlength, hreports⟩
  | failed unread reports cause =>
      rw [hparse] at hsettled
      exact hsettled
  | exhausted =>
      rw [hparse] at hsettled
      exact hsettled

theorem Settles.weaken (h : Settles quiet size least parser) {smaller : Nat} (hsize : smaller ≤ size) :
    Settles quiet smaller (fun _ => 0) parser :=
  h.mono hsize fun _ => Nat.zero_le _

theorem Settles.advances (h : Settles quiet size (fun _ => 1) parser) :
    Advances quiet size parser :=
  fun tokens htokens _ => h tokens htokens

theorem settled_cons {outcome : Parse α} {rest : List Token}
    (h : outcome.Settled quiet least rest) (token : Token) {more : α → Nat}
    (hmore : ∀ value, more value ≤ least value + 1) : outcome.Settled quiet more (token :: rest) := by
  cases outcome with
  | done value unread reports =>
      obtain ⟨hsuffix, hlength, hreports⟩ := h
      have hvalue := hmore value
      exact ⟨hsuffix.trans (List.suffix_cons token rest), by rw [List.length_cons]; omega, hreports⟩
  | failed unread reports cause =>
      exact ⟨h.1.trans (List.suffix_cons token rest), h.2⟩
  | exhausted => exact h

theorem settles_pure {value : α} (hleast : least value = 0) :
    Settles quiet size least (pure value) := by
  intro tokens _
  rw [pure_apply]
  exact ⟨List.suffix_rfl, by omega, by simp⟩

theorem settles_bind {least' : β → Nat} {next : α → Parser β}
    (hparser : Settles quiet size least parser)
    (hnext : ∀ value, least value ≤ size →
      Settles quiet (size - least value) (fun last => least' last - least value) (next value)) :
    Settles quiet size least' (parser >>= next) := by
  intro tokens htokens
  have hfirst := hparser tokens htokens
  rw [bind_apply]
  cases hparse : parser tokens with
  | failed unread reports cause =>
      rw [hparse] at hfirst
      exact hfirst
  | exhausted =>
      rw [hparse] at hfirst
      exact hfirst
  | done value unread reports =>
      rw [hparse] at hfirst
      obtain ⟨hsuffix, hlength, hreports⟩ := hfirst
      have hsecond := hnext value (by omega) unread (by omega)
      simp only
      cases hrest : next value unread with
      | exhausted =>
          rw [hrest] at hsecond
          exact hsecond
      | done last rest others =>
          rw [hrest] at hsecond
          obtain ⟨hsuffix', hlength', hothers⟩ := hsecond
          have hread : rest.length + (least' last - least value) ≤ unread.length := hlength'
          refine ⟨hsuffix'.trans hsuffix, by omega, fun report hreport => ?_⟩
          rcases List.mem_append.mp hreport with hreport | hreport
          · exact hreports report hreport
          · exact hothers report hreport
      | failed rest others cause =>
          rw [hrest] at hsecond
          obtain ⟨hsuffix', hothers⟩ := hsecond
          refine ⟨hsuffix'.trans hsuffix, fun report hreport => ?_⟩
          rcases List.mem_append.mp hreport with hreport | hreport
          · exact hreports report hreport
          · exact hothers report hreport

theorem settles_map {least' : β → Nat} {f : α → β} (hparser : Settles quiet size least parser)
    (hleast : ∀ value, least' (f value) ≤ least value) : Settles quiet size least' (f <$> parser) := by
  rw [map_eq_pure_bind]
  exact settles_bind hparser fun value _ => settles_pure (by have := hleast value; omega)

theorem settles_expect (kind : Kind) (expected : Expected) :
    Settles quiet size (fun _ => 1) (expect kind expected) := by
  intro tokens _
  unfold expect
  split
  · next token rest hnext =>
      obtain ⟨rfl, -⟩ := next?_eq_some_iff.mp hnext
      split
      · exact ⟨List.suffix_cons token rest, by simp, by simp⟩
      · exact ⟨List.suffix_rfl, by simp⟩
  · exact ⟨List.suffix_rfl, by simp⟩

theorem settles_accept (kinds : Kind → Bool) : Settles quiet size taken (accept kinds) := by
  intro tokens _
  unfold accept
  split
  · next token rest hnext =>
      obtain ⟨rfl, -⟩ := next?_eq_some_iff.mp hnext
      split
      · exact ⟨List.suffix_cons token rest, by simp [taken], by simp⟩
      · exact ⟨List.suffix_rfl, by simp [taken], by simp⟩
  · exact ⟨List.suffix_rfl, by simp [taken], by simp⟩

theorem settles_unread : Settles quiet size (fun _ => 0) unread := by
  intro tokens _
  exact ⟨List.suffix_rfl, by simp, by simp⟩

theorem settles_report {error : SyntaxError} (herror : quiet error) (place : List Token) :
    Settles quiet size (fun _ => 0) (report place error) := by
  intro tokens _
  exact ⟨List.suffix_rfl, by simp, by simpa using herror⟩

theorem settles_unlessSees (hparser : Settles quiet size least parser) (kind : Kind) :
    Settles quiet size (fun _ => 0) (unlessSees kind parser) := by
  intro tokens htokens
  unfold unlessSees
  split
  · exact ⟨List.suffix_rfl, by simp, by simp⟩
  · have hsome : Settles quiet size (fun _ => 0) (some <$> parser) :=
      settles_map hparser fun _ => Nat.zero_le _
    exact hsome tokens htokens

/-- A loop ends before it runs out of turns, since no two turns see the same number of tokens. -/
theorem settles_iterate {turn : σ → Parser (Turn σ)}
    (hturn : ∀ state, Settles quiet size Turn.least (turn state)) {turns : Nat} (hturns : size < turns)
    (state : σ) : Settles quiet size (fun _ => 0) (iterate turn turns state) := by
  induction turns generalizing size state with
  | zero => omega
  | succ turns ih =>
      rw [iterate_succ]
      refine settles_bind (hturn state) fun next hnext => ?_
      cases next with
      | last state => exact settles_pure rfl
      | again state =>
          simp only [Turn.least] at hnext ⊢
          refine ih (fun state => (hturn state).mono (Nat.sub_le _ _) fun _ => Nat.le_refl _) ?_ state
          omega

theorem settles_collecting {stop : List Token → Bool} {collect : α → Option β}
    (hstop : ∀ tokens, atEnd tokens = true → stop tokens = true)
    (hparser : Advances quiet size parser) (read : Array β) :
    Settles quiet size Turn.least (collecting stop collect parser read) := by
  intro tokens htokens
  unfold collecting
  split
  · exact ⟨List.suffix_rfl, by simp [Turn.least], by simp⟩
  · next hgo =>
      have hend : atEnd tokens = false := by
        cases hend : atEnd tokens with
        | false => rfl
        | true => exact absurd (hstop tokens hend) hgo
      have hsettled := hparser tokens htokens hend
      rw [map_eq_pure_bind, bind_apply]
      cases hparse : parser tokens <;> rw [hparse] at hsettled
      case done value unread reports =>
        simpa [Parse.after, pure_apply, Parse.Settled, Turn.least] using hsettled
      case failed => exact hsettled
      case exhausted => exact hsettled

theorem settles_oneMore (hparser : Settles quiet size (fun _ => 1) parser) (read : Array α) :
    Settles quiet size (fun _ => 1) (oneMore parser read) := by
  unfold oneMore
  refine settles_bind hparser fun value _ => ?_
  refine settles_bind (settles_accept _) fun mark _ => ?_
  cases mark with
  | some _ => exact settles_pure rfl
  | none => exact settles_pure rfl

theorem settles_entry {which : Entries} (htoo : quiet (.tooMany which))
    (hparser : Settles quiet size (fun _ => 1) parser) (read : Array α) :
    Settles quiet size (fun _ => 1) (entry which parser read) := by
  unfold entry
  split
  · refine settles_bind settles_unread fun place _ => ?_
    exact settles_bind (settles_report htoo place) fun _ _ => settles_oneMore hparser read
  · exact settles_oneMore hparser read

theorem settles_entries {which : Entries} (htoo : quiet (.tooMany which))
    (hparser : Settles quiet size (fun _ => 1) parser) {turns : Nat} (hturns : size < turns) :
    Settles quiet size (fun _ => 0) (entries which parser turns) := by
  unfold entries
  have hturn (read : Array α) : Settles quiet size Turn.least (entry which parser read) :=
    (settles_entry htoo hparser read).mono (Nat.le_refl _) Turn.least_le_one
  have hread := settles_unlessSees (settles_iterate hturn hturns #[]) .rightParen
  refine settles_bind hread fun read _ => ?_
  cases read with
  | some read => exact settles_pure rfl
  | none => exact settles_pure rfl

end Parser

end Script
