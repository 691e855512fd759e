import Script.Proofs.Discipline.Operations
import Script.Proofs.Properties.Log

/-!
# A run is its log, as far as fields go

Between the events of a log no field changes, and each event does just what it says. So the fields after a run
are those before it with what is written in its log.
-/

namespace Script

variable {ε δ α β : Type}

/-! ### Silence -/

/-- All fields of all objects are the same. -/
def Machine.SameFields (before after : Machine) : Prop :=
  ∀ id, after.store.fields id = before.store.fields id

theorem Machine.SameFields.refl (machine : Machine) : machine.SameFields machine :=
  fun _ => rfl

theorem Machine.SameFields.trans {first second third : Machine} (h : first.SameFields second)
    (h' : second.SameFields third) : first.SameFields third :=
  fun id => (h' id).trans (h id)

/-- However the computation ends, no field has changed. -/
def Eval.Silent (body : Eval α) : Prop :=
  ∀ machine value? after, (body machine).Ends value? after → machine.SameFields after

namespace Eval

theorem silent_pure (value : α) : Silent (pure value) := by
  intro machine value? after hends
  cases hends
  exact .refl machine

theorem silent_fail (error : RuntimeError) : Silent (fail error : Eval α) := by
  intro machine value? after hends
  cases hends
  exact .refl machine

theorem silent_exhausted : Silent (exhausted : Eval α) := by
  intro machine value? after hends
  cases hends

theorem silent_bind {first : Eval α} {next : α → Eval β} (hfirst : first.Silent)
    (hnext : ∀ value, (next value).Silent) : Silent (first >>= next) := by
  intro machine value? after hends
  rcases ends_bind hends with ⟨error, hrun, rfl⟩ | ⟨value, middle, hrun, hends⟩
  · exact hfirst machine none after (hrun ▸ .failed error after)
  · exact (hfirst machine (some value) middle (hrun ▸ .done value middle)).trans
      (hnext value middle value? after hends)

theorem silent_environment : Silent environment := by
  intro machine value? after hends
  cases hends
  exact .refl machine

theorem silent_read (f : Store → α) : Silent (read f) := by
  intro machine value? after hends
  cases hends
  exact .refl machine

theorem silent_change {f : Store → α × Store} (hf : ∀ store id, (f store).2.fields id = store.fields id) :
    Silent (change f) := by
  intro machine value? after hends
  cases hends
  exact hf machine.store

theorem silent_define (name : String) (value : Value) : Silent (define name value) :=
  silent_bind silent_environment fun _ => silent_change fun _ _ => rfl

theorem silent_assign (name : Token) (value : Value) : Silent (assign name value) := by
  refine silent_bind silent_environment fun environment => silent_bind (silent_read _) fun scope? => ?_
  cases scope? with
  | some scope => exact silent_change fun _ _ => rfl
  | none => exact silent_fail _

theorem silent_lookup (name : Token) : Silent (lookup name) := by
  refine silent_bind silent_environment fun environment => silent_bind (silent_read _) fun value? => ?_
  cases value? with
  | some value => exact silent_pure value
  | none => exact silent_fail _

theorem silent_ofOperator (operator : Token) (result : Except OperandFault Value) :
    Silent (ofOperator operator result) := by
  cases result with
  | ok value => exact silent_pure value
  | error fault => exact silent_fail _

theorem silent_print (value : Value) : Silent (print value) := by
  intro machine value? after hends
  unfold print at hends
  cases hwrite : machine.sink.write (value.text ++ "\n") with
  | mk result sink =>
      simp only [hwrite] at hends
      cases result <;> cases hends <;> exact .refl machine

theorem silent_flush : Silent flush := by
  intro machine value? after hends
  unfold flush at hends
  cases hflush : machine.sink.flush <;> rw [hflush] at hends <;> cases hends <;> exact .refl machine

end Eval

theorem Function.silent_bind (method : Function) (object : Instance) : (method.bind object).Silent :=
  Eval.silent_change fun _ _ => rfl

theorem Class.silent_instantiate (c : Class) : c.instantiate.Silent :=
  Eval.silent_bind (Eval.silent_change fun store id => store.fields_addObject id) fun _ => Eval.silent_pure _

theorem Instance.silent_get (object : Instance) (name : Token) : (object.get name).Silent := by
  refine Eval.silent_bind (Eval.silent_read _) fun value? => ?_
  cases value? with
  | some value => exact Eval.silent_pure value
  | none =>
      simp only
      cases object.cls.method? name.lexeme with
      | some method => exact Eval.silent_bind (method.silent_bind object) fun _ => Eval.silent_pure _
      | none => exact Eval.silent_fail _

/-! ### Courses -/

/-- The events lead from the first state to the last: none of the fields changes in between. -/
def Course (p : Event → Prop) : Machine → List Event → Machine → Prop
  | before, [], after => before.SameFields after
  | before, event :: events, after => before.SameFields event.machine ∧ p event ∧ Course p event.next events after

namespace Course

variable {p : Event → Prop} {before middle after : Machine} {events more : List Event}

theorem of_sameFields {first : Machine} (h : Course p before events after) (hsame : first.SameFields before) :
    Course p first events after := by
  cases events with
  | nil => exact hsame.trans h
  | cons event events => exact ⟨hsame.trans h.1, h.2⟩

theorem to_sameFields {last : Machine} (h : Course p before events after) (hsame : after.SameFields last) :
    Course p before events last := by
  induction events generalizing before with
  | nil => exact h.trans hsame
  | cons event events ih => exact ⟨h.1, h.2.1, ih h.2.2⟩

theorem append (h : Course p before events middle) (hmore : Course p middle more after) :
    Course p before (events ++ more) after := by
  induction events generalizing before with
  | nil => exact hmore.of_sameFields h
  | cons event events ih => exact ⟨h.1, h.2.1, ih h.2.2⟩

theorem mono {q : Event → Prop} (h : Course p before events after) (hpq : ∀ event, p event → q event) :
    Course q before events after := by
  induction events generalizing before with
  | nil => exact h
  | cons event events ih => exact ⟨h.1, hpq _ h.2.1, ih h.2.2⟩

theorem forall_mem (h : Course p before events after) : ∀ event ∈ events, p event := by
  induction events generalizing before with
  | nil => exact List.forall_mem_nil _
  | cons event events ih => exact List.forall_mem_cons.mpr ⟨h.2.1, ih h.2.2⟩

/-- An event finds the fields as those before it leave them. -/
theorem of_append_cons {event : Event} (h : Course p before (events ++ event :: more) after) :
    Course p before events event.machine ∧ p event ∧ Course p event.next more after := by
  induction events generalizing before with
  | nil => exact h
  | cons first events ih =>
      obtain ⟨hsame, hfirst, hrest⟩ := h
      obtain ⟨hbefore, hevent, hafter⟩ := ih hrest
      exact ⟨⟨hsame, hfirst, hbefore⟩, hevent, hafter⟩

end Course

theorem Event.get?_next {event : Event} (h : event.object.id < event.machine.store.objects.size) (id : Nat)
    (name : String) : (event.next.store.fields id).get? name =
      (event.writes? id name).or ((event.machine.store.fields id).get? name) := by
  unfold next writes?
  cases event.written? with
  | none => simp
  | some value =>
      simp only [Option.elim, Machine.withField, Store.fields_setField]
      by_cases hid : event.object.id = id
      · subst hid
        by_cases hname : event.name.lexeme = name
        · simp [h, hname, Bindings.get?_set]
        · simp [h, hname, Ne.symm hname, Bindings.get?_set]
      · simp [hid, Ne.symm hid]

/-- A field holds what is written to it last, or else what it held at the start. -/
theorem Course.get?_eq {p : Event → Prop} {before after : Machine} {events : List Event}
    (h : Course p before events after)
    (hobjects : ∀ event, p event → event.object.id < event.machine.store.objects.size) (id : Nat)
    (name : String) : (after.store.fields id).get? name =
      (lastWritten? events id name).or ((before.store.fields id).get? name) := by
  induction events generalizing before with
  | nil => rw [h id, lastWritten?, List.reverse_nil, List.findSome?_nil, Option.none_or]
  | cons event events ih =>
      obtain ⟨hsame, hevent, hrest⟩ := h
      rw [ih hrest, Event.get?_next (hobjects event hevent), hsame id, ← Option.or_assoc]
      congr 1
      rw [lastWritten?, lastWritten?, List.reverse_cons, List.findSome?_append, List.findSome?_singleton]

/-! ### Logs of computations -/

theorem Log.bind_none (first : Eval α) (log : Log) : (Log.bind first log fun _ => .none) = log := by
  funext machine
  unfold Log.bind Log.none
  cases first machine <;> exact List.append_nil _

namespace Discipline

variable {W : Type} [Preorder W] {d : Discipline W} {world : W} {environment : Environment}

/-- The event is about an object that is as it should be, in a state that has been good. -/
def Known (d : Discipline W) (world : W) (event : Event) : Prop :=
  ∃ earlier, earlier ≤ world ∧ d.Good earlier event.machine ∧ d.object earlier event.object

theorem Known.mono {later : W} {event : Event} (hle : world ≤ later) (h : d.Known world event) :
    d.Known later event := by
  obtain ⟨earlier, hearlier, hgood, hobject⟩ := h
  exact ⟨earlier, le_trans hearlier hle, hgood, hobject⟩

/-- The events lead on from the state, even if the outcome is that the computation does not end. If it does
end, then where they lead, in a good state and in the environment. -/
def Tracks (d : Discipline W) (world : W) (environment : Environment) (machine : Machine)
    (outcome : Outcome ε α) (events : List Event) (post : W → α → Prop) : Prop :=
  ∃ later after, world ≤ later ∧ Course (d.Known later) machine events after ∧
    ∀ value? last, outcome.Ends value? last →
      last = after ∧ d.Good later after ∧ after.environment = environment ∧ ∀ value ∈ value?, post later value

/-- From any good state in the environment, what the computation does is in the log. -/
def Follows (d : Discipline W) (world : W) (environment : Environment) (body : Eval α) (log : Log)
    (post : W → α → Prop) : Prop :=
  ∀ machine, d.Good world machine → machine.environment = environment →
    d.Tracks world environment machine (body machine) (log machine) post

section Laws

variable {post : W → α → Prop} {last : W → β → Prop}

theorem Tracks.of_le {earlier : W} {machine : Machine} {outcome : Outcome ε α} {events : List Event}
    (h : d.Tracks world environment machine outcome events post) (hle : earlier ≤ world) :
    d.Tracks earlier environment machine outcome events post := by
  obtain ⟨later, after, hle', h⟩ := h
  exact ⟨later, after, le_trans hle hle', h⟩

/-- Entering and leaving changes no fields. -/
theorem Tracks.mapMachine {inner : Environment} {machine entered : Machine} {outcome : Outcome ε α}
    {events : List Event} {leave : Machine → Machine} (h : d.Tracks world inner entered outcome events post)
    (henter : machine.SameFields entered) (hleave : ∀ last : Machine, last.SameFields (leave last))
    (hgood : ∀ later last, d.Good later last → last.environment = inner →
      d.Good later (leave last) ∧ (leave last).environment = environment) :
    d.Tracks world environment machine (outcome.mapMachine leave) events post := by
  obtain ⟨later, after, hle, hcourse, hends⟩ := h
  refine ⟨later, leave after, hle, (hcourse.of_sameFields henter).to_sameFields (hleave after), ?_⟩
  intro value? last hlast
  obtain ⟨middle, hmiddle, rfl⟩ := Outcome.ends_mapMachine_iff.mp hlast
  obtain ⟨rfl, hafter, hback, hvalue⟩ := hends value? middle hmiddle
  obtain ⟨hafter, hback⟩ := hgood later middle hafter hback
  exact ⟨rfl, hafter, hback, hvalue⟩

theorem Tracks.mapError {machine : Machine} {outcome : Outcome ε α} {events : List Event}
    (h : d.Tracks world environment machine outcome events post) (f : ε → δ) :
    d.Tracks world environment machine (outcome.mapError f) events post := by
  obtain ⟨later, after, hle, hcourse, hends⟩ := h
  exact ⟨later, after, hle, hcourse, fun value? last hlast =>
    hends value? last (Outcome.ends_mapError_iff.mp hlast)⟩

/-- Nothing is done where a request is refused. -/
theorem tracks_failed {machine : Machine} (error : ε) (hgood : d.Good world machine)
    (henvironment : machine.environment = environment) :
    d.Tracks world environment machine (.failed error machine) [] post := by
  refine ⟨world, machine, le_refl world, .refl machine, fun value? last hends => ?_⟩
  cases hends
  exact ⟨rfl, hgood, henvironment, fun value hmem => absurd hmem (Option.not_mem_none value)⟩

theorem Follows.keeps {body : Eval α} {log : Log} (h : d.Follows world environment body log post) :
    d.Keeps world environment body post := by
  intro machine value? after hgood henvironment hends
  obtain ⟨later, last, hle, -, hlast⟩ := h machine hgood henvironment
  obtain ⟨rfl, hafter, hback, hvalue⟩ := hlast value? after hends
  exact ⟨later, hle, hafter, hback, hvalue⟩

theorem Keeps.follows {body : Eval α} (h : d.Keeps world environment body post) (hsilent : body.Silent) :
    d.Follows world environment body .none post := by
  intro machine hgood henvironment
  by_cases hall : ∃ value? after, (body machine).Ends value? after
  · obtain ⟨value?, after, hends⟩ := hall
    obtain ⟨later, hle, hafter, hback, hvalue⟩ := h machine value? after hgood henvironment hends
    refine ⟨later, after, hle, hsilent machine value? after hends, fun other? last hother => ?_⟩
    obtain ⟨rfl, rfl⟩ := hends.unique hother
    exact ⟨rfl, hafter, hback, hvalue⟩
  · exact ⟨world, machine, le_refl world, .refl machine, fun value? last hends => absurd ⟨_, _, hends⟩ hall⟩

theorem follows_bind {first : Eval α} {next : α → Eval β} {log : Log} {nextLog : α → Log}
    (hfirst : d.Follows world environment first log post)
    (hnext : ∀ later value, world ≤ later → post later value →
      d.Follows later environment (next value) (nextLog value) last) :
    d.Follows world environment (first >>= next) (.bind first log nextLog) last := by
  intro machine hgood henvironment
  obtain ⟨later, middle, hle, hcourse, hmiddle⟩ := hfirst machine hgood henvironment
  unfold Log.bind
  rw [Eval.bind_apply]
  cases hrun : first machine with
  | exhausted =>
      refine ⟨later, middle, hle, by simpa using hcourse, fun value? last hends => ?_⟩
      cases hends
  | failed error after =>
      obtain ⟨rfl, hafter, hback, -⟩ := hmiddle none after (hrun ▸ .failed error after)
      refine ⟨later, after, hle, by simpa using hcourse, fun value? last hends => ?_⟩
      cases hends
      exact ⟨rfl, hafter, hback, fun value hmem => absurd hmem (Option.not_mem_none value)⟩
  | done value after =>
      obtain ⟨rfl, hafter, hback, hvalue⟩ := hmiddle (some value) after (hrun ▸ .done value after)
      obtain ⟨final, last, hle', hmore, hends⟩ :=
        hnext later value hle (hvalue value rfl) after hafter hback
      exact ⟨final, last, le_trans hle hle', (hcourse.mono fun _ => Known.mono hle').append hmore, hends⟩

/-- What comes after the events of a computation, and is silent, does not show in the log. -/
theorem follows_bind_silent {first : Eval α} {next : α → Eval β} {log : Log}
    (hfirst : d.Follows world environment first log post)
    (hnext : ∀ later value, world ≤ later → post later value →
      d.Keeps later environment (next value) last) (hsilent : ∀ value, (next value).Silent) :
    d.Follows world environment (first >>= next) log last := by
  have hall : d.Follows world environment (first >>= next) (.bind first log fun _ => .none) last :=
    follows_bind hfirst fun later value hle hvalue =>
      (hnext later value hle hvalue).follows (hsilent value)
  rwa [Log.bind_none] at hall

theorem follows_exhausted : d.Follows world environment Eval.exhausted .none post :=
  keeps_exhausted.follows Eval.silent_exhausted

theorem follows_pure {value : α} (hvalue : post world value) :
    d.Follows world environment (pure value) .none post :=
  (keeps_pure hvalue).follows (Eval.silent_pure value)

theorem follows_counted {body : Eval α} {log : Log} (hbody : d.Follows world environment body log post) :
    d.Follows world environment (Eval.counted body)
      (fun machine => log { machine with depth := machine.depth + 1 }) post := by
  intro machine hgood henvironment
  have hinner := hbody _ (hgood.elsewhere _ (machine.depth + 1) machine.time) henvironment
  refine hinner.mapMachine (fun _ => rfl) (fun _ _ => rfl) fun later last hgood hback => ?_
  exact ⟨hgood.elsewhere last.environment machine.depth last.time, hback⟩

theorem follows_entered {enter : Machine → Machine} {body : Eval α} {log : Log}
    (hsame : ∀ machine : Machine, machine.SameFields (enter machine))
    (henter : ∀ machine, d.Good world machine → machine.environment = environment →
      ∃ later, world ≤ later ∧ d.Good later (enter machine) ∧
        d.Follows later (enter machine).environment body log post) :
    d.Follows world environment (Eval.entered enter body) (fun machine => log (enter machine)) post := by
  intro machine hgood henvironment
  obtain ⟨later, hle, hinner, hbody⟩ := henter machine hgood henvironment
  refine Tracks.of_le ((hbody _ hinner rfl).mapMachine (hsame machine) (fun _ _ => rfl) ?_) hle
  exact fun later last hgood _ => ⟨hgood.elsewhere machine.environment last.depth last.time, henvironment⟩

end Laws

end Discipline

end Script
