import Script.Proofs.Output.Steps

/-!
# A sink that fills up

A sink with a limit takes what a sink without one would, up to the limit. As long as all fits, nothing else is
different; the first print that does not fit ends the program, and nothing is printed after it.

Output is only ever added to, so whether all fits is told by the end of the run without a limit. Of two steps, the
second one begins on the limited machine just if all that the first one writes fits. Otherwise the first one breaks
off, nothing catches its error, and what both would have written begins with the bytes that did fit.
-/

namespace Script

variable {α β : Type} {machine after : Machine} {limit : Nat}

/-! ### Bytes -/

/-- The first bytes are those of the first part alone. -/
theorem extract_append_of_le {bytes more : ByteArray} (h : limit ≤ bytes.size) :
    (bytes ++ more).extract 0 limit = bytes.extract 0 limit := by
  have hnone : more.extract (0 - bytes.size) (limit - bytes.size) = .empty :=
    ByteArray.extract_eq_empty_iff.mpr (by omega)
  rw [ByteArray.extract_append, hnone, ByteArray.append_empty]

theorem extract_of_size_le {bytes : ByteArray} (h : bytes.size ≤ limit) : bytes.extract 0 limit = bytes := by
  have hmax := ByteArray.extract_zero_max_size (a := bytes) (i := limit)
  rwa [Nat.max_eq_left h] at hmax

namespace Sink

/-- Some texts, each on a line. -/
def lines : List String → ByteArray
  | [] => .empty
  | text :: rest => (text ++ "\n").toUTF8 ++ lines rest

theorem lines_append (texts more : List String) : lines (texts ++ more) = lines texts ++ lines more := by
  induction texts with
  | nil => rw [List.nil_append, lines, ByteArray.empty_append]
  | cons text rest ih => rw [List.cons_append, lines, lines, ih, ByteArray.append_assoc]

/-- What some values are printed as. -/
def printed (values : List Value) : ByteArray :=
  lines (values.map Value.text)

theorem printed_nil : printed [] = .empty :=
  rfl

theorem printed_append (values more : List Value) : printed (values ++ more) = printed values ++ printed more := by
  rw [printed, List.map_append, lines_append, printed, printed]

theorem printed_singleton (value : Value) : printed [value] = (value.text ++ "\n").toUTF8 :=
  ByteArray.append_empty

/-- A sink without a limit takes all that is written. -/
theorem write_of_unlimited (sink : Sink) (h : sink.limit = none) (text : String) :
    sink.write text = (.ok (), { sink with written := sink.written ++ text.toUTF8 }) := by
  simp [write, fitting, h]

/-- A sink with a limit takes the first bytes, and fails unless these are all. -/
theorem write_of_limited (sink : Sink) (hle : sink.written.size ≤ limit) (text : String) :
    { sink with limit := some limit }.write text =
      (if (sink.written ++ text.toUTF8).size ≤ limit then .ok () else .error .full,
        { sink with written := (sink.written ++ text.toUTF8).extract 0 limit, limit := some limit }) := by
  generalize hbytes : text.toUTF8 = bytes
  have hwritten : sink.written ++ bytes.extract 0 (limit - sink.written.size) =
      (sink.written ++ bytes).extract 0 limit := by
    rw [ByteArray.extract_append, extract_of_size_le hle, Nat.zero_sub]
  have hall : (bytes.extract 0 (limit - sink.written.size)).size = bytes.size ↔
      (sink.written ++ bytes).size ≤ limit := by
    rw [ByteArray.size_extract, ByteArray.size_append]
    omega
  simp only [write, fitting, hbytes, hwritten, hall]

end Sink

/-- The machine with a limit to what its sink accepts. -/
def Machine.limited (machine : Machine) (limit : Nat) : Machine :=
  { machine with sink := { machine.sink with limit := some limit } }

namespace Eval.Steps

open Sink

/-- On the limited machine, the computation breaks off in a print that does not fit, after all those that do, and
leaves the first bytes of what it would write. -/
structure FillsUp {body : Eval α} (steps : Steps body) (machine : Machine) (limit : Nat) (before : List Value)
    (last : Value) (full : Machine) : Prop where
  fails : body (machine.limited limit) = .failed (.output .full) full
  environment : full.environment = machine.environment
  depth : full.depth = machine.depth
  sink : full.sink = { machine.sink with
    written := (machine.sink.written ++ printed (steps.log machine)).extract 0 limit, limit := some limit }
  log : ∃ rest, steps.log machine = before ++ last :: rest
  stops : steps.log (machine.limited limit) = before ++ [last]
  room : (machine.sink.written ++ printed before).size ≤ limit
  noRoom : limit < (machine.sink.written ++ printed (before ++ [last])).size

/-- What a limit makes of a computation that ends in the state `after` without one. -/
structure Truncated {body : Eval α} (steps : Steps body) (machine after : Machine) : Prop where
  environment : after.environment = machine.environment
  depth : after.depth = machine.depth
  sink : after.sink = { machine.sink with written := machine.sink.written ++ printed (steps.log machine) }
  fits : ∀ limit, after.sink.written.size ≤ limit →
    body (machine.limited limit) = (body machine).mapMachine (·.limited limit) ∧
      steps.log (machine.limited limit) = steps.log machine
  fillsUp : ∀ limit, machine.sink.written.size ≤ limit → limit < after.sink.written.size →
    ∃ before last full, steps.FillsUp machine limit before last full

/-- The computation does the same on machines with a limit, as far as they go. -/
def Truncates {body : Eval α} (steps : Steps body) : Prop :=
  ∀ machine value? after, machine.sink.limit = none → (body machine).Ends value? after → steps.Truncated machine after

/-! ### Steps -/

/-- A computation that leaves the sink alone, and does not look at it. -/
theorem Truncates.of_silent {body : Eval α} {steps : Steps body} (hlog : ∀ machine, steps.log machine = [])
    (hkept : ∀ machine value? after, (body machine).Ends value? after →
      after.environment = machine.environment ∧ after.depth = machine.depth ∧ after.sink = machine.sink)
    (hsame : ∀ machine limit, body (machine.limited limit) = (body machine).mapMachine (·.limited limit)) :
    steps.Truncates := by
  intro machine value? after _ hends
  obtain ⟨henvironment, hdepth, hsink⟩ := hkept machine value? after hends
  refine ⟨henvironment, hdepth, ?_, fun limit _ => ⟨hsame machine limit, ?_⟩, fun limit hle hlt => ?_⟩
  · rw [hlog, printed_nil, ByteArray.append_empty, hsink]
  · rw [hlog, hlog]
  · rw [hsink] at hlt
    omega

theorem truncates_flush : Truncates .flush := by
  refine .of_silent (fun _ => rfl) (fun machine value? after hends => ?_) fun machine limit => ?_
  · unfold Eval.flush at hends
    cases hflush : machine.sink.flush <;> rw [hflush] at hends <;> cases hends <;> exact ⟨rfl, rfl, rfl⟩
  · have hsame : (machine.limited limit).sink.flush = machine.sink.flush := rfl
    unfold Eval.flush
    rw [hsame]
    cases machine.sink.flush <;> rfl

theorem truncates_print (value : Value) : Truncates (.print value) := by
  intro machine value? after hunlimited hends
  have hwrite := machine.sink.write_of_unlimited hunlimited (value.text ++ "\n")
  simp only [Eval.print, hwrite] at hends
  cases hends
  have hlog : printed ((Steps.print value).log machine) = (value.text ++ "\n").toUTF8 := printed_singleton value
  refine ⟨rfl, rfl, by rw [hlog], fun limit hle => ⟨?_, rfl⟩, fun limit hle hlt => ?_⟩
  · have hstart : machine.sink.written.size ≤ limit := by
      rw [ByteArray.size_append] at hle
      omega
    have hlimited := machine.sink.write_of_limited hstart (value.text ++ "\n")
    rw [if_pos hle, extract_of_size_le hle] at hlimited
    simp only [Eval.print, Machine.limited, hlimited, hwrite, Outcome.mapMachine]
  · have hlimited := machine.sink.write_of_limited hle (value.text ++ "\n")
    rw [if_neg (Nat.not_le.mpr hlt)] at hlimited
    let full : Machine := { machine with sink := { machine.sink with
      written := (machine.sink.written ++ (value.text ++ "\n").toUTF8).extract 0 limit, limit := some limit } }
    refine ⟨[], value, full, ?_, rfl, rfl, by rw [hlog], ⟨[], rfl⟩, rfl, ?_, ?_⟩
    · simp only [Eval.print, Machine.limited, hlimited]
      rfl
    · rwa [printed_nil, ByteArray.append_empty]
    · rwa [List.nil_append, printed_singleton]

/-! ### Wholes and their parts -/

section Bind

variable {first : Eval α} {next : α → Eval β} {firstSteps : Steps first} {nextSteps : ∀ value, Steps (next value)}

theorem log_bind_of_done {given : α} (h : first machine = .done given after) :
    (Steps.bind firstSteps nextSteps).log machine = firstSteps.log machine ++ (nextSteps given).log after := by
  rw [log, h]

theorem log_bind_of_failed {error : RuntimeError} (h : first machine = .failed error after) :
    (Steps.bind firstSteps nextSteps).log machine = firstSteps.log machine := by
  rw [log, h]
  exact List.append_nil _

/-- If the first step fills the sink up, the second one does not begin. -/
theorem FillsUp.inFirst {before : List Value} {last : Value} {full : Machine}
    (h : firstSteps.FillsUp machine limit before last full)
    (hlog : ∃ more, (Steps.bind firstSteps nextSteps).log machine = firstSteps.log machine ++ more)
    (hlt : limit < (machine.sink.written ++ printed (firstSteps.log machine)).size) :
    (Steps.bind firstSteps nextSteps).FillsUp machine limit before last full := by
  obtain ⟨hfails, henvironment, hdepth, hsink, ⟨rest, hbefore⟩, hstops, hroom, hnoRoom⟩ := h
  obtain ⟨more, hmore⟩ := hlog
  refine ⟨?_, henvironment, hdepth, ?_, ⟨rest ++ more, ?_⟩, ?_, hroom, hnoRoom⟩
  · rw [bind_apply, hfails]
  · rw [hmore, printed_append, ← ByteArray.append_assoc, extract_append_of_le (Nat.le_of_lt hlt)]
    exact hsink
  · rw [hmore, hbefore, List.append_assoc, List.cons_append]
  · rw [log_bind_of_failed hfails, hstops]

/-- If all that the first step writes fits, the second one fills the sink up. -/
theorem FillsUp.inSecond {given : α} {middle full : Machine} {before : List Value} {last : Value}
    (hfirst : firstSteps.Truncated machine middle) (hdone : first machine = .done given middle)
    (hle : middle.sink.written.size ≤ limit) (h : (nextSteps given).FillsUp middle limit before last full) :
    (Steps.bind firstSteps nextSteps).FillsUp machine limit (firstSteps.log machine ++ before) last full := by
  obtain ⟨hfails, henvironment, hdepth, hsink, ⟨rest, hrest⟩, hstops, hroom, hnoRoom⟩ := h
  obtain ⟨hsame, hlogs⟩ := hfirst.fits limit hle
  rw [hdone] at hsame
  have hbytes (values : List Value) : machine.sink.written ++ printed (firstSteps.log machine ++ values) =
      middle.sink.written ++ printed values := by
    rw [printed_append, ← ByteArray.append_assoc, hfirst.sink]
  refine ⟨?_, henvironment.trans hfirst.environment, hdepth.trans hfirst.depth, ?_, ⟨rest, ?_⟩, ?_, by rwa [hbytes],
    by rwa [List.append_assoc, hbytes]⟩
  · rw [bind_apply, hsame]
    exact hfails
  · rw [log_bind_of_done hdone, hbytes, hsink, hfirst.sink]
  · rw [log_bind_of_done hdone, hrest, List.append_assoc]
  · rw [log_bind_of_done hsame, hstops, hlogs, List.append_assoc]

theorem Truncated.bind_of_failed {error : RuntimeError} (hfirst : firstSteps.Truncated machine after)
    (hfailed : first machine = .failed error after) : (Steps.bind firstSteps nextSteps).Truncated machine after := by
  obtain ⟨henvironment, hdepth, hsink, hfits, hfills⟩ := hfirst
  have hlog : (Steps.bind firstSteps nextSteps).log machine = firstSteps.log machine := log_bind_of_failed hfailed
  refine ⟨henvironment, hdepth, hlog ▸ hsink, fun limit hle => ?_, fun limit hle hlt => ?_⟩
  · obtain ⟨hsame, hlogs⟩ := hfits limit hle
    rw [hfailed] at hsame
    refine ⟨?_, ?_⟩
    · rw [bind_apply, bind_apply, hsame, hfailed]
      rfl
    · rw [log_bind_of_failed hsame, hlog, hlogs]
  · obtain ⟨before, last, full, h⟩ := hfills limit hle hlt
    exact ⟨before, last, full, h.inFirst ⟨[], by rw [hlog, List.append_nil]⟩ (by rwa [hsink] at hlt)⟩

theorem Truncated.bind_of_done {given : α} {middle : Machine} (hfirst : firstSteps.Truncated machine middle)
    (hdone : first machine = .done given middle) (hnext : (nextSteps given).Truncated middle after) :
    (Steps.bind firstSteps nextSteps).Truncated machine after := by
  have hlog : (Steps.bind firstSteps nextSteps).log machine =
      firstSteps.log machine ++ (nextSteps given).log middle := log_bind_of_done hdone
  have hsize : middle.sink.written.size ≤ after.sink.written.size := by
    rw [hnext.sink, ByteArray.size_append]
    omega
  refine ⟨hnext.environment.trans hfirst.environment, hnext.depth.trans hfirst.depth, ?_, fun limit hle => ?_,
    fun limit hle hlt => ?_⟩
  · rw [hnext.sink, hfirst.sink, hlog, printed_append, ByteArray.append_assoc]
  · obtain ⟨hsame, hlogs⟩ := hfirst.fits limit (Nat.le_trans hsize hle)
    obtain ⟨hsame', hlogs'⟩ := hnext.fits limit hle
    rw [hdone] at hsame
    refine ⟨?_, ?_⟩
    · rw [bind_apply, bind_apply, hsame, hdone]
      exact hsame'
    · rw [log_bind_of_done hsame, hlog, hlogs, hlogs']
  · -- The sink fills up in the second step, or else in the first one.
    by_cases hmore : middle.sink.written.size ≤ limit
    · obtain ⟨before, last, full, h⟩ := hnext.fillsUp limit hmore hlt
      exact ⟨_, last, full, h.inSecond hfirst hdone hmore⟩
    · have hmore := Nat.lt_of_not_le hmore
      obtain ⟨before, last, full, h⟩ := hfirst.fillsUp limit hle hmore
      exact ⟨before, last, full, h.inFirst ⟨_, hlog⟩ (by rwa [hfirst.sink] at hmore)⟩

theorem truncates_bind (hfirst : firstSteps.Truncates) (hnext : ∀ value, (nextSteps value).Truncates) :
    (Steps.bind firstSteps nextSteps).Truncates := by
  intro machine value? after hunlimited hends
  rcases ends_bind hends with ⟨error, hfailed, -⟩ | ⟨given, middle, hdone, hends⟩
  · exact (hfirst machine none after hunlimited (hfailed ▸ .failed error after)).bind_of_failed hfailed
  · have hmiddle := hfirst machine (some given) middle hunlimited (.of_done hdone)
    have hstill : middle.sink.limit = none := by rw [hmiddle.sink, hunlimited]
    exact hmiddle.bind_of_done hdone (hnext given middle value? after hstill hends)

end Bind

/-- A computation inside of which the environment and the depth of calls are others. -/
theorem Truncates.inside {body whole : Eval α} {steps : Steps body} {wholeSteps : Steps whole}
    (hbody : steps.Truncates) (enter : Machine → Machine) (leave : Machine → Machine → Machine)
    (hwhole : ∀ machine, whole machine = (body (enter machine)).mapMachine (leave machine))
    (hlog : ∀ machine, wholeSteps.log machine = steps.log (enter machine))
    (henter : ∀ machine, (enter machine).sink = machine.sink ∧
      ∀ limit, enter (machine.limited limit) = (enter machine).limited limit)
    (hleave : ∀ machine after, after.environment = (enter machine).environment → after.depth = (enter machine).depth →
      leave machine after = { after with environment := machine.environment, depth := machine.depth }) :
    wholeSteps.Truncates := by
  intro machine value? after hunlimited hends
  rw [hwhole] at hends
  obtain ⟨inner, hinner, rfl⟩ := Outcome.ends_mapMachine_iff.mp hends
  obtain ⟨hsame, hlimited⟩ := henter machine
  obtain ⟨henvironment, hdepth, hsink, hfits, hfills⟩ :=
    hbody (enter machine) value? inner (hsame ▸ hunlimited) hinner
  rw [hleave machine inner henvironment hdepth]
  refine ⟨rfl, rfl, ?_, fun limit hle => ⟨?_, ?_⟩, fun limit hle hlt => ?_⟩
  · rw [hlog]
    exact hsame ▸ hsink
  · have hback : leave (machine.limited limit) (inner.limited limit) = (leave machine inner).limited limit := by
      rw [hleave machine inner henvironment hdepth, hleave]
      · rfl
      · rw [hlimited]
        exact henvironment
      · rw [hlimited]
        exact hdepth
    rw [hwhole, hwhole, hlimited, (hfits limit hle).1]
    cases hrun : body (enter machine) <;> rw [hrun] at hinner <;> cases hinner <;>
      simp only [Outcome.mapMachine, hback]
  · rw [hlog, hlog, hlimited, (hfits limit hle).2]
  · obtain ⟨before, last, full, hfails, hback, hcalls, hfull, hbefore, hstops, hroom, hnoRoom⟩ :=
      hfills limit (hsame ▸ hle) hlt
    rw [hsame] at hfull hroom hnoRoom
    refine ⟨before, last, { full with environment := machine.environment, depth := machine.depth }, ?_, rfl, rfl,
      by rw [hlog, hfull], by rwa [hlog], by rwa [hlog, hlimited], hroom, hnoRoom⟩
    rw [hwhole, hlimited, hfails, Outcome.mapMachine, hleave]
    · rfl
    · rw [hlimited]
      exact hback
    · rw [hlimited]
      exact hcalls

theorem truncates_within (inner : Environment) {body : Eval α} {steps : Steps body} (hbody : steps.Truncates) :
    (Steps.within inner steps).Truncates :=
  hbody.inside (fun machine => { machine with environment := inner })
    (fun machine after => { after with environment := machine.environment }) (fun _ => rfl) (fun _ => rfl)
    (fun _ => ⟨rfl, fun _ => rfl⟩) fun _ after _ hdepth => by rw [← hdepth]

theorem truncates_counted {body : Eval α} {steps : Steps body} (hbody : steps.Truncates) :
    (Steps.counted steps).Truncates :=
  hbody.inside (fun machine => { machine with depth := machine.depth + 1 })
    (fun machine after => { after with depth := machine.depth }) (fun _ => rfl) (fun _ => rfl)
    (fun _ => ⟨rfl, fun _ => rfl⟩) fun _ after henvironment _ => by rw [← henvironment]

/-- A computation that is chosen by what a limit does not change. -/
theorem Truncates.of_same {body whole : Eval α} {steps : Steps body} {wholeSteps : Steps whole}
    (hbody : steps.Truncates) {chosen : Machine → Prop}
    (hchosen : ∀ machine, chosen machine → whole machine = body machine ∧ wholeSteps.log machine = steps.log machine)
    (hlimited : ∀ machine limit, chosen machine → chosen (machine.limited limit)) {value? : Option α}
    (hthis : chosen machine) (hunlimited : machine.sink.limit = none) (hends : (whole machine).Ends value? after) :
    wholeSteps.Truncated machine after := by
  obtain ⟨hwhole, hlog⟩ := hchosen machine hthis
  rw [hwhole] at hends
  obtain ⟨henvironment, hdepth, hsink, hfits, hfills⟩ := hbody machine value? after hunlimited hends
  refine ⟨henvironment, hdepth, hlog ▸ hsink, fun limit hle => ?_, fun limit hle hlt => ?_⟩
  · obtain ⟨hwhole', hlog'⟩ := hchosen _ (hlimited machine limit hthis)
    rw [hwhole', hlog', hwhole, hlog]
    exact hfits limit hle
  · obtain ⟨hwhole', hlog'⟩ := hchosen _ (hlimited machine limit hthis)
    obtain ⟨before, last, full, hfails, hback, hcalls, hfull, hbefore, hstops, hroom, hnoRoom⟩ := hfills limit hle hlt
    exact ⟨before, last, full, hwhole' ▸ hfails, hback, hcalls, hlog ▸ hfull, hlog ▸ hbefore, hlog' ▸ hstops, hroom,
      hnoRoom⟩

theorem truncates_fail (error : RuntimeError) : Truncates (.fail error : Steps (Eval.fail error : Eval α)) := by
  refine .of_silent (fun _ => rfl) (fun machine value? after hends => ?_) fun _ _ => rfl
  cases hends
  exact ⟨rfl, rfl, rfl⟩

theorem truncates_guarded (error : RuntimeError) {body : Eval α} {steps : Steps body} (hbody : steps.Truncates) :
    (Steps.guarded error steps).Truncates := by
  intro machine value? after hunlimited hends
  by_cases hdepth : machine.depth < maxCallDepth
  · exact hbody.of_same (fun _ hdepth => ⟨if_pos hdepth, if_pos hdepth⟩) (fun _ _ => id) hdepth hunlimited hends
  · exact (truncates_fail error).of_same (fun _ hdepth => ⟨if_neg hdepth, if_neg hdepth⟩) (fun _ _ => id) hdepth
      hunlimited hends

theorem truncates_ite (condition : Prop) [Decidable condition] {yes no : Eval α} {yesSteps : Steps yes}
    {noSteps : Steps no} (hyes : yesSteps.Truncates) (hno : noSteps.Truncates) :
    (Steps.ite condition yesSteps noSteps).Truncates := by
  intro machine value? after hunlimited hends
  by_cases h : condition
  · exact hyes.of_same (fun _ h => ⟨congrFun (if_pos h) _, if_pos h⟩) (fun _ _ => id) h hunlimited hends
  · exact hno.of_same (fun _ h => ⟨congrFun (if_neg h) _, if_neg h⟩) (fun _ _ => id) h hunlimited hends

/-- Every computation truncates, as it is made of steps that do. -/
theorem truncates {body : Eval α} (steps : Steps body) : steps.Truncates := by
  induction steps with
  | exhausted =>
      intro machine value? after _ hends
      cases hends
  | pure | environment | read | change | clock =>
      refine .of_silent (fun _ => rfl) (fun machine value? after hends => ?_) fun _ _ => rfl
      cases hends
      exact ⟨rfl, rfl, rfl⟩
  | fail error => exact truncates_fail error
  | print value => exact truncates_print value
  | flush => exact truncates_flush
  | bind _ _ hfirst hnext => exact truncates_bind hfirst hnext
  | within inner _ hbody => exact truncates_within inner hbody
  | counted _ hbody => exact truncates_counted hbody
  | guarded error _ hbody => exact truncates_guarded error hbody
  | ite condition _ _ hyes hno => exact truncates_ite condition hyes hno

end Eval.Steps

/-! ### Programs -/

/-- The machine with an empty sink that accepts so many bytes, or all if there is no limit. -/
def Machine.writingTo (machine : Machine) (limit? : Option Nat) : Machine :=
  { machine with sink := { limit := limit? } }

/-- What becomes of a program on a sink with a limit, given how it ends on one without. -/
structure CutShort (level : Nat) (program : List Stmt) (machine : Machine) (limit : Nat) (after : Machine) : Prop where
  /-- The sink is left with the first bytes. -/
  written : ∃ value? last, (interpret level program (machine.writingTo (some limit))).Ends value? last ∧
    last.sink.written = after.sink.written.extract 0 (min limit after.sink.written.size)
  /-- If all fits, the program ends in the same way and in the same state. -/
  fits : after.sink.written.size ≤ limit →
    interpret level program (machine.writingTo (some limit)) =
      (interpret level program (machine.writingTo none)).mapMachine (·.limited limit)
  /-- If not all fits, the program fails with an error of the output, outside of all blocks and calls. -/
  overflows : limit < after.sink.written.size →
    ∃ full, interpret level program (machine.writingTo (some limit)) = .failed (.output .full) full ∧
      (RuntimeError.output .full).line = 0 ∧ full.environment = machine.environment ∧ full.depth = machine.depth
  /-- All that is written without a limit is what is printed. -/
  printed : after.sink.written = Sink.printed ((interpretSteps level program).log (machine.writingTo none))
  /-- If not all fits, nothing is printed after the first value that does not fit. -/
  stops : limit < after.sink.written.size →
    ∃ before last rest, (interpretSteps level program).log (machine.writingTo none) = before ++ last :: rest ∧
      (interpretSteps level program).log (machine.writingTo (some limit)) = before ++ [last] ∧
      (Sink.printed before).size ≤ limit ∧ limit < (Sink.printed (before ++ [last])).size

/-- What a program writes is what it prints. -/
theorem interpret_written {level : Nat} {program : List Stmt} {unit? : Option Unit}
    (hends : (interpret level program (machine.writingTo none)).Ends unit? after) :
    after.sink.written = Sink.printed ((interpretSteps level program).log (machine.writingTo none)) := by
  have hsink := ((interpretSteps level program).truncates _ unit? after rfl hends).sink
  rw [hsink]
  exact ByteArray.empty_append

/-- A sink that fills up cuts the output of a program short, and changes nothing else. -/
theorem interpret_cutShort {level : Nat} {program : List Stmt} {unit? : Option Unit}
    (hends : (interpret level program (machine.writingTo none)).Ends unit? after) (limit : Nat) :
    CutShort level program machine limit after := by
  obtain ⟨henvironment, hdepth, hsink, hfits, hfills⟩ :=
    (interpretSteps level program).truncates (machine.writingTo none) unit? after rfl hends
  have hprinted := interpret_written hends
  have hempty (bytes : ByteArray) : (machine.writingTo none).sink.written ++ bytes = bytes := ByteArray.empty_append
  have hover := hfills limit (Nat.zero_le limit)
  refine ⟨?_, fun hle => (hfits limit hle).1, fun hlt => ?_, hprinted, fun hlt => ?_⟩
  · rcases Nat.lt_or_ge limit after.sink.written.size with hlt | hle
    · obtain ⟨before, last, full, h⟩ := hover hlt
      refine ⟨none, full, ?_, ?_⟩
      · exact h.fails ▸ .failed _ full
      · rw [h.sink, hempty, Nat.min_eq_left (Nat.le_of_lt hlt), hprinted]
    · refine ⟨unit?, after.limited limit, ?_, ?_⟩
      · have hsame := (hfits limit hle).1
        exact hsame ▸ Outcome.ends_mapMachine_iff.mpr ⟨after, hends, rfl⟩
      · rw [Nat.min_eq_right hle, extract_of_size_le (Nat.le_refl _)]
        rfl
  · obtain ⟨before, last, full, h⟩ := hover hlt
    exact ⟨full, h.fails, rfl, h.environment, h.depth⟩
  · obtain ⟨before, last, full, h⟩ := hover hlt
    obtain ⟨rest, hrest⟩ := h.log
    have hroom := h.room
    have hnoRoom := h.noRoom
    rw [hempty] at hroom hnoRoom
    exact ⟨before, last, rest, hrest, h.stops, hroom, hnoRoom⟩

/-- The second line is cut off inside the call that prints it, and the call is left. -/
theorem interpret_cutShort_insideCall :
    let parsed := readProgram "func f() \x7b print \"ab\"; print \"cd\"; \x7d f();"
    let program := parsed.tree
    let machine := Machine.start {} 0
    parsed.diagnostics = [] ∧ ∃ after full, (interpret 8 program (machine.writingTo none)).Ends (some ()) after ∧
      after.sink.written = "ab\ncd\n".toUTF8 ∧ CutShort 8 program machine 4 after ∧
      interpret 8 program (machine.writingTo (some 4)) = .failed (.output .full) full ∧
      full.sink.written = "ab\nc".toUTF8 ∧ full.depth = 0 := by
  intro parsed program machine
  refine ⟨by decide +kernel, ?_⟩
  have hrun : (interpret 8 program (machine.writingTo none)).machine?.map (·.sink.written) =
      some "ab\ncd\n".toUTF8 := by
    decide +kernel
  obtain ⟨after, hafter, hwritten⟩ := Option.map_eq_some_iff.mp hrun
  obtain ⟨_, hdone⟩ := Outcome.exists_of_machine? hafter
  have hends := Outcome.Ends.of_done hdone
  have hcut := interpret_cutShort hends 4
  obtain ⟨full, hfails, -, -, hdepth⟩ := hcut.overflows (by rw [hwritten]; decide +kernel)
  obtain ⟨_, last, hlast, hleft⟩ := hcut.written
  rw [hfails] at hlast
  cases hlast
  refine ⟨after, full, hends, hwritten, hcut, hfails, ?_, hdepth⟩
  rw [hleft, hwritten]
  decide +kernel

end Script
