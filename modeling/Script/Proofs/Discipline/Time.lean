import Script.Proofs.Discipline.Moments

/-!
# Worlds go with time

Of a discipline whose worlds can be told by the state: the later of two states of a session has the later
world.
-/

namespace Script

theorem Moment.ends_unique {moment : Moment} {values values' : List Value} {after after' : Machine}
    (h : moment.Ends values after) (h' : moment.Ends values' after') : after = after' := by
  have hends {ε α : Type} {outcome : Outcome ε α} {value? value?' : Option α}
      (h : outcome.Ends value? after) (h' : outcome.Ends value?' after') : after = after' := by
    cases h <;> cases h' <;> rfl
  cases h with
  | eval hrun =>
      cases h' with
      | eval hrun' => exact hends hrun hrun'
  | exec hrun =>
      cases h' with
      | exec hrun' => exact hends hrun hrun'

namespace Discipline

variable {W : Type} [Preorder W] {d : Discipline W} {world : W}

/-- What a discipline says of the start of a task, it says of all states while the task is in progress. -/
theorem Good.throughout {moment : Moment} {machine : Machine} (hgood : d.Good world moment.machine)
    (hfits : d.Fits world moment) (hpasses : moment.Passes machine) :
    ∃ later, world ≤ later ∧ d.Good later machine := by
  induction hpasses generalizing world with
  | start moment => exact ⟨world, le_refl world, hgood⟩
  | stop hends =>
      obtain ⟨later, hle, hlater, -⟩ := hgood.ends hfits hends
      exact ⟨later, hle, hlater⟩
  | inside hstarts _ ih =>
      obtain ⟨begun, hle, hnested⟩ := hfits.starts hgood hstarts
      obtain ⟨later, hle', hlater⟩ := ih hnested.good hnested.fits
      exact ⟨later, le_trans hle hle', hlater⟩

section Told

variable (htold : ∀ world world' machine, d.state world machine → d.state world' machine → world = world')

include htold

theorem Good.passes {moment : Moment} {machine after : Machine} {values : List Value}
    (hgood : d.Good world moment.machine) (hfits : d.Fits world moment) (hpasses : moment.Passes machine)
    (hends : moment.Ends values after) :
    ∃ middle later, world ≤ middle ∧ middle ≤ later ∧ d.Good middle machine ∧ d.Good later after := by
  induction hpasses generalizing world values after with
  | start moment =>
      obtain ⟨later, hle, hlater, -⟩ := hgood.ends hfits hends
      exact ⟨world, later, le_refl world, hle, hgood, hlater⟩
  | stop hends' =>
      obtain ⟨later, hle, hlater, -⟩ := hgood.ends hfits hends'
      rw [Moment.ends_unique hends hends']
      exact ⟨later, later, hle, le_refl later, hlater, hlater⟩
  | inside hstarts _ ih =>
      obtain ⟨begun, hle, hnested⟩ := hfits.starts hgood hstarts
      obtain ⟨values', last, hinner, hrest⟩ := hnested.returns values after hends
      obtain ⟨middle, ended, hle₁, hle₂, hmiddle, hended⟩ := ih hnested.good hnested.fits hinner
      obtain ⟨ended', -, hended', hback, hvalues⟩ := hnested.good.ends hnested.fits hinner
      obtain rfl := htold ended ended' last hended.state hended'.state
      obtain ⟨later, hle₃, hlater⟩ := hrest ended (le_trans hle₁ hle₂) hended hback hvalues
      exact ⟨middle, later, le_trans hle hle₁, le_trans hle₂ hle₃, hmiddle, hlater⟩

theorem Admits.leads {requests : List Request} {machine after : Machine}
    (hadmits : d.Admits world requests) (h : Leads requests machine after) :
    ∃ middle later, world ≤ middle ∧ middle ≤ later ∧ d.Good middle machine ∧ d.Good later after := by
  cases h with
  | begins h hprogram hbefore =>
      obtain ⟨middle, hle, hgood, htop, -⟩ := hadmits.tail.session h
      have htasks := hadmits.tasks _ List.mem_cons_self
      rw [hprogram, List.forall_mem_map] at htasks
      obtain ⟨later, hle', hlater, -⟩ := hgood.sequence (fun statement hmem => htop ▸
        d.task_mono hle (htasks statement (List.mem_append_left _ hmem))) hbefore
      exact ⟨middle, later, hle, hle', hgood, hlater⟩
  | starts h hstarts =>
      obtain ⟨middle, hle, hgood, hfits, -⟩ := hadmits.inProgress h
      obtain ⟨later, hle', hnested⟩ := (hfits _ List.mem_cons_self).starts (hgood _ rfl) hstarts
      exact ⟨middle, later, hle, hle', hgood _ rfl, hnested.good⟩
  | enters h hvalues harity hdepth hcalls =>
      obtain ⟨begun, hle, hgood, hfits, -⟩ := hadmits.inProgress h
      obtain ⟨middle, hle₁, hcalled, -, hheld⟩ := (hgood _ rfl).values
        (fun part hmem => d.part (hfits _ List.mem_cons_self).task (List.mem_map_of_mem hmem)) hvalues
      obtain ⟨hcallable, hvalues⟩ := List.forall_mem_cons.mp hheld
      obtain ⟨bound, hle₂, hbound, hfunction⟩ := (hcalled.elsewhere _ _ _).calls hcallable hcalls
      obtain ⟨later, hle₃, hlater, -⟩ :=
        hbound.enterBody hfunction fun value hmem => value_mono hle₂ (hvalues value hmem)
      exact ⟨middle, later, le_trans hle hle₁, le_trans hle₂ hle₃, hcalled, hlater⟩
  | ends h hpasses hends =>
      obtain ⟨begun, hle, hgood, hfits, -⟩ := hadmits.inProgress h
      obtain ⟨middle, later, hle₁, hle₂, hmiddle, hlater⟩ :=
        (hgood _ rfl).passes htold (hfits _ List.mem_cons_self) hpasses hends
      exact ⟨middle, later, le_trans hle hle₁, hle₂, hmiddle, hlater⟩
  | run h level source hends =>
      obtain ⟨middle, hle, hgood, htop, -⟩ := hadmits.tail.session h
      obtain ⟨later, hle', hlater, -⟩ := hgood.run (fun task hmem => htop ▸
        d.task_mono hle (hadmits.tasks _ List.mem_cons_self task hmem)) hends
      exact ⟨middle, later, hle, hle', hgood, hlater⟩
  | evaluate h level source hends =>
      obtain ⟨middle, hle, hgood, htop, -⟩ := hadmits.tail.session h
      obtain ⟨later, hle', hlater, -⟩ := hgood.evaluate (fun task hmem => htop ▸
        d.task_mono hle (hadmits.tasks _ List.mem_cons_self task hmem)) hends
      exact ⟨middle, later, hle, hle', hgood, hlater⟩
  | clock h time =>
      obtain ⟨middle, hle, hgood, -⟩ := hadmits.session h
      exact ⟨middle, middle, hle, le_refl middle, hgood, hgood.elsewhere _ _ time⟩

end Told

theorem Admits.le_of_leads {told : Machine → W} (htold : ∀ world machine, d.state world machine → told machine = world)
    {requests : List Request} {machine after : Machine} (hadmits : d.Admits world requests)
    (h : Leads requests machine after) : told machine ≤ told after := by
  have hunique (world world' : W) (machine : Machine) (h : d.state world machine)
      (h' : d.state world' machine) : world = world' :=
    (htold world machine h).symm.trans (htold world' machine h')
  obtain ⟨middle, later, -, hle, hmiddle, hlater⟩ := hadmits.leads hunique h
  rw [htold _ _ hmiddle.state, htold _ _ hlater.state]
  exact hle

end Discipline

end Script
