import Script.Proofs.Outcomes
import Script.Proofs.Reachability.Cells

/-!
# Confined computations

A computation that starts with nothing in hand but some cells changes only these and new ones, and its
value leads only there. Besides, it comes back to the environment and to the depth of calls that it
started with. `Eval.Confined` says both, of every way in which the computation can end, so that both
carry over to what is put together from confined parts.
-/

namespace Script

variable {ε α β : Type}

/-- What every computation leaves as it was, and that nothing is taken out of the store. -/
structure Machine.Kept (before after : Machine) : Prop where
  globals : after.globals = before.globals
  environment : after.environment = before.environment
  depth : after.depth = before.depth
  grows : ∀ cell, before.store.Has cell → after.store.Has cell

theorem Machine.Kept.refl (machine : Machine) : machine.Kept machine :=
  ⟨rfl, rfl, rfl, fun _ => id⟩

theorem Machine.Kept.trans {first second third : Machine} (h : first.Kept second)
    (h' : second.Kept third) : first.Kept third :=
  ⟨h'.globals.trans h.globals, h'.environment.trans h.environment, h'.depth.trans h.depth,
    fun cell hcell => h'.grows cell (h.grows cell hcell)⟩

namespace Store

/-- The cells of the second store that the first one lacks are among the given ones. -/
def NewIn (cells : Set Cell) (before after : Store) : Prop :=
  ∀ cell, after.Has cell → before.Has cell ∨ cell ∈ cells

/-- Only the given cells have changed, and they lead nowhere else. -/
structure Within (cells : Set Cell) (before after : Store) : Prop where
  closed : after.Closed cells
  outside : ∀ cell ∉ cells, after.contents cell = before.contents cell

theorem Within.refl {cells : Set Cell} {store : Store} (hclosed : store.Closed cells) :
    Within cells store store :=
  ⟨hclosed, fun _ _ => rfl⟩

end Store

/-- With `pre` in hand, the computation stays within the cells, if those it makes are among them, and
its value satisfies `post`. -/
def Eval.Confined (cells : Set Cell) (pre : Prop) (body : Eval α) (post : α → Prop) : Prop :=
  ∀ machine value? after, (body machine).Ends value? after → machine.Kept after ∧
    (pre → machine.environment.cells ⊆ cells → machine.store.Closed cells →
      machine.store.NewIn cells after.store →
        machine.store.Within cells after.store ∧ ∀ value ∈ value?, post value)

namespace Eval

variable {cells : Set Cell} {pre : Prop} {post : α → Prop}

theorem Confined.mono {body : Eval α} (h : Confined cells pre body post) {stronger : Prop}
    (hpre : stronger → pre) {weaker : α → Prop} (hpost : ∀ value, post value → weaker value) :
    Confined cells stronger body weaker := by
  intro machine value? after hends
  obtain ⟨hkept, hwithin⟩ := h machine value? after hends
  refine ⟨hkept, fun hstronger henvironment hclosed hnew => ?_⟩
  obtain ⟨hstore, hvalue⟩ := hwithin (hpre hstronger) henvironment hclosed hnew
  exact ⟨hstore, fun value hmem => hpost value (hvalue value hmem)⟩

theorem confined_pure {value : α} (hvalue : pre → post value) :
    Confined cells pre (pure value) post := by
  intro machine value? after hends
  cases hends
  refine ⟨.refl machine, fun hpre _ hclosed _ => ⟨.refl hclosed, ?_⟩⟩
  rintro _ ⟨⟩
  exact hvalue hpre

theorem confined_fail (error : RuntimeError) : Confined cells pre (fail error) post := by
  intro machine value? after hends
  cases hends
  exact ⟨.refl machine, fun _ _ hclosed _ => ⟨.refl hclosed, fun _ h => nomatch h⟩⟩

theorem confined_exhausted : Confined cells pre exhausted post := by
  intro machine value? after hends
  cases hends

/-- What follows starts with what came before in hand. -/
theorem confined_bind {first : Eval α} {next : α → Eval β} {last : β → Prop}
    (hfirst : Confined cells pre first post)
    (hnext : ∀ value, Confined cells (pre ∧ post value) (next value) last) :
    Confined cells pre (first >>= next) last := by
  intro machine value? after hends
  rcases ends_bind hends with ⟨error, hrun, rfl⟩ | ⟨value, middle, hrun, hends⟩
  · obtain ⟨hkept, hwithin⟩ := hfirst machine none after (hrun ▸ .failed error after)
    refine ⟨hkept, fun hpre henvironment hclosed hnew => ?_⟩
    exact ⟨(hwithin hpre henvironment hclosed hnew).1, fun _ h => nomatch h⟩
  · obtain ⟨hkept, hwithin⟩ := hfirst machine (some value) middle (hrun ▸ .done value middle)
    obtain ⟨hkept', hwithin'⟩ := hnext value middle value? after hends
    refine ⟨hkept.trans hkept', fun hpre henvironment hclosed hnew => ?_⟩
    have hmiddle : machine.store.NewIn cells middle.store :=
      fun cell hcell => hnew cell (hkept'.grows cell hcell)
    obtain ⟨hstore, hvalue⟩ := hwithin hpre henvironment hclosed hmiddle
    have hafter : middle.store.NewIn cells after.store :=
      fun cell hcell => (hnew cell hcell).imp_left (hkept.grows cell)
    obtain ⟨hstore', hvalue'⟩ := hwithin' ⟨hpre, hvalue value rfl⟩
      (hkept.environment ▸ henvironment) hstore.closed hafter
    refine ⟨⟨hstore'.closed, fun cell hcell => ?_⟩, hvalue'⟩
    rw [hstore'.outside cell hcell, hstore.outside cell hcell]

/-! ### The state -/

theorem confined_environment :
    Confined cells pre environment fun environment => environment.cells ⊆ cells := by
  intro machine value? after hends
  cases hends
  refine ⟨.refl machine, fun _ henvironment hclosed _ => ⟨.refl hclosed, ?_⟩⟩
  rintro _ ⟨⟩
  exact henvironment

theorem confined_read {f : Store → α} (hread : pre → ∀ store, store.Closed cells → post (f store)) :
    Confined cells pre (read f) post := by
  intro machine value? after hends
  cases hends
  refine ⟨.refl machine, fun hpre _ hclosed _ => ⟨.refl hclosed, ?_⟩⟩
  rintro _ ⟨⟩
  exact hread hpre machine.store hclosed

theorem confined_change {f : Store → α × Store}
    (hgrows : ∀ store cell, store.Has cell → (f store).2.Has cell)
    (hchange : pre → ∀ store, store.Closed cells → store.NewIn cells (f store).2 →
      store.Within cells (f store).2 ∧ post (f store).1) :
    Confined cells pre (change f) post := by
  intro machine value? after hends
  cases hends
  refine ⟨⟨rfl, rfl, rfl, hgrows machine.store⟩, fun hpre _ hclosed hnew => ?_⟩
  obtain ⟨hstore, hvalue⟩ := hchange hpre machine.store hclosed hnew
  refine ⟨hstore, ?_⟩
  rintro _ ⟨⟩
  exact hvalue

theorem confined_within {body : Eval α} {inner : Environment} (hinner : pre → inner.cells ⊆ cells)
    (hbody : Confined cells pre body post) : Confined cells pre (within inner body) post := by
  intro machine value? after hends
  obtain ⟨last, hlast, rfl⟩ := Outcome.ends_mapMachine_iff.mp hends
  obtain ⟨hkept, hwithin⟩ := hbody _ value? last hlast
  refine ⟨⟨hkept.globals, rfl, hkept.depth, hkept.grows⟩, fun hpre _ hclosed hnew => ?_⟩
  exact hwithin hpre (hinner hpre) hclosed hnew

theorem confined_counted {body : Eval α} (hbody : Confined cells pre body post) :
    Confined cells pre (counted body) post := by
  intro machine value? after hends
  obtain ⟨last, hlast, rfl⟩ := Outcome.ends_mapMachine_iff.mp hends
  obtain ⟨hkept, hwithin⟩ := hbody _ value? last hlast
  exact ⟨⟨hkept.globals, hkept.environment, rfl, hkept.grows⟩, hwithin⟩

theorem confined_print (value : Value) : Confined cells pre (print value) fun _ => True := by
  intro machine value? after hends
  unfold print at hends
  cases hwrite : machine.sink.write (value.text ++ "\n") with
  | mk result sink =>
      simp only [hwrite] at hends
      cases result <;> cases hends <;>
        exact ⟨⟨rfl, rfl, rfl, fun _ => id⟩, fun _ _ hclosed _ => ⟨.refl hclosed, fun _ _ => trivial⟩⟩

theorem confined_flush : Confined cells pre flush fun _ => True := by
  intro machine value? after hends
  unfold flush at hends
  cases hflush : machine.sink.flush <;> rw [hflush] at hends <;> cases hends <;>
    exact ⟨.refl machine, fun _ _ hclosed _ => ⟨.refl hclosed, fun _ _ => trivial⟩⟩

end Eval

end Script
