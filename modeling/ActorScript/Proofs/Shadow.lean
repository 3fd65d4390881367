import ActorScript.Proofs.Descent

/-!
# Runs with more and with less budget

A run is compared with one that starts at the same point and has the greater
budget.  Every move of the poorer run is one of the richer run too, until the
poorer one is over or stops: for want of budget, or at a transient fault.

What "greater" means is left open.  `Pays` is what a relation between budgets
has to keep for the comparison to go through; an endless budget is one case, and
a surplus that stays the same is another.

## Main results

* `Step.shadow` — a step is one of the richer run as well, or a stop.
* `Run.shadow` — the same for a whole run, with what it does.
* `Stalls.ride`, `Owes.ride` — the next run comes back to where the last one stopped.
-/

namespace ActorScript

/-! ## Effects -/

/-- What can be told of a run from outside. -/
inductive Effect where
  | line (text : String)
  | command (command : Command)
  | write (target : Name) (value : Value)
  | step
  /-- An evaluation that succeeded has drawn random numbers and left the generator. -/
  | draw (generator : Generator)
deriving DecidableEq

/-- The effects of what a run did in a step. -/
def Event.effects (t : Tree) : Event → List Effect
  | .decided .. | .left .. | .listed .. => [.step]
  | .assigned _ target value => [.step, .write target value]
  | .printed _ value => [.step, .line value.text]
  | .commanded _ command => [.step, .command command]
  | .visited id candidate =>
      match t.stmt? id with
      | some (.forEach var ..) => [.step, .write var candidate]
      | _ => [.step]
  | .waited _ => []

/-- The draws between two states of the generator. -/
def Generator.draws (g g' : Generator) : List Effect := if g' = g then [] else [.draw g']

@[simp] theorem Generator.draws_self (g : Generator) : g.draws g = [] := if_pos rfl

namespace Machine

variable {W : Type}

/-- The effects of a step that was taken. -/
def Transition.effects (t : Tree) (m : Transition W) : List Effect :=
  m.before.memory.generator.draws m.after.memory.generator ++
    m.event.toList.flatMap (Event.effects t)

/-- The effects of a run. -/
def effects (t : Tree) (ms : List (Transition W)) : List Effect :=
  ms.flatMap (Transition.effects t)

@[simp] theorem effects_nil (t : Tree) : effects t ([] : List (Transition W)) = [] := rfl

@[simp] theorem effects_cons (t : Tree) (m : Transition W) (ms : List (Transition W)) :
    effects t (m :: ms) = m.effects t ++ effects t ms := rfl

@[simp] theorem effects_append (t : Tree) (ms ms' : List (Transition W)) :
    effects t (ms ++ ms') = effects t ms ++ effects t ms' := List.flatMap_append

/-- Steps without an event that leave the generator alone have no effects. -/
theorem effects_eq_nil {t : Tree} {ms : List (Transition W)}
    (h : ∀ m ∈ ms, m.event = none ∧
      m.after.memory.generator = m.before.memory.generator) :
    effects t ms = [] := by
  refine List.flatMap_eq_nil_iff.mpr fun m hm => ?_
  obtain ⟨hevent, hgenerator⟩ := h m hm
  unfold Transition.effects
  rw [hevent, hgenerator]
  simp

/-! ## Stops -/

/-- Whether a run goes on, or is over for good. -/
def Control.going : Control → Bool
  | .leave .suspended => false
  | .raise fault => fault.isFatal
  | _ => true

namespace Config

variable {t : Tree} {c c' d : Config W}

/-- The configuration with the generator and the table that a `wait` leaves. -/
def noted (c : Config W) (g : Generator) (p : Progress) : Config W :=
  { c with memory := { c.memory with generator := g, progress := p } }

theorem Quiet.going (h : Quiet t c c') (hg : c.control.going = true) :
    c'.control.going = true := by
  cases h with
  | unwind | passFault | ended => exact hg
  | pass | sequence | branch | noBranch | «while» | forEach | skip | whileRound
  | forEachRound | exhausted | unlisted | next | sequenceEnd | branchEnd | roundEnd
  | broken => rfl

section World

variable [World W]

theorem Deed.going {e : Event} (h : Deed t c e c') : c'.control.going = true := by
  cases h <;> rfl

/-- A transient fault gives up the generator. -/
theorem Faulty.generator_eq {f : Fault} {g : Generator} (h : Faulty t c f g)
    (hf : f.isFatal = false) : g = c.memory.generator := by
  cases h with
  | @write _ _ _ _ _ r => cases r <;> cases hf
  | assign | print | act | leaveLoop | choose | list | check | visit => rfl

/-- The steps after which the script is not done, but has to try again in another tick.
They leave the table and the generator as they are. -/
inductive Stalls (t : Tree) (c : Config W) : Config W → Prop
  | refused (hb : c.memory.budget.canStep = false) (h : Costs t c) : Stalls t c c.suspend
  | faulted {f : Fault} (hb : c.memory.budget.canStep = true)
      (h : Faulty t c f c.memory.generator) (hf : f.isFatal = false) :
      Stalls t c (c.goTo (.raise f))
  | waitRefused {id : StmtId} {duration : ExprId} (hb : c.memory.budget.hasTime = false)
      (h : c.Unready t id duration) : Stalls t c c.suspend
  | waitFaulted {id : StmtId} {duration : ExprId} {f : Fault}
      (hb : c.memory.budget.hasTime = true) (h : c.Unready t id duration)
      (hv : ((c.scope t).duration duration).Fails c.memory.generator f)
      (hf : f.isFatal = false) : Stalls t c (c.goTo (.raise f))

/-- The steps with which a tick ends before the script does. -/
inductive Stops (t : Tree) (c : Config W) : Config W → Prop
  | stall {c' : Config W} (h : Stalls t c c') : Stops t c c'
  | waiting {id : StmtId} {owed : Number} {g : Generator} {p : Progress}
      (h : c.Owes t id owed g) (hl : ¬ c.left owed ≤ .zero)
      (hp : c.memory.progress.setFrame? id (.wait (c.left owed)) = some p) :
      Stops t c (((c.drawn g).spent owed).done p).suspend

theorem Stops.step (h : Stops t c c') : Step t c none c' := by
  cases h with
  | stall h =>
      cases h with
      | refused hb h => exact .refused hb h
      | faulted hb h => exact .faulted hb h
      | waitRefused hb h => exact .waitRefused hb h
      | waitFaulted hb h hv => exact .waitFaulted hb h hv
  | waiting h hl hp => exact .waiting h hl hp

/-- A stall comes where a step has to be paid for, or at a `wait`. -/
theorem Stalls.costs_or_at (h : Stalls t c c') :
    Costs t c ∨ ∃ id duration, c.At t id (.wait duration) := by
  cases h with
  | refused _ h => exact .inl h
  | faulted _ h => exact .inl h.costs
  | waitRefused _ h | waitFaulted _ h => exact .inr ⟨_, _, h.at_⟩

/-- The statement at hand faults, if there is budget to try it. -/
inductive Fails (t : Tree) (c : Config W) (f : Fault) : Prop
  | step (h : Faulty t c f c.memory.generator)
  | wait {id : StmtId} {duration : ExprId} (h : c.Unready t id duration)
      (hv : ((c.scope t).duration duration).Fails c.memory.generator f)

theorem Fails.mirror (h : c.Fails t f) (hd : d.core = c.core) : d.Fails t f := by
  cases h with
  | step h =>
      have hgen : d.memory.generator = c.memory.generator :=
        congrArg (·.memory.generator) hd
      refine .step ?_
      rw [hgen]
      exact h.mirror hd
  | wait h hv =>
      refine .wait (h.mirror hd) ?_
      obtain ⟨b, k, rfl, -⟩ := exists_booked hd
      exact hv

/-- A statement that faults for the moment is tried and faults, or is not tried for want
of budget. -/
theorem Fails.stalls (h : c.Fails t f) (hf : f.isFatal = false) :
    Stalls t c (c.goTo (.raise f)) ∨
      Stalls t c c.suspend ∧
        (c.memory.budget.canStep = false ∨ c.memory.budget.hasTime = false) := by
  cases h with
  | step h =>
      cases hb : c.memory.budget.canStep with
      | true => exact .inl (.faulted hb h hf)
      | false => exact .inr ⟨.refused hb h.costs, .inl rfl⟩
  | wait h hv =>
      cases hb : c.memory.budget.hasTime with
      | true => exact .inl (.waitFaulted hb h hv hf)
      | false => exact .inr ⟨.waitRefused hb h, .inr rfl⟩

omit [World W] in
/-- A step is paid for at a statement or at the head of a loop. -/
theorem Costs.control_eq (h : Costs t c) :
    ∃ id, c.control = .enter id ∨ c.control = .iterate id := by
  cases h with
  | assign h | print h | act h | leaveLoop h | choose h | list h =>
      exact ⟨_, .inl h.control⟩
  | check h | visit h => exact ⟨_, .inr h.control⟩

/-- A run stops at a statement or at the head of a loop. -/
theorem Stops.control_eq (h : Stops t c c') :
    ∃ id, c.control = .enter id ∨ c.control = .iterate id := by
  cases h with
  | stall h =>
      rcases h.costs_or_at with h | ⟨id, duration, h⟩
      · exact h.control_eq
      · exact ⟨id, .inl h.control⟩
  | waiting h =>
      cases h with
      | first h => exact ⟨_, .inl h.at_.control⟩
      | again h => exact ⟨_, .inl h.control⟩

/-- A run stops on its way, not at its end. -/
theorem Stops.going (h : Stops t c c') : c.control.going = true := by
  obtain ⟨id, hc | hc⟩ := h.control_eq <;> rw [hc] <;> rfl

theorem Stops.outcome?_eq (h : Stops t c c') : c.outcome? = none := by
  obtain ⟨id, hc | hc⟩ := h.control_eq
  · exact outcome?_of_enter hc
  · exact outcome?_of_iterate hc

theorem Stops.not_going (h : Stops t c c') : c'.control.going = false := by
  cases h with
  | stall h =>
      cases h with
      | refused | waitRefused => rfl
      | faulted _ _ hf | waitFaulted _ _ _ hf => exact hf
  | waiting => rfl

end World

end Config

open Config Progress

variable [World W] {t : Tree} {root : StmtId} {c c' d : Config W}
  {ms : List (Transition W)}

/-- A step of a run that has stopped leaves a task behind. -/
private theorem Config.Step.of_stopped {e : Option Event} (h : Step t c e c')
    (hg : c.control.going = false) (ho : c.outcome? = none) :
    e = none ∧ ∃ task k, c' = c.unwound task k := by
  unfold outcome? at ho
  cases hcontrol : c.control with
  | enter | iterate =>
      rw [hcontrol] at hg
      cases hg
  | leave flow =>
      rw [hcontrol] at ho hg
      cases hk : c.stack with
      | nil =>
          rw [hk] at ho
          cases ho
      | cons task k =>
          cases flow with
          | completed | leaving => cases hg
          | suspended =>
              obtain ⟨hc', he⟩ :=
                h.unique (.quiet (.unwind hcontrol hk (.suspended task)))
              exact ⟨he, task, k, hc'⟩
  | raise f =>
      rw [hcontrol] at ho
      cases hk : c.stack with
      | nil =>
          rw [hk] at ho
          cases ho
      | cons task k =>
          obtain ⟨hc', he⟩ := h.unique (.quiet (.passFault hcontrol hk))
          exact ⟨he, task, k, hc'⟩

/-- A run that has stopped unwinds its stack and does nothing else. -/
theorem Run.of_stopped (root : StmtId) (h : Run t c ms c')
    (hg : c.control.going = false) :
    c'.control = c.control ∧ c'.restart root = c.restart root ∧
      ∀ m ∈ ms, m.event = none ∧
        m.after.memory.generator = m.before.memory.generator := by
  induction h with
  | refl => exact ⟨rfl, rfl, by simp⟩
  | step ho hstep _ ih =>
      obtain ⟨rfl, task, k, rfl⟩ := hstep.of_stopped hg ho
      obtain ⟨hcontrol, hrestart, hms⟩ := ih hg
      refine ⟨hcontrol, hrestart, fun m hm => ?_⟩
      rcases List.mem_cons.mp hm with rfl | hm
      · exact ⟨rfl, rfl⟩
      · exact hms m hm

/-! ## More budget -/

/-- What a relation between budgets has to keep for the second one to pay for whatever
the first one pays for.  `ok` are the times that come up. -/
structure Pays (ok : Number → Prop) (R : Budget → Budget → Prop) : Prop where
  step : ∀ {b b'}, R b b' → b.canStep = true → b'.canStep = true ∧ R b.payStep b'.payStep
  time : ∀ {b b'}, R b b' → b.hasTime = true → b'.hasTime = true
  spend : ∀ {b b' owed}, R b b' → ok owed → owed - (b.spend owed).1 ≤ .zero →
    owed - (b'.spend owed).1 ≤ .zero ∧ R (b.spend owed).2 (b'.spend owed).2

variable {ok : Number → Prop} {R : Budget → Budget → Prop}

/-- **A step** is one of the richer run as well, or a stop. -/
theorem Config.Step.shadow {e : Option Event} (hR : Pays ok R) (h : Step t c e c')
    (hg : c.control.going = true) (hd : d.core = c.core)
    (hb : R c.memory.budget d.memory.budget)
    (hok : ∀ id owed g, c.Owes t id owed g → ok owed) :
    (c'.control.going = true ∧ ∃ d', Step t d e d' ∧ d'.core = c'.core ∧
      R c'.memory.budget d'.memory.budget) ∨ (e = none ∧ Stops t c c') := by
  cases h with
  | quiet h =>
      obtain ⟨d', hq, hd', hb'⟩ := h.mirror hd
      refine .inl ⟨h.going hg, d', .quiet hq, hd', ?_⟩
      rw [hb', h.keeps.1]
      exact hb
  | deed hcan h =>
      obtain ⟨hcan', hpaid⟩ := hR.step hb hcan
      obtain ⟨d', hdeed, hd', hb', hb₁⟩ := h.mirror hd
      refine .inl ⟨h.going, d', .deed hcan' hdeed, hd', ?_⟩
      rw [hb', hb₁]
      exact hpaid
  | @faulted f g hcan h =>
      by_cases hf : f.isFatal = true
      · have hcan' := (hR.step hb hcan).1
        refine .inl ⟨hf, _, .faulted hcan' (h.mirror hd), ?_, hb⟩
        rw [core_goTo, core_drawn, hd]
        rfl
      · have hf' := Bool.eq_false_iff.mpr hf
        have hgen := h.generator_eq hf'
        subst hgen
        exact .inr ⟨rfl, .stall (.faulted hcan h hf')⟩
  | refused hcan h => exact .inr ⟨rfl, .stall (.refused hcan h)⟩
  | waitRefused hcan h => exact .inr ⟨rfl, .stall (.waitRefused hcan h)⟩
  | @waitFaulted id duration f hcan h hv =>
      by_cases hf : f.isFatal = true
      · have hv' : ((d.scope t).duration duration).Fails d.memory.generator f := by
          obtain ⟨b, k, rfl, -⟩ := exists_booked hd
          exact hv
        refine .inl ⟨hf, _, .waitFaulted (hR.time hb hcan) (h.mirror hd) hv', ?_, hb⟩
        rw [core_goTo, hd]
        rfl
      · exact .inr ⟨rfl, .stall (.waitFaulted hcan h hv (Bool.eq_false_iff.mpr hf))⟩
  | @waited id owed g p h hl hp =>
      obtain ⟨hl', hspent⟩ := hR.spend hb (hok id owed g h) hl
      have hp' : d.memory.progress.finish? id = some p := by
        obtain ⟨b, k, rfl, -⟩ := exists_booked hd
        exact hp
      refine .inl ⟨rfl, _, .waited (h.mirror hd (hR.time hb)) hl' hp', ?_, hspent⟩
      rw [core_done, core_spent, core_drawn, hd]
      rfl
  | waiting h hl hp => exact .inr ⟨rfl, .waiting h hl hp⟩

/-- How a run that has come to its end at `c'` by the steps `ms` goes with the richer run
that starts at `d`. -/
inductive Shadow (t : Tree) (root : StmtId) (R : Budget → Budget → Prop) (d : Config W)
    (ms : List (Transition W)) (c' : Config W) : Prop
  /-- Both are over. -/
  | ended {ms' : List (Transition W)} {d' : Config W} (hrun : Run t d ms' d')
      (hg : c'.control.going = true) (hd : d'.core = c'.core)
      (he : effects t ms = effects t ms')
  /-- The richer run has come to the point at which the other one stops. -/
  | stopped {ms' : List (Transition W)} {d' c₁ c₂ : Config W} (hrun : Run t d ms' d')
      (hd : d'.core = c₁.core) (hb : R c₁.memory.budget d'.memory.budget)
      (hc : c₁.Sound t root) (hstop : Stops t c₁ c₂) (hmem : ⟨c₁, none, c₂⟩ ∈ ms)
      (hcontrol : c'.control = c₂.control) (hrestart : c'.restart root = c₂.restart root)
      (he : effects t ms = effects t ms' ++ Transition.effects t ⟨c₁, none, c₂⟩)

omit [World W] in
/-- Steps between configurations with the same cores have the same effects. -/
theorem Transition.effects_congr {e : Option Event} {d' : Config W} (hd : d.core = c.core)
    (hd' : d'.core = c'.core) :
    Transition.effects t ⟨c, e, c'⟩ = Transition.effects t ⟨d, e, d'⟩ := by
  obtain ⟨b, k, rfl, -⟩ := exists_booked hd
  obtain ⟨b', k', rfl, -⟩ := exists_booked hd'
  rfl

/-- **A run** is the beginning of the richer run, up to where it stops. -/
theorem Run.shadow (hR : Pays ok R) (ht : t.Proper root) (h : Run t c ms c')
    (hc : c.Sound t root) (hg : c.control.going = true) (hd : d.core = c.core)
    (hb : R c.memory.budget d.memory.budget)
    (hok : ∀ m ∈ ms, ∀ id owed g, m.before.Owes t id owed g → ok owed) :
    Shadow t root R d ms c' := by
  induction h generalizing d with
  | refl => exact .ended (.refl d) hg hd rfl
  | @step c c₁ c' e ms ho hstep hrun ih =>
      rcases hstep.shadow hR hg hd hb (hok _ (List.mem_cons_self ..)) with
        ⟨hg₁, d₁, hstep', hd₁, hb₁⟩ | ⟨rfl, hstop⟩
      · have heffects := Transition.effects_congr (t := t) (e := e) hd hd₁
        have ho' := (outcome?_of_core hd).trans ho
        cases ih (hc.step ht hstep) hg₁ hd₁ hb₁ fun m hm =>
          hok m (List.mem_cons_of_mem _ hm) with
        | ended hrun' hg' hd' he =>
            exact .ended (.step ho' hstep' hrun') hg' hd' (by simp [heffects, he])
        | stopped hrun' hd' hb' hc' hstop hmem hcontrol hrestart he =>
            exact .stopped (.step ho' hstep' hrun') hd' hb' hc' hstop
              (List.mem_cons_of_mem _ hmem) hcontrol hrestart (by simp [heffects, he])
      · obtain ⟨hcontrol, hrestart, hms⟩ := hrun.of_stopped root hstop.not_going
        refine .stopped (.refl d) hd hb hc hstop (List.mem_cons_self ..)
          hcontrol hrestart ?_
        simp [effects_eq_nil hms]

/-! ## Taking up again -/

namespace Config

omit [World W] in
theorem noted_core {g : Generator} {p : Progress} (hd : d.core = c.core) :
    (d.noted g p).core = (c.noted g p).core := by
  obtain ⟨b, k, rfl, hk⟩ := exists_booked hd
  exact booked_core (c := c.noted g p) hk

theorem Owes.outcome?_eq {id : StmtId} {owed : Number} {g : Generator}
    (h : c.Owes t id owed g) : c.outcome? = none := by
  cases h with
  | first h _ _ => exact outcome?_of_enter h.at_.control
  | again h _ => exact outcome?_of_enter h.control

/-- A `wait` that has been noted in the table is found again. -/
theorem Owes.ride {id : StmtId} {owed : Number} {g g' : Generator} {f : Frame}
    {p : Progress} (ht : t.Proper root) (hc : c.Sound t root) (h : c.Owes t id owed g)
    (hp : c.memory.progress.setFrame? id f = some p) :
    Ride t ((c.noted g' p).restart root) (c.noted g' p) := by
  obtain ⟨⟨duration, hat⟩, -⟩ := h.amount hc
  have hpath : Path t (c.noted g' p).memory.progress root id (c.noted g' p).stack
      (c.noted g' p).memory.loops :=
    (hc.of_at hat).1.congr ht (agreeOff_of_setFrame? t hp)
  have hride := hpath.ride
  rwa [placed_self (c.noted g' p) hat.control] at hride

/-- The next run comes back by quiet moves to where the last one stalled. -/
theorem Stalls.ride {o : Config W} (ht : t.Proper root) (hc : c.Sound t root)
    (h : Stalls t c c') (ho : o.core = (c'.restart root).core) :
    ∃ d, Ride t o d ∧ d.core = c.core ∧ d.memory.budget = o.memory.budget := by
  have hcore : (c'.restart root).core = (c.restart root).core := by cases h <;> rfl
  have hride : Ride t (c.restart root) c := by
    rcases h.costs_or_at with h | ⟨id, duration, h⟩
    · exact hc.ride_of_costs ht h
    · exact hc.ride_of_at h
  exact hride.mirror (ho.trans hcore)

theorem Stalls.effects_eq (h : Stalls t c c') :
    Transition.effects t ⟨c, none, c'⟩ = [] := by
  have hgen : c'.memory.generator = c.memory.generator := by cases h <;> rfl
  unfold Transition.effects
  rw [hgen, Generator.draws_self]
  rfl

/-- A `wait` that has been noted goes on with the time that is left. -/
theorem Owes.noted {id : StmtId} {owed left : Number} {g : Generator} {p : Progress}
    (h : d.Owes t id owed g)
    (hp : d.memory.progress.setFrame? id (.wait left) = some p)
    (hc : c.core = (d.noted g p).core) : c.Owes t id left g := by
  obtain ⟨b, k, rfl, -⟩ := exists_booked hc
  have hnode := node_setFrame? hp id
  rw [if_pos rfl] at hnode
  have hat : ∀ {duration}, d.At t id (.wait duration) →
      ((d.noted g p).booked b k).Owes t id left g := by
    intro duration hat
    have harmed : p.isArmed id = true := by
      rw [isArmed_eq, hnode, ← hat.armed, isArmed_eq]
    have hframe : p.frame id = .wait left := by rw [frame_eq, hnode]
    exact Owes.again (c := (d.noted g p).booked b k)
      ⟨hat.control, harmed, hat.stmt⟩ hframe
  cases h with
  | first h _ _ => exact hat h.at_
  | again h _ => exact hat h

end Config

/-- The first step of a run that has come to a `wait`. -/
theorem Run.of_owes {id : StmtId} {owed : Number} {g : Generator} {f : Frame}
    {p : Progress} {outcome : Except Fault Flow} (h : Run t c ms c')
    (ho : c'.outcome? = some outcome) (howes : c.Owes t id owed g)
    (hp : c.memory.progress.setFrame? id f = some p) :
    ∃ e c₁ ms', ms = ⟨c, e, c₁⟩ :: ms' ∧ Step t c e c₁ ∧ Run t c₁ ms' c' ∧
      ((c.left owed ≤ .zero ∧ e = some (.waited id) ∧
        ∃ q, c.memory.progress.finish? id = some q ∧
          c₁ = ((c.drawn g).spent owed).done q) ∨
      (¬ c.left owed ≤ .zero ∧ e = none ∧
        ∃ q, c.memory.progress.setFrame? id (.wait (c.left owed)) = some q ∧
          c₁ = (((c.drawn g).spent owed).done q).suspend)) := by
  cases h with
  | refl =>
      rw [howes.outcome?_eq] at ho
      cases ho
  | step _ hstep hrun =>
      refine ⟨_, _, _, rfl, hstep, hrun, ?_⟩
      by_cases hl : c.left owed ≤ .zero
      · obtain ⟨q, hq⟩ := exists_finish? hp
        obtain ⟨rfl, rfl⟩ := hstep.unique (.waited howes hl hq)
        exact .inl ⟨hl, rfl, q, hq, rfl⟩
      · obtain ⟨q, hq⟩ := exists_setFrame? hp (.wait (c.left owed))
        obtain ⟨rfl, rfl⟩ := hstep.unique (.waiting howes hl hq)
        exact .inr ⟨hl, rfl, q, hq, rfl⟩

/-- The same for a run that is taken up in a `wait` that has been noted. -/
theorem Run.of_noted {id : StmtId} {owed left : Number} {g : Generator} {p : Progress}
    {outcome : Except Fault Flow} (h : Run t c ms c') (ho : c'.outcome? = some outcome)
    (hd : d.Owes t id owed g) (hp : d.memory.progress.setFrame? id (.wait left) = some p)
    (hc : c.core = (d.noted g p).core) :
    ∃ e c₁ ms', ms = ⟨c, e, c₁⟩ :: ms' ∧ Step t c e c₁ ∧ Run t c₁ ms' c' ∧
      ((c.left left ≤ .zero ∧ e = some (.waited id) ∧
        ∃ q, d.memory.progress.finish? id = some q ∧ c₁ = (c.spent left).done q) ∨
      (¬ c.left left ≤ .zero ∧ e = none ∧
        ∃ q, d.memory.progress.setFrame? id (.wait (c.left left)) = some q ∧
          c₁ = ((c.spent left).done q).suspend)) := by
  have howes := hd.noted hp hc
  have hgen : c.memory.generator = g := congrArg (·.memory.generator) hc
  have hprogress : c.memory.progress = p := congrArg (·.memory.progress) hc
  subst hgen hprogress
  have hcase := h.of_owes ho howes ((setFrame?_setFrame? hp (.wait left)).trans hp)
  rw [finish?_setFrame? hp, setFrame?_setFrame? hp] at hcase
  exact hcase

end Machine

namespace Program

open Machine Machine.Config Progress

variable {W : Type} {t : Tree} {root : StmtId} {p : Program} {c : Config W}
  {outcome : Except Fault Flow}

/-- The start of a tick does not depend on the budget but for the books. -/
theorem opening_core_eq (p : Program) (w : W) (budget budget' : Number) :
    (p.opening w budget).core = (p.opening w budget').core := by
  unfold opening core
  rw [Memory.core_countTick, Memory.core_countTick]
  unfold Memory.core Memory.replenish
  rfl

/-- The start of a tick depends on the core of the memory. -/
theorem opening_core (hroot : p.root = root) (hm : p.memory.core = c.memory.core)
    (budget : Number) : (p.opening c.world budget).core = (c.restart root).core := by
  have hcore : core { c with memory := p.memory } = c.core := by
    unfold core
    rw [hm]
  obtain ⟨b, k, hd, hk⟩ := exists_booked hcore
  have hmemory : p.memory = (c.booked b k).memory := congrArg Config.memory hd
  have hticks : (k.map Tally.countTick).map Tally.lasting = k.map Tally.lasting := by
    cases k <;> rfl
  unfold opening
  rw [hroot, hmemory]
  exact booked_core (c := c.restart root) (hticks.trans hk)

/-- A program that had to stop takes over the memory of its run, and is not done. -/
theorem settle_of_stop (hroot : p.root = root) (h : c.Over t root outcome)
    (hg : c.control.going = false) :
    (p.settle outcome c.memory).fault = p.fault ∧
      (p.settle outcome c.memory).isHalted = c.memory.halted ∧
      (p.settle outcome c.memory).isFinished = false ∧
      (p.settle outcome c.memory).memory.core = c.memory.core := by
  have hunfinished : c.memory.progress.Active t root →
      (!c.memory.progress.isArmed p.root) = false := by
    intro hact
    rw [hroot, isArmed_eq, hact.armed]
    rfl
  cases h with
  | completed hc =>
      rw [hc] at hg
      cases hg
  | suspended _ hact =>
      exact ⟨rfl, rfl, hunfinished hact, Memory.core_countSuspension _⟩
  | raised hc hact =>
      rw [hc] at hg
      simp only [settle, show Fault.isFatal _ = false from hg]
      exact ⟨rfl, rfl, hunfinished hact, Memory.core_countTransientFault _⟩

/-- A program whose run is over for good is done or halted. -/
theorem settle_of_going (hroot : p.root = root) (h : c.Over t root outcome)
    (hg : c.control.going = true) :
    ((p.settle outcome c.memory).isHalted || (p.settle outcome c.memory).isFinished) =
      true := by
  cases h with
  | completed _ hidle =>
      have hfinished : (p.settle (.ok .completed) c.memory).isFinished = true := by
        show (!c.memory.progress.isArmed p.root) = true
        rw [hroot, isArmed_eq, hidle.node_eq]
        rfl
      rw [hfinished, Bool.or_true]
  | suspended hc =>
      rw [hc] at hg
      cases hg
  | raised hc =>
      rw [hc] at hg
      simp only [settle, show Fault.isFatal _ = true from hg]
      rfl

/-- What a program makes of a run depends on the core of the memory. -/
theorem settle_congr {q : Program} {m m' : Memory} (outcome : Except Fault Flow)
    (hm : m.core = m'.core) (hf : p.fault = q.fault) :
    (p.settle outcome m).memory.core = (q.settle outcome m').memory.core ∧
      (p.settle outcome m).fault = (q.settle outcome m').fault := by
  have hhalt : m.halt.core = m'.halt.core := congrArg Memory.halt hm
  unfold settle
  split
  · exact ⟨hm, hf⟩
  · exact ⟨by simpa using hm, hf⟩
  · exact ⟨hhalt, rfl⟩
  · split
    · exact ⟨hhalt, rfl⟩
    · exact ⟨by simpa using hm, hf⟩

end Program

end ActorScript
