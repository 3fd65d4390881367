import ActorScript.Proofs.Bounded
import ActorScript.Proofs.Retry

/-!
# How a tick keeps to its budget

A tick is granted an amount, and everything that a script does in it is paid for out of
that: a whole unit for each step, and any part of what is left for a `wait`.  What is left
is a number of the same kind as what was granted, never more of it, and the flag that
something was refused is up exactly while the refusal is on its way out of the script.

The numbers are data of binary64, and no arithmetic is assumed of them.  All that is used
is that a lesser amount taken off a greater one leaves an amount (`Number.sub_amount`),
and that no amount taken off infinity tells (`IsAmount.infinity_sub`).

## Main results

* `Step.metered` — each step pays for what it does, does nothing, is refused, or takes
  time.
* `Solvent.step`, `Solvent.run` — steps and runs keep the books of a budget.
* `tick_metered` — the same for the ticks of the programs that a start leads to.
-/

namespace ActorScript

namespace Budget

variable {granted owed : Number} {b : Budget}

/-- What is left of an endless grant is endless, and of any other an amount no greater. -/
inductive Within (granted : Number) (b : Budget) : Prop
  | endless (hg : granted = .infinity) (hb : b.remaining = .infinity)
  | amount (hg : granted.IsAmount) (hb : b.remaining.IsAmount)
      (hle : b.remaining.units ≤ granted.units)

theorem within_grant (amount : Number) :
    Within (grant amount).remaining (grant amount) := by
  unfold grant
  by_cases hpos : .zero < amount
  · rw [if_pos hpos]
    rcases Number.amount_of_pos hpos with h | h
    · exact .amount h h (Nat.le_refl _)
    · exact .endless h h
  · rw [if_neg hpos]
    exact .amount Number.isAmount_zero Number.isAmount_zero (Nat.le_refl _)

theorem Within.refuse (h : b.Within granted) : b.refuse.Within granted := by
  cases h with
  | endless hg hb => exact .endless hg hb
  | amount hg hb hle => exact .amount hg hb hle

/-- An amount that is taken off leaves an amount, and no more than before. -/
private theorem Within.sub {spent : Number} {b' : Budget} (h : b.Within granted)
    (hs : spent.IsAmount) (hle : b.remaining.IsAmount → spent.units ≤ b.remaining.units)
    (hb' : b'.remaining = b.remaining - spent) : b'.Within granted := by
  cases h with
  | endless hg hb =>
      refine .endless hg ?_
      rw [hb', hb, hs.infinity_sub]
  | amount hg hb hgranted =>
      obtain ⟨hamount, hrounds⟩ := Number.sub_amount hb hs (hle hb)
      have hunits : (b.remaining - spent).units ≤ b.remaining.units :=
        hrounds.le_of_exact hb.exact (Nat.sub_le _ _)
      rw [← hb'] at hamount hunits
      exact .amount hg hamount (Nat.le_trans hunits hgranted)

theorem Within.payStep (h : b.Within granted) (hb : b.canStep = true) :
    b.payStep.Within granted := by
  obtain ⟨hone, -⟩ := Number.isAmount_one
  refine h.sub hone ?_ rfl
  intro hamount
  rw [← Number.le_iff hone hamount]
  exact of_decide_eq_true hb

theorem Within.spend (h : b.Within granted) (ho : owed.IsAmount) :
    (b.spend owed).2.Within granted := by
  refine h.sub (b.spend_amount ho).1 ?_ rfl
  intro hamount
  rw [spend_eq ho hamount]
  split
  · rename_i hlt
    exact Nat.le_of_lt hlt
  · exact Nat.le_refl _

/-- Where a step cannot be paid for, less than its price is left. -/
theorem Within.lt_one (h : b.Within granted) (hb : b.canStep = false) :
    b.remaining < .one := by
  have hpoor : ¬ .one ≤ b.remaining := of_decide_eq_false hb
  cases h with
  | endless _ hr =>
      rw [hr] at hpoor
      exact absurd (by decide) hpoor
  | amount _ hr =>
      obtain ⟨hone, -⟩ := Number.isAmount_one
      rw [Number.le_iff hone hr] at hpoor
      rw [Number.lt_iff hr hone]
      omega

/-- Without time there is no step either. -/
theorem canStep_of_hasTime (h : b.hasTime = false) : b.canStep = false := by
  apply decide_eq_false
  intro hone
  exact of_decide_eq_false h (Number.pos_of_le Number.isAmount_one.1 (by decide) hone)

/-- A time that is not paid for has taken all that was left. -/
theorem Within.lt_one_of_left (h : b.Within granted) (ho : owed.IsAmount)
    (hleft : ¬ owed - (b.spend owed).1 ≤ .zero) : (b.spend owed).2.remaining < .one := by
  cases h with
  | endless _ hr =>
      rw [(spend_infinity ho hr).1] at hleft
      exact absurd ho.sub_self_le hleft
  | amount _ hr =>
      have hspent : (b.spend owed).1 = b.remaining := by
        rw [spend_eq ho hr] at hleft ⊢
        by_cases hlt : owed.units < b.remaining.units
        · rw [if_pos hlt] at hleft
          exact absurd ho.sub_self_le hleft
        · exact if_neg hlt
      obtain ⟨hone, hunits⟩ := Number.isAmount_one
      have hzero := hr.sub_self_le
      have hrest := (Number.sub_amount hr hr (Nat.le_refl _)).1
      rw [Number.le_iff hrest Number.isAmount_zero, Number.units_zero] at hzero
      have hpos : 0 < Number.oneUnits := Nat.two_pow_pos _
      show b.remaining - (b.spend owed).1 < .one
      rw [hspent, Number.lt_iff hrest hone, hunits]
      omega

/-- What is left is a number, not negative, and not above what was granted. -/
theorem Within.bounds (h : b.Within granted) :
    .zero ≤ b.remaining ∧ b.remaining.isNaN = false ∧ b.remaining ≤ granted := by
  cases h with
  | endless hg hr =>
      rw [hg, hr]
      decide
  | amount hg hr hle =>
      rw [Number.le_iff Number.isAmount_zero hr, Number.le_iff hr hg, Number.units_zero]
      exact ⟨Nat.zero_le _, hr.isNaN, hle⟩

end Budget

namespace Machine

open Config

variable {W : Type}

namespace Transition

/-- The step changes neither the variables, the output, the counts nor the world. -/
structure Effectless (m : Transition W) : Prop where
  globals : m.after.memory.globals = m.before.memory.globals
  output : m.after.memory.output = m.before.memory.output
  tally : m.after.memory.tally = m.before.memory.tally
  world : m.after.world = m.before.world

/-- How a step is paid for. -/
inductive Metered [World W] (t : Tree) (m : Transition W) : Prop
  /-- The price of what is done is there, and it is taken off and counted once. -/
  | paid {e : Event} (he : m.event = some e) (hdeed : Deed t m.before e m.after)
      (hone : .one ≤ m.before.memory.budget.remaining)
      (hbudget : m.after.memory.budget = m.before.memory.budget.payStep)
      (hsteps : m.after.memory.tally.map Tally.steps =
        m.before.memory.tally.map fun tally => tally.steps + 1)
  /-- Nothing is done: there is nothing to be paid for, or it faults. -/
  | free (he : m.event = none)
      (hcosts : Costs t m.before → ∃ f, m.after.control = .raise f)
      (hbudget : m.after.memory.budget = m.before.memory.budget)
      (heffectless : m.Effectless)
  /-- The price is not there, and nothing changes but the flag. -/
  | refused (he : m.event = none) (hpoor : ¬ .one ≤ m.before.memory.budget.remaining)
      (hafter : m.after = m.before.suspend)
  /-- The step is that of a `wait`, and takes the time that it owes, as far as that
  goes. -/
  | timed {id : StmtId} {owed : Number} {g : Generator} (ho : m.before.Owes t id owed g)
      (he : ∀ e ∈ m.event, e.isPaid = false)
      (hspent : m.after.memory.budget.remaining =
        (m.before.memory.budget.spend owed).2.remaining)
      (heffectless : m.Effectless)

end Transition

namespace Config

variable {t : Tree} {root : StmtId} {c c' : Config W} {e : Option Event}
  {granted : Number}

/-- A refusal is on its way out, and no quiet step makes one up or stops it. -/
theorem Quiet.suspended_iff (h : Quiet t c c') :
    c'.control = .leave .suspended ↔ c.control = .leave .suspended := by
  cases h with
  | unwind | passFault | ended => exact Iff.rfl
  | pass hc | next hc | sequenceEnd hc | branchEnd hc | roundEnd hc | broken hc =>
      constructor
      · intro hs
        cases hs
      · intro hs
        cases hc.symm.trans hs
  | sequence h | branch h | noBranch h | «while» h | forEach h | skip h | whileRound h
  | forEachRound h | exhausted h | unlisted h =>
      constructor
      · intro hs
        cases hs
      · intro hs
        cases h.control.symm.trans hs

theorem Quiet.effectless (h : Quiet t c c') : Transition.Effectless ⟨c, none, c'⟩ := by
  cases h <;> exact ⟨rfl, rfl, rfl, rfl⟩

variable [World W]

/-- What costs a step is not done by a quiet one. -/
theorem Quiet.not_costs (h : Quiet t c c') : ¬ Costs t c := by
  intro hcosts
  -- with nothing left the same point would be refused; a quiet step does not look at that
  have hcore : (c.booked {} c.memory.tally).core = c.core := booked_core rfl
  obtain ⟨d, hquiet, -⟩ := h.mirror hcore
  have hrefused : Step t (c.booked {} c.memory.tally) none
      (c.booked {} c.memory.tally).suspend :=
    .refused (show ({} : Budget).canStep = false by decide) (hcosts.mirror hcore)
  obtain ⟨rfl, -⟩ := (Step.quiet hquiet).unique hrefused
  cases congrArg Budget.exhausted hquiet.keeps.1

/-- **Each step pays for what it does**, does nothing, is refused, or takes time. -/
theorem Step.metered (h : Step t c e c') : Transition.Metered t ⟨c, e, c'⟩ := by
  cases h with
  | quiet h =>
      exact .free rfl (fun hcosts => absurd hcosts h.not_costs) h.keeps.1 h.effectless
  | deed hb h =>
      have hsteps := (Step.deed hb h).attested.steps_eq
      obtain ⟨-, -, -, -, hbudget⟩ := h.mirror rfl
      rw [Option.toList_some, List.countP_singleton, h.isPaid] at hsteps
      exact .paid rfl h (of_decide_eq_true hb) hbudget hsteps
  | faulted | waitFaulted => exact .free rfl (fun _ => ⟨_, rfl⟩) rfl ⟨rfl, rfl, rfl, rfl⟩
  | refused hb => exact .refused rfl (of_decide_eq_false hb) rfl
  | waitRefused hb =>
      exact .refused rfl (of_decide_eq_false (Budget.canStep_of_hasTime hb)) rfl
  | waited h =>
      refine .timed h ?_ rfl ⟨rfl, rfl, rfl, rfl⟩
      intro e he
      cases he
      rfl
  | waiting h =>
      refine .timed h ?_ rfl ⟨rfl, rfl, rfl, rfl⟩
      intro e he
      cases he

omit [World W] in
theorem Costs.ne_suspended (h : Costs t c) : c.control ≠ .leave .suspended := by
  intro hs
  obtain ⟨id, hc | hc⟩ := h.control_eq <;> cases hc.symm.trans hs

/-- The books of a run: what is left is within the grant, and the flag is up exactly while
a refusal is on its way out, when less than the price of a step is left. -/
structure Solvent (granted : Number) (c : Config W) : Prop where
  within : c.memory.budget.Within granted
  flag : c.memory.budget.exhausted = true ↔ c.control = .leave .suspended
  poor : c.memory.budget.exhausted = true → c.memory.budget.remaining < .one

omit [World W] in
/-- Where a step is tried, nothing has been refused yet. -/
theorem Solvent.unflagged (hc : c.Solvent granted) (h : c.control ≠ .leave .suspended) :
    c.memory.budget.exhausted = false := by
  apply Bool.eq_false_iff.mpr
  intro hflag
  exact h (hc.flag.mp hflag)

omit [World W] in
/-- A step after which nothing is refused, as before. -/
private theorem Solvent.of_unflagged (hw : c'.memory.budget.Within granted)
    (hflag : c'.memory.budget.exhausted = false) (h : c'.control ≠ .leave .suspended) :
    c'.Solvent granted := by
  refine ⟨hw, ?_, ?_⟩
  · rw [hflag]
    exact ⟨Bool.noConfusion, fun hs => absurd hs h⟩
  · intro hup
    rw [hflag] at hup
    cases hup

omit [World W] in
private theorem Solvent.suspend (hw : c.memory.budget.Within granted)
    (hpoor : c.memory.budget.remaining < .one) : c.suspend.Solvent granted :=
  ⟨hw.refuse, ⟨fun _ => rfl, fun _ => rfl⟩, fun _ => hpoor⟩

/-- **Every step keeps the books.** -/
theorem Solvent.step (hs : Sound t root c) (hc : c.Solvent granted) (h : Step t c e c') :
    c'.Solvent granted := by
  cases h with
  | quiet h =>
      obtain ⟨hbudget, -⟩ := h.keeps
      refine ⟨?_, ?_, ?_⟩
      · rw [hbudget]
        exact hc.within
      · rw [hbudget, h.suspended_iff]
        exact hc.flag
      · rw [hbudget]
        exact hc.poor
  | deed hb h =>
      have hflag := hc.unflagged h.costs.ne_suspended
      obtain ⟨-, -, -, -, hbudget⟩ := h.mirror rfl
      apply Solvent.of_unflagged
      · rw [hbudget]
        exact hc.within.payStep hb
      · rw [hbudget]
        exact hflag
      · intro hleave
        cases h <;> cases hleave
  | faulted _ h =>
      exact .of_unflagged hc.within (hc.unflagged h.costs.ne_suspended)
        Control.noConfusion
  | refused hb => exact .suspend hc.within (hc.within.lt_one hb)
  | waitRefused hb =>
      exact .suspend hc.within (hc.within.lt_one (Budget.canStep_of_hasTime hb))
  | waitFaulted _ h =>
      refine .of_unflagged hc.within (hc.unflagged ?_) Control.noConfusion
      intro hs
      cases h.at_.control.symm.trans hs
  | waited h =>
      obtain ⟨⟨duration, hat⟩, howed⟩ := h.amount hs
      refine .of_unflagged (hc.within.spend howed) (hc.unflagged ?_) ?_
      · intro hs
        cases hat.control.symm.trans hs
      · intro hs
        cases hs
  | waiting h hl =>
      obtain ⟨-, howed⟩ := h.amount hs
      exact .suspend (hc.within.spend howed) (hc.within.lt_one_of_left howed hl)

end Config

section

variable [World W] {t : Tree} {root : StmtId} {c c' : Config W} {ms : List (Transition W)}
  {granted : Number}

theorem Config.Solvent.run (ht : t.Proper root) (hs : c.Sound t root)
    (hc : c.Solvent granted) (h : Run t c ms c') : c'.Solvent granted :=
  hs.keeps ht hc (fun hs hc hstep => hc.step hs hstep) h

end

end Machine

namespace Program

open Machine Machine.Config

variable {W : Type} [World W] {t : Tree} {p q : Program} {es : List Event}
  {subject : ActorId} {settings : Settings} {limit : Nat} {w : W} {budget : Number}
  {k : Tick W}

omit [World W] in
theorem solvent_opening (q : Program) (w : W) (budget : Number) :
    (q.opening w budget).Solvent (Budget.grant budget).remaining := by
  refine ⟨Budget.within_grant budget, ?_, ?_⟩
  · constructor <;> intro h <;> cases h
  · intro h
    cases h

/-- A tick in which the program has run has an outcome, that of its run. -/
theorem outcome?_of_advance? {ms : List (Transition W)} {c : Config W}
    {outcome : Except Fault Flow} (hgoing : (q.isHalted || q.isFinished) = false)
    (hk : q.advance? limit w budget = some k)
    (hrun : Run q.tree (q.opening w budget) ms c) (ho : c.outcome? = some outcome) :
    q.outcome? limit w budget = some outcome := by
  unfold advance? at hk
  unfold outcome?
  rw [hgoing] at hk ⊢
  obtain ⟨ending, hexecute, -⟩ := Option.bind_eq_some_iff.mp hk
  obtain ⟨c', hrun', ho', -⟩ := run_of_runWithin? hexecute
  obtain ⟨-, rfl⟩ := hrun.end_unique ho hrun' ho'
  cases ho.symm.trans ho'
  exact congrArg (Option.map Ending.outcome) hexecute

/--
**The budget protocol.**  When a program has run for a tick, whatever its state, its world
and its budget,

* the flag that something was refused is up exactly if the tick was suspended, and then
  less than the price of a step is left, so that no step that could have been paid for is
  given up; with an endless budget no tick is suspended;
* what is left of the budget is a number, not negative, and not above what was granted;
* no loop is at work any more, whatever the outcome;
* each step of the tick is as `Metered` has it: what the script does is done in a step
  whose price was there and has been taken off once; where something costs a step, it is
  paid for, faults or is refused; and a refusal changes nothing but the flag.
-/
theorem tick_metered (hstart : start t subject settings = .ok p) (h : Reached W p es q)
    (hgoing : (q.isHalted || q.isFinished) = false)
    (hk : q.advance? limit w budget = some k) :
    ∃ outcome, q.outcome? limit w budget = some outcome ∧
      (outcome = .ok .suspended ↔ k.program.memory.budget.exhausted = true) ∧
      (outcome = .ok .suspended → k.program.memory.budget.remaining < .one) ∧
      (budget = .infinity → outcome ≠ .ok .suspended) ∧
      (.zero ≤ k.program.memory.budget.remaining ∧
        k.program.memory.budget.remaining.isNaN = false ∧
        k.program.memory.budget.remaining ≤ if .zero < budget then budget else .zero) ∧
      k.program.memory.loops = [] ∧
      k.events = events (q.moves limit w budget) ∧
      ∀ m ∈ q.moves limit w budget, m.Metered t := by
  have hp := started_of_start hstart
  have hq := settled_of_ticks hp h
  rcases hq.run_of_tick hk with ⟨hover, -⟩ | ⟨-, hs, outcome, c', hrun, ho, rfl⟩
  · rw [hgoing] at hover
    cases hover
  obtain ⟨tally, halted, hmemory⟩ := q.settle_memory outcome c'.memory
  have houtcome : q.outcome? limit w budget = some outcome := by
    rw [← hq.tree] at hrun
    exact outcome?_of_advance? hgoing hk hrun ho
  have hsolvent := (solvent_opening q w budget).run hp.proper hs hrun
  obtain ⟨hend, -, hloops⟩ := (hs.run hp.proper hrun).over_of_outcome ho
  have hsuspended : outcome = .ok .suspended ↔ c'.memory.budget.exhausted = true := by
    rw [hsolvent.flag]
    cases hend with
    | suspended hc => exact ⟨fun _ => hc, fun _ => rfl⟩
    | completed hc | raised hc =>
        rw [hc]
        constructor <;> intro h <;> cases h
  rw [hmemory]
  refine ⟨outcome, houtcome, hsuspended,
    fun hout => hsolvent.poor (hsuspended.mp hout), ?_, hsolvent.within.bounds, hloops,
    rfl, fun m hm => (hrun.of_mem hm).2.metered⟩
  intro hinf hout
  have hpoor := hsolvent.poor (hsuspended.mp hout)
  subst hinf
  cases hsolvent.within with
  | endless _ hr =>
      rw [hr] at hpoor
      exact absurd hpoor (by decide)
  | amount hg => exact absurd hg.lt_infinity (by decide)

/-- A tick of four units pays for two conditions, and is suspended in the `wait`, which
has taken what was left. -/
theorem tick_metered_restless :
    ∃ p k, start restless 1 = .ok p ∧
      p.advance? 100 (GridWorld.empty 1 1) (.ofInt 4) = some k ∧
      p.outcome? 100 (GridWorld.empty 1 1) (.ofInt 4) = some (.ok .suspended) ∧
      k.events = [.decided 4 true, .decided 1 true] ∧
      k.program.memory.budget = { remaining := .zero, exhausted := true } ∧
      k.program.memory.budget.remaining < .one ∧
      ∀ m ∈ p.moves 100 (GridWorld.empty 1 1) (.ofInt 4), m.Metered restless := by
  have hrun : (start restless 1).toOption.map (fun p =>
      (p.isHalted || p.isFinished,
        (p.advance? 100 (GridWorld.empty 1 1) (.ofInt 4)).map fun k =>
          (k.events, k.program.memory.budget))) =
      some (false, some ([.decided 4 true, .decided 1 true],
        { remaining := .zero, exhausted := true })) := by
    decide +kernel
  obtain ⟨p, hstart, hfacts⟩ := exists_of_start hrun
  obtain ⟨hgoing, htick⟩ := Prod.mk.inj hfacts
  obtain ⟨k, hk, hfacts⟩ := Option.map_eq_some_iff.mp htick
  obtain ⟨hevents, hbudget⟩ := Prod.mk.inj hfacts
  obtain ⟨outcome, houtcome, hflag, hpoor, -, -, -, -, hmoves⟩ :=
    tick_metered hstart .start hgoing hk
  have hsuspended : outcome = .ok .suspended := by
    rw [hflag, hbudget]
  rw [hsuspended] at houtcome
  exact ⟨p, k, hstart, hk, houtcome, hevents, hbudget, hpoor hsuspended, hmoves⟩

end Program

end ActorScript
