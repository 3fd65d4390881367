import ActorScript.Proofs.Additivity

/-!
# Faults are retried

A statement that faults for the moment is dropped: whatever it has drawn from the
generator is given up, and the rest of the memory is as the last step before it left it.
The next tick comes back to it by quiet moves and tries the same evaluation on the same
generator, so that as long as the world does not change it can only fault again, or not
be tried at all.

## Main results

* `Run.fails` — where a run ends with a transient fault, the fault is the last thing that
  came up, and it has changed nothing.
* `Stuck.exists_tick` — a tick brings a program back to the fault that it is stuck at.
* `fault_retried` — the same for the programs that a start leads to, over all further
  ticks.
-/

namespace ActorScript

/-- A budget of at least one pays for a step, and has time. -/
theorem Budget.grant_of_one_le {amount : Number} (h : .one ≤ amount) :
    (grant amount).canStep = true ∧ (grant amount).hasTime = true := by
  have hpos : .zero < amount := Number.pos_of_le Number.isAmount_one.1 (by decide) h
  have hremaining : (grant amount).remaining = amount := if_pos hpos
  unfold canStep hasTime
  rw [hremaining, decide_eq_true h, decide_eq_true hpos]
  exact ⟨rfl, rfl⟩

namespace Machine

open Config Progress

variable {W : Type} [World W] {t : Tree} {root : StmtId} {c c' d : Config W} {f : Fault}
  {ms : List (Transition W)}

/-! ## Where a run faults -/

namespace Config

/-- The next run comes back by quiet moves to where the last one faulted. -/
theorem Fails.ride (ht : t.Proper root) (hc : c.Sound t root) (h : c.Fails t f) :
    Ride t (c.restart root) c := by
  cases h with
  | step h => exact hc.ride_of_costs ht h.costs
  | wait h => exact hc.ride_of_at h.at_

omit [World W] in
theorem control_of_error (h : c.outcome? = some (.error f)) :
    c.control = .raise f ∧ c.stack = [] := by
  unfold outcome? at h
  split at h
  · cases h
  · rename_i hk hcontrol
    cases h
    exact ⟨hcontrol, hk⟩
  · cases h

omit [World W] in
theorem outcome?_of_leave {flow : Flow} (hk : c.stack = [])
    (h : c.control = .leave flow) :
    c.outcome? = some (.ok flow) := by
  unfold outcome?
  rw [hk, h]

omit [World W] in
theorem outcome?_of_raise (hk : c.stack = []) (h : c.control = .raise f) :
    c.outcome? = some (.error f) := by
  unfold outcome?
  rw [hk, h]

end Config

private theorem pays_eq : Pays (fun _ => True) (fun b b' => b = b') where
  step h hcan := by
    subst h
    exact ⟨hcan, rfl⟩
  time h htime := by
    subst h
    exact htime
  spend h _ hleft := by
    subst h
    exact ⟨hleft, rfl⟩

/-- A run goes on, or stops. -/
theorem Config.Step.going_or_stops {e : Option Event} (h : Step t c e c')
    (hg : c.control.going = true) :
    c'.control.going = true ∨ e = none ∧ Stops t c c' := by
  rcases h.shadow pays_eq hg rfl rfl (fun _ _ _ _ => trivial) with ⟨hg', -⟩ | hstop
  · exact .inl hg'
  · exact .inr hstop

/-- **A run that ends with a transient fault** has come to a statement that faults, and
has done nothing since. -/
theorem Run.fails (h : Run t c ms c') (hg : c.control.going = true)
    (ho : c'.outcome? = some (.error f)) (hf : f.isFatal = false) :
    ∃ done c₁ rest, ms = done ++ ⟨c₁, none, c₁.goTo (.raise f)⟩ :: rest ∧
      Run t c done c₁ ∧ c₁.Fails t f ∧ Run t (c₁.goTo (.raise f)) rest c' := by
  have hend := (control_of_error ho).1
  induction h with
  | refl =>
      rw [hend] at hg
      exact absurd hg (by rw [Control.going, hf]; exact Bool.noConfusion)
  | @step c c₁ c' e ms hnone hstep hrun ih =>
      rcases hstep.going_or_stops hg with hg₁ | ⟨rfl, hstop⟩
      · obtain ⟨done, c₂, rest, rfl, hdone, hfails, hrest⟩ := ih hg₁ ho hend
        exact ⟨_ :: done, c₂, rest, rfl, .step hnone hstep hdone, hfails, hrest⟩
      · -- what stops the run is what it ends with
        have hcontrol := (hrun.of_stopped 0 hstop.not_going).1
        rw [hend] at hcontrol
        cases hstop with
        | stall h =>
            cases h with
            | faulted _ h =>
                cases hcontrol
                exact ⟨[], c, ms, rfl, .refl c, .step h, hrun⟩
            | waitFaulted _ h hv =>
                cases hcontrol
                exact ⟨[], c, ms, rfl, .refl c, .wait h hv, hrun⟩
            | refused | waitRefused => cases hcontrol
        | waiting => cases hcontrol

/-! ## The way back and the way out -/

theorem Ride.exists_run (h : Ride t c c') : ∃ ms, Run t c ms c' ∧ events ms = [] := by
  obtain ⟨ms, hrun, hquiet⟩ := h.exists_quiet
  exact ⟨ms, hrun, events_eq_nil fun m hm => (hquiet m hm).1⟩

/-- A run that has stopped comes to its end. -/
private theorem exists_unwound (k : List Task) :
    ∀ {c : Config W}, c.stack = k → c.control.going = false →
      ∃ ms c', Run t c ms c' ∧ c'.stack = [] := by
  induction k with
  | nil =>
      intro c hk _
      exact ⟨[], c, .refl c, hk⟩
  | cons task k ih =>
      intro c hk hg
      have hnone : c.outcome? = none := by
        unfold outcome?
        rw [hk]
      have hquiet : Quiet t c (c.unwound task k) := by
        cases hcontrol : c.control with
        | enter | iterate =>
            rw [hcontrol] at hg
            cases hg
        | raise => exact .passFault hcontrol hk
        | leave flow =>
            cases flow with
            | suspended => exact .unwind hcontrol hk (.suspended task)
            | completed | leaving =>
                rw [hcontrol] at hg
                cases hg
      obtain ⟨ms, c', hrun, hstack⟩ := ih (c := c.unwound task k) rfl hg
      exact ⟨_, c', .step hnone (.quiet hquiet) hrun, hstack⟩

/-- From where it stops, a run has its stack to unwind. -/
theorem Config.Stops.exists_end (root : StmtId) (h : Stops t c d) :
    ∃ ms c', Run t c ms c' ∧ c'.stack = [] ∧ c'.control = d.control ∧
      c'.restart root = d.restart root ∧ events ms = [] := by
  obtain ⟨ms, c', hrun, hstack⟩ := exists_unwound (t := t) d.stack rfl h.not_going
  obtain ⟨hcontrol, hrestart, hms⟩ := hrun.of_stopped root h.not_going
  refine ⟨_, c', .step h.outcome?_eq h.step hrun, hstack, hcontrol, hrestart, ?_⟩
  show events ms = []
  exact events_eq_nil fun m hm => (hms m hm).1

end Machine

namespace Program

open Machine Machine.Config

variable {W : Type} [World W] {t : Tree} {root : StmtId} {p q r : Program} {limit : Nat}
  {w : W} {budget : Number} {outcome : Except Fault Flow} {c c' : Config W} {f : Fault}

/-- How the run of a tick ends.  A program that is done or halted has none. -/
def outcome? (limit : Nat) (p : Program) (w : W) (budget : Number) :
    Option (Except Fault Flow) :=
  if p.isHalted || p.isFinished then none
  else (execute? p.tree limit p.root (p.memory.replenish budget).countTick w).map
    Ending.outcome

theorem outcome?_of_run {ms : List (Transition W)}
    (hover : (p.isHalted || p.isFinished) = false)
    (h : Run p.tree (p.opening w budget) ms c') (ho : c'.outcome? = some outcome)
    (hlimit : ms.length < limit) :
    p.outcome? limit w budget = some outcome := by
  have hrun : runWithin? p.tree limit [] (p.opening w budget) = _ :=
    h.runWithin? ho limit [] hlimit
  unfold outcome? execute?
  rw [hover]
  exact congrArg (Option.map _) hrun

theorem run_of_outcome? (h : p.outcome? limit w budget = some outcome) :
    ∃ c', Run p.tree (p.opening w budget) (p.moves limit w budget) c' ∧
      c'.outcome? = some outcome := by
  unfold outcome? at h
  unfold moves
  split at h
  · cases h
  · rename_i hover
    rw [if_neg hover]
    obtain ⟨ending, hrun, rfl⟩ := Option.map_eq_some_iff.mp h
    obtain ⟨c', hrun, houtcome, -⟩ := run_of_runWithin? hrun
    exact ⟨c', hrun, houtcome⟩

/-- The limit does not matter to a tick that keeps to it. -/
theorem advance?_unique {limit' : Nat} {k k' : Tick W}
    (h : p.advance? limit w budget = some k) (h' : p.advance? limit' w budget = some k') :
    k = k' := by
  rcases advance?_eq_some h with ⟨hover, -, rfl⟩ | ⟨hover, o, c, hrun, ho, rfl⟩ <;>
    rcases advance?_eq_some h' with ⟨hover', -, rfl⟩ | ⟨hover', o', c', hrun', ho', rfl⟩
  · rfl
  · cases hover.symm.trans hover'
  · cases hover.symm.trans hover'
  · obtain ⟨hms, rfl⟩ := hrun.end_unique ho hrun' ho'
    cases ho.symm.trans ho'
    rw [hms]

omit [World W] in
theorem settle_of_transient (p : Program) (m : Memory) (hf : f.isFatal = false) :
    p.settle (.error f) m =
      { p with memory := m.countTransientFault, lastTransient := some f } := by
  simp [settle, hf]

/-! ## Programs that are stuck -/

/-- The program has come to `c` and has dropped what it tried there: all else that the
program remembers is as it was at `c`. -/
structure Stuck (t : Tree) (root : StmtId) (c : Config W) (r : Program) : Prop where
  settled : Settled t root r
  going : (r.isHalted || r.isFinished) = false
  memory : r.memory.core = (c.restart root).memory.core

omit [World W] in
/-- What a program makes of a run that has stopped where the program is stuck. -/
private theorem Stuck.of_stop (h : Stuck t root c r) (hsound : c'.Sound t root)
    (ho : c'.outcome? = some outcome) (hg : c'.control.going = false)
    (hc' : (c'.restart root).core = (c.restart root).core) :
    Stuck t root c (r.settle outcome c'.memory) ∧
      (r.settle outcome c'.memory).lasting = r.lasting := by
  obtain ⟨hover, -, hloops⟩ := hsound.over_of_outcome ho
  obtain ⟨hfault, -, hfinished, hcore⟩ := settle_of_stop h.settled.root_eq hover hg
  have hmemory : (r.settle outcome c'.memory).memory.core =
      (c.restart root).memory.core :=
    by
    rw [hcore, core_memory_of_loops hloops, hc']
    rfl
  have hsame := hmemory.trans h.memory.symm
  refine ⟨⟨⟨(settle_tree ..).1.trans h.settled.tree,
    (settle_tree ..).2.trans h.settled.root_eq,
    ?_⟩, ?_, hmemory⟩, ?_⟩
  · rw [settle_progress]
    exact wellFormed_of_sound hsound ho
  · have hrunning : r.isHalted = false := (Bool.or_eq_false_iff.mp h.going).1
    have hhalted' : (r.settle outcome c'.memory).memory.core.halted =
        r.memory.core.halted := by
      rw [hsame]
    rw [hfinished, Bool.or_false]
    exact hhalted'.trans hrunning
  · unfold lasting
    rw [(settle_tree ..).1, (settle_tree ..).2, hsame, hfault]

/-- The tick that stalls where the program is stuck. -/
private theorem Stuck.tick_of_stalls {pre : List (Transition W)} {d d' : Config W}
    {o : Except Fault Flow} (ht : t.Proper root) (h : Stuck t root c r)
    (hpre : Run t (r.opening c.world budget) pre d) (hevents : events pre = [])
    (hd : d.core = c.core) (hstall : Stalls t d d')
    (ho : ∀ e : Config W, e.stack = [] → e.control = d'.control → e.outcome? = some o) :
    ∃ m limit,
      (∀ n ≥ limit, r.advance? n c.world budget = some ⟨r.settle o m, c.world, []⟩ ∧
        r.outcome? n c.world budget = some o) ∧
      Stuck t root c (r.settle o m) ∧ (r.settle o m).lasting = r.lasting ∧
      m.budget = d'.memory.budget := by
  obtain ⟨ms, e, hrun, hstack, hcontrol, hrestart, hnone⟩ :=
    (Stops.stall hstall).exists_end root
  have hrun' := hpre.trans hrun
  have houtcome := ho e hstack hcontrol
  have hsound := (sound_opening h.settled h.going c.world budget).run ht hrun'
  have hcore : (e.restart root).core = (c.restart root).core := by
    rw [hrestart, hstall.restart_eq]
    exact restart_core hd
  have hworld : e.world = c.world := congrArg (·.world) hcore
  have hbudget : e.memory.budget = d'.memory.budget := congrArg (·.memory.budget) hrestart
  have hg : e.control.going = false := by
    rw [hcontrol]
    exact (Stops.stall hstall).not_going
  obtain ⟨hstuck, hlasting⟩ := h.of_stop hsound houtcome hg hcore
  refine ⟨e.memory, (pre ++ ms).length + 1, fun n hn => ?_, hstuck, hlasting, hbudget⟩
  rw [← h.settled.tree] at hrun'
  refine ⟨?_, outcome?_of_run h.going hrun' houtcome hn⟩
  have hall : events (pre ++ ms) = [] := by
    rw [events_append, hevents, hnone]
    rfl
  rw [advance?_of_run h.going hrun' houtcome hn, hworld, hall]

/-- **A tick of a program that is stuck** comes back to the fault, or is refused. -/
theorem Stuck.exists_tick (ht : t.Proper root) (hc : c.Sound t root)
    (hfails : c.Fails t f) (hf : f.isFatal = false) (h : Stuck t root c r)
    (budget : Number) :
    ∃ limit k o, (∀ n ≥ limit, r.advance? n c.world budget = some k ∧
        r.outcome? n c.world budget = some o) ∧
      k.events = [] ∧ k.world = c.world ∧ Stuck t root c k.program ∧
      k.program.lasting = r.lasting ∧
      (o = .error f ∧ k.program.lastTransient = some f ∨
        o = .ok .suspended ∧ k.program.memory.budget.exhausted = true ∧
        ¬ .one ≤ budget) := by
  have hopening : (r.opening c.world budget).core = (c.restart root).core :=
    opening_core (c := c.restart root) h.settled.root_eq h.memory budget
  obtain ⟨d, hride, hd, hb⟩ := (hfails.ride ht hc).mirror hopening
  obtain ⟨pre, hpre, hevents⟩ := hride.exists_run
  rcases (hfails.mirror hd).stalls hf with hstall | ⟨hstall, hpoor⟩
  · obtain ⟨m, limit, hticks, hstuck, hlasting, -⟩ :=
      h.tick_of_stalls ht hpre hevents hd hstall fun _ => outcome?_of_raise
    refine ⟨limit, _, _, hticks, rfl, rfl, hstuck, hlasting, .inl ⟨rfl, ?_⟩⟩
    rw [settle_of_transient r m hf]
  · obtain ⟨m, limit, hticks, hstuck, hlasting, hbudget⟩ :=
      h.tick_of_stalls ht hpre hevents hd hstall fun _ => outcome?_of_leave
    refine ⟨limit, _, _, hticks, rfl, rfl, hstuck, hlasting,
      .inr ⟨rfl, ?_, fun hone => ?_⟩⟩
    · show m.budget.exhausted = true
      rw [hbudget]
      rfl
    · have hgrant : d.memory.budget = .grant budget := hb
      rw [hgrant, (Budget.grant_of_one_le hone).1,
        (Budget.grant_of_one_le hone).2] at hpoor
      rcases hpoor with hpoor | hpoor <;> cases hpoor

/-- Ticks in an unchanged world leave a program stuck. -/
theorem Stuck.ticks (ht : t.Proper root) (hc : c.Sound t root) (hfails : c.Fails t f)
    (hf : f.isFatal = false) {es : List Event} (hp : Stuck t root c p)
    (h : Ticks (fun _ _ w' _ => w' = c.world) p es r) :
    es = [] ∧ r.lasting = p.lasting ∧ Stuck t root c r := by
  induction h with
  | start => exact ⟨rfl, rfl, hp⟩
  | @tick es r limit w' budget k _ hw hk ih =>
      obtain ⟨rfl, hlasting, hr⟩ := ih
      subst hw
      obtain ⟨limit', k', o, hticks, hevents, -, hstuck, hlasting', -⟩ :=
        hr.exists_tick ht hc hfails hf budget
      cases advance?_unique hk (hticks limit' (Nat.le_refl _)).1
      exact ⟨hevents, hlasting'.trans hlasting, hstuck⟩

/--
**Transient faults are atomic and retried.**  If a tick ends with a transient fault, the
statement that faulted has changed nothing: the program does what it did before, and
remembers what it did at the configuration `c` at which the fault came up.  In any number
of further ticks that find the world as it was left, whatever their budgets, the program
does nothing and stays as it is but for the books of its ticks; and each of them comes to
an end, with the same fault or, if its budget is less than one, with a refusal.
-/
theorem fault_retried {subject : ActorId} {settings : Settings}
    {es : List Event} {k : Tick W} (hstart : start t subject settings = .ok p)
    (h : Reached W p es q) (hk : q.advance? limit w budget = some k)
    (ho : q.outcome? limit w budget = some (.error f)) (hf : f.isFatal = false) :
    (∃ done c rest, q.moves limit w budget =
      done ++ ⟨c, none, c.goTo (.raise f)⟩ :: rest ∧
      Run t (q.opening w budget) done c ∧ k.events = events done ∧ k.world = c.world ∧
      k.program.memory = Memory.countTransientFault { c.memory with loops := [] } ∧
      k.program.lastTransient = some f) ∧
    ∀ es' r, Ticks (fun _ _ w' _ => w' = k.world) k.program es' r →
      es' = [] ∧ r.lasting = k.program.lasting ∧
      ∀ budget', ∃ limit' k' o', (∀ n ≥ limit', r.advance? n k.world budget' = some k' ∧
          r.outcome? n k.world budget' = some o') ∧
        k'.events = [] ∧ k'.world = k.world ∧ k'.program.lasting = k.program.lasting ∧
        (o' = .error f ∧ k'.program.lastTransient = some f ∨
          o' = .ok .suspended ∧ k'.program.memory.budget.exhausted = true ∧
            ¬ .one ≤ budget') := by
  have hstarted := started_of_start hstart
  have hq := settled_of_ticks hstarted h
  obtain ⟨c', hrun, ho'⟩ := run_of_outcome? ho
  rw [hq.tree] at hrun
  rcases hq.run_of_tick hk with ⟨hover, -⟩ | ⟨hover, hopening, o, c₁, hrun₁, ho₁, rfl⟩
  · unfold outcome? at ho
    rw [hover] at ho
    cases ho
  obtain ⟨-, rfl⟩ := hrun.end_unique ho' hrun₁ ho₁
  cases ho'.symm.trans ho₁
  obtain ⟨done, c, rest, hmoves, hdone, hfails, hrest⟩ := hrun.fails rfl ho' hf
  have hc := hopening.run hstarted.proper hdone
  obtain ⟨hcontrol, hrestart, hquiet⟩ := hrest.of_stopped p.root hf
  have hsound := hopening.run hstarted.proper hrun
  obtain ⟨hend, -, hloops⟩ := hsound.over_of_outcome ho'
  have hg : c'.control.going = false := by
    rw [hcontrol]
    exact hf
  have hworld : c'.world = c.world := congrArg (·.world) hrestart
  have hmemory : c'.memory = { c.memory with loops := [] } := by
    have hplain : c'.memory = { c'.memory with loops := [] } := by rw [← hloops]
    exact hplain.trans (congrArg (·.memory) hrestart)
  have hstuck : Stuck t p.root c (q.settle (.error f) c'.memory) := by
    obtain ⟨-, hhalted, hfinished, hcore⟩ := settle_of_stop hq.root_eq hend hg
    refine ⟨hq.tick hstarted.proper hk, ?_, ?_⟩
    · rw [hhalted, hfinished, Bool.or_false, hrun.attested.halted]
      exact (Bool.or_eq_false_iff.mp hover).1
    · rw [hcore, core_memory_of_loops hloops, hrestart]
      rfl
  refine ⟨⟨done, c, rest, hmoves, hdone, ?_, hworld, ?_, ?_⟩, ?_⟩
  · have hnone : events rest = [] := events_eq_nil fun m hm => (hquiet m hm).1
    show events (q.moves limit w budget) = events done
    rw [hmoves, events_append, events_cons, hnone]
    exact List.append_nil _
  · rw [settle_of_transient q _ hf, hmemory]
  · rw [settle_of_transient q _ hf]
  · intro es' r hticks
    simp only [hworld] at hticks ⊢
    obtain ⟨hnone, hlasting, hr⟩ := hstuck.ticks hstarted.proper hc hfails hf hticks
    refine ⟨hnone, hlasting, fun budget' => ?_⟩
    obtain ⟨limit', k', o', htick, hevents, hsame, -, hlasting', hcase⟩ :=
      hr.exists_tick hstarted.proper hc hfails hf budget'
    exact ⟨limit', k', o', htick, hevents, hsame, hlasting'.trans hlasting, hcase⟩

/--
```text
for each foe in actors where random 1 < 1 / foe.x { }
```
-/
def wary : Tree where
  names := .ofList ["foe"]
  exprs :=
    #[.number .one, .random 0, .var 1, .property .x 2, .binary .div 0 3, .binary .lt 1 4]
  stmts := #[.skip, .forEach 1 (.actors none) (some 5) none 0]
  globals := #[(1, .object)]
  root := some 1

/-- Two actors, the second of which stands at the left edge. -/
def edge : GridWorld :=
  (((GridWorld.empty 4 1).spawn { kind := .player, x := .ofInt 2, y := .zero }).2.spawn
    { kind := .enemy, x := .zero, y := .zero }).2

/-- The filter divides by zero at the second actor, when two numbers have been drawn. -/
theorem fault_retried_wary :
    ∃ p k, start wary 1 = .ok p ∧ p.advance? 100 edge .one = some k ∧
      k.program.lastTransient = some .divisionByZero ∧
      ∀ es r, Ticks (fun _ _ w _ => w = k.world) k.program es r →
        es = [] ∧ r.lasting = k.program.lasting := by
  have hrun : (start wary 1).toOption.map (fun p =>
      ((p.advance? 100 edge .one).isSome,
        (p.outcome? 100 edge .one).map fun o => match o with
          | .error f => some f
          | .ok _ => none)) =
      some (true, some (some .divisionByZero)) := by
    decide +kernel
  obtain ⟨p, hstart, hfacts⟩ := exists_of_start hrun
  obtain ⟨hadvance, houtcome⟩ := Prod.mk.inj hfacts
  obtain ⟨k, hk⟩ := Option.isSome_iff_exists.mp hadvance
  obtain ⟨o, ho, hfault⟩ := Option.map_eq_some_iff.mp houtcome
  have herror : o = .error .divisionByZero := by
    cases o with
    | error f => exact congrArg Except.error (Option.some.inj hfault)
    | ok => cases hfault
  subst herror
  obtain ⟨⟨_, _, _, _, _, _, _, _, hlast⟩, hticks⟩ :=
    fault_retried hstart .start hk ho rfl
  refine ⟨p, k, hstart, hk, hlast, fun es r h => ?_⟩
  obtain ⟨hnone, hlasting, -⟩ := hticks es r h
  exact ⟨hnone, hlasting⟩

end Program

end ActorScript
