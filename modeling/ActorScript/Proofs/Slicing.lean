import ActorScript.Proofs.Shadow
import ActorScript.Proofs.Ticks

/-!
# Slicing

A script may be run in one tick or in many, with budgets of any kind.  As long
as nobody else touches the world, what it does is the same: every run in ticks is
the beginning of the one run that has an endless budget.

Between two ticks a program stands at a point of the endless run (`Joins`).  It
can be ahead of it by the draws of a `wait` whose time has been worked out, but
not been paid in full; the endless run makes these draws when it passes the
`wait`.

## Main results

* `Follows.tick` — a tick goes on along the endless run.
* `slicing_independent` — what two runs in ticks do is comparable, and the same if
  both are done or both are halted.
-/

namespace ActorScript

namespace Machine

open Config Progress

variable {W : Type} [World W] {t : Tree} {root : StmtId} {c c' d : Config W}
  {ms : List (Transition W)}

/-! ## The endless run -/

/-- The budget of the second run has no end. -/
def Endless (_ b : Budget) : Prop := b.remaining = .infinity

theorem pays_endless : Pays Number.IsAmount Endless where
  step {b b'} h _ := by
    constructor
    · unfold Budget.canStep
      rw [h]
      decide
    · show b'.remaining - .one = .infinity
      rw [h]
      decide
  time h _ := by
    unfold Budget.hasTime
    rw [h]
    decide
  spend {b b' owed} h hok _ := by
    obtain ⟨hspent, hleft⟩ := Budget.spend_infinity hok h
    refine ⟨?_, hleft⟩
    rw [hspent]
    exact hok.sub_self_le

/-- A run in ticks that has come to `c` stands where the endless run is at `d`; the
effects are those by which it is ahead. -/
inductive Joins (t : Tree) (c d : Config W) : List Effect → Prop
  | here (hg : c.control.going = true) (hc : d.core = c.core) : Joins t c d []
  | waiting {id : StmtId} {owed left : Number} {g : Generator} {p : Progress}
      (ho : d.Owes t id owed g)
      (hp : d.memory.progress.setFrame? id (.wait left) = some p)
      (hc : c.core = (d.noted g p).core) : Joins t c d (d.memory.generator.draws g)

/-- The point at which a run stopped is one at which the endless run can be joined. -/
theorem Config.Stops.joins {c₁ c₂ o : Config W} (ht : t.Proper root)
    (hc₁ : c₁.Sound t root) (h : Stops t c₁ c₂) (hd : d.core = c₁.core)
    (hb : d.memory.budget.remaining = .infinity) (ho : o.core = (c₂.restart root).core) :
    ∃ c, Ride t o c ∧ Joins t c d (Transition.effects t ⟨c₁, none, c₂⟩) := by
  have hg := h.going
  cases h with
  | stall h =>
      obtain ⟨c, hride, hc, -⟩ := h.ride ht hc₁ ho
      have hcontrol : c.control = c₁.control := congrArg (·.control) hc
      rw [h.effects_eq]
      exact ⟨c, hride, .here (hcontrol ▸ hg) (hd.trans hc.symm)⟩
  | @waiting id owed g p howes _ hp =>
      obtain ⟨c, hride, hc, -⟩ := (howes.ride ht hc₁ hp).mirror ho
      have hgen : d.memory.generator = c₁.memory.generator :=
        congrArg (·.memory.generator) hd
      have hprogress : d.memory.progress = c₁.memory.progress :=
        congrArg (·.memory.progress) hd
      have hdraws : Transition.effects t
          ⟨c₁, none, (((c₁.drawn g).spent owed).done p).suspend⟩ =
          d.memory.generator.draws g := by
        rw [hgen]
        exact List.append_nil _
      have htime : d.memory.budget.hasTime = true := by
        unfold Budget.hasTime
        rw [hb]
        decide
      rw [hdraws]
      exact ⟨c, hride, .waiting (howes.mirror hd fun _ => htime) (hprogress ▸ hp)
        (hc.trans (noted_core hd).symm)⟩

/-- The endless run passes a `wait`, and makes its draws there. -/
theorem Config.Owes.pass {id : StmtId} {owed : Number} {g : Generator} {q : Progress}
    (h : d.Owes t id owed g) (hd : d.Sound t root)
    (hb : d.memory.budget.remaining = .infinity)
    (hq : d.memory.progress.finish? id = some q) :
    ∃ d', Run t d [⟨d, some (.waited id), d'⟩] d' ∧
      d'.core = ((d.drawn g).done q).core ∧ d'.memory.budget.remaining = .infinity ∧
      Transition.effects t ⟨d, some (.waited id), d'⟩ = d.memory.generator.draws g := by
  have hamount := (h.amount hd).2
  obtain ⟨hspent, hleft⟩ := Budget.spend_infinity hamount hb
  have hpaid : d.left owed ≤ .zero := by
    unfold left
    rw [hspent]
    exact hamount.sub_self_le
  exact ⟨_, .step h.outcome?_eq (.waited h hpaid hq) (.refl _), rfl, hleft,
    List.append_nil _⟩

end Machine

namespace Program

open Machine Config Progress

variable {W : Type} [World W] {t : Tree} {root : StmtId} {p₀ p : Program} {w : W}
  {d₀ : Config W} {fs : List Effect}

/-- How a program that has been run in ticks goes with the endless run from `d₀`; the
effects are all that it has done. -/
inductive Follows (t : Tree) (p₀ : Program) (d₀ : Config W) (p : Program) (w : W) :
    List Effect → Prop
  | running {ms : List (Transition W)} {d : Config W} {x : List Effect}
      (hrun : Run t d₀ ms d) (hb : d.memory.budget.remaining = .infinity)
      (hp : (p.isHalted || p.isFinished) = false) (hf : p.fault = p₀.fault)
      (hopen : ∀ b, ∃ c, Ride t (p.opening w b) c ∧ Joins t c d x) :
      Follows t p₀ d₀ p w (effects t ms ++ x)
  | ended {ms : List (Transition W)} {d : Config W} {outcome : Except Fault Flow}
      (hrun : Run t d₀ ms d) (ho : d.outcome? = some outcome)
      (hp : (p.isHalted || p.isFinished) = true)
      (hm : p.memory.core = (p₀.settle outcome d.memory).memory.core)
      (hf : p.fault = (p₀.settle outcome d.memory).fault) (hw : w = d.world) :
      Follows t p₀ d₀ p w (effects t ms)

/-- What a program has done is the beginning of what the endless run does. -/
theorem Follows.exists_prefix (ht : t.Proper root) (hd₀ : d₀.Sound t root)
    (h : Follows t p₀ d₀ p w fs) : ∃ ms d, Run t d₀ ms d ∧ fs <+: effects t ms := by
  cases h with
  | @running ms d x hrun hb _ _ hopen =>
      obtain ⟨c, -, hjoin⟩ := hopen .zero
      cases hjoin with
      | here => exact ⟨ms, d, hrun, by simp⟩
      | @waiting id owed left g p ho hp hc =>
          obtain ⟨q, hq⟩ := exists_finish? hp
          obtain ⟨d', hstep, -, -, he⟩ := ho.pass (hd₀.run ht hrun) hb hq
          refine ⟨_, d', hrun.trans hstep, ?_⟩
          simp [he]
  | ended hrun => exact ⟨_, _, hrun, List.prefix_refl _⟩

/-- A tick of the program has come to its end at `c'`. -/
structure Ended (t : Tree) (root : StmtId) (p₀ p : Program) (c' : Config W)
    (outcome : Except Fault Flow) : Prop where
  settled : Settled t root p
  fault : p.fault = p₀.fault
  ended : c'.outcome? = some outcome
  table : c'.Over t root outcome
  running : c'.memory.halted = false

section Tick

variable {ms ms' : List (Transition W)} {c c' d : Config W} {outcome : Except Fault Flow}

/-- A run that has stopped leaves the program where the endless run can be joined. -/
theorem Follows.of_stop {x : List Effect} (h : Ended t root p₀ p c' outcome)
    (hg : c'.control.going = false) (hrun : Run t d₀ ms d)
    (hb : d.memory.budget.remaining = .infinity)
    (hopen : ∀ {o : Config W}, o.core = (c'.restart root).core →
      ∃ c, Ride t o c ∧ Joins t c d x) :
    Follows t p₀ d₀ (p.settle outcome c'.memory) c'.world (effects t ms ++ x) := by
  obtain ⟨hfault, hhalted, hfinished, hcore⟩ :=
    settle_of_stop h.settled.root_eq h.table hg
  refine .running hrun hb ?_ (hfault.trans h.fault) fun b =>
    hopen (opening_core ((settle_tree ..).2.trans h.settled.root_eq) hcore b)
  rw [hhalted, h.running, hfinished]
  rfl

/-- A run that is the shadow of the endless run keeps the program on it. -/
theorem Follows.of_shadow (ht : t.Proper root) (h : Ended t root p₀ p c' outcome)
    (hrun : Run t d₀ ms d) (hshadow : Shadow t root Endless d ms' c') :
    Follows t p₀ d₀ (p.settle outcome c'.memory) c'.world
      (effects t ms ++ effects t ms') := by
  cases hshadow with
  | ended hrun' hg hd he =>
      obtain ⟨hm, hfault⟩ := settle_congr outcome (congrArg Config.memory hd.symm) h.fault
      rw [he, ← effects_append]
      exact .ended (hrun.trans hrun') ((outcome?_of_core hd).trans h.ended)
        (settle_of_going h.settled.root_eq h.table hg) hm hfault
          (congrArg (·.world) hd.symm)
  | stopped hrun' hd hb hc₁ hstop _ hcontrol hrestart he =>
      rw [he, ← List.append_assoc, ← effects_append]
      have hg : c'.control.going = false := hcontrol ▸ hstop.not_going
      exact .of_stop h hg (hrun.trans hrun') hb fun hcore =>
        hstop.joins ht hc₁ hd hb (hcore.trans (congrArg core hrestart))

/-- A run from the point where the endless run is. -/
private theorem Follows.of_here (ht : t.Proper root) (h : Ended t root p₀ p c' outcome)
    (hrunD : Run t d₀ ms d) (hb : d.memory.budget.remaining = .infinity)
    (hc : c.Sound t root) (hrun : Run t c ms' c') (hg : c.control.going = true)
    (hcore : d.core = c.core) :
    Follows t p₀ d₀ (p.settle outcome c'.memory) c'.world
      (effects t ms ++ effects t ms') := by
  refine .of_shadow ht h hrunD (hrun.shadow pays_endless ht hc hg hcore hb ?_)
  exact fun m hm _ _ _ ho => (ho.amount (hc.mem_run ht hrun m hm)).2

/-- A run that is taken up in a `wait`. -/
private theorem Follows.of_waiting {id : StmtId} {owed left : Number} {g : Generator}
    {q₀ : Progress} (ht : t.Proper root) (hd₀ : d₀.Sound t root)
    (h : Ended t root p₀ p c' outcome) (hrunD : Run t d₀ ms d)
    (hb : d.memory.budget.remaining = .infinity) (hc : c.Sound t root)
    (hrun : Run t c ms' c') (howes : d.Owes t id owed g)
    (hq₀ : d.memory.progress.setFrame? id (.wait left) = some q₀)
    (hcore : c.core = (d.noted g q₀).core) :
    Follows t p₀ d₀ (p.settle outcome c'.memory) c'.world
      (effects t ms ++ d.memory.generator.draws g ++ effects t ms') := by
  obtain ⟨e, c₁, ms', rfl, hstep, hrun', hcase⟩ :=
    hrun.of_noted h.ended howes hq₀ hcore
  rcases hcase with ⟨-, rfl, q, hq, rfl⟩ | ⟨hl, rfl, q, hq, rfl⟩
  · -- the rest of the time has been paid: the endless run passes the `wait` too
    obtain ⟨d', hpass, hd', hb', he⟩ := howes.pass (hd₀.run ht hrunD) hb hq
    have hdone : c.core.done q = ((d.drawn g).done q).core := by
      rw [hcore]
      rfl
    -- the draws have been made when the time was worked out
    have hnone : Transition.effects t
        ⟨c, some (.waited id), (c.spent left).done q⟩ = [] :=
      (List.append_nil _).trans (Generator.draws_self _)
    have hfollows :=
      Follows.of_here ht h (hrunD.trans hpass) hb' (hc.step ht hstep) hrun' rfl
      (hd'.trans hdone.symm)
    simpa [he, hnone] using hfollows
  · -- the program waits on, with less of the time left
    obtain ⟨hcontrol, hrestart, hnil⟩ := hrun'.of_stopped root rfl
    have hnone : Transition.effects t ⟨c, none, ((c.spent left).done q).suspend⟩ = [] :=
      (List.append_nil _).trans (Generator.draws_self _)
    rw [effects_cons, hnone, effects_eq_nil hnil, List.append_nil, List.append_nil]
    have hg : c'.control.going = false := by
      rw [hcontrol]
      rfl
    have hgen : c.memory.generator = g := congrArg (·.memory.generator) hcore
    have hprogress : c.memory.progress = q₀ := congrArg (·.memory.progress) hcore
    have hq' : c.memory.progress.setFrame? id (.wait (c.left left)) = some q := by
      rw [hprogress, setFrame?_setFrame? hq₀]
      exact hq
    refine .of_stop h hg hrunD hb fun {o} hcore' => ?_
    have hnoted : o.core = ((c.noted g q).restart root).core := by
      rw [hcore', hrestart, ← hgen]
      rfl
    obtain ⟨c₂, hride, hc₂, -⟩ := ((howes.noted hq₀ hcore).ride ht hc hq').mirror hnoted
    have hcore₂ : (c.noted g q).core = ((d.noted g q₀).noted g q).core := noted_core hcore
    exact ⟨c₂, hride, .waiting howes hq (hc₂.trans hcore₂)⟩

end Tick

/-- The effects of a tick. -/
def effects (limit : Nat) (p : Program) (w : W) (budget : Number) : List Effect :=
  Machine.effects p.tree (p.moves limit w budget)

/-- **A tick goes on along the endless run.** -/
theorem Follows.tick {limit : Nat} {budget : Number} {k : Tick W} (ht : t.Proper root)
    (hd₀ : d₀.Sound t root) (hp : Settled t root p) (h : Follows t p₀ d₀ p w fs)
    (hk : p.advance? limit w budget = some k) :
    Follows t p₀ d₀ k.program k.world (fs ++ p.effects limit w budget) := by
  unfold effects
  rcases hp.run_of_tick hk with ⟨-, hmoves, rfl⟩
    | ⟨hgoing, hsound, outcome, c', hmoves, ho, rfl⟩
  · rw [hmoves]
    simpa using h
  · generalize p.moves limit w budget = ms at hmoves ⊢
    rw [hp.tree]
    cases h with
    | ended _ _ hover =>
        rw [hgoing] at hover
        cases hover
    | running hrunD hb _ hf hopen =>
        have hended : Ended t root p₀ p c' outcome :=
          { settled := hp
            fault := hf
            ended := ho
            table := ((hsound.run ht hmoves).over_of_outcome ho).1
            running := hmoves.attested.halted.trans (Bool.or_eq_false_iff.mp hgoing).1 }
        obtain ⟨c, hride, hjoins⟩ := hopen budget
        obtain ⟨pre, ms, rfl, hrun, hpre⟩ := hride.run hmoves ho
        have hc := hsound.ride ht hride
        rw [effects_append, effects_eq_nil hpre, List.nil_append]
        cases hjoins with
        | here hg hcore =>
            rw [List.append_nil]
            exact .of_here ht hended hrunD hb hc hrun hg hcore
        | waiting howes hq₀ hcore =>
            exact .of_waiting ht hd₀ hended hrunD hb hc hrun howes hq₀ hcore

/-! ## Courses of ticks -/

/-- Where a program has come to in the course of some ticks, and all that it has done. -/
structure Course (W : Type) where
  program : Program
  world : W
  effects : List Effect

/-- Runs a program in ticks with the given budgets.  The world is left to the program. -/
def follow? (limit : Nat) : List Number → Program → W → Option (Course W)
  | [], p, w => some ⟨p, w, []⟩
  | budget :: budgets, p, w => do
      let k ← p.advance? limit w budget
      let r ← follow? limit budgets k.program k.world
      return { r with effects := p.effects limit w budget ++ r.effects }

theorem Follows.course {limit : Nat} (ht : t.Proper root) (hd₀ : d₀.Sound t root)
    {budgets : List Number} :
    ∀ {p : Program} {w : W} {fs : List Effect} {r : Course W}, Settled t root p →
      Follows t p₀ d₀ p w fs → follow? limit budgets p w = some r →
      Follows t p₀ d₀ r.program r.world (fs ++ r.effects) := by
  induction budgets with
  | nil =>
      intro p w fs r _ h hr
      cases hr
      rw [List.append_nil]
      exact h
  | cons budget budgets ih =>
      intro p w fs r hp h hr
      simp only [follow?, Option.pure_def, Option.bind_eq_bind, Option.bind_eq_some_iff,
        Option.some.injEq] at hr
      obtain ⟨k, hk, r', hr', rfl⟩ := hr
      have hfollows := ih (hp.tick ht hk) (h.tick ht hd₀ hp hk) hr'
      rwa [List.append_assoc] at hfollows

/-- A program at its start stands at the start of the endless run. -/
theorem Started.follows (hp : Started t p) (w : W) :
    Follows t p (p.opening w .infinity) p w [] := by
  have hb : (p.opening w .infinity).memory.budget.remaining = .infinity := by
    show (Budget.grant .infinity).remaining = .infinity
    decide
  exact .running (.refl _) hb hp.going rfl fun b =>
    ⟨_, .refl _, .here rfl (p.opening_core_eq w _ b)⟩

/-- Two programs that are done with the same script have done the same. -/
theorem Follows.unique {p' : Program} {w' : W} {fs' : List Effect}
    (h : Follows t p₀ d₀ p w fs) (h' : Follows t p₀ d₀ p' w' fs')
    (hp : (p.isHalted || p.isFinished) = true)
    (hp' : (p'.isHalted || p'.isFinished) = true) :
    fs = fs' ∧ w = w' ∧ p.memory.core = p'.memory.core ∧ p.fault = p'.fault := by
  cases h with
  | running _ _ hgoing =>
      rw [hp] at hgoing
      cases hgoing
  | ended hrun ho _ hm hf hw =>
      cases h' with
      | running _ _ hgoing =>
          rw [hp'] at hgoing
          cases hgoing
      | ended hrun' ho' _ hm' hf' hw' =>
          obtain ⟨rfl, rfl⟩ := hrun.end_unique ho hrun' ho'
          cases ho.symm.trans ho'
          exact ⟨rfl, hw.trans hw'.symm, hm.trans hm'.symm, hf.trans hf'.symm⟩

/-- The counts of steps are part of the core. -/
theorem steps_of_core {m m' : Memory} (h : m.core = m'.core) :
    m.tally.map Tally.steps = m'.tally.map Tally.steps := by
  have hsteps : ∀ m : Memory, m.tally.map Tally.steps = m.core.tally.map Tally.steps := by
    intro m
    unfold Memory.core
    cases m.tally <;> rfl
  rw [hsteps m, hsteps m', h]

/--
**Slicing does not matter.**  Run a script twice from the same start, in ticks with any
budgets, and leave the world to it: one run does what the other one does, or a beginning
of it.  If both are done, or both are halted, they end up in the same state.
-/
theorem slicing_independent {subject : ActorId} {settings : Settings}
    (hstart : start t subject settings = .ok p) {limit₁ limit₂ : Nat}
    {budgets₁ budgets₂ : List Number} {r₁ r₂ : Course W}
    (h₁ : follow? limit₁ budgets₁ p w = some r₁)
    (h₂ : follow? limit₂ budgets₂ p w = some r₂) :
    (r₁.effects <+: r₂.effects ∨ r₂.effects <+: r₁.effects) ∧
    ((r₁.program.isFinished = true ∧ r₂.program.isFinished = true ∨
        r₁.program.isHalted = true ∧ r₂.program.isHalted = true) →
      r₁.effects = r₂.effects ∧ r₁.world = r₂.world ∧
      r₁.program.memory.output = r₂.program.memory.output ∧
      r₁.program.memory.globals = r₂.program.memory.globals ∧
      r₁.program.memory.generator = r₂.program.memory.generator ∧
      r₁.program.memory.tally.map Tally.steps = r₂.program.memory.tally.map Tally.steps ∧
      r₁.program.fault = r₂.program.fault) := by
  have hp := started_of_start hstart
  have ht := hp.proper
  have hfollows := hp.follows w
  have hd₀ := sound_opening hp.settled hp.going w .infinity
  have hfollows₁ := hfollows.course ht hd₀ hp.settled h₁
  have hfollows₂ := hfollows.course ht hd₀ hp.settled h₂
  rw [List.nil_append] at hfollows₁ hfollows₂
  constructor
  · obtain ⟨ms₁, d₁, hrun₁, hprefix₁⟩ := hfollows₁.exists_prefix ht hd₀
    obtain ⟨ms₂, d₂, hrun₂, hprefix₂⟩ := hfollows₂.exists_prefix ht hd₀
    rcases hrun₁.comparable hrun₂ with ⟨ms, rfl⟩ | ⟨ms, rfl⟩
    · rw [effects_append] at hprefix₂
      exact List.prefix_or_prefix_of_prefix
        (hprefix₁.trans (List.prefix_append _ _)) hprefix₂
    · rw [effects_append] at hprefix₁
      exact List.prefix_or_prefix_of_prefix hprefix₁
        (hprefix₂.trans (List.prefix_append _ _))
  · intro hover
    have hover₁ : (r₁.program.isHalted || r₁.program.isFinished) = true := by
      rcases hover with ⟨h, -⟩ | ⟨h, -⟩ <;> simp [h]
    have hover₂ : (r₂.program.isHalted || r₂.program.isFinished) = true := by
      rcases hover with ⟨-, h⟩ | ⟨-, h⟩ <;> simp [h]
    obtain ⟨heffects, hworld, hcore, hfault⟩ := hfollows₁.unique hfollows₂ hover₁ hover₂
    exact ⟨heffects, hworld, congrArg (·.output) hcore, congrArg (·.globals) hcore,
      congrArg (·.generator) hcore, steps_of_core hcore, hfault⟩

/--
```text
wait random 3
print 3
```
-/
def patient : Tree where
  exprs := #[.number (.ofInt 3), .random 0]
  stmts := #[.wait 1, .print 0, .sequence ⟨0, 2⟩]
  lists := #[0, 1]
  root := some 2

/-- One tick, or a half of a unit and nothing before the last tick: the time that is drawn
for the `wait` is the same. -/
theorem slicing_independent_patient :
    ∃ p r₁ r₂, start patient 1 = .ok p ∧
      follow? 100 [.ofInt 9] p (GridWorld.empty 1 1) = some r₁ ∧
      follow? 100 [⟨0x3FE0000000000000⟩, .nan, -.one, .infinity] p (GridWorld.empty 1 1) =
        some r₂ ∧
      r₁.program.isFinished = true ∧ r₂.program.isFinished = true ∧
      r₁.effects = r₂.effects ∧
      r₁.program.memory.generator = r₂.program.memory.generator := by
  have hrun : (start patient 1).toOption.map (fun p =>
      ((follow? 100 [.ofInt 9] p (GridWorld.empty 1 1)).map (·.program.isFinished),
        (follow? 100 [⟨0x3FE0000000000000⟩, .nan, -.one, .infinity] p
          (GridWorld.empty 1 1)).map (·.program.isFinished))) =
      some (some true, some true) := by
    decide +kernel
  obtain ⟨p, hstart, hcourses⟩ := exists_of_start hrun
  obtain ⟨hcourse₁, hcourse₂⟩ := Prod.mk.inj hcourses
  obtain ⟨r₁, h₁, hfinished₁⟩ := Option.map_eq_some_iff.mp hcourse₁
  obtain ⟨r₂, h₂, hfinished₂⟩ := Option.map_eq_some_iff.mp hcourse₂
  obtain ⟨heffects, -, -, -, hgenerator, -⟩ :=
    (slicing_independent hstart h₁ h₂).2 (.inl ⟨hfinished₁, hfinished₂⟩)
  exact ⟨p, r₁, r₂, hstart, h₁, h₂, hfinished₁, hfinished₂, heffects, hgenerator⟩

end Program

end ActorScript
