import ActorScript.Proofs.Run

/-!
# What does not depend on the ticks

The work of a script is cut into ticks, and the books that are kept of it tell
how: the budget, and the counts of ticks, of suspensions and of transient faults.
All else is the `core` of a configuration.

The rules of the machine look at the core only, but for the conditions on the
budget that are written out in them.  So two configurations with the same core
take the same moves, as long as both can pay.

## Main results

* `Quiet.mirror`, `Deed.mirror`, `Faulty.mirror`, `Costs.mirror`, `Owes.mirror` — what the
  rules say of a configuration they say of every other one with the same core.
-/

namespace ActorScript

/-- The counts that do not depend on how the work is cut into ticks. -/
def Tally.lasting (k : Tally) : Tally := { steps := k.steps, lines := k.lines }

/-- A memory without the books of its ticks. -/
def Memory.core (m : Memory) : Memory :=
  { m with budget := {}, tally := m.tally.map Tally.lasting }

namespace Memory

@[simp] theorem core_countTick (m : Memory) : m.countTick.core = m.core := by
  unfold countTick core
  cases m.tally <;> rfl

@[simp] theorem core_countSuspension (m : Memory) : m.countSuspension.core = m.core := by
  unfold countSuspension core
  cases m.tally <;> rfl

@[simp] theorem core_countTransientFault (m : Memory) :
    m.countTransientFault.core = m.core := by
  unfold countTransientFault core
  cases m.tally <;> rfl

end Memory

/-- A step or a line counts in the same way for tallies that agree in what lasts. -/
theorem Tally.lasting_map {f : Tally → Tally} (hf : ∀ k, (f k).lasting = f k.lasting)
    {k k' : Option Tally} (h : k'.map lasting = k.map lasting) :
    (k'.map f).map lasting = (k.map f).map lasting := by
  have hswap : ∀ k : Option Tally, (k.map f).map lasting = (k.map lasting).map f := by
    intro k
    cases k with
    | none => rfl
    | some k => exact congrArg some (hf k)
  rw [hswap, hswap, h]

namespace Machine.Config

variable {W : Type} {t : Tree} {c c' d : Config W} {b : Budget} {k : Option Tally}

/-- A configuration without the books of its ticks. -/
def core (c : Config W) : Config W := { c with memory := c.memory.core }

/-- The configuration with other books, another output and another generator. -/
def recast (c : Config W) (b : Budget) (k : Option Tally) (o : Output) (g : Generator) :
    Config W :=
  { c with
    memory := { c.memory with budget := b, tally := k, output := o, generator := g } }

/-- The configuration with other books. -/
def booked (c : Config W) (b : Budget) (k : Option Tally) : Config W :=
  { c with memory := { c.memory with budget := b, tally := k } }

@[simp] theorem core_goTo (c : Config W) (control : Control) :
    (c.goTo control).core = c.core.goTo control := rfl

@[simp] theorem core_drawn (c : Config W) (g : Generator) :
    (c.drawn g).core = c.core.drawn g := rfl

@[simp] theorem core_done (c : Config W) (p : Progress) :
    (c.done p).core = c.core.done p := rfl

@[simp] theorem core_spent (c : Config W) (owed : Number) :
    (c.spent owed).core = c.core := rfl

theorem booked_core (hk : k.map Tally.lasting = c.memory.tally.map Tally.lasting) :
    (c.booked b k).core = c.core := by
  unfold core booked Memory.core
  simp only [hk]

/-- Configurations with the same core differ in their books only. -/
theorem exists_booked (h : d.core = c.core) :
    ∃ b k, d = c.booked b k ∧
      k.map Tally.lasting = c.memory.tally.map Tally.lasting := by
  refine ⟨d.memory.budget, d.memory.tally, ?_, congrArg (·.memory.tally) h⟩
  obtain ⟨control, stack, memory, world⟩ := d
  obtain ⟨control', stack', memory', world'⟩ := c
  cases memory
  cases memory'
  simp only [core, Memory.core, mk.injEq, Memory.mk.injEq] at h
  obtain ⟨rfl, rfl, ⟨rfl, rfl, rfl, rfl, rfl, -, rfl, -, rfl⟩, rfl⟩ := h
  rfl

theorem booked_goInto (c : Config W) (task : Task) (control : Control) (b : Budget)
    (k : Option Tally) :
    (c.goInto task control).booked b k = (c.booked b k).goInto task control := rfl

theorem outcome?_of_core (h : d.core = c.core) : d.outcome? = c.outcome? := by
  obtain ⟨b, k, rfl, -⟩ := exists_booked h
  rfl

/-! ## The rules -/

section Recast

variable {o : Output} {g : Generator}

theorem At.recast {id : StmtId} {s : Stmt} (h : c.At t id s) :
    (c.recast b k o g).At t id s :=
  ⟨h.control, h.armed, h.stmt⟩

theorem AtHead.recast {id : StmtId} {s : Stmt} (h : c.AtHead t id s) :
    (c.recast b k o g).AtHead t id s := ⟨h.control, h.stmt⟩

/-- Quiet moves leave the books and the generator alone. -/
theorem Quiet.keeps (h : Quiet t c c') :
    c'.memory.budget = c.memory.budget ∧ c'.memory.tally = c.memory.tally ∧
      c'.memory.generator = c.memory.generator := by
  cases h <;> exact ⟨rfl, rfl, rfl⟩

theorem Quiet.output_eq (h : Quiet t c c') : c'.memory.output = c.memory.output := by
  cases h <;> rfl

/-- Quiet moves look at neither the books nor the output nor the generator. -/
theorem Quiet.recast (h : Quiet t c c') :
    Quiet t (c.recast b k o g) (c'.recast b k o g) := by
  cases h with
  | pass hc ha => exact .pass hc ha
  | sequence hat hcs => exact .sequence hat.recast hcs
  | branch hat hf => exact .branch hat.recast hf
  | noBranch hat hf hp => exact .noBranch hat.recast hf hp
  | «while» hat => exact .while hat.recast
  | forEach hat hf => exact .forEach hat.recast hf
  | skip hat hp => exact .skip hat.recast hp
  | whileRound hat hf => exact .whileRound hat.recast hf
  | forEachRound hat hf hi => exact .forEachRound hat.recast hf hi
  | exhausted hat hf hi hp => exact .exhausted hat.recast hf hi hp
  | unlisted hat hf => exact .unlisted hat.recast hf
  | @next id child rest tasks hc hk =>
      have hk' : (c.recast b k o g).stack = .sequence id (child :: rest) :: tasks := hk
      exact .next hc hk'
  | sequenceEnd hc hk hp => exact Quiet.sequenceEnd (c := c.recast b k o g) hc hk hp
  | branchEnd hc hk hp => exact Quiet.branchEnd (c := c.recast b k o g) hc hk hp
  | roundEnd hc hk hs hp => exact Quiet.roundEnd (c := c.recast b k o g) hc hk hs hp
  | broken hc hk hp => exact Quiet.broken (c := c.recast b k o g) hc hk hp
  | unwind hc hk h => exact Quiet.unwind (c := c.recast b k o g) hc hk h
  | passFault hc hk => exact Quiet.passFault (c := c.recast b k o g) hc hk
  | ended h => exact .ended h

theorem Costs.recast (h : Costs t c) : Costs t (c.recast b k o g) := by
  cases h with
  | assign hat => exact .assign hat.recast
  | print hat => exact .print hat.recast
  | act hat => exact .act hat.recast
  | leaveLoop hat => exact .leaveLoop hat.recast
  | choose hat hf => exact .choose hat.recast hf
  | list hat hf => exact .list hat.recast hf
  | check hat hf => exact .check hat.recast hf
  | visit hat hf hi => exact .visit hat.recast hf hi

theorem Unready.recast {id : StmtId} {duration : ExprId} (h : c.Unready t id duration) :
    (c.recast b k o g).Unready t id duration := ⟨h.at_.recast, h.frame⟩

end Recast

theorem At.booked {id : StmtId} {s : Stmt} (h : c.At t id s) (b : Budget)
    (k : Option Tally) :
    (c.booked b k).At t id s := h.recast

theorem AtHead.booked {id : StmtId} {s : Stmt} (h : c.AtHead t id s) (b : Budget)
    (k : Option Tally) : (c.booked b k).AtHead t id s := h.recast

/-- **Quiet moves** do not depend on the books. -/
theorem Quiet.mirror (h : Quiet t c c') (hd : d.core = c.core) :
    ∃ d', Quiet t d d' ∧ d'.core = c'.core ∧ d'.memory.budget = d.memory.budget := by
  obtain ⟨b, k, rfl, hk⟩ := exists_booked hd
  obtain ⟨-, htally, hgenerator⟩ := h.keeps
  have hmove : Quiet t (c.booked b k)
      (c'.recast b k c.memory.output c.memory.generator) :=
    h.recast
  rw [← h.output_eq, ← hgenerator] at hmove
  refine ⟨c'.booked b k, hmove, booked_core ?_, rfl⟩
  rw [htally, hk]

theorem Costs.mirror (h : Costs t c) (hd : d.core = c.core) : Costs t d := by
  obtain ⟨b, k, rfl, -⟩ := exists_booked hd
  exact h.recast

section World

variable [World W]

private theorem Deed.booked {e : Event} (h : Deed t c e c') :
    ∃ f : Tally → Tally, (∀ k, (f k).lasting = f k.lasting) ∧
      c'.memory.tally = c.memory.tally.map f ∧
      c'.memory.budget = c.memory.budget.payStep ∧
      ∀ b k, Deed t (c.booked b k) e (c'.booked b.payStep (k.map f)) := by
  cases h with
  | assign hat hv hg hp =>
      exact ⟨Tally.countStep, fun _ => rfl, rfl, rfl,
        fun b k => .assign (hat.booked b k) hv hg hp⟩
  | print hat hv hp =>
      refine ⟨Tally.countLine ∘ Tally.countStep, fun _ => rfl, ?_, rfl, fun b k => ?_⟩
      · exact Option.map_map ..
      · rw [← Option.map_map]
        exact .print (hat.booked b k) hv hp
  | act hat hv hp =>
      exact ⟨Tally.countStep, fun _ => rfl, rfl, rfl,
        fun b k => .act (hat.booked b k) hv hp⟩
  | leaveLoop hat hl hp =>
      exact ⟨Tally.countStep, fun _ => rfl, rfl, rfl,
        fun b k => .leaveLoop (hat.booked b k) hl hp⟩
  | choose hat hf hv hb hp₁ hp =>
      refine ⟨Tally.countStep, fun _ => rfl, rfl, rfl, fun b k => ?_⟩
      rw [booked_goInto]
      exact .choose (hat.booked b k) hf hv hb hp₁ hp
  | chooseNone hat hf hv hb hp₁ hp =>
      exact ⟨Tally.countStep, fun _ => rfl, rfl, rfl,
        fun b k => .chooseNone (hat.booked b k) hf hv hb hp₁ hp⟩
  | list hat hf hv hp =>
      exact ⟨Tally.countStep, fun _ => rfl, rfl, rfl,
        fun b k => .list (hat.booked b k) hf hv hp⟩
  | check hat hf hv hp₁ hp =>
      exact ⟨Tally.countStep, fun _ => rfl, rfl, rfl,
        fun b k => .check (hat.booked b k) hf hv hp₁ hp⟩
  | stop hat hf hv hp =>
      exact ⟨Tally.countStep, fun _ => rfl, rfl, rfl,
        fun b k => .stop (hat.booked b k) hf hv hp⟩
  | visit hat hf hi hg hp₁ hp =>
      exact ⟨Tally.countStep, fun _ => rfl, rfl, rfl,
        fun b k => .visit (hat.booked b k) hf hi hg hp₁ hp⟩

/-- **Deeds** do not depend on the books, and cost one step. -/
theorem Deed.mirror {e : Event} (h : Deed t c e c') (hd : d.core = c.core) :
    ∃ d', Deed t d e d' ∧ d'.core = c'.core ∧
      d'.memory.budget = d.memory.budget.payStep ∧
      c'.memory.budget = c.memory.budget.payStep := by
  obtain ⟨b, k, rfl, hk⟩ := exists_booked hd
  obtain ⟨f, hf, htally, hbudget, hdeed⟩ := h.booked
  refine ⟨_, hdeed b k, booked_core ?_, rfl, hbudget⟩
  rw [htally]
  exact Tally.lasting_map hf hk

theorem Faulty.mirror {f : Fault} {g : Generator} (h : Faulty t c f g)
    (hd : d.core = c.core) :
    Faulty t d f g := by
  obtain ⟨b, k, rfl, -⟩ := exists_booked hd
  cases h with
  | assign hat hv => exact .assign (hat.booked b k) hv
  | write hat hv hr => exact .write (hat.booked b k) hv hr
  | print hat hv => exact .print (hat.booked b k) hv
  | act hat hv => exact .act (hat.booked b k) hv
  | leaveLoop hat hl => exact .leaveLoop (hat.booked b k) hl
  | choose hat hf hv => exact .choose (hat.booked b k) hf hv
  | list hat hf hv => exact .list (hat.booked b k) hf hv
  | check hat hf hv => exact .check (hat.booked b k) hf hv
  | visit hat hf hi hr => exact .visit (hat.booked b k) hf hi hr

omit [World W] in
theorem Unready.mirror {id : StmtId} {duration : ExprId} (h : c.Unready t id duration)
    (hd : d.core = c.core) : d.Unready t id duration := by
  obtain ⟨b, k, rfl, -⟩ := exists_booked hd
  exact h.recast

/-- A time is owed whatever the books say, once there is time to work it out. -/
theorem Owes.mirror {id : StmtId} {owed : Number} {g : Generator} (h : c.Owes t id owed g)
    (hd : d.core = c.core)
    (hb : c.memory.budget.hasTime = true → d.memory.budget.hasTime = true) :
    d.Owes t id owed g := by
  obtain ⟨b, k, rfl, -⟩ := exists_booked hd
  cases h with
  | first h ht hv => exact .first (h.mirror hd) (hb ht) hv
  | again hat hf => exact .again (hat.booked b k) hf

end World

end Machine.Config

end ActorScript
