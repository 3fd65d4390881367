import ActorScript.Proofs.Retry
import ActorScript.Proofs.Typing

/-!
# What halts a program

A fatal fault says that the script itself is wrong.  There are four of them, and three
places in the machine that raise one.  Here these are narrowed down to the tree: what
halts a program is an assignment that does not suit the declaration of its target, or a
loop over the world that is about to list its candidates and whose variable is not
declared for them.

A loop checks the declaration of its variable when it lists its candidates, and a
candidate is written when it is visited, which may be many ticks later.  So the check has
to be remembered with the list (`Tree.Binds`): whoever holds a list has a variable that
takes all of it.

## Main results

* `Raises.halts` — a fault that is fatal comes from one of the points of `Halts`.
* `exists_halts` — a run that ends with a fatal fault has come to such a point, and has
  changed nothing since.
* `halts_only_by_writes` — the same for the programs that a start leads to, over all
  ticks.
-/

namespace ActorScript

/-! ## Refusals -/

/-- Why a write is refused. -/
theorem Globals.assign_eq_error {g : Globals} {name : Name} {v : Value}
    {r : AssignRefusal} (h : g.assign name v = .error r) :
    r = .undeclared ∧ g.type? name = none ∨
      ∃ declared, r = .wrongType declared ∧ g.type? name = some declared ∧
        declared ≠ v.type := by
  unfold assign at h
  unfold type?
  cases hslot : g.slot? name with
  | none =>
      rw [hslot] at h
      cases h
      exact .inl ⟨rfl, rfl⟩
  | some slot =>
      simp only [hslot] at h
      by_cases htype : slot.type = v.type
      · rw [if_pos htype] at h
        cases h
      · rw [if_neg htype] at h
        cases h
        exact .inr ⟨slot.type, rfl, rfl, htype⟩

namespace Scope

variable {W : Type} [World W] {s : Scope W} {e : ExprId} {g g' : Generator} {f : Fault}
  {var : Name} {selector : Selector} {filter : Option ExprId} {sort : Option SortKey}
  {candidates : List Value}

/-- **No expression halts a script.** -/
theorem transient_of_fails (hground : s.tree.Grounded) (h : (s.evaluate e).Fails g f) :
    f.isFatal = false :=
  (s.evaluate_meets hground (lt_of_outcome h)).of_fails h

end Scope

/-! ## Lists and their variables -/

/-- A loop that holds a list has a variable that is declared for its candidates. -/
def Tree.Binds (t : Tree) (id : StmtId) (f : Frame) : Prop :=
  ∀ var selector filter sort body candidates index phase,
    t.stmt? id = some (.forEach var selector filter sort body) →
    f = .forEach candidates index phase → t.declared? var = some selector.candidateType

theorem Tree.lasting_binds (t : Tree) : Progress.Lasting t.Binds :=
  Progress.lasting_forEach t fun var selector _ =>
    t.declared? var = some selector.candidateType

/-- Variables, lists and the variables of lists keep to their types. -/
structure Memory.Bound (t : Tree) (m : Memory) : Prop extends m.Typed t where
  binds : m.progress.Frames t.Binds

namespace Machine.Config

open Progress

variable {W : Type} {t : Tree} {root : StmtId} {c c' : Config W} {f : Fault}
  {g : Generator}

/-- Whatever a loop holds in its list can be written to its variable. -/
theorem exists_write {id : StmtId} {var : Name} {selector : Selector}
    {filter : Option ExprId} {sort : Option SortKey} {body : StmtId}
    {candidates : List Value} {index : Nat} {phase : Phase} {v : Value}
    (hc : c.memory.Bound t)
    (hs : t.stmt? id = some (.forEach var selector filter sort body))
    (hf : c.memory.progress.frame id = .forEach candidates index phase)
    (hv : v ∈ candidates) :
    ∃ c', c.write t var v = .ok c' := by
  rw [frame_eq] at hf
  have htype : v.type = selector.candidateType := hc.lists id _ _ _ _ _ _ _ _ hs hf v hv
  have hdeclared : t.declared? var = some selector.candidateType :=
    hc.binds id _ _ _ _ _ _ _ _ hs hf
  rw [← htype] at hdeclared
  obtain ⟨globals, hok⟩ := Globals.exists_assign ((hc.globals var).1.trans hdeclared)
  rw [write_eq, hok]
  exact ⟨_, rfl⟩

variable [World W]

/-- **Every step keeps lists to their variables.** -/
theorem Step.bound {e : Option Event} (ht : t.Proper root) (hground : t.Grounded)
    (hs : Sound t root c) (hc : c.memory.Bound t) (h : Step t c e c') :
    c'.memory.Bound t := by
  refine ⟨h.typed ht hground hs hc.toTyped, ?_⟩
  apply h.frames t.lasting_binds hc.binds
  · intro id candidates he
    subst he
    cases h with
    | deed _ h =>
        cases h with
        | list hat _ hv =>
            intro _ _ _ _ _ _ _ _ hs hf
            cases hf
            cases hat.stmt.symm.trans hs
            exact (hc.globals _).1.symm.trans (Scope.declared_of_yields hv)
  · intro _ _ _ _ _ _ _ _ _ _ _ _ _ hf
    cases hf

/-! ## Where a run faults -/

/-- The statement at hand raises a fault and leaves the generator `g`, if there is budget
to try it. -/
inductive Raises (t : Tree) (c : Config W) : Fault → Generator → Prop
  | step {f : Fault} {g : Generator} (h : Faulty t c f g) : Raises t c f g
  | wait {id : StmtId} {duration : ExprId} {f : Fault} (h : c.Unready t id duration)
      (hv : ((c.scope t).duration duration).Fails c.memory.generator f) :
      Raises t c f c.memory.generator

/-- The points at which a program halts, with the fault that halts it and the generator
that it leaves. -/
inductive Halts (t : Tree) (c : Config W) : Fault → Generator → Prop
  /-- An assignment whose target is not declared. -/
  | undeclared {id : StmtId} {target : Name} {value : ExprId} {v : Value} {g : Generator}
      (h : c.At t id (.assign target value))
      (hv : ((c.scope t).evaluate value).Yields c.memory.generator v g)
      (hd : t.declared? target = none) :
      Halts t c (.undeclaredTarget (t.names.lookup target)) g
  /-- An assignment whose value is of another type than its target. -/
  | mismatch {id : StmtId} {target : Name} {value : ExprId} {v : Value} {g : Generator}
      {declared : ValueType} (h : c.At t id (.assign target value))
      (hv : ((c.scope t).evaluate value).Yields c.memory.generator v g)
      (hd : t.declared? target = some declared) (hne : declared ≠ v.type) :
      Halts t c (.assignTypeMismatch (t.names.lookup target) declared v.type) g
  /-- A loop that is about to list its candidates, and whose variable is not declared for
  them. -/
  | loopVariable {id : StmtId} {var : Name} {selector : Selector} {filter : Option ExprId}
      {sort : Option SortKey} {body : StmtId}
      (h : c.At t id (.forEach var selector filter sort body))
      (hf : ∀ candidates index phase,
        c.memory.progress.frame id ≠ .forEach candidates index phase)
      (hd : t.declared? var ≠ some selector.candidateType) :
      Halts t c
        (.loopVariable (t.names.lookup var) selector.candidateType (t.declared? var))
        c.memory.generator

theorem Halts.ne_leaveOutsideLoop (h : Halts t c f g) : f ≠ .leaveOutsideLoop := by
  cases h <;> exact Fault.noConfusion

/-- **A fatal fault is that of a write that suits no declaration.** -/
theorem Raises.halts (ht : t.Proper root) (hground : t.Grounded) (hs : Sound t root c)
    (hc : c.memory.Bound t) (h : Raises t c f g) (hfatal : f.isFatal = true) :
    Halts t c f g := by
  have transient : f.isFatal = false → Halts t c f g := by
    intro hf
    rw [hfatal] at hf
    cases hf
  cases h with
  | wait h hv =>
      obtain ⟨cs, hfork⟩ := hs.fork_of_at ht h.at_
      exact transient
        ((hfork.duration_meets hground rfl (List.mem_singleton_self _)).of_fails hv)
  | step h =>
      cases h with
      | assign hat hv | print hat hv =>
          exact transient (Scope.transient_of_fails (s := c.scope t) hground hv)
      | act hat hv =>
          obtain ⟨cs, hfork⟩ := hs.fork_of_at ht hat
          exact transient ((hfork.command_meets hground rfl).of_fails hv)
      | choose hat _ hv =>
          obtain ⟨cs, hfork⟩ := hs.fork_of_at ht hat
          exact transient
            ((hfork.condition_meets hground rfl (List.mem_singleton_self _)
              _).of_fails hv)
      | check hat _ hv =>
          obtain ⟨cs, hfork⟩ := hs.fork_of_atHead ht hat
          exact transient
            ((hfork.condition_meets hground rfl (List.mem_singleton_self _)
              _).of_fails hv)
      | write hat hv hr =>
          rcases Globals.assign_eq_error hr with
            ⟨rfl, htype⟩ | ⟨declared, rfl, htype, hne⟩
          · exact .undeclared hat hv ((hc.globals _).1.symm.trans htype)
          · exact .mismatch hat hv ((hc.globals _).1.symm.trans htype) hne
      | @list id var selector filter sort body f hat hf hv =>
          -- if the variable is declared for the candidates, no fault is fatal
          obtain ⟨cs, hfork⟩ := hs.fork_of_at ht hat
          rcases (hfork.candidates_meets hground rfl).of_fails hv with hf | hne
          · exact transient hf
          · cases hv.symm.trans (Scope.candidates_of_ne hne)
            have htype : (c.scope t).globals.type? var = t.declared? var :=
              (hc.globals var).1
            rw [htype] at hne ⊢
            exact .loopVariable hat hf hne
      | visit hat hf hi hr =>
          obtain ⟨c', hok⟩ := exists_write hc hat.stmt hf (List.mem_of_getElem? hi)
          rw [write_eq, hr] at hok
          cases hok
      | leaveLoop hat hl =>
          exact absurd ((hs.of_at hat).1.exposed_root hl (.here hat.stmt)) ht.enclosed

/-- A step raises a fault where the statement at hand does. -/
theorem Step.raises {e : Option Event} (h : Step t c e c')
    (hc : ∀ f, c.control ≠ .raise f) :
    (∀ f, c'.control ≠ .raise f) ∨
      ∃ f g, e = none ∧ Raises t c f g ∧ c' = (c.drawn g).goTo (.raise f) := by
  cases h with
  | quiet h => exact .inl fun f hf => hc f (h.raised hf)
  | deed _ h =>
      refine .inl fun f hf => ?_
      cases h <;> cases hf
  | faulted _ h => exact .inr ⟨_, _, rfl, .step h, rfl⟩
  | waitFaulted _ h hv => exact .inr ⟨_, _, rfl, .wait h hv, rfl⟩
  | refused | waitRefused | waited | waiting =>
      refine .inl fun f hf => ?_
      cases hf

end Machine.Config

namespace Machine

open Config

variable {W : Type} [World W] {t : Tree} {root : StmtId} {c c' : Config W} {f : Fault}
  {ms : List (Transition W)}

/-- A run that has a fault, of whatever kind, unwinds its stack and does nothing else. -/
theorem Run.of_raised (root : StmtId) (h : Run t c ms c') (hc : c.control = .raise f) :
    c'.control = .raise f ∧ c'.restart root = c.restart root ∧ events ms = [] := by
  induction h with
  | refl => exact ⟨hc, rfl, rfl⟩
  | @step c c₁ c' e ms ho hstep _ ih =>
      cases hk : c.stack with
      | nil =>
          rw [outcome?_of_raise hk hc] at ho
          cases ho
      | cons task k =>
          obtain ⟨rfl, rfl⟩ := hstep.unique (.quiet (.passFault hc hk))
          exact ih hc

/-- **Where a run with a fault comes from.** -/
theorem Run.raises (h : Run t c ms c') (hc : ∀ f, c.control ≠ .raise f)
    (hf : c'.control = .raise f) :
    ∃ done c₁ g rest, ms = done ++ ⟨c₁, none, (c₁.drawn g).goTo (.raise f)⟩ :: rest ∧
      Run t c done c₁ ∧ c₁.Raises t f g ∧
      Run t ((c₁.drawn g).goTo (.raise f)) rest c' := by
  induction h with
  | refl => exact absurd hf (hc f)
  | @step c c₁ c' e ms ho hstep hrun ih =>
      rcases hstep.raises hc with hc₁ | ⟨f', g, rfl, hraises, rfl⟩
      · obtain ⟨done, c₂, g, rest, rfl, hdone, hraises, hrest⟩ := ih hc₁ hf
        exact ⟨_ :: done, c₂, g, rest, rfl, .step ho hstep hdone, hraises, hrest⟩
      · -- the fault that comes up is the one that the run ends with
        have hsame := (hrun.of_raised 0 rfl).1
        cases hf.symm.trans hsame
        exact ⟨[], c, g, ms, rfl, .refl c, hraises, hrun⟩

end Machine

namespace Program

open Machine Machine.Config Progress

variable {W : Type} [World W] {ok : Nat → Program → W → Number → Prop} {t : Tree}
  {p q : Program} {es : List Event} {subject : ActorId} {settings : Settings}

theorem kept_bound {root : StmtId} (ht : t.Proper root) (hground : t.Grounded) :
    Kept W t root (Memory.Bound t) where
  opening _ h := ⟨⟨h.globals, h.lists⟩, h.binds⟩
  step hs hc h := h.bound ht hground hs hc
  settle _ _ h := ⟨⟨h.globals, h.lists⟩, h.binds⟩

theorem bound_of_ticks (hstart : start t subject settings = .ok p) (h : Ticks ok p es q) :
    q.memory.Bound t := by
  have hp := started_of_start hstart
  have hground := Tree.grounded_of_validate (validate_of_start hstart)
  exact (kept_bound hp.proper hground).ticks hp
    ⟨typed_of_start hstart, hp.frames t.lasting_binds⟩ h

/-- What a run of a program keeps to. -/
theorem bound_of_run (hstart : start t subject settings = .ok p) (h : Ticks ok p es q)
    (hover : (q.isHalted || q.isFinished) = false) {w : W} {budget : Number}
    {c : Config W} {ms : List (Transition W)} (hrun : Run t (q.opening w budget) ms c) :
    c.Sound t p.root ∧ c.memory.Bound t := by
  have hp := started_of_start hstart
  have hground := Tree.grounded_of_validate (validate_of_start hstart)
  have hs := sound_opening (settled_of_ticks hp h) hover w budget
  have hkept := kept_bound (W := W) hp.proper hground
  have hb := bound_of_ticks hstart h
  exact ⟨hs.run hp.proper hrun, hkept.run hp.proper hs (hkept.opening budget hb) hrun⟩

/-- **A run that ends with a fatal fault** has come to a point at which the program halts,
and has done nothing since. -/
theorem exists_halts (hstart : start t subject settings = .ok p) (h : Ticks ok p es q)
    (hover : (q.isHalted || q.isFinished) = false) {w : W} {budget : Number}
    {c' : Config W} {ms : List (Transition W)} {f : Fault}
    (hrun : Run t (q.opening w budget) ms c') (ho : c'.outcome? = some (.error f))
    (hfatal : f.isFatal = true) :
    ∃ done c g rest, ms = done ++ ⟨c, none, (c.drawn g).goTo (.raise f)⟩ :: rest ∧
      Run t (q.opening w budget) done c ∧ Halts t c f g ∧
      c'.memory = { c.memory with generator := g, loops := [] } ∧ c'.world = c.world ∧
      events ms = events done := by
  have hp := started_of_start hstart
  have hground := Tree.grounded_of_validate (validate_of_start hstart)
  obtain ⟨done, c, g, rest, rfl, hdone, hraises, hrest⟩ :=
    hrun.raises (fun _ => Control.noConfusion) (control_of_error ho).1
  obtain ⟨hsound, hbound⟩ := bound_of_run hstart h hover hdone
  have hhalts := hraises.halts hp.proper hground hsound hbound hfatal
  obtain ⟨-, hrestart, hnone⟩ := hrest.of_raised 0 rfl
  have hloops : c'.memory.loops = [] :=
    ((bound_of_run hstart h hover hrun).1.over_of_outcome ho).2.2
  have hplain : c'.memory = { c'.memory with loops := [] } := by rw [← hloops]
  refine ⟨done, c, g, rest, rfl, hdone, hhalts, ?_, congrArg (·.world) hrestart, ?_⟩
  · exact hplain.trans (congrArg (·.memory) hrestart)
  · rw [events_append, events_cons, hnone]
    exact List.append_nil _

/-! ## Ticks -/

omit [World W] in
theorem settle_of_fatal (p : Program) (m : Memory) {f : Fault} (hf : f.isFatal = true) :
    p.settle (.error f) m = { p with memory := m.halt, fault := some f } := by
  simp [settle, hf, halt]

/-- The tick `k` of `q` halts the program: after the moves `done` it has come to a
statement that halts it, at `c`, and has done nothing since.  The variables, the table,
the output, the budget, the counts and the world are those of `c`. -/
structure HaltedAt (t : Tree) (q : Program) (limit : Nat) (w : W)
    (budget : Number) (k : Tick W) (done : List (Transition W)) (c : Config W) (f : Fault)
    (g : Generator) : Prop where
  moves : ∃ rest, q.moves limit w budget =
    done ++ ⟨c, none, (c.drawn g).goTo (.raise f)⟩ :: rest
  run : Run t (q.opening w budget) done c
  halts : Halts t c f g
  fault : k.program.fault = some f
  memory : k.program.memory =
    { c.memory with generator := g, loops := [], halted := true }
  world : k.world = c.world
  events : k.events = events done

/-- A tick halts a program, or leaves it as halted as it was. -/
theorem haltedAt_or_eq {limit : Nat} {w : W} {budget : Number} {k : Tick W}
    (hstart : start t subject settings = .ok p) (h : Ticks ok p es q)
    (hk : q.advance? limit w budget = some k) :
    (∃ done c f g, HaltedAt t q limit w budget k done c f g) ∨
      k.program.fault = q.fault ∧ k.program.isHalted = q.isHalted := by
  rcases (settled_of_ticks (started_of_start hstart) h).run_of_tick hk with
    ⟨-, -, rfl⟩ | ⟨hover, -, outcome, c', hrun, ho, rfl⟩
  · exact .inr ⟨rfl, rfl⟩
  · have hhalted : c'.memory.halted = q.memory.halted := hrun.attested.halted
    cases ((bound_of_run hstart h hover hrun).1.over_of_outcome ho).1 with
    | completed | suspended => exact .inr ⟨rfl, hhalted⟩
    | @raised f =>
        by_cases hf : f.isFatal = true
        · obtain ⟨done, c, g, rest, hmoves, hdone, hhalts, hmemory, hworld, hevents⟩ :=
            exists_halts hstart h hover hrun ho hf
          rw [settle_of_fatal q _ hf]
          refine .inl ⟨done, c, f, g, ⟨rest, hmoves⟩, hdone, hhalts, rfl, ?_,
            hworld, hevents⟩
          rw [hmemory]
          rfl
        · rw [settle_of_transient q _ (Bool.eq_false_iff.mpr hf)]
          exact .inr ⟨rfl, hhalted⟩

/-- A program has a fault exactly if it is halted, and never that of a `leaveLoop` without
a loop. -/
theorem fault_of_ticks (hstart : start t subject settings = .ok p) (h : Ticks ok p es q) :
    (q.isHalted = true ↔ q.fault.isSome) ∧ q.fault ≠ some .leaveOutsideLoop := by
  induction h with
  | start =>
      obtain ⟨root, progress, -, -, rfl⟩ := start_eq_ok_iff.mp hstart
      refine ⟨Iff.rfl, ?_⟩
      intro hf
      cases hf
  | @tick es q limit w budget k hticks _ hk ih =>
      rcases haltedAt_or_eq hstart hticks hk with ⟨done, c, f, g, h⟩ | ⟨hfault, hhalted⟩
      · unfold isHalted
        rw [h.memory, h.fault]
        exact ⟨Iff.rfl, fun hf => h.halts.ne_leaveOutsideLoop (Option.some.inj hf)⟩
      · rw [hfault, hhalted]
        exact ih

/-- A tick does nothing to a program that is halted. -/
theorem advance?_of_halted (h : q.isHalted = true) (limit : Nat) (w : W)
    (budget : Number) :
    q.advance? limit w budget = some ⟨q, w, []⟩ := by
  unfold advance?
  rw [h]
  rfl

theorem eq_of_halted {r : Program} (h : q.isHalted = true) (hr : Ticks ok q es r) :
    es = [] ∧ r = q := by
  induction hr with
  | start => exact ⟨rfl, rfl⟩
  | tick _ _ hk ih =>
      obtain ⟨rfl, rfl⟩ := ih
      cases (advance?_of_halted h ..).symm.trans hk
      exact ⟨rfl, rfl⟩

/--
**Only ill-formed writes halt a program.**  No expression has a fatal fault, whatever the
variables and the world that it is evaluated in.  A program starts with none; and however
it has been ticked, and whatever has happened to the world in between,

* it is not halted by a `leaveLoop`;
* a tick that halts it has come to a point of `Halts`, that is to an assignment or to a
  loop without a list that does not suit the declarations, and has left all as it was
  there;
* at every point of every tick, what a loop holds in its list can be written to its
  variable;
* once it is halted, no tick changes it or the world.
-/
theorem halts_only_by_writes (hstart : start t subject settings = .ok p) :
    (∀ s : Scope W, s.tree = t → ∀ e g f, (s.evaluate e).Fails g f → f.isFatal = false) ∧
    p.isHalted = false ∧
    ∀ es q, Reached W p es q →
      q.fault ≠ some .leaveOutsideLoop ∧
      (q.isHalted = false → ∀ limit (w : W) budget k, q.advance? limit w budget = some k →
        k.program.isHalted = true → ∃ done c f g,
          HaltedAt t q limit w budget k done c f g) ∧
      ((q.isHalted || q.isFinished) = false →
        ∀ (w : W) (budget : Number) ms c, Run t (q.opening w budget) ms c →
        ∀ id var selector filter sort body candidates index phase,
          t.stmt? id = some (.forEach var selector filter sort body) →
          c.memory.progress.frame id = .forEach candidates index phase →
          ∀ v ∈ candidates, ∃ c', c.write t var v = .ok c') ∧
      (q.isHalted = true →
        (∀ limit (w : W) budget, q.advance? limit w budget = some ⟨q, w, []⟩) ∧
        ∀ es' r, Reached W q es' r → es' = [] ∧ r = q) := by
  have hground := Tree.grounded_of_validate (validate_of_start hstart)
  refine ⟨?_, (started_of_start hstart).running, fun es q h => ⟨?_, ?_, ?_, ?_⟩⟩
  · intro s hs e g f hf
    subst hs
    exact Scope.transient_of_fails hground hf
  · exact (fault_of_ticks hstart h).2
  · intro hgoing limit w budget k hk hhalted
    apply (haltedAt_or_eq hstart h hk).resolve_right
    intro hsame
    rw [hhalted, hgoing] at hsame
    cases hsame.2
  · intro hover w budget ms c hrun id var selector filter sort body candidates
      index phase hs hf
      v hv
    exact exists_write (bound_of_run hstart h hover hrun).2 hs hf hv
  · intro hhalted
    exact ⟨advance?_of_halted hhalted, fun es' r hr => eq_of_halted hhalted hr⟩

/--
```text
print 3
sure = random 3
```
-/
def sloppy : Tree where
  names := .ofList ["sure"]
  exprs := #[.number (.ofInt 3), .random 0]
  stmts := #[.print 0, .assign 1 1, .sequence ⟨0, 2⟩]
  lists := #[0, 1]
  globals := #[(1, .boolean)]
  root := some 2

/-- A number for a variable that is declared as boolean halts the script in its second
statement, for good. -/
theorem halts_only_by_writes_sloppy :
    ∃ p k, start sloppy 1 = .ok p ∧
      p.advance? 100 (GridWorld.empty 1 1) (.ofInt 5) = some k ∧
      k.events = [.printed 0 (.number (.ofInt 3))] ∧
      k.program.fault = some (.assignTypeMismatch "sure" .boolean .number) ∧
      (∃ done c f g, HaltedAt sloppy p 100 (GridWorld.empty 1 1) (.ofInt 5)
        k done c f g) ∧
      ∀ es r, Reached GridWorld k.program es r → es = [] ∧ r = k.program := by
  have hrun : (start sloppy 1).toOption.map (fun p =>
      (p.advance? 100 (GridWorld.empty 1 1) (.ofInt 5)).map fun k =>
        (k.events, k.program.fault, k.program.isHalted)) =
      some (some ([.printed 0 (.number (.ofInt 3))],
        some (.assignTypeMismatch "sure" .boolean .number), true)) := by
    decide +kernel
  obtain ⟨p, hstart, htick⟩ := exists_of_start hrun
  obtain ⟨k, hk, hfacts⟩ := Option.map_eq_some_iff.mp htick
  obtain ⟨hevents, hfault, hhalted⟩ : _ ∧ _ ∧ _ := by
    simpa only [Prod.mk.injEq] using hfacts
  obtain ⟨-, hgoing, hreached⟩ := halts_only_by_writes (W := GridWorld) hstart
  obtain ⟨-, hhalts, -⟩ := hreached [] p .start
  obtain ⟨-, -, -, hrest⟩ := hreached _ k.program (.tick .start trivial hk)
  exact ⟨p, k, hstart, hk, hevents, hfault, hhalts hgoing _ _ _ _ hk hhalted,
    (hrest hhalted).2⟩

end Program

end ActorScript
