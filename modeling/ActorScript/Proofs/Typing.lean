import ActorScript.Proofs.Frames
import ActorScript.Proofs.InBounds

/-!
# Types

Nothing checks the types of a script before it runs.  Still the type of every expression
can be read off the tree (`Tree.exprType?`), and a script that is well typed by that
measure is never halted: variables hold values of the types that they are declared with,
and the candidates that a loop remembers from one tick to the next are of the type that
its selector gives.

## Main results

* `Step.typed`, `Run.typed` — steps and runs keep variables and lists to their types.
* `Faulty.transient` — in a well typed script every fault is a transient one.
* `typing_sound` — the same over all ticks, and what it means for evaluation and for
  halting.
-/

namespace ActorScript

/-! ## Variables -/

theorem ValueType.type_initial (type : ValueType) : type.initial.type = type := by
  cases type <;> rfl

namespace Globals

variable {t : Tree} {g g' : Globals} {name : Name} {v : Value}

theorem slot?_declare (g : Globals) (n name : Name) (type : ValueType) :
    (g.declare name type).slot? n =
      if n = name then some ⟨type, type.initial⟩ else g.slot? n :=
  Keyed.lookup_insert ..

theorem slot?_foldl_declare (name : Name) (declarations : List (Name × ValueType)) :
    ∀ g : Globals, (declarations.map Prod.fst).Nodup →
      (declarations.foldl (fun g (name, type) => g.declare name type) g).slot? name =
        ((declarations.lookup name).map fun type => ⟨type, type.initial⟩).or
          (g.slot? name) := by
  induction declarations with
  | nil =>
      intro g _
      rfl
  | cons entry rest ih =>
      obtain ⟨n, type⟩ := entry
      intro g hnodup
      obtain ⟨hn, hrest⟩ := List.nodup_cons.mp hnodup
      rw [List.foldl_cons, ih _ hrest, slot?_declare, Keyed.lookup_cons_eq_ite]
      by_cases h : name = n
      · -- a name that is declared here is not declared again
        subst h
        have hnone : rest.lookup name = none := by
          rw [List.lookup_eq_none_iff]
          intro entry hentry
          rw [bne_iff_ne]
          intro hname
          exact hn (List.mem_map.mpr ⟨entry, hentry, hname.symm⟩)
        simp [hnone]
      · simp [h]

/-- Each variable is declared, and holds a value of its type. -/
def Typed (t : Tree) (g : Globals) : Prop :=
  ∀ name, g.type? name = t.declared? name ∧
    (g.get? name).map Value.type = t.declared? name

theorem typed_ofDeclarations (h : (t.globals.toList.map Prod.fst).Nodup) :
    (ofDeclarations t.globals.toList).Typed t := by
  intro name
  have hslot : (ofDeclarations t.globals.toList).slot? name =
      (t.declared? name).map fun type => ⟨type, type.initial⟩ :=
    (slot?_foldl_declare name t.globals.toList {} h).trans (Option.or_none ..)
  unfold type? get?
  rw [hslot]
  cases t.declared? name with
  | none => exact ⟨rfl, rfl⟩
  | some type => exact ⟨rfl, congrArg some type.type_initial⟩

/-- A write of the right type is not refused. -/
theorem exists_assign (h : g.type? name = some v.type) :
    ∃ g', g.assign name v = .ok g' := by
  obtain ⟨slot, hslot, htype⟩ := Option.map_eq_some_iff.mp h
  unfold assign
  rw [hslot]
  exact ⟨_, if_pos htype⟩

/-- What a write changes: the slot of the name holds the value, and the other slots are as
they were. -/
theorem slot?_assign (h : g.assign name v = .ok g') :
    ∃ slot, g.slot? name = some slot ∧ slot.type = v.type ∧
      ∀ n, g'.slot? n = if n = name then some { slot with value := v }
        else g.slot? n := by
  unfold assign at h
  split at h
  · cases h
  · rename_i slot hslot
    split at h
    · rename_i htype
      cases h
      exact ⟨slot, hslot, htype, fun n => Keyed.lookup_insert ..⟩
    · cases h

theorem Typed.assign (h : g.Typed t) (ha : g.assign name v = .ok g') : g'.Typed t := by
  obtain ⟨slot, hslot, htype, hn⟩ := slot?_assign ha
  intro n
  unfold type? get?
  rw [hn]
  by_cases hname : n = name
  · have hdeclared : some slot.type = t.declared? n := by
      rw [← (h n).1, hname, type?, hslot]
      rfl
    rw [if_pos hname]
    exact ⟨hdeclared, (congrArg some htype.symm).trans hdeclared⟩
  · rw [if_neg hname]
    exact h n

end Globals

/-! ## Evaluation -/

namespace Scope

variable {W : Type} [World W] {s : Scope W} {e : ExprId} {v : Value} {g g' : Generator}

/-- A variable is overlaid, if at all, with a candidate of a loop for which it is
declared. -/
def ForCandidate (s : Scope W) : Prop :=
  ∀ var candidate, s.overlay = some (var, candidate) →
    ∃ selector : Selector, s.globals.type? var = some selector.candidateType ∧
      candidate ∈ selector.enumerate s.world

theorem typed_of_globals (hg : s.globals.Typed s.tree) (ho : s.ForCandidate) :
    s.Typed := by
  intro name v hv
  unfold lookup at hv
  split at hv
  · rename_i var candidate hoverlay
    cases hv
    obtain ⟨hoverlay, hname⟩ := Option.filter_eq_some_iff.mp hoverlay
    obtain ⟨selector, htype, hmem⟩ := ho _ _ hoverlay
    rw [← eq_of_beq hname, ← (hg _).1, htype, type_of_mem_enumerate hmem]
  · split at hv
    · rename_i hget
      cases hv
      rw [← (hg name).2, hget]
      rfl
    · cases hv

/-- Only what stands in the table has an outcome. -/
theorem lt_of_outcome {outcome : Except Fault (Value × Generator)}
    (h : ((s.evaluate e).run g).run = some outcome) : e < s.tree.exprs.size := by
  unfold evaluate at h
  cases hsize : s.tree.exprs.size with
  | zero =>
      rw [hsize] at h
      cases h
  | succ depth =>
      rw [hsize] at h
      unfold evaluateWithin at h
      cases hexpr : s.tree.expr? e with
      | none =>
          rw [hexpr] at h
          cases h
      | some expr =>
          rw [← hsize]
          exact (Array.getElem?_eq_some_iff.mp hexpr).1

/-- **The value of an expression** is of the type that can be read off the tree. -/
theorem type_of_yields (hground : s.tree.Grounded) (hs : s.Typed)
    (h : (s.evaluate e).Yields g v g') : s.tree.exprType? e = some v.type :=
  ((s.evaluate_meets hground (lt_of_outcome h)).of_yields h).2 hs

end Scope

/-! ## Runs -/

namespace Tree

/-- The candidates that a loop remembers are of the type that its selector gives. -/
def Lists (t : Tree) (id : StmtId) (f : Frame) : Prop :=
  ∀ var selector filter sort body candidates index phase,
    t.stmt? id = some (.forEach var selector filter sort body) →
    f = .forEach candidates index phase → ∀ v ∈ candidates,
      v.type = selector.candidateType

theorem lasting_lists (t : Tree) : Progress.Lasting t.Lists :=
  Progress.lasting_forEach t fun _ selector candidates =>
    ∀ v ∈ candidates, v.type = selector.candidateType

/-- Every assignment has a declared target of the type of its value, and the variable of
every loop over the world is declared with the type of its candidates. -/
structure WellTyped (t : Tree) (root : StmtId) : Prop where
  assign : ∀ {id target value}, t.Under root id →
    t.stmt? id = some (.assign target value) →
    ∃ type, t.declared? target = some type ∧ t.exprType? value = some type
  forEach : ∀ {id var selector filter sort body}, t.Under root id →
    t.stmt? id = some (.forEach var selector filter sort body) →
    t.declared? var = some selector.candidateType

end Tree

/-- Variables and lists keep to their types. -/
structure Memory.Typed (t : Tree) (m : Memory) : Prop where
  globals : m.globals.Typed t
  lists : m.progress.Frames t.Lists

namespace Progress

variable {t : Tree} {p : Progress} {root id : StmtId} {k : List Machine.Task}

/-- A `leaveLoop` that a run comes to with no loop at work would have no loop around
it. -/
theorem Path.exposed_root {ls : List StmtId} (h : Path t p root id k ls) (hls : ls = [])
    (hexposed : t.Exposed id) : t.Exposed root := by
  induction h with
  | root => exact hexposed
  | link _ hl ih =>
      obtain ⟨htask, hls⟩ := List.append_eq_nil_iff.mp hls
      refine ih hls ?_
      cases hl with
      | sequence hs hcs => exact .child hs rfl hcs (by simp) hexposed
      | thenBranch hs | elseBranch hs => exact .child hs rfl rfl (by simp) hexposed
      | whileRound | forEachRound => cases htask

end Progress

namespace Machine.Config

open Progress

variable {W : Type} {t : Tree} {root : StmtId} {c c' : Config W}
  {e : Option Event} {f : Fault}

variable [World W]

theorem typed_scope (hc : c.memory.Typed t) : (c.scope t).Typed :=
  Scope.typed_of_globals hc.globals fun _ _ h => by cases h

/-- **Every step keeps variables and lists to their types.** -/
theorem Step.typed (ht : t.Proper root) (hground : t.Grounded) (hs : Sound t root c)
    (hc : c.memory.Typed t) (h : Step t c e c') : c'.memory.Typed t := by
  constructor
  · cases h with
    | quiet h => cases h <;> exact hc.globals
    | deed _ h =>
        cases h with
        | assign _ _ hg => exact hc.globals.assign hg
        | visit _ _ _ hg => exact hc.globals.assign hg
        | print | act | leaveLoop | choose | chooseNone | list | check | stop =>
            exact hc.globals
    | faulted | refused | waitRefused | waitFaulted | waited | waiting => exact hc.globals
  · refine h.frames t.lasting_lists hc.lists (fun id candidates he => ?_)
      fun _ _ _ _ => ?_
    · subst he
      cases h with
      | deed _ h =>
          cases h with
          | list hat _ hv =>
              obtain ⟨cs, hfork⟩ := hs.fork_of_at ht hat
              have htypes := ((hfork.candidates_meets hground rfl).of_yields hv).2
              intro _ _ _ _ _ _ _ _ hs hf
              cases hf
              cases hat.stmt.symm.trans hs
              exact htypes
    · intro _ _ _ _ _ _ _ _ _ hf
      cases hf

/-! ## Faults -/

/-- **In a well typed script every fault is a transient one.** -/
theorem Faulty.transient {g : Generator} (ht : t.Proper root) (hground : t.Grounded)
    (hs : Sound t root c) (hc : c.memory.Typed t) (hw : t.WellTyped root)
    (h : Faulty t c f g) :
    f.isFatal = false := by
  cases h with
  | assign hat hv | print hat hv =>
      obtain ⟨cs, hfork⟩ := hs.fork_of_at ht hat
      exact (hfork.evaluate_meets hground rfl (List.mem_singleton_self _)).of_fails hv
  | act hat hv =>
      obtain ⟨cs, hfork⟩ := hs.fork_of_at ht hat
      exact (hfork.command_meets hground rfl).of_fails hv
  | choose hat _ hv =>
      obtain ⟨cs, hfork⟩ := hs.fork_of_at ht hat
      exact (hfork.condition_meets hground rfl (List.mem_singleton_self _) _).of_fails hv
  | check hat _ hv =>
      obtain ⟨cs, hfork⟩ := hs.fork_of_atHead ht hat
      exact (hfork.condition_meets hground rfl (List.mem_singleton_self _) _).of_fails hv
  | list hat _ hv =>
      obtain ⟨cs, hfork⟩ := hs.fork_of_at ht hat
      refine ((hfork.candidates_meets hground rfl).of_fails hv).resolve_right fun hne =>
        hne ?_
      exact (hc.globals _).1.trans (hw.forEach (hs.of_at hat).1.under hat.stmt)
  | write hat hv hr =>
      -- the value has the type of the target, and so it is not refused
      obtain ⟨type, htarget, hvalue⟩ := hw.assign (hs.of_at hat).1.under hat.stmt
      have hv := Scope.type_of_yields (s := c.scope t) hground (typed_scope hc) hv
      cases hvalue.symm.trans hv
      obtain ⟨globals, hok⟩ := Globals.exists_assign ((hc.globals _).1.trans htarget)
      cases hr.symm.trans hok
  | @visit id var selector filter sort body candidates index candidate r hat hf hi hr =>
      have hdeclared := hw.forEach (hs.of_atHead hat).1.under hat.stmt
      have htype : candidate.type = selector.candidateType :=
        hc.lists id _ _ _ _ _ _ _ _ hat.stmt ((frame_eq _ _).symm.trans hf) _
          (List.mem_of_getElem? hi)
      rw [← htype] at hdeclared
      obtain ⟨globals, hok⟩ := Globals.exists_assign ((hc.globals _).1.trans hdeclared)
      cases hr.symm.trans hok
  | leaveLoop hat hl =>
      exact absurd ((hs.of_at hat).1.exposed_root hl (.here hat.stmt)) ht.enclosed

omit [World W] in
/-- A quiet step passes a fault on, but raises none. -/
theorem Quiet.raised (h : Quiet t c c') (hf : c'.control = .raise f) :
    c.control = .raise f := by
  cases h with
  | unwind | passFault | ended => exact hf
  | pass | sequence | branch | noBranch | «while» | forEach | skip | whileRound
  | forEachRound
  | exhausted | unlisted | next | sequenceEnd | branchEnd | roundEnd | broken => cases hf

theorem Step.transient (ht : t.Proper root) (hground : t.Grounded) (hs : Sound t root c)
    (hc : c.memory.Typed t) (hw : t.WellTyped root) (h : Step t c e c')
    (hraised : ∀ f, c.control = .raise f → f.isFatal = false) :
    ∀ f, c'.control = .raise f → f.isFatal = false := by
  intro f hf
  cases h with
  | quiet h => exact hraised f (h.raised hf)
  | deed _ h => cases h <;> cases hf
  | faulted _ h =>
      cases hf
      exact h.transient ht hground hs hc hw
  | waitFaulted _ h hv =>
      cases hf
      obtain ⟨cs, hfork⟩ := hs.fork_of_at ht h.at_
      exact (hfork.duration_meets hground rfl (List.mem_singleton_self _)).of_fails hv
  | refused | waitRefused | waited | waiting => cases hf

end Machine.Config

namespace Machine

open Config

variable {W : Type} [World W] {t : Tree} {root : StmtId} {c c' : Config W}
  {ms : List (Transition W)}

theorem Run.typed (ht : t.Proper root) (hground : t.Grounded) (hs : c.Sound t root)
    (hc : c.memory.Typed t) (h : Run t c ms c') : c'.memory.Typed t :=
  hs.keeps (P := fun d => d.memory.Typed t) ht hc
    (fun hs hc hstep => hstep.typed ht hground hs hc) h

/-- A run over a well typed script raises transient faults only. -/
theorem Run.transient (ht : t.Proper root) (hground : t.Grounded) (hs : c.Sound t root)
    (hc : c.memory.Typed t) (hw : t.WellTyped root) (h : Run t c ms c')
    (hraised : ∀ f, c.control = .raise f → f.isFatal = false) :
    ∀ f, c'.control = .raise f → f.isFatal = false := by
  have hkept := hs.keeps (P := fun d => d.memory.Typed t ∧
      ∀ f, d.control = .raise f → f.isFatal = false) ht ⟨hc, hraised⟩
    (fun hs ⟨hc, hraised⟩ hstep => ⟨hstep.typed ht hground hs hc,
      hstep.transient ht hground hs hc hw hraised⟩) h
  exact hkept.2

end Machine

/-! ## Programs -/

namespace Program

open Machine Machine.Config Progress

variable {W : Type} [World W] {ok : Nat → Program → W → Number → Prop} {t : Tree}
  {p q : Program} {es : List Event} {subject : ActorId} {settings : Settings}

omit [World W] in
theorem typed_opening (h : q.memory.Typed t) (w : W) (budget : Number) :
    (q.opening w budget).memory.Typed t :=
  ⟨h.globals, h.lists⟩

omit [World W] in
theorem typed_of_start (hstart : start t subject settings = .ok p) :
    p.memory.Typed t := by
  refine ⟨?_, (started_of_start hstart).frames t.lasting_lists⟩
  have hvalid := validate_of_start hstart
  obtain ⟨root, progress, -, -, rfl⟩ := start_eq_ok_iff.mp hstart
  exact Globals.typed_ofDeclarations (Tree.nodup_of_validate hvalid)

theorem typed_of_ticks (hstart : start t subject settings = .ok p) (h : Ticks ok p es q) :
    q.memory.Typed t := by
  have hp := started_of_start hstart
  have hground := Tree.grounded_of_validate (validate_of_start hstart)
  have hkept : Kept W t p.root (Memory.Typed t) :=
    { opening := fun _ hm => ⟨hm.globals, hm.lists⟩
      step := fun hs hc hstep => hstep.typed hp.proper hground hs hc
      settle := fun _ _ hm => ⟨hm.globals, hm.lists⟩ }
  exact hkept.ticks hp (typed_of_start hstart) h

/-- A well typed script is never halted. -/
theorem running_of_ticks (hstart : start t subject settings = .ok p)
    (hw : t.WellTyped p.root) (h : Ticks ok p es q) : q.isHalted = false := by
  induction h with
  | start => exact (started_of_start hstart).running
  | @tick es q limit w budget k hticks _ hk ih =>
      have hq := settled_of_ticks (started_of_start hstart) hticks
      rcases hq.run_of_tick hk with ⟨-, -, rfl⟩
        | ⟨-, hopening, outcome, c', hrun, ho, rfl⟩
      · exact ih
      · have hvalid := validate_of_start hstart
        have ht := Tree.proper_of_validate hvalid
        have hhalted : c'.memory.halted = false := hrun.attested.halted.trans ih
        cases ((hopening.run ht hrun).over_of_outcome ho).1 with
        | completed | suspended => exact hhalted
        | raised hcontrol =>
            have hf := hrun.transient ht (Tree.grounded_of_validate hvalid) hopening
              (typed_opening (typed_of_ticks hstart hticks) w budget) hw
              (fun _ hf => by cases hf) _ hcontrol
            show (q.settle _ c'.memory).memory.halted = false
            simp only [settle, hf]
            exact hhalted

/--
**Static typing is sound.**  However a script has been ticked, and whatever has happened
to the world in between, its variables are those that are declared, each with a value of
its declared type, and this holds at every configuration of every tick.  An expression
that is evaluated there, in whatever world, with a candidate of a loop in the place of its
variable or without one, has the type that can be read off the tree.  And if assignments
and loops suit the declarations, no tick ever halts the script.
-/
theorem typing_sound (hstart : start t subject settings = .ok p) :
    (∀ es q, Reached W p es q → q.memory.globals.Typed t) ∧
    (∀ es q, Reached W p es q → (q.isHalted || q.isFinished) = false →
      ∀ (w : W) (budget : Number) ms c, Run t (q.opening w budget) ms c →
        c.memory.globals.Typed t ∧
        ∀ s : Scope W, s.tree = t → s.globals = c.memory.globals → s.ForCandidate →
          ∀ e g v g', (s.evaluate e).Yields g v g' → t.exprType? e = some v.type) ∧
    (t.WellTyped p.root → ∀ es q, Reached W p es q → q.isHalted = false) := by
  have hvalid := validate_of_start hstart
  have ht := Tree.proper_of_validate hvalid
  have hground := Tree.grounded_of_validate hvalid
  refine ⟨fun es q h => (typed_of_ticks hstart h).globals, ?_,
    fun hw es q h => running_of_ticks hstart hw h⟩
  intro es q h hrun w budget ms c hms
  have hopening :=
    sound_opening (settled_of_ticks (started_of_start hstart) h) hrun w budget
  have hc :=
    hms.typed ht hground hopening (typed_opening (typed_of_ticks hstart h) w budget)
  refine ⟨hc.globals, fun s hs hglobals hcandidate e g v g' hv => ?_⟩
  subst hs
  refine Scope.type_of_yields hground (Scope.typed_of_globals ?_ hcandidate) hv
  rw [hglobals]
  exact hc.globals

/--
```text
for each foe in actors { count = count + 1 }
```
-/
def census : Tree where
  names := .ofList ["foe", "count"]
  exprs := #[.number .one, .var 2, .binary .add 1 0]
  stmts := #[.assign 2 2, .forEach 1 (.actors none) none none 0]
  globals := #[(1, .object), (2, .number)]
  root := some 1

/-- A count of the actors is never halted. -/
theorem typing_sound_census :
    census.WellTyped 1 ∧
      ∃ p, start census 1 = .ok p ∧ ∀ es q, Reached GridWorld p es q →
        q.memory.globals.Typed census ∧ q.isHalted = false := by
  have hw : census.WellTyped 1 := by
    constructor
    · intro id target value _ hs
      match id with
      | 0 =>
          cases hs
          exact ⟨.number, rfl, rfl⟩
      | 1 | n + 2 => cases hs
    · intro id var selector filter sort body _ hs
      match id with
      | 1 =>
          cases hs
          rfl
      | 0 | n + 2 => cases hs
  obtain ⟨p, hstart, hroot⟩ := exists_start (show census.validate = .ok 1 from rfl) 1 {}
  obtain ⟨htyped, -, hrunning⟩ := typing_sound (W := GridWorld) hstart
  rw [hroot] at hrunning
  exact ⟨hw, p, hstart, fun es q h => ⟨htyped es q h, hrunning hw es q h⟩⟩

end Program

end ActorScript
