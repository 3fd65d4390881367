import ActorScript.GridWorld
import ActorScript.Proofs.Evidence
import ActorScript.Proofs.Soundness

/-!
# The table between ticks

What a program is between two ticks, whatever the budgets have been and whatever
has happened to the world in between.

## Main results

* `Settled.run_of_tick` — a tick changes nothing, or is a run that is sound from its
  opening on.
* `settled_of_ticks` — every tick leaves a table that is well formed from the
  root.
* `Kept.ticks` — what every step keeps of the memory is kept by all ticks.
* `single_continuation_point` — the same for the programs that a start leads to,
  with what it says about the end of a program.
-/

namespace ActorScript

namespace Program

open Machine Progress

variable {W : Type}

/-- What `start` makes of a valid tree: the root is fresh and all else is at rest. -/
structure Started (t : Tree) (p : Program) : Prop where
  proper : t.Proper p.root
  tree : p.tree = t
  fresh : p.memory.progress.Fresh t p.root
  outside : ∀ j, ¬ t.Under p.root j → p.memory.progress.node j = idleNode
  running : p.memory.halted = false

/-- A program starts with its tree checked and its root armed, or not at all. -/
theorem start_eq_ok_iff {t : Tree} {subject : ActorId} {settings : Settings}
    {p : Program} :
    start t subject settings = .ok p ↔
      ∃ root progress, t.validate = .ok root ∧
        (Progress.idle t.stmts.size).arm? t root = some progress ∧
        p = {
          tree := t
          root
          memory := {
            Memory.initial t subject settings.seed with
            progress
            output := { sink := settings.sink }
            tally := if settings.tallied then some {} else none } } := by
  unfold start
  cases hroot : t.validate with
  | error e => simp [bind, Except.bind]
  | ok root =>
      have hinitial : (Memory.initial t subject settings.seed).progress =
        .idle t.stmts.size := rfl
      cases hq : (Progress.idle t.stmts.size).arm? t root with
      | none => simp [bind, Except.bind, Memory.arm?, hinitial, hq]
      | some q =>
          simp only [bind, Except.bind, Memory.arm?, hinitial, hq, Option.map_some]
          constructor
          · rintro ⟨⟩
            exact ⟨root, q, rfl, hq, rfl⟩
          · rintro ⟨_, q', ⟨⟩, hq', rfl⟩
            cases hq.symm.trans hq'
            rfl

theorem started_of_start {t : Tree} {subject : ActorId}
    {settings : Settings} {p : Program} (h : start t subject settings = .ok p) :
    Started t p := by
  obtain ⟨root, q, hroot, hq, rfl⟩ := start_eq_ok_iff.mp h
  have hready := readied_of_arm? hq
  refine ⟨Tree.proper_of_validate hroot, rfl, fresh_of_readied hready, ?_, rfl⟩
  intro j hj
  exact (hready.other j hj).trans (node_idle _ j)

variable [World W]

/-- `Ticks ok p es q`: ticks that are as `ok` has them lead from `p` to `q`, and `es` is
what they do.  Each tick has a world of its own, so that anything may happen to the
world in between. -/
inductive Ticks (ok : Nat → Program → W → Number → Prop) (p : Program) :
    List Event → Program → Prop
  | start : Ticks ok p [] p
  | tick {es : List Event} {q : Program} {limit : Nat} {w : W}
      {budget : Number} {k : Tick W} (h : Ticks ok p es q) (hok : ok limit q w budget)
      (hk : q.advance? limit w budget = some k) : Ticks ok p (es ++ k.events) k.program

/-- The program has come from `p` to `q` by any number of ticks, with any budgets and any
worlds. -/
abbrev Reached (W : Type) [World W] (p : Program) (es : List Event) (q : Program) :
    Prop :=
  Ticks (fun _ _ (_ : W) _ => True) p es q

/-- What holds between two ticks. -/
structure Settled (t : Tree) (root : StmtId) (p : Program) : Prop where
  tree : p.tree = t
  root_eq : p.root = root
  wellFormed : p.memory.progress.WellFormed t root

omit [World W] in
theorem isFinished_iff {t : Tree} {root : StmtId} {p : Program} (h : Settled t root p) :
    p.isFinished = true ↔ p.memory.progress.Idle t root := by
  unfold isFinished
  rw [h.root_eq, isArmed_eq]
  rcases h.wellFormed.main with hidle | hact
  · rw [hidle.node_eq]
    exact ⟨fun _ => hidle, fun _ => rfl⟩
  · rw [hact.armed]
    exact ⟨fun hf => absurd hf (by decide), fun hidle => absurd hidle hact.not_idle⟩

omit [World W] in
/-- A tick opens at a root that has work to do. -/
theorem sound_opening {t : Tree} {root : StmtId} {p : Program} (h : Settled t root p)
    (hrun : (p.isHalted || p.isFinished) = false) (w : W) (budget : Number) :
    (p.opening w budget).Sound t root := by
  constructor
  · rcases h.wellFormed.main with hidle | hact
    · rw [(isFinished_iff h).mpr hidle, Bool.or_true] at hrun
      cases hrun
    · show Point t p.memory.progress root (.enter p.root) [] []
      rw [h.root_eq]
      exact .enter .root hact
  · exact h.wellFormed.outside

omit [World W] in
/-- A run that is over leaves the root at rest or with work to do. -/
theorem wellFormed_of_sound {t : Tree} {root : StmtId} {c : Config W}
    (hc : c.Sound t root) {outcome : Except Fault Flow} (ho : c.outcome? = some outcome) :
    c.memory.progress.WellFormed t root := by
  refine ⟨?_, hc.outside⟩
  cases (hc.over_of_outcome ho).1 with
  | completed _ h => exact .inl h
  | suspended _ h | raised _ h => exact .inr h

omit [World W] in
/-- What a program makes of a run is in the counts, and in whether it is halted. -/
theorem settle_memory (p : Program) (outcome : Except Fault Flow) (m : Memory) :
    ∃ tally halted, (p.settle outcome m).memory = { m with tally, halted } := by
  unfold settle
  split
  · exact ⟨_, _, rfl⟩
  · exact ⟨_, _, rfl⟩
  · exact ⟨_, _, rfl⟩
  · split <;> exact ⟨_, _, rfl⟩

omit [World W] in
theorem settle_progress (p : Program) (outcome : Except Fault Flow) (m : Memory) :
    (p.settle outcome m).memory.progress = m.progress := by
  obtain ⟨tally, halted, h⟩ := p.settle_memory outcome m
  rw [h]

omit [World W] in
theorem settle_tree (p : Program) (outcome : Except Fault Flow) (m : Memory) :
    (p.settle outcome m).tree = p.tree ∧ (p.settle outcome m).root = p.root := by
  unfold settle
  split
  · exact ⟨rfl, rfl⟩
  · exact ⟨rfl, rfl⟩
  · exact ⟨rfl, rfl⟩
  · split <;> exact ⟨rfl, rfl⟩

/-- A tick of a program with a well-formed table is no change at all, or a run over the
tree, sound from the opening on. -/
theorem Settled.run_of_tick {t : Tree} {root : StmtId} {p : Program}
    (h : Settled t root p) {limit : Nat} {w : W} {budget : Number} {k : Tick W}
    (hk : p.advance? limit w budget = some k) :
    ((p.isHalted || p.isFinished) = true ∧ p.moves limit w budget = [] ∧ k = ⟨p, w, []⟩) ∨
    ((p.isHalted || p.isFinished) = false ∧ (p.opening w budget).Sound t root ∧
      ∃ outcome c', Run t (p.opening w budget) (p.moves limit w budget) c' ∧
        c'.outcome? = some outcome ∧
        k = ⟨p.settle outcome c'.memory, c'.world, events (p.moves limit w budget)⟩) := by
  rcases advance?_eq_some hk with hover | ⟨hgoing, hrun⟩
  · exact .inl hover
  · rw [h.tree] at hrun
    exact .inr ⟨hgoing, sound_opening h hgoing w budget, hrun⟩

/-- A tick leaves the table well formed. -/
theorem Settled.tick {t : Tree} {root : StmtId} {p : Program} (ht : t.Proper root)
    (h : Settled t root p) {limit : Nat} {w : W} {budget : Number} {k : Tick W}
    (hk : p.advance? limit w budget = some k) : Settled t root k.program := by
  rcases h.run_of_tick hk with ⟨-, -, rfl⟩ | ⟨-, hopening, outcome, c', hrun, ho, rfl⟩
  · exact h
  · refine ⟨(settle_tree ..).1.trans h.tree, (settle_tree ..).2.trans h.root_eq, ?_⟩
    show (p.settle outcome c'.memory).memory.progress.WellFormed t root
    rw [settle_progress]
    exact wellFormed_of_sound (hopening.run ht hrun) ho

theorem Started.settled {t : Tree} {p : Program} (h : Started t p) : Settled t p.root p :=
  ⟨h.tree, rfl, .inr (.fresh h.fresh), h.outside⟩

omit [World W] in
theorem Started.going {t : Tree} {p : Program} (h : Started t p) :
    (p.isHalted || p.isFinished) = false := by
  have hfinished : p.isFinished = false := Bool.eq_false_iff.mpr fun hf =>
    (Active.fresh h.fresh).not_idle ((isFinished_iff h.settled).mp hf)
  rw [hfinished, Bool.or_false]
  exact h.running

theorem settled_of_ticks {ok : Nat → Program → W → Number → Prop} {t : Tree}
    {p q : Program} {es : List Event} (hp : Started t p) (h : Ticks ok p es q) :
    Settled t p.root q := by
  induction h with
  | start => exact hp.settled
  | tick _ _ hk ih => exact ih.tick hp.proper hk

/-! ## What ticks keep -/

/-- Every step keeps `P`, and the books of a tick have nothing to do with it. -/
structure Kept (W : Type) [World W] (t : Tree) (root : StmtId) (P : Memory → Prop) :
    Prop where
  opening : ∀ {m : Memory} (budget : Number), P m → P (m.replenish budget).countTick
  step : ∀ {c c' : Config W} {e : Option Event}, c.Sound t root → P c.memory →
    Config.Step t c e c' → P c'.memory
  settle : ∀ {m : Memory} (tally : Option Tally) (halted : Bool), P m →
    P { m with tally, halted }

section Kept

variable {t : Tree} {root : StmtId} {P : Memory → Prop}

theorem Kept.run {c c' : Config W} {ms : List (Transition W)} (hP : Kept W t root P)
    (ht : t.Proper root) (hs : c.Sound t root) (hc : P c.memory) (h : Run t c ms c') :
    P c'.memory :=
  hs.keeps (P := fun d => P d.memory) ht hc hP.step h

theorem Kept.tick {p : Program} (hP : Kept W t root P) (ht : t.Proper root)
    (h : Settled t root p) (hp : P p.memory) {limit : Nat} {w : W}
    {budget : Number} {k : Tick W} (hk : p.advance? limit w budget = some k) :
    P k.program.memory := by
  rcases h.run_of_tick hk with ⟨-, -, rfl⟩ | ⟨-, hopening, outcome, c', hrun, -, rfl⟩
  · exact hp
  · have hc' := hP.run ht hopening (hP.opening budget hp) hrun
    obtain ⟨tally, halted, hmemory⟩ := p.settle_memory outcome c'.memory
    show P (p.settle outcome c'.memory).memory
    rw [hmemory]
    exact hP.settle tally halted hc'

/-- **What steps keep, ticks keep.** -/
theorem Kept.ticks {ok : Nat → Program → W → Number → Prop} {p q : Program}
    {es : List Event} (hP : Kept W t p.root P) (hp : Started t p) (hstart : P p.memory)
    (h : Ticks ok p es q) :
    P q.memory := by
  induction h with
  | start => exact hstart
  | tick hticks _ hk ih => exact hP.tick hp.proper (settled_of_ticks hp hticks) ih hk

end Kept

/-! ## The continuation point -/

/--
**Single continuation point.**  However a program has been ticked, and whatever has
happened to the world in between, its table is well formed: the statements with work
to do lie along one path from the root, with fresh ones after it.  No conditional
remembers that it had no branch to take, and the program is done exactly if its root
is at rest.
-/
theorem single_continuation_point {t : Tree} {subject : ActorId} {settings : Settings}
    {p q : Program} {es : List Event} (hstart : start t subject settings = .ok p)
    (h : Reached W p es q) :
    q.memory.progress.WellFormed t p.root ∧
      (∀ j, (q.memory.progress.node j).frame ≠ .branch none) ∧
      (q.isFinished = true ↔ q.memory.progress.Idle t p.root) := by
  have hq := settled_of_ticks (started_of_start hstart) h
  refine ⟨hq.wellFormed, fun j => ?_, isFinished_iff hq⟩
  by_cases hj : t.Under p.root j
  · rcases hq.wellFormed.main with hidle | hact
    · rw [hidle j hj]
      exact Frame.noConfusion
    · exact hact.frame_ne_branch_none j hj
  · rw [hq.wellFormed.outside j hj]
    exact Frame.noConfusion

/--
```text
while true {
  if true { wait 3 }
  print 3
}
```
-/
def restless : Tree where
  exprs := #[.number (.ofInt 3), .boolean true]
  stmts := #[.wait 0, .conditional 1 0 none, .print 0, .sequence ⟨0, 2⟩, .while 1 3]
  lists := #[1, 2]
  root := some 4

/-- What can be worked out about a script at its start. -/
theorem exists_of_start {t : Tree} {subject : ActorId} {settings : Settings} {α : Type}
    {f : Program → α} {a : α} (h : (start t subject settings).toOption.map f = some a) :
    ∃ p, start t subject settings = .ok p ∧ f p = a := by
  cases hstart : start t subject settings with
  | error e =>
      rw [hstart] at h
      cases h
  | ok p =>
      rw [hstart] at h
      cases h
      exact ⟨p, rfl, rfl⟩

/-- A tick of four units stops in the middle of the `wait`, two thirds of which are
paid. -/
theorem single_continuation_point_restless :
    ∃ p q, start restless 1 = .ok p ∧
      Reached GridWorld p [.decided 4 true, .decided 1 true] q ∧
      q.memory.progress = ⟨#[{ armed := true, frame := .wait (.ofInt 1) },
        { armed := true, frame := .branch (some 0) }, { armed := true },
        { armed := true }, { armed := true, frame := .while .continuing }]⟩ ∧
      q.memory.progress.WellFormed restless p.root ∧ q.isFinished = false := by
  have hrun : (start restless 1).toOption.map (fun p =>
      (p.advance? 100 (GridWorld.empty 1 1) (.ofInt 4)).map fun k =>
        (k.program.memory.progress, k.events, k.program.isFinished)) =
      some (some (⟨#[{ armed := true, frame := .wait (.ofInt 1) },
        { armed := true, frame := .branch (some 0) }, { armed := true },
        { armed := true }, { armed := true, frame := .while .continuing }]⟩,
        [.decided 4 true, .decided 1 true], false)) := by
    decide +kernel
  obtain ⟨p, hstart, htick⟩ := exists_of_start hrun
  obtain ⟨k, hk, hfacts⟩ := Option.map_eq_some_iff.mp htick
  obtain ⟨hprogress, hevents, hfinished⟩ : _ ∧ _ ∧ _ := by
    simpa only [Prod.mk.injEq] using hfacts
  have hreached : Reached GridWorld p ([] ++ k.events) k.program :=
    .tick .start trivial hk
  rw [List.nil_append, hevents] at hreached
  exact ⟨p, k.program, hstart, hreached, hprogress,
    (single_continuation_point hstart hreached).1, hfinished⟩

end Program

end ActorScript
