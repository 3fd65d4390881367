import ActorScript.Proofs.Executable
import ActorScript.Proofs.Ticks

/-!
# Leaving a loop

The loops at work are gathered anew in every tick, on the way down to the statement that
runs next.  Whatever that way is, they are the loops around the statement in the tree.
So a `leaveLoop` ends the nearest loop around it: it passes the tasks between them, which
leave the table as it is, until the loop clears its own subtree and is done.

## Main results

* `Progress.Path.around`, `Config.Sound.around` — the loops at work are those around the
  statement at hand.
* `Run.exists_out`, `Run.goesOn` — a `leaveLoop` comes out at its loop, which has put its
  subtree to rest, and the run goes on in the parent of the loop.
* `break_ends_nearest_loop` — the same for every run of a program, with what comes next.
-/

namespace ActorScript

/-! ## The loops around a statement -/

namespace Tree

/-- The statement is a loop. -/
def IsLoop (t : Tree) (id : StmtId) : Prop := ∃ s, t.stmt? id = some s ∧ s.isLoop = true

/-- `ls` lists the loops around a statement in the tree, the innermost first. -/
structure LoopsAround (t : Tree) (root id : StmtId) (ls : List StmtId) : Prop where
  mem : ∀ l, l ∈ ls ↔ l ≠ id ∧ t.Under root l ∧ t.Under l id ∧ t.IsLoop l
  nested : ls.Pairwise fun inner outer => inner ≠ outer ∧ t.Under outer inner

variable {t : Tree} {root id c : StmtId} {s : Stmt} {ls cs : List StmtId}

/-- What stands over a child is the child or stands over its parent. -/
theorem Proper.under_parent (ht : t.Proper root) (hid : t.Under root id)
    (hcs : t.children? id = some cs) (hc : c ∈ cs) {l : StmtId} (hl : t.Under root l)
    (hlc : t.Under l c) : l = c ∨ t.Under l id := by
  rcases hlc.exists_place with rfl | ⟨p, i, hp, hpc⟩
  · exact .inl rfl
  · obtain ⟨j, hj⟩ := List.getElem?_of_mem hc
    obtain ⟨rfl, -⟩ :=
      ht.place_unique (.refl root) (hl.trans hp) hid hpc ((child?_eq hcs).trans hj)
    exact .inr hp

theorem loopsAround_root (ht : t.Proper root) : t.LoopsAround root root [] where
  mem l := by
    refine iff_of_false (by simp) ?_
    rintro ⟨hne, hl, hlr, -⟩
    exact hne (ht.under_antisymm hl hlr hl)
  nested := .nil

/-- The loops around a child are those around its parent, and the parent if it is one. -/
theorem LoopsAround.child (h : t.LoopsAround root id ls) (ht : t.Proper root)
    (hid : t.Under root id) (hf : t.Fork id s cs) (hc : c ∈ cs) :
    t.LoopsAround root c (if s.isLoop then id :: ls else ls) := by
  have hidc : t.Under id c := .of_child hf.children? hc
  have hnot := ht.not_under_child hid hf hc
  have hne : id ≠ c := by
    rintro rfl
    exact hnot (.refl id)
  have hloop : t.IsLoop id ↔ s.isLoop = true := by
    simp [IsLoop, hf.stmt]
  -- a loop above the child is its parent or stands above that
  have hmem : ∀ l, (l = id ∧ s.isLoop = true) ∨ l ∈ ls ↔
      l ≠ c ∧ t.Under root l ∧ t.Under l c ∧ t.IsLoop l := by
    intro l
    rw [h.mem, ← hloop]
    constructor
    · rintro (⟨rfl, hl⟩ | ⟨-, hl, hlid, hloop⟩)
      · exact ⟨hne, hid, hidc, hl⟩
      · refine ⟨?_, hl, hlid.trans hidc, hloop⟩
        rintro rfl
        exact hnot hlid
    · rintro ⟨hlc, hl, hunder, hisLoop⟩
      have hlid := (ht.under_parent hid hf.children? hc hl hunder).resolve_left hlc
      by_cases heq : l = id
      · subst heq
        exact .inl ⟨rfl, hisLoop⟩
      · exact .inr ⟨heq, hl, hlid, hisLoop⟩
  cases hs : s.isLoop with
  | true =>
      refine ⟨fun l => ?_, List.pairwise_cons.mpr ⟨fun l hl => ?_, h.nested⟩⟩
      · rw [← hmem l]
        simp [hs]
      · obtain ⟨hl, -, hlid, -⟩ := (h.mem l).mp hl
        exact ⟨hl.symm, hlid⟩
  | false =>
      refine ⟨fun l => ?_, h.nested⟩
      rw [← hmem l]
      simp [hs]

end Tree

namespace Progress

open Machine (Task)

variable {t : Tree} {p : Progress} {root id c : StmtId} {k : List Task} {ls : List StmtId}

/-- A task holds a loop at work if its statement is one. -/
theorem Link.loops_eq {task : Task} {s : Stmt} (h : Link t p id task c)
    (hs : t.stmt? id = some s) : task.loop?.toList ++ ls =
      if s.isLoop then id :: ls else ls := by
  cases h with
  | sequence hs' | thenBranch hs' | elseBranch hs' | whileRound hs' | forEachRound hs' =>
      cases hs.symm.trans hs'
      rfl

/-- The loops that lie on a path are those around its end. -/
theorem Path.around (h : Path t p root id k ls) (ht : t.Proper root) :
    t.LoopsAround root id ls := by
  induction h with
  | root => exact Tree.loopsAround_root ht
  | link h hl ih =>
      obtain ⟨s, cs, hs, hcs, hc⟩ := hl.mem
      rw [hl.loops_eq hs]
      exact ih.child ht h.under (ht.fork_eq h.under hs hcs) hc

end Progress

namespace Machine

open Progress

variable {W : Type} {t : Tree} {root : StmtId} {c c' : Config W}

/-- The statement that a configuration is about to execute. -/
def Config.Executes (c : Config W) (id : StmtId) : Prop :=
  c.control = .enter id ∨ c.control = .iterate id

/-- **The loops at work** are the loops around the statement at hand. -/
theorem Config.Sound.around {id : StmtId} (hc : c.Sound t root) (ht : t.Proper root)
    (h : c.Executes id) : t.LoopsAround root id c.memory.loops := by
  have hp := hc.point
  rcases h with h | h
  · rw [h] at hp
    generalize hls : c.memory.loops = ls at hp
    generalize hk : c.stack = k at hp
    cases hp with
    | enter hpath _ => exact hpath.around ht
    | passing hpath hb _ hcs hmem =>
        cases hb with
        | sequence hs =>
            rw [Tree.children?_eq hs] at hcs
            exact (hpath.around ht).child ht hpath.under
              (ht.fork_eq hpath.under hs hcs) hmem
  · rw [h] at hp
    exact hp.of_iterate.1.around ht

variable [World W]

/-! ## The way out -/

/-- The configuration in which a loop has been left: it is done, and its subtree has been
put to rest. -/
def Config.out (c : Config W) (p : Progress) (k : List Task) (ls : List StmtId) :
    Config W :=
  { c with
    control := .leave .completed
    stack := k
    memory := { c.memory with progress := p, loops := ls } }

/-- A statement that is left hands over to the task on top of the stack. -/
theorem Config.Step.of_leave {e : Option Event} {flow : Flow} {task : Task}
    {k : List Task} (h : Step t c e c') (hc : c.control = .leave flow)
    (hk : c.stack = task :: k) :
    { c with stack := k }.resume? t task flow = some c' ∧ e = none := by
  have hstep := Config.step?_eq_some_iff.mpr h
  simp only [Config.step?, hc, hk, Option.pure_def, Option.bind_eq_bind,
    Option.bind_eq_some_iff, Option.some.injEq, Prod.mk.injEq] at hstep
  obtain ⟨next, hnext, rfl, rfl⟩ := hstep
  rw [← hc] at hnext
  exact ⟨hnext, rfl⟩

/-- A run that has something left to do goes on with its next step. -/
theorem Run.exists_step {ms : List (Transition W)} {o : Except Fault Flow}
    (h : Run t c ms c') (ho : c'.outcome? = some o) (hstack : c.stack ≠ []) :
    ∃ e c₁ rest, ms = ⟨c, e, c₁⟩ :: rest ∧ c.outcome? = none ∧ Config.Step t c e c₁ ∧
      Run t c₁ rest c' := by
  cases h with
  | refl =>
      unfold Config.outcome? at ho
      split at ho <;> simp_all
  | step hnone hstep hrun => exact ⟨_, _, _, rfl, hnone, hstep, hrun⟩

/-- A `leaveLoop` passes the tasks up to its loop, which clears its subtree.  The
induction is on the tasks in between. -/
theorem Run.exists_out {loop : StmtId} {above k : List Task} {ls : List StmtId}
    {ms : List (Transition W)} {o : Except Fault Flow} (hrun : Run t c ms c')
    (ho : c'.outcome? = some o) (hcontrol : c.control = .leave (.leaving loop))
    (hstack : c.stack = above ++ .round loop :: k)
    (habove : ∀ task ∈ above, task.loop? = none) (hloops : c.memory.loops = loop :: ls) :
    ∃ past rest p, ms = past ++ rest ∧ Cleared t loop c.memory.progress p ∧
      (∀ m ∈ past, m.before.control = .leave (.leaving loop) ∧ m.event = none) ∧
      Run t c past (c.out p k ls) ∧ Run t (c.out p k ls) rest c' := by
  induction above generalizing c ms with
  | nil =>
      obtain ⟨e, c₁, rest, rfl, hnone, hstep, htail⟩ :=
        hrun.exists_step ho (by simp [hstack])
      obtain ⟨hnext, rfl⟩ := hstep.of_leave hcontrol hstack
      simp only [Config.resume?, if_true, Config.completeAll?_eq,
        Option.map_eq_some_iff] at hnext
      obtain ⟨p, hp, rfl⟩ := hnext
      have hout : ({ c with stack := k, memory := c.memory.popLoop } : Config W).done p =
          c.out p k ls := by
        simp [Config.done, Config.out, Memory.popLoop, hloops]
      rw [hout] at htail hstep ⊢
      refine ⟨[_], rest, p, rfl, cleared_of_disarm? hp, ?_,
        .step hnone hstep (.refl _), htail⟩
      simpa using hcontrol
  | cons task above ih =>
      obtain ⟨e, c₁, rest, rfl, hnone, hstep, htail⟩ :=
        hrun.exists_step ho (by simp [hstack])
      obtain ⟨hnext, rfl⟩ := hstep.of_leave hcontrol hstack
      have hc₁ : c₁ = { c with stack := above ++ .round loop :: k } := by
        cases task with
        | sequence => exact (Option.some.inj hnext).symm
        | branch => exact (Option.some.inj hnext).symm
        | round id => exact absurd (habove (.round id) (by simp)) (by simp [Task.loop?])
      subst hc₁
      obtain ⟨past, rest, p, rfl, hclear, hsilent, hpast, hrest⟩ :=
        ih htail hcontrol rfl (fun task h => habove task (by simp [h])) hloops
      refine ⟨_ :: past, rest, p, rfl, hclear, ?_, .step hnone hstep hpast, hrest⟩
      exact List.forall_mem_cons.mpr ⟨⟨hcontrol, rfl⟩, hsilent⟩

/-! ## What comes next -/

/-- How a run goes on from a statement that has been left: the statement is the root, and
the run is over; or it goes on with what comes after the statement in its parent. -/
inductive GoesOn (t : Tree) (root id : StmtId) (c : Config W) : List (Transition W) → Prop
  | over (hid : id = root) (hk : c.stack = []) : GoesOn t root id c []
  | next {parent next : StmtId} {body : Slice} {past later : List StmtId} {k : List Task}
      {rest : List (Transition W)} (hs : t.stmt? parent = some (.sequence body))
      (hcs : t.slice? body = some (past ++ id :: next :: later))
      (hk : c.stack = .sequence parent (next :: later) :: k) :
      GoesOn t root id c
        (⟨c, none, { c with
          control := .enter next
          stack := .sequence parent later :: k }⟩ :: rest)
  | last {parent : StmtId} {body : Slice} {past : List StmtId} {k : List Task}
      {p : Progress} {rest : List (Transition W)}
      (hs : t.stmt? parent = some (.sequence body))
      (hcs : t.slice? body = some (past ++ [id]))
      (hk : c.stack = .sequence parent [] :: k)
      (hp : c.memory.progress.finish? parent = some p) :
      GoesOn t root id c (⟨c, none, { c with stack := k }.done p⟩ :: rest)
  | branch {parent th : StmtId} {cond : ExprId} {el : Option StmtId} {k : List Task}
      {p : Progress} {rest : List (Transition W)}
      (hs : t.stmt? parent = some (.conditional cond th el)) (hid : id ∈ th :: el.toList)
      (hk : c.stack = .branch parent :: k)
      (hp : c.memory.progress.finish? parent = some p) :
      GoesOn t root id c (⟨c, none, { c with stack := k }.done p⟩ :: rest)
  | round {parent : StmtId} {s : Stmt} {k : List Task} {p : Progress}
      {rest : List (Transition W)} (hs : t.stmt? parent = some s)
      (hloop : s.isLoop = true) (hid : t.childrenOf? s = some [id])
      (hk : c.stack = .round parent :: k)
      (hp : c.memory.progress.setFrame? parent
        (Config.nextRound s (c.memory.progress.frame parent)) = some p) :
      GoesOn t root id c (⟨c, none, (c.unwound (.round parent) k).again parent p⟩ :: rest)

/-- The stack tells where a statement stands in its parent. -/
theorem Run.goesOn {id : StmtId} {p : Progress} {k : List Task} {ls : List StmtId}
    {ms : List (Transition W)} {o : Except Fault Flow} (hrun : Run t c ms c')
    (ho : c'.outcome? = some o) (hcontrol : c.control = .leave .completed)
    (hk : c.stack = k) (hpath : Path t p root id k ls) : GoesOn t root id c ms := by
  cases hpath with
  | root =>
      cases hrun with
      | refl => exact .over rfl hk
      | step hnone => simp [Config.outcome?, hcontrol, hk] at hnone
  | link hpath hl =>
      obtain ⟨e, c₁, rest, rfl, hnone, hstep, htail⟩ := hrun.exists_step ho (by simp [hk])
      obtain ⟨hnext, rfl⟩ := hstep.of_leave hcontrol hk
      cases hl with
      | @sequence body past later _ hs hcs =>
          cases later with
          | nil =>
              simp only [Config.resume?, Config.complete?_eq,
                Option.map_eq_some_iff] at hnext
              obtain ⟨p, hp, rfl⟩ := hnext
              exact .last hs hcs hk hp
          | cons next later =>
              cases Option.some.inj hnext
              exact .next hs hcs hk
      | thenBranch hs | elseBranch hs =>
          simp only [Config.resume?, Config.complete?_eq, Option.map_eq_some_iff] at hnext
          obtain ⟨p, hp, rfl⟩ := hnext
          exact .branch hs (by simp) hk hp
      | whileRound hs | forEachRound hs =>
          simp only [Config.resume?, hs, Memory.setFrame?, Option.pure_def,
            Option.bind_eq_bind, Option.bind_some, Option.bind_eq_some_iff,
            Option.map_eq_some_iff, Option.some.injEq] at hnext
          obtain ⟨_, ⟨p, hp, rfl⟩, rfl⟩ := hnext
          exact .round hs rfl rfl hk hp

/-! ## A loop that is left -/

/-- How the `leaveLoop` that is executed by the move `m` ends its loop, in the course of
the moves `past`, after which the run is at `out`. -/
structure Leaves (t : Tree) (root : StmtId) (m : Transition W) (id loop : StmtId)
    (past : List (Transition W)) (out : Config W) : Prop where
  executes : m.before.Executes id
  stmt : t.stmt? id = some .leaveLoop
  /-- The loop is the innermost one around the statement. -/
  nearest : ∃ ls, t.LoopsAround root id (loop :: ls) ∧
    m.before.memory.loops = loop :: ls ∧
    out.memory.loops = ls
  /-- Nothing is executed on the way out. -/
  run : Run t m.after past out
  silent : ∀ m' ∈ past, m'.before.control = .leave (.leaving loop) ∧ m'.event = none
  /-- The loop has been left, as a statement that is done. -/
  control : out.control = .leave .completed
  stack : ∃ above, m.before.stack = above ++ .round loop :: out.stack
  /-- One step has been paid for, and nothing else has changed but the table. -/
  memory : out.memory =
    { m.before.memory.payStep with
      progress := out.memory.progress, loops := out.memory.loops }
  world : out.world = m.before.world
  idle : out.memory.progress.Idle t loop
  outside : AgreeOff t loop m.before.memory.progress out.memory.progress

omit [World W] in
/-- An event is that of one of the moves. -/
theorem exists_of_mem_events {ms : List (Transition W)} {e : Event} (h : e ∈ events ms) :
    ∃ done m todo, ms = done ++ m :: todo ∧ m.event = some e := by
  obtain ⟨m, hm, he⟩ := List.mem_flatMap.mp h
  obtain ⟨done, todo, rfl⟩ := List.append_of_mem hm
  exact ⟨done, m, todo, rfl, Option.mem_toList.mp he⟩

/-- What is said of a `leaveLoop` that has been executed. -/
theorem Config.Step.of_left {id loop : StmtId} (h : Step t c (some (.left id loop)) c') :
    ∃ ls p, c.At t id .leaveLoop ∧ c.memory.loops = loop :: ls ∧
      c.memory.progress.finish? id = some p ∧
      c' = (c.payStep.done p).goTo (.leave (.leaving loop)) := by
  cases h with
  | deed _ h =>
      cases h with
      | leaveLoop hat hl hp => exact ⟨_, _, hat, hl, hp, rfl⟩

/-- **A `leaveLoop` ends its loop**, and the run goes on after the loop. -/
theorem Run.exists_leaves {m : Transition W} {todo : List (Transition W)}
    {id loop : StmtId} {o : Except Fault Flow} (ht : t.Proper root)
    (hm : m.before.Sound t root) (hstep : Config.Step t m.before m.event m.after)
    (hevent : m.event = some (.left id loop)) (hrun : Run t m.after todo c')
    (ho : c'.outcome? = some o) :
    ∃ past rest out, todo = past ++ rest ∧ Leaves t root m id loop past out ∧
      GoesOn t root loop out rest := by
  rw [hevent] at hstep
  obtain ⟨ls, p₁, hat, hl, hp₁, hafter⟩ := hstep.of_left
  obtain ⟨hpath, -⟩ := hm.of_at hat
  rw [hl] at hpath
  obtain ⟨above, k, hk, habove, hloop, hunder⟩ := hpath.exists_loop
  rw [hafter] at hrun
  obtain ⟨past, rest, p, rfl, hclear, hsilent, hpast, hrest⟩ :=
    hrun.exists_out ho rfl hk habove hl
  refine ⟨past, rest, _, rfl, ?_, hrest.goesOn ho rfl rfl hloop⟩
  exact
    { executes := .inl hat.control
      stmt := hat.stmt
      nearest := ⟨ls, hpath.around ht, hl, rfl⟩
      run := by
        rw [hafter]
        exact hpast
      silent := hsilent
      control := rfl
      stack := ⟨above, hk⟩
      memory := rfl
      world := rfl
      idle := idle_of_cleared hclear
      outside := ((agreeOff_of_finish? t hp₁).of_under hunder).trans hclear.other }

end Machine

namespace Program

open Machine Progress

variable {W : Type} [World W]

/--
**Break ends exactly the nearest loop.**  In every tick of a program, whatever the budgets
and the worlds have been, the loops at work are the loops around the statement that is
executed.  A `leaveLoop` that is executed ends the innermost of them for the price of one
step: the loop is left as a statement that is done, it and all under it are at rest, and
all else is as it was; then the run goes on after the loop.
-/
theorem break_ends_nearest_loop {t : Tree} {subject : ActorId} {settings : Settings}
    {p q : Program} {es : List Event} {limit : Nat} {w : W} {budget : Number} {k : Tick W}
    (hstart : start t subject settings = .ok p) (h : Reached W p es q)
    (hk : q.advance? limit w budget = some k) :
    (∀ m ∈ q.moves limit w budget, ∀ id, m.before.Executes id →
      t.LoopsAround p.root id m.before.memory.loops) ∧
    (∀ done m todo id loop, q.moves limit w budget = done ++ m :: todo →
      m.event = some (.left id loop) →
      ∃ past rest out, todo = past ++ rest ∧ Leaves t p.root m id loop past out ∧
        GoesOn t p.root loop out rest) := by
  have hp := started_of_start hstart
  have hq := settled_of_ticks hp h
  rcases hq.run_of_tick hk with ⟨-, hmoves, -⟩ | ⟨-, hopening, outcome, c', hrun, ho, -⟩
  · rw [hmoves]
    refine ⟨by simp, ?_⟩
    rintro done m todo id loop hnil
    simp at hnil
  · constructor
    · intro m hm id hid
      exact (hopening.mem_run hp.proper hrun m hm).around hp.proper hid
    · intro done m todo id loop hmoves hevent
      rw [hmoves] at hrun
      obtain ⟨hdone, hstep, htodo⟩ := hrun.split
      exact htodo.exists_leaves hp.proper (hopening.run hp.proper hdone) hstep hevent ho

/--
```text
while true {
  while true { break }
  print 2
}
```
-/
def nested : Tree where
  exprs := #[.boolean true, .number (.ofInt 2)]
  stmts := #[.leaveLoop, .while 0 0, .print 1, .sequence ⟨0, 2⟩, .while 0 3]
  lists := #[1, 2]
  root := some 4

/-- With four units the inner loop is left, and the line after it is printed. -/
theorem break_ends_nearest_loop_nested :
    ∃ p k done m todo past rest out, start nested 1 = .ok p ∧
      p.advance? 100 (GridWorld.empty 1 1) (.ofInt 4) = some k ∧
      k.events = [.decided 4 true, .decided 1 true, .left 0 1,
        .printed 2 (.number (.ofInt 2))] ∧
      p.moves 100 (GridWorld.empty 1 1) (.ofInt 4) = done ++ m :: todo ∧
      m.event = some (.left 0 1) ∧ todo = past ++ rest ∧
      Leaves nested p.root m 0 1 past out ∧ GoesOn nested p.root 1 out rest := by
  have hrun : (start nested 1).toOption.map (fun p =>
      (p.advance? 100 (GridWorld.empty 1 1) (.ofInt 4)).map fun k => k.events) =
      some (some [.decided 4 true, .decided 1 true, .left 0 1,
        .printed 2 (.number (.ofInt 2))]) := by
    decide +kernel
  obtain ⟨p, hstart, htick⟩ := exists_of_start hrun
  obtain ⟨k, hk, hevents⟩ := Option.map_eq_some_iff.mp htick
  have hmem : .left 0 1 ∈ events (p.moves 100 (GridWorld.empty 1 1) (.ofInt 4)) := by
    rcases advance?_eq_some hk with ⟨-, -, rfl⟩ | ⟨-, outcome, c', -, -, rfl⟩
    · cases hevents
    · rw [show events (p.moves 100 (GridWorld.empty 1 1) (.ofInt 4)) = _ from hevents]
      decide
  obtain ⟨done, m, todo, hmoves, hm⟩ := exists_of_mem_events hmem
  obtain ⟨past, rest, out, htodo, hleaves, hnext⟩ :=
    (break_ends_nearest_loop hstart .start hk).2 done m todo 0 1 hmoves hm
  exact ⟨p, k, done, m, todo, past, rest, out, hstart, hk, hevents, hmoves, hm,
    htodo, hleaves, hnext⟩

end Program

end ActorScript
