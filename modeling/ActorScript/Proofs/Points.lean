import ActorScript.Proofs.Continuation
import ActorScript.Proofs.Whole

/-!
# Points of a run

A run that has come down to a statement carries a stack of tasks and the loops
at work.  `Point` says which of these go with which control and which table.

The table alone is well formed only while the run is on its way down.  When a
statement has been left, its parent has not taken note of it yet (`Behind`), and
a `leaveLoop` on its way out has left the table under its loop in disorder; the
loop will clear it.

The rest of the module reads off a point what it means for the statement at hand:
what an active statement of each kind looks like, and what a loop can be up to at
the head of a round.
-/

namespace ActorScript.Progress

open Machine (Task Control)

/-- What is left of a sequence that a run passes through: statements that are
done, at most one in progress, and fresh ones. -/
inductive Pending (t : Tree) (p : Progress) : List StmtId → Prop
  | fresh {cs : List StmtId} (h : ∀ d ∈ cs, p.Fresh t d) : Pending t p cs
  | idle {c : StmtId} {cs : List StmtId} (h : p.Idle t c) (hs : Pending t p cs) :
      Pending t p (c :: cs)
  | active {c : StmtId} {cs : List StmtId} (h : p.Active t c)
      (hs : ∀ d ∈ cs, p.Fresh t d) : Pending t p (c :: cs)

/-- A child of the statement has just been left, and the task has to go on. -/
inductive Behind (t : Tree) (p : Progress) (id : StmtId) : Task → Prop
  | sequence {body : Slice} {past rest : List StmtId}
      (hs : t.stmt? id = some (.sequence body))
      (hcs : t.slice? body = some (past ++ rest)) (hn : p.node id = { armed := true })
      (hpast : ∀ d ∈ past, p.Idle t d) (hrest : Pending t p rest) :
      Behind t p id (.sequence id rest)
  | branch {child : StmtId} (hl : Link t p id (.branch id) child)
      (hc : p.Idle t child) : Behind t p id (.branch id)
  | round {child : StmtId} (hl : Link t p id (.round id) child)
      (hc : p.Idle t child) : Behind t p id (.round id)

/-- A loop at the head of a round, or about to go on with one. -/
inductive Head (t : Tree) (p : Progress) (id : StmtId) : Prop
  | fresh {cond : ExprId} {body : StmtId} (hs : t.stmt? id = some (.while cond body))
      (h : p.Fresh t id)
  | while {cond : ExprId} {body : StmtId} (hs : t.stmt? id = some (.while cond body))
      (hn : p.node id = { armed := true, frame := .while .fresh }) (hb : p.Idle t body)
  | forEach {var : Name} {sel : Selector} {filter : Option ExprId} {sort : Option SortKey}
      {body : StmtId} {candidates : List Value} {index : Nat}
      (hs : t.stmt? id = some (.forEach var sel filter sort body))
      (hn : p.node id = { armed := true, frame := .forEach candidates index .fresh })
      (hb : p.Idle t body)
  | round {child : StmtId} (hl : Link t p id (.round id) child) (hc : p.Active t child)

/-- Where a run can be, given the table. -/
inductive Point (t : Tree) (p : Progress) (root : StmtId) :
    Control → List Task → List StmtId → Prop
  | enter {id : StmtId} {k : List Task} {ls : List StmtId} (h : Path t p root id k ls)
      (ha : p.Active t id) : Point t p root (.enter id) k ls
  /-- On the way to the child in progress a sequence passes the ones that are done. -/
  | passing {id c : StmtId} {rest cs : List StmtId} {k : List Task} {ls : List StmtId}
      (h : Path t p root id k ls) (hb : Behind t p id (.sequence id rest))
      (hc : p.Idle t c) (hcs : t.children? id = some cs) (hmem : c ∈ cs) :
      Point t p root (.enter c) (.sequence id rest :: k) ls
  | iterate {id : StmtId} {k : List Task} {ls : List StmtId} (h : Path t p root id k ls)
      (hh : Head t p id) : Point t p root (.iterate id) k ls
  | finished (h : p.Idle t root) : Point t p root (.leave .completed) [] []
  | completed {id : StmtId} {task : Task} {k : List Task} {ls : List StmtId}
      (h : Path t p root id k ls) (hb : Behind t p id task) :
      Point t p root (.leave .completed) (task :: k) (task.loop?.toList ++ ls)
  | suspended {k : List Task} (h : p.Active t root) :
      Point t p root (.leave .suspended) k (k.filterMap Task.loop?)
  | raised {f : Fault} {k : List Task} (h : p.Active t root) :
      Point t p root (.raise f) k (k.filterMap Task.loop?)
  | leaving {loop : StmtId} {above k : List Task} {ls : List StmtId}
      (h : Path t p root loop k ls) (habove : ∀ task ∈ above, task.loop? = none) :
      Point t p root (.leave (.leaving loop)) (above ++ .round loop :: k) (loop :: ls)

/-- A table between two ticks: the root is at rest, fresh or in progress, and
nothing stirs outside its tree. -/
structure WellFormed (t : Tree) (root : StmtId) (p : Progress) : Prop where
  main : p.Idle t root ∨ p.Active t root
  outside : ∀ j, ¬ t.Under root j → p.node j = idleNode

variable {t : Tree} {p q r : Progress} {root id c b : StmtId} {k : List Task}
  {ls : List StmtId}

/-! ## Changes under a statement -/

/-- The tables differ at most under a statement. -/
def AgreeOff (t : Tree) (id : StmtId) (p q : Progress) : Prop :=
  ∀ j, ¬ t.Under id j → q.node j = p.node j

theorem AgreeOff.trans (h : AgreeOff t id p q) (h' : AgreeOff t id q r) :
    AgreeOff t id p r :=
  fun j hj => (h' j hj).trans (h j hj)

theorem AgreeOff.of_under (h : AgreeOff t c p q) (hc : t.Under id c) :
    AgreeOff t id p q :=
  fun j hj => h j fun hcj => hj (hc.trans hcj)

theorem agreeOff_of_finish? (t : Tree) (h : p.finish? id = some q) :
    AgreeOff t id p q := by
  intro j hj
  rw [node_finish? h, if_neg]
  rintro rfl
  exact hj (.refl j)

theorem agreeOff_of_setFrame? (t : Tree) {f : Frame} (h : p.setFrame? id f = some q) :
    AgreeOff t id p q := by
  intro j hj
  rw [node_setFrame? h, if_neg]
  rintro rfl
  exact hj (.refl j)

/-- A statement whose children are at rest is at rest once it is marked as done. -/
theorem idle_of_finish? (h : p.finish? id = some q) {cs : List StmtId}
    (hcs : t.children? id = some cs) (hc : ∀ c ∈ cs, p.Idle t c) : q.Idle t id := by
  intro j hj
  rw [node_finish? h]
  split
  · rfl
  · rename_i hne
    rcases (Tree.under_iff hcs).mp hj with rfl | ⟨c, hmem, hj⟩
    · exact absurd rfl hne
    · exact hc c hmem j hj

/-- A write to an entry leaves the subtrees of its children as they are. -/
theorem Idle.of_setFrame? {f : Frame} (h : p.Idle t c) (hq : p.setFrame? id f = some q)
    (hid : ¬ t.Under c id) : q.Idle t c := by
  refine h.congr fun j hj => ?_
  rw [node_setFrame? hq, if_neg]
  rintro rfl
  exact hid hj

theorem Fresh.of_setFrame? {f : Frame} (h : p.Fresh t c) (hq : p.setFrame? id f = some q)
    (hid : ¬ t.Under c id) : q.Fresh t c := by
  refine h.congr fun j hj => ?_
  rw [node_setFrame? hq, if_neg]
  rintro rfl
  exact hid hj

/-! ## Coming to a statement, and leaving one -/

/-- Whatever leads to a statement at rest has just been left by it. -/
theorem Link.behind {task : Task} (h : Link t p id task c) (hc : p.Idle t c) :
    Behind t p id task := by
  cases h with
  | @sequence body past later _ hs hcs hn hpast hlater =>
      have hcs' : t.slice? body = some ((past ++ [c]) ++ later) := by simpa using hcs
      refine .sequence hs hcs' hn ?_ (.fresh hlater)
      intro d hd
      rcases List.mem_append.mp hd with hd | hd
      · exact hpast d hd
      · rw [List.mem_singleton.mp hd]
        exact hc
  | thenBranch hs hn hel => exact .branch (.thenBranch hs hn hel) hc
  | elseBranch hs hn hth => exact .branch (.elseBranch hs hn hth) hc
  | whileRound hs hn => exact .round (.whileRound hs hn) hc
  | forEachRound hs hn hi => exact .round (.forEachRound hs hn hi) hc

/-- A run leaves a statement that is done. -/
theorem Path.point_of_idle (h : Path t p root id k ls) (hid : p.Idle t id) :
    Point t p root (.leave .completed) k ls := by
  cases h with
  | root => exact .finished hid
  | link h hl => exact .completed h (hl.behind hid)

/-- A run leaves a statement that it has put to rest. -/
theorem Path.point_of_rest (h : Path t p root id k ls) (ht : t.Proper root)
    (hq : AgreeOff t id p q) (hidle : q.Idle t id) :
    Point t q root (.leave .completed) k ls :=
  (h.congr ht hq).point_of_idle hidle

/-- A run that stops for want of budget leaves the way to go on. -/
theorem Path.point_suspended (h : Path t p root id k ls) (ha : p.Active t id) :
    Point t p root (.leave .suspended) k ls := by
  rw [h.loops_eq]
  exact .suspended (h.active_root ha)

theorem Path.point_raised (h : Path t p root id k ls) (ha : p.Active t id) (f : Fault) :
    Point t p root (.raise f) k ls := by
  rw [h.loops_eq]
  exact .raised (h.active_root ha)

/-- A child of a sequence before which all is done. -/
theorem Pending.of_split {past later : List StmtId} (hpast : ∀ d ∈ past, p.Idle t d)
    (hc : p.Active t c) (hlater : ∀ d ∈ later, p.Fresh t d) :
    Pending t p (past ++ c :: later) := by
  induction past with
  | nil => exact .active hc hlater
  | cons d past ih =>
      refine .idle (hpast d (by simp)) (ih fun e he => hpast e (by simp [he]))

/-- A loop that a `leaveLoop` looks for is on the path to it. -/
theorem Path.exists_loop {loop : StmtId} (h : Path t p root id k (loop :: ls)) :
    ∃ above k', k = above ++ .round loop :: k' ∧ (∀ task ∈ above, task.loop? = none) ∧
      Path t p root loop k' ls ∧ t.Under loop id := by
  generalize hls : loop :: ls = ls' at h
  induction h with
  | root => cases hls
  | @link id child task k ls' h hl ih =>
      cases task with
      | sequence i rest =>
          obtain ⟨above, k', rfl, habove, hpath, hunder⟩ := ih hls
          exact ⟨_ :: above, k', rfl, by simpa [Task.loop?] using habove, hpath,
            hunder.trans hl.under⟩
      | branch i =>
          obtain ⟨above, k', rfl, habove, hpath, hunder⟩ := ih hls
          exact ⟨_ :: above, k', rfl, by simpa [Task.loop?] using habove, hpath,
            hunder.trans hl.under⟩
      | round i =>
          cases hls
          have hid : loop = id := by cases hl <;> rfl
          subst hid
          exact ⟨[], k, rfl, by simp, h, hl.under⟩

/-! ## What an active statement looks like, by its kind -/

theorem Active.pending (ha : p.Active t id) (ht : t.Proper root) (hid : t.Under root id)
    {body : Slice} {cs : List StmtId} (hs : t.stmt? id = some (.sequence body))
    (hcs : t.slice? body = some cs) : p.node id = { armed := true } ∧ Pending t p cs := by
  cases ha with
  | fresh h => exact ⟨h.node_eq, .fresh fun d hd => h.child_of_sequence ht hid hs hcs hd⟩
  | link hl hc =>
      cases hl with
      | sequence hs' hcs' hn hpast hlater =>
          rw [hs] at hs'
          cases hs'
          rw [hcs] at hcs'
          cases hcs'
          exact ⟨hn, .of_split hpast hc hlater⟩
      | thenBranch hs' | elseBranch hs' | whileRound hs' | forEachRound hs' =>
          rw [hs] at hs'
          cases hs'
  | whileHead hs' | forEachHead hs' | wait hs' =>
      rw [hs] at hs'
      cases hs'

/-- A conditional that has chosen is at work on its choice. -/
theorem Active.link_of_branch (ha : p.Active t id) {choice : Option StmtId}
    (hf : (p.node id).frame = .branch choice) :
    ∃ b, choice = some b ∧ Link t p id (.branch id) b ∧ p.Active t b := by
  cases ha with
  | fresh h =>
      rw [h.node_eq] at hf
      cases hf
  | link hl hc =>
      cases hl with
      | sequence _ _ hn | whileRound _ hn | forEachRound _ hn =>
          rw [hn] at hf
          cases hf
      | thenBranch hs hn hel =>
          rw [hn] at hf
          cases hf
          exact ⟨_, rfl, .thenBranch hs hn hel, hc⟩
      | elseBranch hs hn hth =>
          rw [hn] at hf
          cases hf
          exact ⟨_, rfl, .elseBranch hs hn hth, hc⟩
  | whileHead _ hn | forEachHead _ hn | wait _ hn =>
      rw [hn] at hf
      cases hf

theorem Active.fresh_of_conditional (ha : p.Active t id) {cond : ExprId} {th : StmtId}
    {el : Option StmtId} (hs : t.stmt? id = some (.conditional cond th el))
    (hf : ∀ choice, (p.node id).frame ≠ .branch choice) : p.Fresh t id := by
  cases ha with
  | fresh h => exact h
  | link hl _ =>
      cases hl with
      | sequence hs' | whileRound hs' | forEachRound hs' =>
          rw [hs] at hs'
          cases hs'
      | thenBranch _ hn | elseBranch _ hn =>
          rw [hn] at hf
          exact absurd rfl (hf _)
  | whileHead hs' | forEachHead hs' | wait hs' =>
      rw [hs] at hs'
      cases hs'

theorem Active.head_of_while (ha : p.Active t id) {cond : ExprId} {body : StmtId}
    (hs : t.stmt? id = some (.while cond body)) : Head t p id := by
  cases ha with
  | fresh h => exact .fresh hs h
  | link hl hc =>
      cases hl with
      | sequence hs' | thenBranch hs' | elseBranch hs' | forEachRound hs' =>
          rw [hs] at hs'
          cases hs'
      | whileRound hs' hn => exact .round (.whileRound hs' hn) hc
  | whileHead hs' hn hb => exact .while hs' hn hb
  | forEachHead hs' | wait hs' =>
      rw [hs] at hs'
      cases hs'

/-- A loop over the world that has its candidates, or else is fresh. -/
theorem Active.head_or_fresh (ha : p.Active t id) {var : Name} {sel : Selector}
    {filter : Option ExprId} {sort : Option SortKey} {body : StmtId}
    (hs : t.stmt? id = some (.forEach var sel filter sort body)) :
    Head t p id ∨ p.Fresh t id ∧
      ∀ candidates index phase, (p.node id).frame ≠ .forEach candidates index phase := by
  cases ha with
  | fresh h =>
      refine .inr ⟨h, ?_⟩
      rw [h.node_eq]
      intro _ _ _ hf
      cases hf
  | link hl hc =>
      cases hl with
      | sequence hs' | thenBranch hs' | elseBranch hs' | whileRound hs' =>
          rw [hs] at hs'
          cases hs'
      | forEachRound hs' hn hi => exact .inl (.round (.forEachRound hs' hn hi) hc)
  | forEachHead hs' hn _ hb => exact .inl (.forEach hs' hn hb)
  | whileHead hs' | wait hs' =>
      rw [hs] at hs'
      cases hs'

/-- The time that a `wait` in progress still owes. -/
theorem Active.owed (ha : p.Active t id) {owed : Number}
    (hf : (p.node id).frame = .wait owed) : owed.IsAmount := by
  cases ha with
  | fresh h =>
      rw [h.node_eq] at hf
      cases hf
  | link hl _ =>
      cases hl with
      | sequence _ _ hn | thenBranch _ hn | elseBranch _ hn | whileRound _ hn
      | forEachRound _ hn =>
          rw [hn] at hf
          cases hf
  | whileHead _ hn | forEachHead _ hn =>
      rw [hn] at hf
      cases hf
  | wait _ hn hfin hpos =>
      rw [hn] at hf
      cases hf
      exact Number.amount_of_pos_of_finite hpos hfin

/-- A loop in the middle of a round. -/
theorem Head.link_of_continuing (hh : Head t p id) {body : StmtId} {s : Stmt}
    (hs : t.stmt? id = some s) (hcs : t.childrenOf? s = some [body])
    (hf : (p.node id).frame = .while .continuing ∨ ∃ candidates index,
      (p.node id).frame = .forEach candidates index .continuing) :
    Link t p id (.round id) body ∧ p.Active t body := by
  cases hh with
  | fresh _ h =>
      rw [h.node_eq] at hf
      rcases hf with hf | ⟨_, _, hf⟩ <;> cases hf
  | «while» _ hn _ | forEach _ hn _ =>
      rw [hn] at hf
      rcases hf with hf | ⟨_, _, hf⟩ <;> cases hf
  | @round child hl hc =>
      have hbody : child = body := by
        obtain ⟨s', cs', hs', hcs', hmem⟩ := hl.mem
        rw [hs] at hs'
        cases hs'
        rw [hcs] at hcs'
        cases hcs'
        exact List.mem_singleton.mp hmem
      subst hbody
      exact ⟨hl, hc⟩

/-- A `while` that has to check its condition. -/
theorem Head.while_check (hh : Head t p id) (ht : t.Proper root) (hid : t.Under root id)
    {cond : ExprId} {body : StmtId} (hs : t.stmt? id = some (.while cond body))
    (hf : (p.node id).frame ≠ .while .continuing) :
    (p.node id).armed = true ∧ p.Idle t body ∧ p.Active t id := by
  cases hh with
  | fresh _ h =>
      refine ⟨by rw [h.node_eq], ?_, .fresh h⟩
      exact h.child_of_not_sequence ht hid hs rfl (by simp) (by simp)
  | «while» hs' hn hb =>
      rw [hs] at hs'
      cases hs'
      exact ⟨by rw [hn], hb, .whileHead hs hn hb⟩
  | forEach hs' =>
      rw [hs] at hs'
      cases hs'
  | round hl _ =>
      cases hl with
      | whileRound _ hn =>
          rw [hn] at hf
          exact absurd rfl hf
      | forEachRound hs' =>
          rw [hs] at hs'
          cases hs'

/-- A loop over the world that has to go to its next candidate. -/
theorem Head.forEach_next (hh : Head t p id) {var : Name} {sel : Selector}
    {filter : Option ExprId} {sort : Option SortKey} {body : StmtId}
    {candidates : List Value} {index : Nat}
    (hs : t.stmt? id = some (.forEach var sel filter sort body))
    (hf : (p.node id).frame = .forEach candidates index .fresh) :
    p.node id = { armed := true, frame := .forEach candidates index .fresh } ∧
      p.Idle t body := by
  cases hh with
  | fresh hs' | «while» hs' =>
      rw [hs] at hs'
      cases hs'
  | forEach hs' hn hb =>
      rw [hs] at hs'
      cases hs'
      rw [hn] at hf
      cases hf
      exact ⟨hn, hb⟩
  | round hl _ =>
      cases hl with
      | whileRound hs' =>
          rw [hs] at hs'
          cases hs'
      | forEachRound _ hn =>
          rw [hn] at hf
          cases hf

/-- A loop over the world that goes on has its candidates. -/
theorem Head.forEach_listed (hh : Head t p id) {var : Name} {sel : Selector}
    {filter : Option ExprId} {sort : Option SortKey} {body : StmtId}
    (hs : t.stmt? id = some (.forEach var sel filter sort body)) :
    ∃ candidates index phase, (p.node id).frame = .forEach candidates index phase ∧
      (phase = .continuing → index < candidates.length) := by
  cases hh with
  | fresh hs' | «while» hs' =>
      rw [hs] at hs'
      cases hs'
  | forEach _ hn _ => exact ⟨_, _, _, by rw [hn], by simp⟩
  | round hl _ =>
      cases hl with
      | whileRound hs' =>
          rw [hs] at hs'
          cases hs'
      | forEachRound _ hn hi => exact ⟨_, _, _, by rw [hn], fun _ => hi⟩

/-! ## Points by their control -/

theorem Point.of_enter (h : Point t p root (.enter id) k ls)
    (ha : (p.node id).armed = true) : Path t p root id k ls ∧ p.Active t id := by
  cases h with
  | enter h hact => exact ⟨h, hact⟩
  | passing _ _ hc =>
      rw [hc.node_eq] at ha
      cases ha

theorem Point.of_passing (h : Point t p root (.enter id) k ls)
    (ha : (p.node id).armed = false) : Point t p root (.leave .completed) k ls := by
  cases h with
  | enter _ hact =>
      rw [hact.armed] at ha
      cases ha
  | passing h hb _ => exact .completed h hb

theorem Point.of_iterate (h : Point t p root (.iterate id) k ls) :
    Path t p root id k ls ∧ Head t p id := by
  cases h with
  | iterate h hh => exact ⟨h, hh⟩

theorem Point.of_completed {task : Task}
    (h : Point t p root (.leave .completed) (task :: k) ls) :
    ∃ id ls', ls = task.loop?.toList ++ ls' ∧ Path t p root id k ls' ∧
      Behind t p id task := by
  cases h with
  | completed h hb => exact ⟨_, _, rfl, h, hb⟩

/-- The loops at work after a task has been left. -/
theorem filterMap_loop?_tail (task : Task) (k : List Task) :
    k.filterMap Task.loop? =
      if task.loop?.isSome then ((task :: k).filterMap Task.loop?).tail
      else (task :: k).filterMap Task.loop? := by
  cases task <;> rfl

theorem Point.unwound_suspended {task : Task}
    (h : Point t p root (.leave .suspended) (task :: k) ls) :
    Point t p root (.leave .suspended) k (if task.loop?.isSome then ls.tail else ls) := by
  cases h with
  | suspended h =>
      rw [← filterMap_loop?_tail]
      exact .suspended h

theorem Point.unwound_raise {f : Fault} {task : Task}
    (h : Point t p root (.raise f) (task :: k) ls) :
    Point t p root (.raise f) k (if task.loop?.isSome then ls.tail else ls) := by
  cases h with
  | raised h =>
      rw [← filterMap_loop?_tail]
      exact .raised h

/-- A `leaveLoop` on its way out has come to its loop, or passes a task that is no
round. -/
theorem Point.of_leaving {loop : StmtId} {task : Task}
    (h : Point t p root (.leave (.leaving loop)) (task :: k) ls) :
    (∃ ls', task = .round loop ∧ ls = loop :: ls' ∧ Path t p root loop k ls') ∨
    (task.loop? = none ∧ Point t p root (.leave (.leaving loop)) k ls) := by
  generalize hk : task :: k = k' at h
  cases h with
  | @leaving _ above k' ls' h habove =>
      cases above with
      | nil =>
          cases hk
          exact .inl ⟨ls', rfl, rfl, h⟩
      | cons task' above =>
          cases hk
          exact .inr ⟨habove _ (by simp), .leaving h fun task' h' =>
            habove task' (by simp [h'])⟩

/-! ## What the table remembers -/

/-- A subtree at rest or fresh remembers nothing. -/
private theorem frame_of_fresh (h : p.Idle t id ∨ p.Fresh t id) {j : StmtId}
    (hj : t.Under id j) : (p.node j).frame = .fresh := by
  rcases h with h | h
  · rw [h j hj]
    rfl
  · by_cases hs : t.Spine id j
    · rw [h.spine j hs]
    · rw [h.rest j hj hs]
      rfl

/-- A choice that is remembered is one of a branch. -/
theorem Active.frame_ne_branch_none (h : p.Active t id) :
    ∀ j, t.Under id j → (p.node j).frame ≠ .branch none := by
  -- where a statement is in progress, all children but one are at rest or fresh
  have hrest : ∀ {c j}, p.Idle t c ∨ p.Fresh t c → t.Under c j →
      (p.node j).frame ≠ .branch none := by
    intro c j hc hj
    rw [frame_of_fresh hc hj]
    exact Frame.noConfusion
  induction h with
  | fresh h => exact fun j hj => hrest (.inr h) hj
  | @link id child task hl _ ih =>
      intro j hj
      obtain ⟨s, cs, hs, hcs, -⟩ := hl.mem
      rcases (Tree.under_iff ((Tree.children?_eq hs).trans hcs)).mp hj with
        rfl | ⟨d, hd, hj⟩
      · cases hl with
        | sequence _ _ hn | thenBranch _ hn | elseBranch _ hn | whileRound _ hn
        | forEachRound _ hn =>
            rw [hn]
            simp
      · by_cases hdc : d = child
        · subst hdc
          exact ih j hj
        · exact hrest (hl.beside hs hcs hd hdc) hj
  | whileHead hs hn hb | forEachHead hs hn _ hb =>
      intro j hj
      rcases (Tree.under_iff (Tree.children?_eq hs)).mp hj with rfl | ⟨d, hd, hj⟩
      · rw [hn]
        simp
      · rw [List.mem_singleton.mp hd] at hj
        exact hrest (.inl hb) hj
  | wait hs hn =>
      intro j hj
      rcases (Tree.under_iff (Tree.children?_eq hs)).mp hj with rfl | ⟨d, hd, -⟩
      · rw [hn]
        simp
      · cases hd

end ActorScript.Progress
