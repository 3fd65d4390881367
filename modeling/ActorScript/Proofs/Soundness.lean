import ActorScript.Proofs.Points
import ActorScript.Proofs.Run

/-!
# Every step keeps a run sound

`Sound` ties the four parts of a configuration that say where a run is (the
control, the stack, the loops at work and the table) to one point of the script.
The proof that steps keep it goes by the rules of the machine.  Each rule changes
the table under one statement only, so that the path to that statement stands
(`Path.congr`); what is left to show is what the statement looks like now.

## Main results

* `Sound.step`, `Sound.run` — steps and runs keep a configuration sound.
* `Sound.keeps` — what the steps of sound configurations keep, a run keeps.
-/

namespace ActorScript

/-- The time of a `wait` is finite. -/
theorem Scope.isFinite_of_duration {W : Type} [World W] {s : Scope W} {e : ExprId}
    {g g' : Generator} {time : Number} (h : (s.duration e).Yields g time g') :
    time.isFinite = true := by
  unfold Evaluation.Yields Scope.duration at h
  simp only [StateT.run_bind, ExceptT.run_bind, Option.bind_eq_bind,
    Option.bind_eq_some_iff] at h
  obtain ⟨value, -, h⟩ := h
  cases value with
  | error f => cases h
  | ok value =>
      simp only [Option.bind_eq_some_iff] at h
      obtain ⟨number, -, h⟩ := h
      cases number with
      | error f => cases h
      | ok number =>
          by_cases hf : number.1.isFinite = true
          · simp only [if_pos hf] at h
            cases h
            exact hf
          · simp only [if_neg hf] at h
            cases h

/-! ## The ways out of a statement -/

namespace Progress

open Machine (Task)
open Machine.Config (nextRound Passes)

variable {t : Tree} {p q : Progress} {root id child : StmtId} {rest : List StmtId}
  {k : List Task} {ls : List StmtId}

/-- Every child of a conditional that is left is at rest. -/
private theorem idle_of_branch (hl : Link t p id (.branch id) child)
    (hc : p.Idle t child) {cs : List StmtId} (hcs : t.children? id = some cs) :
    ∀ d ∈ cs, p.Idle t d := by
  intro d hd
  cases hl with
  | thenBranch hs _ hel =>
      rw [Tree.children?_eq hs] at hcs
      cases hcs
      rcases List.mem_cons.mp hd with rfl | hd
      · exact hc
      · exact hel d (Option.mem_toList.mp hd)
  | elseBranch hs _ hth =>
      rw [Tree.children?_eq hs] at hcs
      cases hcs
      rcases List.mem_cons.mp hd with rfl | hd
      · exact hth
      · rw [List.mem_singleton.mp hd]
        exact hc

/-- The next round of a loop starts at its head. -/
private theorem head_of_nextRound {s : Stmt} (ht : t.Proper root) (hid : t.Under root id)
    (hl : Link t p id (.round id) child) (hc : p.Idle t child) (hs : t.stmt? id = some s)
    (hq : p.setFrame? id (nextRound s (p.frame id)) = some q) : Head t q id := by
  have hbody : q.Idle t child := by
    obtain ⟨s', cs, hs', hcs, hmem⟩ := hl.mem
    exact hc.of_setFrame? hq (ht.not_under_child hid (ht.fork_eq hid hs' hcs) hmem)
  have hn : q.node id = { p.node id with frame := nextRound s (p.node id).frame } := by
    rw [node_setFrame? hq, if_pos rfl, frame_eq]
  cases hl with
  | whileRound hs' hn' =>
      rw [hs] at hs'
      cases hs'
      rw [hn'] at hn
      exact .while hs hn hbody
  | forEachRound hs' hn' =>
      rw [hs] at hs'
      cases hs'
      rw [hn'] at hn
      exact .forEach hs hn hbody

/-- A sequence goes on to its next child, whatever has become of that. -/
private theorem Point.next
    (h : Point t p root (.leave .completed) (.sequence id (child :: rest) :: k) ls) :
    Point t p root (.enter child) (.sequence id rest :: k) ls := by
  obtain ⟨_, _, rfl, hpath, hb⟩ := h.of_completed
  cases hb with
  | @sequence body past _ hs hcs hn hpast hrest =>
      cases hrest with
      | fresh h =>
          refine .enter (hpath.link (.sequence hs hcs hn hpast ?_))
            (.fresh (h _ (by simp)))
          exact fun d hd => h d (by simp [hd])
      | idle h hrest =>
          have hcs' : t.slice? body = some ((past ++ [child]) ++ rest) := by
            simpa using hcs
          have hchildren := (Tree.children?_eq hs).trans hcs
          refine .passing hpath (.sequence hs hcs' hn ?_ hrest) h hchildren (by simp)
          intro d hd
          rcases List.mem_append.mp hd with hd | hd
          · exact hpast d hd
          · rw [List.mem_singleton.mp hd]
            exact h
      | active h hrest => exact .enter (hpath.link (.sequence hs hcs hn hpast hrest)) h

/-- A sequence is done after its last child. -/
private theorem Point.sequenceEnd (ht : t.Proper root)
    (h : Point t p root (.leave .completed) (.sequence id [] :: k) ls)
    (hq : p.finish? id = some q) :
    t.Under root id ∧ Point t q root (.leave .completed) k ls := by
  obtain ⟨_, _, rfl, hpath, hb⟩ := h.of_completed
  cases hb with
  | sequence hs hcs hn hpast _ =>
      rw [List.append_nil] at hcs
      have hidle := idle_of_finish? hq ((Tree.children?_eq hs).trans hcs) hpast
      exact ⟨hpath.under, hpath.point_of_rest ht (agreeOff_of_finish? t hq) hidle⟩

/-- A conditional is done after its branch. -/
private theorem Point.branchEnd (ht : t.Proper root)
    (h : Point t p root (.leave .completed) (.branch id :: k) ls)
    (hq : p.finish? id = some q) :
    t.Under root id ∧ Point t q root (.leave .completed) k ls := by
  obtain ⟨_, _, rfl, hpath, hb⟩ := h.of_completed
  cases hb with
  | branch hl hidle =>
      obtain ⟨s, cs, hs, hcs, -⟩ := hl.mem
      have hchildren := (Tree.children?_eq hs).trans hcs
      have hidle := idle_of_finish? hq hchildren (idle_of_branch hl hidle hchildren)
      exact ⟨hpath.under, hpath.point_of_rest ht (agreeOff_of_finish? t hq) hidle⟩

/-- A loop goes on at its head after a round. -/
private theorem Point.roundEnd {s : Stmt} (ht : t.Proper root)
    (h : Point t p root (.leave .completed) (.round id :: k) ls)
    (hs : t.stmt? id = some s) (hq : p.setFrame? id (nextRound s (p.frame id)) = some q) :
    t.Under root id ∧ Point t q root (.iterate id) k ls.tail := by
  obtain ⟨_, _, rfl, hpath, hb⟩ := h.of_completed
  cases hb with
  | round hl hidle =>
      have hh := head_of_nextRound ht hpath.under hl hidle hs hq
      exact ⟨hpath.under, .iterate (hpath.congr ht (agreeOff_of_setFrame? t hq)) hh⟩

/-- A loop is done once a `leaveLoop` has come to it. -/
private theorem Point.broken (ht : t.Proper root)
    (h : Point t p root (.leave (.leaving id)) (.round id :: k) ls)
    (hq : p.disarm? t id = some q) :
    t.Under root id ∧ Point t q root (.leave .completed) k ls.tail := by
  have hclear := cleared_of_disarm? hq
  rcases h.of_leaving with ⟨_, -, rfl, hpath⟩ | ⟨hne, -⟩
  · exact ⟨hpath.under, hpath.point_of_rest ht hclear.other (idle_of_cleared hclear)⟩
  · cases hne

/-- What is on its way out passes a task that does not concern it. -/
private theorem Point.unwound {task : Task} {flow : Flow} (hpass : Passes task flow)
    (h : Point t p root (.leave flow) (task :: k) ls) :
    Point t p root (.leave flow) k (if task.loop?.isSome then ls.tail else ls) := by
  cases hpass with
  | suspended => exact h.unwound_suspended
  | sequence | branch =>
      rcases h.of_leaving with ⟨_, hround, -⟩ | ⟨-, h⟩
      · cases hround
      · exact h
  | round hne =>
      rcases h.of_leaving with ⟨_, hround, -⟩ | ⟨hloop, -⟩
      · cases hround
        exact absurd rfl hne
      · cases hloop

end Progress

/-! ## Sound configurations -/

namespace Machine.Config

open Progress

variable {W : Type} {t : Tree} {root : StmtId} {c c' : Config W}

/-- The parts of a configuration that say where the run is agree. -/
structure Sound (t : Tree) (root : StmtId) (c : Config W) : Prop where
  point : Point t c.memory.progress root c.control c.stack c.memory.loops
  outside : ∀ j, ¬ t.Under root j → c.memory.progress.node j = idleNode

/-- How a run that is over has left the table. -/
inductive Over (t : Tree) (root : StmtId) (c : Config W) : Except Fault Flow → Prop
  | completed (hc : c.control = .leave .completed) (h : c.memory.progress.Idle t root) :
      Over t root c (.ok .completed)
  | suspended (hc : c.control = .leave .suspended) (h : c.memory.progress.Active t root) :
      Over t root c (.ok .suspended)
  | raised {f : Fault} (hc : c.control = .raise f) (h : c.memory.progress.Active t root) :
      Over t root c (.error f)

/-- A run that is over has come to the end of the script, has to wait for another tick, or
has a fault; no `leaveLoop` is on its way out. -/
theorem Sound.over_of_outcome {outcome : Except Fault Flow} (hc : Sound t root c)
    (ho : c.outcome? = some outcome) :
    Over t root c outcome ∧ c.stack = [] ∧ c.memory.loops = [] := by
  have hp := hc.point
  unfold outcome? at ho
  split at ho
  · rename_i flow hk hcontrol
    rw [hk, hcontrol] at hp
    cases ho
    generalize hls : c.memory.loops = ls at hp
    generalize hstack : ([] : List Task) = k at hp
    cases hp with
    | finished h => exact ⟨.completed hcontrol h, hk, rfl⟩
    | completed => cases hstack
    | suspended h =>
        cases hstack
        exact ⟨.suspended hcontrol h, hk, rfl⟩
    | @leaving _ above => cases above <;> cases hstack
  · rename_i fault hk hcontrol
    rw [hk, hcontrol] at hp
    cases ho
    generalize hls : c.memory.loops = ls at hp
    cases hp with
    | raised h => exact ⟨.raised hcontrol h, hk, rfl⟩
  · cases ho

/-- A run has come to an armed statement by the path that its stack tells of. -/
theorem Sound.of_at {id : StmtId} {s : Stmt} (hc : Sound t root c) (h : c.At t id s) :
    Path t c.memory.progress root id c.stack c.memory.loops ∧
      c.memory.progress.Active t id := by
  have hp := hc.point
  rw [h.control] at hp
  exact hp.of_enter (by rw [← isArmed_eq, h.armed])

theorem Sound.of_atHead {id : StmtId} {s : Stmt} (hc : Sound t root c)
    (h : c.AtHead t id s) :
    Path t c.memory.progress root id c.stack c.memory.loops ∧
      Head t c.memory.progress id := by
  have hp := hc.point
  rw [h.control] at hp
  exact hp.of_iterate

/-- A conditional that remembers its choice is in the middle of a branch. -/
theorem Sound.of_branch {id : StmtId} {cond : ExprId} {th : StmtId}
    {el choice : Option StmtId} (hc : Sound t root c)
    (h : c.At t id (.conditional cond th el))
    (hf : c.memory.progress.frame id = .branch choice) :
    ∃ b, choice = some b ∧ Path t c.memory.progress root id c.stack c.memory.loops ∧
      Link t c.memory.progress id (.branch id) b ∧ c.memory.progress.Active t b := by
  obtain ⟨hpath, hact⟩ := hc.of_at h
  rw [frame_eq] at hf
  obtain ⟨b, hb, hl, hact'⟩ := hact.link_of_branch hf
  exact ⟨b, hb, hpath, hl, hact'⟩

/-- A loop over the world that remembers its list goes on at its head. -/
theorem Sound.of_listed {id : StmtId} {var : Name} {sel : Selector}
    {filter : Option ExprId} {sort : Option SortKey} {body : StmtId}
    {candidates : List Value} {index : Nat} {phase : Phase} (hc : Sound t root c)
    (h : c.At t id (.forEach var sel filter sort body))
    (hf : c.memory.progress.frame id = .forEach candidates index phase) :
    Path t c.memory.progress root id c.stack c.memory.loops ∧
      Head t c.memory.progress id := by
  obtain ⟨hpath, hact⟩ := hc.of_at h
  rw [frame_eq] at hf
  rcases hact.head_or_fresh h.stmt with hh | ⟨-, hne⟩
  · exact ⟨hpath, hh⟩
  · exact absurd hf (hne _ _ _)

/-- A loop over the world that remembers no list has not been entered yet. -/
theorem Sound.of_unlisted {id : StmtId} {var : Name} {sel : Selector}
    {filter : Option ExprId} {sort : Option SortKey} {body : StmtId} (hc : Sound t root c)
    (h : c.At t id (.forEach var sel filter sort body))
    (hf : ∀ candidates index phase,
      c.memory.progress.frame id ≠ .forEach candidates index phase) :
    Path t c.memory.progress root id c.stack c.memory.loops ∧
      c.memory.progress.Fresh t id := by
  obtain ⟨hpath, hact⟩ := hc.of_at h
  rcases hact.head_or_fresh h.stmt with hh | ⟨hfresh, -⟩
  · obtain ⟨_, _, _, hframe, -⟩ := hh.forEach_listed h.stmt
    exact absurd ((frame_eq _ _).trans hframe) (hf _ _ _)
  · exact ⟨hpath, hfresh⟩

/-- A conditional that remembers no choice has not been entered yet. -/
theorem Sound.of_unchosen {id : StmtId} {cond : ExprId} {th : StmtId} {el : Option StmtId}
    (hc : Sound t root c) (h : c.At t id (.conditional cond th el))
    (hf : ∀ choice, c.memory.progress.frame id ≠ .branch choice) :
    Path t c.memory.progress root id c.stack c.memory.loops ∧
      c.memory.progress.Fresh t id := by
  obtain ⟨hpath, hact⟩ := hc.of_at h
  exact ⟨hpath, hact.fresh_of_conditional h.stmt
    fun choice hframe => hf choice ((frame_eq _ _).trans hframe)⟩

/-- A loop that goes on with a round is in the middle of its body. -/
theorem Sound.of_round {id body : StmtId} {s : Stmt} (hc : Sound t root c)
    (h : c.AtHead t id s) (hcs : t.childrenOf? s = some [body])
    (hf : c.memory.progress.frame id = .while .continuing ∨ ∃ candidates index,
      c.memory.progress.frame id = .forEach candidates index .continuing) :
    Path t c.memory.progress root id c.stack c.memory.loops ∧
      Link t c.memory.progress id (.round id) body ∧ c.memory.progress.Active t body := by
  obtain ⟨hpath, hh⟩ := hc.of_atHead h
  rw [frame_eq] at hf
  exact ⟨hpath, hh.link_of_continuing h.stmt hcs hf⟩

/-- At its head a loop over the world always has a list. -/
theorem Sound.not_unlisted {id : StmtId} {var : Name} {sel : Selector}
    {filter : Option ExprId} {sort : Option SortKey} {body : StmtId} (hc : Sound t root c)
    (h : c.AtHead t id (.forEach var sel filter sort body)) :
    ¬ ∀ candidates index phase,
      c.memory.progress.frame id ≠ .forEach candidates index phase := by
  intro hf
  obtain ⟨-, hh⟩ := hc.of_atHead h
  obtain ⟨_, _, _, hframe, -⟩ := hh.forEach_listed h.stmt
  exact hf _ _ _ ((frame_eq _ _).trans hframe)

/-- What happens under a statement of the tree stays in the tree. -/
theorem Sound.outside_of_agreeOff {id : StmtId} {q : Progress} (hc : Sound t root c)
    (hid : t.Under root id) (hq : AgreeOff t id c.memory.progress q) :
    ∀ j, ¬ t.Under root j → q.node j = idleNode := by
  intro j hj
  rw [hq j fun h => hj (hid.trans h)]
  exact hc.outside j hj

/-- A statement without children is at rest once it is marked as done. -/
private theorem Sound.leaf {id : StmtId} {s : Stmt} {q : Progress} (ht : t.Proper root)
    (hc : Sound t root c) (hat : c.At t id s) (hleaf : t.childrenOf? s = some [])
    (hq : c.memory.progress.finish? id = some q) :
    Point t q root (.leave .completed) c.stack c.memory.loops ∧
      ∀ j, ¬ t.Under root j → q.node j = idleNode := by
  obtain ⟨hpath, -⟩ := hc.of_at hat
  have hoff := agreeOff_of_finish? t hq
  have hidle : q.Idle t id :=
    idle_of_finish? hq ((Tree.children?_eq hat.stmt).trans hleaf) (by simp)
  exact ⟨hpath.point_of_rest ht hoff hidle, hc.outside_of_agreeOff hpath.under hoff⟩

/-- A loop that has been cleared is at rest. -/
private theorem Sound.cleared {id : StmtId} {s : Stmt} {q : Progress} (ht : t.Proper root)
    (hc : Sound t root c) (hat : c.AtHead t id s)
    (hq : c.memory.progress.disarm? t id = some q) :
    Point t q root (.leave .completed) c.stack c.memory.loops ∧
      ∀ j, ¬ t.Under root j → q.node j = idleNode := by
  obtain ⟨hpath, -⟩ := hc.of_atHead hat
  have hclear := cleared_of_disarm? hq
  exact ⟨hpath.point_of_rest ht hclear.other (idle_of_cleared hclear),
    hc.outside_of_agreeOff hpath.under hclear.other⟩

private theorem Sound.of_quiet (ht : t.Proper root) (hc : Sound t root c)
    (h : Quiet t c c') : Sound t root c' := by
  have hp := hc.point
  cases h with
  | pass hcontrol ha =>
      rw [hcontrol] at hp
      rw [isArmed_eq] at ha
      exact ⟨hp.of_passing ha, hc.outside⟩
  | @sequence id body cs hat hcs =>
      obtain ⟨hpath, hact⟩ := hc.of_at hat
      obtain ⟨hn, hpending⟩ := hact.pending ht hpath.under hat.stmt hcs
      have hcs' : t.slice? body = some ([] ++ cs) := hcs
      exact ⟨.completed hpath (.sequence hat.stmt hcs' hn (by simp) hpending), hc.outside⟩
  | branch hat hf =>
      obtain ⟨b, ⟨⟩, hpath, hl, hact⟩ := hc.of_branch hat hf
      exact ⟨.enter (hpath.link hl) hact, hc.outside⟩
  | noBranch hat hf =>
      obtain ⟨b, hb, -⟩ := hc.of_branch hat hf
      cases hb
  | «while» hat =>
      obtain ⟨hpath, hact⟩ := hc.of_at hat
      exact ⟨.iterate hpath (hact.head_of_while hat.stmt), hc.outside⟩
  | forEach hat hf =>
      obtain ⟨hpath, hh⟩ := hc.of_listed hat hf
      exact ⟨.iterate hpath hh, hc.outside⟩
  | skip hat hq =>
      obtain ⟨hpoint, hout⟩ := hc.leaf ht hat rfl hq
      exact ⟨hpoint, hout⟩
  | whileRound hat hf =>
      obtain ⟨hpath, hl, hact⟩ := hc.of_round hat rfl (.inl hf)
      exact ⟨.enter (hpath.link hl) hact, hc.outside⟩
  | forEachRound hat hf _ =>
      obtain ⟨hpath, hl, hact⟩ := hc.of_round hat rfl (.inr ⟨_, _, hf⟩)
      exact ⟨.enter (hpath.link hl) hact, hc.outside⟩
  | exhausted hat _ _ hq =>
      obtain ⟨hpoint, hout⟩ := hc.cleared ht hat hq
      exact ⟨hpoint, hout⟩
  | unlisted hat hf => exact absurd hf (hc.not_unlisted hat)
  | next hcontrol hk =>
      rw [hcontrol, hk] at hp
      exact ⟨hp.next, hc.outside⟩
  | sequenceEnd hcontrol hk hq =>
      rw [hcontrol, hk] at hp
      obtain ⟨hid, hpoint⟩ := hp.sequenceEnd ht hq
      exact ⟨hpoint, hc.outside_of_agreeOff hid (agreeOff_of_finish? t hq)⟩
  | branchEnd hcontrol hk hq =>
      rw [hcontrol, hk] at hp
      obtain ⟨hid, hpoint⟩ := hp.branchEnd ht hq
      exact ⟨hpoint, hc.outside_of_agreeOff hid (agreeOff_of_finish? t hq)⟩
  | roundEnd hcontrol hk hs hq =>
      rw [hcontrol, hk] at hp
      obtain ⟨hid, hpoint⟩ := hp.roundEnd ht hs hq
      exact ⟨hpoint, hc.outside_of_agreeOff hid (agreeOff_of_setFrame? t hq)⟩
  | broken hcontrol hk hq =>
      rw [hcontrol, hk] at hp
      obtain ⟨hid, hpoint⟩ := hp.broken ht hq
      exact ⟨hpoint, hc.outside_of_agreeOff hid (cleared_of_disarm? hq).other⟩
  | unwind hcontrol hk hpass =>
      refine ⟨?_, hc.outside⟩
      show Point t c.memory.progress root c.control _ _
      rw [hcontrol, hk] at hp
      rw [hcontrol]
      exact hp.unwound hpass
  | passFault hcontrol hk =>
      refine ⟨?_, hc.outside⟩
      show Point t c.memory.progress root c.control _ _
      rw [hcontrol, hk] at hp
      rw [hcontrol]
      exact hp.unwound_raise
  | ended => exact hc

/-- A child that has been armed, and then noted in the frame of its parent. -/
theorem armed_child {p p₁ q : Progress} {id b : StmtId} {s : Stmt} {cs : List StmtId}
    {f : Frame} (ht : t.Proper root) (hid : t.Under root id) (hfork : t.Fork id s cs)
    (hb : b ∈ cs) (hp₁ : p.arm? t b = some p₁) (hq : p₁.setFrame? id f = some q) :
    q.Fresh t b ∧ q.node id = { armed := (p.node id).armed, frame := f } ∧
      AgreeOff t id p q ∧
      ∀ d ∈ cs, d ≠ b → p.Idle t d → q.Idle t d := by
  have hready := readied_of_arm? hp₁
  have hnot := ht.not_under_child hid hfork hb
  refine ⟨(fresh_of_readied hready).of_setFrame? hq hnot, ?_, ?_, ?_⟩
  · rw [node_setFrame? hq, if_pos rfl, hready.other id hnot]
  · have hoff : AgreeOff t b p p₁ := hready.other
    exact (hoff.of_under (.of_child hfork.children? hb)).trans
      (agreeOff_of_setFrame? t hq)
  · intro d hd hne hidle
    have hidle₁ : p₁.Idle t d :=
      hidle.congr fun j hj => hready.other j fun hbj =>
        hfork.apart_of_ne hb hd hne j hbj hj
    exact hidle₁.of_setFrame? hq (ht.not_under_child hid hfork hd)

/-- A condition chooses one of the branches. -/
theorem mem_of_choice {holds : Bool} {th b : StmtId} {el : Option StmtId}
    (h : (if holds then some th else el) = some b) : b ∈ th :: el.toList := by
  cases holds with
  | true =>
      cases h
      simp
  | false =>
      have hel : el = some b := h
      simp [hel]

/-- The branch that a condition has chosen. -/
theorem link_of_choice {p p₁ q : Progress} {id b th : StmtId} {el : Option StmtId}
    {cond : ExprId} {holds : Bool} (ht : t.Proper root) (hid : t.Under root id)
    (hs : t.stmt? id = some (.conditional cond th el)) (hfresh : p.Fresh t id)
    (hb : (if holds then some th else el) = some b) (hp₁ : p.arm? t b = some p₁)
    (hq : p₁.setFrame? id (.branch (some b)) = some q) :
    Link t q id (.branch id) b ∧ q.Fresh t b ∧ AgreeOff t id p q := by
  have hfork : t.Fork id (.conditional cond th el) (th :: el.toList) :=
    ht.fork_eq hid hs rfl
  have hidle : ∀ d ∈ th :: el.toList, p.Idle t d :=
    fun d hd => hfresh.child_of_not_sequence ht hid hs rfl (by simp) hd
  obtain ⟨hfresh', hn, hoff, hother⟩ := armed_child ht hid hfork (mem_of_choice hb) hp₁ hq
  rw [hfresh.node_eq] at hn
  refine ⟨?_, hfresh', hoff⟩
  cases holds with
  | true =>
      cases hb
      refine .thenBranch hs hn fun e he => ?_
      have he' : e ∈ el.toList := Option.mem_toList.mpr he
      refine hother e (by simp [he']) ?_ (hidle e (by simp [he']))
      rintro rfl
      exact List.rel_of_pairwise_cons hfork.apart he' e (.refl e) (.refl e)
  | false =>
      have hel : el = some b := hb
      subst hel
      refine .elseBranch hs hn (hother th (by simp) ?_ (hidle th (by simp)))
      rintro rfl
      exact List.rel_of_pairwise_cons hfork.apart (by simp) th (.refl th) (.refl th)

/-- A condition that holds begins a round. -/
theorem Sound.round_of_check {id body : StmtId} {cond : ExprId} {p₁ q : Progress}
    (ht : t.Proper root) (hc : Sound t root c) (hat : c.AtHead t id (.while cond body))
    (hf : c.memory.progress.frame id ≠ .while .continuing)
    (hp₁ : c.memory.progress.arm? t body = some p₁)
    (hq : p₁.setFrame? id (.while .continuing) = some q) :
    Path t c.memory.progress root id c.stack c.memory.loops ∧
      Link t q id (.round id) body ∧ q.Fresh t body ∧
      AgreeOff t id c.memory.progress q := by
  obtain ⟨hpath, hh⟩ := hc.of_atHead hat
  have hfork := ht.fork_eq hpath.under hat.stmt rfl
  obtain ⟨harmed, -, -⟩ := hh.while_check ht hpath.under hat.stmt
    fun h => hf ((frame_eq _ _).trans h)
  obtain ⟨hfresh, hn, hoff, -⟩ := armed_child ht hpath.under hfork (by simp) hp₁ hq
  rw [harmed] at hn
  exact ⟨hpath, .whileRound hat.stmt hn, hfresh, hoff⟩

/-- A candidate that is visited begins a round. -/
theorem Sound.round_of_visit {id body : StmtId} {var : Name} {sel : Selector}
    {filter : Option ExprId} {sort : Option SortKey}
    {candidates : List Value} {index : Nat} {candidate : Value} {p₁ q : Progress}
    (ht : t.Proper root) (hc : Sound t root c)
    (hat : c.AtHead t id (.forEach var sel filter sort body))
    (hf : c.memory.progress.frame id = .forEach candidates index .fresh)
    (hi : candidates[index]? = some candidate)
    (hp₁ : c.memory.progress.arm? t body = some p₁)
    (hq : p₁.setFrame? id (.forEach candidates index .continuing) = some q) :
    Path t c.memory.progress root id c.stack c.memory.loops ∧
      Link t q id (.round id) body ∧ q.Fresh t body ∧
      AgreeOff t id c.memory.progress q := by
  obtain ⟨hpath, hh⟩ := hc.of_atHead hat
  have hfork := ht.fork_eq hpath.under hat.stmt rfl
  rw [frame_eq] at hf
  obtain ⟨hn', -⟩ := hh.forEach_next hat.stmt hf
  obtain ⟨hfresh, hn, hoff, -⟩ := armed_child ht hpath.under hfork (by simp) hp₁ hq
  rw [hn'] at hn
  have hlt := (List.getElem?_eq_some_iff.mp hi).1
  exact ⟨hpath, .forEachRound hat.stmt hn hlt, hfresh, hoff⟩

section World

variable [World W]

private theorem Sound.of_deed {e : Event} (ht : t.Proper root) (hc : Sound t root c)
    (h : Deed t c e c') : Sound t root c' := by
  cases h with
  | assign hat _ _ hq | print hat _ hq | act hat _ hq =>
      obtain ⟨hpoint, hout⟩ := hc.leaf ht hat rfl hq
      exact ⟨hpoint, hout⟩
  | @leaveLoop id loop ls q hat hls hq =>
      obtain ⟨hpath, -⟩ := hc.of_at hat
      have hoff := agreeOff_of_finish? t hq
      refine ⟨?_, hc.outside_of_agreeOff hpath.under hoff⟩
      show Point t q root (.leave (.leaving loop)) c.stack c.memory.loops
      rw [hls] at hpath ⊢
      obtain ⟨above, k, hk, habove, hpath', hunder⟩ := hpath.exists_loop
      rw [hk]
      exact .leaving (hpath'.congr ht (hoff.of_under hunder)) habove
  | choose hat hf _ hb hp₁ hq =>
      obtain ⟨hpath, hfresh⟩ := hc.of_unchosen hat hf
      obtain ⟨hl, hfresh', hoff⟩ :=
        link_of_choice ht hpath.under hat.stmt hfresh hb hp₁ hq
      exact ⟨.enter ((hpath.congr ht hoff).link hl) (.fresh hfresh'),
        hc.outside_of_agreeOff hpath.under hoff⟩
  | chooseNone hat hf _ hb hp₁ hq =>
      obtain ⟨hpath, hfresh⟩ := hc.of_unchosen hat hf
      have hoff := (agreeOff_of_setFrame? t hp₁).trans (agreeOff_of_finish? t hq)
      have hfork := ht.fork_eq hpath.under hat.stmt rfl
      have hidle := idle_of_finish? hq hfork.children? fun d hd =>
        (hfresh.child_of_not_sequence ht hpath.under hat.stmt rfl (by simp)
          hd).of_setFrame?
          hp₁ (ht.not_under_child hpath.under hfork hd)
      exact ⟨hpath.point_of_rest ht hoff hidle, hc.outside_of_agreeOff hpath.under hoff⟩
  | @list id _ _ _ _ body _ _ q hat hf _ hq =>
      obtain ⟨hpath, hfresh⟩ := hc.of_unlisted hat hf
      have hoff := agreeOff_of_setFrame? t hq
      have hfork := ht.fork_eq hpath.under hat.stmt rfl
      have hbody : c.memory.progress.Idle t body :=
        hfresh.child_of_not_sequence ht hpath.under hat.stmt rfl (by simp) (by simp)
      have hn := node_setFrame? hq id
      rw [if_pos rfl, hfresh.node_eq] at hn
      have hh : Head t q id := .forEach hat.stmt hn
        (hbody.of_setFrame? hq (ht.not_under_child hpath.under hfork (by simp)))
      exact ⟨.iterate (hpath.congr ht hoff) hh, hc.outside_of_agreeOff hpath.under hoff⟩
  | check hat hf _ hp₁ hq =>
      obtain ⟨hpath, hl, hfresh, hoff⟩ := hc.round_of_check ht hat hf hp₁ hq
      exact ⟨.iterate (hpath.congr ht hoff) (.round hl (.fresh hfresh)),
        hc.outside_of_agreeOff hpath.under hoff⟩
  | stop hat _ _ hq =>
      obtain ⟨hpoint, hout⟩ := hc.cleared ht hat hq
      exact ⟨hpoint, hout⟩
  | visit hat hf hi _ hp₁ hq =>
      obtain ⟨hpath, hl, hfresh, hoff⟩ := hc.round_of_visit ht hat hf hi hp₁ hq
      exact ⟨.iterate (hpath.congr ht hoff) (.round hl (.fresh hfresh)),
        hc.outside_of_agreeOff hpath.under hoff⟩

omit [World W] in
/-- Where a step has to be paid for there is work to do. -/
theorem Sound.active_of_costs (ht : t.Proper root) (hc : Sound t root c) (h : Costs t c) :
    ∃ id, Path t c.memory.progress root id c.stack c.memory.loops ∧
      c.memory.progress.Active t id := by
  cases h with
  | assign hat | print hat | act hat | leaveLoop hat | choose hat | list hat =>
      exact ⟨_, hc.of_at hat⟩
  | check hat hf =>
      obtain ⟨hpath, hh⟩ := hc.of_atHead hat
      obtain ⟨-, -, hact⟩ := hh.while_check ht hpath.under hat.stmt
        fun h => hf ((frame_eq _ _).trans h)
      exact ⟨_, hpath, hact⟩
  | visit hat hf hi =>
      obtain ⟨hpath, hh⟩ := hc.of_atHead hat
      rw [frame_eq] at hf
      obtain ⟨hn, hb⟩ := hh.forEach_next hat.stmt hf
      exact ⟨_, hpath, .forEachHead hat.stmt hn (List.getElem?_eq_some_iff.mp hi).1 hb⟩

/-- What is done is done where a step has to be paid for. -/
theorem Deed.costs {e : Event} (h : Deed t c e c') : Costs t c := by
  cases h with
  | assign h => exact .assign h
  | print h => exact .print h
  | act h => exact .act h
  | leaveLoop h => exact .leaveLoop h
  | choose h hf | chooseNone h hf => exact .choose h hf
  | list h hf => exact .list h hf
  | check h hf | stop h hf => exact .check h hf
  | visit h hf hi => exact .visit h hf hi

/-- A fault falls where a step has to be paid for. -/
theorem Faulty.costs {f : Fault} {g : Generator} (h : Faulty t c f g) :
    Costs t c := by
  cases h with
  | assign hat | write hat => exact .assign hat
  | print hat => exact .print hat
  | act hat => exact .act hat
  | leaveLoop hat => exact .leaveLoop hat
  | choose hat hf => exact .choose hat hf
  | list hat hf => exact .list hat hf
  | check hat hf => exact .check hat hf
  | visit hat hf hi => exact .visit hat hf hi

/-- The statement that owes a time is a `wait`, and the time is an amount. -/
theorem Owes.amount {id : StmtId} {owed : Number} {g : Generator} (hc : Sound t root c)
    (h : c.Owes t id owed g) :
    (∃ duration, c.At t id (.wait duration)) ∧ owed.IsAmount := by
  cases h with
  | first h _ hv =>
      exact ⟨⟨_, h.at_⟩, Number.amount_maxNum_zero (Scope.isFinite_of_duration hv)⟩
  | again hat hf =>
      obtain ⟨-, hact⟩ := hc.of_at hat
      exact ⟨⟨_, hat⟩, hact.owed ((frame_eq _ _).symm.trans hf)⟩

/-- A `wait` that goes on still owes some time. -/
private theorem Sound.of_waiting {id : StmtId} {owed : Number} {g : Generator}
    {q : Progress} (ht : t.Proper root) (hc : Sound t root c) (h : c.Owes t id owed g)
    (hl : ¬ c.left owed ≤ .zero)
    (hq : c.memory.progress.setFrame? id (.wait (c.left owed)) = some q) :
    Point t q root (.leave .suspended) c.stack c.memory.loops ∧
      ∀ j, ¬ t.Under root j → q.node j = idleNode := by
  obtain ⟨⟨duration, hat⟩, hamount⟩ := h.amount hc
  obtain ⟨hpath, hact⟩ := hc.of_at hat
  have hoff := agreeOff_of_setFrame? t hq
  have hleft : (c.left owed).IsAmount := c.memory.budget.left_amount hamount
  have hpos : .zero < c.left owed := by
    refine Number.pos_of_units hleft (Nat.pos_of_ne_zero fun h0 => hl ?_)
    rw [Number.le_iff hleft Number.isAmount_zero, h0]
    exact Nat.zero_le _
  have hn := node_setFrame? hq id
  have harmed := hact.armed
  rw [if_pos rfl] at hn
  refine ⟨(hpath.congr ht hoff).point_suspended ?_,
    hc.outside_of_agreeOff hpath.under hoff⟩
  refine .wait hat.stmt ?_ hleft.isFinite hpos
  rw [hn, ← harmed]

/-- **Every step keeps a configuration sound.** -/
theorem Sound.step {e : Option Event} (ht : t.Proper root) (hc : Sound t root c)
    (h : Step t c e c') : Sound t root c' := by
  cases h with
  | quiet h => exact hc.of_quiet ht h
  | deed _ h => exact hc.of_deed ht h
  | faulted _ h =>
      obtain ⟨id, hpath, hact⟩ := hc.active_of_costs ht h.costs
      exact ⟨hpath.point_raised hact _, hc.outside⟩
  | refused _ h =>
      obtain ⟨id, hpath, hact⟩ := hc.active_of_costs ht h
      exact ⟨hpath.point_suspended hact, hc.outside⟩
  | waitRefused _ h =>
      obtain ⟨hpath, hact⟩ := hc.of_at h.at_
      exact ⟨hpath.point_suspended hact, hc.outside⟩
  | waitFaulted _ h _ =>
      obtain ⟨hpath, hact⟩ := hc.of_at h.at_
      exact ⟨hpath.point_raised hact _, hc.outside⟩
  | waited h _ hq =>
      obtain ⟨⟨duration, hat⟩, -⟩ := h.amount hc
      obtain ⟨hpoint, hout⟩ := hc.leaf ht hat rfl hq
      exact ⟨hpoint, hout⟩
  | waiting h hl hq =>
      obtain ⟨hp, hout⟩ := hc.of_waiting ht h hl hq
      exact ⟨hp, hout⟩

theorem Sound.run {ms : List (Transition W)} (ht : t.Proper root) (hc : Sound t root c)
    (h : Run t c ms c') : Sound t root c' :=
  (h.keeps hc fun _ _ hm hstep => hm.step ht hstep).1

/-- A run never leaves the sound configurations. -/
theorem Sound.mem_run {ms : List (Transition W)} (ht : t.Proper root)
    (hc : Sound t root c) (h : Run t c ms c') :
    ∀ m ∈ ms, Sound t root m.before :=
  (h.keeps hc fun _ _ hm hstep => hm.step ht hstep).2

/-- **What steps from sound configurations keep, a run from one keeps.** -/
theorem Sound.keeps {P : Config W → Prop} {ms : List (Transition W)} (ht : t.Proper root)
    (hs : Sound t root c) (hc : P c)
    (hP : ∀ {c c' : Config W} {e : Option Event}, Sound t root c → P c →
      Step t c e c' → P c')
    (h : Run t c ms c') : P c' := by
  have hkept := h.keeps (P := fun d => Sound t root d ∧ P d) ⟨hs, hc⟩
    fun _ _ ⟨hs, hc⟩ hstep => ⟨hs.step ht hstep, hP hs hc hstep⟩
  exact hkept.1.2

end World

end Machine.Config

end ActorScript
