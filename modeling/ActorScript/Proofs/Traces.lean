import ActorScript.Proofs.Residual
import ActorScript.Proofs.Ticks

/-!
# Runs follow the trace language

`Ahead` gives the words that are still to come at a point of a run.  A step takes
the event that it leaves off the front of them: whatever is ahead after a step
is, with the event before it, ahead of the step.  So what has been recorded can
always be completed to a word of the script, and is one when the script is done.

The words ahead are read off the table and the stack.  A run that stops forgets
its stack; that nothing is lost by this is `Path.rest_split`.

## Main results

* `Leads.of_step` — a step takes its event off the words ahead.
* `trace_conforms` — what the ticks of a program have done, in any worlds and
  with any budgets, begins a word of its trace language, and is one once the
  program is done.
-/

namespace ActorScript

namespace Progress

open Machine (Task Control)

/-- The words that are still to come at a point of a run. -/
inductive Ahead (t : Tree) (p : Progress) (root : StmtId) :
    Control → List Task → List StmtId → List Event → Prop
  | enter {id : StmtId} {k : List Task} {ls : List StmtId}
      {w w' : List Event} {cut : Bool} (h : Rest t p ls.head? id w cut)
      (h' : After t p k ls cut w') :
      Ahead t p root (.enter id) k ls (w ++ w')
  | passing {id c : StmtId} {rest : List StmtId} {k : List Task} {ls : List StmtId}
      {w w' : List Event} {cut : Bool} (hc : p.Idle t c)
      (h : RestBody t p ls.head? rest w cut) (h' : After t p k ls cut w') :
      Ahead t p root (.enter c) (.sequence id rest :: k) ls (w ++ w')
  | iterate {id : StmtId} {k : List Task} {ls : List StmtId} {w w' : List Event}
      (h : HeadRest t p ls.head? id w) (h' : After t p k ls false w') :
      Ahead t p root (.iterate id) k ls (w ++ w')
  | finished : Ahead t p root (.leave .completed) [] [] []
  | sequence {id : StmtId} {rest : List StmtId} {k : List Task} {ls : List StmtId}
      {w w' : List Event} {cut : Bool} (h : RestBody t p ls.head? rest w cut)
      (h' : After t p k ls cut w') :
      Ahead t p root (.leave .completed) (.sequence id rest :: k) ls (w ++ w')
  | branch {id : StmtId} {k : List Task} {ls : List StmtId} {w : List Event}
      (h : After t p (.branch id :: k) ls false w) :
      Ahead t p root (.leave .completed) (.branch id :: k) ls w
  | round {id : StmtId} {k : List Task} {ls : List StmtId} {w : List Event}
      (h : After t p (.round id :: k) ls false w) :
      Ahead t p root (.leave .completed) (.round id :: k) ls w
  | suspended {k : List Task} {ls : List StmtId} {w : List Event}
      (h : Rest t p none root w false) : Ahead t p root (.leave .suspended) k ls w
  | raised {f : Fault} {k : List Task} {ls : List StmtId} {w : List Event}
      (h : Rest t p none root w false) : Ahead t p root (.raise f) k ls w
  | leaving {loop : StmtId} {above k : List Task} {ls : List StmtId} {w : List Event}
      (habove : ∀ task ∈ above, task.loop? = none) (h : After t p k ls false w) :
      Ahead t p root (.leave (.leaving loop)) (above ++ .round loop :: k) (loop :: ls) w

variable {t : Tree} {p q : Progress} {root id c : StmtId} {task : Task} {k : List Task}
  {ls : List StmtId} {w : List Event}

/-! ## What is ahead, by the control -/

theorem Ahead.of_enter (h : Ahead t p root (.enter id) k ls w)
    (ha : (p.node id).armed = true) :
    ∃ w₁ cut w₂, Rest t p ls.head? id w₁ cut ∧ After t p k ls cut w₂ ∧ w = w₁ ++ w₂ := by
  cases h with
  | enter h h' => exact ⟨_, _, _, h, h', rfl⟩
  | passing hc =>
      rw [hc.node_eq] at ha
      cases ha

theorem Ahead.of_iterate (h : Ahead t p root (.iterate id) k ls w) :
    ∃ w₁ w₂, HeadRest t p ls.head? id w₁ ∧ After t p k ls false w₂ ∧ w = w₁ ++ w₂ := by
  cases h with
  | iterate h h' => exact ⟨_, _, h, h', rfl⟩

theorem Ahead.of_sequence {rest : List StmtId}
    (h : Ahead t p root (.leave .completed) (.sequence id rest :: k) ls w) :
    ∃ w₁ cut w₂, RestBody t p ls.head? rest w₁ cut ∧ After t p k ls cut w₂ ∧
      w = w₁ ++ w₂ := by
  cases h with
  | sequence h h' => exact ⟨_, _, _, h, h', rfl⟩

theorem Ahead.of_leaving {loop : StmtId}
    (h : Ahead t p root (.leave (.leaving loop)) k ls w) :
    ∃ above k' ls', k = above ++ .round loop :: k' ∧ ls = loop :: ls' ∧
      (∀ task ∈ above, task.loop? = none) ∧ After t p k' ls' false w := by
  cases h with
  | leaving habove h => exact ⟨_, _, _, rfl, rfl, habove, h⟩

/-- A child that a run goes down to, and the task that it leaves behind. -/
theorem Ahead.of_child (ls : List StmtId)
    (h : Ahead t p root (.enter c) (task :: k) (task.loop?.toList ++ ls) w)
    (ha : (p.node c).armed = true) :
    ∃ w₁ cut w₂ cut' w₃, Rest t p (task.loop?.or ls.head?) c w₁ cut ∧
      Tail t p ls.head? task cut w₂ cut' ∧ After t p k ls cut' w₃ ∧
      w = w₁ ++ w₂ ++ w₃ := by
  obtain ⟨w₁, cut, w₂, hrest, hafter, rfl⟩ := h.of_enter ha
  obtain ⟨w₂, cut', w₃, htail, hafter', rfl⟩ := hafter.of_task
  have hhead : (task.loop?.toList ++ ls).head? = task.loop?.or ls.head? := by
    cases task <;> rfl
  rw [hhead] at hrest
  exact ⟨w₁, cut, w₂, cut', w₃, hrest, htail, hafter', by simp⟩

/-- A statement that has been put to rest leaves its tasks what they had to do. -/
theorem Path.after_of_completed (h : Path t p root id k ls) (ht : t.Proper root)
    (hq : AgreeOff t id p q) (ha : Ahead t q root (.leave .completed) k ls w) :
    After t p k ls false w := by
  cases h with
  | root =>
      cases ha with
      | finished => exact .nil
  | @link parent _ task k ls h hl =>
      cases task with
      | sequence i later =>
          obtain ⟨w₁, cut, w₂, hbody, hafter, rfl⟩ := ha.of_sequence
          -- the children to come are apart from the one that has been left
          cases hl with
          | @sequence body past _ _ hs hcs hn hpast hlater =>
              have hf := ht.fork_eq h.under hs hcs
              have hw : t.Word ls.head? (.body later) w₁ cut := by
                refine hbody.word_of_fresh ht (fun d hd => ?_) (fun d hd => ?_)
                · exact h.under.trans (.of_child hf.children? (by simp [hd]))
                · exact (hlater d hd).congr fun j hj =>
                    hq j ((hf.apart_after hd).symm j hj)
              have hafter' : After t p k ls cut w₂ :=
                h.after_congr ht
                  (hq.of_under (Link.sequence hs hcs hn hpast hlater).under) hafter
              exact .task (.sequence hw) hafter'
      | branch i =>
          cases ha with
          | branch ha => exact (Path.link h hl).after_congr ht hq ha
      | round i =>
          cases ha with
          | round ha => exact (Path.link h hl).after_congr ht hq ha

/-- A stop forgets the stack, but the words ahead stay what they were. -/
theorem Path.ahead_of_stop (h : Path t p root id k ls) (ht : t.Proper root)
    (ha : p.Active t id) (hr : Rest t p none root w false) :
    Ahead t p root (.enter id) k ls w := by
  obtain ⟨w₁, cut, w₂, hrest, hafter, rfl⟩ := h.rest_split ht ha.armed hr
  exact .enter hrest hafter

/-- A `leaveLoop` cuts all that is left up to its loop. -/
theorem After.of_leaving {loop : StmtId} {above : List Task}
    (habove : ∀ task ∈ above, task.loop? = none) (h : After t p k ls false w) :
    After t p (above ++ .round loop :: k) (loop :: ls) true w := by
  induction above with
  | nil =>
      have hround : After t p (.round loop :: k) (loop :: ls) true ([] ++ w) :=
        .task .broken h
      exact hround
  | cons task above ih =>
      have hrest := ih fun task' h' => habove task' (by simp [h'])
      cases task with
      | sequence i rest =>
          have htask : After t p (.sequence i rest :: (above ++ .round loop :: k))
            (loop :: ls) true ([] ++ w) := .task .sequenceCut hrest
          exact htask
      | branch i =>
          have htask : After t p (.branch i :: (above ++ .round loop :: k))
            (loop :: ls) true ([] ++ w) := .task .branch hrest
          exact htask
      | round i => cases habove _ (List.mem_cons_self ..)

/-- A leaf that has work to do is fresh, unless it is a `wait`. -/
theorem Active.fresh_of_leaf (ha : p.Active t id) {s : Stmt} (hs : t.stmt? id = some s)
    (hleaf : t.childrenOf? s = some []) (hw : ∀ duration, s ≠ .wait duration) :
    p.Fresh t id := by
  cases ha with
  | fresh h => exact h
  | link hl _ =>
      obtain ⟨s', cs, hs', hcs, hmem⟩ := hl.mem
      cases hs.symm.trans hs'
      cases hleaf.symm.trans hcs
      cases hmem
  | whileHead hs' | forEachHead hs' =>
      cases hs.symm.trans hs'
      cases hleaf
  | wait hs' =>
      cases hs.symm.trans hs'
      exact absurd rfl (hw _)

end Progress

/-! ## Steps -/

/-- A command is the action of its statement. -/
theorem Scope.word_of_command {W : Type} [World W] {s : Scope W} {action : Action ExprId}
    {command : Command} {g g' : Generator} (h : (s.command action).Yields g command g') :
    command.word = action.word := by
  unfold Evaluation.Yields Scope.command at h
  cases action with
  | startMove direction =>
      simp only [Action.mapM, map_eq_pure_bind, StateT.run_bind, ExceptT.run_bind,
        Option.bind_eq_bind, Option.bind_eq_some_iff] at h
      obtain ⟨outcome, -, h⟩ := h
      cases outcome <;> cases h
      rfl
  | stopMove | startJump | stopJump | startDuck | stopDuck =>
      cases h
      rfl

/-! ## The ways out of a statement -/

namespace Progress

open Machine (Task)
open Machine.Config (nextRound Passes)

variable {t : Tree} {p q : Progress} {root id child : StmtId} {rest : List StmtId}
  {k : List Task} {ls : List StmtId} {w : List Event}

/-- A child that is done is passed without a word. -/
private theorem Point.ahead_of_pass (h : Point t p root (.enter id) k ls)
    (ha : (p.node id).armed = false) (hw : Ahead t p root (.leave .completed) k ls w) :
    Ahead t p root (.enter id) k ls w := by
  cases h with
  | enter _ hact =>
      rw [hact.armed] at ha
      cases ha
  | passing _ _ hidle =>
      obtain ⟨w₁, cut, w₂, hbody, hafter, rfl⟩ := hw.of_sequence
      exact .passing hidle hbody hafter

/-- What a sequence has left begins with what its next child has left. -/
private theorem Point.ahead_of_next
    (h : Point t p root (.leave .completed) (.sequence id (child :: rest) :: k) ls)
    (hw : Ahead t p root (.enter child) (.sequence id rest :: k) ls w) :
    Ahead t p root (.leave .completed) (.sequence id (child :: rest) :: k) ls w := by
  obtain ⟨_, _, rfl, -, hb⟩ := h.of_completed
  cases hb with
  | @sequence _ _ _ _ _ _ _ hrest =>
      cases hrest with
      | idle hidle =>
          cases hw with
          | enter hrest =>
              have harmed := hrest.armed
              rw [hidle.node_eq] at harmed
              cases harmed
          | passing hidle hbody hafter => exact .sequence (.idle hidle hbody) hafter
      | fresh h =>
          have harmed : (p.node child).armed = true := by
            rw [(h _ (List.mem_cons_self ..)).node_eq]
          obtain ⟨w₁, cut, w₂, cut', w₃, hrest, htail, hafter, rfl⟩ :=
            hw.of_child _ harmed
          exact .sequence (.active hrest htail) hafter
      | active h _ =>
          obtain ⟨w₁, cut, w₂, cut', w₃, hrest, htail, hafter, rfl⟩ :=
            hw.of_child _ h.armed
          exact .sequence (.active hrest htail) hafter

private theorem Point.ahead_of_sequenceEnd (ht : t.Proper root)
    (h : Point t p root (.leave .completed) (.sequence id [] :: k) ls)
    (hq : p.finish? id = some q) (hw : Ahead t q root (.leave .completed) k ls w) :
    Ahead t p root (.leave .completed) (.sequence id [] :: k) ls w := by
  obtain ⟨_, _, rfl, hpath, hb⟩ := h.of_completed
  cases hb with
  | sequence =>
      have hafter := hpath.after_of_completed ht (agreeOff_of_finish? t hq) hw
      exact .sequence (w := []) (.fresh (by simp) .nil) hafter

private theorem Point.ahead_of_branchEnd (ht : t.Proper root)
    (h : Point t p root (.leave .completed) (.branch id :: k) ls)
    (hq : p.finish? id = some q) (hw : Ahead t q root (.leave .completed) k ls w) :
    Ahead t p root (.leave .completed) (.branch id :: k) ls w := by
  obtain ⟨_, _, rfl, hpath, hb⟩ := h.of_completed
  cases hb with
  | branch =>
      have hafter := hpath.after_of_completed ht (agreeOff_of_finish? t hq) hw
      exact .branch (.task (w := []) .branch hafter)

/-- A round that is over has the rounds to come left. -/
private theorem tail_of_nextRound {s : Stmt} {loop : Option StmtId}
    (hl : Link t p id (.round id) child) (hs : t.stmt? id = some s)
    (hq : p.setFrame? id (nextRound s (p.frame id)) = some q)
    (h : HeadRest t q loop id w) : Tail t p loop (.round id) false w false := by
  have hn : q.node id = { p.node id with frame := nextRound s (p.node id).frame } := by
    rw [node_setFrame? hq, if_pos rfl, frame_eq]
  cases hl with
  | whileRound hs' hn' =>
      cases hs.symm.trans hs'
      rw [hn'] at hn
      cases h with
      | «while» hs'' _ hw =>
          cases hs.symm.trans hs''
          exact .whileRound hs hw
      | forEach hs'' => cases hs.symm.trans hs''
      | round hl _ _ =>
          cases hl with
          | whileRound _ hn'' => cases hn.symm.trans hn''
          | forEachRound hs'' => cases hs.symm.trans hs''
  | forEachRound hs' hn' =>
      cases hs.symm.trans hs'
      rw [hn'] at hn
      cases h with
      | «while» hs'' => cases hs.symm.trans hs''
      | forEach hs'' hf hw =>
          cases hs.symm.trans hs''
          rw [hn] at hf
          cases hf
          exact .forEachRound hs (by rw [hn']) hw
      | round hl _ _ =>
          cases hl with
          | whileRound hs'' => cases hs.symm.trans hs''
          | forEachRound _ hn'' => cases hn.symm.trans hn''

private theorem Point.ahead_of_roundEnd {s : Stmt} (ht : t.Proper root)
    (h : Point t p root (.leave .completed) (.round id :: k) ls)
    (hs : t.stmt? id = some s) (hq : p.setFrame? id (nextRound s (p.frame id)) = some q)
    (hw : Ahead t q root (.iterate id) k ls.tail w) :
    Ahead t p root (.leave .completed) (.round id :: k) ls w := by
  obtain ⟨_, _, rfl, hpath, hb⟩ := h.of_completed
  cases hb with
  | round hl _ =>
      obtain ⟨w₁, w₂, hhead, hafter, rfl⟩ := hw.of_iterate
      have hafter' := hpath.after_congr ht (agreeOff_of_setFrame? t hq) hafter
      exact .round (.task (tail_of_nextRound hl hs hq hhead) hafter')

/-- A loop that is left has nothing left. -/
private theorem Point.ahead_of_broken (ht : t.Proper root)
    (h : Point t p root (.leave (.leaving id)) (.round id :: k) ls)
    (hq : p.disarm? t id = some q)
    (hw : Ahead t q root (.leave .completed) k ls.tail w) :
    Ahead t p root (.leave (.leaving id)) (.round id :: k) ls w := by
  rcases h.of_leaving with ⟨_, -, rfl, hpath⟩ | ⟨hne, -⟩
  · have hafter := hpath.after_of_completed ht (cleared_of_disarm? hq).other hw
    exact @Ahead.leaving t _ root _ [] _ _ _ (by simp) hafter
  · cases hne

/-- What is on its way out has the same ahead of it before and after a task that does not
concern it. -/
private theorem Point.ahead_of_unwind {task : Task} {flow : Flow}
    (hpass : Passes task flow) (h : Point t p root (.leave flow) (task :: k) ls)
    (hw : Ahead t p root (.leave flow) k (if task.loop?.isSome then ls.tail else ls) w) :
    Ahead t p root (.leave flow) (task :: k) ls w := by
  cases hpass with
  | suspended =>
      cases hw with
      | suspended h => exact .suspended h
  | sequence i rest | branch i =>
      obtain ⟨above, k', ls', rfl, rfl, habove, hafter⟩ := hw.of_leaving
      exact @Ahead.leaving t _ root _ (_ :: above) _ _ _
        (by simpa [Task.loop?] using habove) hafter
  | round hne =>
      rcases h.of_leaving with ⟨_, hround, -⟩ | ⟨hloop, -⟩
      · cases hround
        exact absurd rfl hne
      · cases hloop

end Progress

namespace Machine.Config

open Progress

variable {W : Type} {t : Tree} {root : StmtId} {c c' : Config W} {w : List Event}

/-- The words that are still to come in a run. -/
def Leads (t : Tree) (root : StmtId) (c : Config W) (w : List Event) : Prop :=
  Ahead t c.memory.progress root c.control c.stack c.memory.loops w

/-- A leaf that is done has its word before the words of the tasks. -/
private theorem Sound.ahead_of_leaf {id : StmtId} {s : Stmt} {q : Progress}
    {word : List Event} (ht : t.Proper root) (hc : Sound t root c) (hat : c.At t id s)
    (hleaf : t.childrenOf? s = some []) (hs : ∀ duration, s ≠ .wait duration)
    (hq : c.memory.progress.finish? id = some q)
    (hword : t.Word c.memory.loops.head? (.stmt id) word false)
    (hw : Ahead t q root (.leave .completed) c.stack c.memory.loops w) :
    Ahead t c.memory.progress root c.control c.stack c.memory.loops (word ++ w) := by
  obtain ⟨hpath, hact⟩ := hc.of_at hat
  have hafter := hpath.after_of_completed ht (agreeOff_of_finish? t hq) hw
  rw [hat.control]
  exact .enter (.fresh (hact.fresh_of_leaf hat.stmt hleaf hs) hword) hafter

/-- A round that goes on is what the head of its loop has left. -/
private theorem AtHead.ahead_of_round {id child : StmtId} {s : Stmt}
    (hat : c.AtHead t id s) (hl : Link t c.memory.progress id (.round id) child)
    (hact : c.memory.progress.Active t child)
    (hw : Ahead t c.memory.progress root (.enter child) (.round id :: c.stack)
      (id :: c.memory.loops) w) :
    Ahead t c.memory.progress root c.control c.stack c.memory.loops w := by
  obtain ⟨w₁, cut, w₂, cut', w₃, hrest, htail, hafter, rfl⟩ :=
    Ahead.of_child c.memory.loops hw hact.armed
  cases htail.round_uncut
  rw [hat.control]
  exact .iterate (.round hl hrest htail) hafter

/-- A list that is at its end has nothing left. -/
private theorem Sound.ahead_of_exhausted {id body : StmtId} {var : Name} {sel : Selector}
    {filter : Option ExprId} {sort : Option SortKey}
    {candidates : List Value} {index : Nat} {phase : Phase} {q : Progress}
    (ht : t.Proper root) (hc : Sound t root c)
    (hat : c.AtHead t id (.forEach var sel filter sort body))
    (hf : c.memory.progress.frame id = .forEach candidates index phase)
    (hi : candidates[index]? = none) (hq : c.memory.progress.disarm? t id = some q)
    (hw : Ahead t q root (.leave .completed) c.stack c.memory.loops w) :
    Ahead t c.memory.progress root c.control c.stack c.memory.loops w := by
  obtain ⟨hpath, hh⟩ := hc.of_atHead hat
  rw [frame_eq] at hf
  have hafter := hpath.after_of_completed ht (cleared_of_disarm? hq).other hw
  obtain ⟨_, _, _, hf', hlt⟩ := hh.forEach_listed hat.stmt
  cases hf.symm.trans hf'
  have hle := List.getElem?_eq_none_iff.mp hi
  rw [hat.control]
  cases phase with
  | continuing => exact absurd (hlt rfl) (Nat.not_lt.mpr hle)
  | fresh =>
      have hdrop : candidates.drop index = [] := List.drop_eq_nil_of_le hle
      refine .iterate (w := []) (.forEach hat.stmt hf ?_) hafter
      rw [hdrop]
      exact .exhausted

private theorem Leads.of_quiet (ht : t.Proper root) (hc : Sound t root c)
    (h : Quiet t c c') (hw : c'.Leads t root w) : c.Leads t root w := by
  have hp := hc.point
  unfold Leads at hw ⊢
  cases h with
  | pass hcontrol ha =>
      rw [isArmed_eq] at ha
      rw [hcontrol] at hp ⊢
      exact hp.ahead_of_pass ha hw
  | sequence hat hcs =>
      obtain ⟨hpath, hact⟩ := hc.of_at hat
      obtain ⟨w₁, cut, w₂, hbody, hafter, rfl⟩ := hw.of_sequence
      rw [hat.control]
      exact .enter (hbody.rest ht hpath.under hact hat.stmt hcs) hafter
  | branch hat hf =>
      obtain ⟨b, ⟨⟩, -, hl, hact⟩ := hc.of_branch hat hf
      obtain ⟨w₁, cut, w₂, cut', w₃, hrest, htail, hafter, rfl⟩ :=
        Ahead.of_child c.memory.loops hw hact.armed
      rw [hat.control]
      exact .enter (.link hl hrest htail) hafter
  | noBranch hat hf =>
      obtain ⟨b, hb, -⟩ := hc.of_branch hat hf
      cases hb
  | «while» hat =>
      obtain ⟨hpath, hact⟩ := hc.of_at hat
      obtain ⟨w₁, w₂, hhead, hafter, rfl⟩ := hw.of_iterate
      rw [hat.control]
      exact .enter (hhead.rest (hact.head_of_while hat.stmt)) hafter
  | forEach hat hf =>
      obtain ⟨-, hh⟩ := hc.of_listed hat hf
      obtain ⟨w₁, w₂, hhead, hafter, rfl⟩ := hw.of_iterate
      rw [hat.control]
      exact .enter (hhead.rest hh) hafter
  | skip hat hq => exact hc.ahead_of_leaf ht hat rfl (by simp) hq (.skip hat.stmt) hw
  | whileRound hat hf =>
      obtain ⟨-, hl, hact⟩ := hc.of_round hat rfl (.inl hf)
      exact hat.ahead_of_round hl hact hw
  | forEachRound hat hf _ =>
      obtain ⟨-, hl, hact⟩ := hc.of_round hat rfl (.inr ⟨_, _, hf⟩)
      exact hat.ahead_of_round hl hact hw
  | exhausted hat hf hi hq => exact hc.ahead_of_exhausted ht hat hf hi hq hw
  | unlisted hat hf => exact absurd hf (hc.not_unlisted hat)
  | next hcontrol hk =>
      rw [hcontrol, hk] at hp ⊢
      exact hp.ahead_of_next hw
  | sequenceEnd hcontrol hk hq =>
      rw [hcontrol, hk] at hp ⊢
      exact hp.ahead_of_sequenceEnd ht hq hw
  | branchEnd hcontrol hk hq =>
      rw [hcontrol, hk] at hp ⊢
      exact hp.ahead_of_branchEnd ht hq hw
  | roundEnd hcontrol hk hs hq =>
      rw [hcontrol, hk] at hp ⊢
      exact hp.ahead_of_roundEnd ht hs hq hw
  | broken hcontrol hk hq =>
      rw [hcontrol, hk] at hp ⊢
      exact hp.ahead_of_broken ht hq hw
  | unwind hcontrol hk hpass =>
      replace hw : Ahead t c.memory.progress root c.control _ _ w := hw
      rw [hcontrol] at hw
      rw [hcontrol, hk] at hp ⊢
      exact hp.ahead_of_unwind hpass hw
  | passFault hcontrol hk =>
      replace hw : Ahead t c.memory.progress root c.control _ _ w := hw
      rw [hcontrol] at hw ⊢
      cases hw with
      | raised h => exact .raised h
  | ended => exact hw

/-- A `leaveLoop` leaves its event, and what comes after its loop. -/
private theorem Sound.ahead_of_leaveLoop {id loop : StmtId} {ls : List StmtId}
    {q : Progress} (ht : t.Proper root) (hc : Sound t root c) (hat : c.At t id .leaveLoop)
    (hls : c.memory.loops = loop :: ls) (hq : c.memory.progress.finish? id = some q)
    (hw : Ahead t q root (.leave (.leaving loop)) c.stack c.memory.loops w) :
    Ahead t c.memory.progress root c.control c.stack c.memory.loops
      (.left id loop :: w) := by
  obtain ⟨hpath, hact⟩ := hc.of_at hat
  have hfresh := hact.fresh_of_leaf hat.stmt rfl (by simp)
  obtain ⟨above, k', ls', hk, hls', habove, hafter⟩ := hw.of_leaving
  have hall := hpath.after_congr ht (agreeOff_of_finish? t hq)
    (by rw [hk, hls']; exact hafter.of_leaving habove)
  rw [hat.control]
  refine .enter (w := [.left id loop]) (.fresh hfresh ?_) hall
  rw [hls]
  exact .leaveLoop hat.stmt

/-- A condition that has chosen a branch leaves its event before the word of the
branch. -/
private theorem Sound.ahead_of_choose {id b th : StmtId} {el : Option StmtId}
    {cond : ExprId} {holds : Bool} {p₁ q : Progress} (ht : t.Proper root)
    (hc : Sound t root c) (hat : c.At t id (.conditional cond th el))
    (hf : ∀ choice, c.memory.progress.frame id ≠ .branch choice)
    (hb : (if holds then some th else el) = some b)
    (hp₁ : c.memory.progress.arm? t b = some p₁)
    (hq : p₁.setFrame? id (.branch (some b)) = some q)
    (hw : Ahead t q root (.enter b) (.branch id :: c.stack) c.memory.loops w) :
    Ahead t c.memory.progress root c.control c.stack c.memory.loops
      (.decided id holds :: w) := by
  obtain ⟨hpath, hfresh⟩ := hc.of_unchosen hat hf
  obtain ⟨hl, hfresh', hoff⟩ := link_of_choice ht hpath.under hat.stmt hfresh hb hp₁ hq
  have harmed := congrArg Node.armed hfresh'.node_eq
  obtain ⟨w₁, cut, w₂, cut', w₃, hrest, htail, hafter, rfl⟩ :=
    Ahead.of_child c.memory.loops hw harmed
  have hword := hrest.word_of_fresh ht (hpath.under.trans hl.under) hfresh'
  cases htail with
  | branch =>
      rw [hat.control, List.append_nil]
      exact .enter (.fresh hfresh (.choose hat.stmt hb hword))
        (hpath.after_congr ht hoff hafter)

/-- A condition that has chosen nothing leaves its event alone. -/
private theorem Sound.ahead_of_chooseNone {id th : StmtId} {el : Option StmtId}
    {cond : ExprId} {holds : Bool} {p₁ q : Progress} (ht : t.Proper root)
    (hc : Sound t root c) (hat : c.At t id (.conditional cond th el))
    (hf : ∀ choice, c.memory.progress.frame id ≠ .branch choice)
    (hb : (if holds then some th else el) = none)
    (hp₁ : c.memory.progress.setFrame? id (.branch none) = some p₁)
    (hq : p₁.finish? id = some q)
    (hw : Ahead t q root (.leave .completed) c.stack c.memory.loops w) :
    Ahead t c.memory.progress root c.control c.stack c.memory.loops
      (.decided id holds :: w) := by
  obtain ⟨hpath, hfresh⟩ := hc.of_unchosen hat hf
  have hoff := (agreeOff_of_setFrame? t hp₁).trans (agreeOff_of_finish? t hq)
  have hafter := hpath.after_of_completed ht hoff hw
  rw [hat.control]
  cases holds with
  | true => cases hb
  | false =>
      have hel : el = none := hb
      subst hel
      exact .enter (w := [.decided id false])
        (.fresh hfresh (.chooseNone hat.stmt)) hafter

/-- A list that has been gathered leaves its event before the visits. -/
private theorem Sound.ahead_of_list {id body : StmtId} {var : Name} {sel : Selector}
    {filter : Option ExprId} {sort : Option SortKey} {candidates : List Value}
    {q : Progress} (ht : t.Proper root) (hc : Sound t root c)
    (hat : c.At t id (.forEach var sel filter sort body))
    (hf : ∀ candidates index phase,
      c.memory.progress.frame id ≠ .forEach candidates index phase)
    (hq : c.memory.progress.setFrame? id (.forEach candidates 0 .fresh) = some q)
    (hw : Ahead t q root (.iterate id) c.stack c.memory.loops w) :
    Ahead t c.memory.progress root c.control c.stack c.memory.loops
      (.listed id candidates :: w) := by
  obtain ⟨hpath, hfresh⟩ := hc.of_unlisted hat hf
  obtain ⟨w₁, w₂, hhead, hafter, rfl⟩ := hw.of_iterate
  have hafter' := hpath.after_congr ht (agreeOff_of_setFrame? t hq) hafter
  have hn : (q.node id).frame = .forEach candidates 0 .fresh := by
    rw [node_setFrame? hq, if_pos rfl]
  rw [hat.control]
  exact .enter (.fresh hfresh (.forEach hat.stmt (hhead.visits hat.stmt hn))) hafter'

/-- A condition that holds leaves its event before the round that it begins. -/
private theorem Sound.ahead_of_check {id body : StmtId} {cond : ExprId} {p₁ q : Progress}
    (ht : t.Proper root) (hc : Sound t root c) (hat : c.AtHead t id (.while cond body))
    (hf : c.memory.progress.frame id ≠ .while .continuing)
    (hp₁ : c.memory.progress.arm? t body = some p₁)
    (hq : p₁.setFrame? id (.while .continuing) = some q)
    (hw : Ahead t q root (.iterate id) c.stack c.memory.loops w) :
    Ahead t c.memory.progress root c.control c.stack c.memory.loops
      (.decided id true :: w) := by
  obtain ⟨hpath, hl, hfresh, hoff⟩ := hc.round_of_check ht hat hf hp₁ hq
  have hne : (c.memory.progress.node id).frame ≠ .while .continuing :=
    fun h => hf ((frame_eq _ _).trans h)
  obtain ⟨w₁, w₂, hhead, hafter, rfl⟩ := hw.of_iterate
  obtain ⟨w₃, cut, w₄, hbody, htail, rfl⟩ := hhead.of_round ht hpath.under hl hfresh
  have hafter' := hpath.after_congr ht hoff hafter
  rw [hat.control]
  cases htail with
  | whileRound hs hrounds =>
      cases hat.stmt.symm.trans hs
      exact .iterate (.while hat.stmt hne (.check hbody hrounds)) hafter'
  | forEachRound hs => cases hat.stmt.symm.trans hs
  | broken =>
      rw [List.append_nil]
      exact .iterate (.while hat.stmt hne (.checkCut hbody)) hafter'

/-- A visit leaves its event before the round that it begins. -/
private theorem Sound.ahead_of_visit {id body : StmtId} {var : Name} {sel : Selector}
    {filter : Option ExprId} {sort : Option SortKey}
    {candidates : List Value} {index : Nat} {candidate : Value} {p₁ q : Progress}
    (ht : t.Proper root) (hc : Sound t root c)
    (hat : c.AtHead t id (.forEach var sel filter sort body))
    (hf : c.memory.progress.frame id = .forEach candidates index .fresh)
    (hi : candidates[index]? = some candidate)
    (hp₁ : c.memory.progress.arm? t body = some p₁)
    (hq : p₁.setFrame? id (.forEach candidates index .continuing) = some q)
    (hw : Ahead t q root (.iterate id) c.stack c.memory.loops w) :
    Ahead t c.memory.progress root c.control c.stack c.memory.loops
      (.visited id candidate :: w) := by
  obtain ⟨hpath, hl, hfresh, hoff⟩ := hc.round_of_visit ht hat hf hi hp₁ hq
  rw [frame_eq] at hf
  have hn : (q.node id).frame = .forEach candidates index .continuing := by
    rw [node_setFrame? hq, if_pos rfl]
  obtain ⟨w₁, w₂, hhead, hafter, rfl⟩ := hw.of_iterate
  obtain ⟨w₃, cut, w₄, hbody, htail, rfl⟩ := hhead.of_round ht hpath.under hl hfresh
  have hafter' := hpath.after_congr ht hoff hafter
  have hdrop : candidates.drop index = candidate :: candidates.drop (index + 1) := by
    obtain ⟨hlt, hget⟩ := List.getElem?_eq_some_iff.mp hi
    rw [List.drop_eq_getElem_cons hlt, hget]
  have hnext : ∀ {w}, t.Word c.memory.loops.head? (.visits id body (candidate ::
      candidates.drop (index + 1))) w false →
      HeadRest t c.memory.progress c.memory.loops.head? id w := by
    intro w hw
    rw [← hdrop] at hw
    exact .forEach hat.stmt hf hw
  rw [hat.control]
  cases htail with
  | whileRound hs => cases hat.stmt.symm.trans hs
  | forEachRound hs hf' hvisits =>
      cases hat.stmt.symm.trans hs
      cases hn.symm.trans hf'
      exact .iterate (hnext (.visit hbody hvisits)) hafter'
  | broken =>
      rw [List.append_nil]
      exact .iterate (hnext (.visitCut hbody)) hafter'

section World

variable [World W]

private theorem Leads.of_deed {e : Event} (ht : t.Proper root) (hc : Sound t root c)
    (h : Deed t c e c') (hw : c'.Leads t root w) : c.Leads t root (e :: w) := by
  unfold Leads at hw ⊢
  cases h with
  | @assign _ _ _ v _ _ _ hat _ _ hq =>
      exact hc.ahead_of_leaf ht hat rfl (by simp) hq (.assign hat.stmt v) hw
  | @print _ _ v _ _ hat _ hq =>
      exact hc.ahead_of_leaf ht hat rfl (by simp) hq (.print hat.stmt v) hw
  | act hat hv hq =>
      have hword := Scope.word_of_command hv
      exact hc.ahead_of_leaf ht hat rfl (by simp) hq (.act hat.stmt hword) hw
  | leaveLoop hat hls hq => exact hc.ahead_of_leaveLoop ht hat hls hq hw
  | choose hat hf _ hb hp₁ hq => exact hc.ahead_of_choose ht hat hf hb hp₁ hq hw
  | chooseNone hat hf _ hb hp₁ hq => exact hc.ahead_of_chooseNone ht hat hf hb hp₁ hq hw
  | list hat hf _ hq => exact hc.ahead_of_list ht hat hf hq hw
  | check hat hf _ hp₁ hq => exact hc.ahead_of_check ht hat hf hp₁ hq hw
  | @stop id _ _ _ _ hat hf _ hq =>
      obtain ⟨hpath, -⟩ := hc.of_atHead hat
      have hafter := hpath.after_of_completed ht (cleared_of_disarm? hq).other hw
      rw [hat.control]
      exact .iterate (w := [.decided id false])
        (.while hat.stmt (fun h => hf ((frame_eq _ _).trans h)) .stop) hafter
  | visit hat hf hi _ hp₁ hq => exact hc.ahead_of_visit ht hat hf hi hp₁ hq hw

omit [World W] in
/-- A stop where a step has to be paid for puts off what is ahead. -/
private theorem Leads.of_costs (ht : t.Proper root) (hc : Sound t root c) (h : Costs t c)
    (hr : Rest t c.memory.progress none root w false) : c.Leads t root w := by
  unfold Leads
  cases h with
  | assign hat | print hat | act hat | leaveLoop hat | choose hat | list hat =>
      obtain ⟨hpath, hact⟩ := hc.of_at hat
      rw [hat.control]
      exact hpath.ahead_of_stop ht hact hr
  | check hat hf =>
      obtain ⟨hpath, hh⟩ := hc.of_atHead hat
      replace hf := fun h => hf ((frame_eq _ _).trans h)
      obtain ⟨harmed, -⟩ := hh.while_check ht hpath.under hat.stmt hf
      obtain ⟨w₁, cut, w₂, hrest, hafter, rfl⟩ := hpath.rest_split ht harmed hr
      obtain ⟨hw, rfl⟩ := hrest.rounds hat.stmt hf
      rw [hat.control]
      exact .iterate (.while hat.stmt hf hw) hafter
  | visit hat hf _ =>
      obtain ⟨hpath, hh⟩ := hc.of_atHead hat
      rw [frame_eq] at hf
      obtain ⟨hn, -⟩ := hh.forEach_next hat.stmt hf
      obtain ⟨w₁, cut, w₂, hrest, hafter, rfl⟩ := hpath.rest_split ht (by rw [hn]) hr
      obtain ⟨hw, rfl⟩ := hrest.visits hat.stmt hn
      rw [hat.control]
      exact .iterate (.forEach hat.stmt hf hw) hafter

/-- A `wait` at hand has one event left. -/
private theorem Owes.rest {id : StmtId} {owed : Number} {g : Generator}
    (h : c.Owes t id owed g) (hact : c.memory.progress.Active t id)
    (loop : Option StmtId) :
    Rest t c.memory.progress loop id [.waited id] false := by
  cases h with
  | first h _ _ =>
      cases hact with
      | fresh hfresh => exact .fresh hfresh (.wait h.at_.stmt)
      | link hl _ =>
          obtain ⟨s, cs, hs, hcs, hmem⟩ := hl.mem
          cases h.at_.stmt.symm.trans hs
          cases hcs
          cases hmem
      | whileHead hs | forEachHead hs => cases h.at_.stmt.symm.trans hs
      | wait hs hn => exact .wait hs hn
  | again hat hf =>
      have hn : c.memory.progress.node id = { armed := true, frame := .wait owed } := by
        rw [← hact.armed, ← hf, frame_eq]
      exact .wait hat.stmt hn

/-- **A step takes its event off the words ahead.** -/
theorem Leads.of_step {e : Option Event} (ht : t.Proper root) (hc : Sound t root c)
    (h : Step t c e c') (hw : c'.Leads t root w) : c.Leads t root (e.toList ++ w) := by
  cases h with
  | quiet h => exact hw.of_quiet ht hc h
  | deed _ h => exact hw.of_deed ht hc h
  | faulted _ h =>
      cases hw with
      | raised hr => exact .of_costs ht hc h.costs hr
  | refused _ h =>
      cases hw with
      | suspended hr => exact .of_costs ht hc h hr
  | waitRefused _ h =>
      obtain ⟨hpath, hact⟩ := hc.of_at h.at_
      cases hw with
      | suspended hr =>
          unfold Leads
          rw [h.at_.control]
          exact hpath.ahead_of_stop ht hact hr
  | waitFaulted _ h _ =>
      obtain ⟨hpath, hact⟩ := hc.of_at h.at_
      cases hw with
      | raised hr =>
          unfold Leads
          rw [h.at_.control]
          exact hpath.ahead_of_stop ht hact hr
  | waited h _ hq =>
      obtain ⟨⟨duration, hat⟩, -⟩ := h.amount hc
      obtain ⟨hpath, hact⟩ := hc.of_at hat
      have hafter := hpath.after_of_completed ht (agreeOff_of_finish? t hq) hw
      unfold Leads
      rw [hat.control]
      exact .enter (h.rest hact _) hafter
  | @waiting id owed _ q h hl hq =>
      obtain ⟨⟨duration, hat⟩, -⟩ := h.amount hc
      obtain ⟨hpath, hact⟩ := hc.of_at hat
      have hoff := agreeOff_of_setFrame? t hq
      have hn : q.node id = { armed := true, frame := .wait (c.left owed) } := by
        rw [node_setFrame? hq, if_pos rfl, ← hact.armed]
      cases hw with
      | suspended hr =>
          replace hr : Rest t q none root w false := hr
          obtain ⟨w₁, cut, w₂, hrest, hafter, rfl⟩ :=
            (hpath.congr ht hoff).rest_split ht (by rw [hn]) hr
          obtain ⟨rfl, rfl⟩ := hrest.waited hn
          have hafter' := hpath.after_congr ht hoff hafter
          unfold Leads
          rw [hat.control]
          exact .enter (w := [.waited id]) (h.rest hact _) hafter'

theorem Leads.of_run {ms : List (Transition W)} (ht : t.Proper root) (hc : Sound t root c)
    (h : Run t c ms c') (hw : c'.Leads t root w) : c.Leads t root (events ms ++ w) := by
  induction h with
  | refl => exact hw
  | step _ hstep _ ih =>
      have hahead := (ih (hc.step ht hstep) hw).of_step ht hc hstep
      simpa [events] using hahead

omit [World W] in
/-- A run that is over has come to the end of the script, or leaves all that the table
has left. -/
theorem Sound.leads_of_over (hc : Sound t root c) {outcome : Except Fault Flow}
    (ho : c.outcome? = some outcome) :
    (c.memory.progress.Idle t root ∧ c.Leads t root []) ∨
    (c.memory.progress.Active t root ∧
      ∀ w, Rest t c.memory.progress none root w false → c.Leads t root w) := by
  obtain ⟨hover, hk, hls⟩ := hc.over_of_outcome ho
  unfold Leads
  rw [hk, hls]
  cases hover with
  | completed hcontrol h =>
      rw [hcontrol]
      exact .inl ⟨h, .finished⟩
  | suspended hcontrol h =>
      rw [hcontrol]
      exact .inr ⟨h, fun w hw => .suspended hw⟩
  | raised hcontrol h =>
      rw [hcontrol]
      exact .inr ⟨h, fun w hw => .raised hw⟩

end World

end Machine.Config

/-! ## Ticks -/

namespace Program

open Machine Progress

variable {W : Type} [World W]

/-- The events that have been recorded, with whatever the table has left, make a word of
the script. -/
structure Recorded (t : Tree) (root : StmtId) (es : List Event) (p : Program) : Prop where
  running : ∀ w, Rest t p.memory.progress none root w false →
    t.Word none (.stmt root) (es ++ w) false
  finished : p.memory.progress.Idle t root → t.Word none (.stmt root) es false

omit [World W] in
/-- What is ahead of a tick is what the root has left. -/
private theorem rest_of_opening {t : Tree} {root : StmtId} {p : Program} {w : W}
    {budget : Number} {es : List Event} (hp : Settled t root p)
    (hact : p.memory.progress.Active t root)
    (h : (p.opening w budget).Leads t root es) :
    Rest t p.memory.progress none root es false := by
  replace h : Ahead t p.memory.progress root (.enter p.root) [] [] es := h
  rw [hp.root_eq] at h
  obtain ⟨w₁, cut, w₂, hrest, hafter, rfl⟩ := h.of_enter hact.armed
  cases hafter with
  | nil =>
      rw [List.append_nil]
      exact hrest

theorem Recorded.tick {t : Tree} {root : StmtId} {p : Program} {es : List Event}
    (ht : t.Proper root) (hp : Settled t root p) (h : Recorded t root es p) {limit : Nat}
    {w : W} {budget : Number} {k : Tick W} (hk : p.advance? limit w budget = some k) :
    Recorded t root (es ++ k.events) k.program := by
  rcases hp.run_of_tick hk with ⟨-, -, rfl⟩
    | ⟨hgoing, hopening, outcome, c', hrun, ho, rfl⟩
  · rw [List.append_nil]
    exact h
  · have hact : p.memory.progress.Active t root := by
      rcases hp.wellFormed.main with hidle | hact
      · rw [(isFinished_iff hp).mpr hidle, Bool.or_true] at hgoing
        cases hgoing
      · exact hact
    -- whatever is ahead at the end of the run completes what had been recorded
    have hword : ∀ {w'}, c'.Leads t root w' →
        t.Word none (.stmt root) (es ++ events (p.moves limit w budget) ++ w') false := by
      intro w' hw'
      rw [List.append_assoc]
      exact h.running _ (rest_of_opening hp hact (hw'.of_run ht hopening hrun))
    have hprogress : (p.settle outcome c'.memory).memory.progress = c'.memory.progress :=
      settle_progress ..
    rcases (hopening.run ht hrun).leads_of_over ho with ⟨hidle, hleads⟩ | ⟨hact', hleads⟩
    · refine ⟨fun w' hr => ?_, fun _ => ?_⟩
      · have harmed := hr.armed
        rw [hprogress, hidle.node_eq] at harmed
        cases harmed
      · have hall := hword hleads
        rwa [List.append_nil] at hall
    · refine ⟨fun w' hr => ?_, fun hidle => ?_⟩
      · rw [hprogress] at hr
        exact hword (hleads w' hr)
      · rw [hprogress] at hidle
        exact absurd hidle hact'.not_idle

omit [World W] in
theorem Started.recorded {t : Tree} {p : Program} (h : Started t p) :
    Recorded t p.root [] p where
  running _ hr := hr.word_of_fresh h.proper (.refl _) h.fresh
  finished hidle := absurd hidle (Active.fresh h.fresh).not_idle

theorem recorded_of_ticks {ok : Nat → Program → W → Number → Prop} {t : Tree}
    {p q : Program} {es : List Event} (hp : Started t p) (h : Ticks ok p es q) :
    Recorded t p.root es q := by
  induction h with
  | start => exact hp.recorded
  | tick h _ hk ih => exact ih.tick hp.proper (settled_of_ticks hp h) hk

/-- What has been recorded can be completed to a word of the script. -/
theorem exists_word_of_ticks {ok : Nat → Program → W → Number → Prop} {t : Tree}
    {p q : Program} {es : List Event} (hp : Started t p) (h : Ticks ok p es q) :
    ∃ w, es <+: w ∧ t.Word none (.stmt p.root) w false := by
  have hrecorded := recorded_of_ticks hp h
  rcases (settled_of_ticks hp h).wellFormed.main with hidle | hact
  · exact ⟨es, List.prefix_refl es, hrecorded.finished hidle⟩
  · obtain ⟨w, cut, hr⟩ :=
      exists_rest hp.proper hact (.refl _) fun _ => hp.proper.enclosed
    cases hr.unbroken
    exact ⟨es ++ w, List.prefix_append es w, hrecorded.running w hr⟩

/--
**Traces conform to the script.**  However a program has been ticked, and whatever has
happened to the world in between, what it has done begins a word of its script; and if
it is done, it has done a whole word.
-/
theorem trace_conforms {t : Tree} {subject : ActorId} {settings : Settings}
    {p q : Program} {es : List Event} (hstart : start t subject settings = .ok p)
    (h : Reached W p es q) :
    (∃ w, es <+: w ∧ t.Word none (.stmt p.root) w false) ∧
      (q.isFinished = true → t.Word none (.stmt p.root) es false) := by
  have hp := started_of_start hstart
  have hq := settled_of_ticks hp h
  refine ⟨exists_word_of_ticks hp h, fun hf => ?_⟩
  exact (recorded_of_ticks hp h).finished ((isFinished_iff hq).mp hf)

/--
```text
while true {
  if true { leave the loop }
  print 3
}
```
-/
def hasty : Tree where
  exprs := #[.number (.ofInt 3), .boolean true]
  stmts := #[.leaveLoop, .conditional 1 0 none, .print 0, .sequence ⟨0, 2⟩, .while 1 3]
  lists := #[1, 2]
  root := some 4

/-- The script leaves its loop before it comes to print, and is done with that. -/
theorem trace_conforms_hasty :
    ∃ p q, start hasty 1 = .ok p ∧
      Reached GridWorld p [.decided 4 true, .decided 1 true, .left 0 4] q ∧
      q.isFinished = true ∧
      hasty.Word none (.stmt p.root)
        [.decided 4 true, .decided 1 true, .left 0 4] false := by
  have hrun : (start hasty 1).toOption.map (fun p =>
      (p.advance? 100 (GridWorld.empty 1 1) (.ofInt 9)).map fun k =>
        (k.events, k.program.isFinished)) =
      some (some ([.decided 4 true, .decided 1 true, .left 0 4], true)) := by
    decide +kernel
  obtain ⟨p, hstart, htick⟩ := exists_of_start hrun
  obtain ⟨k, hk, hfacts⟩ := Option.map_eq_some_iff.mp htick
  obtain ⟨hevents, hfinished⟩ : _ ∧ _ := by simpa only [Prod.mk.injEq] using hfacts
  have hreached : Reached GridWorld p ([] ++ k.events) k.program :=
    .tick .start trivial hk
  rw [List.nil_append, hevents] at hreached
  exact ⟨p, k.program, hstart, hreached, hfinished,
    (trace_conforms hstart hreached).2 hfinished⟩

end Program

end ActorScript
