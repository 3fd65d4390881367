import ActorScript.Proofs.Ticks

/-!
# What the table remembers

Some properties of a table are about its frames alone: each statement remembers
something that suits it.  Most steps write frames to which there is nothing to suit;
only the list of a loop over the world and the time of a `wait` come from outside.
So it takes little to carry such a property along a run: it holds of lists and of
times when they are first written.

## Main results

* `Step.frames` — what holds of the frames is kept by every step that lists and waits
  as it should.
* `Started.frames` — a program starts with nothing to remember.
-/

namespace ActorScript

namespace Progress

open Machine (Config)

variable {t : Tree} {ok : StmtId → Frame → Prop} {p q : Progress}
  {id : StmtId} {f : Frame}

/-- Every frame of the table is as `ok` has it. -/
def Frames (ok : StmtId → Frame → Prop) (p : Progress) : Prop :=
  ∀ j, ok j (p.node j).frame

/-- The property is one of lists and times: it holds of other frames, and a loop may take
its list to another round. -/
structure Lasting (ok : StmtId → Frame → Prop) : Prop where
  fresh : ∀ id, ok id .fresh
  branch : ∀ id choice, ok id (.branch choice)
  loop : ∀ id phase, ok id (.while phase)
  forEach : ∀ {id candidates index phase} (index' : Nat) (phase' : Phase),
    ok id (.forEach candidates index phase) → ok id (.forEach candidates index' phase')

/-- What a list has to do with its loop lasts. -/
theorem lasting_forEach (t : Tree) (P : Name → Selector → List Value → Prop) :
    Lasting fun id f => ∀ var selector filter sort body candidates index phase,
      t.stmt? id = some (.forEach var selector filter sort body) →
      f = .forEach candidates index phase → P var selector candidates where
  fresh _ _ _ _ _ _ _ _ _ _ hf := by cases hf
  branch _ _ _ _ _ _ _ _ _ _ _ hf := by cases hf
  loop _ _ _ _ _ _ _ _ _ _ _ hf := by cases hf
  forEach _ _ h _ _ _ _ _ _ _ _ hs hf := by
    cases hf
    exact h _ _ _ _ _ _ _ _ hs rfl

theorem Lasting.nextRound (hok : Lasting ok) (s : Stmt) (h : ok id f) :
    ok id (Config.nextRound s f) := by
  unfold Config.nextRound
  split
  · exact hok.loop id .fresh
  · exact hok.forEach _ _ h
  · exact h

theorem Frames.setFrame? (h : p.Frames ok) (hq : p.setFrame? id f = some q)
    (hf : ok id f) :
    q.Frames ok := by
  intro j
  rw [node_setFrame? hq]
  split
  · rename_i hj
    subst hj
    exact hf
  · exact h j

theorem Frames.finish? (hok : Lasting ok) (h : p.Frames ok) (hq : p.finish? id = some q) :
    q.Frames ok := by
  intro j
  rw [node_finish? hq]
  split
  · exact hok.fresh j
  · exact h j

theorem Frames.disarm? (hok : Lasting ok) (h : p.Frames ok)
    (hq : p.disarm? t id = some q) :
    q.Frames ok := by
  have hclear := cleared_of_disarm? hq
  intro j
  by_cases hunder : t.Under id j
  · rw [hclear.under j hunder]
    exact hok.fresh j
  · rw [hclear.other j hunder]
    exact h j

theorem Frames.arm? (hok : Lasting ok) (h : p.Frames ok) (hq : p.arm? t id = some q) :
    q.Frames ok := by
  have hready := readied_of_arm? hq
  intro j
  by_cases hspine : t.Spine id j
  · rw [hready.spine j hspine]
    exact hok.fresh j
  · by_cases hunder : t.Under id j
    · rw [hready.under j hunder hspine]
      exact hok.fresh j
    · rw [hready.other j hunder]
      exact h j

end Progress

namespace Machine.Config

open Progress

variable {W : Type} {t : Tree} {ok : StmtId → Frame → Prop} {c c' : Config W}

theorem Quiet.frames (hok : Lasting ok) (h : Quiet t c c')
    (hc : c.memory.progress.Frames ok) :
    c'.memory.progress.Frames ok := by
  cases h with
  | pass | sequence | branch | «while» | forEach | whileRound | forEachRound
  | unlisted | next
  | unwind | passFault | ended => exact hc
  | noBranch _ _ hp | skip _ hp | sequenceEnd _ _ hp | branchEnd _ _ hp =>
      exact hc.finish? hok hp
  | exhausted _ _ _ hp | broken _ _ hp => exact hc.disarm? hok hp
  | @roundEnd id s _ _ _ _ _ hp =>
      refine hc.setFrame? hp (hok.nextRound s ?_)
      rw [frame_eq]
      exact hc id

variable [World W]

theorem Deed.frames {e : Event} (hok : Lasting ok) (h : Deed t c e c')
    (hc : c.memory.progress.Frames ok)
    (hlist : ∀ id candidates, e = .listed id candidates →
      ok id (.forEach candidates 0 .fresh)) :
    c'.memory.progress.Frames ok := by
  cases h with
  | assign _ _ _ hp | print _ _ hp | act _ _ hp | leaveLoop _ _ hp =>
      exact hc.finish? hok hp
  | choose _ _ _ _ hp₁ hp => exact (hc.arm? hok hp₁).setFrame? hp (hok.branch ..)
  | chooseNone _ _ _ _ hp₁ hp => exact (hc.setFrame? hp₁ (hok.branch ..)).finish? hok hp
  | list _ _ _ hp => exact hc.setFrame? hp (hlist _ _ rfl)
  | check _ _ _ hp₁ hp => exact (hc.arm? hok hp₁).setFrame? hp (hok.loop ..)
  | stop _ _ _ hp => exact hc.disarm? hok hp
  | @visit id _ _ _ _ _ candidates index _ _ _ _ _ hf _ _ hp₁ hp =>
      have hlisted := hc id
      rw [← frame_eq, hf] at hlisted
      exact (hc.arm? hok hp₁).setFrame? hp (hok.forEach _ _ hlisted)

/-- **Steps keep what holds of the frames**, if lists and times are written as they should
be. -/
theorem Step.frames {e : Option Event} (hok : Lasting ok) (h : Step t c e c')
    (hc : c.memory.progress.Frames ok)
    (hlist : ∀ id candidates, e = some (.listed id candidates) →
      ok id (.forEach candidates 0 .fresh))
    (hwait : ∀ id owed g, c.Owes t id owed g → ok id (.wait (c.left owed))) :
    c'.memory.progress.Frames ok := by
  cases h with
  | quiet h => exact h.frames hok hc
  | deed _ h =>
      exact h.frames hok hc fun id candidates he => hlist id candidates (congrArg some he)
  | faulted | refused | waitRefused | waitFaulted => exact hc
  | waited _ _ hp => exact hc.finish? hok hp
  | waiting h _ hp => exact hc.setFrame? hp (hwait _ _ _ h)

end Machine.Config

/-- A program starts with nothing to remember. -/
theorem Program.Started.frames {t : Tree} {p : Program} {ok : StmtId → Frame → Prop}
    (hp : p.Started t) (hok : Progress.Lasting ok) : p.memory.progress.Frames ok := by
  intro j
  by_cases hunder : t.Under p.root j
  · by_cases hspine : t.Spine p.root j
    · rw [hp.fresh.spine j hspine]
      exact hok.fresh j
    · rw [hp.fresh.rest j hunder hspine]
      exact hok.fresh j
  · rw [hp.outside j hunder]
    exact hok.fresh j

end ActorScript
