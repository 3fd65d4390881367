import ActorScript.Proofs.LoopExit

/-!
# Stages of a loop over the world

What a loop over the world is up to is written in its entry of the table: whether it has
listed its candidates, which of them it has come to, and whether the body is at work on
that one.  `Advances` says what a move of the machine can do to this.

The body of the loop and whatever else a run executes write to other entries, and loops
around it arm and clear it only while it has no list.  For a `leaveLoop` this has a reason
of its own: a loop in progress would have caught it.

## Main results

* `Progress.Path.beside` — what lies off the path of a run is at rest or fresh.
* `Config.Holds.step` — every step of a run takes a loop over the world from one stage to
  another by `Advances`.
-/

namespace ActorScript

/-! ## Loops over the world -/

namespace Tree

/-- A loop over the world, as it stands in a script. -/
structure WorldLoop (t : Tree) where
  id : StmtId
  var : Name
  sel : Selector
  filter : Option ExprId
  sort : Option SortKey
  body : StmtId
  stmt : t.stmt? id = some (.forEach var sel filter sort body)

variable {t : Tree} {id : StmtId}

theorem WorldLoop.children? (l : t.WorldLoop) : t.children? l.id = some [l.body] :=
  children?_eq l.stmt

theorem WorldLoop.under_body (l : t.WorldLoop) : t.Under l.id l.body :=
  .of_child l.children? (by simp)

/-- A statement of another kind is not the loop. -/
theorem WorldLoop.ne (l : t.WorldLoop) {s : Stmt} (hs : t.stmt? id = some s)
    (hne : ∀ var sel filter sort body, s ≠ .forEach var sel filter sort body) :
    l.id ≠ id := by
  rintro rfl
  cases l.stmt.symm.trans hs
  exact hne _ _ _ _ _ rfl

theorem WorldLoop.isLoop (l : t.WorldLoop) : t.IsLoop l.id := ⟨_, l.stmt, rfl⟩

end Tree

namespace Progress

open Machine (Task)

variable {t : Tree} {p q : Progress} {root id j : StmtId} {k : List Task}
  {ls : List StmtId}

/-! ## Off the path -/

/-- What stands under a subtree at rest or fresh is at rest or fresh. -/
theorem idle_or_fresh_of_under (h : p.Idle t id ∨ p.Fresh t id) (ht : t.Proper root)
    (hid : t.Under root id) (hj : t.Under id j) : p.Idle t j ∨ p.Fresh t j := by
  induction hj with
  | refl id => exact h
  | @child id c j cs hcs hc hcj ih =>
      have hidc : t.Under id c := .of_child hcs hc
      refine ih ?_ (hid.trans hidc)
      rcases h with h | h
      · exact .inl fun j hj => h j (hidc.trans hj)
      · obtain ⟨s, cs', hf⟩ := ht.fork id hid
        cases hcs.symm.trans hf.children?
        by_cases hs : ∃ body, s = .sequence body
        · obtain ⟨body, rfl⟩ := hs
          exact .inr (h.child_of_sequence ht hid hf.stmt hf.children hc)
        · refine .inl (h.child_of_not_sequence ht hid hf.stmt hf.children ?_ hc)
          exact fun body hb => hs ⟨body, hb⟩

/-- **Off the path** of a run everything is at rest or fresh. -/
theorem Path.beside (h : Path t p root id k ls) (ht : t.Proper root) (hj : t.Under root j)
    (hover : ¬ t.Under j id) (hbelow : ¬ t.Under id j) : p.Idle t j ∨ p.Fresh t j := by
  induction h with
  | root => exact absurd hj hbelow
  | @link parent child task k ls h hl ih =>
      by_cases hpj : t.Under parent j
      · obtain ⟨s, cs, hs, hcs, -⟩ := hl.mem
        have hchildren := (Tree.children?_eq hs).trans hcs
        rcases (Tree.under_iff hchildren).mp hpj with rfl | ⟨d, hd, hdj⟩
        · exact absurd hl.under hover
        · have hne : d ≠ child := by
            rintro rfl
            exact hbelow hdj
          have hdu := h.under.trans (.of_child hchildren hd)
          exact idle_or_fresh_of_under (hl.beside hs hcs hd hne) ht hdu hdj
      · exact ih (fun hjp => hover (hjp.trans hl.under)) hpj

/-- What stands over the end of a path is in progress. -/
theorem Path.exists_link (h : Path t p root id k ls) (ht : t.Proper root)
    (hj : t.Under root j) (hji : t.Under j id) (hne : j ≠ id) :
    ∃ task c, Link t p j task c := by
  induction h with
  | root => exact absurd (ht.under_antisymm hj hji hj) hne
  | @link parent child task k ls h hl ih =>
      obtain ⟨s, cs, hs, hcs, hc⟩ := hl.mem
      have hchildren := (Tree.children?_eq hs).trans hcs
      have hjp := (ht.under_parent h.under hchildren hc hj hji).resolve_left hne
      by_cases heq : j = parent
      · subst heq
        exact ⟨_, _, hl⟩
      · exact ih hjp heq

/-! ## Stages -/

/-- A loop over the world has no list, is to go on with one of its candidates, or is at
work on one. -/
inductive Stage where
  | resting
  | head (candidates : List Value) (index : Nat)
  | round (candidates : List Value) (index : Nat)

/-- The table has the loop at a stage. -/
inductive Stands (t : Tree) (p : Progress) (l : t.WorldLoop) : Stage → Prop
  | resting (h : p.Idle t l.id ∨ p.Fresh t l.id) : Stands t p l .resting
  | head {candidates : List Value} {index : Nat}
      (hn : p.node l.id = { armed := true, frame := .forEach candidates index .fresh })
      (hb : p.Idle t l.body) : Stands t p l (.head candidates index)
  | round {candidates : List Value} {index : Nat}
      (hn : p.node l.id =
        { armed := true, frame := .forEach candidates index .continuing })
      (hi : index < candidates.length) : Stands t p l (.round candidates index)

variable {l : t.WorldLoop} {s : Stage}

theorem Stands.congr (h : Stands t p l s)
    (hq : ∀ j, t.Under l.id j → q.node j = p.node j) :
    Stands t q l s := by
  cases h with
  | resting h => exact .resting (h.imp (·.congr hq) (·.congr hq))
  | head hn hb =>
      refine .head ((hq _ (.refl _)).trans hn) (hb.congr fun j hj => ?_)
      exact hq j (l.under_body.trans hj)
  | round hn hi => exact .round ((hq _ (.refl _)).trans hn) hi

/-- A loop at rest has no list, and one that has a list is neither at rest nor fresh. -/
theorem Stands.eq_resting (h : Stands t p l s) (hr : p.Idle t l.id ∨ p.Fresh t l.id) :
    s = .resting := by
  cases h with
  | resting => rfl
  | head hn | round hn =>
      rcases hr with hr | hr
      · cases hn.symm.trans hr.node_eq
      · cases hn.symm.trans hr.node_eq

/-- A loop with a statement in progress under it is at work on a candidate. -/
theorem Stands.eq_round (h : Stands t p l s) {task : Task} {c : StmtId}
    (hl : Link t p l.id task c) : ∃ candidates index, s = .round candidates index := by
  cases hl with
  | sequence hs | thenBranch hs | elseBranch hs | whileRound hs =>
      cases l.stmt.symm.trans hs
  | forEachRound hs hn' =>
      cases h with
      | resting h =>
          rcases h with h | h
          · cases hn'.symm.trans h.node_eq
          · cases hn'.symm.trans h.node_eq
      | head hn => cases hn'.symm.trans hn
      | round => exact ⟨_, _, rfl⟩

/-! ## Other statements leave the stage alone -/

/-- What happens under another statement is beside the loop, or in its body, or else has
to leave the loop as it is. -/
theorem Stands.of_agreeOff (h : Stands t p l s) (ht : t.Proper root)
    (hl : t.Under root l.id) (hpath : Path t p root id k ls) (hne : l.id ≠ id)
    (hq : AgreeOff t id p q) (hbelow : t.Under id l.id → Stands t q l s) :
    Stands t q l s := by
  by_cases hil : t.Under id l.id
  · exact hbelow hil
  · by_cases hli : t.Under l.id id
    · obtain ⟨task, c, hlink⟩ := hpath.exists_link ht hl hli hne
      obtain ⟨candidates, index, rfl⟩ := h.eq_round hlink
      cases h with
      | round hn hi => exact .round ((hq _ hil).trans hn) hi
    · refine h.congr fun j hj => hq j fun hij => ?_
      rcases ht.comparable hpath.under hl hij hj with h | h
      · exact hil h
      · exact hli h

/-- A write to one entry. -/
theorem Stands.of_entry (h : Stands t p l s) (ht : t.Proper root) (hl : t.Under root l.id)
    (hpath : Path t p root id k ls) (hne : l.id ≠ id)
    (hq : ∀ j, j ≠ id → q.node j = p.node j) : Stands t q l s := by
  refine h.of_agreeOff ht hl hpath hne (fun j hj => hq j ?_) fun hil => ?_
  · rintro rfl
    exact hj (.refl j)
  · refine h.congr fun j hj => hq j ?_
    rintro rfl
    exact hne (ht.under_antisymm hl hj hil)

theorem Stands.of_finish? (h : Stands t p l s) (ht : t.Proper root)
    (hl : t.Under root l.id) (hpath : Path t p root id k ls) (hne : l.id ≠ id)
    (hq : p.finish? id = some q) :
    Stands t q l s := by
  refine h.of_entry ht hl hpath hne fun j hj => ?_
  rw [node_finish? hq, if_neg hj]

theorem Stands.of_setFrame? {f : Frame} (h : Stands t p l s) (ht : t.Proper root)
    (hl : t.Under root l.id) (hpath : Path t p root id k ls) (hne : l.id ≠ id)
    (hq : p.setFrame? id f = some q) : Stands t q l s := by
  refine h.of_entry ht hl hpath hne fun j hj => ?_
  rw [node_setFrame? hq, if_neg hj]

/-- A child that is armed: the loop may be the child, or stand under it. -/
theorem Stands.of_armed {p₁ : Progress} {b : StmtId} {st : Stmt}
    {cs : List StmtId} {f : Frame} (h : Stands t p l s) (ht : t.Proper root)
    (hl : t.Under root l.id) (hpath : Path t p root id k ls) (hne : l.id ≠ id)
    (hf : t.Fork id st cs) (hb : b ∈ cs) (hidle : p.Idle t b) (hp₁ : p.arm? t b = some p₁)
    (hq : p₁.setFrame? id f = some q) :
    Stands t q l s := by
  obtain ⟨hfresh, -, hoff, -⟩ := Machine.Config.armed_child ht hpath.under hf hb hp₁ hq
  refine h.of_agreeOff ht hl hpath hne hoff fun hil => ?_
  rcases (Tree.under_iff hf.children?).mp hil with heq | ⟨d, hd, hdl⟩
  · exact absurd heq hne
  · by_cases hdb : d = b
    · subst hdb
      have hdu := hpath.under.trans (.of_child hf.children? hd)
      obtain rfl := h.eq_resting (idle_or_fresh_of_under (.inl hidle) ht hdu hdl)
      exact .resting (idle_or_fresh_of_under (.inr hfresh) ht hdu hdl)
    · refine h.congr fun j hj => ?_
      have hdj := hdl.trans hj
      have hji : j ≠ id := by
        rintro rfl
        exact ht.not_under_child hpath.under hf hd hdj
      have hbj : ¬ t.Under b j := fun hbj => hf.apart_of_ne hb hd hdb j hbj hdj
      rw [node_setFrame? hq, if_neg hji, (readied_of_arm? hp₁).other j hbj]

/-- A loop that stands under a subtree at rest has no list. -/
theorem Stands.resting_of_children {cs : List StmtId} (h : Stands t p l s)
    (ht : t.Proper root) (hid : t.Under root id) (hcs : t.children? id = some cs)
    (hidle : ∀ d ∈ cs, p.Idle t d) (hne : l.id ≠ id) (hil : t.Under id l.id) :
    s = .resting := by
  rcases (Tree.under_iff hcs).mp hil with heq | ⟨d, hd, hdl⟩
  · exact absurd heq hne
  · have hdu := hid.trans (.of_child hcs hd)
    exact h.eq_resting (idle_or_fresh_of_under (.inl (hidle d hd)) ht hdu hdl)

/-- A subtree that is cleared, and in which the loop had no list. -/
theorem Stands.of_cleared (h : Stands t p l s) (ht : t.Proper root)
    (hl : t.Under root l.id) (hpath : Path t p root id k ls) (hne : l.id ≠ id)
    (hq : Cleared t id p q) (hrest : t.Under id l.id → s = .resting) :
    Stands t q l s := by
  refine h.of_agreeOff ht hl hpath hne hq.other fun hil => ?_
  obtain rfl := hrest hil
  exact .resting (.inl fun j hj => hq.under j (hil.trans hj))

/-! ## The moves of the loop itself -/

/-- A loop with no candidate left is at the head of a round. -/
theorem Head.fresh_of_exhausted {var : Name} {sel : Selector} {filter : Option ExprId}
    {sort : Option SortKey} {body : StmtId} {vs : List Value} {i : Nat} {phase : Phase}
    (hh : Head t p id) (hs : t.stmt? id = some (.forEach var sel filter sort body))
    (hf : (p.node id).frame = .forEach vs i phase) (hi : vs[i]? = none) :
    (p.node id).frame = .forEach vs i .fresh := by
  obtain ⟨vs', i', phase', hf', hlt⟩ := hh.forEach_listed hs
  cases hf.symm.trans hf'
  cases phase with
  | fresh => exact hf
  | continuing =>
      exact absurd (hlt rfl) (Nat.not_lt.mpr (List.getElem?_eq_none_iff.mp hi))

/-- The stage is what the entry of the loop says. -/
theorem Stands.eq_head {vs : List Value} {i : Nat} (h : Stands t p l s)
    (hf : (p.node l.id).frame = .forEach vs i .fresh) : s = .head vs i := by
  cases h with
  | resting h =>
      rcases h with h | h
      · rw [h.node_eq] at hf
        cases hf
      · rw [h.node_eq] at hf
        cases hf
  | head hn =>
      rw [hn] at hf
      cases hf
      rfl
  | round hn =>
      rw [hn] at hf
      cases hf

/-- A loop whose list has just been written is at the head of its first round. -/
theorem Stands.of_listed {vs : List Value} (ht : t.Proper root) (hl : t.Under root l.id)
    (hfresh : p.Fresh t l.id) (hq : p.setFrame? l.id (.forEach vs 0 .fresh) = some q) :
    Stands t q l (.head vs 0) := by
  have hf := ht.fork_eq hl l.stmt rfl
  have hb : p.Idle t l.body :=
    hfresh.child_of_not_sequence ht hl l.stmt rfl nofun (by simp)
  refine .head ?_ (hb.of_setFrame? hq (ht.not_under_child hl hf (by simp)))
  rw [node_setFrame? hq, if_pos rfl, hfresh.node_eq]

/-- A loop whose body is done goes on with the next candidate. -/
theorem Stands.of_nextRound {st : Stmt} {child : StmtId} (h : Stands t p l s)
    (ht : t.Proper root) (hl : t.Under root l.id)
    (hlink : Link t p l.id (.round l.id) child) (hidle : p.Idle t child)
    (hs : t.stmt? l.id = some st)
    (hq : p.setFrame? l.id (Machine.Config.nextRound st (p.frame l.id)) = some q) :
    ∃ vs i, s = .round vs i ∧ p.Idle t l.body ∧ Stands t q l (.head vs (i + 1)) := by
  obtain ⟨vs, i, rfl⟩ := h.eq_round hlink
  cases l.stmt.symm.trans hs
  have hf := ht.fork_eq hl l.stmt rfl
  have hchild : child = l.body := by
    obtain ⟨s', cs, hs', hcs, hmem⟩ := hlink.mem
    cases l.stmt.symm.trans hs'
    cases hcs
    exact List.mem_singleton.mp hmem
  subst hchild
  refine ⟨vs, i, rfl, hidle,
    .head ?_ (hidle.of_setFrame? hq (ht.not_under_child hl hf (by simp)))⟩
  cases h with
  | round hn =>
      rw [node_setFrame? hq, if_pos rfl, frame_eq, hn]
      rfl

end Progress

/-! ## Steps -/

namespace Machine

open Progress

variable {W : Type} [World W] {t : Tree} {root : StmtId} {l : t.WorldLoop}
  {c c' : Config W} {s s' : Stage}

/-- How a move takes a loop over the world from one stage to another. -/
inductive Advances (t : Tree) (l : t.WorldLoop) (m : Transition W) : Stage → Stage → Prop
  | stays {s : Stage} (hlisted : ∀ vs, m.event ≠ some (.listed l.id vs))
      (hvisited : ∀ v, m.event ≠ some (.visited l.id v)) : Advances t l m s s
  /-- The candidates are listed, from the world as it is at the time. -/
  | lists {vs : List Value} {g : Generator} (he : m.event = some (.listed l.id vs))
      (hv : ((m.before.scope t).candidates l.var l.sel l.filter l.sort).Yields
        m.before.memory.generator vs g) : Advances t l m .resting (.head vs 0)
  /-- The variable is bound to the next candidate, and the body is made ready. -/
  | binds {vs : List Value} {i : Nat} {v : Value} (he : m.event = some (.visited l.id v))
      (hi : vs[i]? = some v)
      (hg : m.before.memory.globals.assign l.var v = .ok m.after.memory.globals)
      (hidle : m.before.memory.progress.Idle t l.body)
      (hfresh : m.after.memory.progress.Fresh t l.body) :
      Advances t l m (.head vs i) (.round vs i)
  /-- The body is done and has been left. -/
  | completes {vs : List Value} {i : Nat} {k : List Task} (he : m.event = none)
      (hc : m.before.control = .leave .completed) (hk : m.before.stack = .round l.id :: k)
      (hidle : m.before.memory.progress.Idle t l.body) :
      Advances t l m (.round vs i) (.head vs (i + 1))
  /-- No candidate is left. -/
  | exhausted {vs : List Value} {i : Nat} (he : m.event = none) (hi : vs[i]? = none)
      (hidle : m.after.memory.progress.Idle t l.id) : Advances t l m (.head vs i) .resting
  /-- A `leaveLoop` has come to the loop. -/
  | broken {vs : List Value} {i : Nat} (he : m.event = none)
      (hc : m.before.control = .leave (.leaving l.id))
      (hidle : m.after.memory.progress.Idle t l.id) :
      Advances t l m (.round vs i) .resting

/-- A configuration with a loop over the world at a stage.  Where a `leaveLoop` is on its
way out, the table does not tell that the loop that it leaves is in progress, and that the
loops under that one are not. -/
structure Config.Holds (t : Tree) (l : t.WorldLoop) (c : Config W) (s : Stage) :
    Prop where
  stands : Stands t c.memory.progress l s
  own : c.control = .leave (.leaving l.id) → ∃ vs i, s = .round vs i
  outer : ∀ loop, c.control = .leave (.leaving loop) → loop ≠ l.id → t.Under loop l.id →
    s = .resting

namespace Config

omit [World W] in
theorem Holds.of_stands (h : Stands t c.memory.progress l s)
    (hc : ∀ loop, c.control ≠ .leave (.leaving loop)) : c.Holds t l s :=
  ⟨h, fun h => absurd h (hc _), fun loop h => absurd h (hc loop)⟩

/-- A step that leaves no event and does nothing to the loop. -/
theorem Holds.silent (h : c'.Holds t l s) :
    ∃ s', c'.Holds t l s' ∧ Advances t l ⟨c, none, c'⟩ s s' :=
  ⟨s, h, .stays nofun nofun⟩

/-- A step that is paid for by another statement. -/
theorem Holds.aside {e : Event} (h : c'.Holds t l s) (hlisted : ∀ vs, e ≠ .listed l.id vs)
    (hvisited : ∀ v, e ≠ .visited l.id v) :
    ∃ s', c'.Holds t l s' ∧ Advances t l ⟨c, some e, c'⟩ s s' :=
  ⟨s, h, .stays (fun vs he => hlisted vs (Option.some.inj he))
    fun v he => hvisited v (Option.some.inj he)⟩

omit [World W] in
/-- A statement of another kind marks itself as done. -/
theorem Holds.finished {id : StmtId} {st : Stmt} {q : Progress} (h : c.Holds t l s)
    (ht : t.Proper root) (hl : t.Under root l.id) (hc : c.Sound t root)
    (hat : c.At t id st)
    (hst : ∀ var sel filter sort body, st ≠ .forEach var sel filter sort body)
    (hq : c.memory.progress.finish? id = some q) : Stands t q l s :=
  h.stands.of_finish? ht hl (hc.of_at hat).1 (l.ne hat.stmt hst) hq

theorem Holds.of_quiet (ht : t.Proper root) (hl : t.Under root l.id) (hc : c.Sound t root)
    (h : c.Holds t l s) (hstep : Quiet t c c') :
    ∃ s', c'.Holds t l s' ∧ Advances t l ⟨c, none, c'⟩ s s' := by
  have hp := hc.point
  cases hstep with
  | pass | sequence | branch | «while» | forEach | whileRound | forEachRound | unlisted
  | next => exact Holds.silent (.of_stands h.stands nofun)
  | unwind | passFault => exact Holds.silent ⟨h.stands, h.own, h.outer⟩
  | ended => exact h.silent
  | noBranch hat _ hq | skip hat hq =>
      exact Holds.silent (.of_stands (h.finished ht hl hc hat nofun hq) nofun)
  | sequenceEnd hcontrol hk hq =>
      rw [hcontrol, hk] at hp
      obtain ⟨_, _, -, hpath, hb⟩ := hp.of_completed
      cases hb with
      | sequence hs =>
          have hne := l.ne hs nofun
          exact Holds.silent (.of_stands (h.stands.of_finish? ht hl hpath hne hq) nofun)
  | @branchEnd id _ _ hcontrol hk hq =>
      rw [hcontrol, hk] at hp
      obtain ⟨_, _, -, hpath, hb⟩ := hp.of_completed
      cases hb with
      | branch hlink =>
          have hne : l.id ≠ id := by
            cases hlink with
            | thenBranch hs | elseBranch hs => exact l.ne hs nofun
          exact Holds.silent (.of_stands (h.stands.of_finish? ht hl hpath hne hq) nofun)
  | @roundEnd id _ _ _ hcontrol hk hs hq =>
      have hstack := hk
      rw [hcontrol, hk] at hp
      obtain ⟨_, _, -, hpath, hb⟩ := hp.of_completed
      cases hb with
      | round hlink hidle =>
          by_cases heq : l.id = id
          · subst heq
            obtain ⟨vs, i, rfl, hidle, hstands⟩ :=
              h.stands.of_nextRound ht hl hlink hidle hs hq
            exact ⟨_, .of_stands hstands nofun, .completes rfl hcontrol hstack hidle⟩
          · have hstands := h.stands.of_setFrame? ht hl hpath heq hq
            exact Holds.silent (.of_stands hstands nofun)
  | @exhausted id _ _ _ _ _ vs i _ _ hat hf hi hq =>
      obtain ⟨hpath, hh⟩ := hc.of_atHead hat
      have hclear := cleared_of_disarm? hq
      rw [frame_eq] at hf
      replace hf := hh.fresh_of_exhausted hat.stmt hf hi
      by_cases heq : l.id = id
      · subst heq
        obtain rfl := h.stands.eq_head hf
        have hidle := idle_of_cleared hclear
        exact ⟨_, .of_stands (.resting (.inl hidle)) nofun, .exhausted rfl hi hidle⟩
      · have hbody := (hh.forEach_next hat.stmt hf).2
        refine Holds.silent (.of_stands ?_ nofun)
        refine h.stands.of_cleared ht hl hpath heq hclear ?_
        exact h.stands.resting_of_children ht hpath.under (Tree.children?_eq hat.stmt)
          (List.forall_mem_singleton.mpr hbody) heq
  | @broken id _ _ hcontrol hk hq =>
      rw [hcontrol, hk] at hp
      have hclear := cleared_of_disarm? hq
      rcases hp.of_leaving with ⟨_, -, -, hpath⟩ | ⟨hround, -⟩
      · by_cases heq : l.id = id
        · subst heq
          obtain ⟨vs, i, rfl⟩ := h.own hcontrol
          have hidle := idle_of_cleared hclear
          exact ⟨_, .of_stands (.resting (.inl hidle)) nofun, .broken rfl hcontrol hidle⟩
        · refine Holds.silent (.of_stands ?_ nofun)
          exact h.stands.of_cleared ht hl hpath heq hclear
            (h.outer id hcontrol (Ne.symm heq))
      · cases hround

omit [World W] in
/-- A `leaveLoop` leaves the innermost loop in progress, which has no loop in progress
under it. -/
theorem Holds.of_leaveLoop {id loop : StmtId} {ls : List StmtId} {q : Progress}
    (ht : t.Proper root) (hl : t.Under root l.id) (hc : c.Sound t root)
    (h : c.Holds t l s) (hat : c.At t id .leaveLoop) (hls : c.memory.loops = loop :: ls)
    (hq : c.memory.progress.finish? id = some q) :
    ((c.payStep.done q).goTo (.leave (.leaving loop))).Holds t l s := by
  obtain ⟨hpath, -⟩ := hc.of_at hat
  have hne : l.id ≠ id := l.ne hat.stmt nofun
  have haround := hpath.around ht
  rw [hls] at haround
  refine ⟨h.stands.of_finish? ht hl hpath hne hq, ?_, ?_⟩
  · rintro ⟨⟩
    obtain ⟨-, -, hover, -⟩ := (haround.mem l.id).mp (by simp)
    obtain ⟨_, _, hlink⟩ := hpath.exists_link ht hl hover hne
    exact h.stands.eq_round hlink
  · rintro _ ⟨⟩ hloop hunder
    refine h.stands.eq_resting (hpath.beside ht hl (fun hover => ?_) fun hbelow => ?_)
    · -- a loop around the statement is the one that is left or stands around that one
      have hmem := (haround.mem l.id).mpr ⟨hne, hl, hover, l.isLoop⟩
      rcases List.mem_cons.mp hmem with heq | hmem
      · exact hloop heq.symm
      · have houter := (List.rel_of_pairwise_cons haround.nested hmem).2
        exact hloop
          (ht.under_antisymm ((haround.mem loop).mp (by simp)).2.1 hunder houter)
    · rcases (Tree.under_iff (Tree.children?_eq hat.stmt)).mp hbelow with heq | ⟨d, hd, -⟩
      · exact hne heq
      · cases hd

theorem Holds.of_deed {e : Event} (ht : t.Proper root) (hl : t.Under root l.id)
    (hc : c.Sound t root) (h : c.Holds t l s) (hstep : Deed t c e c') :
    ∃ s', c'.Holds t l s' ∧ Advances t l ⟨c, some e, c'⟩ s s' := by
  cases hstep with
  | assign hat _ _ hq | print hat _ hq | act hat _ hq =>
      exact Holds.aside (.of_stands (h.finished ht hl hc hat nofun hq) nofun) nofun nofun
  | leaveLoop hat hls hq =>
      exact (h.of_leaveLoop ht hl hc hat hls hq).aside nofun nofun
  | choose hat hf _ hb hp₁ hq =>
      obtain ⟨hpath, hfresh⟩ := hc.of_unchosen hat hf
      have hne := l.ne hat.stmt nofun
      have hmem := mem_of_choice hb
      have hidle := hfresh.child_of_not_sequence ht hpath.under hat.stmt rfl nofun hmem
      have hfork := ht.fork_eq hpath.under hat.stmt rfl
      have hstands := h.stands.of_armed ht hl hpath hne hfork hmem hidle hp₁ hq
      exact Holds.aside (.of_stands hstands nofun) nofun nofun
  | chooseNone hat _ _ _ hp₁ hq =>
      rw [finish?_setFrame? hp₁] at hq
      exact Holds.aside (.of_stands (h.finished ht hl hc hat nofun hq) nofun) nofun nofun
  | @list id _ _ _ _ _ vs _ _ hat hf hv hq =>
      obtain ⟨hpath, hfresh⟩ := hc.of_unlisted hat hf
      by_cases heq : l.id = id
      · subst heq
        cases l.stmt.symm.trans hat.stmt
        obtain rfl := h.stands.eq_resting (.inr hfresh)
        have hstands := Stands.of_listed ht hl hfresh hq
        exact ⟨_, .of_stands hstands nofun, .lists rfl hv⟩
      · have hstands := h.stands.of_setFrame? ht hl hpath heq hq
        refine Holds.aside (.of_stands hstands nofun) ?_ nofun
        rintro _ ⟨⟩
        exact heq rfl
  | check hat hf _ hp₁ hq =>
      obtain ⟨hpath, hh⟩ := hc.of_atHead hat
      have hne := l.ne hat.stmt nofun
      obtain ⟨-, hidle, -⟩ := hh.while_check ht hpath.under hat.stmt
        fun h => hf ((frame_eq _ _).trans h)
      have hfork := ht.fork_eq hpath.under hat.stmt rfl
      have hstands := h.stands.of_armed ht hl hpath hne hfork (by simp) hidle hp₁ hq
      exact Holds.aside (.of_stands hstands nofun) nofun nofun
  | stop hat hf _ hq =>
      obtain ⟨hpath, hh⟩ := hc.of_atHead hat
      have hne := l.ne hat.stmt nofun
      obtain ⟨-, hidle, -⟩ := hh.while_check ht hpath.under hat.stmt
        fun h => hf ((frame_eq _ _).trans h)
      refine Holds.aside (.of_stands ?_ nofun) nofun nofun
      refine h.stands.of_cleared ht hl hpath hne (cleared_of_disarm? hq) ?_
      exact h.stands.resting_of_children ht hpath.under (Tree.children?_eq hat.stmt)
        (List.forall_mem_singleton.mpr hidle) hne
  | @visit id _ _ _ _ _ vs i v _ _ _ hat hf hi hg hp₁ hq =>
      obtain ⟨hpath, hh⟩ := hc.of_atHead hat
      rw [frame_eq] at hf
      obtain ⟨hn', hidle⟩ := hh.forEach_next hat.stmt hf
      have hfork := ht.fork_eq hpath.under hat.stmt rfl
      by_cases heq : l.id = id
      · subst heq
        cases l.stmt.symm.trans hat.stmt
        obtain rfl := h.stands.eq_head hf
        obtain ⟨hfresh, hn, -, -⟩ := armed_child ht hpath.under hfork (by simp) hp₁ hq
        rw [hn'] at hn
        have hlt := (List.getElem?_eq_some_iff.mp hi).1
        exact ⟨_, .of_stands (.round hn hlt) nofun, .binds rfl hi hg hidle hfresh⟩
      · have hstands := h.stands.of_armed ht hl hpath heq hfork (by simp) hidle hp₁ hq
        refine Holds.aside (.of_stands hstands nofun) nofun ?_
        rintro _ ⟨⟩
        exact heq rfl

/-- **Every step** takes a loop over the world on, or leaves it as it is. -/
theorem Holds.step {e : Option Event} (ht : t.Proper root) (hl : t.Under root l.id)
    (hc : c.Sound t root) (h : c.Holds t l s) (hstep : Step t c e c') :
    ∃ s', c'.Holds t l s' ∧ Advances t l ⟨c, e, c'⟩ s s' := by
  cases hstep with
  | quiet hstep => exact h.of_quiet ht hl hc hstep
  | deed _ hstep => exact h.of_deed ht hl hc hstep
  | faulted | refused | waitRefused | waitFaulted =>
      exact Holds.silent (.of_stands h.stands nofun)
  | waited howes _ hq =>
      obtain ⟨⟨_, hat⟩, -⟩ := howes.amount hc
      exact Holds.aside (.of_stands (h.finished ht hl hc hat nofun hq) nofun) nofun nofun
  | waiting howes _ hq =>
      obtain ⟨⟨_, hat⟩, -⟩ := howes.amount hc
      have hpath := (hc.of_at hat).1
      have hne := l.ne hat.stmt nofun
      exact Holds.silent (.of_stands (h.stands.of_setFrame? ht hl hpath hne hq) nofun)

end Config

end Machine

end ActorScript
