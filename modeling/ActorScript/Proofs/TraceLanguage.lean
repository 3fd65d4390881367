import ActorScript.Machine
import ActorScript.Proofs.TreeShape

/-!
# The trace language of a script

`Tree.Word` says which sequences of events the statements of a script give rise
to, by the structure of the script alone: no table, no budget, no world.  What a
condition yields and what a loop over the world finds is open.

A word is read with the innermost loop around it, which is the one that a
`leaveLoop` ends, and comes with a flag that tells whether it ends with a
`leaveLoop` on its way out.  In that case it is cut there, up to the loop.

## Main results

* `exists_word` — every statement of a proper tree has a word, unless it is a
  `leaveLoop` without a loop around it.
* `Word.unbroken` — without a loop around it a word is never cut.
-/

namespace ActorScript.Tree

/-- What words are said about. -/
inductive Phrase where
  /-- A statement from its start. -/
  | stmt (id : StmtId)
  /-- Statements one after the other. -/
  | body (ids : List StmtId)
  /-- A `while` from the head of a round. -/
  | rounds (id body : StmtId)
  /-- A loop over the world from the head of a round, with the candidates to come. -/
  | visits (id body : StmtId) (candidates : List Value)

/-- `t.Word loop φ w cut`: the phrase `φ`, with `loop` as the innermost loop around it,
can run through the events `w`; `cut` tells whether a `leaveLoop` ends them. -/
inductive Word (t : Tree) : Option StmtId → Phrase → List Event → Bool → Prop
  | sequence {loop : Option StmtId} {id : StmtId} {body : Slice} {cs : List StmtId}
      {w : List Event} {cut : Bool} (hs : t.stmt? id = some (.sequence body))
      (hcs : t.slice? body = some cs) (h : Word t loop (.body cs) w cut) :
      Word t loop (.stmt id) w cut
  | nil {loop : Option StmtId} : Word t loop (.body []) [] false
  | cons {loop : Option StmtId} {c : StmtId} {cs : List StmtId} {w w' : List Event}
      {cut : Bool} (h : Word t loop (.stmt c) w false)
      (h' : Word t loop (.body cs) w' cut) :
      Word t loop (.body (c :: cs)) (w ++ w') cut
  | cut {loop : Option StmtId} {c : StmtId} {cs : List StmtId} {w : List Event}
      (h : Word t loop (.stmt c) w true) : Word t loop (.body (c :: cs)) w true
  | assign {loop : Option StmtId} {id : StmtId} {target : Name} {value : ExprId}
      (hs : t.stmt? id = some (.assign target value)) (v : Value) :
      Word t loop (.stmt id) [.assigned id target v] false
  | print {loop : Option StmtId} {id : StmtId} {value : ExprId}
      (hs : t.stmt? id = some (.print value)) (v : Value) :
      Word t loop (.stmt id) [.printed id v] false
  | act {loop : Option StmtId} {id : StmtId} {action : Action ExprId} {command : Command}
      (hs : t.stmt? id = some (.act action)) (hc : command.word = action.word) :
      Word t loop (.stmt id) [.commanded id command] false
  | wait {loop : Option StmtId} {id : StmtId} {duration : ExprId}
      (hs : t.stmt? id = some (.wait duration)) :
      Word t loop (.stmt id) [.waited id] false
  | skip {loop : Option StmtId} {id : StmtId} (hs : t.stmt? id = some .skip) :
      Word t loop (.stmt id) [] false
  | leaveLoop {id loop : StmtId} (hs : t.stmt? id = some .leaveLoop) :
      Word t (some loop) (.stmt id) [.left id loop] true
  /-- A condition, and the branch that it chooses. -/
  | choose {loop : Option StmtId} {id b th : StmtId} {cond : ExprId} {el : Option StmtId}
      {holds : Bool} {w : List Event} {cut : Bool}
      (hs : t.stmt? id = some (.conditional cond th el))
      (hb : (if holds then some th else el) = some b) (h : Word t loop (.stmt b) w cut) :
      Word t loop (.stmt id) (.decided id holds :: w) cut
  | chooseNone {loop : Option StmtId} {id th : StmtId} {cond : ExprId}
      (hs : t.stmt? id = some (.conditional cond th none)) :
      Word t loop (.stmt id) [.decided id false] false
  | while {loop : Option StmtId} {id body : StmtId} {cond : ExprId} {w : List Event}
      (hs : t.stmt? id = some (.while cond body))
      (h : Word t loop (.rounds id body) w false) : Word t loop (.stmt id) w false
  | stop {loop : Option StmtId} {id body : StmtId} :
      Word t loop (.rounds id body) [.decided id false] false
  | check {loop : Option StmtId} {id body : StmtId} {w w' : List Event}
      (h : Word t (some id) (.stmt body) w false)
      (h' : Word t loop (.rounds id body) w' false) :
      Word t loop (.rounds id body) (.decided id true :: (w ++ w')) false
  | checkCut {loop : Option StmtId} {id body : StmtId} {w : List Event}
      (h : Word t (some id) (.stmt body) w true) :
      Word t loop (.rounds id body) (.decided id true :: w) false
  | forEach {loop : Option StmtId} {id : StmtId} {var : Name} {sel : Selector}
      {filter : Option ExprId} {sort : Option SortKey} {body : StmtId}
      {candidates : List Value} {w : List Event}
      (hs : t.stmt? id = some (.forEach var sel filter sort body))
      (h : Word t loop (.visits id body candidates) w false) :
      Word t loop (.stmt id) (.listed id candidates :: w) false
  | exhausted {loop : Option StmtId} {id body : StmtId} :
      Word t loop (.visits id body []) [] false
  | visit {loop : Option StmtId} {id body : StmtId} {v : Value} {vs : List Value}
      {w w' : List Event} (h : Word t (some id) (.stmt body) w false)
      (h' : Word t loop (.visits id body vs) w' false) :
      Word t loop (.visits id body (v :: vs)) (.visited id v :: (w ++ w')) false
  | visitCut {loop : Option StmtId} {id body : StmtId} {v : Value} {vs : List Value}
      {w : List Event} (h : Word t (some id) (.stmt body) w true) :
      Word t loop (.visits id body (v :: vs)) (.visited id v :: w) false

variable {t : Tree} {root id : StmtId} {loop : Option StmtId}
  {w : List Event} {cut : Bool}

/-- Without a loop around it nothing is cut. -/
theorem Word.unbroken {φ : Phrase} (h : t.Word none φ w cut) : cut = false := by
  generalize hloop : none = loop at h
  induction h with
  | sequence _ _ _ ih | choose _ _ _ ih => exact ih hloop
  | cons _ _ _ ih => exact ih hloop
  | cut _ ih => exact ih hloop
  | leaveLoop => cases hloop
  | nil | assign | print | act | wait | skip | chooseNone | «while» | stop | check
  | checkCut | forEach | exhausted | visit | visitCut => rfl

/-- Statements one after the other have a word if each of them has one. -/
theorem exists_word_body {cs : List StmtId}
    (h : ∀ c ∈ cs, ∃ w cut, t.Word loop (.stmt c) w cut) :
    ∃ w cut, t.Word loop (.body cs) w cut := by
  induction cs with
  | nil => exact ⟨_, _, .nil⟩
  | cons c cs ih =>
      obtain ⟨w, cut, hw⟩ := h c (by simp)
      cases cut with
      | true => exact ⟨_, _, .cut hw⟩
      | false =>
          obtain ⟨w', cut', hw'⟩ := ih fun d hd => h d (by simp [hd])
          exact ⟨_, _, .cons hw hw'⟩

/-- The visits to any candidates have a word if the body of the loop has one. -/
theorem exists_word_visits {body : StmtId}
    (h : ∃ w cut, t.Word (some id) (.stmt body) w cut) (vs : List Value) :
    ∃ w, t.Word loop (.visits id body vs) w false := by
  obtain ⟨w, cut, hw⟩ := h
  induction vs with
  | nil => exact ⟨_, .exhausted⟩
  | cons v vs ih =>
      cases cut with
      | true => exact ⟨_, .visitCut hw⟩
      | false =>
          obtain ⟨w', hw'⟩ := ih
          exact ⟨_, .visit hw hw'⟩

/-- **Every statement has a word**, unless it leaves a loop that is not there. -/
theorem exists_word (ht : t.Proper root) :
    ∀ {id : StmtId} {loop : Option StmtId}, t.Under root id →
      (loop = none → ¬ t.Exposed id) → ∃ w cut, t.Word loop (.stmt id) w cut := by
  intro id
  -- children stand before their parents
  induction id using Nat.strongRecOn with
  | ind id ih =>
      intro loop hid hexp
      obtain ⟨s, cs, hf⟩ := ht.fork id hid
      have hchild : ∀ c ∈ cs, s.isLoop = false → ∃ w cut,
          t.Word loop (.stmt c) w cut := by
        intro c hc hl
        refine ih c (hf.below c hc) (hid.trans (.of_child hf.children? hc))
          fun hn he => ?_
        exact hexp hn (.child hf.stmt hl hf.children hc he)
      have hs := hf.stmt
      have hcs := hf.children
      cases s with
      | sequence body =>
          obtain ⟨w, cut, hw⟩ := exists_word_body fun c hc => hchild c hc rfl
          exact ⟨_, _, .sequence hs hcs hw⟩
      | assign target value => exact ⟨_, _, .assign hs (.boolean true)⟩
      | conditional cond th el =>
          cases hcs
          obtain ⟨w, cut, hw⟩ := hchild th (by simp) rfl
          have hb : (if true then some th else el) = some th := rfl
          exact ⟨_, _, .choose hs hb hw⟩
      | «while» cond body => exact ⟨_, _, .while hs .stop⟩
      | forEach var sel filter sort body => exact ⟨_, _, .forEach hs .exhausted⟩
      | wait duration => exact ⟨_, _, .wait hs⟩
      | leaveLoop =>
          cases loop with
          | none => exact absurd (.here hs) (hexp rfl)
          | some loop => exact ⟨_, _, .leaveLoop hs⟩
      | print value => exact ⟨_, _, .print hs (.boolean true)⟩
      | skip => exact ⟨_, _, .skip hs⟩
      | act action =>
          obtain ⟨command, hc⟩ : ∃ command : Command, command.word = action.word := by
            cases action with
            | startMove => exact ⟨.startMove .left, rfl⟩
            | stopMove => exact ⟨.stopMove, rfl⟩
            | startJump => exact ⟨.startJump, rfl⟩
            | stopJump => exact ⟨.stopJump, rfl⟩
            | startDuck => exact ⟨.startDuck, rfl⟩
            | stopDuck => exact ⟨.stopDuck, rfl⟩
          exact ⟨_, _, .act hs hc⟩

end ActorScript.Tree
