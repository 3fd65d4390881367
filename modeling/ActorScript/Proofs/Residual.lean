import ActorScript.Proofs.Points
import ActorScript.Proofs.TraceLanguage

/-!
# What is left to do

A table in progress stands for the words that are still to come.  `Rest` gives
them for a statement by what the table holds under it, `Tail` for a task that
waits for a statement to be left, and `After` for a whole stack of tasks.

## Main results

* `Rest.word_of_fresh` — what a fresh statement has left is a word of its own.
* `Path.rest_split` — along a path, what the root has left is what the end of the
  path has left and then the tasks.
* `exists_rest` — where there is work to do there is always a way to end it.
-/

namespace ActorScript.Progress

open Machine (Task Control)

/-- `Tail t p loop task cut w cut'`: after the statement that the task waits for, which
was cut or not, the events `w` are left of the statement that the task belongs to. -/
inductive Tail (t : Tree) (p : Progress) :
    Option StmtId → Task → Bool → List Event → Bool → Prop
  | sequence {loop : Option StmtId} {id : StmtId} {rest : List StmtId} {w : List Event}
      {cut : Bool} (h : t.Word loop (.body rest) w cut) :
      Tail t p loop (.sequence id rest) false w cut
  | sequenceCut {loop : Option StmtId} {id : StmtId} {rest : List StmtId} :
      Tail t p loop (.sequence id rest) true [] true
  | branch {loop : Option StmtId} {id : StmtId} {cut : Bool} :
      Tail t p loop (.branch id) cut [] cut
  | whileRound {loop : Option StmtId} {id body : StmtId} {cond : ExprId} {w : List Event}
      (hs : t.stmt? id = some (.while cond body))
      (h : t.Word loop (.rounds id body) w false) :
      Tail t p loop (.round id) false w false
  | forEachRound {loop : Option StmtId} {id : StmtId} {var : Name} {sel : Selector}
      {filter : Option ExprId} {sort : Option SortKey} {body : StmtId}
      {candidates : List Value} {index : Nat} {w : List Event}
      (hs : t.stmt? id = some (.forEach var sel filter sort body))
      (hf : (p.node id).frame = .forEach candidates index .continuing)
      (h : t.Word loop (.visits id body (candidates.drop (index + 1))) w false) :
      Tail t p loop (.round id) false w false
  | broken {loop : Option StmtId} {id : StmtId} :
      Tail t p loop (.round id) true [] false

/-- `Rest t p loop id w cut`: the events `w` are left of the statement. -/
inductive Rest (t : Tree) (p : Progress) :
    Option StmtId → StmtId → List Event → Bool → Prop
  | fresh {loop : Option StmtId} {id : StmtId} {w : List Event} {cut : Bool}
      (h : p.Fresh t id) (hw : t.Word loop (.stmt id) w cut) : Rest t p loop id w cut
  | link {loop : Option StmtId} {id c : StmtId} {task : Task} {w w' : List Event}
      {cut cut' : Bool} (hl : Link t p id task c)
      (h : Rest t p (task.loop?.or loop) c w cut) (ht : Tail t p loop task cut w' cut') :
      Rest t p loop id (w ++ w') cut'
  | whileHead {loop : Option StmtId} {id body : StmtId} {cond : ExprId} {w : List Event}
      (hs : t.stmt? id = some (.while cond body))
      (hn : p.node id = { armed := true, frame := .while .fresh })
      (h : t.Word loop (.rounds id body) w false) : Rest t p loop id w false
  | forEachHead {loop : Option StmtId} {id : StmtId} {var : Name} {sel : Selector}
      {filter : Option ExprId} {sort : Option SortKey} {body : StmtId}
      {candidates : List Value} {index : Nat} {w : List Event}
      (hs : t.stmt? id = some (.forEach var sel filter sort body))
      (hn : p.node id = { armed := true, frame := .forEach candidates index .fresh })
      (h : t.Word loop (.visits id body (candidates.drop index)) w false) :
      Rest t p loop id w false
  | wait {loop : Option StmtId} {id : StmtId} {duration : ExprId} {owed : Number}
      (hs : t.stmt? id = some (.wait duration))
      (hn : p.node id = { armed := true, frame := .wait owed }) :
      Rest t p loop id [.waited id] false

/-- What is left of a sequence that a run passes through. -/
inductive RestBody (t : Tree) (p : Progress) (loop : Option StmtId) :
    List StmtId → List Event → Bool → Prop
  | fresh {cs : List StmtId} {w : List Event} {cut : Bool} (h : ∀ d ∈ cs, p.Fresh t d)
      (hw : t.Word loop (.body cs) w cut) : RestBody t p loop cs w cut
  | idle {c : StmtId} {cs : List StmtId} {w : List Event} {cut : Bool} (h : p.Idle t c)
      (hr : RestBody t p loop cs w cut) : RestBody t p loop (c :: cs) w cut
  | active {id c : StmtId} {cs : List StmtId} {w w' : List Event} {cut cut' : Bool}
      (h : Rest t p loop c w cut) (ht : Tail t p loop (.sequence id cs) cut w' cut') :
      RestBody t p loop (c :: cs) (w ++ w') cut'

/-- What the tasks of a stack have left, after a statement that was cut or not. -/
inductive After (t : Tree) (p : Progress) :
    List Task → List StmtId → Bool → List Event → Prop
  | nil : After t p [] [] false []
  | task {task : Task} {k : List Task} {ls : List StmtId} {w w' : List Event}
      {cut cut' : Bool} (h : Tail t p ls.head? task cut w cut')
      (h' : After t p k ls cut' w') :
      After t p (task :: k) (task.loop?.toList ++ ls) cut (w ++ w')

/-- What is left of a loop at the head of a round, or about to go on with one. -/
inductive HeadRest (t : Tree) (p : Progress) (loop : Option StmtId) (id : StmtId) :
    List Event → Prop
  | while {body : StmtId} {cond : ExprId} {w : List Event}
      (hs : t.stmt? id = some (.while cond body))
      (hf : (p.node id).frame ≠ .while .continuing)
      (h : t.Word loop (.rounds id body) w false) : HeadRest t p loop id w
  | forEach {var : Name} {sel : Selector} {filter : Option ExprId} {sort : Option SortKey}
      {body : StmtId} {candidates : List Value} {index : Nat} {w : List Event}
      (hs : t.stmt? id = some (.forEach var sel filter sort body))
      (hf : (p.node id).frame = .forEach candidates index .fresh)
      (h : t.Word loop (.visits id body (candidates.drop index)) w false) :
      HeadRest t p loop id w
  | round {c : StmtId} {w w' : List Event} {cut : Bool} (hl : Link t p id (.round id) c)
      (h : Rest t p (some id) c w cut) (ht : Tail t p loop (.round id) cut w' false) :
      HeadRest t p loop id (w ++ w')

variable {t : Tree} {p q : Progress} {root id c : StmtId} {loop : Option StmtId}
  {task : Task} {k : List Task} {ls : List StmtId} {w : List Event} {cut : Bool}

/-! ## Statements -/

theorem Rest.armed (h : Rest t p loop id w cut) : (p.node id).armed = true := by
  cases h with
  | fresh h => rw [h.node_eq]
  | link hl => exact hl.armed
  | whileHead _ hn | forEachHead _ hn | wait _ hn => rw [hn]

/-- A round never passes on that it was cut. -/
theorem Tail.round_uncut {cut' : Bool} (h : Tail t p loop (.round id) cut w cut') :
    cut' = false := by
  cases h <;> rfl

/-- A statement is at work on one child. -/
theorem Link.unique {task' : Task} {c' : StmtId} (h : Link t p id task c)
    (h' : Link t p id task' c') (ha : (p.node c).armed = true)
    (ha' : (p.node c').armed = true) : task = task' ∧ c = c' := by
  have hidle : ∀ {d : StmtId}, p.Idle t d → (p.node d).armed = true → False := by
    intro d hd harmed
    rw [hd.node_eq] at harmed
    cases harmed
  cases h with
  | @sequence body past later _ hs hcs hn hpast hlater =>
      cases h' with
      | @sequence body' past' later' _ hs' hcs' hn' hpast' hlater' =>
          cases hs.symm.trans hs'
          have heq : past ++ c :: later = past' ++ c' :: later' :=
            Option.some.inj (hcs.symm.trans hcs')
          -- neither child can be among those that the other one has behind it
          rcases List.append_eq_append_iff.mp heq with ⟨as, rfl, has⟩ | ⟨as, rfl, has⟩
          · cases as with
            | nil =>
                cases has
                exact ⟨rfl, rfl⟩
            | cons d as =>
                cases has
                exact (hidle (hpast' c (by simp)) ha).elim
          · cases as with
            | nil =>
                cases has
                exact ⟨rfl, rfl⟩
            | cons d as =>
                cases has
                exact (hidle (hpast c' (by simp)) ha').elim
      | thenBranch hs' | elseBranch hs' | whileRound hs' | forEachRound hs' =>
          cases hs.symm.trans hs'
  | thenBranch hs hn | elseBranch hs hn =>
      cases h' with
      | thenBranch hs' hn' | elseBranch hs' hn' =>
          cases hn.symm.trans hn'
          exact ⟨rfl, rfl⟩
      | sequence hs' | whileRound hs' | forEachRound hs' => cases hs.symm.trans hs'
  | whileRound hs hn =>
      cases h' with
      | whileRound hs' hn' =>
          cases hs.symm.trans hs'
          exact ⟨rfl, rfl⟩
      | sequence hs' | thenBranch hs' | elseBranch hs' | forEachRound hs' =>
          cases hs.symm.trans hs'
  | forEachRound hs hn =>
      cases h' with
      | forEachRound hs' hn' =>
          cases hs.symm.trans hs'
          exact ⟨rfl, rfl⟩
      | sequence hs' | thenBranch hs' | elseBranch hs' | whileRound hs' =>
          cases hs.symm.trans hs'

/-- A fresh statement with a link is a sequence at work on its first child. -/
theorem Link.of_fresh (h : Link t p id task c) (hf : p.Fresh t id) (ht : t.Proper root)
    (hid : t.Under root id) :
    ∃ body later, t.stmt? id = some (.sequence body) ∧
      t.slice? body = some (c :: later) ∧ task = .sequence id later ∧ p.Fresh t c := by
  have hn := hf.node_eq
  cases h with
  | @sequence body past later _ hs hcs _ hpast hlater =>
      have hfresh : ∀ d ∈ past ++ c :: later, p.Fresh t d :=
        fun d hd => hf.child_of_sequence ht hid hs hcs hd
      cases past with
      | nil => exact ⟨body, later, hs, hcs, rfl, hfresh c (by simp)⟩
      | cons d past =>
          have harmed := (hfresh d (by simp)).node_eq
          rw [(hpast d (by simp)).node_eq] at harmed
          cases harmed
  | thenBranch _ hn' | elseBranch _ hn' | whileRound _ hn' | forEachRound _ hn' =>
      cases hn.symm.trans hn'

/-- **What a fresh statement has left is a word of its own.** -/
theorem Rest.word_of_fresh (h : Rest t p loop id w cut) (ht : t.Proper root)
    (hid : t.Under root id) (hf : p.Fresh t id) : t.Word loop (.stmt id) w cut := by
  induction h with
  | fresh _ hw => exact hw
  | link hl _ htail ih =>
      obtain ⟨body, later, hs, hcs, rfl, hfc⟩ := hl.of_fresh hf ht hid
      have hw := ih (hid.trans hl.under) hfc
      cases htail with
      | sequence hr => exact .sequence hs hcs (.cons hw hr)
      | sequenceCut =>
          rw [List.append_nil]
          exact .sequence hs hcs (.cut hw)
  | whileHead _ hn | forEachHead _ hn | wait _ hn => cases hf.node_eq.symm.trans hn

/-- What a statement at work on a child has left: what the child has, and the task. -/
theorem Rest.of_link (h : Rest t p loop id w cut) (ht : t.Proper root)
    (hid : t.Under root id) (hl : Link t p id task c) (ha : (p.node c).armed = true) :
    ∃ w₁ cut₁ w₂, Rest t p (task.loop?.or loop) c w₁ cut₁ ∧
      Tail t p loop task cut₁ w₂ cut ∧ w = w₁ ++ w₂ := by
  cases h with
  | fresh hf hw =>
      obtain ⟨body, later, hs, hcs, rfl, hfc⟩ := hl.of_fresh hf ht hid
      cases hw with
      | sequence hs' hcs' hw =>
          cases hs.symm.trans hs'
          cases hcs.symm.trans hcs'
          cases hw with
          | cons hw hr => exact ⟨_, _, _, .fresh hfc hw, .sequence hr, rfl⟩
          | cut hw => exact ⟨_, _, _, .fresh hfc hw, .sequenceCut, by simp⟩
      | assign hs' | print hs' | act hs' | wait hs' | skip hs'
      | leaveLoop hs' | choose hs'
      | chooseNone hs' | «while» hs' | forEach hs' => cases hs.symm.trans hs'
  | link hl' hr htail =>
      obtain ⟨rfl, rfl⟩ := hl.unique hl' ha hr.armed
      exact ⟨_, _, _, hr, htail, rfl⟩
  | whileHead _ hn | forEachHead _ hn | wait _ hn =>
      cases hl with
      | sequence _ _ hn' | thenBranch _ hn' | elseBranch _ hn' | whileRound _ hn'
      | forEachRound _ hn' => cases hn.symm.trans hn'

/-! ## Sequences -/

/-- What fresh statements one after the other have left. -/
theorem RestBody.word_of_fresh {cs : List StmtId} (h : RestBody t p loop cs w cut)
    (ht : t.Proper root) (hid : ∀ d ∈ cs, t.Under root d) (hf : ∀ d ∈ cs, p.Fresh t d) :
    t.Word loop (.body cs) w cut := by
  cases h with
  | fresh _ hw => exact hw
  | @idle c cs _ _ h _ =>
      have hn := (hf c (by simp)).node_eq
      rw [h.node_eq] at hn
      cases hn
  | @active _ c cs _ _ _ _ h htail =>
      have hw := h.word_of_fresh ht (hid c (by simp)) (hf c (by simp))
      cases htail with
      | sequence hr => exact .cons hw hr
      | sequenceCut =>
          rw [List.append_nil]
          exact .cut hw

/-- What a sequence in progress has left, as a run that passes through it finds it. -/
theorem RestBody.split (id : StmtId) {past later : List StmtId}
    (h : RestBody t p loop (past ++ c :: later) w cut) (hpast : ∀ d ∈ past, p.Idle t d)
    (ha : (p.node c).armed = true) :
    ∃ w₁ cut₁ w₂, Rest t p loop c w₁ cut₁ ∧
      Tail t p loop (.sequence id later) cut₁ w₂ cut ∧ w = w₁ ++ w₂ := by
  induction past with
  | nil =>
      cases h with
      | fresh hf hw =>
          have hfc := hf c (by simp)
          cases hw with
          | cons hw hr => exact ⟨_, _, _, .fresh hfc hw, .sequence hr, rfl⟩
          | cut hw => exact ⟨_, _, _, .fresh hfc hw, .sequenceCut, by simp⟩
      | idle h _ =>
          rw [h.node_eq] at ha
          cases ha
      | active h htail =>
          cases htail with
          | sequence hr => exact ⟨_, _, _, h, .sequence hr, rfl⟩
          | sequenceCut => exact ⟨_, _, _, h, .sequenceCut, rfl⟩
  | cons d past ih =>
      have hidle := (hpast d (by simp)).node_eq
      cases h with
      | fresh hf _ =>
          have hn := (hf d (by simp)).node_eq
          rw [hidle] at hn
          cases hn
      | idle _ hr => exact ih hr fun e he => hpast e (by simp [he])
      | active h _ =>
          have harmed := h.armed
          rw [hidle] at harmed
          cases harmed

/-- What a sequence has left that a run enters. -/
theorem RestBody.rest (ht : t.Proper root) (hid : t.Under root id) (ha : p.Active t id)
    {body : Slice} {cs : List StmtId} (hs : t.stmt? id = some (.sequence body))
    (hcs : t.slice? body = some cs) (h : RestBody t p loop cs w cut) :
    Rest t p loop id w cut := by
  have hf : t.Fork id (.sequence body) cs := ht.fork_eq hid hs hcs
  cases ha with
  | fresh hfresh =>
      refine .fresh hfresh (.sequence hs hcs (h.word_of_fresh ht ?_ ?_))
      · exact fun d hd => hid.trans (.of_child hf.children? hd)
      · exact fun d hd => hfresh.child_of_sequence ht hid hs hcs hd
  | link hl hc =>
      cases hl with
      | sequence hs' hcs' hn hpast hlater =>
          cases hs.symm.trans hs'
          cases hcs.symm.trans hcs'
          obtain ⟨w₁, cut₁, w₂, hr, htail, rfl⟩ := h.split id hpast hc.armed
          exact .link (.sequence hs hcs hn hpast hlater) hr htail
      | thenBranch hs' | elseBranch hs' | whileRound hs' | forEachRound hs' =>
          cases hs.symm.trans hs'
  | whileHead hs' | forEachHead hs' | wait hs' => cases hs.symm.trans hs'

/-! ## Loops -/

/-- What a loop has left that a run goes on with. -/
theorem HeadRest.rest (h : HeadRest t p loop id w) (hh : Head t p id) :
    Rest t p loop id w false := by
  cases h with
  | «while» hs hf hw =>
      cases hh with
      | fresh _ hfresh => exact .fresh hfresh (.while hs hw)
      | «while» hs' hn _ => exact .whileHead hs hn hw
      | forEach hs' => cases hs.symm.trans hs'
      | round hl _ =>
          cases hl with
          | whileRound _ hn =>
              rw [hn] at hf
              exact absurd rfl hf
          | forEachRound hs' => cases hs.symm.trans hs'
  | forEach hs hf hw => exact .forEachHead hs (hh.forEach_next hs hf).1 hw
  | round hl hr htail => exact .link hl hr htail

/-- A loop over the world at the head of a round goes on with its visits. -/
theorem HeadRest.visits (h : HeadRest t p loop id w) {var : Name} {sel : Selector}
    {filter : Option ExprId} {sort : Option SortKey} {body : StmtId}
    {candidates : List Value} {index : Nat}
    (hs : t.stmt? id = some (.forEach var sel filter sort body))
    (hf : (p.node id).frame = .forEach candidates index .fresh) :
    t.Word loop (.visits id body (candidates.drop index)) w false := by
  cases h with
  | «while» hs' => cases hs.symm.trans hs'
  | forEach hs' hf' hw =>
      cases hs.symm.trans hs'
      cases hf.symm.trans hf'
      exact hw
  | round hl _ _ =>
      cases hl with
      | whileRound hs' => cases hs.symm.trans hs'
      | forEachRound _ hn =>
          rw [hn] at hf
          cases hf

/-- A loop that has just armed its body has a word of the body left, and then what comes
after the round. -/
theorem HeadRest.of_round (h : HeadRest t p loop id w) (ht : t.Proper root)
    (hid : t.Under root id) (hl : Link t p id (.round id) c) (hf : p.Fresh t c) :
    ∃ w₁ cut w₂, t.Word (some id) (.stmt c) w₁ cut ∧
      Tail t p loop (.round id) cut w₂ false ∧ w = w₁ ++ w₂ := by
  cases h with
  | «while» hs hne =>
      cases hl with
      | whileRound _ hn =>
          rw [hn] at hne
          exact absurd rfl hne
      | forEachRound hs' => cases hs.symm.trans hs'
  | forEach hs hf' =>
      cases hl with
      | whileRound hs' => cases hs.symm.trans hs'
      | forEachRound _ hn =>
          rw [hn] at hf'
          cases hf'
  | round hl' hr htail =>
      have harmed : (p.node c).armed = true := by rw [hf.node_eq]
      obtain ⟨-, rfl⟩ := hl.unique hl' harmed hr.armed
      exact ⟨_, _, _, hr.word_of_fresh ht (hid.trans hl.under) hf, htail, rfl⟩

/-- A `while` that has to check its condition has its rounds left. -/
theorem Rest.rounds (h : Rest t p loop id w cut) {body : StmtId} {cond : ExprId}
    (hs : t.stmt? id = some (.while cond body))
    (hf : (p.node id).frame ≠ .while .continuing) :
    t.Word loop (.rounds id body) w cut ∧ cut = false := by
  cases h with
  | fresh _ hw =>
      cases hw with
      | «while» hs' hw =>
          cases hs.symm.trans hs'
          exact ⟨hw, rfl⟩
      | sequence hs' | assign hs' | print hs' | act hs' | wait hs' | skip hs'
      | leaveLoop hs'
      | choose hs' | chooseNone hs' | forEach hs' => cases hs.symm.trans hs'
  | link hl _ _ =>
      cases hl with
      | whileRound _ hn =>
          rw [hn] at hf
          exact absurd rfl hf
      | sequence hs' | thenBranch hs' | elseBranch hs' | forEachRound hs' =>
          cases hs.symm.trans hs'
  | whileHead hs' _ hw =>
      cases hs.symm.trans hs'
      exact ⟨hw, rfl⟩
  | forEachHead hs' | wait hs' => cases hs.symm.trans hs'

/-- A loop over the world at the head of a round has its visits left. -/
theorem Rest.visits (h : Rest t p loop id w cut) {var : Name} {sel : Selector}
    {filter : Option ExprId} {sort : Option SortKey} {body : StmtId}
    {candidates : List Value} {index : Nat}
    (hs : t.stmt? id = some (.forEach var sel filter sort body))
    (hn : p.node id = { armed := true, frame := .forEach candidates index .fresh }) :
    t.Word loop (.visits id body (candidates.drop index)) w cut ∧ cut = false := by
  cases h with
  | fresh hf _ => cases hf.node_eq.symm.trans hn
  | link hl _ _ =>
      cases hl with
      | sequence _ _ hn' | thenBranch _ hn' | elseBranch _ hn' | whileRound _ hn'
      | forEachRound _ hn' => cases hn.symm.trans hn'
  | forEachHead hs' hn' hw =>
      cases hs.symm.trans hs'
      cases hn.symm.trans hn'
      exact ⟨hw, rfl⟩
  | whileHead _ hn' | wait _ hn' => cases hn.symm.trans hn'

/-- A `wait` in progress has its end left. -/
theorem Rest.waited (h : Rest t p loop id w cut) {owed : Number}
    (hn : p.node id = { armed := true, frame := .wait owed }) :
    w = [.waited id] ∧ cut = false := by
  cases h with
  | fresh hf _ => cases hf.node_eq.symm.trans hn
  | link hl _ _ =>
      cases hl with
      | sequence _ _ hn' | thenBranch _ hn' | elseBranch _ hn' | whileRound _ hn'
      | forEachRound _ hn' => cases hn.symm.trans hn'
  | wait => exact ⟨rfl, rfl⟩
  | whileHead _ hn' | forEachHead _ hn' => cases hn.symm.trans hn'

/-! ## Stacks -/

theorem After.of_cons (h : After t p (task :: k) ls cut w) :
    ∃ ls' w₁ cut' w₂, ls = task.loop?.toList ++ ls' ∧
      Tail t p ls'.head? task cut w₁ cut' ∧
      After t p k ls' cut' w₂ ∧ w = w₁ ++ w₂ := by
  cases h with
  | task h h' => exact ⟨_, _, _, _, rfl, h, h', rfl⟩

/-- The loops of a stack are those of its tasks. -/
theorem After.of_task
    (h : After t p (task :: k) (task.loop?.toList ++ ls) cut w) :
    ∃ w₁ cut' w₂, Tail t p ls.head? task cut w₁ cut' ∧ After t p k ls cut' w₂ ∧
      w = w₁ ++ w₂ := by
  obtain ⟨ls', w₁, cut', w₂, hls, htail, hafter, hw⟩ := h.of_cons
  cases List.append_cancel_left hls
  exact ⟨w₁, cut', w₂, htail, hafter, hw⟩

/-- The rounds on the way to a statement belong to loops that do not stand under it. -/
theorem Path.round_not_under (h : Path t p root id k ls) (ht : t.Proper root) {j : StmtId}
    (hj : .round j ∈ k) : ¬ t.Under id j := by
  induction h with
  | root => cases hj
  | @link id child task k ls h hl ih =>
      intro hunder
      rcases List.mem_cons.mp hj with rfl | hj
      · have hid : j = id := by cases hl <;> rfl
        subst hid
        obtain ⟨s, cs, hs, hcs, hmem⟩ := hl.mem
        exact ht.not_under_child h.under (ht.fork_eq h.under hs hcs) hmem hunder
      · exact ih hj (hl.under.trans hunder)

/-- What tasks have left depends on the entries of loops in a round only. -/
theorem Tail.congr {cut' : Bool} (h : Tail t q loop task cut w cut')
    (hq : ∀ j, task = .round j → q.node j = p.node j) :
    Tail t p loop task cut w cut' := by
  cases h with
  | sequence hw => exact .sequence hw
  | sequenceCut => exact .sequenceCut
  | branch => exact .branch
  | whileRound hs hw => exact .whileRound hs hw
  | forEachRound hs hf hw =>
      rw [hq _ rfl] at hf
      exact .forEachRound hs hf hw
  | broken => exact .broken

theorem After.congr (h : After t q k ls cut w)
    (hq : ∀ j, .round j ∈ k → q.node j = p.node j) : After t p k ls cut w := by
  induction h with
  | nil => exact .nil
  | task h _ ih =>
      refine .task (h.congr fun j hj => hq j (by simp [hj])) (ih fun j hj => hq j ?_)
      exact List.mem_cons_of_mem _ hj

/-- What the tasks on a path have left does not depend on what happens at its end. -/
theorem Path.after_congr {cut : Bool} (h : Path t p root id k ls) (ht : t.Proper root)
    (hq : AgreeOff t id p q) (ha : After t q k ls cut w) : After t p k ls cut w :=
  ha.congr fun j hj => hq j (h.round_not_under ht hj)

/-- **Along a path**, what the root has left is what the end of the path has left, and
then the tasks. -/
theorem Path.rest_split (h : Path t p root id k ls) (ht : t.Proper root)
    (ha : (p.node id).armed = true) (hr : Rest t p none root w false) :
    ∃ w₁ cut w₂, Rest t p ls.head? id w₁ cut ∧ After t p k ls cut w₂ ∧ w = w₁ ++ w₂ := by
  induction h with
  | root => exact ⟨w, false, [], hr, .nil, by simp⟩
  | @link id child task k ls h hl ih =>
      obtain ⟨w₁, cut, w₂, hrest, hafter, rfl⟩ := ih hl.armed
      obtain ⟨w₃, cut₃, w₄, hrest', htail, rfl⟩ := hrest.of_link ht h.under hl ha
      refine ⟨w₃, cut₃, w₄ ++ w₂, ?_, .task htail hafter, by simp⟩
      have hhead : (task.loop?.toList ++ ls).head? = task.loop?.or ls.head? := by
        cases task <;> rfl
      rw [hhead]
      exact hrest'

/-! ## There is always a way on -/

/-- What a task can have left. -/
private theorem exists_tail (ht : t.Proper root) (hid : t.Under root id)
    (hl : Link t p id task c) (hexp : loop = none → ¬ t.Exposed id)
    (cut : Bool) : ∃ w cut', Tail t p loop task cut w cut' := by
  have hword : ∀ {loop d}, t.Under id d → (loop = none → ¬ t.Exposed d) →
      ∃ w cut, t.Word loop (.stmt d) w cut :=
    fun hd he => Tree.exists_word ht (hid.trans hd) he
  cases hl with
  | @sequence body past later _ hs hcs hn hpast hlater =>
      cases cut with
      | true => exact ⟨_, _, .sequenceCut⟩
      | false =>
          have hlater' : ∀ d ∈ later, ∃ w cut, t.Word loop (.stmt d) w cut := by
            intro d hd
            have hmem : d ∈ past ++ c :: later := by simp [hd]
            refine hword (.of_child ((Tree.children?_eq hs).trans hcs) hmem)
              fun hloop he => ?_
            exact hexp hloop (.child hs rfl hcs hmem he)
          obtain ⟨w, cut, hw⟩ := Tree.exists_word_body hlater'
          exact ⟨_, _, .sequence hw⟩
  | thenBranch | elseBranch => exact ⟨_, _, .branch⟩
  | whileRound hs hn =>
      cases cut with
      | true => exact ⟨_, _, .broken⟩
      | false => exact ⟨_, _, .whileRound hs .stop⟩
  | forEachRound hs hn hi =>
      cases cut with
      | true => exact ⟨_, _, .broken⟩
      | false =>
          have hbody : ∃ w cut, t.Word (some id) (.stmt c) w cut :=
            hword (.of_child (Tree.children?_eq hs) (by simp)) (fun h => by cases h)
          obtain ⟨w, hw⟩ := Tree.exists_word_visits hbody _
          exact ⟨_, _, .forEachRound hs (by rw [hn]) hw⟩

/-- **Where there is work to do there is a way to end it.** -/
theorem exists_rest (ht : t.Proper root) (ha : p.Active t id) :
    ∀ {loop : Option StmtId}, t.Under root id → (loop = none → ¬ t.Exposed id) →
      ∃ w cut, Rest t p loop id w cut := by
  induction ha with
  | fresh h =>
      intro loop hid hexp
      obtain ⟨w, cut, hw⟩ := Tree.exists_word ht hid hexp
      exact ⟨w, cut, .fresh h hw⟩
  | @link id child task hl _ ih =>
      intro loop hid hexp
      obtain ⟨w, cut, hr⟩ := @ih (task.loop?.or loop) (hid.trans hl.under) (by
        intro hnone he
        obtain ⟨s, cs, hs, hcs, hmem⟩ := hl.mem
        cases hl with
        | sequence hs' | thenBranch hs' | elseBranch hs' =>
            cases hs.symm.trans hs'
            exact hexp hnone (.child hs rfl hcs hmem he)
        | whileRound | forEachRound => cases hnone)
      obtain ⟨w', cut', htail⟩ := exists_tail ht hid hl hexp cut
      exact ⟨_, _, .link hl hr htail⟩
  | whileHead hs hn =>
      intro loop _ _
      exact ⟨_, _, .whileHead hs hn .stop⟩
  | @forEachHead id _ _ _ _ body candidates index hs hn _ _ =>
      intro loop hid _
      have hunder : t.Under root body :=
        hid.trans (.of_child (Tree.children?_eq hs) (by simp))
      have hbody : ∃ w cut, t.Word (some id) (.stmt body) w cut :=
        Tree.exists_word ht hunder (fun h => by cases h)
      obtain ⟨w, hw⟩ := Tree.exists_word_visits hbody (candidates.drop index)
      exact ⟨_, _, .forEachHead hs hn hw⟩
  | wait hs hn =>
      intro loop _ _
      exact ⟨_, _, .wait hs hn⟩

/-- Without a loop around it what is left is not cut. -/
theorem Rest.unbroken (h : Rest t p none id w cut) : cut = false := by
  generalize hloop : none = loop at h
  induction h with
  | fresh _ hw =>
      subst hloop
      exact hw.unbroken
  | link hl _ htail ih =>
      subst hloop
      cases htail with
      | sequence hw => exact hw.unbroken
      | sequenceCut => exact ih rfl
      | branch => exact ih rfl
      | whileRound | forEachRound | broken => rfl
  | whileHead | forEachHead | wait => rfl

end ActorScript.Progress
