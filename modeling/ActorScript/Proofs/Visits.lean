import ActorScript.Proofs.LoopStages
import ActorScript.Proofs.Traces

/-!
# What a loop over the world visits

A loop over the world lists its candidates once and then goes through the list, whatever
becomes of the world.  Here the moves of all ticks of a program are put in a row, and what
`Advances` says of each of them is put together: an activation of the loop reaches from
the move that lists the candidates to the one that ends it, through any number of ticks.

## Main results

* `Tree.Word.goesThrough` — in a word of the script a list is followed by the visits to
  it.
* `Passage.activation` — an activation keeps its list and binds the candidates in order.
* `forEach_visits_frozen_list` — the same for every history of a program.
-/

namespace ActorScript

/-! ## Words -/

namespace Tree

variable {t : Tree} {l : t.WorldLoop} {w w' : List Event}

/-- Wherever the loop lists candidates, what follows begins with the visits to them. -/
def GoesThrough (t : Tree) (l : t.WorldLoop) (w : List Event) : Prop :=
  ∀ vs later, .listed l.id vs :: later <:+ w →
    ∃ loop w', w' <+: later ∧ t.Word loop (.visits l.id l.body vs) w' false

theorem GoesThrough.nil : t.GoesThrough l [] := by
  intro vs later h
  simp at h

theorem GoesThrough.cons {e : Event} (h : t.GoesThrough l w)
    (he : ∀ vs, e = .listed l.id vs →
      ∃ loop w', w' <+: w ∧ t.Word loop (.visits l.id l.body vs) w' false) :
    t.GoesThrough l (e :: w) := by
  intro vs later hlater
  rcases List.suffix_cons_iff.mp hlater with heq | hlater
  · cases heq
    exact he vs rfl
  · exact h vs later hlater

theorem GoesThrough.append (h : t.GoesThrough l w) (h' : t.GoesThrough l w') :
    t.GoesThrough l (w ++ w') := by
  induction w with
  | nil => exact h'
  | cons e w ih =>
      refine (ih fun vs later hlater =>
        h vs later (hlater.trans (List.suffix_cons e w))).cons ?_
      rintro vs rfl
      obtain ⟨loop, w₁, hw₁, hword⟩ := h vs w (List.suffix_refl _)
      exact ⟨loop, w₁, hw₁.trans (List.prefix_append w w'), hword⟩

/-- In a word **a list is followed by the visits to it**. -/
theorem Word.goesThrough {loop : Option StmtId} {φ : Phrase} {cut : Bool}
    (h : t.Word loop φ w cut) : t.GoesThrough l w := by
  induction h with
  | nil | skip | exhausted => exact .nil
  | assign | print | act | wait | leaveLoop | chooseNone | stop => exact .cons .nil nofun
  | sequence _ _ _ ih | cut _ ih | «while» _ _ ih => exact ih
  | cons _ _ ih ih' => exact ih.append ih'
  | choose _ _ _ ih | checkCut _ ih | visitCut _ ih => exact ih.cons nofun
  | check _ _ ih ih' | visit _ _ ih ih' => exact (ih.append ih').cons nofun
  | @forEach _ _ _ _ _ _ _ _ w hs h ih =>
      refine ih.cons ?_
      rintro _ ⟨⟩
      cases l.stmt.symm.trans hs
      exact ⟨_, w, List.prefix_refl w, h⟩

end Tree

/-! ## Passages -/

namespace Progress

/-- The list that a loop is at, if it has one. -/
def Stage.candidates? : Stage → Option (List Value)
  | .resting => none
  | .head vs _ => some vs
  | .round vs _ => some vs

/-- The candidates that a loop has come to. -/
def Stage.met : Stage → List Value
  | .resting => []
  | .head vs i => vs.take i
  | .round vs i => vs.take (i + 1)

theorem Stage.met_prefix {s : Stage} {vs : List Value} (hvs : s.candidates? = some vs) :
    s.met <+: vs := by
  cases s with
  | resting => cases hvs
  | head | round =>
      cases hvs
      exact List.take_prefix ..

theorem Stands.exists_frame {t : Tree} {p : Progress} {l : t.WorldLoop} {s : Stage}
    {vs : List Value} (h : Stands t p l s) (hvs : s.candidates? = some vs) :
    ∃ i phase, p.frame l.id = .forEach vs i phase := by
  rw [frame_eq]
  cases h with
  | resting => cases hvs
  | head hn | round hn =>
      cases hvs
      exact ⟨_, _, by rw [hn]⟩

end Progress

namespace Machine

open Progress

variable {W : Type} [World W] {t : Tree} {root : StmtId} {l : t.WorldLoop}
  {c c' : Config W} {s s' s'' : Stage} {m : Transition W} {ms ms' : List (Transition W)}
  {vs : List Value}

/-- The value that a move binds the variable of a loop to. -/
def Transition.bound? (m : Transition W) (id : StmtId) : Option Value :=
  match m.event with
  | some (.visited id' v) => if id' = id then some v else none
  | _ => none

/-- The values that the variable of a loop is bound to in the course of some moves. -/
def bindings (id : StmtId) (ms : List (Transition W)) : List Value :=
  ms.filterMap (·.bound? id)

omit [World W] in
theorem Transition.bound?_eq_none {id : StmtId}
    (h : ∀ v, m.event ≠ some (.visited id v)) :
    m.bound? id = none := by
  unfold bound?
  split
  · rename_i id' v he
    refine if_neg ?_
    rintro rfl
    exact h v he
  · rfl

/-- The moves take the loop from one stage to another, and the table has it at the stage
that it has come to before each of them. -/
inductive Passage (t : Tree) (l : t.WorldLoop) :
    Stage → List (Transition W) → Stage → Prop
  | nil (s : Stage) : Passage t l s [] s
  | cons {s s' s'' : Stage} {m : Transition W} {ms : List (Transition W)}
      (hs : Stands t m.before.memory.progress l s) (hm : Advances t l m s s')
      (h : Passage t l s' ms s'') : Passage t l s (m :: ms) s''

theorem Passage.append (h : Passage t l s ms s') (h' : Passage t l s' ms' s'') :
    Passage t l s (ms ++ ms') s'' := by
  induction h with
  | nil => exact h'
  | cons hs hm _ ih => exact .cons hs hm (ih h')

/-- A run takes the loop through stages. -/
theorem Config.Holds.run (ht : t.Proper root) (hl : t.Under root l.id)
    (hc : c.Sound t root) (h : c.Holds t l s) (hrun : Run t c ms c') :
    ∃ s', c'.Holds t l s' ∧ Passage t l s ms s' := by
  induction hrun generalizing s with
  | refl => exact ⟨s, h, .nil s⟩
  | step _ hstep _ ih =>
      obtain ⟨s₁, h₁, hm⟩ := h.step ht hl hc hstep
      obtain ⟨s', h', hpassage⟩ := ih (hc.step ht hstep) h₁
      exact ⟨s', h', .cons h.stands hm hpassage⟩

/-- Variables are written by assignments and by the bindings of loops alone. -/
theorem Config.Step.globals_eq {e : Option Event} (h : Step t c e c') :
    (∃ id target v, e = some (.assigned id target v)) ∨
      (∃ id v, e = some (.visited id v)) ∨
      c'.memory.globals = c.memory.globals := by
  cases h with
  | quiet h => exact .inr (.inr (by cases h <;> rfl))
  | deed _ h =>
      cases h with
      | assign => exact .inl ⟨_, _, _, rfl⟩
      | visit => exact .inr (.inl ⟨_, _, rfl⟩)
      | print | act | leaveLoop | choose | chooseNone | list | check | stop =>
          exact .inr (.inr rfl)
  | faulted | refused | waitRefused | waitFaulted | waited | waiting =>
      exact .inr (.inr rfl)

/-! ## Activations -/

/-- How an activation goes on, or ends, with a move: the list stays the same, and what has
been met grows by what is bound; or the loop is at rest after the move. -/
theorem Advances.of_candidates (h : Advances t l m s s') (hvs : s.candidates? = some vs) :
    (∀ us, m.event ≠ some (.listed l.id us)) ∧
    ((s'.candidates? = some vs ∧ s'.met = s.met ++ (m.bound? l.id).toList) ∨
      (m.bound? l.id = none ∧ m.after.memory.progress.Idle t l.id ∧
        (s.met = vs ∨ m.before.control = .leave (.leaving l.id)))) := by
  cases h with
  | stays hlisted hvisited =>
      rw [Transition.bound?_eq_none hvisited]
      exact ⟨hlisted, .inl ⟨hvs, by simp⟩⟩
  | lists => cases hvs
  | @binds _ i v he hi =>
      cases hvs
      have hbound : m.bound? l.id = some v := by simp [Transition.bound?, he]
      rw [he, hbound]
      refine ⟨nofun, .inl ⟨rfl, ?_⟩⟩
      rw [Stage.met, Stage.met, List.take_add_one, hi]
  | completes he =>
      cases hvs
      rw [Transition.bound?_eq_none (by simp [he]), he]
      exact ⟨nofun, .inl ⟨rfl, by simp [Stage.met]⟩⟩
  | exhausted he hi hidle =>
      cases hvs
      rw [Transition.bound?_eq_none (by simp [he]), he]
      refine ⟨nofun, .inr ⟨rfl, hidle, .inl ?_⟩⟩
      exact List.take_of_length_le (List.getElem?_eq_none_iff.mp hi)
  | broken he hc hidle =>
      cases hvs
      rw [Transition.bound?_eq_none (by simp [he]), he]
      exact ⟨nofun, .inr ⟨rfl, hidle, .inr hc⟩⟩

/-- An activation of a loop, from the listing of the candidates `vs` on. -/
structure Activation (t : Tree) (l : t.WorldLoop) (vs : List Value)
    (act : List (Transition W)) : Prop where
  /-- The list stays as it is. -/
  frozen : ∀ m ∈ act, ∃ i phase, m.before.memory.progress.frame l.id = .forEach vs i phase
  /-- No other list is gathered. -/
  unlisted : ∀ m ∈ act, ∀ us, m.event ≠ some (.listed l.id us)
  /-- The variable is bound to the candidates in their order, to each at most once. -/
  bound : bindings l.id act <+: vs

/-- How an activation ends.  The moves `rest` come after it and leave the loop at the
stage `s`. -/
inductive Ends (t : Tree) (l : t.WorldLoop) (vs : List Value)
    (act rest : List (Transition W)) (s : Stage) : Prop
  /-- It does not: the moves break off in the middle of it. -/
  | underway (hrest : rest = []) (hs : s.candidates? = some vs)
      (hmet : bindings l.id act = s.met)
  /-- All candidates have been visited. -/
  | exhausted {past : List (Transition W)} {last : Transition W}
      (hact : act = past ++ [last]) (hidle : last.after.memory.progress.Idle t l.id)
      (hall : bindings l.id act = vs)
  /-- A `leaveLoop` has come to the loop. -/
  | broken {past : List (Transition W)} {last : Transition W}
      (hact : act = past ++ [last]) (hidle : last.after.memory.progress.Idle t l.id)
      (hc : last.before.control = .leave (.leaving l.id))

/-- From a stage with a list on, the moves up to the end of the activation. -/
private theorem Passage.exists_activation (h : Passage t l s ms s')
    (hvs : s.candidates? = some vs) :
    ∃ act rest, ms = act ++ rest ∧
      (∀ m ∈ act, (∃ i phase, m.before.memory.progress.frame l.id = .forEach vs i phase) ∧
        ∀ us, m.event ≠ some (.listed l.id us)) ∧
      s.met ++ bindings l.id act <+: vs ∧
      ((rest = [] ∧ s'.candidates? = some vs ∧ s.met ++ bindings l.id act = s'.met) ∨
        ∃ past last, act = past ++ [last] ∧ last.after.memory.progress.Idle t l.id ∧
          (s.met ++ bindings l.id act = vs ∨
            last.before.control = .leave (.leaving l.id))) := by
  induction h with
  | nil s =>
      refine ⟨[], [], rfl, by simp, ?_, .inl ⟨rfl, hvs, by simp [bindings]⟩⟩
      simpa [bindings] using Stage.met_prefix hvs
  | @cons s s₁ s' m ms hs hm _ ih =>
      obtain ⟨hlisted, ⟨hvs₁, hmet⟩ | ⟨hbound, hidle, hwhy⟩⟩ := hm.of_candidates hvs
      · obtain ⟨act, rest, rfl, hact, hprefix, hends⟩ := ih hvs₁
        -- what the move binds stands before what the others bind
        have hbindings : s₁.met ++ bindings l.id act =
            s.met ++ bindings l.id (m :: act) := by
          rw [hmet, List.append_assoc]
          cases hb : m.bound? l.id <;> simp [bindings, hb]
        rw [hbindings] at hprefix hends
        refine ⟨m :: act, rest, rfl, ?_, hprefix, hends.imp_right ?_⟩
        · exact List.forall_mem_cons.mpr ⟨⟨hs.exists_frame hvs, hlisted⟩, hact⟩
        · rintro ⟨past, last, rfl, hlast⟩
          exact ⟨m :: past, last, rfl, hlast⟩
      · have hbindings : s.met ++ bindings l.id [m] = s.met := by simp [bindings, hbound]
        refine ⟨[m], ms, rfl, ?_, ?_, .inr ⟨[], m, rfl, hidle, ?_⟩⟩
        · simpa using ⟨hs.exists_frame hvs, hlisted⟩
        · rw [hbindings]
          exact Stage.met_prefix hvs
        · rwa [hbindings]

/-- **An activation** keeps its list, binds the candidates in order, and ends in one of
two ways. -/
theorem Passage.activation {later : List (Transition W)} {past : List (Transition W)}
    (h : Passage t l s (past ++ m :: later) s') (hm : m.event = some (.listed l.id vs)) :
    ∃ act rest, later = act ++ rest ∧ Activation t l vs act ∧
      Ends t l vs act rest s' := by
  induction past generalizing s with
  | cons _ past ih =>
      cases h with
      | cons _ _ h => exact ih h
  | nil =>
      cases h with
      | @cons _ s₁ _ _ _ _ hadv h =>
          have hs₁ : s₁ = .head vs 0 := by
            cases hadv with
            | stays hlisted => exact absurd hm (hlisted vs)
            | lists he =>
                cases hm.symm.trans he
                rfl
            | binds he | completes he | exhausted he | broken he => cases hm.symm.trans he
          subst hs₁
          obtain ⟨act, rest, rfl, hact, hprefix, hends⟩ := h.exists_activation rfl
          refine ⟨act, rest, rfl,
            ⟨fun m hm => (hact m hm).1, fun m hm => (hact m hm).2, ?_⟩, ?_⟩
          · simpa [Stage.met] using hprefix
          · rcases hends with ⟨hrest, hs, hmet⟩ | ⟨past, last, heq, hidle, hall | hc⟩
            · exact .underway hrest hs (by simpa [Stage.met] using hmet)
            · exact .exhausted heq hidle (by simpa [Stage.met] using hall)
            · exact .broken heq hidle hc

end Machine

/-! ## Histories -/

namespace Program

open Machine Progress

variable {W : Type} [World W] {t : Tree} {p q : Program} {l : t.WorldLoop}
  {ms : List (Transition W)}

/-- `History W p ms q`: ticks lead from `p` to `q`, with any budgets and any worlds, and
`ms` are the moves of all of them. -/
inductive History (W : Type) [World W] (p : Program) :
    List (Transition W) → Program → Prop
  | start : History W p [] p
  | tick {ms : List (Transition W)} {q : Program} {limit : Nat} {w : W} {budget : Number}
      {k : Tick W} (h : History W p ms q) (hk : q.advance? limit w budget = some k) :
      History W p (ms ++ q.moves limit w budget) k.program

theorem History.reached (h : History W p ms q) : Reached W p (events ms) q := by
  induction h with
  | start => exact .start
  | tick _ hk ih =>
      rw [events_append, events_moves hk]
      exact .tick ih trivial hk

/-- A loop over the world starts without a list, and every tick goes on where the last one
has left it. -/
theorem History.passage (hp : Started t p) (hl : t.Under p.root l.id)
    (h : History W p ms q) :
    ∃ s, Stands t q.memory.progress l s ∧ Passage t l .resting ms s := by
  induction h with
  | start =>
      have hrest := idle_or_fresh_of_under (.inr hp.fresh) hp.proper (.refl _) hl
      exact ⟨.resting, .resting hrest, .nil _⟩
  | @tick ms q limit w budget k h hk ih =>
      obtain ⟨s, hs, hpassage⟩ := ih
      have hq := settled_of_ticks hp h.reached
      rcases hq.run_of_tick hk with ⟨-, hmoves, rfl⟩
        | ⟨-, hopening, outcome, c', hrun, -, rfl⟩
      · rw [hmoves, List.append_nil]
        exact ⟨s, hs, hpassage⟩
      · have hholds : (q.opening w budget).Holds t l s := .of_stands hs nofun
        obtain ⟨s', hs', hpassage'⟩ := hholds.run hp.proper hl hopening hrun
        refine ⟨s', ?_, hpassage.append hpassage'⟩
        show Stands t (q.settle outcome c'.memory).memory.progress l s'
        rw [settle_progress]
        exact hs'.stands

/-- Each move of a history is a step of the machine. -/
theorem History.step_of_mem (hp : Started t p) (h : History W p ms q) :
    ∀ m ∈ ms, Config.Step t m.before m.event m.after := by
  induction h with
  | start => simp
  | tick h hk ih =>
      refine List.forall_mem_append.mpr ⟨ih, fun m hm => ?_⟩
      rcases (settled_of_ticks hp h.reached).run_of_tick hk with
        ⟨-, hmoves, -⟩ | ⟨-, -, _, _, hrun, -, -⟩
      · rw [hmoves] at hm
        cases hm
      · exact (hrun.of_mem hm).2

/-- What is recorded after a list are visits to it, one after the other. -/
theorem History.word {past later : List (Transition W)} {m : Transition W}
    {vs : List Value} (hp : Started t p) (h : History W p (past ++ m :: later) q)
    (hm : m.event = some (.listed l.id vs)) :
    ∃ loop w, t.Word loop (.visits l.id l.body vs) w false ∧
      (events later <+: w ∨ w <+: events later) := by
  obtain ⟨_, ⟨es, rfl⟩, hword⟩ := exists_word_of_ticks hp h.reached
  have hsuffix : .listed l.id vs :: (events later ++ es) <:+
      events (past ++ m :: later) ++ es := by
    rw [events_append, events_cons, hm]
    exact ⟨events past, by simp⟩
  obtain ⟨loop, w, hw, hvisits⟩ := hword.goesThrough vs _ hsuffix
  exact ⟨loop, w, hvisits,
    (List.prefix_or_prefix_of_prefix hw (List.prefix_append ..)).symm⟩

/--
**A loop over the world visits a frozen list.**  However a program has been ticked, and
whatever has happened to the world in between, every move takes the loop on by one of the
ways of `Advances`, from where the table has it; it has a list only from the world as it
was when the list was gathered, and starts with it at position 0.  From there to the end
of the activation the list stays as it is.  The variable is bound to the candidates in
order, to each once, and to all of them unless a `leaveLoop` ends the loop.  The body is
at rest when the variable is bound and ready to run after that, and what is recorded has a
whole word of the body between two bindings.  Nothing but assignments and bindings writes
to variables.
-/
theorem forEach_visits_frozen_list {subject : ActorId} {settings : Settings}
    (hstart : start t subject settings = .ok p) (h : History W p ms q) (l : t.WorldLoop)
    (hl : t.Under p.root l.id) :
    (∀ m ∈ ms, (∃ id target v, m.event = some (.assigned id target v)) ∨
      (∃ id v, m.event = some (.visited id v)) ∨
      m.after.memory.globals = m.before.memory.globals) ∧
    ∃ s, Stands t q.memory.progress l s ∧ Passage t l .resting ms s ∧
      ∀ past m later vs, ms = past ++ m :: later → m.event = some (.listed l.id vs) →
        (∃ act rest, later = act ++ rest ∧ Activation t l vs act ∧
          Ends t l vs act rest s) ∧
        ∃ loop w, t.Word loop (.visits l.id l.body vs) w false ∧
          (events later <+: w ∨ w <+: events later) := by
  have hp := started_of_start hstart
  refine ⟨fun m hm => (h.step_of_mem hp m hm).globals_eq, ?_⟩
  obtain ⟨s, hs, hpassage⟩ := h.passage hp hl
  refine ⟨s, hs, hpassage, ?_⟩
  rintro past m later vs rfl hm
  exact ⟨hpassage.activation hm, h.word hp hm⟩

/--
```text
while true {
  for each foe in actors { print 1 }
}
```
-/
def rollCall : Tree where
  names := .ofList ["foe"]
  exprs := #[.number .one, .boolean true]
  stmts := #[.print 0, .forEach 1 (.actors none) none none 0, .while 1 1]
  globals := #[(1, .object)]
  root := some 2

/-- Two actors. -/
def pair : GridWorld :=
  (((GridWorld.empty 4 1).spawn { kind := .player, x := .ofInt 2, y := .zero }).2.spawn
    { kind := .enemy, x := .ofInt 3, y := .zero }).2

/-- The two as candidates. -/
def both : List Value := [.object (some 1), .object (some 2)]

/-- What two ticks do, if both actors are gone after the first one: the second actor is
visited all the same, and the next round of the outer loop finds nobody. -/
def called : List Event :=
  [.decided 2 true, .listed 1 both, .visited 1 (.object (some 1)),
    .printed 0 (.number .one), .visited 1 (.object (some 2)), .printed 0 (.number .one),
    .decided 2 true, .listed 1 []]

theorem forEach_visits_frozen_list_rollCall :
    ∃ p q, ∃ ms past : List (Transition GridWorld), ∃ m later act rest s,
      ∃ l : rollCall.WorldLoop, l.id = 1 ∧ start rollCall 1 = .ok p ∧
        History GridWorld p ms q ∧ events ms = called ∧ ms = past ++ m :: later ∧
        m.event = some (.listed 1 both) ∧ later = act ++ rest ∧
        Activation rollCall l both act ∧ Ends rollCall l both act rest s := by
  have hrun : (start rollCall 1).toOption.map (fun p =>
      (p.root, (p.advance? 100 pair (.ofInt 3)).bind fun k =>
        (k.program.advance? 100 (GridWorld.empty 4 1) (.ofInt 5)).map fun k' =>
          k.events ++ k'.events)) = some (2, some called) := by
    decide +kernel
  obtain ⟨p, hstart, hticks⟩ := exists_of_start hrun
  obtain ⟨hroot, hticks⟩ := Prod.mk.inj hticks
  obtain ⟨k, hk, hticks⟩ := Option.bind_eq_some_iff.mp hticks
  obtain ⟨k', hk', hevents⟩ := Option.map_eq_some_iff.mp hticks
  rw [← events_moves hk, ← events_moves hk', ← events_append] at hevents
  have hhistory := History.tick (.tick .start hk) hk'
  rw [List.nil_append] at hhistory
  have hmem : .listed 1 both ∈ called := by decide
  rw [← hevents] at hmem
  obtain ⟨past, m, later, hms, hm⟩ := exists_of_mem_events hmem
  let l : rollCall.WorldLoop := ⟨1, 1, .actors none, none, none, 0, rfl⟩
  have hl : rollCall.Under p.root l.id := by
    rw [hroot]
    exact .of_child (show rollCall.children? 2 = some [1] from rfl)
      (List.mem_singleton.mpr rfl)
  obtain ⟨-, s, -, -, hlisted⟩ := forEach_visits_frozen_list hstart hhistory l hl
  obtain ⟨⟨act, rest, hlater, hact, hends⟩, -⟩ := hlisted past m later both hms hm
  exact ⟨p, _, _, past, m, later, act, rest, s, l, rfl, hstart, hhistory,
    hevents, hms, hm, hlater, hact, hends⟩

end Program

end ActorScript
