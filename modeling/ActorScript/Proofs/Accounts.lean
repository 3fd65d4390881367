import ActorScript.Proofs.Bounded
import ActorScript.Proofs.Halting
import ActorScript.Proofs.Printing
import ActorScript.Scene

/-!
# The books of a program

A tally counts what a program has done, and there is an entry for everything: each step
that was paid for stands for one event, each line for one that was printed, and each tick
was suspended, had a transient fault, or was the last one.  The tick that ends a program
either finishes or halts it.

A scene is played by such ticks, with a unit of time in the world after each.

## Main results

* `Step.deed_iff` — the events of a step are its deeds.
* `settle_entry`, `Accounted.tick` — the end of a tick is one entry.
* `counters_count`, `counters_of_ticks` — the same in counters of 64 bits.
* `exists_played` — a scene that has been played has had as many ticks as it says.
* `every_tick_accounted` — the books of all programs and of all scenes with a valid tree.
-/

namespace ActorScript

/-! ## Events by kind -/

theorem countOf_cons (kind : Event.Kind) (e : Event) (es : List Event) :
    countOf kind (e :: es) = countOf kind es + if e.kind = kind then 1 else 0 := by
  simp only [countOf, List.countP_cons, decide_eq_true_eq]

/-- Everything but waiting is paid for. -/
theorem countP_isPaid (es : List Event) :
    es.countP Event.isPaid =
      countOf .assignment es + countOf .print es + countOf .action es +
        countOf .leaving es + countOf .condition es + countOf .listing es +
        countOf .visit es := by
  induction es with
  | nil => rfl
  | cons e es ih =>
      rw [List.countP_cons, ih]
      simp only [countOf_cons]
      cases e <;> simp [Event.isPaid, Event.kind] <;> omega

theorem length_printed (es : List Event) : (printed es).length = countOf .print es := by
  unfold printed countOf
  rw [List.length_filterMap_eq_countP]
  congr 1
  funext e
  cases e <;> rfl

/-! ## Counters of 64 bits -/

/-- **A counter goes on by one** where its count does, and so it does when it is full. -/
theorem Tally.counters_count (y : Tally) :
    y.countTick.counters = { y.counters with ticks := y.counters.ticks + 1 } ∧
    y.countStep.counters = { y.counters with steps := y.counters.steps + 1 } ∧
    y.countSuspension.counters =
      { y.counters with suspensions := y.counters.suspensions + 1 } ∧
    y.countTransientFault.counters =
      { y.counters with transientFaults := y.counters.transientFaults + 1 } ∧
    y.countLine.counters = { y.counters with lines := y.counters.lines + 1 } := by
  have hsucc : ∀ n : Nat, UInt64.ofNat (n + 1) = UInt64.ofNat n + 1 := by
    intro n
    exact UInt64.ofNat_add n 1
  simp only [counters, countTick, countStep, countSuspension,
    countTransientFault, countLine, hsucc, and_self]

/-! ## Runs -/

namespace Machine

variable {W : Type} [World W] {t : Tree} {c c' : Config W}

/-- **What a step does is what it leaves as an event**, waiting apart. -/
theorem Config.Step.deed_iff {e : Option Event} {e' : Event} (h : Step t c e c') :
    e = some e' ∧ e'.kind ≠ .waiting ↔ Deed t c e' c' := by
  constructor
  · rintro ⟨rfl, hkind⟩
    cases h with
    | deed _ h => exact h
    | waited => exact absurd rfl hkind
  · intro hdeed
    cases hb : c.memory.budget.canStep with
    | true =>
        obtain ⟨-, he⟩ := h.unique (.deed hb hdeed)
        refine ⟨he, ?_⟩
        cases hdeed <;> exact Event.Kind.noConfusion
    | false =>
        -- what cannot be paid for is refused, and not done
        obtain ⟨rfl, -⟩ := h.unique (.refused hb hdeed.costs)
        generalize hc' : c.suspend = c' at hdeed
        cases hdeed <;> cases congrArg Config.control hc'

end Machine

/-! ## Ticks -/

namespace Program

open Machine Machine.Config Progress

variable {W : Type} [World W] {ok : Nat → Program → W → Number → Prop} {t : Tree}
  {p q : Program} {es : List Event} {subject : ActorId} {settings : Settings}

/-- The books of a program that has done `es`. -/
structure Accounted (es : List Event) (q : Program) (y : Tally) : Prop where
  tally : q.memory.tally = some y
  /-- Each tick was suspended, had a transient fault, or was the last one. -/
  ticks : y.ticks = y.suspensions + y.transientFaults +
    if q.isFinished || q.isHalted then 1 else 0
  steps : y.steps =
    countOf .assignment es + countOf .print es + countOf .action es +
      countOf .leaving es + countOf .condition es + countOf .listing es +
      countOf .visit es
  lines : y.lines = countOf .print es

omit [World W] in
theorem accounted_of_start (hstart : start t subject settings = .ok p)
    (htallied : settings.tallied = true) : Accounted [] p {} := by
  have hp := started_of_start hstart
  obtain ⟨hrunning, hunfinished⟩ := Bool.or_eq_false_iff.mp hp.going
  refine ⟨?_, ?_, rfl, rfl⟩
  · obtain ⟨root, progress, -, -, rfl⟩ := start_eq_ok_iff.mp hstart
    exact if_pos htallied
  · rw [hunfinished, hrunning]
    rfl

omit [World W] in
theorem settle_isFinished (q : Program) (outcome : Except Fault Flow) (m : Memory) :
    (q.settle outcome m).isFinished = !m.progress.isArmed q.root := by
  unfold isFinished
  rw [settle_progress, (settle_tree ..).2]

omit [World W] in
/-- **The end of a run is one entry**: a suspension, a transient fault, or the end of the
program. -/
theorem settle_entry {root : StmtId} {c : Config W}
    {outcome : Except Fault Flow} {y : Tally} (hroot : q.root = root)
    (h : c.Over t root outcome) (hhalted : c.memory.halted = false)
    (htally : c.memory.tally = some y) :
    ∃ y', (q.settle outcome c.memory).memory.tally = some y' ∧
      y'.ticks = y.ticks ∧ y'.steps = y.steps ∧ y'.lines = y.lines ∧
      (y'.suspensions + y'.transientFaults +
        if (q.settle outcome c.memory).isFinished || (q.settle outcome c.memory).isHalted
        then 1 else 0) = y.suspensions + y.transientFaults + 1 := by
  have hfinished := q.settle_isFinished outcome c.memory
  rw [hroot, isArmed_eq] at hfinished
  cases h with
  | completed _ hidle =>
      rw [hidle.node_eq] at hfinished
      rw [hfinished]
      exact ⟨y, htally, rfl, rfl, rfl, rfl⟩
  | suspended _ hactive =>
      rw [hactive.armed] at hfinished
      have hrunning : (q.settle (.ok .suspended) c.memory).isHalted = false := hhalted
      rw [hfinished, hrunning]
      refine ⟨y.countSuspension, congrArg (Option.map Tally.countSuspension) htally,
        rfl, rfl, rfl, ?_⟩
      show y.suspensions + 1 + y.transientFaults + 0 =
        y.suspensions + y.transientFaults + 1
      omega
  | @raised f _ hactive =>
      rw [hactive.armed] at hfinished
      rw [hfinished]
      by_cases hf : f.isFatal = true
      · rw [settle_of_fatal q _ hf]
        exact ⟨y, htally, rfl, rfl, rfl, rfl⟩
      · have hrest := settle_of_transient q c.memory (Bool.eq_false_iff.mpr hf)
        have hrunning : (q.settle (.error f) c.memory).isHalted = false := by
          rw [hrest]
          exact hhalted
        rw [hrunning, hrest]
        exact ⟨y.countTransientFault,
          congrArg (Option.map Tally.countTransientFault) htally, rfl, rfl, rfl, rfl⟩

/-- **A tick is accounted for.** -/
theorem Accounted.tick {y : Tally} {limit : Nat} {w : W} {budget : Number} {k : Tick W}
    (hp : Started t p) (hticks : Ticks ok p es q) (h : Accounted es q y)
    (hk : q.advance? limit w budget = some k) :
    ∃ y', Accounted (es ++ k.events) k.program y' ∧
      ((q.isHalted || q.isFinished) = false → y'.ticks = y.ticks + 1) := by
  have hq := settled_of_ticks hp hticks
  rcases hq.run_of_tick hk with ⟨hover, -, rfl⟩
    | ⟨hgoing, hopening, outcome, c', hrun, ho, rfl⟩
  · rw [List.append_nil, hover]
    exact ⟨y, h, Bool.noConfusion⟩
  obtain ⟨hrunning, hunfinished⟩ := Bool.or_eq_false_iff.mp hgoing
  have hsound := hopening.run hp.proper hrun
  have htally : c'.memory.tally =
      some (y.countTick.record (events (q.moves limit w budget))) := by
    have hticked : (q.opening w budget).memory.tally = some y.countTick :=
      congrArg (Option.map Tally.countTick) h.tally
    rw [hrun.attested.tally, hticked]
    rfl
  obtain ⟨y', htally', hticks', hsteps', hlines', hentry⟩ :=
    settle_entry hq.root_eq (hsound.over_of_outcome ho).1
      (hrun.attested.halted.trans hrunning) htally
  have hcounted : y'.ticks = y.ticks + 1 := hticks'
  have hbefore := h.ticks
  rw [hunfinished, hrunning] at hbefore
  refine ⟨y', ⟨htally', ?_, ?_, ?_⟩, fun _ => hcounted⟩
  · rw [hentry, hcounted, hbefore]
    rfl
  · rw [hsteps', ← countP_isPaid, List.countP_append, countP_isPaid es, ← h.steps]
    rfl
  · rw [hlines', countOf_append, ← h.lines]
    rfl

theorem accounted_of_ticks (hstart : start t subject settings = .ok p)
    (htallied : settings.tallied = true) (h : Ticks ok p es q) :
    ∃ y, Accounted es q y := by
  induction h with
  | start => exact ⟨{}, accounted_of_start hstart htallied⟩
  | tick hticks _ hk ih =>
      obtain ⟨y, hy⟩ := ih
      obtain ⟨y', hy', -⟩ := hy.tick (started_of_start hstart) hticks hk
      exact ⟨y', hy'⟩

/-- **The books in counters of 64 bits**, which may have been full in between. -/
theorem counters_of_ticks (hstart : start t subject settings = .ok p)
    (htallied : settings.tallied = true) (h : Ticks ok p es q) :
    ∃ y, q.memory.tally.map Tally.counters = some y ∧
      y.ticks = y.suspensions + y.transientFaults +
        (if q.isFinished || q.isHalted then 1 else 0) ∧
      y.steps = .ofNat (es.countP Event.isPaid) ∧
      y.lines = .ofNat (countOf .print es) := by
  obtain ⟨y, hy⟩ := accounted_of_ticks hstart htallied h
  refine ⟨y.counters, by rw [hy.tally, Option.map_some], ?_, ?_,
    congrArg UInt64.ofNat hy.lines⟩
  · have hticks := congrArg UInt64.ofNat hy.ticks
    rw [UInt64.ofNat_add, UInt64.ofNat_add, apply_ite UInt64.ofNat] at hticks
    exact hticks
  · rw [countP_isPaid, ← hy.steps]
    rfl

/-- The events of a tick are those of its deeds, and of times that were waited. -/
theorem events_of_advance? {root : StmtId} {limit : Nat} {w : W}
    {budget : Number} {k : Tick W} (hq : Settled t root q)
    (hk : q.advance? limit w budget = some k) :
    k.events = events (q.moves limit w budget) ∧
      ∀ m ∈ q.moves limit w budget, ∀ e,
        m.event = some e ∧ e.kind ≠ .waiting ↔ Deed t m.before e m.after := by
  rcases hq.run_of_tick hk with ⟨-, hmoves, rfl⟩ | ⟨-, -, outcome, c', hrun, -, rfl⟩
  · rw [hmoves]
    exact ⟨rfl, fun m hm => by cases hm⟩
  · exact ⟨rfl, fun m hm e => (hrun.of_mem hm).2.deed_iff⟩

/-- A program is not both done and halted. -/
theorem not_both_of_ticks (hp : Started t p) (h : Ticks ok p es q) :
    (q.isFinished && q.isHalted) = false := by
  induction h with
  | start =>
      have hrunning : p.isHalted = false := hp.running
      rw [hrunning, Bool.and_false]
  | @tick es q limit w budget k hticks _ hk ih =>
      have hq := settled_of_ticks hp hticks
      rcases hq.run_of_tick hk with ⟨-, -, rfl⟩
        | ⟨hgoing, hopening, outcome, c', hrun, ho, rfl⟩
      · exact ih
      · have hsound := hopening.run hp.proper hrun
        have hfinished := q.settle_isFinished outcome c'.memory
        rw [hq.root_eq, isArmed_eq] at hfinished
        -- only a run that has come to the end of the script leaves the root at rest
        cases (hsound.over_of_outcome ho).1 with
        | completed =>
            have hrunning : (q.settle (.ok .completed) c'.memory).isHalted = false :=
              hrun.attested.halted.trans (Bool.or_eq_false_iff.mp hgoing).1
            rw [hrunning, Bool.and_false]
        | suspended _ hactive | raised _ hactive =>
            rw [hactive.armed] at hfinished
            rw [hfinished]
            rfl

end Program

/-! ## Scenes -/

/-- `Played limit budget n p w q v`: `n` ticks, each of a program that is still running
and each with a unit of time in the world after it, lead from `p` and `w` to `q` and
`v`. -/
inductive Played (limit : Nat) (budget : Number) :
    Nat → Program → GridWorld → Program → GridWorld → Prop
  | refl (p : Program) (w : GridWorld) : Played limit budget 0 p w p w
  | tick {n : Nat} {p q : Program} {w v : GridWorld} {k : Tick GridWorld}
      (hgoing : (p.isHalted || p.isFinished) = false)
      (hk : p.advance? limit w budget = some k)
      (h : Played limit budget n k.program (k.world.step .one) q v) :
      Played limit budget (n + 1) p w q v

open Machine Machine.Config Program

variable {t : Tree} {p : Program} {subject : ActorId} {settings : Settings} {limit : Nat}
  {budget : Number}

theorem Played.reached {n : Nat} {q r : Program} {w v : GridWorld}
    (h : Played limit budget n q w r v) :
    ∀ {es : List Event}, Reached GridWorld p es q → ∃ es', Reached GridWorld p es' r := by
  induction h with
  | refl =>
      intro es hq
      exact ⟨es, hq⟩
  | tick _ hk _ ih =>
      intro es hq
      exact ih (.tick hq trivial hk)

/-- The tally has a tick for each that was played. -/
theorem Played.ticks_eq {n : Nat} {q r : Program} {w v : GridWorld} (hp : Started t p)
    (h : Played limit budget n q w r v) :
    ∀ {es : List Event} {y : Tally}, Reached GridWorld p es q → Accounted es q y →
      r.memory.tally.map Tally.ticks = some (y.ticks + n) := by
  induction h with
  | refl =>
      intro es y _ hy
      rw [hy.tally]
      rfl
  | @tick n q _ _ _ k hgoing hk _ ih =>
      intro es y hq hy
      obtain ⟨y', hy', hticks⟩ := hy.tick hp hq hk
      have hrest := ih (.tick hq trivial hk) hy'
      rw [hticks hgoing] at hrest
      rw [hrest]
      congr 1
      omega

namespace Performance

/-- **A scene that is played on** has the ticks that it says, no more than it was given,
and all of them unless its program has come to an end. -/
theorem exists_played : ∀ {ticks : Nat} {s s' : Performance},
    continue? limit budget ticks s = some s' →
    ∃ n, n ≤ ticks ∧ s'.ticks = s.ticks + n ∧
      Played limit budget n s.program s.world s'.program s'.world ∧
      (n < ticks → (s'.program.isFinished || s'.program.isHalted) = true) := by
  intro ticks
  induction ticks with
  | zero =>
      intro s s' h
      cases h
      exact ⟨0, Nat.le_refl 0, rfl, .refl .., fun hlt => absurd hlt (Nat.lt_irrefl 0)⟩
  | succ ticks ih =>
      intro s s' h
      unfold continue? at h
      cases hover : s.program.isFinished || s.program.isHalted with
      | true =>
          rw [hover] at h
          cases h
          exact ⟨0, Nat.zero_le _, rfl, .refl .., fun _ => hover⟩
      | false =>
          rw [hover] at h
          obtain ⟨k, hk, h⟩ := Option.bind_eq_some_iff.mp h
          obtain ⟨n, hn, hticks, hplayed, hend⟩ := ih h
          rw [Bool.or_comm] at hover
          refine ⟨n + 1, Nat.succ_le_succ hn, ?_, .tick hover hk hplayed, ?_⟩
          · rw [hticks]
            show s.ticks + 1 + n = s.ticks + (n + 1)
            omega
          · intro hlt
            exact hend (Nat.lt_of_succ_lt_succ hlt)

/-- A scene can be played on, if the ticks are given room enough. -/
theorem exists_continue? (hstart : start t subject settings = .ok p)
    (hbudget : ¬ Number.ofInt (2 ^ 53 : Nat) < budget) :
    ∀ (ticks : Nat) (s : Performance) {es : List Event},
      Reached GridWorld p es s.program →
      ∃ limit s', ∀ limit' ≥ limit, continue? limit' budget ticks s = some s' := by
  intro ticks
  induction ticks with
  | zero =>
      intro s es _
      exact ⟨0, s, fun _ _ => rfl⟩
  | succ ticks ih =>
      intro s es hs
      cases hover : s.program.isFinished || s.program.isHalted with
      | true =>
          refine ⟨0, s, fun limit' _ => ?_⟩
          unfold continue?
          rw [hover]
          rfl
      | false =>
          obtain ⟨limit₁, k, hk⟩ := exists_advance? hstart hs s.world hbudget
          obtain ⟨limit₂, s', hs'⟩ :=
            ih ⟨s.ticks + 1, k.program, k.world.step .one⟩
              (.tick hs trivial (hk limit₁ (Nat.le_refl _)))
          refine ⟨max limit₁ limit₂, s', fun limit' hlimit => ?_⟩
          unfold continue?
          rw [hover, hk limit' (by omega)]
          exact hs' limit' (by omega)

end Performance

/-- What is left of a scene whose program was `p` at the start. -/
structure Scene.PlayedOut (limit : Nat) (scene : Scene) (options : Options) (p : Program)
    (s : Performance) : Prop where
  played : Played limit options.budget s.ticks p scene.world s.program s.world
  ticks_le : s.ticks ≤ options.ticks
  counted : options.profile = true → s.program.memory.tally.map Tally.ticks = some s.ticks
  ended : s.ticks < options.ticks →
    s.program.isFinished = true ∧ s.program.fault = none ∨
      s.program.isFinished = false ∧ s.program.fault.isSome = true

namespace Scene

variable {scene : Scene} {options : Options} {sink : Sink}

theorem play_eq
    (hstart : start scene.tree scene.subject
      { seed := options.seed, tallied := options.profile, sink } = .ok p) (limit : Nat) :
    scene.play limit options sink =
      .ok (Performance.continue? limit options.budget options.ticks
        ⟨0, p, scene.world⟩) := by
  unfold play begin
  rw [hstart]
  rfl

/-- **A scene is played by the book.** -/
theorem playedOut {s : Performance}
    (hstart : start scene.tree scene.subject
      { seed := options.seed, tallied := options.profile, sink } = .ok p)
    (h : scene.play limit options sink = .ok (some s)) :
    PlayedOut limit scene options p s := by
  have hp := started_of_start hstart
  rw [play_eq hstart] at h
  obtain ⟨n, hn, hticks, hplayed, hend⟩ := Performance.exists_played (Except.ok.inj h)
  have hcount : s.ticks = n := hticks.trans (Nat.zero_add n)
  subst hcount
  obtain ⟨es, hreached⟩ := hplayed.reached (Ticks.start (p := p))
  refine ⟨hplayed, hn, ?_, ?_⟩
  · intro hprofile
    have hcounted := hplayed.ticks_eq hp .start (accounted_of_start hstart hprofile)
    rw [hcounted]
    exact congrArg some (Nat.zero_add _)
  · intro hlt
    have hover := hend hlt
    have hapart := not_both_of_ticks hp hreached
    have hfault := (fault_of_ticks hstart hreached).1
    cases hfinished : s.program.isFinished with
    | true =>
        rw [hfinished, Bool.true_and] at hapart
        rw [hapart] at hfault
        refine .inl ⟨rfl, ?_⟩
        cases hnone : s.program.fault with
        | none => rfl
        | some f =>
            rw [hnone] at hfault
            cases hfault.mpr rfl
    | false =>
        rw [hfinished, Bool.false_or] at hover
        exact .inr ⟨rfl, hfault.mp hover⟩

end Scene

/--
**Every tick is accounted for.**  Of a script with a valid tree that keeps counts, however
it is ticked and whatever happens to the world in between, each tick was suspended, had a
transient fault, or was the last one, which either finished or halted the script; it is
halted exactly if it has a fault.  The counts are exact, and `counters_of_ticks` says what
is seen of them in 64 bits.  The steps are those of the assignments, prints, actions and
`leaveLoop`s that were completed, the conditions that were checked, the lists that were
made and the candidates that were visited, that is of the deeds of its ticks; the lines
are the values that were printed, and a buffer holds their texts.

A scene with such a tree is played, by as many ticks as it says and no more than it is
given, each with a unit of time in the world after it.  Counts agree with that; and if
there are fewer ticks than given, then the script is finished, or it has a fault, and not
both.  With a budget that counts in whole units, the scene comes to an end.
-/
theorem every_tick_accounted {W : Type} [World W] {root : StmtId}
    (hvalid : t.validate = .ok root) :
    (∀ subject settings, settings.tallied = true → ∃ p, start t subject settings = .ok p ∧
      ∀ es q, Reached W p es q →
        (∃ y, Accounted es q y) ∧ (q.isFinished && q.isHalted) = false ∧
        (q.isHalted = true ↔ q.fault.isSome = true) ∧
        (settings.sink = .buffer → q.memory.output.lines = printed es ∧
          (printed es).length = countOf .print es) ∧
        ∀ limit (w : W) budget k, q.advance? limit w budget = some k →
          k.events = events (q.moves limit w budget) ∧
          ∀ m ∈ q.moves limit w budget, ∀ e,
            m.event = some e ∧ e.kind ≠ .waiting ↔ Deed t m.before e m.after) ∧
    ∀ (world : GridWorld) (subject : ActorId) (options : Options) (sink : Sink),
      ∃ p, start t subject { seed := options.seed, tallied := options.profile, sink } =
        .ok p ∧
        (∀ limit, ∃ s?, Scene.play limit ⟨t, world, subject⟩ options sink = .ok s?) ∧
        (∀ limit s, Scene.play limit ⟨t, world, subject⟩ options sink = .ok (some s) →
          Scene.PlayedOut limit ⟨t, world, subject⟩ options p s) ∧
        (¬ Number.ofInt (2 ^ 53 : Nat) < options.budget →
          ∃ limit s, ∀ limit' ≥ limit,
            Scene.play limit' ⟨t, world, subject⟩ options sink = .ok (some s)) := by
  constructor
  · intro subject settings htallied
    obtain ⟨p, hstart, -⟩ := exists_start hvalid subject settings
    refine ⟨p, hstart, fun es q h => ⟨accounted_of_ticks hstart htallied h,
      not_both_of_ticks (started_of_start hstart) h, (fault_of_ticks hstart h).1, ?_, ?_⟩⟩
    · intro hsink
      exact ⟨lines_of_ticks hstart hsink h, length_printed es⟩
    · intro limit w budget k hk
      exact events_of_advance? (settled_of_ticks (started_of_start hstart) h) hk
  · intro world subject options sink
    obtain ⟨p, hstart, -⟩ := exists_start hvalid subject
      { seed := options.seed, tallied := options.profile, sink }
    refine ⟨p, hstart, fun limit => ⟨_, Scene.play_eq hstart limit⟩,
      fun limit s h => Scene.playedOut hstart h, ?_⟩
    intro hbudget
    obtain ⟨limit, s, hs⟩ := Performance.exists_continue? hstart hbudget options.ticks
      ⟨0, p, world⟩ .start
    refine ⟨limit, s, fun limit' hlimit => ?_⟩
    rw [Scene.play_eq hstart, hs limit' hlimit]

/-- A scene of two ticks: the first one prints and is suspended, the second one halts the
script. -/
theorem every_tick_accounted_sloppy :
    ∃ p s, start sloppy 1 { tallied := true } = .ok p ∧
      Scene.play 100 ⟨sloppy, GridWorld.empty 1 1, 1⟩
        { demo := "sloppy", budget := .one, profile := true } .buffer = .ok (some s) ∧
      s.ticks = 2 ∧
      s.program.memory.tally =
        some { ticks := 2, steps := 1, suspensions := 1, lines := 1 } ∧
      Scene.PlayedOut 100 ⟨sloppy, GridWorld.empty 1 1, 1⟩
        { demo := "sloppy", budget := .one, profile := true } p s ∧
      ∀ es q, Reached GridWorld p es q → ∃ y, Accounted es q y := by
  have hplay : (Scene.play 100 ⟨sloppy, GridWorld.empty 1 1, 1⟩
      { demo := "sloppy", budget := .one, profile := true } .buffer).toOption.map
        (fun s? => s?.map fun s => (s.ticks, s.program.memory.tally)) =
      some (some (2, some { ticks := 2, steps := 1, suspensions := 1, lines := 1 })) := by
    decide +kernel
  obtain ⟨hprograms, hscenes⟩ :=
    every_tick_accounted (W := GridWorld) (show sloppy.validate = .ok 2 from rfl)
  obtain ⟨p, hstart, haccounted⟩ := hprograms 1 { tallied := true } rfl
  obtain ⟨p', hstart', hplays, hplayed, -⟩ := hscenes (GridWorld.empty 1 1) 1
    { demo := "sloppy", budget := .one, profile := true } .buffer
  cases Except.ok.inj (hstart.symm.trans hstart')
  obtain ⟨s?, hs⟩ := hplays 100
  rw [hs] at hplay
  obtain ⟨s, rfl, hfacts⟩ := Option.map_eq_some_iff.mp (Option.some.inj hplay)
  obtain ⟨hticks, htally⟩ := Prod.mk.inj hfacts
  exact ⟨p, s, hstart, hs, hticks, htally, hplayed 100 s hs,
    fun es q h => (haccounted es q h).1⟩

end ActorScript
