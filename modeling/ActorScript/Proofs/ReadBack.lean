import ActorScript.Proofs.Printing
import ActorScript.Proofs.Visits
import Mathlib.Data.List.DropRight

/-!
# Output read back

A buffer keeps one text and splits it into lines when it is asked for them.  As long as no
message has a line break of its own, these are the messages printed since it was last
emptied.  Values have no line breaks in their texts, so the lines that a program leaves in
a buffer of its own are the values that its `print` statements have printed, one line for
each of them that was completed.

## Main results

* `Output.after_eq` — nothing printed before the last `clear` is left in a buffer.
* `Step.prints_iff` — the event of a completed `print` is its value.
* `buffer_reads_back` — the lines of buffers, and those of the buffers of programs.
-/

namespace ActorScript

namespace Output

/-! ## Buffers in use -/

/-- What is done with a buffer. -/
inductive Call where
  | println (message : String)
  | clear
deriving DecidableEq

def Call.message? : Call → Option String
  | println message => some message
  | clear => none

/-- The output after a call. -/
def perform (o : Output) : Call → Output
  | .println message => o.println message
  | .clear => o.clear

/-- A new buffer after some calls. -/
def after (calls : List Call) : Output := calls.foldl perform { sink := .buffer }

/-- The messages that were printed after the last `clear`. -/
def sinceClear (calls : List Call) : List String :=
  (calls.rtakeWhile (· ≠ .clear)).filterMap Call.message?

theorem mem_of_mem_sinceClear {calls : List Call} {s : String}
    (h : s ∈ sinceClear calls) :
    .println s ∈ calls := by
  obtain ⟨call, hcall, hs⟩ := List.mem_filterMap.mp h
  have hmem := (List.rtakeWhile_suffix (· ≠ .clear) calls).mem hcall
  cases call with
  | println message =>
      cases hs
      exact hmem
  | clear => cases hs

theorem sinceClear_println (calls : List Call) (message : String) :
    sinceClear (calls ++ [.println message]) = sinceClear calls ++ [message] := by
  rw [sinceClear, List.rtakeWhile_concat_pos _ _ _ (by simp), List.filterMap_append]
  rfl

theorem sinceClear_clear (calls : List Call) : sinceClear (calls ++ [.clear]) = [] := by
  rw [sinceClear, List.rtakeWhile_concat_neg _ _ _ (by simp)]
  rfl

/-- **A buffer has what was printed since it was emptied.** -/
theorem after_eq (calls : List Call) :
    after calls = (sinceClear calls).foldl println { sink := .buffer } := by
  induction calls using List.reverseRecOn with
  | nil => rfl
  | append_singleton calls call ih =>
      have hperform : after (calls ++ [call]) = (after calls).perform call := by
        unfold after
        rw [List.foldl_append]
        rfl
      rw [hperform]
      cases call with
      | println message =>
          rw [ih, sinceClear_println, List.foldl_append]
          rfl
      | clear =>
          have hsink : (after calls).sink = .buffer := by
            rw [ih]
            exact sink_foldl_println _
          rw [sinceClear_clear]
          show (after calls).clear = { sink := .buffer }
          unfold clear
          rw [hsink]

/-- The lines of a buffer are the messages. -/
theorem lines_after {calls : List Call} (h : ∀ s, .println s ∈ calls → IsLine s) :
    (after calls).lines = sinceClear calls := by
  rw [after_eq]
  exact lines_foldl_println fun s hs => h s (mem_of_mem_sinceClear hs)

end Output

/-! ## Statements that print -/

namespace Machine

variable {W : Type} [World W] {t : Tree} {c c' : Config W} {e : Option Event} {v : Value}
  {ms : List (Transition W)}

/-- The move completes a `print`, the value of which is `v`. -/
def Transition.Prints (t : Tree) (m : Transition W) (v : Value) : Prop :=
  ∃ id value g, m.before.At t id (.print value) ∧
    ((m.before.scope t).evaluate value).Yields m.before.memory.generator v g ∧
    m.after.control = .leave .completed

/-- `Printout t ms vs`: the values of the `print` statements that the moves complete are
`vs`, in this order. -/
inductive Printout (t : Tree) : List (Transition W) → List Value → Prop
  | nil : Printout t [] []
  | print {m : Transition W} {ms : List (Transition W)} {v : Value} {vs : List Value}
      (h : m.Prints t v) (hs : Printout t ms vs) : Printout t (m :: ms) (v :: vs)
  | other {m : Transition W} {ms : List (Transition W)} {vs : List Value}
      (h : ∀ v, ¬ m.Prints t v) (hs : Printout t ms vs) : Printout t (m :: ms) vs

/-- A `print` statement that is completed has printed its value. -/
private theorem Config.Step.of_print {id : StmtId} {value : ExprId} {g : Generator}
    (h : Step t c e c') (hat : c.At t id (.print value))
    (hv : ((c.scope t).evaluate value).Yields c.memory.generator v g)
    (hdone : c'.control = .leave .completed) : e = some (.printed id v) := by
  have hvisit := step?_eq_some_iff.mpr h
  rw [hat.step?_eq, visit?] at hvisit
  rcases attempt_eq_some hvisit with ⟨-, rfl, -⟩ | ⟨-, f, -, rfl, -⟩
    | ⟨-, v', g', hv', hgo⟩
  · cases hdone
  · cases hdone
  · obtain ⟨c₁, -, hpair⟩ := Option.bind_eq_some_iff.mp hgo
    cases hpair
    cases hv.symm.trans hv'
    rfl

theorem Config.Step.prints_iff (h : Step t c e c') :
    Transition.Prints t ⟨c, e, c'⟩ v ↔ ∃ id, e = some (.printed id v) := by
  constructor
  · rintro ⟨id, value, g, hat, hv, hdone⟩
    exact ⟨id, h.of_print hat hv hdone⟩
  · rintro ⟨id, rfl⟩
    cases h with
    | deed _ h =>
        cases h with
        | print hat hv => exact ⟨id, _, _, hat, hv, rfl⟩

/-- **One text for each `print` that is completed.** -/
theorem exists_printout (h : ∀ m ∈ ms, Config.Step t m.before m.event m.after) :
    ∃ vs, Printout t ms vs ∧ printed (events ms) = vs.map Value.text := by
  induction ms with
  | nil => exact ⟨[], .nil, rfl⟩
  | cons m ms ih =>
      obtain ⟨hm, hms⟩ := List.forall_mem_cons.mp h
      obtain ⟨vs, hvs, htexts⟩ := ih hms
      rw [events_cons, printed_append, htexts]
      by_cases hprints : ∃ v, m.Prints t v
      · obtain ⟨v, hv⟩ := hprints
        obtain ⟨id, he⟩ := hm.prints_iff.mp hv
        refine ⟨v :: vs, .print hv hvs, ?_⟩
        rw [he]
        rfl
      · have hnone : ∀ v, ¬ m.Prints t v := not_exists.mp hprints
        refine ⟨vs, .other hnone hvs, ?_⟩
        have hnothing : printed m.event.toList = [] := by
          refine List.filterMap_eq_nil_iff.mpr fun e he => ?_
          cases e with
          | printed id v =>
              exact absurd (hm.prints_iff.mpr ⟨id, Option.mem_toList.mp he⟩) (hnone v)
          | decided | assigned | commanded | left | listed | visited | waited => rfl
        rw [hnothing]
        rfl

end Machine

open Machine Output

/--
**What is printed reads back line by line.**  However a new buffer has been printed to and
emptied, it has the messages since it was last emptied, with a line feed after each; if no
message has a line feed in it or a carriage return at its end, then its lines are these
messages.  The texts of all values are such messages.  So whatever the ticks and the
worlds, a program with a buffer of its own has one line in it for every `print` that was
completed, in their order, and it is the text of the value.
-/
theorem buffer_reads_back :
    (∀ calls : List Call,
      (after calls).captured = String.join ((sinceClear calls).map (· ++ "\n")) ∧
        ((∀ s, .println s ∈ calls → IsLine s) → (after calls).lines = sinceClear calls)) ∧
    (∀ v : Value, IsLine v.text) ∧
    ∀ (W : Type) [World W] (t : Tree) (subject : ActorId) (settings : Program.Settings)
      (p q : Program) (ms : List (Transition W)),
      Program.start t subject settings = .ok p →
      settings.sink = .buffer → Program.History W p ms q →
      ∃ vs, Printout t ms vs ∧ q.memory.output.lines = vs.map Value.text ∧
        q.memory.output.captured = String.join (vs.map (·.text ++ "\n")) := by
  refine ⟨fun calls => ⟨?_, lines_after⟩, fun v => v.plain_text.isLine, ?_⟩
  · rw [after_eq]
    exact captured_foldl_println _
  · intro W _ t subject settings p q ms hstart hsink h
    obtain ⟨vs, hvs, htexts⟩ :=
      exists_printout (h.step_of_mem (Program.started_of_start hstart))
    refine ⟨vs, hvs, ?_, ?_⟩
    · rw [Program.lines_of_ticks hstart hsink h.reached, htexts]
    · rw [Program.output_of_start hstart hsink h.reached, captured_foldl_println, htexts,
        List.map_map]
      rfl

/-- Empty messages are lines, and so is one with a carriage return inside; one round of
`Program.restless` prints one line. -/
theorem buffer_reads_back_restless :
    (after [.println "lost", .clear, .println "", .println "a\rb", .println ""]).lines =
        ["", "a\rb", ""] ∧
      ∃ p q ms vs, Program.start Program.restless 1 = .ok p ∧
        Program.History GridWorld p ms q ∧
        Printout Program.restless ms vs ∧ vs.map Value.text = ["3"] ∧
        q.memory.output.lines = ["3"] ∧ q.memory.output.captured = "3\n" := by
  obtain ⟨hbuffers, -, hprograms⟩ := buffer_reads_back
  constructor
  · refine (hbuffers _).2 fun s hs => ?_
    simp only [List.mem_cons, Call.println.injEq, reduceCtorEq,
      List.not_mem_nil, or_false, false_or] at hs
    rcases hs with rfl | rfl | rfl | rfl <;> decide
  · have hrun : (Program.start Program.restless 1).toOption.map (fun p =>
        (p.advance? 100 (GridWorld.empty 1 1) (.ofInt 6)).map fun k =>
          (k.program.memory.output.lines, k.program.memory.output.captured)) =
        some (some (["3"], "3\n")) := by
      decide +kernel
    obtain ⟨p, hstart, htick⟩ := Program.exists_of_start hrun
    obtain ⟨k, hk, hfacts⟩ := Option.map_eq_some_iff.mp htick
    obtain ⟨hlines, hcaptured⟩ := Prod.mk.inj hfacts
    have hhistory := Program.History.tick (.start) hk
    obtain ⟨vs, hvs, htexts, -⟩ := hprograms _ _ _ _ _ _ _ hstart rfl hhistory
    exact ⟨p, k.program, _, vs, hstart, hhistory, hvs, htexts.symm.trans hlines,
      hlines, hcaptured⟩

end ActorScript
