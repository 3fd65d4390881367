import ActorScript.Proofs.Frames

/-!
# What a script prints

Each value that a script prints is a line of its own: its text has no line breaks in it.
So a buffer that was empty at the start holds as many lines as values have been printed,
and they are the texts of these values.

## Main results

* `Value.plain_text` — no value has a line break in its text.
* `Output.lines_foldl_println` — a buffer gives back the lines that were printed to it.
* `lines_of_ticks` — a program that prints to a buffer of its own has the lines in it that
  it has printed, over all ticks.
-/

namespace ActorScript

/-! ## Texts without line breaks -/

/-- The text is part of one line. -/
def Plain (s : String) : Prop := ∀ c ∈ s.toList, c ≠ '\n' ∧ c ≠ '\r'

instance (s : String) : Decidable (Plain s) :=
  List.decidableBAll (fun c => c ≠ '\n' ∧ c ≠ '\r') s.toList

theorem Plain.append {s s' : String} (h : Plain s) (h' : Plain s') : Plain (s ++ s') := by
  intro c hc
  rw [String.toList_append, List.mem_append] at hc
  exact hc.elim (h c) (h' c)

/-- Digits, a point and nothing else make up a plain text. -/
theorem plain_ofList {cs : List Char} (h : ∀ c ∈ cs, c.isDigit = true ∨ c = '.') :
    Plain (String.ofList cs) := by
  intro c hc
  rw [String.toList_ofList] at hc
  constructor <;> rintro rfl <;> exact absurd (h _ hc) (by decide)

theorem isDigit_of_mem {n : Nat} {c : Char} (h : c ∈ Nat.toDigits 10 n) :
    c.isDigit = true :=
  Nat.isDigit_of_mem_toDigits (by decide) (by decide) h

theorem plain_nat (n : Nat) : Plain (toString n) := by
  rw [Nat.toString_eq_repr, Nat.repr_eq_ofList_toDigits]
  apply plain_ofList
  intro c hc
  exact .inl (isDigit_of_mem hc)

theorem plain_int (i : Int) : Plain (toString i) := by
  cases i with
  | ofNat n => exact plain_nat n
  | negSucc n => exact Plain.append (s := "-") (by decide) (plain_nat (n + 1))

theorem Decimal.plain_positional (d : Decimal) : Plain d.positional := by
  have zeros : ∀ {n : Nat} {c : Char}, c ∈ List.replicate n '0' → c.isDigit = true := by
    intro n c hc
    rw [(List.mem_replicate.mp hc).2]
    decide
  unfold positional
  dsimp only
  split
  · apply plain_ofList
    intro c hc
    rw [List.mem_append] at hc
    exact .inl (hc.elim isDigit_of_mem zeros)
  · split
    · apply plain_ofList
      intro c hc
      rcases List.mem_append.mp hc with hc | hc
      · exact .inl (isDigit_of_mem (List.mem_of_mem_take hc))
      · rcases List.mem_cons.mp hc with rfl | hc
        · exact .inr rfl
        · exact .inl (isDigit_of_mem (List.mem_of_mem_drop hc))
    · apply plain_ofList
      intro c hc
      rcases List.mem_cons.mp hc with rfl | hc
      · exact .inl (by decide)
      · rcases List.mem_cons.mp hc with rfl | hc
        · exact .inr rfl
        · rw [List.mem_append] at hc
          exact .inl (hc.elim zeros isDigit_of_mem)

theorem Number.plain_text (a : Number) : Plain a.text := by
  unfold text
  split
  · decide
  · have hmagnitude : Plain (if (!a.isFinite) = true then "inf"
        else if a.significand = 0 then "0" else (Decimal.shortest a).positional) := by
      split
      · decide
      · split
        · decide
        · exact Decimal.plain_positional _
    dsimp only
    split
    · exact Plain.append (s := "-") (by decide) hmagnitude
    · exact hmagnitude

/-- **No value has a line break in its text.** -/
theorem Value.plain_text (v : Value) : Plain v.text := by
  cases v with
  | number n => exact n.plain_text
  | boolean b => cases b <;> decide
  | direction d => cases d <;> decide
  | object id =>
      cases id with
      | none => decide
      | some id => exact Plain.append (s := "object#") (by decide) (plain_nat id)
  | tile t =>
      have hopen : Plain "tile(" := by decide
      have hcomma : Plain ", " := by decide
      have hclose : Plain ")" := by decide
      exact (((hopen.append (plain_int t.x)).append hcomma).append (plain_int t.y)).append
        hclose

/-! ## Buffers -/

/-- The text is a line of its own: it has no line feed in it and no carriage return at its
end. -/
def IsLine (s : String) : Prop := '\n' ∉ s.toList ∧ s.toList.getLast? ≠ some '\r'

instance (s : String) : Decidable (IsLine s) :=
  inferInstanceAs (Decidable ('\n' ∉ s.toList ∧ s.toList.getLast? ≠ some '\r'))

theorem Plain.isLine {s : String} (h : Plain s) : IsLine s := by
  constructor
  · intro hmem
    exact (h _ hmem).1 rfl
  · intro hlast
    exact (h _ (List.mem_of_getLast? hlast)).2 rfl

namespace Output

/-- A line is read up to its line feed. -/
private theorem splitLines_append {s : List Char} (h : '\n' ∉ s) :
    ∀ line rest, splitLines line (s ++ '\n' :: rest) =
      (dropReturn (s.reverse ++ line)).reverse :: splitLines [] rest := by
  induction s with
  | nil =>
      intro line rest
      cases line <;> rfl
  | cons c s ih =>
      intro line rest
      have hc := List.ne_of_not_mem_cons h
      have hs := List.not_mem_of_not_mem_cons h
      have hread : splitLines line (c :: (s ++ '\n' :: rest)) =
          splitLines (c :: line) (s ++ '\n' :: rest) := by
        rw [splitLines]
        exact Ne.symm hc
      rw [List.cons_append, hread, ih hs, List.reverse_cons, List.append_assoc]
      rfl

/-- Nothing is dropped from a line that ends with no carriage return. -/
private theorem dropReturn_reverse {s : List Char} (h : s.getLast? ≠ some '\r') :
    (dropReturn s.reverse).reverse = s := by
  have hsame : dropReturn s.reverse = s.reverse := by
    unfold dropReturn
    split
    · rename_i line hline
      rw [← List.head?_reverse, hline] at h
      exact absurd rfl h
    · rfl
  rw [hsame, List.reverse_reverse]

private theorem splitLines_flatMap {texts : List String} (h : ∀ s ∈ texts, IsLine s) :
    splitLines [] (texts.flatMap fun s => s.toList ++ ['\n']) =
      texts.map String.toList := by
  induction texts with
  | nil => rfl
  | cons s texts ih =>
      obtain ⟨hs, htexts⟩ := List.forall_mem_cons.mp h
      rw [List.flatMap_cons, List.append_assoc, List.singleton_append,
        splitLines_append hs.1, List.append_nil, dropReturn_reverse hs.2, ih htexts]
      rfl

/-- What a buffer holds after some lines have been printed to it. -/
private theorem text_foldl_println (texts : List String) :
    ∀ o : Output, o.sink = .buffer →
      (texts.foldl println o).sink = .buffer ∧
      (texts.foldl println o).text.toList =
        o.text.toList ++ texts.flatMap fun s => s.toList ++ ['\n'] := by
  induction texts with
  | nil =>
      intro o ho
      exact ⟨ho, (List.append_nil _).symm⟩
  | cons s texts ih =>
      intro o ho
      have hprint : o.println s = { o with text := o.text ++ s ++ "\n" } := by
        unfold println
        rw [ho]
      have hsink : (o.println s).sink = .buffer := by
        rw [hprint]
        exact ho
      obtain ⟨hsink', htext⟩ := ih (o.println s) hsink
      refine ⟨hsink', ?_⟩
      rw [List.foldl_cons, htext, hprint]
      simp

theorem sink_foldl_println (texts : List String) :
    (texts.foldl println { sink := .buffer }).sink = .buffer :=
  (text_foldl_println texts { sink := .buffer } rfl).1

private theorem toList_captured_foldl_println (texts : List String) :
    (texts.foldl println { sink := .buffer }).captured.toList =
      texts.flatMap fun s => s.toList ++ ['\n'] := by
  unfold captured
  rw [sink_foldl_println]
  exact (text_foldl_println texts { sink := .buffer } rfl).2

/-- A buffer has everything that was printed to it, with a line feed after each
message. -/
theorem captured_foldl_println (texts : List String) :
    (texts.foldl println { sink := .buffer }).captured =
      String.join (texts.map (· ++ "\n")) := by
  rw [← String.toList_inj, toList_captured_foldl_println, String.toList_join,
    List.flatMap_map]
  simp only [String.toList_append]
  rfl

/-- **A buffer gives back what was printed to it**, line by line. -/
theorem lines_foldl_println {texts : List String} (h : ∀ s ∈ texts, IsLine s) :
    (texts.foldl println { sink := .buffer }).lines = texts := by
  unfold lines
  rw [toList_captured_foldl_println, splitLines_flatMap h, List.map_map]
  exact List.map_id'' (fun s => String.ofList_toList) texts

end Output

/-! ## Runs and ticks -/

theorem plain_of_mem_printed {es : List Event} {s : String} (h : s ∈ printed es) :
    Plain s := by
  obtain ⟨e, -, he⟩ := List.mem_filterMap.mp h
  cases e with
  | printed id value =>
      cases he
      exact value.plain_text
  | decided | assigned | commanded | left | listed | visited | waited => cases he

namespace Program

open Machine

variable {W : Type} [World W] {ok : Nat → Program → W → Number → Prop} {t : Tree}
  {p q : Program} {es : List Event} {subject : ActorId} {settings : Settings}

theorem output_of_ticks (h : Ticks ok p es q) :
    q.memory.output = (printed es).foldl Output.println p.memory.output := by
  induction h with
  | start => rfl
  | @tick es q limit w budget k _ _ hk ih =>
      rcases advance?_eq_some hk with ⟨-, -, rfl⟩ | ⟨-, outcome, c', hrun, -, rfl⟩
      · rw [List.append_nil]
        exact ih
      · obtain ⟨tally, halted, hmemory⟩ := q.settle_memory outcome c'.memory
        have hopening : (q.opening w budget).memory.output = q.memory.output := rfl
        rw [hmemory, printed_append, List.foldl_append, ← ih, ← hopening]
        exact hrun.attested.output

theorem output_of_start (hstart : start t subject settings = .ok p)
    (hsink : settings.sink = .buffer) (h : Ticks ok p es q) :
    q.memory.output = (printed es).foldl Output.println { sink := .buffer } := by
  obtain ⟨root, progress, -, -, rfl⟩ := start_eq_ok_iff.mp hstart
  rw [output_of_ticks h, ← hsink]

/-- **A buffer holds what has been printed**, over all ticks. -/
theorem lines_of_ticks (hstart : start t subject settings = .ok p)
    (hsink : settings.sink = .buffer) (h : Ticks ok p es q) :
    q.memory.output.lines = printed es := by
  rw [output_of_start hstart hsink h]
  exact Output.lines_foldl_println fun s hs => (plain_of_mem_printed hs).isLine

end Program

end ActorScript
