import ActorScript.Options
import Mathlib.Algebra.Group.Nat.Defs
import Mathlib.Data.List.Induction

/-!
# Arguments in any order

`Options.parse` reads the arguments from the left and stops at the first one that offends.
Its answer can be described with no order in it: which arguments there are, and for each
flag which use of it is the last one.  So arguments may be moved past each other, as long
as the uses of a flag stay in their order.  Only which of several complaints is made goes
by the place of the arguments.

## Main results

* `Draft.read_of_takes`, `Draft.read_of_offends` — the two outcomes of reading one
  argument.
* `reads_or_offends` — what has been read after some arguments, or the first one that
  offends.
* `clean_iff` — whether an argument offends does not depend on the order.
* `parse_order_free` — the options by their description, and every complaint by its place.
-/

namespace ActorScript.Options

variable {args args' earlier later : List String} {a f flag value : String}

/-! ## What an argument can be -/

/-- A flag with its value, as it is written. -/
def withValue (flag value : String) : String := flag ++ "=" ++ value

/-- The argument gives a value to the flag. -/
def Uses (flag a : String) : Prop := ∃ value, a = withValue flag value

/-- The flags that take a value. -/
def valued : List String := ["--ticks", "--budget", "--seed"]

/-- The argument is the name of a demo: it does not start like an option. -/
def IsName (a : String) : Prop := a.toList.head? ≠ some '-'

instance : DecidablePred IsName :=
  fun a => inferInstanceAs (Decidable (a.toList.head? ≠ some '-'))

/-- The argument is an option, and if it has a value, then one that can be read. -/
inductive Readable : String → Prop
  | ticks {value : String} {n : Nat} (h : Numeral.whole? (2 ^ 32) value = some n) :
      Readable (withValue "--ticks" value)
  | budget {value : String} {b : Number} (h : Numeral.number? value = some b)
      (hfinite : b.isFinite = true) (hsign : ¬ b < .zero) :
      Readable (withValue "--budget" value)
  | seed {value : String} {n : Nat} (h : Numeral.whole? (2 ^ 64) value = some n) :
      Readable (withValue "--seed" value)
  | profile : Readable "--profile"

/-- `Offends named a e`: the argument has to be complained about with `e`.  One name is
not too many, unless there was one already. -/
inductive Offends (named : Prop) : String → OptionError → Prop
  | ticks {value : String} (h : Numeral.whole? (2 ^ 32) value = none) :
      Offends named (withValue "--ticks" value) (.invalidValue "--ticks" value)
  | budget {value : String}
      (h : ∀ b, Numeral.number? value = some b → b.isFinite = false ∨ b < .zero) :
      Offends named (withValue "--budget" value) (.invalidValue "--budget" value)
  | seed {value : String} (h : Numeral.whole? (2 ^ 64) value = none) :
      Offends named (withValue "--seed" value) (.invalidValue "--seed" value)
  | unknown {a : String} (hdash : ¬ IsName a) (hprofile : a ≠ "--profile")
      (huses : ∀ flag ∈ valued, ¬ Uses flag a) : Offends named a (.unknownFlag a)
  | second {a : String} (h : IsName a) (hnamed : named) :
      Offends named a (.unexpectedArgument a)

theorem uses_iff : Uses flag a ↔ (flag ++ "=").toList <+: a.toList := by
  constructor
  · rintro ⟨value, rfl⟩
    exact ⟨value.toList, (String.toList_append ..).symm⟩
  · rintro ⟨rest, hrest⟩
    refine ⟨String.ofList rest, String.toList_inj.mp ?_⟩
    rw [withValue, String.toList_append, String.toList_ofList, hrest]

instance : Decidable (Uses flag a) := decidable_of_iff _ uses_iff.symm

/-- No argument uses two flags. -/
theorem not_uses_withValue (hf : f ∈ valued) (hflag : flag ∈ valued) (hne : f ≠ flag) :
    ¬ Uses f (withValue flag value) := by
  have hapart : ∀ f ∈ valued, ∀ g ∈ valued, f ≠ g →
      ¬ (f ++ "=").toList <+: (g ++ "=").toList := by
    decide
  intro huse
  have huse' : Uses flag (withValue flag value) := ⟨value, rfl⟩
  rw [uses_iff] at huse huse'
  rcases List.prefix_or_prefix_of_prefix huse huse' with h | h
  · exact hapart f hf flag hflag hne h
  · exact hapart flag hflag f hf hne.symm h

theorem not_uses_profile : ∀ flag ∈ valued, ¬ Uses flag "--profile" := by decide

theorem not_isName_withValue (hflag : flag ∈ valued) :
    ¬ IsName (withValue flag value) := by
  have hdash : ∀ flag ∈ valued, flag.toList.head? = some '-' := by decide
  intro h
  refine h ?_
  rw [withValue, String.toList_append, String.toList_append, List.append_assoc,
    List.head?_append, hdash flag hflag]
  rfl

theorem IsName.not_uses (h : IsName a) (hflag : flag ∈ valued) : ¬ Uses flag a := by
  rintro ⟨value, rfl⟩
  exact not_isName_withValue hflag h

theorem withValue_ne_profile (hflag : flag ∈ valued) :
    withValue flag value ≠ "--profile" :=
  fun h => not_uses_profile flag hflag ⟨value, h.symm⟩

theorem withValue_inj {value' : String}
    (h : withValue flag value = withValue flag value') :
    value = value' := by
  have hlist := congrArg String.toList h
  simp only [withValue, String.toList_append, List.append_assoc] at hlist
  exact String.toList_inj.mp (List.append_cancel_left (List.append_cancel_left hlist))

theorem IsName.ne_profile (h : IsName a) : a ≠ "--profile" := by
  rintro rfl
  exact absurd h (by decide)

/-! ## Reading one argument -/

theorem valueOf?_withValue (flag value : String) :
    valueOf? flag (withValue flag value) = some value := by
  have hlist : (withValue flag value).toList = (flag ++ "=").toList ++ value.toList :=
    String.toList_append ..
  unfold valueOf?
  dsimp only
  rw [hlist, List.drop_left, String.ofList_toList, if_pos]
  exact List.isPrefixOf_iff_prefix.mpr ⟨_, rfl⟩

theorem valueOf?_eq_none (h : ¬ Uses flag a) : valueOf? flag a = none := by
  unfold valueOf?
  dsimp only
  rw [if_neg]
  rwa [List.isPrefixOf_iff_prefix, ← uses_iff]

namespace Draft

variable {d d' : Draft} {e : OptionError}

theorem read_ticks (d : Draft) (value : String) :
    d.read (withValue "--ticks" value) =
      (readValue "--ticks" value (Numeral.whole? (2 ^ 32))).map fun ticks =>
        { d with options := { d.options with ticks } } := by
  simp only [read, valueOf?_withValue]
  rfl

theorem read_budget (d : Draft) (value : String) :
    d.read (withValue "--budget" value) =
      (readValue "--budget" value budget?).map fun budget =>
        { d with options := { d.options with budget } } := by
  have hticks : valueOf? "--ticks" (withValue "--budget" value) = none :=
    valueOf?_eq_none (not_uses_withValue (by decide) (by decide) (by decide))
  simp only [read, hticks, valueOf?_withValue]
  rfl

theorem read_seed (d : Draft) (value : String) :
    d.read (withValue "--seed" value) =
      (readValue "--seed" value (Numeral.whole? (2 ^ 64))).map fun seed =>
        { d with options := { d.options with seed := UInt64.ofNat seed } } := by
  have hticks : valueOf? "--ticks" (withValue "--seed" value) = none :=
    valueOf?_eq_none (not_uses_withValue (by decide) (by decide) (by decide))
  have hbudget : valueOf? "--budget" (withValue "--seed" value) = none :=
    valueOf?_eq_none (not_uses_withValue (by decide) (by decide) (by decide))
  simp only [read, hticks, hbudget, valueOf?_withValue]
  rfl

/-- An argument that uses no flag with a value and is not the one without goes by its
first character. -/
theorem read_of_not_uses (d : Draft) (huses : ∀ flag ∈ valued, ¬ Uses flag a)
    (hprofile : a ≠ "--profile") :
    d.read a =
      if ¬ IsName a then .error (.unknownFlag a)
      else if d.demo?.isNone then .ok { d with demo? := some a }
      else .error (.unexpectedArgument a) := by
  have hnone : ∀ flag ∈ valued, valueOf? flag a = none :=
    fun flag hflag => valueOf?_eq_none (huses flag hflag)
  simp only [read, hnone "--ticks" (by decide), hnone "--budget" (by decide),
    hnone "--seed" (by decide), hprofile, IsName, ne_eq, not_not, if_false]

/-- `d.Takes a d'`: the argument can be read after `d`, and `d'` is what there is then. -/
inductive Takes (d : Draft) : String → Draft → Prop
  | ticks {value : String} {n : Nat} (h : Numeral.whole? (2 ^ 32) value = some n) :
      Takes d (withValue "--ticks" value)
        { d with options := { d.options with ticks := n } }
  | budget {value : String} {b : Number} (h : Numeral.number? value = some b)
      (hfinite : b.isFinite = true) (hsign : ¬ b < .zero) :
      Takes d (withValue "--budget" value)
        { d with options := { d.options with budget := b } }
  | seed {value : String} {n : Nat} (h : Numeral.whole? (2 ^ 64) value = some n) :
      Takes d (withValue "--seed" value)
        { d with options := { d.options with seed := UInt64.ofNat n } }
  | profile : Takes d "--profile" { d with options := { d.options with profile := true } }
  | name {a : String} (h : IsName a) (hfirst : d.demo? = none) :
      Takes d a { d with demo? := some a }

/-- What can be read is read. -/
theorem read_of_takes (h : d.Takes a d') : d.read a = .ok d' := by
  cases h with
  | ticks h =>
      rw [read_ticks, readValue, h]
      rfl
  | @budget value b h hfinite hsign =>
      have hbudget : budget? value = some b := by simp [budget?, h, hfinite, hsign]
      rw [read_budget, readValue, hbudget]
      rfl
  | seed h =>
      rw [read_seed, readValue, h]
      rfl
  | profile => rfl
  | name h hfirst =>
      rw [read_of_not_uses d (fun flag hflag => h.not_uses hflag) h.ne_profile]
      simp [h, hfirst]

/-- What offends is complained about. -/
theorem read_of_offends (h : Offends (d.demo?.isSome = true) a e) :
    d.read a = .error e := by
  cases h with
  | ticks h =>
      rw [read_ticks, readValue, h]
      rfl
  | @budget value h =>
      have hbudget : budget? value = none := by
        rw [budget?, Option.filter_eq_none_iff]
        intro b hb
        rcases h b hb with hfinite | hsign <;> simp [*]
      rw [read_budget, readValue, hbudget]
      rfl
  | seed h =>
      rw [read_seed, readValue, h]
      rfl
  | unknown hdash hprofile huses =>
      rw [read_of_not_uses d huses hprofile, if_pos hdash]
  | second h hnamed =>
      rw [read_of_not_uses d (fun flag hflag => h.not_uses hflag) h.ne_profile]
      simp [h, Option.isSome_iff_ne_none.mp hnamed]

/-- There is nothing else that an argument can be. -/
theorem takes_or_offends (d : Draft) (a : String) :
    (∃ d', d.Takes a d') ∨ ∃ e, Offends (d.demo?.isSome = true) a e := by
  by_cases hticks : Uses "--ticks" a
  · obtain ⟨value, rfl⟩ := hticks
    cases h : Numeral.whole? (2 ^ 32) value with
    | some n => exact .inl ⟨_, .ticks h⟩
    | none => exact .inr ⟨_, .ticks h⟩
  by_cases hbudget : Uses "--budget" a
  · obtain ⟨value, rfl⟩ := hbudget
    by_cases h : ∃ b, Numeral.number? value = some b ∧ b.isFinite = true ∧ ¬ b < .zero
    · obtain ⟨b, hb, hfinite, hsign⟩ := h
      exact .inl ⟨_, .budget hb hfinite hsign⟩
    · refine .inr ⟨_, .budget fun b hb => ?_⟩
      grind
  by_cases hseed : Uses "--seed" a
  · obtain ⟨value, rfl⟩ := hseed
    cases h : Numeral.whole? (2 ^ 64) value with
    | some n => exact .inl ⟨_, .seed h⟩
    | none => exact .inr ⟨_, .seed h⟩
  by_cases hprofile : a = "--profile"
  · subst hprofile
    exact .inl ⟨_, .profile⟩
  by_cases hname : IsName a
  · cases hdemo : d.demo? with
    | none => exact .inl ⟨_, .name hname hdemo⟩
    | some demo => exact .inr ⟨_, .second hname rfl⟩
  · refine .inr ⟨_, .unknown hname hprofile ?_⟩
    simp only [valued, List.forall_mem_cons]
    exact ⟨hticks, hbudget, hseed, by simp⟩

end Draft

/-! ## Options by their description -/

/-- What the last use of a flag says; without a use of it, the default. -/
inductive Setting {α : Type} (flag : String) (read? : String → Option α) (default : α)
    (args : List String) : α → Prop
  | default (h : ∀ a ∈ args, ¬ Uses flag a) : Setting flag read? default args default
  | last {earlier later : List String} {value : String} {x : α}
      (hlast : args = earlier ++ withValue flag value :: later)
      (hlater : ∀ a ∈ later, ¬ Uses flag a) (hread : read? value = some x) :
      Setting flag read? default args x

/-- The options other than the name of the demo are those that the arguments give. -/
structure Gives (args : List String) (o : Options) : Prop where
  ticks : Setting "--ticks" (Numeral.whole? (2 ^ 32)) 200 args o.ticks
  budget : Setting "--budget" Numeral.number? (.ofInt 4) args o.budget
  seed : Setting "--seed" (fun value => (Numeral.whole? (2 ^ 64) value).map UInt64.ofNat)
    Program.defaultSeed args o.seed
  profile : o.profile = true ↔ "--profile" ∈ args

/-- Every argument is an option that can be read or a name, there is one name, and the
options are those that the arguments give. -/
structure Describes (args : List String) (o : Options) : Prop where
  readable : ∀ a ∈ args, Readable a ∨ IsName a
  demo : args.filter (IsName ·) = [o.demo]
  gives : Gives args o

/-- No argument offends. -/
def Clean (args : List String) : Prop :=
  ∀ earlier a later e, args = earlier ++ a :: later →
    ¬ Offends (∃ b ∈ earlier, IsName b) a e

/-- The complaint about arguments: that about the first one that offends, or, if none
does, that there is no name among them. -/
inductive Complaint (args : List String) : OptionError → Prop
  | offends {earlier later : List String} {a : String} {e : OptionError}
      (hsplit : args = earlier ++ a :: later) (hclean : Clean earlier)
      (h : Offends (∃ b ∈ earlier, IsName b) a e) : Complaint args e
  | missingDemo (hclean : Clean args) (h : ∀ a ∈ args, ¬ IsName a) :
      Complaint args .missingDemo

/-- The same arguments in another order, in which the uses of each flag stand as they
stood. -/
structure Reordered (args args' : List String) : Prop where
  perm : args.Perm args'
  uses : ∀ flag ∈ valued, args.filter (Uses flag ·) = args'.filter (Uses flag ·)

section Setting

variable {α : Type} {read? : String → Option α} {default x y : α}

theorem Setting.here (hread : read? value = some x) :
    Setting flag read? default (args ++ [withValue flag value]) x :=
  .last rfl (by simp) hread

/-- A setting depends on the uses of its flag alone. -/
theorem setting_iff : Setting flag read? default args x ↔
    (args.filter (Uses flag ·) = [] ∧ x = default) ∨
      ∃ us value, args.filter (Uses flag ·) = us ++ [withValue flag value] ∧
        read? value = some x := by
  have hself : ∀ value, Uses flag (withValue flag value) := fun value => ⟨value, rfl⟩
  constructor
  · intro h
    cases h with
    | default h => exact .inl ⟨List.filter_eq_nil_iff.mpr (by simpa using h), rfl⟩
    | @last earlier later value _ hlast hlater hread =>
        refine .inr ⟨earlier.filter (Uses flag ·), value, ?_, hread⟩
        have hnone : later.filter (Uses flag ·) = [] :=
          List.filter_eq_nil_iff.mpr (by simpa using hlater)
        rw [hlast, List.filter_append, List.filter_cons_of_pos (by simp [hself]), hnone]
  · rintro (⟨hnone, rfl⟩ | ⟨us, value, huses, hread⟩)
    · exact .default (by simpa using List.filter_eq_nil_iff.mp hnone)
    · obtain ⟨front, back, rfl, -, hback⟩ := List.filter_eq_append_iff.mp huses
      obtain ⟨between, later, rfl, -, -, hlater⟩ := List.filter_eq_cons_iff.mp hback
      exact .last (List.append_assoc ..).symm
        (by simpa using List.filter_eq_nil_iff.mp hlater)
        hread

theorem Setting.congr (h : Setting flag read? default args x)
    (huses : args.filter (Uses flag ·) = args'.filter (Uses flag ·)) :
    Setting flag read? default args' x := by
  rw [setting_iff, huses] at h
  exact setting_iff.mpr h

theorem Setting.other (h : Setting flag read? default args x) (ha : ¬ Uses flag a) :
    Setting flag read? default (args ++ [a]) x := by
  refine h.congr ?_
  rw [List.filter_append, List.filter_cons_of_neg (by simpa using ha)]
  simp

theorem Setting.unique (h : Setting flag read? default args x)
    (h' : Setting flag read? default args y) : x = y := by
  rcases setting_iff.mp h with ⟨hnone, rfl⟩ | ⟨us, value, huses, hread⟩
  · rcases setting_iff.mp h' with ⟨-, rfl⟩ | ⟨us, value, huses, -⟩
    · rfl
    · simp [hnone] at huses
  · rcases setting_iff.mp h' with ⟨hnone, -⟩ | ⟨us', value', huses', hread'⟩
    · simp [hnone] at huses
    · obtain ⟨-, hlast⟩ := List.append_inj' (huses.symm.trans huses') rfl
      rw [withValue_inj (List.singleton_inj.mp hlast), hread'] at hread
      exact (Option.some.inj hread).symm

end Setting

/-! ## Reading all arguments -/

variable {d d' : Draft} {o o' : Options} {e : OptionError} {named named' : Prop}

theorem mem_profile_concat (h : a ≠ "--profile") :
    "--profile" ∈ args ++ [a] ↔ "--profile" ∈ args := by
  simp [h.symm]

theorem Gives.takes (h : Gives args d.options) (ht : d.Takes a d') :
    Gives (args ++ [a]) d'.options := by
  cases ht with
  | @ticks value n hn =>
      constructor
      · exact .here hn
      · exact h.budget.other (not_uses_withValue (by decide) (by decide) (by decide))
      · exact h.seed.other (not_uses_withValue (by decide) (by decide) (by decide))
      · rw [mem_profile_concat (withValue_ne_profile (by decide))]
        exact h.profile
  | @budget value b hb =>
      constructor
      · exact h.ticks.other (not_uses_withValue (by decide) (by decide) (by decide))
      · exact .here hb
      · exact h.seed.other (not_uses_withValue (by decide) (by decide) (by decide))
      · rw [mem_profile_concat (withValue_ne_profile (by decide))]
        exact h.profile
  | @seed value n hn =>
      constructor
      · exact h.ticks.other (not_uses_withValue (by decide) (by decide) (by decide))
      · exact h.budget.other (not_uses_withValue (by decide) (by decide) (by decide))
      · exact .here (by rw [hn]; rfl)
      · rw [mem_profile_concat (withValue_ne_profile (by decide))]
        exact h.profile
  | profile =>
      constructor
      · exact h.ticks.other (not_uses_profile _ (by decide))
      · exact h.budget.other (not_uses_profile _ (by decide))
      · exact h.seed.other (not_uses_profile _ (by decide))
      · simp
  | name hname _ =>
      constructor
      · exact h.ticks.other (hname.not_uses (by decide))
      · exact h.budget.other (hname.not_uses (by decide))
      · exact h.seed.other (hname.not_uses (by decide))
      · rw [mem_profile_concat hname.ne_profile]
        exact h.profile

/-- What there is after some arguments, none of which offends. -/
structure Reads (args : List String) (d : Draft) : Prop where
  readable : ∀ a ∈ args, Readable a ∨ IsName a
  names : args.filter (IsName ·) = d.demo?.toList
  gives : Gives args d.options

theorem Draft.Takes.readable (h : d.Takes a d') :
    (Readable a ∧ ¬ IsName a ∧ d'.demo? = d.demo?) ∨
      (IsName a ∧ d.demo? = none ∧ d'.demo? = some a) := by
  cases h with
  | ticks h => exact .inl ⟨.ticks h, not_isName_withValue (by decide), rfl⟩
  | budget h hfinite hsign =>
      exact .inl ⟨.budget h hfinite hsign, not_isName_withValue (by decide), rfl⟩
  | seed h => exact .inl ⟨.seed h, not_isName_withValue (by decide), rfl⟩
  | profile => exact .inl ⟨.profile, by decide, rfl⟩
  | name h hfirst => exact .inr ⟨h, hfirst, rfl⟩

theorem Readable.exists_takes (h : Readable a) (d : Draft) : ∃ d', d.Takes a d' := by
  cases h with
  | ticks h => exact ⟨_, .ticks h⟩
  | budget h hfinite hsign => exact ⟨_, .budget h hfinite hsign⟩
  | seed h => exact ⟨_, .seed h⟩
  | profile => exact ⟨_, .profile⟩

theorem Reads.takes (h : Reads args d) (ht : d.Takes a d') : Reads (args ++ [a]) d' := by
  rcases ht.readable with ⟨hread, hname, hdemo⟩ | ⟨hname, hnone, hdemo⟩
  · refine ⟨?_, ?_, h.gives.takes ht⟩
    · simp only [List.forall_mem_append, List.forall_mem_singleton]
      exact ⟨h.readable, .inl hread⟩
    · rw [List.filter_append, h.names, hdemo]
      simp [hname]
  · refine ⟨?_, ?_, h.gives.takes ht⟩
    · simp only [List.forall_mem_append, List.forall_mem_singleton]
      exact ⟨h.readable, .inr hname⟩
    · rw [List.filter_append, h.names, hdemo, hnone]
      simp [hname]

theorem Offends.imp (h : Offends named a e) (himp : named → named') :
    Offends named' a e := by
  cases h with
  | ticks h => exact .ticks h
  | budget h => exact .budget h
  | seed h => exact .seed h
  | unknown hdash hprofile huses => exact .unknown hdash hprofile huses
  | second h hnamed => exact .second h (himp hnamed)

/-- An option that can be read does not offend, whatever stands before it. -/
theorem Readable.not_offends (h : Readable a) : ¬ Offends named a e := by
  intro hoff
  -- where there is a name already, all that can offend does; an option is still read
  let d : Draft := { demo? := some "" }
  obtain ⟨d', ht⟩ := h.exists_takes d
  have hread := Draft.read_of_offends (d := d) (hoff.imp fun _ => rfl)
  rw [Draft.read_of_takes ht] at hread
  cases hread

theorem Offends.of_isName (h : Offends named a e) (ha : IsName a) : named := by
  cases h with
  | ticks | budget | seed => exact absurd ha (not_isName_withValue (by decide))
  | unknown hdash => exact absurd ha hdash
  | second _ hnamed => exact hnamed

/-- No argument offends if all can be read or are names, and at most one is a name. -/
theorem clean_of_readable (hread : ∀ a ∈ args, Readable a ∨ IsName a)
    (hnames : args.countP (IsName ·) ≤ 1) : Clean args := by
  rintro earlier a later e rfl hoff
  rcases hread a (by simp) with ha | ha
  · exact ha.not_offends hoff
  · obtain ⟨b, hb, hname⟩ := hoff.of_isName ha
    have hpos : 0 < earlier.countP (IsName ·) :=
      List.countP_pos_iff.mpr ⟨b, hb, by simpa using hname⟩
    rw [List.countP_append, List.countP_cons_of_pos (by simpa using ha)] at hnames
    omega

theorem Reads.countP_le (h : Reads args d) : args.countP (IsName ·) ≤ 1 := by
  rw [List.countP_eq_length_filter, h.names]
  cases d.demo? <;> simp

theorem Reads.clean (h : Reads args d) : Clean args :=
  clean_of_readable h.readable h.countP_le

theorem Reads.named_iff (h : Reads args d) :
    d.demo?.isSome = true ↔ ∃ b ∈ args, IsName b := by
  have hmem : (∃ b ∈ args, IsName b) ↔ ∃ b, b ∈ args.filter (IsName ·) := by simp
  rw [hmem, h.names]
  cases d.demo? <;> simp

/-- The first argument that offends, with the complaint about it. -/
theorem reads_or_offends (args : List String) :
    (∃ d, args.foldlM Draft.read {} = .ok d ∧ Reads args d) ∨
      ∃ earlier a later e, args = earlier ++ a :: later ∧ Clean earlier ∧
        Offends (∃ b ∈ earlier, IsName b) a e ∧ args.foldlM Draft.read {} = .error e := by
  induction args using List.reverseRecOn with
  | nil =>
      refine .inl ⟨{}, rfl, by simp, rfl, ?_⟩
      exact ⟨.default (by simp), .default (by simp), .default (by simp), by simp⟩
  | append_singleton args a ih =>
      rw [List.foldlM_append]
      rcases ih with ⟨d, hd, hreads⟩ | ⟨earlier, b, later, e, rfl, hclean, hoff, he⟩
      · rw [hd]
        rcases d.takes_or_offends a with ⟨d', ht⟩ | ⟨e, hoff⟩
        · refine .inl ⟨d', ?_, hreads.takes ht⟩
          simp [bind, Except.bind, Draft.read_of_takes ht, pure, Except.pure]
        · refine .inr ⟨args, a, [], e, rfl, hreads.clean,
            hoff.imp hreads.named_iff.mp, ?_⟩
          simp [bind, Except.bind, Draft.read_of_offends hoff]
      · rw [he]
        exact .inr ⟨earlier, b, later ++ [a], e, by simp, hclean, hoff, rfl⟩

theorem Clean.exists_reads (h : Clean args) :
    ∃ d, args.foldlM Draft.read {} = .ok d ∧ Reads args d := by
  rcases reads_or_offends args with hreads | ⟨earlier, a, later, e, hsplit, -, hoff, -⟩
  · exact hreads
  · exact absurd hoff (h earlier a later e hsplit)

/-- **Whether an argument offends does not depend on the order.** -/
theorem clean_iff : Clean args ↔
    (∀ a ∈ args, Readable a ∨ IsName a) ∧ args.countP (IsName ·) ≤ 1 := by
  constructor
  · intro h
    obtain ⟨d, -, hreads⟩ := h.exists_reads
    exact ⟨hreads.readable, hreads.countP_le⟩
  · rintro ⟨hread, hnames⟩
    exact clean_of_readable hread hnames

/-! ## What `parse` answers -/

theorem Describes.clean (h : Describes args o) : Clean args := by
  refine clean_of_readable h.readable ?_
  rw [List.countP_eq_length_filter, h.demo]
  exact Nat.le_refl 1

theorem Describes.exists_name (h : Describes args o) : ∃ a ∈ args, IsName a := by
  have hdemo : o.demo ∈ args.filter (IsName ·) := by simp [h.demo]
  obtain ⟨hmem, hname⟩ := List.mem_filter.mp hdemo
  exact ⟨o.demo, hmem, of_decide_eq_true hname⟩

theorem Describes.unique (h : Describes args o) (h' : Describes args o') : o = o' := by
  obtain ⟨demo, ticks, budget, seed, profile⟩ := o
  obtain ⟨demo', ticks', budget', seed', profile'⟩ := o'
  have hdemo : demo = demo' := List.singleton_inj.mp (h.demo.symm.trans h'.demo)
  have hticks : ticks = ticks' := h.gives.ticks.unique h'.gives.ticks
  have hbudget : budget = budget' := h.gives.budget.unique h'.gives.budget
  have hseed : seed = seed' := h.gives.seed.unique h'.gives.seed
  have hprofile : profile = profile' :=
    Bool.eq_iff_iff.mpr (h.gives.profile.trans h'.gives.profile.symm)
  rw [hdemo, hticks, hbudget, hseed, hprofile]

theorem parse_of_reads (hd : args.foldlM Draft.read {} = .ok d) (h : Reads args d) :
    (∃ o, parse args = .ok o ∧ Describes args o) ∨
      (parse args = .error .missingDemo ∧ ∀ a ∈ args, ¬ IsName a) := by
  cases hdemo : d.demo? with
  | some demo =>
      refine .inl ⟨{ d.options with demo }, ?_, h.readable, ?_, ?_⟩
      · simp [parse, hd, hdemo, bind, Except.bind, pure, Except.pure]
      · rw [h.names, hdemo]
        rfl
      · exact ⟨h.gives.ticks, h.gives.budget, h.gives.seed, h.gives.profile⟩
  | none =>
      refine .inr ⟨?_, fun a ha hname => ?_⟩
      · simp [parse, hd, hdemo, bind, Except.bind]
      · have hsome := h.named_iff.mpr ⟨a, ha, hname⟩
        rw [hdemo] at hsome
        cases hsome

theorem parse_cases (args : List String) :
    (∃ o, parse args = .ok o ∧ Describes args o) ∨
      ∃ e, parse args = .error e ∧ Complaint args e := by
  rcases reads_or_offends args with ⟨d, hd, h⟩
    | ⟨earlier, a, later, e, hsplit, hclean, hoff, he⟩
  · rcases parse_of_reads hd h with hok | ⟨herror, hnone⟩
    · exact .inl hok
    · exact .inr ⟨_, herror, .missingDemo h.clean hnone⟩
  · refine .inr ⟨e, ?_, .offends hsplit hclean hoff⟩
    simp [parse, he, bind, Except.bind]

theorem parse_eq_ok_iff : parse args = .ok o ↔ Describes args o := by
  constructor
  · intro hok
    rcases parse_cases args with ⟨o', hok', h⟩ | ⟨e, herror, -⟩
    · rwa [Except.ok.inj (hok.symm.trans hok')]
    · cases hok.symm.trans herror
  · intro h
    obtain ⟨d, hd, hreads⟩ := h.clean.exists_reads
    rcases parse_of_reads hd hreads with ⟨o', hok, h'⟩ | ⟨-, hnone⟩
    · rwa [h.unique h']
    · obtain ⟨a, ha, hname⟩ := h.exists_name
      exact absurd hname (hnone a ha)

theorem parse_eq_error_iff : parse args = .error e ↔ Complaint args e := by
  constructor
  · intro herror
    rcases parse_cases args with ⟨o, hok, -⟩ | ⟨e', herror', h⟩
    · cases hok.symm.trans herror
    · rwa [Except.error.inj (herror.symm.trans herror')]
  · intro h
    cases h with
    | @offends earlier later a _ hsplit hclean hoff =>
        obtain ⟨d, hd, hreads⟩ := hclean.exists_reads
        have hread := Draft.read_of_offends (hoff.imp hreads.named_iff.mpr)
        simp [parse, hsplit, List.foldlM_append, hd, hread, bind, Except.bind]
    | missingDemo hclean hnone =>
        obtain ⟨d, hd, hreads⟩ := hclean.exists_reads
        rcases parse_of_reads hd hreads with ⟨o, -, h⟩ | ⟨herror, -⟩
        · obtain ⟨a, ha, hname⟩ := h.exists_name
          exact absurd hname (hnone a ha)
        · exact herror

/-- **Arguments are accepted** by what they are, each for itself, and by the number of
names. -/
theorem exists_parse_iff : (∃ o, parse args = .ok o) ↔
    (∀ a ∈ args, Readable a ∨ IsName a) ∧ args.countP (IsName ·) = 1 := by
  constructor
  · rintro ⟨o, hok⟩
    have ho := parse_eq_ok_iff.mp hok
    refine ⟨ho.readable, ?_⟩
    rw [List.countP_eq_length_filter, ho.demo]
    rfl
  · rintro ⟨hread, hnames⟩
    have hclean := clean_of_readable hread (Nat.le_of_eq hnames)
    rcases parse_cases args with ⟨o, hok, -⟩ | ⟨e, -, hcomplaint⟩
    · exact ⟨o, hok⟩
    · cases hcomplaint with
      | offends hsplit _ hoff => exact absurd hoff (hclean _ _ _ _ hsplit)
      | missingDemo _ hnone =>
          rw [List.countP_eq_zero.mpr (by simpa using hnone)] at hnames
          cases hnames

/-! ## Other orders -/

theorem Reordered.symm (h : Reordered args args') : Reordered args' args :=
  ⟨h.perm.symm, fun flag hflag => (h.uses flag hflag).symm⟩

theorem Reordered.clean (h : Reordered args args') (hclean : Clean args) :
    Clean args' := by
  obtain ⟨hread, hnames⟩ := clean_iff.mp hclean
  refine clean_of_readable (fun a ha => hread a (h.perm.mem_iff.mpr ha)) ?_
  rwa [← h.perm.countP_eq]

theorem Reordered.describes (h : Reordered args args') (ho : Describes args o) :
    Describes args' o := by
  refine ⟨fun a ha => ho.readable a (h.perm.mem_iff.mpr ha), ?_, ?_⟩
  · have hperm := h.perm.filter (IsName ·)
    rw [ho.demo] at hperm
    exact (List.singleton_perm.mp hperm).symm
  · constructor
    · exact ho.gives.ticks.congr (h.uses _ (by decide))
    · exact ho.gives.budget.congr (h.uses _ (by decide))
    · exact ho.gives.seed.congr (h.uses _ (by decide))
    · rw [← h.perm.mem_iff]
      exact ho.gives.profile

/-- The order makes no difference if there is nothing to complain about but the lack of a
name. -/
theorem Reordered.parse_eq (h : Reordered args args') (hclean : Clean args) :
    parse args' = parse args := by
  rcases parse_cases args with ⟨o, hok, ho⟩ | ⟨e, herror, hcomplaint⟩
  · rw [hok]
    exact parse_eq_ok_iff.mpr (h.describes ho)
  · rw [herror]
    cases hcomplaint with
    | offends hsplit _ hoff => exact absurd hoff (hclean _ _ _ _ hsplit)
    | missingDemo _ hnone =>
        refine parse_eq_error_iff.mpr (.missingDemo (h.clean hclean) fun a ha => ?_)
        exact hnone a (h.perm.mem_iff.mpr ha)

/--
**Options may stand anywhere.**  Arguments are accepted exactly if each of them is an
option that can be read or does not start with a dash, and there is exactly one of the
latter kind.  That one is the name of the demo; whether to keep counts is whether
`--profile` stands anywhere, and ticks, budget and seed are those of the last use of their
flag, or the defaults.  So the arguments can be brought into any other order that keeps
the uses of each flag in theirs, with the same options, and the very same answer if
nothing offends.  Arguments that are not accepted are complained about: the complaint is
that about the first one that offends, a second name being one, and that a name is missing
if none does.
-/
theorem parse_order_free (args : List String) :
    (∀ o, parse args = .ok o ↔ Describes args o) ∧
      ((∃ o, parse args = .ok o) ↔
        (∀ a ∈ args, Readable a ∨ IsName a) ∧ args.countP (IsName ·) = 1) ∧
      (∀ args', Reordered args args' →
        (∀ o, parse args' = .ok o ↔ parse args = .ok o) ∧
          (Clean args → parse args' = parse args)) ∧
      ∀ e, parse args = .error e ↔ Complaint args e := by
  refine ⟨fun o => parse_eq_ok_iff, exists_parse_iff,
    fun args' h => ⟨fun o => ?_, h.parse_eq⟩, fun e => parse_eq_error_iff⟩
  rw [parse_eq_ok_iff, parse_eq_ok_iff]
  exact ⟨h.symm.describes, h.describes⟩

/-- Two uses of a flag keep their order, and all else moves. -/
theorem parse_order_free_census :
    Reordered ["--ticks=10", "census", "--ticks=20", "--profile"]
        ["--profile", "--ticks=10", "--ticks=20", "census"] ∧
      parse ["--ticks=10", "census", "--ticks=20", "--profile"] =
        .ok { demo := "census", ticks := 20, profile := true } ∧
      parse ["--profile", "--ticks=10", "--ticks=20", "census"] =
        .ok { demo := "census", ticks := 20, profile := true } ∧
      Complaint ["census", "--budget=-1", "--fast", "patrol"]
        (.invalidValue "--budget" "-1") := by
  have h : Reordered ["--ticks=10", "census", "--ticks=20", "--profile"]
      ["--profile", "--ticks=10", "--ticks=20", "census"] := ⟨by decide, by decide⟩
  have hok : parse ["--ticks=10", "census", "--ticks=20", "--profile"] =
      .ok { demo := "census", ticks := 20, profile := true } := by rfl
  have herror : parse ["census", "--budget=-1", "--fast", "patrol"] =
      .error (.invalidValue "--budget" "-1") := by rfl
  obtain ⟨-, -, horders, -⟩ :=
    parse_order_free ["--ticks=10", "census", "--ticks=20", "--profile"]
  obtain ⟨-, -, -, hcomplaints⟩ :=
    parse_order_free ["census", "--budget=-1", "--fast", "patrol"]
  exact ⟨h, hok, ((horders _ h).1 _).mpr hok, (hcomplaints _).mp herror⟩

end ActorScript.Options
