import ActorScript.Proofs.Interning
import ActorScript.Proofs.Ticks

/-!
# Variables by string

The variables of a script are filed by number, and people address them by string.  This
works because the numbers of strings stay what they are: while a tree is under
construction, and after it has been started, when strings may still be given numbers.

## Main results

* `declares_construct` — what a tree declares, however it has been constructed.
* `Run.names_eq` — a run changes the values of variables, and never which ones there are.
* `files_of_usage` — the variables of a program in use are those that its tree declares.
* `names_bijective_readers_agree` — what this means for the numbers of strings, and for
  those who read variables by string.
-/

namespace ActorScript

/-! ## Trees under construction -/

namespace Tree

variable {t : Tree} {ss ds : List String}

/-- A step in the construction of a tree. -/
inductive Edit where
  | intern (s : String)
  | declare (s : String) (type : ValueType)
  | addExpr (e : Expr)
  | addStmt (s : Stmt)
  | addSequence (body : List StmtId)
  | setRoot (id : StmtId)

/-- What the step does. -/
def Edit.builder : Edit → Builder Unit
  | .intern s => discard (Tree.intern s)
  | .declare s type => discard (Tree.declare s type)
  | .addExpr e => discard (Tree.addExpr e)
  | .addStmt s => discard (Tree.addStmt s)
  | .addSequence body => discard (Tree.addSequence body)
  | .setRoot id => Tree.setRoot id

def Edit.interned? : Edit → Option String
  | .intern s | .declare s _ => some s
  | _ => none

def Edit.declared? : Edit → Option String
  | .declare s _ => some s
  | _ => none

/-- The tree has given numbers to the strings `ss`, in that order, and declares the
variables `ds`. -/
structure Declares (t : Tree) (ss ds : List String) : Prop where
  names_eq : t.names = .ofList ss
  globals_eq : t.globals.toList.map (fun declaration => some declaration.1) =
    ds.map t.names.get?

theorem Declares.exists_get? (h : t.Declares ss ds) {s : String} (hs : s ∈ ds) :
    ∃ n, t.names.get? s = some n := by
  obtain ⟨declaration, -, hname⟩ :=
    List.mem_map.mp (h.globals_eq ▸ List.mem_map_of_mem hs)
  exact ⟨declaration.1, hname.symm⟩

theorem Declares.intern (h : t.Declares ss ds) (s : String) :
    ((Tree.intern s).run t).2.Declares (ss ++ [s]) ds := by
  constructor
  · show (t.names.intern s).2 = _
    rw [Names.ofList_concat, h.names_eq]
  · show t.globals.toList.map _ = ds.map (t.names.intern s).2.get?
    rw [h.globals_eq]
    refine List.map_congr_left fun s' hs' => ?_
    obtain ⟨n, hn⟩ := h.exists_get? hs'
    rw [hn, Names.get?_intern_of_some hn]

theorem Declares.edit (h : t.Declares ss ds) (e : Edit) :
    (e.builder.run t).2.Declares (ss ++ e.interned?.toList)
    (ds ++ e.declared?.toList) := by
  cases e with
  | intern s =>
      show Declares _ _ (ds ++ [])
      rw [List.append_nil]
      exact h.intern s
  | declare s type =>
      obtain ⟨hnames, hglobals⟩ := h.intern s
      refine ⟨hnames, ?_⟩
      show (t.globals.push ((t.names.intern s).1, type)).toList.map _ =
        (ds ++ [s]).map (t.names.intern s).2.get?
      rw [Array.toList_push, List.map_append, List.map_append]
      refine congrArg₂ _ hglobals ?_
      show [some (t.names.intern s).1] = [(t.names.intern s).2.get? s]
      rw [Names.get?_intern, if_pos rfl]
  | addExpr | addStmt | addSequence | setRoot =>
      show Declares _ (ss ++ []) (ds ++ [])
      rw [List.append_nil, List.append_nil]
      exact ⟨h.names_eq, h.globals_eq⟩

/-- The strings that are given numbers in the course of a construction, in order. -/
def interned (edits : List Edit) : List String := edits.filterMap Edit.interned?

/-- The strings that are declared in the course of a construction, in order. -/
def declared (edits : List Edit) : List String := edits.filterMap Edit.declared?

theorem Declares.edits (edits : List Edit) : ∀ {t ss ds}, Declares t ss ds →
    ((edits.forM Edit.builder).run t).2.Declares (ss ++ interned edits)
    (ds ++ declared edits) := by
  induction edits with
  | nil =>
      intro t ss ds h
      show Declares t (ss ++ []) (ds ++ [])
      rw [List.append_nil, List.append_nil]
      exact h
  | cons e edits ih =>
      intro t ss ds h
      have hinterned : interned (e :: edits) = e.interned?.toList ++ interned edits := by
        cases e <;> rfl
      have hdeclared : declared (e :: edits) = e.declared?.toList ++ declared edits := by
        cases e <;> rfl
      rw [hinterned, hdeclared, ← List.append_assoc, ← List.append_assoc]
      exact ih (h.edit e)

/-- The tree that steps make one after the other. -/
def construct (edits : List Edit) : Tree := build (edits.forM Edit.builder)

/-- **Every construction** declares what it says. -/
theorem declares_construct (edits : List Edit) :
    (construct edits).Declares (interned edits) (declared edits) := by
  have hnew : Declares {} [] [] := ⟨rfl, rfl⟩
  exact hnew.edits edits

end Tree

/-! ## Variables -/

namespace Globals

variable {g g' : Globals} {name : Name} {v : Value}

/-- The names of the variables. -/
def names (g : Globals) : List Name := g.slots.map Prod.fst

theorem names_ofDeclarations (declarations : List (Name × ValueType)) :
    (ofDeclarations declarations).names.Pairwise (· < ·) ∧
      ∀ n, n ∈ (ofDeclarations declarations).names ↔ n ∈ declarations.map Prod.fst := by
  induction declarations using List.reverseRecOn with
  | nil => exact ⟨.nil, fun _ => .rfl⟩
  | append_singleton declarations d ih =>
      have hlast : ofDeclarations (declarations ++ [d]) =
          (ofDeclarations declarations).declare d.1 d.2 := by
        unfold ofDeclarations
        rw [List.foldl_append]
        rfl
      rw [hlast]
      refine ⟨Keyed.Ascending.insert ih.1 .., fun n => Keyed.mem_keys_insert.trans ?_⟩
      rw [List.map_append, List.mem_append, List.map_singleton,
        List.mem_singleton, or_comm]
      exact or_congr_left (ih.2 n)

/-- A write changes the value of a variable that is there. -/
theorem names_assign (hasc : g.names.Pairwise (· < ·)) (h : g.assign name v = .ok g') :
    g'.names = g.names := by
  unfold assign at h
  split at h
  · cases h
  · rename_i slot hslot
    split at h
    · cases h
      exact Keyed.Ascending.keys_insert hasc
        (Keyed.isSome_lookup_iff.mp (Option.isSome_of_eq_some hslot))
    · cases h

end Globals

namespace Machine

variable {W : Type} [World W] {t : Tree} {c c' : Config W}

/-- Variables change by writes alone. -/
theorem Config.Step.globals_written {e : Option Event} (h : Step t c e c') :
    c'.memory.globals = c.memory.globals ∨
      ∃ name v, c.memory.globals.assign name v = .ok c'.memory.globals := by
  cases h with
  | quiet h => exact .inl (by cases h <;> rfl)
  | deed _ h =>
      cases h with
      | assign _ _ hg => exact .inr ⟨_, _, hg⟩
      | visit _ _ _ hg => exact .inr ⟨_, _, hg⟩
      | print | act | leaveLoop | choose | chooseNone | list | check | stop =>
          exact .inl rfl
  | faulted | refused | waitRefused | waitFaulted | waited | waiting => exact .inl rfl

theorem Config.Step.names_eq {e : Option Event} (h : Step t c e c')
    (hasc : c.memory.globals.names.Pairwise (· < ·)) :
    c'.memory.globals.names = c.memory.globals.names := by
  rcases h.globals_written with heq | ⟨name, v, hassign⟩
  · rw [heq]
  · exact Globals.names_assign hasc hassign

/-- **A run changes the values of variables**, and never which ones there are. -/
theorem Run.names_eq {ms : List (Transition W)} (h : Run t c ms c')
    (hasc : c.memory.globals.names.Pairwise (· < ·)) :
    c'.memory.globals.names = c.memory.globals.names := by
  refine (h.keeps (P := fun d => d.memory.globals.names = c.memory.globals.names) rfl
    fun m _ hnames hstep => ?_).1
  rw [← hnames] at hasc
  exact (hstep.names_eq hasc).trans hnames

end Machine

/-! ## Programs in use -/

namespace Program

variable {p q : Program} {t : Tree} {subject : ActorId} {settings : Settings}
  {ss ds : List String} {s : String} {n : Name}

/-- A program whose tree gives a number to one more string. -/
def intern (q : Program) (s : String) : Program :=
  { q with tree := ((Tree.intern s).run q.tree).2 }

/-- The program has come from `p` to `q` by ticks, with any budgets and in any worlds,
between which the strings `ss` were given numbers, in that order. -/
inductive Usage (p : Program) : List String → Program → Prop
  | start : Usage p [] p
  | tick {W : Type} [World W] {ss : List String} {q : Program} {limit : Nat} {w : W}
      {budget : Number} {k : Tick W} (h : Usage p ss q)
      (hk : q.advance? limit w budget = some k) : Usage p ss k.program
  | intern {ss : List String} {q : Program} (h : Usage p ss q) (s : String) :
      Usage p (ss ++ [s]) (q.intern s)

/-- The program has a variable for each string of `ds`, filed under the number of the
string. -/
structure Files (ss ds : List String) (q : Program) : Prop where
  declares : q.tree.Declares ss ds
  ascending : q.memory.globals.names.Pairwise (· < ·)
  mem_iff : ∀ n, n ∈ q.memory.globals.names ↔ n ∈ q.tree.globals.toList.map Prod.fst

theorem files_of_start (h : start t subject settings = .ok p) (ht : t.Declares ss ds) :
    Files ss ds p := by
  obtain ⟨root, progress, -, -, rfl⟩ := start_eq_ok_iff.mp h
  obtain ⟨hasc, hmem⟩ := Globals.names_ofDeclarations t.globals.toList
  exact ⟨ht, hasc, hmem⟩

theorem Files.tick {W : Type} [World W] {limit : Nat} {w : W}
    {budget : Number} {k : Tick W} (h : Files ss ds q)
    (hk : q.advance? limit w budget = some k) : Files ss ds k.program := by
  rcases advance?_eq_some hk with ⟨-, -, rfl⟩ | ⟨-, outcome, c', hrun, -, rfl⟩
  · exact h
  · have htree : (q.settle outcome c'.memory).tree = q.tree := (settle_tree ..).1
    have hnames : (q.settle outcome c'.memory).memory.globals.names =
        q.memory.globals.names := by
      obtain ⟨tally, halted, hmemory⟩ := q.settle_memory outcome c'.memory
      rw [hmemory]
      exact hrun.names_eq h.ascending
    constructor
    · rw [htree]
      exact h.declares
    · rw [hnames]
      exact h.ascending
    · rw [hnames, htree]
      exact h.mem_iff

theorem Files.intern (h : Files ss ds q) (s : String) :
    Files (ss ++ [s]) ds (q.intern s) :=
  ⟨h.declares.intern s, h.ascending, h.mem_iff⟩

/-- **The variables of a program in use** are those that its tree declares. -/
theorem files_of_usage {more : List String} (h : Files ss ds p) (hq : Usage p more q) :
    Files (ss ++ more) ds q := by
  induction hq with
  | start =>
      rw [List.append_nil]
      exact h
  | tick _ hk ih => exact ih.tick hk
  | intern _ s ih =>
      rw [← List.append_assoc]
      exact ih.intern s

/-! ## Reading variables -/

theorem Files.lists (h : Files ss ds q) (hsize : q.tree.names.size < 2 ^ 32) :
    q.tree.names.Lists (Names.firsts ss) := by
  rw [h.declares.names_eq] at hsize ⊢
  exact Names.lists_ofList ss (Nat.le_of_lt hsize)

theorem Files.mem_names_iff (h : Files ss ds q) :
    n ∈ q.memory.globals.names ↔ ∃ s ∈ ds, q.tree.names.get? s = some n := by
  have hsome : n ∈ q.tree.globals.toList.map Prod.fst ↔
      some n ∈ q.tree.globals.toList.map fun declaration => some declaration.1 := by
    simp only [List.mem_map, Option.some_inj]
  rw [h.mem_iff, hsome, h.declares.globals_eq, List.mem_map]

theorem global?_eq_none (hn : n ∉ q.memory.globals.names) : q.global? n = none := by
  have hslot : q.memory.globals.slots.lookup n = none := by
    rw [← Option.not_isSome_iff_eq_none, Keyed.isSome_lookup_iff]
    exact hn
  show (q.memory.globals.slots.lookup n).map Slot.value = none
  rw [hslot]
  rfl

/-- **A variable by its string** is the variable by the number that the string has or is
given. -/
theorem Files.globalNamed?_eq (h : Files ss ds q) (hsize : q.tree.names.size < 2 ^ 32)
    (s : String) : q.globalNamed? s = q.global? (q.tree.names.intern s).1 := by
  have hl := h.lists hsize
  unfold globalNamed?
  by_cases hs : s ∈ Names.firsts ss
  · obtain ⟨n, hn⟩ := hl.mem_iff.mp hs
    rw [hn, Names.intern_of_get? hn]
    rfl
  · rw [hl.get?_eq_none hs, hl.intern_fst hs (hl.size_eq ▸ hsize)]
    -- the number is a new one, and nothing is filed under it
    refine (global?_eq_none fun hmem => ?_).symm
    obtain ⟨s', -, hs'⟩ := h.mem_names_iff.mp hmem
    have hplace := (hl.get?_eq_some_iff s' _).mp hs'
    rw [List.getElem?_eq_none (Nat.le_refl _)] at hplace
    cases hplace

/-- **The list of variables** goes by the order in which the strings came first. -/
theorem Files.globals_fst (h : Files ss ds q) (hsize : q.tree.names.size < 2 ^ 32) :
    q.globals.map Prod.fst = (Names.firsts ss).filter (· ∈ ds) := by
  have hl := h.lists hsize
  have hnames : q.memory.globals.names =
      (List.range (Names.firsts ss).length).filter fun n =>
          q.tree.names.lookup n ∈ ds := by
    refine Keyed.eq_of_ascending h.ascending (List.pairwise_lt_range.filter _) fun n => ?_
    rw [h.mem_names_iff, List.mem_filter, List.mem_range, decide_eq_true_iff]
    simp only [hl.get?_eq_some_iff]
    constructor
    · rintro ⟨s, hs, hn⟩
      refine ⟨(List.getElem?_eq_some_iff.mp hn).1, ?_⟩
      rw [hl.lookup_of_getElem? hn]
      exact hs
    · rintro ⟨hlt, hs⟩
      have hn := List.getElem?_eq_getElem hlt
      rw [hl.lookup_of_getElem? hn] at hs
      exact ⟨_, hs, hn⟩
  have hrange : (List.range (Names.firsts ss).length).map q.tree.names.lookup =
      Names.firsts ss := by
    refine List.ext_getElem (by simp) fun i hi hi' => ?_
    rw [List.getElem_map, List.getElem_range]
    exact hl.lookup_of_getElem? (List.getElem?_eq_getElem hi')
  calc q.globals.map Prod.fst = q.memory.globals.names.map q.tree.names.lookup := by
        simp only [globals, Globals.toList, Globals.names, List.map_map]
        rfl
    _ = ((List.range (Names.firsts ss).length).map q.tree.names.lookup).filter
        (· ∈ ds) := by
        rw [hnames, List.filter_map]
        rfl
    _ = (Names.firsts ss).filter (· ∈ ds) := by rw [hrange]

theorem Files.mem_globals_iff (h : Files ss ds q)
    (hsize : q.tree.names.size < 2 ^ 32) {v : Value} :
    (s, v) ∈ q.globals ↔ q.globalNamed? s = some v := by
  have hl := h.lists hsize
  have hlookup : ∀ {n slot}, q.memory.globals.slots.lookup n = some slot ↔
      (n, slot) ∈ q.memory.globals.slots := Keyed.lookup_eq_some_iff h.ascending
  constructor
  · intro hmem
    obtain ⟨⟨n, _⟩, hvalue, hstring⟩ := List.mem_map.mp hmem
    obtain ⟨⟨_, slot⟩, hslot, ⟨⟩⟩ := List.mem_map.mp hvalue
    cases hstring
    obtain ⟨s, -, hs⟩ := h.mem_names_iff.mp (List.mem_map_of_mem hslot)
    rw [hl.lookup_of_getElem? ((hl.get?_eq_some_iff s n).mp hs), globalNamed?, hs]
    show (q.memory.globals.slots.lookup n).map Slot.value = some slot.value
    rw [hlookup.mpr hslot]
    rfl
  · intro hvalue
    obtain ⟨n, hs, hvalue⟩ := Option.bind_eq_some_iff.mp hvalue
    obtain ⟨slot, hslot, rfl⟩ := Option.map_eq_some_iff.mp hvalue
    have hstring := hl.lookup_of_getElem? ((hl.get?_eq_some_iff s n).mp hs)
    have hmem : (n, slot.value) ∈ q.memory.globals.toList :=
      List.mem_map.mpr ⟨(n, slot), hlookup.mp hslot, rfl⟩
    exact List.mem_map.mpr ⟨(n, slot.value), hmem, congrArg (·, slot.value) hstring⟩

/--
**Strings and numbers determine each other, and so do the two ways to read variables.**  A
table of names gives the numbers 0, 1, 2 and so on to different strings in the order in
which they come, from the empty string on; a string keeps its number, and finding the one
from the other, in either direction, undoes the other way.  So however a tree has been
constructed, however the program has been ticked and whichever strings have been given
numbers in between, a variable read by string is the variable read by the number of the
string, and the list of all variables has each declared string once, in the order in which
they came first, with its value.
-/
theorem names_bijective_readers_agree :
    (∀ requests : List Names.Request,
      (Names.after requests).size < 2 ^ 32 → Names.Bijective requests) ∧
    ∀ (edits : List Tree.Edit) (subject : ActorId) (settings : Settings) (p : Program),
      start (Tree.construct edits) subject settings = .ok p →
      ∀ (ss : List String) (q : Program), Usage p ss q → q.tree.names.size < 2 ^ 32 →
      (∀ s, q.globalNamed? s = (q.intern s).global? ((Tree.intern s).run q.tree).1) ∧
      q.globals.map Prod.fst =
        (Names.firsts (Tree.interned edits ++ ss)).filter (· ∈ Tree.declared edits) ∧
      (q.globals.map Prod.fst).Nodup ∧
      (∀ s, s ∈ q.globals.map Prod.fst ↔ s ∈ Tree.declared edits) ∧
      ∀ s v, (s, v) ∈ q.globals ↔ q.globalNamed? s = some v := by
  refine ⟨fun requests => Names.bijective_of_size_lt, ?_⟩
  intro edits subject settings p hstart ss q hq hsize
  have h := files_of_usage (files_of_start hstart (Tree.declares_construct edits)) hq
  have hl := h.lists hsize
  have horder := h.globals_fst hsize
  refine ⟨h.globalNamed?_eq hsize, horder, ?_, fun s => ?_,
    fun s v => h.mem_globals_iff hsize⟩
  · rw [horder]
    exact hl.nodup.filter _
  · rw [horder, List.mem_filter, decide_eq_true_iff, and_iff_right_iff_imp]
    exact fun hs => hl.mem_iff.mpr (h.declares.exists_get? hs)

/--
```text
number score, lives
score = 1
```
-/
def scoring : List Tree.Edit :=
  [.intern "lives", .declare "score" .number, .declare "lives" .number,
    .addExpr (.number .one), .addStmt (.assign 2 0), .setRoot 0]

/-- The variables are listed as their names came up, and a name that came up later is
nobody's. -/
theorem names_bijective_readers_agree_scoring :
    Names.Bijective [.intern "lives", .get "score", .lookup 5, .intern "score",
      .intern "lives"] ∧
    ∃ p q, start (Tree.construct scoring) 1 = .ok p ∧ Usage p ["bonus"] q ∧
      q.tree.names.size = 4 ∧
      q.globals = [("lives", .number .zero), ("score", .number .one)] ∧
      q.globalNamed? "score" = some (.number .one) ∧
      q.globalNamed? "shield" = (q.intern "shield").global? 4 := by
  obtain ⟨hnames, hprograms⟩ := names_bijective_readers_agree
  refine ⟨hnames _ (by decide), ?_⟩
  have hrun : (start (Tree.construct scoring) 1).toOption.map (fun p =>
      (p.advance? 100 (GridWorld.empty 1 1) (.ofInt 4)).map fun k =>
        ((k.program.intern "bonus").tree.names.size, (k.program.intern "bonus").globals,
          ((Tree.intern "shield").run (k.program.intern "bonus").tree).1)) =
      some (some (4, [("lives", .number .zero), ("score", .number .one)], 4)) := by
    decide +kernel
  obtain ⟨p, hstart, htick⟩ := exists_of_start hrun
  obtain ⟨k, hk, hfacts⟩ := Option.map_eq_some_iff.mp htick
  obtain ⟨hsize, hglobals, hshield⟩ : _ ∧ _ ∧ _ := by
    simpa only [Prod.mk.injEq] using hfacts
  have hq : Usage p ([] ++ ["bonus"]) (k.program.intern "bonus") :=
    .intern (.tick .start hk) "bonus"
  obtain ⟨hreaders, -, -, -, hvalues⟩ :=
    hprograms scoring 1 {} p hstart _ _ hq (by rw [hsize]; decide)
  refine ⟨p, _, hstart, hq, hsize, hglobals, (hvalues ..).mp ?_, ?_⟩
  · rw [hglobals]
    decide
  · rw [hreaders, hshield]

end Program

end ActorScript
