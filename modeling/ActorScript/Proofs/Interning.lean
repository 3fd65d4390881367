import ActorScript.Keyed
import ActorScript.Names
import Mathlib.Algebra.Group.Nat.Defs
import Mathlib.Data.List.Induction

/-!
# Numbers of strings

The table of names finds its way from strings to numbers and back by two parts of its own.
They are inverse to each other after any requests: every string stands once, at its
number, and a number that has been given out stays.

## Main results

* `Lists.intern` — what the table holds after one more string.
* `lists_ofList` — what it holds after all of them.
* `bijective_of_size_lt` — what it answers, as long as there are numbers enough.
-/

namespace ActorScript

namespace Names

/-! ## The two parts of the table -/

variable {names : Names} {known : List String} {s s' : String} {n : Name}

theorem get?_intern (names : Names) (s s' : String) :
    (names.intern s).2.get? s' =
      if s' = s then some (names.intern s).1 else names.get? s' := by
  unfold intern
  split
  · rename_i name hname
    by_cases h : s' = s
    · rw [if_pos h, h]
      exact hname
    · rw [if_neg h]
  · exact Keyed.lookup_cons_eq_ite ..

theorem intern_of_get? (h : names.get? s = some n) : names.intern s = (n, names) := by
  unfold intern
  rw [h]

/-- **A number that has been given out stays.** -/
theorem get?_intern_of_some (h : names.get? s' = some n) (s : String) :
    (names.intern s).2.get? s' = some n := by
  rw [get?_intern]
  split
  · rename_i hs
    rw [hs] at h
    rw [intern_of_get? h]
  · exact h

theorem size_intern_of_none (h : names.get? s = none) :
    (names.intern s).2.size = names.size + 1 := by
  unfold intern
  rw [h]
  exact Array.size_push ..

theorem size_le_intern (names : Names) (s : String) :
    names.size ≤ (names.intern s).2.size := by
  cases h : names.get? s with
  | none =>
      rw [size_intern_of_none h]
      exact Nat.le_succ _
  | some n =>
      have hsame : (names.intern s).2 = names := congrArg Prod.snd (intern_of_get? h)
      exact Nat.le_of_eq (congrArg size hsame.symm)

/-- A table that holds the strings `known`, each of them once, under its place in the
list.  The two parts of the table are inverse to each other. -/
structure Lists (names : Names) (known : List String) : Prop where
  strings_eq : names.strings.toList = known
  get?_eq_some_iff : ∀ s n, names.get? s = some n ↔ known[n]? = some s
  nodup : known.Nodup
  first : known[Name.empty]? = some ""

theorem lists_empty : Lists {} [""] where
  strings_eq := rfl
  get?_eq_some_iff s n := by
    show [("", Name.empty)].lookup s = some n ↔ _
    rw [Keyed.lookup_cons_eq_ite]
    match n with
    | 0 => by_cases h : s = "" <;> simp [h, Name.empty, eq_comm]
    | n + 1 => by_cases h : s = "" <;> simp [h, Name.empty]
  nodup := List.pairwise_singleton ..
  first := rfl

theorem Lists.size_eq (h : names.Lists known) : names.size = known.length := by
  rw [← h.strings_eq]
  exact Array.length_toList.symm

theorem Lists.mem_iff (h : names.Lists known) :
    s ∈ known ↔ ∃ n, names.get? s = some n := by
  simp only [h.get?_eq_some_iff, List.mem_iff_getElem?]

theorem Lists.get?_eq_none (h : names.Lists known) (hs : s ∉ known) :
    names.get? s = none := by
  cases hget : names.get? s with
  | none => rfl
  | some n => exact absurd (h.mem_iff.mpr ⟨n, hget⟩) hs

/-- A string that is there keeps its number, and nothing changes. -/
theorem Lists.intern_of_mem (h : names.Lists known) (hs : s ∈ known) :
    ∃ n, known[n]? = some s ∧ names.intern s = (n, names) := by
  obtain ⟨n, hn⟩ := h.mem_iff.mp hs
  exact ⟨n, (h.get?_eq_some_iff s n).mp hn, intern_of_get? hn⟩

/-- A new string takes the next number, as long as there is one. -/
theorem Lists.intern_fst (h : names.Lists known) (hs : s ∉ known)
    (hroom : known.length < 2 ^ 32) :
    (names.intern s).1 = known.length := by
  unfold intern
  rw [h.get?_eq_none hs]
  show min names.size Name.greatest = known.length
  rw [h.size_eq]
  exact Nat.min_eq_left (Nat.le_of_lt_succ hroom)

theorem getElem?_concat_eq_some_iff {i : Nat} :
    (known ++ [s])[i]? = some s' ↔ known[i]? = some s' ∨ i = known.length ∧ s = s' := by
  rcases Nat.lt_trichotomy i known.length with hlt | rfl | hgt
  · rw [List.getElem?_append_left hlt]
    simp [Nat.ne_of_lt hlt]
  · simp
  · rw [List.getElem?_eq_none (by simp; omega), List.getElem?_eq_none (Nat.le_of_lt hgt)]
    simp [Nat.ne_of_gt hgt]

/-- **A new string** is put at the end of the list. -/
theorem Lists.intern (h : names.Lists known) (hs : s ∉ known)
    (hroom : known.length < 2 ^ 32) :
    (names.intern s).2.Lists (known ++ [s]) := by
  have hnumber := h.intern_fst hs hroom
  constructor
  · unfold Names.intern
    rw [h.get?_eq_none hs]
    show (names.strings.push s).toList = _
    rw [Array.toList_push, h.strings_eq]
  · intro s' n
    rw [get?_intern, hnumber, getElem?_concat_eq_some_iff]
    by_cases hs' : s' = s
    · subst hs'
      have hnot : known[n]? ≠ some s' := fun hn => hs (List.mem_of_getElem? hn)
      rw [if_pos rfl, Option.some_inj, or_iff_right hnot, and_iff_left rfl]
      exact eq_comm
    · rw [if_neg hs', h.get?_eq_some_iff, or_iff_left fun hlast => hs' hlast.2.symm]
  · refine List.nodup_append.mpr ⟨h.nodup, List.pairwise_singleton .., ?_⟩
    rintro a ha b hb rfl
    exact hs (List.mem_singleton.mp hb ▸ ha)
  · exact (List.getElem?_append_left (List.getElem?_eq_some_iff.mp h.first).1).trans
      h.first

/-- The different strings among the empty one and `ss`, in the order in which they come
first. -/
def firsts (ss : List String) : List String := ("" :: ss).eraseDups

theorem mem_firsts_iff {ss : List String} : s ∈ firsts ss ↔ s ∈ "" :: ss :=
  List.mem_eraseDups

theorem firsts_concat (ss : List String) (s : String) :
    firsts (ss ++ [s]) = if s ∈ firsts ss then firsts ss else firsts ss ++ [s] := by
  have happend : firsts (ss ++ [s]) =
      firsts ss ++ ([s].removeAll ("" :: ss)).eraseDups := by
    unfold firsts
    rw [← List.cons_append, List.eraseDups_append]
  rw [happend]
  by_cases hs : s ∈ "" :: ss
  · have hnone : [s].removeAll ("" :: ss) = [] := by
      rw [List.removeAll, List.filter_cons, List.elem_eq_mem, decide_eq_true hs]
      rfl
    rw [if_pos (mem_firsts_iff.mpr hs), hnone]
    exact List.append_nil _
  · have hself : [s].removeAll ("" :: ss) = [s] := by
      rw [List.removeAll, List.filter_cons, List.elem_eq_mem, decide_eq_false hs]
      rfl
    rw [if_neg (fun h => hs (mem_firsts_iff.mp h)), hself]
    rfl

theorem ofList_concat (ss : List String) (s : String) :
    ofList (ss ++ [s]) = ((ofList ss).intern s).2 := by
  unfold ofList
  rw [List.foldl_append]
  rfl

/-- **The whole table**, as long as there are numbers enough. -/
theorem lists_ofList (ss : List String) :
    (ofList ss).size ≤ 2 ^ 32 → (ofList ss).Lists (firsts ss) := by
  induction ss using List.reverseRecOn with
  | nil => exact fun _ => lists_empty
  | append_singleton ss s ih =>
      intro hsize
      rw [ofList_concat] at hsize ⊢
      have h := ih (Nat.le_trans (size_le_intern ..) hsize)
      rw [firsts_concat]
      split
      · rename_i hs
        obtain ⟨n, -, hintern⟩ := h.intern_of_mem hs
        rw [hintern]
        exact h
      · rename_i hs
        rw [size_intern_of_none (h.get?_eq_none hs), h.size_eq] at hsize
        exact h.intern hs hsize

theorem get?_ofList_of_some {ss : List String} (h : (ofList ss).get? s = some n)
    (more : List String) : (ofList (ss ++ more)).get? s = some n := by
  induction more using List.reverseRecOn with
  | nil =>
      rw [List.append_nil]
      exact h
  | append_singleton more s' ih =>
      rw [← List.append_assoc, ofList_concat]
      exact get?_intern_of_some ih s'

theorem Lists.lookup_eq (h : names.Lists known) (n : Name) :
    names.lookup n = known.getD n "" := by
  have hstrings : ∀ i, names.strings.getD i "" = known.getD i "" := by
    intro i
    rw [Array.getD_eq_getD_getElem?, ← Array.getElem?_toList, h.strings_eq]
    exact List.getD_eq_getElem?_getD.symm
  unfold lookup
  rw [hstrings]
  split
  · rfl
  · rename_i hn
    -- past the end the table answers with the first string, which is the empty one
    have hlength : known.length ≤ n := h.size_eq ▸ Nat.le_of_not_lt hn
    rw [List.getD_eq_getElem?_getD, h.first, List.getD_eq_getElem?_getD,
      List.getElem?_eq_none hlength]
    rfl

theorem Lists.lookup_of_getElem? (h : names.Lists known) (hn : known[n]? = some s) :
    names.lookup n = s := by
  rw [h.lookup_eq, List.getD_eq_getElem?_getD, hn]
  rfl

/-! ## What the table answers -/

/-- What is asked of a table of names. -/
inductive Request where
  | intern (s : String)
  | get (s : String)
  | lookup (name : Name)

/-- The table after a request. -/
def serve (names : Names) : Request → Names
  | .intern s => (names.intern s).2
  | .get _ | .lookup _ => names

/-- A new table after requests. -/
def after (requests : List Request) : Names := requests.foldl serve {}

def Request.interned? : Request → Option String
  | .intern s => some s
  | .get _ | .lookup _ => none

/-- The strings that are given numbers, in order. -/
def interned (requests : List Request) : List String :=
  requests.filterMap Request.interned?

theorem after_eq (requests : List Request) :
    after requests = ofList (interned requests) := by
  induction requests using List.reverseRecOn with
  | nil => rfl
  | append_singleton requests r ih =>
      have hserve : after (requests ++ [r]) = (after requests).serve r := by
        unfold after
        rw [List.foldl_append]
        rfl
      have hinterned : interned (requests ++ [r]) = interned requests ++ interned [r] :=
        List.filterMap_append ..
      rw [hserve, ih, hinterned]
      cases r with
      | intern s => exact (ofList_concat ..).symm
      | get | lookup => exact congrArg ofList (List.append_nil _).symm

/-- In the course of the requests, `s` was given the number `n`. -/
def Issued (requests : List Request) (s : String) (n : Name) : Prop :=
  ∃ earlier later, requests = earlier ++ .intern s :: later ∧
    ((after earlier).intern s).1 = n

theorem get?_of_issued {requests : List Request} (h : Issued requests s n) :
    (after requests).get? s = some n := by
  obtain ⟨earlier, later, rfl, rfl⟩ := h
  have hinterned : interned (earlier ++ .intern s :: later) =
      (interned earlier ++ [s]) ++ interned later := by
    simp [interned, Request.interned?]
  rw [after_eq, after_eq, hinterned]
  apply get?_ofList_of_some
  rw [ofList_concat, get?_intern, if_pos rfl]

/-- Strings and numbers determine each other. -/
structure Bijective (requests : List Request) : Prop where
  /-- The number of a string is its place among the different strings, in the order in
  which they came first. -/
  get?_iff_place : ∀ s n, (after requests).get? s = some n ↔
    (firsts (interned requests))[n]? = some s
  size_eq : (after requests).size = (firsts (interned requests)).length
  /-- What has been given out stays. -/
  stays : ∀ s n, Issued requests s n → (after requests).get? s = some n
  injective : ∀ s n s' n', Issued requests s n → Issued requests s' n' → (n = n' ↔ s = s')
  lookup_intern : ∀ s, ((after requests).intern s).2.lookup
    ((after requests).intern s).1 = s
  intern_lookup : ∀ n < (after requests).size,
    (after requests).intern ((after requests).lookup n) = (n, after requests)
  lookup_of_size_le : ∀ n, (after requests).size ≤ n → (after requests).lookup n = ""
  /-- Only strings that have been given a number are found, under the number that they
  would be given again. -/
  get?_iff_interned : ∀ s n, (after requests).get? s = some n ↔
    s ∈ "" :: interned requests ∧ (after requests).intern s = (n, after requests)

theorem Lists.lookup_intern (h : names.Lists known) (hroom : known.length < 2 ^ 32)
    (s : String) :
    (names.intern s).2.lookup (names.intern s).1 = s := by
  by_cases hs : s ∈ known
  · obtain ⟨n, hn, hintern⟩ := h.intern_of_mem hs
    rw [hintern]
    exact h.lookup_of_getElem? hn
  · rw [h.intern_fst hs hroom]
    exact (h.intern hs hroom).lookup_of_getElem? List.getElem?_concat_length

theorem Lists.intern_lookup (h : names.Lists known) (hn : n < names.size) :
    names.intern (names.lookup n) = (n, names) := by
  rw [h.size_eq] at hn
  have hplace : known[n]? = some known[n] := List.getElem?_eq_getElem hn
  rw [h.lookup_of_getElem? hplace]
  exact intern_of_get? ((h.get?_eq_some_iff _ _).mpr hplace)

theorem bijective_of_size_lt {requests : List Request}
    (hsize : (after requests).size < 2 ^ 32) :
    Bijective requests := by
  have h : (after requests).Lists (firsts (interned requests)) := by
    rw [after_eq] at hsize ⊢
    exact lists_ofList _ (Nat.le_of_lt hsize)
  constructor
  · exact h.get?_eq_some_iff
  · exact h.size_eq
  · exact fun s n => get?_of_issued
  · intro s n s' n' hs hs'
    have hn := (h.get?_eq_some_iff s n).mp (get?_of_issued hs)
    have hn' := (h.get?_eq_some_iff s' n').mp (get?_of_issued hs')
    constructor
    · rintro rfl
      exact Option.some.inj (hn.symm.trans hn')
    · rintro rfl
      exact (List.getElem?_inj (List.getElem?_eq_some_iff.mp hn).1 h.nodup).mp
        (hn.trans hn'.symm)
  · exact h.lookup_intern (h.size_eq ▸ hsize)
  · exact fun n hn => h.intern_lookup hn
  · intro n hn
    rw [h.size_eq] at hn
    rw [h.lookup_eq, List.getD_eq_getElem?_getD, List.getElem?_eq_none hn]
    rfl
  · intro s n
    constructor
    · intro hget
      exact ⟨mem_firsts_iff.mp (h.mem_iff.mpr ⟨n, hget⟩), intern_of_get? hget⟩
    · rintro ⟨hs, hintern⟩
      obtain ⟨m, hm, hintern'⟩ := h.intern_of_mem (mem_firsts_iff.mpr hs)
      cases hintern.symm.trans hintern'
      exact (h.get?_eq_some_iff s n).mpr hm

end Names

end ActorScript
