import ActorScript.Proofs.InBounds
import ActorScript.Proofs.Whole

/-!
# Ticks are bounded

A script may have loops that never end, yet every tick of it ends.  Each step of the
machine either is paid for, so that the budget is less by one, or brings it closer to a
step that has to be paid for.  How close it is, is a number: the `weight` of what is
still to be done without payment.

Statements under a statement have lesser positions, so that the position can serve as
an exponent: with a radix greater than the length of every sequence, a statement weighs
more than all the statements under it together.

## Main results

* `Sound.descends` — a step takes one off the budget, or else something off the weight.
* `Fit.exists_end` — every run comes to its end.
* `exists_advance?` — so does every tick.
* `tick_bounded` — every tick comes to its end, and pays for no more steps than the
  budget has whole units.
-/

namespace ActorScript

/-! ## Budgets that are counted off exactly -/

namespace Number

variable {a : Number}

/-- One is taken off a number up to `2 ^ 53` without rounding. -/
theorem IsAmount.sub_one (ha : a.IsAmount) (hle : a.units ≤ 2 ^ 53 * oneUnits)
    (h : oneUnits ≤ a.units) :
    (a - one).IsAmount ∧ (a - one).units = a.units - oneUnits := by
  obtain ⟨hone, hunits⟩ := isAmount_one
  obtain ⟨hamount, hrounds⟩ := sub_amount ha hone (by rw [hunits]; exact h)
  rw [hunits] at hrounds
  refine ⟨hamount, hrounds.exact ?_⟩
  by_cases hzero : a.units - oneUnits = 0
  · rw [hzero]
    exact Nat.dvd_zero _
  · -- the unit at which the difference is rounded divides both numbers
    have hlow : (a.units - oneUnits).log2 ≤ a.units.log2 :=
      (Nat.le_log2 (by omega)).mpr
        (Nat.le_trans (Nat.log2_self_le hzero) (Nat.sub_le _ _))
    have hhigh : (a.units - oneUnits).log2 < 53 + fractionDigits := by
      have hpos : 0 < oneUnits := Nat.two_pow_pos _
      rw [Nat.log2_lt hzero, Nat.pow_add]
      exact Nat.lt_of_lt_of_le (Nat.sub_lt (by omega) hpos) hle
    refine Nat.dvd_sub ?_ (Nat.pow_dvd_pow 2 (by omega))
    exact Nat.dvd_trans (Nat.pow_dvd_pow 2 (by omega)) ha.exact

/-- The greatest integer that is at most an amount. -/
theorem IsAmount.floor?_eq (ha : a.IsAmount) :
    a.floor? = some ((a.units / oneUnits : Nat) : Int) := by
  have hnegative : a.negative = false := by
    have hlt : a.bits.toNat < 0x8000000000000000 := Nat.lt_trans ha (by decide)
    exact decide_eq_false (by rw [UInt64.le_iff_toNat_le]; exact Nat.not_le.mpr hlt)
  unfold floor?
  rw [if_pos ha.isFinite, hnegative]
  simp only [Bool.false_eq_true, ↓reduceIte, Option.some.injEq, Nat.one_shiftLeft]
  norm_cast
  unfold units scaled oneUnits
  have hexp : -1074 ≤ a.exponent := by
    unfold exponent
    omega
  obtain ⟨n, hn⟩ : ∃ n, n = fractionDigits := ⟨_, rfl⟩
  have hn' : n = 1074 := hn.trans fractionDigits_eq
  rw [← hn]
  by_cases he : 0 ≤ a.exponent
  · have h₁ : (a.exponent + 1074).toNat = a.exponent.toNat + n := by omega
    have h₂ : (-a.exponent).toNat = 0 := by omega
    rw [h₁, h₂, Nat.pow_add, ← Nat.mul_assoc, Nat.mul_div_cancel _ (Nat.two_pow_pos _),
      Nat.pow_zero, Nat.div_one]
  · have h₁ : a.exponent.toNat = 0 := by omega
    have h₂ : n = (-a.exponent).toNat + (a.exponent + 1074).toNat := by omega
    rw [h₁, Nat.pow_zero, Nat.mul_one, h₂, Nat.pow_add,
      Nat.mul_div_mul_right _ _ (Nat.two_pow_pos _)]

end Number

namespace Budget

variable {b : Budget} {owed : Number}

/-- What is left of the budget is an amount of at most `2 ^ 53`, so that steps are taken
off it without rounding. -/
structure IsExact (b : Budget) : Prop where
  amount : b.remaining.IsAmount
  le : b.remaining.units ≤ 2 ^ 53 * Number.oneUnits

theorem IsExact.refuse (h : b.IsExact) : b.refuse.IsExact := ⟨h.amount, h.le⟩

theorem IsExact.payStep (h : b.IsExact) (hb : b.canStep = true) :
    b.payStep.IsExact ∧
    b.payStep.remaining.units + Number.oneUnits = b.remaining.units := by
  obtain ⟨hone, hunits⟩ := Number.isAmount_one
  have hle : Number.oneUnits ≤ b.remaining.units := by
    have hle : Number.one ≤ b.remaining := of_decide_eq_true hb
    rw [Number.le_iff hone h.amount, hunits] at hle
    exact hle
  obtain ⟨hamount, heq⟩ := h.amount.sub_one h.le hle
  have heq' : b.payStep.remaining.units = b.remaining.units - Number.oneUnits := heq
  have := h.le
  exact ⟨⟨hamount, by omega⟩, by omega⟩

/-- Time that is spent does not raise the budget. -/
theorem IsExact.spend (h : b.IsExact) (ho : owed.IsAmount) :
    (b.spend owed).2.IsExact ∧ (b.spend owed).2.remaining.units ≤ b.remaining.units := by
  obtain ⟨hspent, -⟩ := b.spend_amount ho
  have hle : (b.spend owed).1.units ≤ b.remaining.units := by
    rw [spend_eq ho h.amount]
    split <;> omega
  obtain ⟨hamount, hrounds⟩ := Number.sub_amount h.amount hspent hle
  have hunits : (b.spend owed).2.remaining.units ≤ b.remaining.units :=
    hrounds.le_of_exact h.amount.exact (Nat.sub_le _ _)
  exact ⟨⟨hamount, Nat.le_trans hunits h.le⟩, hunits⟩

/-- The budget of a tick that is granted no more than `2 ^ 53`, and its whole units. -/
theorem isExact_grant {amount : Number} (h : ¬ Number.ofInt (2 ^ 53 : Nat) < amount) :
    (grant amount).IsExact ∧
      (grant amount).remaining.units / Number.oneUnits ≤
        (amount.floor?.getD 0).toNat := by
  obtain ⟨hexact, hunits⟩ := Number.ofInt_amount (n := 2 ^ 53) (by decide)
  unfold grant
  by_cases hpos : .zero < amount
  · rw [if_pos hpos]
    have hamount : amount.IsAmount := by
      refine (Number.amount_of_pos hpos).resolve_right fun hinf => h ?_
      rw [hinf]
      exact hexact.lt_infinity
    rw [Number.lt_iff hexact hamount] at h
    refine ⟨⟨hamount, ?_⟩, ?_⟩
    · rw [← hunits]
      exact Nat.not_lt.mp h
    · rw [hamount.floor?_eq]
      exact Nat.le_refl _
  · rw [if_neg hpos]
    refine ⟨⟨Number.isAmount_zero, ?_⟩, ?_⟩
    · rw [Number.units_zero]
      exact Nat.zero_le _
    · rw [Number.units_zero, Nat.zero_div]
      exact Nat.zero_le _

end Budget

/-! ## Weights -/

namespace Tree

variable {t : Tree} {id child : StmtId}

/-- More than twice the length of any sequence. -/
def radix (t : Tree) : Nat := 2 * t.lists.size + 5

/-- The weight of a statement that is yet to run. -/
def weight (t : Tree) (id : StmtId) : Nat := t.radix ^ (id + 1)

theorem weight_eq (t : Tree) (id : StmtId) :
    t.weight id = 2 * (t.lists.size * t.radix ^ id) + 5 * t.radix ^ id := by
  unfold weight
  rw [Nat.pow_succ, Nat.mul_comm]
  unfold radix
  rw [Nat.add_mul, Nat.mul_assoc]

theorem radix_pow_pos (t : Tree) (n : Nat) : 0 < t.radix ^ n :=
  Nat.pow_pos (by unfold radix; omega)

theorem five_le_weight (t : Tree) (id : StmtId) : 5 ≤ t.weight id := by
  have := t.radix_pow_pos id
  rw [weight_eq]
  omega

/-- A lesser statement weighs no more than a fifth. -/
theorem weight_of_lt (t : Tree) (h : child < id) : 5 * t.weight child ≤ t.weight id := by
  have hle : t.weight child ≤ t.radix ^ id :=
    Nat.pow_le_pow_right (by unfold radix; omega) h
  rw [t.weight_eq id]
  omega

theorem length_of_slice? {body : Slice} {cs : List StmtId} (h : t.slice? body = some cs) :
    cs.length ≤ t.lists.size := by
  unfold slice? at h
  split at h
  · cases h
    simp only [Array.length_toList, Array.size_extract]
    omega
  · cases h

/-- The weight of the rest of a sequence, with a unit for each way back. -/
def restWeight (t : Tree) : List StmtId → Nat
  | [] => 1
  | c :: cs => t.weight c + 1 + t.restWeight cs

theorem restWeight_pos (t : Tree) (cs : List StmtId) : 0 < t.restWeight cs := by
  cases cs with
  | nil => exact Nat.one_pos
  | cons c cs => exact Nat.add_pos_left (Nat.succ_pos _) _

private theorem restWeight_le {cs : List StmtId} (h : ∀ c ∈ cs, c < id) :
    t.restWeight cs ≤ cs.length * (t.radix ^ id + 1) + 1 := by
  induction cs with
  | nil =>
      unfold restWeight
      omega
  | cons c cs ih =>
      have hc : t.weight c ≤ t.radix ^ id :=
        Nat.pow_le_pow_right (by unfold radix; omega) (h c (by simp))
      have hcs := ih fun d hd => h d (by simp [hd])
      unfold restWeight
      rw [List.length_cons, Nat.succ_mul]
      omega

/-- **A sequence** weighs more than all that is in it. -/
theorem restWeight_lt {body : Slice} {cs : List StmtId} (h : t.slice? body = some cs)
    (hbelow : ∀ c ∈ cs, c < id) : t.restWeight cs < t.weight id := by
  have hsum := restWeight_le (t := t) hbelow
  have hlength : cs.length * (t.radix ^ id + 1) ≤ t.lists.size * (t.radix ^ id + 1) :=
    Nat.mul_le_mul_right _ (length_of_slice? h)
  have hpos := t.radix_pow_pos id
  have hsize : t.lists.size ≤ t.lists.size * t.radix ^ id :=
    Nat.le_mul_of_pos_right _ hpos
  rw [Nat.mul_succ t.lists.size] at hlength
  rw [t.weight_eq id]
  omega

end Tree

/-- Whether a loop with this frame is in the middle of a round. -/
def Stmt.inRound : Stmt → Frame → Bool
  | .while .., .while .continuing => true
  | .forEach .., .forEach _ _ .continuing => true
  | _, _ => false

namespace Machine

variable {W : Type} {t : Tree}

def Task.weight (t : Tree) : Task → Nat
  | .sequence _ rest => t.restWeight rest
  | .branch _ => 1
  | .round _ => 2

theorem Task.weight_pos (t : Tree) (task : Task) : 0 < task.weight t := by
  cases task with
  | sequence id rest => exact t.restWeight_pos rest
  | branch => exact Nat.one_pos
  | round => exact Nat.two_pos

def stackWeight (t : Tree) : List Task → Nat
  | [] => 0
  | task :: k => task.weight t + stackWeight t k

/-- The weight of what is still to be done without payment.  A loop at the head of a round
has to pay before it goes into its body. -/
def Control.weight (t : Tree) (p : Progress) : Control → Nat
  | .enter id => t.weight id
  | .iterate id =>
      if (t.stmt? id).any (·.inRound (p.frame id)) then t.weight id - 1 else 1
  | .leave _ | .raise _ => 0

namespace Config

variable {root id : StmtId} {s : Stmt} {c c' : Config W}

def weight (t : Tree) (c : Config W) : Nat :=
  c.control.weight t c.memory.progress + stackWeight t c.stack

open Progress

theorem inRound_nextRound (s : Stmt) (f : Frame) : s.inRound (nextRound s f) = false := by
  cases s with
  | forEach => cases f <;> rfl
  | sequence | assign | conditional | «while» | wait | leaveLoop | print
  | skip | act => rfl

theorem weight_of_at (h : c.At t id s) :
    c.weight t = t.weight id + stackWeight t c.stack := by
  unfold weight
  rw [h.control]
  rfl

theorem weight_of_atHead (h : c.AtHead t id s) :
    c.weight t = (if s.inRound (c.memory.progress.frame id) then t.weight id - 1 else 1) +
      stackWeight t c.stack := by
  unfold weight
  rw [h.control]
  simp only [Control.weight, h.stmt, Option.any_some]

/-- At the statement at hand there is something to be done. -/
theorem weight_pos_of_at (h : c.At t id s) :
    stackWeight t c.stack < c.weight t := by
  have := t.five_le_weight id
  rw [weight_of_at h]
  omega

theorem weight_pos_of_atHead (h : c.AtHead t id s) :
    stackWeight t c.stack < c.weight t := by
  have := t.five_le_weight id
  rw [weight_of_atHead h]
  split <;> omega

theorem weight_pos_of_costs (h : Costs t c) :
    stackWeight t c.stack < c.weight t := by
  cases h with
  | assign h | print h | act h | leaveLoop h | choose h | list h =>
      exact weight_pos_of_at h
  | check h | visit h => exact weight_pos_of_atHead h

/-- A loop is lighter at the head of a round than before it is entered. -/
theorem weight_iterate_lt (h : c.At t id s) :
    (c.goTo (.iterate id)).weight t < c.weight t := by
  have hhead : (c.goTo (.iterate id)).AtHead t id s := ⟨rfl, h.stmt⟩
  have := t.five_le_weight id
  rw [weight_of_atHead hhead, weight_of_at h]
  show _ + stackWeight t c.stack < _
  split <;> omega

/-- A loop in the middle of a round weighs more than its body. -/
theorem weight_startRound_lt {body : StmtId} (h : c.AtHead t id s)
    (hround : s.inRound (c.memory.progress.frame id) = true) (hlt : body < id) :
    (c.startRound id body).weight t < c.weight t := by
  have hbody := t.weight_of_lt hlt
  have := t.five_le_weight body
  rw [weight_of_atHead h, hround]
  show t.weight body + (2 + stackWeight t c.stack) < _
  simp only [↓reduceIte]
  omega

/-- What waits is taken off the stack. -/
theorem weight_pop {control : Control} {task : Task} {k : List Task}
    (hk : c.stack = task :: k) (hcontrol : c.control = control) :
    c.weight t = control.weight t c.memory.progress +
      (task.weight t + stackWeight t k) := by
  unfold weight
  rw [hk, hcontrol]
  rfl

/-- On the way back the stack gets lighter. -/
theorem weight_unwound_lt {task : Task} {k : List Task} (hk : c.stack = task :: k)
    (hstack : c'.stack = k) (h : c.control.weight t c.memory.progress = 0)
    (h' : c'.control.weight t c'.memory.progress = 0) : c'.weight t < c.weight t := by
  have := task.weight_pos t
  unfold weight
  rw [h, h', hk, hstack]
  show 0 + stackWeight t k < 0 + (task.weight t + stackWeight t k)
  omega

/-- **A quiet step** makes the run lighter. -/
theorem Quiet.weight_lt (ht : t.Proper root) (hc : Sound t root c)
    (ho : c.outcome? = none) (h : Quiet t c c') : c'.weight t < c.weight t := by
  cases h with
  | @pass id hcontrol ha =>
      have := t.five_le_weight id
      unfold weight
      rw [hcontrol]
      show 0 + stackWeight t c.stack < t.weight id + _
      omega
  | @sequence id body cs h hcs =>
      obtain ⟨cs', hfork⟩ := hc.fork_of_at ht h
      cases hcs.symm.trans hfork.children
      have := Tree.restWeight_lt hcs hfork.below
      rw [weight_of_at h]
      show 0 + (t.restWeight cs + stackWeight t c.stack) < _
      omega
  | @branch id b cond th el h hf =>
      obtain ⟨cs, hfork⟩ := hc.fork_of_at ht h
      rw [frame_eq] at hf
      obtain ⟨b', hb, hlink, -⟩ := (hc.of_at h).2.link_of_branch hf
      cases hb
      obtain ⟨s, cs', hs, hcs', hmem⟩ := hlink.mem
      cases hs.symm.trans hfork.stmt
      cases hcs'.symm.trans hfork.children
      have hlt := t.weight_of_lt (hfork.below b hmem)
      have := t.five_le_weight b
      rw [weight_of_at h]
      show t.weight b + (1 + stackWeight t c.stack) < _
      omega
  | noBranch h | skip h =>
      have := weight_pos_of_at h
      show 0 + stackWeight t c.stack < _
      omega
  | «while» h | forEach h => exact weight_iterate_lt h
  | whileRound h hf =>
      obtain ⟨cs, hfork⟩ := hc.fork_of_atHead ht h
      cases hfork.children
      exact weight_startRound_lt h (by rw [hf]; rfl) (hfork.below _ (by simp))
  | forEachRound h hf =>
      obtain ⟨cs, hfork⟩ := hc.fork_of_atHead ht h
      cases hfork.children
      exact weight_startRound_lt h (by rw [hf]; rfl) (hfork.below _ (by simp))
  | exhausted h | unlisted h =>
      have := weight_pos_of_atHead h
      show 0 + stackWeight t c.stack < _
      omega
  | @next id child rest k hcontrol hk =>
      rw [weight_pop hk hcontrol]
      show t.weight child + (t.restWeight rest + stackWeight t k) <
        0 + (t.restWeight (child :: rest) + stackWeight t k)
      rw [Tree.restWeight]
      omega
  | sequenceEnd hcontrol hk | branchEnd hcontrol hk | broken hcontrol hk =>
      exact weight_unwound_lt hk rfl (by rw [hcontrol]; rfl) rfl
  | @roundEnd id s k p hcontrol hk hs hp =>
      have hhead : ((c.unwound (.round id) k).again id p).AtHead t id s := ⟨rfl, hs⟩
      have hframe : p.frame id = nextRound s (c.memory.progress.frame id) := by
        rw [frame_eq, node_setFrame? hp, if_pos rfl]
      have hround : s.inRound (p.frame id) = false := by
        rw [hframe, inRound_nextRound]
      rw [weight_pop hk hcontrol, weight_of_atHead hhead]
      show (if s.inRound (p.frame id) = true then _ else 1) + stackWeight t k <
        0 + (2 + stackWeight t k)
      rw [hround]
      simp only [Bool.false_eq_true, ↓reduceIte]
      omega
  | unwind hcontrol hk | passFault hcontrol hk =>
      have hzero : c.control.weight t c.memory.progress = 0 := by
        rw [hcontrol]
        rfl
      exact weight_unwound_lt hk rfl hzero hzero
  | ended h =>
      rw [ho] at h
      cases h

/-! ## Steps -/

/-- What is left of the budget, in units of the least positive number. -/
def units (c : Config W) : Nat := c.memory.budget.remaining.units

/-- A step takes one off the budget, or else something off the weight. -/
inductive Descends (t : Tree) (c : Config W) (e : Option Event) (c' : Config W) : Prop
  | paid (he : e.toList.countP Event.isPaid = 1)
      (h : c'.units + Number.oneUnits = c.units)
  | free (he : e.toList.countP Event.isPaid = 0) (h : c'.units ≤ c.units)
      (hw : c'.weight t < c.weight t)

theorem Descends.lex {e : Option Event} (h : Descends t c e c') :
    Prod.Lex (· < ·) (· < ·) (c'.units, c'.weight t) (c.units, c.weight t) := by
  have hone : 0 < Number.oneUnits := Nat.two_pow_pos _
  cases h with
  | paid _ h => exact .left _ _ (by omega)
  | free _ h hw =>
      rcases Nat.lt_or_eq_of_le h with h | h
      · exact .left _ _ h
      · rw [h]
        exact .right _ hw

section World

variable [World W] {e : Option Event}

theorem Deed.isPaid {e : Event} (h : Deed t c e c') : e.isPaid = true := by
  cases h <;> rfl

omit [World W] in
/-- A step that leaves the statement at hand without payment. -/
private theorem descends_of_left (hw : stackWeight t c.stack < c.weight t)
    (hstack : c'.stack = c.stack) (hcontrol : c'.control.weight t c'.memory.progress = 0)
    (he : e.toList.countP Event.isPaid = 0) (h : c'.units ≤ c.units) :
    Descends t c e c' := by
  refine .free he h ?_
  unfold weight at hw ⊢
  rw [hcontrol, hstack]
  show 0 + stackWeight t c.stack < c.control.weight t c.memory.progress +
    stackWeight t c.stack
  omega

/-- **Every step** takes one off the budget, or else something off the weight. -/
theorem Sound.descends (ht : t.Proper root) (hc : Sound t root c)
    (hb : c.memory.budget.IsExact) (ho : c.outcome? = none) (h : Step t c e c') :
    c'.memory.budget.IsExact ∧ Descends t c e c' := by
  cases h with
  | quiet h =>
      have hbudget := h.keeps.1
      refine ⟨by rw [hbudget]; exact hb,
        .free rfl (Nat.le_of_eq ?_) (h.weight_lt ht hc ho)⟩
      unfold units
      rw [hbudget]
  | deed hstep h =>
      obtain ⟨-, -, -, -, hbudget⟩ := h.mirror rfl
      obtain ⟨hexact, hunits⟩ := hb.payStep hstep
      refine ⟨by rw [hbudget]; exact hexact, .paid ?_ ?_⟩
      · rw [Option.toList_some, List.countP_singleton, h.isPaid, if_pos rfl]
      · unfold units
        rw [hbudget]
        exact hunits
  | faulted _ h =>
      exact ⟨hb, descends_of_left (weight_pos_of_costs h.costs) rfl rfl rfl
        (Nat.le_refl _)⟩
  | refused _ h =>
      exact ⟨hb.refuse, descends_of_left (weight_pos_of_costs h) rfl rfl rfl
        (Nat.le_refl _)⟩
  | waitRefused _ h =>
      exact ⟨hb.refuse,
        descends_of_left (weight_pos_of_at h.at_) rfl rfl rfl (Nat.le_refl _)⟩
  | waitFaulted _ h =>
      exact ⟨hb, descends_of_left (weight_pos_of_at h.at_) rfl rfl rfl (Nat.le_refl _)⟩
  | waited h =>
      obtain ⟨⟨duration, hat⟩, howed⟩ := h.amount hc
      obtain ⟨hexact, hunits⟩ := hb.spend howed
      exact ⟨hexact, descends_of_left (weight_pos_of_at hat) rfl rfl rfl hunits⟩
  | waiting h =>
      obtain ⟨⟨duration, hat⟩, howed⟩ := h.amount hc
      obtain ⟨hexact, hunits⟩ := hb.spend howed
      exact ⟨hexact.refuse, descends_of_left (weight_pos_of_at hat) rfl rfl rfl hunits⟩

/-! ## Runs -/

/-- **Every run comes to its end.** -/
theorem Fit.exists_end (ht : t.Proper root) (hground : t.Grounded) (c : Config W)
    (hc : Fit t root c) (hb : c.memory.budget.IsExact) :
    ∃ ms c' outcome, Run t c ms c' ∧ c'.outcome? = some outcome := by
  cases ho : c.outcome? with
  | some outcome => exact ⟨[], c, outcome, .refl c, ho⟩
  | none =>
      obtain ⟨e, c₁, hstep⟩ := hc.exists_step ht hground
      obtain ⟨hb₁, hdescends⟩ := hc.sound.descends ht hb ho hstep
      have hlex := hdescends.lex
      obtain ⟨ms, c', outcome, hrun, ho'⟩ :=
        exists_end ht hground c₁ (hc.step ht hstep) hb₁
      exact ⟨_, c', outcome, .step ho hstep hrun, ho'⟩
termination_by (c.units, c.weight t)
decreasing_by exact hlex

end World

end Config

variable [World W] {root : StmtId} {c c' : Config W} {ms : List (Transition W)}

/-- The steps of a run are paid for out of its budget. -/
theorem Run.paid_le (ht : t.Proper root) (hc : c.Sound t root)
    (hb : c.memory.budget.IsExact) (h : Run t c ms c') :
    (events ms).countP Event.isPaid * Number.oneUnits + c'.units ≤ c.units := by
  induction h with
  | refl c => simp [events]
  | step ho hstep _ ih =>
      obtain ⟨hb₁, hdescends⟩ := hc.descends ht hb ho hstep
      have := ih (hc.step ht hstep) hb₁
      rw [events_cons, List.countP_append, Nat.add_mul]
      cases hdescends with
      | paid he h =>
          rw [he]
          omega
      | free he h =>
          rw [he]
          omega

end Machine

namespace Program

open Machine Machine.Config

variable {W : Type} [World W] {t : Tree} {p q : Program}

omit [World W] in
theorem settle_steps (p : Program) (outcome : Except Fault Flow) (m : Memory) :
    (p.settle outcome m).memory.tally.map Tally.steps = m.tally.map Tally.steps := by
  have hsuspension : m.countSuspension.tally.map Tally.steps = m.tally.map Tally.steps :=
    Option.map_map ..
  have htransient : m.countTransientFault.tally.map Tally.steps =
      m.tally.map Tally.steps :=
    Option.map_map ..
  unfold settle
  split
  · rfl
  · exact hsuspension
  · rfl
  · split
    · rfl
    · exact htransient

/-- A tick comes to an end if its budget counts in whole units, and further limits make no
difference. -/
theorem exists_advance? {ok : Nat → Program → W → Number → Prop} {subject : ActorId}
    {settings : Settings} {es : List Event} {budget : Number}
    (hstart : start t subject settings = .ok p) (h : Ticks ok p es q) (w : W)
    (hbudget : ¬ Number.ofInt (2 ^ 53 : Nat) < budget) :
    ∃ limit k, ∀ limit' ≥ limit, q.advance? limit' w budget = some k := by
  cases hover : q.isHalted || q.isFinished with
  | true =>
      refine ⟨0, ⟨q, w, []⟩, fun limit' _ => ?_⟩
      unfold advance?
      rw [hover]
      rfl
  | false =>
      have hvalid := validate_of_start hstart
      have hfit := fit_opening hstart h hover w budget
      obtain ⟨ms, c', outcome, hrun, ho⟩ :=
        hfit.exists_end (Tree.proper_of_validate hvalid)
          (Tree.grounded_of_validate hvalid) _
          (Budget.isExact_grant hbudget).1
      rw [← (settled_of_ticks (started_of_start hstart) h).tree] at hrun
      exact ⟨ms.length + 1, _, fun limit' hlimit => advance?_of_run hover hrun ho hlimit⟩

/-- What a run from the opening of a tick pays for comes out of the budget of the tick. -/
theorem paid_le_budget {root : StmtId} {w : W} {budget : Number}
    {ms : List (Transition W)} {c' : Config W} (ht : t.Proper root)
    (hs : (q.opening w budget).Sound t root)
    (hbudget : ¬ Number.ofInt (2 ^ 53 : Nat) < budget)
    (hrun : Run t (q.opening w budget) ms c') :
    (events ms).countP Event.isPaid ≤ (budget.floor?.getD 0).toNat ∧
      (¬ .zero < budget → (events ms).countP Event.isPaid = 0) := by
  obtain ⟨hexact, hfloor⟩ := Budget.isExact_grant hbudget
  have hpaid := hrun.paid_le ht hs hexact
  constructor
  · refine Nat.le_trans ((Nat.le_div_iff_mul_le (Nat.two_pow_pos _)).mpr ?_) hfloor
    exact Nat.le_trans (Nat.le_add_right _ _) hpaid
  · intro hpos
    have hone : 0 < Number.oneUnits := Nat.two_pow_pos _
    have hnone : (q.opening w budget).units = 0 := by
      show (if .zero < budget then budget else .zero : Number).units = 0
      rw [if_neg hpos, Number.units_zero]
    rw [hnone] at hpaid
    have hzero : (events ms).countP Event.isPaid * Number.oneUnits = 0 := by omega
    exact (Nat.mul_eq_zero.mp hzero).resolve_right (by omega)

/--
**Every tick is bounded.**  Whatever the script, the state that it has come to and the
world, a tick with a budget of no more than `2 ^ 53` comes to its end, and what it prints,
commands, assigns, decides, lists, visits and leaves, each of which counts as a step, is
no more than the budget has whole units; it is nothing if the budget is not positive.
-/
theorem tick_bounded {subject : ActorId} {settings : Settings} {es : List Event}
    (hstart : start t subject settings = .ok p) (h : Reached W p es q) (w : W)
    {budget : Number} (hbudget : ¬ Number.ofInt (2 ^ 53 : Nat) < budget) :
    ∃ limit k, (∀ limit' ≥ limit, q.advance? limit' w budget = some k) ∧
      k.events.countP Event.isPaid ≤ (budget.floor?.getD 0).toNat ∧
      (¬ .zero < budget → k.events.countP Event.isPaid = 0) ∧
      k.program.memory.tally.map Tally.steps =
        q.memory.tally.map fun y => y.steps + k.events.countP Event.isPaid := by
  have hp := started_of_start hstart
  obtain ⟨limit, k, hk⟩ := exists_advance? hstart h w hbudget
  refine ⟨limit, k, hk, ?_⟩
  rcases (settled_of_ticks hp h).run_of_tick (hk limit (Nat.le_refl _)) with
    ⟨-, -, rfl⟩ | ⟨-, hopening, outcome, c', hrun, -, rfl⟩
  · exact ⟨Nat.zero_le _, fun _ => rfl, rfl⟩
  · obtain ⟨hpaid, hnone⟩ := paid_le_budget hp.proper hopening hbudget hrun
    refine ⟨hpaid, hnone, ?_⟩
    show (q.settle outcome c'.memory).memory.tally.map Tally.steps = _
    rw [settle_steps, hrun.attested.steps_eq]
    show (q.memory.tally.map Tally.countTick).map _ = _
    rw [Option.map_map]
    rfl

/-- A tick of four units of a script that goes on for ever pays for four steps at most. -/
theorem tick_bounded_restless :
    ∃ p limit k, start restless 1 = .ok p ∧
      (∀ limit' ≥ limit, p.advance? limit' (GridWorld.empty 1 1) (.ofInt 4) = some k) ∧
      k.events.countP Event.isPaid ≤ 4 := by
  obtain ⟨p, hstart, -⟩ := exists_start (show restless.validate = .ok 4 from rfl) 1 {}
  have hbudget : ¬ Number.ofInt (2 ^ 53 : Nat) < .ofInt 4 := by decide
  obtain ⟨limit, k, hk, hpaid, -⟩ :=
    tick_bounded hstart .start (GridWorld.empty 1 1) hbudget
  have hfloor : ((Number.ofInt 4).floor?.getD 0).toNat = 4 := by decide
  exact ⟨p, limit, k, hstart, hk, hfloor ▸ hpaid⟩

end Program

end ActorScript
