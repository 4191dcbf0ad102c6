import Mathlib.Algebra.Group.Action.Defs
import Mathlib.Algebra.Order.BigOperators.Group.Finset
import Mathlib.Algebra.Order.Interval.Finset.SuccPred
import Mathlib.Order.Interval.Finset.Nat
import Mathlib.Tactic.Ring
import MerkleSignature.Bytes

/-!
# The schedule of a traversal

Seen from far away a traversal is a scheduler. On every level there is work: the number of leaves
that the builder of this level still has to take in. Moving on from a leaf starts new work, `2 ^ k`
leaves on each level `k` whose builder was emptied; then a fixed number of leaves is spent, one at a
time, always on the level whose work is divisible by the smallest power of two.

The work of level `k` has to be done before the next leaf whose successor is a multiple of
`2 ^ (k + 1)`. Call urgent for level `k` all work on levels up to `k`, and on higher levels what is
missing to the next multiple of `2 ^ k`. As long as level `k` has work, only urgent work is served,
so what is urgent now or becomes so before the deadline only has to fit into the rounds that are
left. At the start of such a period it does, and every round uses up its share.
-/

namespace MerkleSignature.Traversal

open Finset

/-- The number of leaves that are missing on each level. -/
abbrev Workload := Nat → Nat

/-- The level that is served next: its work is divisible by the smallest power of two, and it is the
lowest of these levels. -/
structure IsNext (work : Workload) (level : Nat) : Prop where
  pos : 0 < work level
  least : ∀ other, 0 < work other → ∀ d, 2 ^ d ∣ work level → 2 ^ d ∣ work other
  lowest : ∀ other, other < level → 0 < work other → ¬ 2 ^ other ∣ work level

/-- The work after one leaf was spent on a level. -/
def serve (work : Workload) (level : Nat) : Workload :=
  Function.update work level (work level - 1)

/-- Spending a budget of leaves turns one workload into another. -/
inductive Spent : (budget : Nat) → Workload → Workload → Prop
  /-- The budget is used up. -/
  | done (work : Workload) : Spent 0 work work
  /-- There is nothing to do. -/
  | idle {budget : Nat} {work : Workload} (h : ∀ level, work level = 0) : Spent budget work work
  /-- One leaf is spent on the level that is next. -/
  | serve {budget level : Nat} {work after : Workload} (hnext : IsNext work level)
    (hrest : Spent budget (serve work level) after) : Spent (budget + 1) work after

/-- The work after a move from `leaf` has started its builders. -/
def restart (height leaf : Nat) (work : Workload) : Workload := fun level =>
  if 2 ^ (level + 1) ∣ leaf + 1 ∧ leaf + 1 + 3 * 2 ^ level < 2 ^ height then 2 ^ level
  else work level

/-- How many leaves are spent on a move. -/
def moveBudget (height : Nat) : Nat := (height + 1) / 2

/-- The work that is urgent for a level. -/
def urgent (height level : Nat) (work : Workload) : Nat :=
  ∑ i ∈ range (level + 1), work i + ∑ i ∈ Ico (level + 1) (height - 2), work i % 2 ^ level

/-- The work that the levels below `level` will be given within a number of rounds that ends at a
deadline of `level`. -/
def upcoming (level rounds : Nat) : Nat := ∑ j ∈ range level, 2 ^ j * (rounds / 2 ^ (j + 1))

/-- The number of rounds between `leaf` and the next deadline of a level. -/
def roundsLeft (level leaf : Nat) : Nat := 2 ^ (level + 1) - 1 - leaf % 2 ^ (level + 1)

/-- What holds of a workload at any time: no level has more work than a whole subtree, the two
highest levels have none, and below every level stand only whole parts of the levels above it while
it is under way. -/
structure Disciplined (height : Nat) (work : Workload) : Prop where
  work_le : ∀ level, work level ≤ 2 ^ level
  low : ∀ level, 0 < work level → level + 2 < height
  nested : ∀ low high, low < high → 0 < work low → work low < 2 ^ low → 2 ^ low ∣ work high

/-- What holds of a workload between two moves: what is urgent for a level that has work, now or
until its deadline, fits into the rounds that are left. -/
structure OnSchedule (height leaf : Nat) (work : Workload) : Prop extends
    Disciplined height work where
  onTime : ∀ level, work level = 0 ∨
    urgent height level work + upcoming level (roundsLeft level leaf) ≤
      moveBudget height * roundsLeft level leaf

variable {height leaf level : Nat} {work after : Workload}

theorem serve_self : serve work level level = work level - 1 := Function.update_self ..

theorem serve_of_ne {other : Nat} (h : other ≠ level) : serve work level other = work other :=
  Function.update_of_ne h ..

/-- Serving the next level keeps the discipline. -/
theorem Disciplined.serve (hwork : Disciplined height work) (hnext : IsNext work level) :
    Disciplined height (serve work level) where
  work_le other := by
    have hle := hwork.work_le other
    rcases eq_or_ne other level with rfl | hne
    · rw [serve_self]
      omega
    · rwa [serve_of_ne hne]
  low other hother := by
    rcases eq_or_ne other level with rfl | hne
    · exact hwork.low other hnext.pos
    · rw [serve_of_ne hne] at hother
      exact hwork.low other hother
  nested low high hlt hpos hunder := by
    rcases eq_or_ne low level with rfl | hlow
    · rw [serve_self] at hpos hunder
      rw [serve_of_ne (Nat.ne_of_gt hlt)]
      rcases Nat.lt_or_eq_of_le (hwork.work_le low) with hunder' | hfull
      · exact hwork.nested low high hlt hnext.pos hunder'
      · -- A level that takes in its first leaf was chosen over all higher ones.
        rcases Nat.eq_zero_or_pos (work high) with hzero | hhigh
        · exact hzero ▸ Nat.dvd_zero _
        · exact hnext.least high hhigh low (hfull ▸ Nat.dvd_refl _)
    · rw [serve_of_ne hlow] at hpos hunder
      rcases eq_or_ne high level with rfl | hhigh
      · exact absurd (hwork.nested low high hlt hpos hunder) (hnext.lowest low hlt hpos)
      · rw [serve_of_ne hhigh]
        exact hwork.nested low high hlt hpos hunder

/-- Serving a level changes the one term of a sum over levels that belongs to it. -/
theorem sum_serve_of_mem (work : Workload) (part : Nat → Nat) {levels : Finset Nat}
    (hmem : level ∈ levels) :
    ∑ i ∈ levels, part (serve work level i) + part (work level) =
      ∑ i ∈ levels, part (work i) + part (work level - 1) := by
  have hrest : ∑ i ∈ levels.erase level, part (serve work level i) =
      ∑ i ∈ levels.erase level, part (work i) :=
    sum_congr rfl fun i hi => by rw [serve_of_ne (ne_of_mem_erase hi)]
  rw [← add_sum_erase _ _ hmem, ← add_sum_erase levels (fun i => part (work i)) hmem, hrest,
    serve_self]
  omega

/-- Serving a level does not change a sum over other levels. -/
theorem sum_serve_of_notMem (work : Workload) (part : Nat → Nat) {levels : Finset Nat}
    (hmem : level ∉ levels) :
    ∑ i ∈ levels, part (serve work level i) = ∑ i ∈ levels, part (work i) :=
  sum_congr rfl fun i hi => by
    rw [serve_of_ne]
    rintro rfl
    exact hmem hi

/-- Taking one off a number takes one off its remainder, unless the remainder is zero. -/
theorem sub_one_mod_add_one {x modulus : Nat} (hx : ¬ modulus ∣ x) :
    (x - 1) % modulus + 1 = x % modulus := by
  rcases Nat.eq_zero_or_pos modulus with rfl | hpos
  · rw [Nat.zero_dvd] at hx
    rw [Nat.mod_zero, Nat.mod_zero]
    omega
  · have hdiv := Nat.div_add_mod x modulus
    have hlt := Nat.mod_lt x hpos
    have hrest : x % modulus ≠ 0 := fun hzero => hx (Nat.dvd_of_mod_eq_zero hzero)
    have hpred : x - 1 = modulus * (x / modulus) + (x % modulus - 1) := by omega
    rw [hpred, Nat.mul_add_mod, Nat.mod_eq_of_lt (by omega)]
    omega

/-- While a level has work, each leaf is spent on work that is urgent for it. -/
theorem urgent_serve (hwork : Disciplined height work) {next : Nat} (hnext : IsNext work next)
    (hpos : 0 < work level) :
    urgent height level (serve work next) + 1 = urgent height level work := by
  have hnextPos := hnext.pos
  unfold urgent
  rcases Nat.lt_or_ge level next with hlt | hle
  · have hmem : next ∈ Ico (level + 1) (height - 2) := by
      have := hwork.low next hnext.pos
      exact mem_Ico.2 ⟨hlt, by omega⟩
    have hlower := sum_serve_of_notMem work (fun x => x)
      (show next ∉ range (level + 1) by rw [mem_range]; omega)
    have hupper := sum_serve_of_mem work (fun x => x % 2 ^ level) hmem
    have hpart := sub_one_mod_add_one (hnext.lowest level hlt hpos)
    omega
  · have hlower := sum_serve_of_mem work (fun x => x)
      (show next ∈ range (level + 1) by rw [mem_range]; omega)
    have hupper := sum_serve_of_notMem work (fun x => x % 2 ^ level)
      (show next ∉ Ico (level + 1) (height - 2) by rw [mem_Ico]; omega)
    omega

/-- Spending leaves makes no work. -/
theorem Spent.le {budget : Nat} (h : Spent budget work after) (level : Nat) :
    after level ≤ work level := by
  induction h with
  | done => exact Nat.le_refl _
  | idle => exact Nat.le_refl _
  | @serve _ next work _ hnext hrest ih =>
    refine ih.trans ?_
    rcases eq_or_ne level next with rfl | hne
    · rw [serve_self]
      exact Nat.sub_le _ _
    · rw [serve_of_ne hne]

/-- Spending leaves keeps the discipline. -/
theorem Disciplined.spent {budget : Nat} (hwork : Disciplined height work)
    (h : Spent budget work after) : Disciplined height after := by
  induction h with
  | done => exact hwork
  | idle => exact hwork
  | serve hnext hrest ih => exact ih (hwork.serve hnext)

/-- A level that still has work after a budget was spent has seen all of it spent on urgent
work. -/
theorem urgent_spent {budget : Nat} (hwork : Disciplined height work)
    (h : Spent budget work after) (hpos : 0 < after level) :
    urgent height level after + budget = urgent height level work := by
  induction h with
  | done => rfl
  | idle hzero =>
    rw [hzero level] at hpos
    exact absurd hpos (Nat.lt_irrefl 0)
  | serve hnext hrest ih =>
    have hserve := (hwork.serve hnext)
    have hbefore : 0 < serve _ _ level := Nat.lt_of_lt_of_le hpos (hrest.le level)
    have hlevel : 0 < _ := Nat.lt_of_lt_of_le hpos ((Spent.serve hnext hrest).le level)
    have hone := urgent_serve hwork hnext hlevel
    have := ih hserve hpos
    omega

/-- At a deadline no round is left, and the next period begins. -/
theorem roundsLeft_of_dvd (h : 2 ^ (level + 1) ∣ leaf + 1) :
    roundsLeft level leaf = 0 ∧ roundsLeft level (leaf + 1) = 2 ^ (level + 1) - 1 := by
  have hpos := Nat.two_pow_pos (level + 1)
  have hlt := Nat.mod_lt leaf hpos
  have hnext : (leaf + 1) % 2 ^ (level + 1) = 0 := Nat.mod_eq_zero_of_dvd h
  have hlast : ¬ leaf % 2 ^ (level + 1) + 1 < 2 ^ (level + 1) := by
    intro hsmall
    rw [Nat.add_mod, Nat.mod_eq_of_lt (show 1 < 2 ^ (level + 1) by omega),
      Nat.mod_eq_of_lt hsmall] at hnext
    omega
  unfold roundsLeft
  omega

/-- Away from a deadline every move uses up one round. -/
theorem roundsLeft_of_not_dvd (h : ¬ 2 ^ (level + 1) ∣ leaf + 1) :
    roundsLeft level (leaf + 1) + 1 = roundsLeft level leaf := by
  have hlt := Nat.mod_lt (leaf + 1) (Nat.two_pow_pos (level + 1))
  have hpred := sub_one_mod_add_one h
  rw [Nat.add_sub_cancel] at hpred
  unfold roundsLeft
  omega

/-- The deadlines of a lower level divide the rounds before a deadline evenly. -/
theorem dvd_roundsLeft {low : Nat} (hlow : low ≤ level) (h : 2 ^ (low + 1) ∣ leaf + 1) :
    2 ^ (low + 1) ∣ roundsLeft level leaf := by
  have hdiv := Nat.div_add_mod leaf (2 ^ (level + 1))
  have hlt := Nat.mod_lt leaf (Nat.two_pow_pos (level + 1))
  have hsum : roundsLeft level leaf + (leaf + 1) =
      2 ^ (level + 1) * (leaf / 2 ^ (level + 1)) + 2 ^ (level + 1) := by
    unfold roundsLeft
    omega
  have hpow : 2 ^ (low + 1) ∣ 2 ^ (level + 1) := Nat.pow_dvd_pow 2 (by omega)
  refine (Nat.dvd_add_left h).1 ?_
  rw [hsum]
  exact Nat.dvd_add (hpow.mul_right _) hpow

/-- What becomes urgent at a move was upcoming before it. -/
theorem upcoming_add_le {rounds : Nat} (h : ∀ j, j < level → 2 ^ (j + 1) ∣ leaf + 1 →
    2 ^ (j + 1) ∣ rounds + 1) :
    upcoming level rounds + ∑ j ∈ range level, (if 2 ^ (j + 1) ∣ leaf + 1 then 2 ^ j else 0) ≤
      upcoming level (rounds + 1) := by
  unfold upcoming
  rw [← sum_add_distrib]
  refine sum_le_sum fun j hj => ?_
  split
  · rename_i hdvd
    rw [Nat.succ_div_of_dvd (h j (mem_range.1 hj) hdvd), Nat.mul_succ]
  · rw [Nat.add_zero]
    exact Nat.mul_le_mul_left _ (Nat.div_le_div_right (Nat.le_succ rounds))

/-- Away from a deadline a move starts work below the level only. -/
theorem urgent_restart_le (h : ¬ 2 ^ (level + 1) ∣ leaf + 1) :
    urgent height level (restart height leaf work) ≤ urgent height level work +
      ∑ j ∈ range level, (if 2 ^ (j + 1) ∣ leaf + 1 then 2 ^ j else 0) := by
  have hkept : ∀ i, level ≤ i → restart height leaf work i = work i := by
    intro i hi
    have hdvd : ¬ 2 ^ (i + 1) ∣ leaf + 1 := fun hdvd =>
      h ((Nat.pow_dvd_pow 2 (by omega)).trans hdvd)
    exact if_neg fun hstart => hdvd hstart.1
  have hlower : ∑ i ∈ range level, restart height leaf work i ≤ ∑ i ∈ range level, work i +
      ∑ j ∈ range level, (if 2 ^ (j + 1) ∣ leaf + 1 then 2 ^ j else 0) := by
    rw [← sum_add_distrib]
    refine sum_le_sum fun i _ => ?_
    unfold restart
    by_cases hdvd : 2 ^ (i + 1) ∣ leaf + 1
    · rw [if_pos hdvd]
      split <;> omega
    · rw [if_neg hdvd, if_neg fun hstart => hdvd hstart.1]
      exact Nat.le_refl _
  have hupper : ∑ i ∈ Ico (level + 1) (height - 2), restart height leaf work i % 2 ^ level =
      ∑ i ∈ Ico (level + 1) (height - 2), work i % 2 ^ level := by
    refine sum_congr rfl fun i hi => ?_
    rw [hkept i (by have := mem_Ico.1 hi; omega)]
  unfold urgent
  rw [sum_range_succ, sum_range_succ, hkept level (Nat.le_refl _), hupper]
  omega

/-- A whole period of a level holds this many periods of a lower level, the last one up to its
deadline. -/
theorem period_div_succ {low : Nat} (hlow : low < level) :
    (2 ^ (level + 1) - 1) / 2 ^ (low + 1) + 1 = 2 ^ (level - low) := by
  have hpow : 2 ^ (level + 1) = 2 ^ (level - low) * 2 ^ (low + 1) := by
    rw [← Nat.pow_add]
    congr 1
    omega
  have hdvd : 2 ^ (low + 1) ∣ 2 ^ (level + 1) - 1 + 1 := by
    rw [Nat.sub_add_cancel (Nat.two_pow_pos _)]
    exact ⟨2 ^ (level - low), by rw [hpow, Nat.mul_comm]⟩
  rw [← Nat.succ_div_of_dvd hdvd, Nat.sub_add_cancel (Nat.two_pow_pos _), hpow,
    Nat.mul_div_cancel _ (Nat.two_pow_pos _)]

/-- In a whole period of a level every lower level asks for at most one subtree of the level. -/
theorem sum_work_add_upcoming_le (hwork : Disciplined height work) (level : Nat) :
    ∑ i ∈ range level, work i + upcoming level (2 ^ (level + 1) - 1) ≤ level * 2 ^ level := by
  unfold upcoming
  rw [← sum_add_distrib]
  refine (sum_le_card_nsmul (range level) _ (2 ^ level) fun j hj => ?_).trans
    (by rw [card_range, smul_eq_mul])
  have hj := mem_range.1 hj
  calc work j + 2 ^ j * ((2 ^ (level + 1) - 1) / 2 ^ (j + 1))
      ≤ 2 ^ j + 2 ^ j * ((2 ^ (level + 1) - 1) / 2 ^ (j + 1)) :=
        Nat.add_le_add_right (hwork.work_le j) _
    _ = 2 ^ j * 2 ^ (level - j) := by rw [← period_div_succ hj, Nat.mul_succ, Nat.add_comm]
    _ = 2 ^ level := by rw [← Nat.pow_add]; congr 1; omega

/-- Every higher level asks for less than one subtree of the level. -/
theorem sum_work_mod_le (height level : Nat) (work : Workload) :
    ∑ i ∈ Ico (level + 1) (height - 2), work i % 2 ^ level ≤
      (height - 2 - (level + 1)) * 2 ^ level := by
  refine (sum_le_card_nsmul _ _ (2 ^ level) fun i _ => ?_).trans
    (by rw [Nat.card_Ico, smul_eq_mul])
  exact Nat.le_of_lt (Nat.mod_lt _ (Nat.two_pow_pos level))

/-- At the start of a period all work that is or becomes urgent fits into its rounds. -/
theorem urgent_add_upcoming_le (hwork : Disciplined height work) (hlevel : level + 2 < height) :
    urgent height level work + upcoming level (2 ^ (level + 1) - 1) ≤
      moveBudget height * 2 ^ (level + 1) := by
  have hlower := sum_work_add_upcoming_le hwork level
  have hupper := sum_work_mod_le height level work
  have htotal : level * 2 ^ level + 2 ^ level + (height - 2 - (level + 1)) * 2 ^ level ≤
      moveBudget height * 2 ^ (level + 1) := by
    have hcount : level + 1 + (height - 2 - (level + 1)) ≤ moveBudget height * 2 := by
      unfold moveBudget
      omega
    calc level * 2 ^ level + 2 ^ level + (height - 2 - (level + 1)) * 2 ^ level
        = (level + 1 + (height - 2 - (level + 1))) * 2 ^ level := by ring
      _ ≤ moveBudget height * 2 * 2 ^ level := Nat.mul_le_mul_right _ hcount
      _ = moveBudget height * 2 ^ (level + 1) := by ring
  have hown := hwork.work_le level
  unfold urgent
  rw [sum_range_succ]
  omega

/-- At its deadline a level has no work. -/
theorem OnSchedule.work_eq_zero (hwork : OnSchedule height leaf work)
    (h : 2 ^ (level + 1) ∣ leaf + 1) : work level = 0 := by
  rcases hwork.onTime level with hzero | hfit
  · exact hzero
  · rw [(roundsLeft_of_dvd h).1, Nat.mul_zero] at hfit
    have hown : work level ≤ ∑ i ∈ range (level + 1), work i :=
      single_le_sum (fun i _ => Nat.zero_le (work i)) (self_mem_range_succ level)
    unfold urgent at hfit
    omega

/-- Starting new work keeps the discipline, since only levels without work are given any. -/
theorem OnSchedule.disciplined_restart (hwork : OnSchedule height leaf work) :
    Disciplined height (restart height leaf work) where
  work_le level := by
    unfold restart
    split
    · exact Nat.le_refl _
    · exact hwork.work_le level
  low level hpos := by
    unfold restart at hpos
    split at hpos
    · rename_i hstart
      -- A subtree that fits behind the next leaf on this level is not one of the last two.
      have hfirst := Nat.le_of_dvd (Nat.succ_pos leaf) hstart.1
      have hheight : 2 ^ (level + 2) < 2 ^ height := by
        rw [Nat.pow_succ] at hfirst ⊢
        omega
      exact (Nat.pow_lt_pow_iff_right (by decide)).1 hheight
    · exact hwork.low level hpos
  nested low high hlt hpos hunder := by
    have hlow : restart height leaf work low = work low := by
      unfold restart at hunder ⊢
      split at hunder
      · exact absurd hunder (Nat.lt_irrefl _)
      · rename_i hstart
        rw [if_neg hstart]
    rw [hlow] at hpos hunder
    have hhigh : restart height leaf work high = work high := by
      refine if_neg fun hstart => ?_
      have hpow : 2 ^ (low + 1) ∣ 2 ^ (high + 1) := Nat.pow_dvd_pow 2 (by omega)
      have hzero := hwork.work_eq_zero (hpow.trans hstart.1)
      exact absurd hpos (hzero ▸ Nat.lt_irrefl 0)
    rw [hhigh]
    exact hwork.nested low high hlt hpos hunder

/-- A traversal without work is on schedule. -/
theorem onSchedule_zero (height leaf : Nat) : OnSchedule height leaf fun _ => 0 where
  work_le _ := Nat.zero_le _
  low _ h := absurd h (Nat.lt_irrefl 0)
  nested _ _ _ h := absurd h (Nat.lt_irrefl 0)
  onTime _ := .inl rfl

/-- A move keeps the schedule. -/
theorem OnSchedule.move (hwork : OnSchedule height leaf work)
    (hspent : Spent (moveBudget height) (restart height leaf work) after) :
    OnSchedule height (leaf + 1) after where
  toDisciplined := hwork.disciplined_restart.spent hspent
  onTime level := by
    have hrestart := hwork.disciplined_restart
    rcases Nat.eq_zero_or_pos (after level) with hzero | hpos
    · exact .inl hzero
    · refine .inr ?_
      have hbefore : 0 < restart height leaf work level :=
        Nat.lt_of_lt_of_le hpos (hspent.le level)
      have hshare := urgent_spent hrestart hspent hpos
      by_cases hdeadline : 2 ^ (level + 1) ∣ leaf + 1
      · have hfit := urgent_add_upcoming_le hrestart (hrestart.low level hbefore)
        have hbudget : moveBudget height * 2 ^ (level + 1) =
            moveBudget height * (2 ^ (level + 1) - 1) + moveBudget height := by
          rw [← Nat.mul_succ, Nat.succ_eq_add_one, Nat.sub_add_cancel (Nat.two_pow_pos _)]
        rw [(roundsLeft_of_dvd hdeadline).2]
        omega
      · have hrounds := roundsLeft_of_not_dvd hdeadline
        have hkept : restart height leaf work level = work level :=
          if_neg fun hstart => hdeadline hstart.1
        have hurgent : urgent height level (restart height leaf work) ≤ _ :=
          urgent_restart_le hdeadline
        have hupcoming : upcoming level (roundsLeft level (leaf + 1)) + _ ≤ _ :=
          upcoming_add_le fun j hj hdvd => hrounds ▸ dvd_roundsLeft (Nat.le_of_lt hj) hdvd
        rw [hrounds] at hupcoming
        have hbudget : moveBudget height * roundsLeft level leaf =
            moveBudget height * roundsLeft level (leaf + 1) + moveBudget height := by
          rw [← hrounds, Nat.mul_succ]
        rcases hwork.onTime level with hzero | hfit
        · omega
        · omega

end MerkleSignature.Traversal
