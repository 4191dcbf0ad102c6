import Mathlib.Data.Nat.Bitwise
import Mathlib.Data.Nat.Factorization.Basic
import MerkleSignature.Proofs.Traversal.Spending

/-!
# Moving to the next leaf

The move from a leaf to the next one is governed by the largest power of two that divides the index
of the next leaf. Its exponent is the height of the first left node above the old leaf. Below this
height the path takes over the roots that the builders hold, at this height it takes the node that
was just completed, and above this height nothing changes.

A traversal on schedule therefore finds every root that it takes over finished, and a move never
fails.
-/

namespace MerkleSignature.Traversal

open MerkleTree SubtreeBuilder

section Index

variable {leaf level : Nat}

/-- A power of two divides the next index to one power more exactly when the index shifted by that
power is odd. -/
theorem dvd_succ_iff_of_dvd (h : 2 ^ level ∣ leaf + 1) :
    2 ^ (level + 1) ∣ leaf + 1 ↔ leaf >>> level % 2 = 1 := by
  have hdiv := Nat.succ_div_of_dvd h
  obtain ⟨factor, hfactor⟩ := h
  rw [hfactor, Nat.mul_div_cancel_left _ (Nat.two_pow_pos level)] at hdiv
  rw [hfactor, Nat.pow_succ, Nat.mul_dvd_mul_iff_left (Nat.two_pow_pos level),
    Nat.shiftRight_eq_div_pow]
  omega

/-- The first left node above a leaf stands at the height of the largest power of two that divides
the next index. -/
theorem firstLeftHeight_spec {height : Nat} (hleaf : leaf + 1 < 2 ^ height) :
    firstLeftHeight height leaf < height ∧
      ∀ level, 2 ^ level ∣ leaf + 1 ↔ level ≤ firstLeftHeight height leaf := by
  obtain ⟨tau, odd, hodd, hsucc⟩ := Nat.exists_eq_two_pow_mul_odd (Nat.succ_ne_zero leaf)
  have hdvd : ∀ level, 2 ^ level ∣ leaf + 1 ↔ level ≤ tau := by
    intro level
    rw [Nat.succ_eq_add_one] at hsucc
    rw [hsucc]
    refine ⟨fun h => ?_, fun h => (Nat.pow_dvd_pow 2 h).mul_right odd⟩
    have hcoprime : Nat.Coprime (2 ^ level) odd := (Nat.coprime_two_left.2 hodd).pow_left level
    exact (Nat.pow_dvd_pow_iff_le_right (by decide)).1 (hcoprime.dvd_of_dvd_mul_right h)
  have hlt : tau < height := by
    have hle := Nat.le_of_dvd (Nat.succ_pos leaf) ((hdvd tau).2 (Nat.le_refl tau))
    exact (Nat.pow_lt_pow_iff_right (by decide)).1 (Nat.lt_of_le_of_lt hle hleaf)
  have hfound : (List.range height).find? (fun level => leaf >>> level % 2 = 0) = some tau := by
    refine List.find?_range_eq_some.2 ⟨?_, List.mem_range.2 hlt, fun level hlevel => ?_⟩
    · have hnot := mt (hdvd (tau + 1)).1 (Nat.not_succ_le_self tau)
      rw [dvd_succ_iff_of_dvd ((hdvd tau).2 (Nat.le_refl tau))] at hnot
      rw [decide_eq_true_iff]
      omega
    · have hone := (dvd_succ_iff_of_dvd ((hdvd level).2 (Nat.le_of_lt hlevel))).1
        ((hdvd (level + 1)).2 hlevel)
      rw [Bool.not_eq_true', decide_eq_false_iff_not]
      omega
  rw [firstLeftHeight, hfound]
  exact ⟨hlt, hdvd⟩

/-- Above the first left node a move changes no ancestor. -/
theorem succ_shiftRight_of_not_dvd (h : ¬ 2 ^ level ∣ leaf + 1) :
    (leaf + 1) >>> level = leaf >>> level := by
  rw [Nat.shiftRight_eq_div_pow, Nat.shiftRight_eq_div_pow, Nat.succ_div_of_not_dvd h]

/-- Up to the first left node a move goes on to the next ancestor. -/
theorem succ_shiftRight_of_dvd (h : 2 ^ level ∣ leaf + 1) :
    (leaf + 1) >>> level = leaf >>> level + 1 := by
  rw [Nat.shiftRight_eq_div_pow, Nat.shiftRight_eq_div_pow, Nat.succ_div_of_dvd h]

/-- When a builder's root is taken over it is the sibling of the ancestor below it. -/
theorem succ_sibling (h : 2 ^ (level + 1) ∣ leaf + 1) :
    ((leaf + 1) >>> level) ^^^ 1 = 2 * (leaf / 2 ^ (level + 1)) + 3 := by
  have hlow : 2 ^ level ∣ leaf + 1 := (Nat.pow_dvd_pow 2 (Nat.le_succ level)).trans h
  have hodd := (dvd_succ_iff_of_dvd hlow).1 h
  have hhalf : leaf / 2 ^ (level + 1) = leaf >>> level / 2 := by
    rw [Nat.shiftRight_eq_div_pow, Nat.div_div_eq_div_mul, Nat.pow_succ]
  rw [succ_shiftRight_of_dvd hlow, Nat.xor_one_of_even (Nat.even_iff.2 (by omega))]
  omega

/-- The subtree that is taken over at a move starts one subtree behind the next leaf, and the one
that is built from then on starts three subtrees behind it. -/
theorem aheadStart_of_dvd (h : 2 ^ (level + 1) ∣ leaf + 1) :
    aheadStart leaf level = leaf + 1 + 2 ^ level ∧
      aheadStart (leaf + 1) level = leaf + 1 + 3 * 2 ^ level := by
  have hdiv := Nat.succ_div_of_dvd h
  obtain ⟨factor, hfactor⟩ := h
  rw [hfactor, Nat.mul_div_cancel_left _ (Nat.two_pow_pos _)] at hdiv
  have hleaf : leaf + 1 = factor * 2 * 2 ^ level := by
    rw [hfactor, Nat.pow_succ]
    ring
  unfold aheadStart
  rw [Nat.succ_div_of_dvd ⟨factor, hfactor⟩, ← hdiv, hleaf]
  have hprev : 2 * (leaf / 2 ^ (level + 1)) + 3 = factor * 2 + 1 := by omega
  rw [hprev]
  constructor <;> ring

/-- Above the first left node the builders go on with their subtrees. -/
theorem aheadStart_of_not_dvd (h : ¬ 2 ^ (level + 1) ∣ leaf + 1) :
    aheadStart (leaf + 1) level = aheadStart leaf level := by
  rw [aheadStart, aheadStart, Nat.succ_div_of_not_dvd h]

/-- The subtree that is taken over at a move lies inside the tree. -/
theorem aheadStart_lt_of_dvd {height : Nat} (hlevel : level + 1 < height)
    (hleaf : leaf + 1 < 2 ^ height) (h : 2 ^ (level + 1) ∣ leaf + 1) :
    aheadStart leaf level < 2 ^ height := by
  obtain ⟨gap, rfl⟩ := Nat.exists_eq_add_of_lt hlevel
  rw [(aheadStart_of_dvd h).1]
  obtain ⟨factor, hfactor⟩ := h
  have hpow : 2 ^ (level + 1 + gap + 1) = 2 ^ (level + 1) * 2 ^ (gap + 1) := by
    rw [← Nat.pow_add]
    rfl
  rw [hfactor, hpow] at hleaf ⊢
  have hfit : factor + 1 ≤ 2 ^ (gap + 1) := Nat.lt_of_mul_lt_mul_left hleaf
  have hbound := Nat.mul_le_mul_left (2 ^ (level + 1)) hfit
  rw [Nat.mul_succ, Nat.pow_succ] at hbound
  have hpos := Nat.two_pow_pos level
  rw [Nat.pow_succ]
  omega

end Index

variable {t : MerkleTree} {leaf : Nat} {work : Workload} {s : Traversal}

/-- Changing one entry and then the entries of the range behind it is changing the entries of a
longer range. -/
theorem mapIdx_modify_range {α : Type} (f : Nat → α → α) (count level : Nat) (xs : List α) :
    ((xs.modify level (f level)).mapIdx fun j x =>
        if level + 1 ≤ j ∧ j < level + 1 + count then f j x else x) =
      xs.mapIdx fun j x => if level ≤ j ∧ j < level + (count + 1) then f j x else x := by
  refine List.ext_getElem? fun j => ?_
  rw [List.getElem?_mapIdx, List.getElem?_mapIdx, List.getElem?_modify]
  cases xs[j]? with
  | none => rfl
  | some x =>
    simp only [Option.map_some, Option.map_eq_map, Option.some.injEq]
    rcases Nat.lt_trichotomy level j with hlt | rfl | hgt
    · rw [if_neg (Nat.ne_of_lt hlt)]
      exact if_congr (by omega) rfl rfl
    · rw [if_neg (by omega), if_pos (by omega)]
      simp
    · rw [if_neg (by omega), if_neg (by omega), if_neg (by omega)]

/-- Finished roots are moved into the path level by level. -/
theorem takeRoots_eq_ok (nodes : Nat → Node) (count level : Nat) (s : Traversal)
    (hroots : ∀ j, level ≤ j → j < level + count →
      s.builders[j]?.bind SubtreeBuilder.root = some (nodes j)) :
    takeRoots count level s = .ok { s with
      path := s.path.mapIdx fun j value =>
        if level ≤ j ∧ j < level + count then (nodes j).value else value
      builders := s.builders.mapIdx fun j b =>
        if level ≤ j ∧ j < level + count then b.withoutRoot else b } := by
  induction count generalizing level s with
  | zero =>
    have hnone : ∀ j, ¬ (level ≤ j ∧ j < level + 0) := fun j => by omega
    have hpath : (s.path.mapIdx fun _ value => value) = s.path :=
      List.ext_getElem? fun j => by simp
    have hbuilders : (s.builders.mapIdx fun _ b => b) = s.builders :=
      List.ext_getElem? fun j => by simp
    simp only [takeRoots, hnone, if_false, hpath, hbuilders]
  | succ count ih =>
    have hfirst : s.builders[level]?.bind SubtreeBuilder.root = some (nodes level) :=
      hroots level (Nat.le_refl level) (by omega)
    have hpath := mapIdx_modify_range (fun j _ => (nodes j).value) count level s.path
    have hbuilders := mapIdx_modify_range (fun _ b => b.withoutRoot) count level s.builders
    rw [takeRoots, hfirst]
    refine (ih (level + 1) _ fun j hle hlt => ?_).trans ?_
    · rw [List.getElem?_modify]
      simpa [show level ≠ j by omega] using hroots j (by omega) (by omega)
    · rw [← hpath, ← hbuilders, ← List.set_eq_modify]

/-- A builder is described by the subtree it works on. -/
theorem BuilderAt.congr {next level missing : Nat} {b : SubtreeBuilder}
    (h : aheadStart next level = aheadStart leaf level) (hb : BuilderAt t leaf level missing b) :
    BuilderAt t next level missing b := by
  have hnode : aheadNode t next level = aheadNode t leaf level := by
    rw [aheadNode, aheadNode, h]
  cases hb with
  | waiting htarget hown hphase hroot =>
    rw [← h, ← hnode] at hroot
    exact .waiting htarget hown hphase hroot
  | busy hpos hinside =>
    rw [← h] at hinside ⊢
    exact .busy hpos hinside

/-- At a move the builders below the first left node hold the roots that the path needs. -/
theorem Stands.root_eq (hwork : OnSchedule t.height leaf work) (hs : Stands t leaf work s)
    {level : Nat} (hlevel : level + 1 < t.height) (hleaf : leaf + 1 < 2 ^ t.height)
    (hdvd : 2 ^ (level + 1) ∣ leaf + 1) :
    s.builders[level]?.bind SubtreeBuilder.root =
      some (t.nodeAt level (((leaf + 1) >>> level) ^^^ 1)) := by
  obtain ⟨b, hb, hbuilder⟩ := hs.exists_builder (show level < t.height by omega)
  have hnode : aheadNode t leaf level = t.nodeAt level (((leaf + 1) >>> level) ^^^ 1) := by
    rw [aheadNode, blockNode, succ_sibling hdvd, aheadStart,
      Nat.mul_div_cancel _ (Nat.two_pow_pos level), Nat.add_zero]
  rw [hwork.work_eq_zero hdvd] at hbuilder
  rw [hb, Option.bind_some]
  cases hbuilder with
  | waiting _ _ _ hroot => rw [hroot (aheadStart_lt_of_dvd hlevel hleaf hdvd), hnode]
  | busy hpos _ => exact absurd hpos (Nat.lt_irrefl 0)

/-- The path after a move: one new node at the height of the first left node, the roots of the
builders below it, and the old nodes above it. -/
theorem succ_authPath {tau : Nat} (htau : ∀ level, 2 ^ level ∣ leaf + 1 ↔ level ≤ tau) :
    (((t.authPath leaf).set tau (t.nodeValue tau (leaf >>> tau))).mapIdx fun level value =>
        if level < tau then t.nodeValue level (((leaf + 1) >>> level) ^^^ 1) else value) =
      t.authPath (leaf + 1) := by
  refine List.ext_getElem? fun level => ?_
  rw [List.getElem?_mapIdx]
  by_cases hlevel : level < t.height
  · rw [getElem?_authPath hlevel]
    rcases Nat.lt_trichotomy level tau with hlt | rfl | hgt
    · rw [List.getElem?_set_ne (by omega), getElem?_authPath hlevel, Option.map_some, if_pos hlt]
    · have hdvd := (htau level).2 (Nat.le_refl level)
      have heven : leaf >>> level % 2 = 0 := by
        have := mt (dvd_succ_iff_of_dvd hdvd).2 (mt (htau (level + 1)).1 (Nat.not_succ_le_self _))
        omega
      have hsibling : ((leaf + 1) >>> level) ^^^ 1 = leaf >>> level := by
        rw [succ_shiftRight_of_dvd hdvd, ← Nat.xor_one_of_even (Nat.even_iff.2 heven),
          Nat.xor_assoc, Nat.xor_self, Nat.xor_zero]
      rw [List.getElem?_set_self (by rwa [length_authPath]), Option.map_some,
        if_neg (Nat.lt_irrefl level), hsibling]
    · have hnot : ¬ 2 ^ level ∣ leaf + 1 := mt (htau level).1 (by omega)
      rw [List.getElem?_set_ne (by omega), getElem?_authPath hlevel, Option.map_some,
        if_neg (by omega), succ_shiftRight_of_not_dvd hnot]
  · rw [List.getElem?_eq_none, List.getElem?_eq_none]
    · rfl
    · rw [length_authPath]
      omega
    · rw [List.length_set, length_authPath]
      omega

/-- A builder after a move: below the first left node its root is taken, and it starts anew if the
next right node lies inside the tree. -/
def passOn (height tau leaf level : Nat) (b : SubtreeBuilder) : SubtreeBuilder :=
  if level < tau then
    if leaf + 1 + 3 * 2 ^ level < 2 ^ height then b.withoutRoot.startAt (leaf + 1 + 3 * 2 ^ level)
    else b.withoutRoot
  else b

/-- Taking the roots below the first left node and starting these builders anew is passing them
on. -/
theorem mapIdx_passOn (height tau leaf : Nat) (builders : List SubtreeBuilder) :
    ((builders.mapIdx fun level b =>
        if 0 ≤ level ∧ level < 0 + tau then b.withoutRoot else b).mapIdx fun level b =>
      if level < tau ∧ leaf + 1 + 3 * 2 ^ level < 2 ^ height then
        b.startAt (leaf + 1 + 3 * 2 ^ level) else b) =
      builders.mapIdx (passOn height tau leaf) := by
  rw [List.mapIdx_mapIdx]
  congr 1
  funext level b
  unfold passOn
  by_cases hlevel : level < tau
  · simp [hlevel]
  · simp [hlevel]

/-- After a move the builders work on what the next leaf needs, with the restarted workload. -/
theorem BuilderAt.move (hwork : OnSchedule t.height leaf work) {tau : Nat}
    (htau : ∀ level, 2 ^ level ∣ leaf + 1 ↔ level ≤ tau) {level : Nat} {b : SubtreeBuilder}
    (hb : BuilderAt t leaf level (work level) b) :
    BuilderAt t (leaf + 1) level (restart t.height leaf work level)
      (passOn t.height tau leaf level b) := by
  unfold passOn restart
  by_cases hlevel : level < tau
  · have hdvd := (htau (level + 1)).2 hlevel
    have hstart := (aheadStart_of_dvd hdvd).2
    rw [hwork.work_eq_zero hdvd] at hb
    rw [if_pos hlevel]
    generalize hzero : 0 = missing at hb
    cases hb with
    | waiting htarget hown hphase hroot =>
      by_cases hinside : leaf + 1 + 3 * 2 ^ level < 2 ^ t.height
      · rw [if_pos hinside, if_pos ⟨hdvd, hinside⟩, startAt_eq_working, ← hstart]
        have hbusy : BuilderAt t (leaf + 1) level (2 ^ level) _ :=
          .busy (Nat.two_pow_pos level) (hstart ▸ hinside)
        rw [Nat.sub_self] at hbusy
        rw [show b.withoutRoot.target = level from htarget]
        exact hbusy
      · rw [if_neg hinside, if_neg fun h => hinside h.2, hwork.work_eq_zero hdvd]
        exact .waiting htarget hown hphase fun h => absurd (hstart ▸ h) hinside
    | busy hpos _ => omega
  · have hdvd : ¬ 2 ^ (level + 1) ∣ leaf + 1 := mt (htau (level + 1)).1 hlevel
    rw [if_neg hlevel, if_neg fun h => hdvd h.1]
    exact hb.congr (aheadStart_of_not_dvd hdvd)

/-- A move leaves the shared stack as it is: the builders that start anew own no nodes. -/
theorem blocks_move (hwork : OnSchedule t.height leaf work) :
    blocks t (leaf + 1) (restart t.height leaf work) = blocks t leaf work := by
  refine List.flatMap_congr fun level _ => ?_
  by_cases hdvd : 2 ^ (level + 1) ∣ leaf + 1
  · rw [block_eq_nil hwork.disciplined_restart, block_eq_nil hwork.toDisciplined]
    · rw [hwork.work_eq_zero hdvd]
      omega
    · unfold restart
      split
      · omega
      · rw [hwork.work_eq_zero hdvd]
        omega
  · have hkept : restart t.height leaf work level = work level := if_neg fun h => hdvd h.1
    rw [block, block, hkept, aheadStart_of_not_dvd hdvd]

/-- Keeping a right node changes the kept nodes only. -/
theorem keepRight_eq (tau leaf : Nat) (s : Traversal) :
    s.keepRight tau leaf = { s with kept := (s.keepRight tau leaf).kept } := by
  unfold keepRight
  split <;> rfl

@[simp] theorem length_kept_keepRight (tau leaf : Nat) (s : Traversal) :
    (s.keepRight tau leaf).kept.length = s.kept.length := by
  unfold keepRight
  split
  · exact List.length_set ..
  · rfl

/-- The nodes that a move keeps are those that the next leaf needs, whatever became of the entries
below the first left node. -/
theorem Stands.kept_keepRight (hs : Stands t leaf work s) {tau : Nat}
    (htau : ∀ level, 2 ^ level ∣ leaf + 1 ↔ level ≤ tau) {kept : List (Option Bytes)}
    (hlength : kept.length = t.height)
    (habove : ∀ level, tau < level → kept[level]? = s.kept[level]?)
    {level : Nat} (hlevel : level + 1 < t.height) (hright : (leaf + 1) >>> level % 2 = 1)
    (hleft : (leaf + 1) >>> (level + 1) % 2 = 0) :
    (keepRight tau leaf { s with kept }).kept[level]? =
      some (some (t.nodeValue level ((leaf + 1) >>> level))) := by
  have hself := dvd_succ_iff_of_dvd ((htau tau).2 (Nat.le_refl tau))
  rw [htau (tau + 1)] at hself
  rcases Nat.lt_trichotomy level tau with hlt | rfl | hgt
  · -- Below the first left node the next leaf has left ancestors only.
    have hdvd : 2 ^ level ∣ leaf + 1 := (htau level).2 (Nat.le_of_lt hlt)
    have hodd := (dvd_succ_iff_of_dvd hdvd).1 ((htau (level + 1)).2 hlt)
    rw [succ_shiftRight_of_dvd hdvd] at hright
    omega
  · have hnot : ¬ 2 ^ (level + 1) ∣ leaf + 1 := mt (htau (level + 1)).1 (Nat.not_succ_le_self _)
    have heven : leaf >>> level % 2 = 0 := by omega
    rw [succ_shiftRight_of_not_dvd hnot] at hleft
    have hcond : level + 1 < s.height ∧ leaf >>> (level + 1) % 2 = 0 :=
      ⟨hs.height_eq ▸ hlevel, hleft⟩
    have hentry : s.path.getD level [] = t.nodeValue level ((leaf + 1) >>> level) := by
      rw [List.getD_eq_getElem?_getD, hs.path_eq, getElem?_authPath (by omega), Option.getD_some,
        succ_shiftRight_of_dvd ((htau level).2 (Nat.le_refl level)),
        Nat.xor_one_of_even (Nat.even_iff.2 heven)]
    rw [keepRight, if_pos hcond]
    dsimp only
    rw [List.getElem?_set_self (by omega), hentry]
  · have hentry : kept[level]? = some (some (t.nodeValue level ((leaf + 1) >>> level))) := by
      have hnot : ¬ 2 ^ level ∣ leaf + 1 := mt (htau level).1 (by omega)
      have hnot' : ¬ 2 ^ (level + 1) ∣ leaf + 1 := mt (htau (level + 1)).1 (by omega)
      rw [succ_shiftRight_of_not_dvd hnot] at hright ⊢
      rw [succ_shiftRight_of_not_dvd hnot'] at hleft
      rw [habove level hgt]
      exact hs.kept_eq level hlevel hright hleft
    unfold keepRight
    split
    · exact (List.getElem?_set_ne (Nat.ne_of_lt hgt)).trans hentry
    · exact hentry

/-- Where a traversal stands after its path, its kept nodes and its builders were moved on. -/
theorem Stands.move (hwork : OnSchedule t.height leaf work) (hs : Stands t leaf work s) {tau : Nat}
    (htau : ∀ level, 2 ^ level ∣ leaf + 1 ↔ level ≤ tau) (kept : List (Option Bytes))
    (hlength : kept.length = t.height)
    (habove : ∀ level, tau < level → kept[level]? = s.kept[level]?) :
    Stands t (leaf + 1) (restart t.height leaf work) {
      height := s.height
      path := t.authPath (leaf + 1)
      kept := (keepRight tau leaf { s with kept }).kept
      builders := s.builders.mapIdx (passOn t.height tau leaf)
      stack := s.stack } where
  height_eq := hs.height_eq
  path_eq := rfl
  length_kept := (length_kept_keepRight ..).trans hlength
  kept_eq _ hlevel hright hleft := hs.kept_keepRight htau hlength habove hlevel hright hleft
  length_builders := List.length_mapIdx.trans hs.length_builders
  builders_eq level b hb := by
    rw [List.getElem?_mapIdx, Option.map_eq_some_iff] at hb
    obtain ⟨old, hold, rfl⟩ := hb
    exact (hs.builders_eq level old hold).move hwork htau
  stack_eq := by
    rw [blocks_move hwork]
    exact hs.stack_eq

/-- The node at the height of the first left node is joined from a kept node and its sibling on the
path. -/
theorem Stands.combine_kept (total : t.Total) (hheight : t.height ≤ maxTreeHeight)
    (hs : Stands t leaf work s) {below : Nat} (hbelow : below + 1 < t.height)
    (hdvd : 2 ^ (below + 1) ∣ leaf + 1) (hnot : ¬ 2 ^ (below + 1 + 1) ∣ leaf + 1) :
    ∃ right, s.kept.getD below none = some right ∧
      t.combine ⟨below, s.path.getD below []⟩ ⟨below, right⟩ (leaf >>> (below + 1)) =
        .ok (t.nodeAt (below + 1) (leaf >>> (below + 1))) := by
  have hodd : leaf >>> below % 2 = 1 :=
    (dvd_succ_iff_of_dvd ((Nat.pow_dvd_pow 2 (Nat.le_succ below)).trans hdvd)).1 hdvd
  have heven : leaf >>> (below + 1) % 2 = 0 := by
    rw [dvd_succ_iff_of_dvd hdvd] at hnot
    omega
  have hparent : leaf >>> below = 2 * leaf >>> (below + 1) + 1 := by
    rw [Nat.shiftRight_succ]
    omega
  have hleft : s.path.getD below [] = t.nodeValue below (2 * leaf >>> (below + 1)) := by
    rw [List.getD_eq_getElem?_getD, hs.path_eq, getElem?_authPath (by omega), Option.getD_some,
      Nat.xor_one_of_odd (Nat.odd_iff.2 hodd), hparent, Nat.add_sub_cancel]
  have hcombine := total.combine_eq (leaf >>> (below + 1)) (hbelow.trans (lt_wordRange hheight))
  refine ⟨t.nodeValue below (2 * leaf >>> (below + 1) + 1), ?_, ?_⟩
  · rw [List.getD_eq_getElem?_getD, hs.kept_eq below hbelow hodd heven, Option.getD_some, hparent]
  · rw [hleft]
    exact hcombine

/-- Changing the path of a leaf into that of the next one succeeds. The builders below the first
left node are passed on, and the shared stack stays as it is. -/
theorem Stands.round (total : t.Total) (hheight : t.height ≤ maxTreeHeight)
    (hwork : OnSchedule t.height leaf work) (hs : Stands t leaf work s)
    (hleaf : leaf + 1 < 2 ^ t.height) :
    ∃ s', s.round t leaf = .ok s' ∧ Stands t (leaf + 1) (restart t.height leaf work) s' ∧
      s'.builders = s.builders.mapIdx (passOn t.height (firstLeftHeight s.height leaf) leaf) ∧
      s'.stack = s.stack := by
  obtain ⟨hlt, htau⟩ := firstLeftHeight_spec (hs.height_eq ▸ hleaf)
  have hpath := succ_authPath (t := t) htau
  rw [Traversal.round]
  generalize firstLeftHeight s.height leaf = tau at hlt htau hpath
  rw [hs.height_eq] at hlt
  cases tau with
  | zero =>
    refine ⟨_, ?_, hs.move hwork htau s.kept hs.length_kept fun _ _ => rfl, rfl, rfl⟩
    have hbuilders : s.builders.mapIdx (passOn t.height 0 leaf) = s.builders :=
      List.mapIdx_eq_iff.2 fun level => by cases s.builders[level]? <;> rfl
    have hpath' : s.path.set 0 (t.nodeValue 0 leaf) = t.authPath (leaf + 1) := by
      rw [← hpath, hs.path_eq]
      exact (List.mapIdx_eq_iff.2 fun level => by simp).symm
    dsimp only
    rw [total.leaf_eq, keepRight_eq, hbuilders, ← hpath']
  | succ below =>
    obtain ⟨right, hright, hcombine⟩ := hs.combine_kept total hheight hlt
      ((htau (below + 1)).2 (Nat.le_refl _)) (mt (htau (below + 1 + 1)).1 (Nat.not_succ_le_self _))
    have hkept : (s.kept.set below none).length = t.height :=
      (List.length_set ..).trans hs.length_kept
    have htake := takeRoots_eq_ok (fun level => t.nodeAt level (((leaf + 1) >>> level) ^^^ 1))
      (below + 1) 0 { s with
        kept := (keepRight (below + 1) leaf { s with kept := s.kept.set below none }).kept
        path := s.path.set (below + 1) (t.nodeValue (below + 1) (leaf >>> (below + 1))) }
      fun level _ hlevel => hs.root_eq hwork (by omega) hleaf ((htau (level + 1)).2 (by omega))
    refine ⟨_, ?_, hs.move hwork htau (s.kept.set below none) hkept fun level hlevel =>
      List.getElem?_set_ne (by omega), rfl, rfl⟩
    have hpath' : ((s.path.set (below + 1) (t.nodeValue (below + 1) (leaf >>> (below + 1)))).mapIdx
        fun level value => if 0 ≤ level ∧ level < 0 + (below + 1) then
          (t.nodeAt level (((leaf + 1) >>> level) ^^^ 1)).value else value) =
        t.authPath (leaf + 1) := by
      simpa only [Nat.zero_le, true_and, Nat.zero_add, hs.path_eq, nodeAt_value] using hpath
    simp only [hright, hcombine]
    rw [keepRight_eq]
    dsimp only [nodeAt_value]
    rw [htake, hpath']
    simp only [restartBuilders, hs.height_eq, mapIdx_passOn]

/-- A move below the last leaf changes the path and then spends its leaves on the builders. -/
theorem advance_eq_spend {moved : Traversal} (hleaf : leaf < lastLeaf s.height)
    (hround : s.round t leaf = .ok moved) :
    s.advance t leaf = moved.spend t (moveBudget moved.height) := by
  rw [Traversal.advance, if_pos hleaf, hround]
  rfl

/-- A move below the last leaf succeeds and keeps the schedule. -/
theorem Stands.advance (total : t.Total) (hheight : t.height ≤ maxTreeHeight)
    (hwork : OnSchedule t.height leaf work) (hs : Stands t leaf work s)
    (hleaf : leaf + 1 < 2 ^ t.height) :
    ∃ after s', s.advance t leaf = .ok s' ∧ OnSchedule t.height (leaf + 1) after ∧
      Stands t (leaf + 1) after s' := by
  obtain ⟨moved, hround, hmoved, -⟩ := hs.round total hheight hwork hleaf
  obtain ⟨after, s', hspend, hspent, hs'⟩ :=
    hmoved.spend total hheight hwork.disciplined_restart (moveBudget t.height)
  refine ⟨after, s', ?_, hwork.move hspent, hs'⟩
  have hlast : leaf < lastLeaf s.height := by
    rw [lastLeaf, hs.height_eq]
    omega
  rw [advance_eq_spend hlast hround, hmoved.height_eq, hspend]

/-- The traversal is ready to sign with a leaf: it stands there and is on schedule. -/
def ReadyAt (t : MerkleTree) (leaf : Nat) (s : Traversal) : Prop :=
  ∃ work, OnSchedule t.height leaf work ∧ Stands t leaf work s

/-- A traversal that is ready at a leaf holds the authentication path of this leaf. -/
theorem ReadyAt.path_eq (hs : ReadyAt t leaf s) : s.path = t.authPath leaf := by
  obtain ⟨work, -, hs⟩ := hs
  exact hs.path_eq

theorem ReadyAt.height_eq (hs : ReadyAt t leaf s) : s.height = t.height := by
  obtain ⟨work, -, hs⟩ := hs
  exact hs.height_eq

/-- A traversal that is ready at a leaf can move on, and is then ready at the next leaf. -/
theorem ReadyAt.advance (total : t.Total) (hheight : t.height ≤ maxTreeHeight)
    (hs : ReadyAt t leaf s) (hleaf : leaf + 1 < 2 ^ t.height) :
    ∃ s', s.advance t leaf = .ok s' ∧ ReadyAt t (leaf + 1) s' := by
  obtain ⟨work, hwork, hs⟩ := hs
  obtain ⟨after, s', hadvance, hafter, hs'⟩ := hs.advance total hheight hwork hleaf
  exact ⟨s', hadvance, after, hafter, hs'⟩

/-- At the last leaf there is nothing to move. -/
theorem ReadyAt.advance_last (hs : ReadyAt t leaf s) (hleaf : 2 ^ t.height ≤ leaf + 1) :
    s.advance t leaf = .ok s := by
  refine if_neg ?_
  rw [lastLeaf, hs.height_eq]
  omega

/-- All moves before a leaf succeed and make the traversal ready at that leaf. -/
theorem ReadyAt.foldlM_advance (total : t.Total) (hheight : t.height ≤ maxTreeHeight)
    (hs : ReadyAt t 0 s) {index : Nat} (hindex : index < 2 ^ t.height) :
    ∃ s', (List.range index).foldlM (fun s leaf => s.advance t leaf) s = .ok s' ∧
      ReadyAt t index s' := by
  induction index with
  | zero => exact ⟨s, rfl, hs⟩
  | succ index ih =>
    obtain ⟨before, hbefore, hready⟩ := ih (Nat.lt_of_succ_lt hindex)
    obtain ⟨s', hadvance, hs'⟩ := hready.advance total hheight hindex
    refine ⟨s', ?_, hs'⟩
    rw [List.range_succ, List.foldlM_append, hbefore, ok_bind, List.foldlM_cons, hadvance]
    rfl

end MerkleSignature.Traversal
