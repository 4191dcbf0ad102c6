import MerkleSignature.Proofs.Traversal.Standing

/-!
# Spending leaves on builders

A traversal serves the running builder with the lowest work left, and the lowest level among equals.
For a disciplined workload this is the level that the schedule serves next: every builder that owns
nodes names the height of the topmost node of the stack, and of these builders the lowest one owns
that node. So an update works on its own nodes, and the traversal stands where it stood, with one
leaf less to take in.
-/

namespace MerkleSignature.Traversal

open MerkleTree SubtreeBuilder

section Lowest

variable (stack : NodeStack)

/-- One step of the search for the builder with the lowest work left. -/
def better (best : Option (Nat × Nat)) (entry : SubtreeBuilder × Nat) : Option (Nat × Nat) :=
  match entry.1.lowestHeight? stack, best with
  | none, _ => best
  | some low, none => some (entry.2, low)
  | some low, some (_, lowest) => if low < lowest then some (entry.2, low) else best

/-- What the search has found among some builders: none that runs, or the lowest one. -/
def IsLowest (builders : List SubtreeBuilder) : Option (Nat × Nat) → Prop
  | none => ∀ (level : Nat) (b : SubtreeBuilder), builders[level]? = some b →
      b.lowestHeight? stack = none
  | some (level, low) =>
    (∃ b, builders[level]? = some b ∧ b.lowestHeight? stack = some low) ∧
      ∀ (other : Nat) (b : SubtreeBuilder) (height : Nat), builders[other]? = some b →
        b.lowestHeight? stack = some height → low ≤ height ∧ (other < level → low < height)

/-- The search is a fold over the builders and their levels. -/
theorem lowestBuilder?_eq (s : Traversal) :
    s.lowestBuilder? = (s.builders.zipIdx.foldl (better s.stack) none).map Prod.fst := rfl

/-- An entry of a list with one more element is an old entry or the new element. -/
theorem getElem?_append_singleton_eq_some {α : Type} {xs : List α} {last x : α} {i : Nat} :
    (xs ++ [last])[i]? = some x ↔ xs[i]? = some x ∨ i = xs.length ∧ x = last := by
  rcases Nat.lt_trichotomy i xs.length with hlt | rfl | hgt
  · rw [List.getElem?_append_left hlt]
    simp [Nat.ne_of_lt hlt]
  · simp [eq_comm]
  · have hout : (xs ++ [last]).length ≤ i := by
      rw [List.length_append]
      exact hgt
    simp [List.getElem?_eq_none hout, Nat.le_of_lt hgt, Nat.ne_of_gt hgt]

variable {stack} in
/-- A builder that names nothing does not change what the search has found. -/
theorem IsLowest.append_idle {builders : List SubtreeBuilder} {best : Option (Nat × Nat)}
    (h : IsLowest stack builders best) {last : SubtreeBuilder}
    (hidle : last.lowestHeight? stack = none) : IsLowest stack (builders ++ [last]) best := by
  cases best with
  | none =>
    intro level b hb
    rcases getElem?_append_singleton_eq_some.1 hb with hold | ⟨-, rfl⟩
    · exact h level b hold
    · exact hidle
  | some best =>
    obtain ⟨⟨b, hb, hlow⟩, hleast⟩ := h
    refine ⟨⟨b, getElem?_append_singleton_eq_some.2 (.inl hb), hlow⟩,
      fun other c height hc hheight => ?_⟩
    rcases getElem?_append_singleton_eq_some.1 hc with hold | ⟨-, rfl⟩
    · exact hleast other c height hold hheight
    · rw [hidle] at hheight
      contradiction

variable {stack} in
/-- A builder that names a height becomes the lowest one if it is the first or names less. -/
theorem IsLowest.append_running {builders : List SubtreeBuilder} {best : Option (Nat × Nat)}
    (h : IsLowest stack builders best) {last : SubtreeBuilder} {height : Nat}
    (hrunning : last.lowestHeight? stack = some height) :
    IsLowest stack (builders ++ [last]) (better stack best (last, builders.length)) := by
  have hnew : (builders ++ [last])[builders.length]? = some last := List.getElem?_concat_length
  simp only [better, hrunning]
  cases best with
  | none =>
    refine ⟨⟨last, hnew, hrunning⟩, fun other c bound hc hbound => ?_⟩
    rcases getElem?_append_singleton_eq_some.1 hc with hold | ⟨rfl, rfl⟩
    · rw [h other c hold] at hbound
      contradiction
    · rw [hrunning, Option.some.injEq] at hbound
      omega
  | some best =>
    obtain ⟨level, low⟩ := best
    obtain ⟨⟨b, hb, hlow⟩, hleast⟩ := h
    have hlevel : level < builders.length := (List.getElem?_eq_some_iff.1 hb).1
    dsimp only
    split
    · refine ⟨⟨last, hnew, hrunning⟩, fun other c bound hc hbound => ?_⟩
      rcases getElem?_append_singleton_eq_some.1 hc with hold | ⟨rfl, rfl⟩
      · have := (hleast other c bound hold hbound).1
        omega
      · rw [hrunning, Option.some.injEq] at hbound
        omega
    · refine ⟨⟨b, getElem?_append_singleton_eq_some.2 (.inl hb), hlow⟩,
        fun other c bound hc hbound => ?_⟩
      rcases getElem?_append_singleton_eq_some.1 hc with hold | ⟨rfl, rfl⟩
      · exact hleast other c bound hold hbound
      · rw [hrunning, Option.some.injEq] at hbound
        omega

/-- The search finds the lowest builder. -/
theorem isLowest_foldl (builders : List SubtreeBuilder) :
    IsLowest stack builders (builders.zipIdx.foldl (better stack) none) := by
  induction builders using List.reverseRecOn with
  | nil => intro level b h; simp at h
  | append_singleton builders last ih =>
    rw [List.zipIdx_append, List.foldl_append, Nat.zero_add]
    cases hlast : last.lowestHeight? stack with
    | none =>
      have hkeep : ∀ best, better stack best (last, builders.length) = best := by
        intro best
        simp only [better, hlast]
      have hidle := ih.append_idle hlast
      rwa [← hkeep (builders.zipIdx.foldl (better stack) none)] at hidle
    | some height => exact ih.append_running hlast

end Lowest

variable {t : MerkleTree} {leaf level : Nat} {work : Workload} {s : Traversal}

/-- Where heights increase from the top down, the lowest of the topmost nodes is the top node. -/
theorem lowestOfTop?_eq_topHeight? {stack : NodeStack} {count : Nat} (hcount : 0 < count)
    (h : stack.Pairwise fun a b => a.height < b.height) :
    NodeStack.lowestOfTop? stack count = NodeStack.topHeight? stack := by
  obtain ⟨count, rfl⟩ := Nat.exists_eq_add_of_lt hcount
  cases stack with
  | nil => rfl
  | cons top rest =>
    have hrest := (List.pairwise_cons.1 h).1
    refine List.min?_eq_some_iff.2 ⟨?_, fun height hmem => ?_⟩
    · rw [Nat.zero_add, List.take_succ_cons]
      exact List.mem_cons_self
    · obtain ⟨node, hnode, rfl⟩ := List.mem_map.1 hmem
      rcases List.mem_cons.1 (List.mem_of_mem_take hnode) with rfl | hlater
      · exact Nat.le_refl _
      · exact Nat.le_of_lt (hrest node hlater)

/-- A running builder names its target before its first leaf and the height of the topmost node
from then on. -/
theorem lowestHeight?_eq (hwork : Disciplined t.height work) (hs : Stands t leaf work s)
    {b : SubtreeBuilder} (hb : s.builders[level]? = some b) :
    b.lowestHeight? s.stack =
      if work level = 0 then none
      else if work level = 2 ^ level then some level else NodeStack.topHeight? s.stack := by
  have hle := hwork.work_le level
  have hbuilder := hs.builders_eq level b hb
  generalize work level = missing at hbuilder hle ⊢
  cases hbuilder with
  | waiting htarget hown hphase hroot =>
    rw [if_pos rfl, lowestHeight?, isRunning, hphase]
    rfl
  | busy hpos hinside =>
    rw [if_neg (Nat.ne_of_gt hpos), lowestHeight?, if_pos (isRunning_working ..)]
    split
    · rename_i hempty
      have hnone : 2 ^ level - missing = 0 := by
        by_contra hsome
        exact peaks_ne_nil (Nat.pos_of_ne_zero hsome) (List.eq_nil_of_length_eq_zero hempty)
      rw [if_pos (by omega)]
      rfl
    · rename_i hnonempty
      have hsome : missing ≠ 2 ^ level := by
        rintro rfl
        rw [Nat.sub_self] at hnonempty
        exact hnonempty (by rw [working, peaks_zero, List.length_nil])
      rw [if_neg hsome, lowestOfTop?_eq_topHeight? (Nat.pos_of_ne_zero hnonempty)]
      rw [hs.stack_eq]
      exact pairwise_height_blocks leaf hwork

/-- While a builder is under way the stack has a top node, and no node stands lower. -/
theorem exists_topHeight (hwork : Disciplined t.height work) (hs : Stands t leaf work s)
    (hpos : 0 < work level) (hunder : work level < 2 ^ level) :
    ∃ top, NodeStack.topHeight? s.stack = some top ∧ top < level ∧
      ∀ node ∈ s.stack, top ≤ node.height := by
  have hlevel : level < t.height := by
    have := hwork.low level hpos
    omega
  have hne : block t leaf work level ≠ [] := by
    rw [block_eq_peaks hpos]
    exact peaks_ne_nil (by omega)
  obtain ⟨node, hnode⟩ := List.exists_mem_of_ne_nil _ hne
  have hmem := mem_blocks_of_mem_block hlevel hnode
  have hpairwise := pairwise_height_blocks leaf hwork
  rw [← hs.stack_eq] at hmem hpairwise
  cases hstack : s.stack with
  | nil =>
    rw [hstack] at hmem
    simp at hmem
  | cons top rest =>
    rw [hstack] at hmem hpairwise
    have hrest := (List.pairwise_cons.1 hpairwise).1
    have hleast : ∀ node ∈ top :: rest, top.height ≤ node.height := by
      intro node hnode
      rcases List.mem_cons.1 hnode with rfl | hlater
      · exact Nat.le_refl _
      · exact Nat.le_of_lt (hrest node hlater)
    exact ⟨top.height, rfl, Nat.lt_of_le_of_lt (hleast node hmem) (height_lt_of_mem_block hnode),
      hleast⟩

/-- What a running builder names is at most its target, and its work is a multiple of every power of
two up to that height. -/
theorem dvd_of_lowestHeight? (hwork : Disciplined t.height work) (hs : Stands t leaf work s)
    {b : SubtreeBuilder} {low : Nat} (hb : s.builders[level]? = some b)
    (hlow : b.lowestHeight? s.stack = some low) :
    0 < work level ∧ low ≤ level ∧ ∀ d, d ≤ low → 2 ^ d ∣ work level := by
  have hle := hwork.work_le level
  rw [lowestHeight?_eq hwork hs hb] at hlow
  split at hlow
  · contradiction
  · rename_i hne
    have hpos := Nat.pos_of_ne_zero hne
    split at hlow
    · rename_i hfull
      obtain rfl := Option.some.inj hlow
      refine ⟨hpos, Nat.le_refl _, fun d hd => ?_⟩
      rw [hfull]
      exact Nat.pow_dvd_pow 2 hd
    · rename_i hunder
      obtain ⟨top, htop, hlt, hleast⟩ := exists_topHeight hwork hs hpos (by omega)
      obtain rfl : top = low := Option.some.inj (htop.symm.trans hlow)
      have hlevel := hwork.low level hpos
      refine ⟨hpos, Nat.le_of_lt hlt, fun d hd => ?_⟩
      refine (forall_le_height_block_iff leaf hwork hpos (by omega)).1 fun node hnode => hd.trans ?_
      have hmem := mem_blocks_of_mem_block (show level < t.height by omega) hnode
      exact hleast node (hs.stack_eq ▸ hmem)

/-- A builder that is under way names the height of the top node. -/
theorem lowestHeight?_eq_topHeight? (hwork : Disciplined t.height work)
    (hs : Stands t leaf work s) {b : SubtreeBuilder} (hb : s.builders[level]? = some b)
    (hpos : 0 < work level) (hunder : work level < 2 ^ level) :
    b.lowestHeight? s.stack = NodeStack.topHeight? s.stack := by
  rw [lowestHeight?_eq hwork hs hb, if_neg (Nat.ne_of_gt hpos), if_neg (Nat.ne_of_lt hunder)]

/-- Every level with work has a builder that runs. -/
theorem exists_lowestHeight (hwork : Disciplined t.height work) (hs : Stands t leaf work s)
    (hpos : 0 < work level) :
    ∃ b low, s.builders[level]? = some b ∧ b.lowestHeight? s.stack = some low := by
  have hlevel := hwork.low level hpos
  obtain ⟨b, hb, -⟩ := hs.exists_builder (show level < t.height by omega)
  rcases Nat.lt_or_eq_of_le (hwork.work_le level) with hunder | hfull
  · obtain ⟨top, htop, -⟩ := exists_topHeight hwork hs hpos hunder
    exact ⟨b, top, hb, (lowestHeight?_eq_topHeight? hwork hs hb hpos hunder).trans htop⟩
  · refine ⟨b, level, hb, ?_⟩
    rw [lowestHeight?_eq hwork hs hb, if_neg (Nat.ne_of_gt hpos), if_pos hfull]

/-- When no builder runs there is no work. -/
theorem work_eq_zero_of_none (hwork : Disciplined t.height work) (hs : Stands t leaf work s)
    (h : s.lowestBuilder? = none) (level : Nat) : work level = 0 := by
  have hlowest := isLowest_foldl s.stack s.builders
  rw [lowestBuilder?_eq, Option.map_eq_none_iff] at h
  rw [h] at hlowest
  by_contra hne
  obtain ⟨b, low, hb, hlow⟩ := exists_lowestHeight hwork hs (Nat.pos_of_ne_zero hne)
  rw [hlowest level b hb] at hlow
  contradiction

/-- Below the lowest builder none is under way: it would name the height of the top node as well. -/
theorem block_eq_nil_of_isLowest (hwork : Disciplined t.height work) (hs : Stands t leaf work s)
    {low : Nat} (hlowest : IsLowest s.stack s.builders (some (level, low))) {other : Nat}
    (hother : other < level) : block t leaf work other = [] := by
  obtain ⟨⟨b, hb, hlow⟩, hleast⟩ := hlowest
  have hpos := (dvd_of_lowestHeight? hwork hs hb hlow).1
  refine block_eq_nil hwork fun hactive => ?_
  obtain ⟨c, height, hc, hheight⟩ := exists_lowestHeight hwork hs hactive.1
  have hbound := hleast other c height hc hheight
  have hheightLe := (dvd_of_lowestHeight? hwork hs hc hheight).2.1
  rw [lowestHeight?_eq_topHeight? hwork hs hc hactive.1 hactive.2] at hheight
  rw [lowestHeight?_eq hwork hs hb, if_neg (Nat.ne_of_gt hpos)] at hlow
  split at hlow
  · rw [Option.some.injEq] at hlow
    omega
  · obtain rfl : height = low := Option.some.inj (hheight.symm.trans hlow)
    omega

/-- The lowest builder names the exponent of the largest power of two that divides its work. -/
theorem le_of_dvd_of_isLowest (hwork : Disciplined t.height work) (hs : Stands t leaf work s)
    {low : Nat} (hlowest : IsLowest s.stack s.builders (some (level, low))) {d : Nat}
    (hd : 2 ^ d ∣ work level) : d ≤ low := by
  have hlower : ∀ other, other < level → block t leaf work other = [] :=
    fun other => block_eq_nil_of_isLowest hwork hs hlowest
  obtain ⟨⟨b, hb, hlow⟩, -⟩ := hlowest
  have hpos := (dvd_of_lowestHeight? hwork hs hb hlow).1
  have hle := hwork.work_le level
  have hlevel := hwork.low level hpos
  have hdLevel : d ≤ level :=
    (Nat.pow_le_pow_iff_right (by decide)).1 ((Nat.le_of_dvd hpos hd).trans hle)
  rcases Nat.lt_or_eq_of_le hle with hunder | hfull
  · -- The top node is the builder's own, and the power of two bounds its height.
    have hown := (forall_le_height_block_iff leaf hwork hpos hdLevel).2 hd
    rw [lowestHeight?_eq_topHeight? hwork hs hb hpos hunder, hs.stack_eq,
      blocks_eq_append (by omega) hlower] at hlow
    cases hblock : block t leaf work level with
    | nil =>
      rw [block_eq_peaks hpos] at hblock
      exact absurd hblock (peaks_ne_nil (by omega))
    | cons node rest =>
      rw [hblock] at hlow hown
      obtain rfl : node.height = low := Option.some.inj hlow
      exact hown node List.mem_cons_self
  · rw [lowestHeight?_eq hwork hs hb, if_neg (Nat.ne_of_gt hpos), if_pos hfull,
      Option.some.injEq] at hlow
    omega

/-- The builder with the lowest work left belongs to the level that the schedule serves next. -/
theorem isNext_of_some (hwork : Disciplined t.height work) (hs : Stands t leaf work s)
    (h : s.lowestBuilder? = some level) : IsNext work level := by
  have hlowest := isLowest_foldl s.stack s.builders
  rw [lowestBuilder?_eq, Option.map_eq_some_iff] at h
  obtain ⟨⟨level', low⟩, hfound, rfl⟩ := h
  rw [hfound] at hlowest
  obtain ⟨⟨b, hb, hlow⟩, hleast⟩ := hlowest
  refine ⟨(dvd_of_lowestHeight? hwork hs hb hlow).1, fun other hother d hd => ?_,
    fun other hlt hother hd => ?_⟩
  · obtain ⟨c, height, hc, hheight⟩ := exists_lowestHeight hwork hs hother
    have hbound := (hleast other c height hc hheight).1
    have hdLow := le_of_dvd_of_isLowest hwork hs ⟨⟨b, hb, hlow⟩, hleast⟩ hd
    exact (dvd_of_lowestHeight? hwork hs hc hheight).2.2 d (hdLow.trans hbound)
  · obtain ⟨c, height, hc, hheight⟩ := exists_lowestHeight hwork hs hother
    have hbound := (hleast other c height hc hheight).2 hlt
    have hheightLe := (dvd_of_lowestHeight? hwork hs hc hheight).2.1
    have hotherLow := le_of_dvd_of_isLowest hwork hs ⟨⟨b, hb, hlow⟩, hleast⟩ hd
    omega

/-- The block of a builder depends on the work of its own level only. -/
theorem block_congr {before after : Workload} (h : before level = after level) :
    block t leaf before level = block t leaf after level := by
  rw [block, block, h]

/-- Serving the next level changes the top of the stack, where the nodes of its builder are. -/
theorem blocks_serve (leaf : Nat) (hwork : Disciplined t.height work)
    (hnext : IsNext work level) :
    ∃ below, blocks t leaf work = block t leaf work level ++ below ∧
      blocks t leaf (serve work level) = block t leaf (serve work level) level ++ below := by
  have hlevel := hwork.low level hnext.pos
  have hlower : ∀ low, low < level → block t leaf work low = [] := by
    intro low hlow
    refine block_eq_nil hwork fun hactive => ?_
    exact hnext.lowest low hlow hactive.1 (hwork.nested low level hlow hactive.1 hactive.2)
  have hkept : ∀ other, other ≠ level →
      block t leaf (serve work level) other = block t leaf work other :=
    fun other hne => block_congr (serve_of_ne hne)
  refine ⟨_, blocks_eq_append (by omega) hlower, ?_⟩
  rw [blocks_eq_append (by omega) fun low hlow => (hkept low (by omega)).trans (hlower low hlow)]
  congr 1
  refine List.flatMap_congr fun high hhigh => hkept high ?_
  have := List.mem_range'_1.1 hhigh
  omega

/-- A builder that is served takes in a leaf of its subtree, or finishes with the last one. -/
theorem update_busy (total : t.Total) (hheight : t.height ≤ maxTreeHeight)
    (hlevel : level < t.height) (hpos : 0 < work level) (hle : work level ≤ 2 ^ level)
    (hinside : aheadStart leaf level < 2 ^ t.height) (below : NodeStack) :
    ∃ b, (working t level (aheadStart leaf level) (2 ^ level - work level)).update t
        (block t leaf work level ++ below) =
          .ok (b, block t leaf (serve work level) level ++ below) ∧
      BuilderAt t leaf level (serve work level level) b := by
  have hword := hlevel.trans (lt_wordRange hheight)
  have haligned := aligned_aheadStart leaf level
  rw [block_eq_peaks hpos, serve_self]
  rcases Nat.lt_or_eq_of_le hpos with hmore | hlast
  · have hend := aheadStart_add_le (Nat.le_of_lt hlevel) hinside
    have hrange : aheadStart leaf level + 2 ^ level ≤ wordRange :=
      hend.trans (Nat.pow_le_pow_right (by decide) (hheight.trans (by decide)))
    have hcount : 2 ^ level - work level + 1 = 2 ^ level - (work level - 1) := by omega
    refine ⟨_, ?_, .busy (by omega) hinside⟩
    rw [update_working_of_lt total haligned hword (by omega) hrange,
      block_eq_peaks (by rw [serve_self]; omega), serve_self, hcount]
  · have hdone : serve work level level = 0 := by rw [serve_self]; omega
    refine ⟨finished t level (aheadStart leaf level), ?_, ?_⟩
    · rw [update_working_last total haligned hword (by omega), block, if_pos hdone, List.nil_append]
    · rw [← hlast]
      exact .waiting rfl rfl rfl fun _ => rfl

/-- Serving the next level takes in one leaf of its builder and leaves the traversal where it
stands. -/
theorem Stands.update (total : t.Total) (hheight : t.height ≤ maxTreeHeight)
    (hwork : Disciplined t.height work) (hs : Stands t leaf work s) (hnext : IsNext work level)
    {b : SubtreeBuilder} (hb : s.builders[level]? = some b) :
    ∃ b' stack, b.update t s.stack = .ok (b', stack) ∧
      Stands t leaf (serve work level)
        { s with builders := s.builders.set level b', stack := stack } := by
  obtain ⟨below, hbefore, hafter⟩ := blocks_serve leaf hwork hnext
  have hlevel := hwork.low level hnext.pos
  have hbuilder := hs.builders_eq level b hb
  generalize hmissing : work level = missing at hbuilder
  cases hbuilder with
  | waiting => exact absurd hmissing (Nat.ne_of_gt hnext.pos)
  | busy hpos hinside =>
    subst hmissing
    obtain ⟨b', hupdate, hb'⟩ := update_busy total hheight (show level < t.height by omega)
      hnext.pos (hwork.work_le level) hinside below
    refine ⟨b', _, by rw [hs.stack_eq, hbefore, hupdate], ?_⟩
    refine { hs with
      length_builders := (List.length_set ..).trans hs.length_builders
      builders_eq := fun other c hc => ?_
      stack_eq := hafter.symm }
    by_cases hother : level = other
    · subst hother
      rw [List.getElem?_set_self (List.getElem?_eq_some_iff.1 hb).1, Option.some.injEq] at hc
      exact hc ▸ hb'
    · rw [List.getElem?_set_ne hother] at hc
      rw [serve_of_ne (Ne.symm hother)]
      exact hs.builders_eq other c hc

/-- A budget of leaves is spent as the schedule says, and the traversal stays where it stands. -/
theorem Stands.spend (total : t.Total) (hheight : t.height ≤ maxTreeHeight)
    (hwork : Disciplined t.height work) (hs : Stands t leaf work s) (budget : Nat) :
    ∃ after s', s.spend t budget = .ok s' ∧ Spent budget work after ∧ Stands t leaf after s' := by
  induction budget generalizing work s with
  | zero => exact ⟨work, s, rfl, .done work, hs⟩
  | succ budget ih =>
    rw [Traversal.spend]
    cases hfound : s.lowestBuilder? with
    | none => exact ⟨work, s, rfl, .idle (work_eq_zero_of_none hwork hs hfound), hs⟩
    | some level =>
      have hnext := isNext_of_some hwork hs hfound
      obtain ⟨b, -, hb, -⟩ := exists_lowestHeight hwork hs hnext.pos
      obtain ⟨b', stack, hupdate, hserved⟩ := hs.update total hheight hwork hnext hb
      obtain ⟨after, s', hspend, hspent, hs'⟩ := ih (hwork.serve hnext) hserved
      refine ⟨after, s', ?_, .serve hnext hspent, hs'⟩
      simp only [hb, hupdate]
      exact hspend

end MerkleSignature.Traversal
