import MerkleSignature.Proofs.Tree.Pass
import MerkleSignature.Tree.SubtreeBuilder

/-!
# Subtree builders

A builder that has taken in `count` leaves of its subtree owns the peaks of these leaves, on top of
whatever else the shared stack holds. One update counts this number up by one; the last update
finds the root and leaves nothing of the builder on the stack.

So a builder that was started goes through the leaves of its subtree as a pass does, and neither
looks at nor changes what other builders have put onto the stack.
-/

namespace MerkleSignature.SubtreeBuilder

open MerkleTree

variable {t : MerkleTree} {start : Nat}

/-- The builder of the subtree of height `target` at leaf `start` after `count` leaves, of which
at least one is missing. -/
def working (t : MerkleTree) (target start count : Nat) : SubtreeBuilder where
  target := target
  next := start + count
  ownNodes := (t.peaks start 0 count).length
  phase := if count = 0 then .started else .active

/-- The builder of the subtree of height `target` at leaf `start` after the last leaf. -/
def finished (t : MerkleTree) (target start : Nat) : SubtreeBuilder where
  target := target
  next := start + (2 ^ target - 1)
  phase := .complete
  root := some (t.blockNode start target 0)

/-- A builder that was just started has taken in no leaf. -/
theorem startAt_eq_working (b : SubtreeBuilder) (start : Nat) :
    b.startAt start = working t b.target start 0 := by
  simp [startAt, working]

/-- A builder with leaves missing waits for them. -/
theorem isRunning_working (target start count : Nat) :
    (working t target start count).isRunning = true := by
  unfold working isRunning
  by_cases h : count = 0 <;> simp [h]

/-- A builder climbs through its own nodes as a pass climbs through its stack, but does not push
the node that it arrives at. -/
theorem climb_of_pass {leaf : Nat} {own after : NodeStack} (below : NodeStack) {node : Node}
    (h : t.climb (fun seen _ _ => seen) leaf own node () = .ok (after, ())) :
    ∃ last rest, after = last :: rest ∧
      climb t leaf own.length (own ++ below) node = .ok (last, rest.length, rest ++ below) := by
  induction own generalizing node with
  | nil =>
    rw [MerkleTree.climb, Except.ok.injEq, Prod.mk.injEq] at h
    exact ⟨node, [], h.1.symm, rfl⟩
  | cons top own ih =>
    rw [List.length_cons, List.cons_append, climb]
    rw [MerkleTree.climb] at h
    by_cases hheight : top.height = node.height
    · rw [if_pos hheight] at h ⊢
      cases hcombine : t.combine top node (leaf >>> (node.height + 1)) with
      | error e =>
        rw [hcombine] at h
        contradiction
      | ok parent =>
        rw [hcombine] at h
        exact ih h
    · rw [if_neg hheight] at h ⊢
      rw [Except.ok.injEq, Prod.mk.injEq] at h
      exact ⟨node, top :: own, h.1.symm, rfl⟩

/-- What an update of a working builder comes to, once its leaf has run through the own peaks. -/
theorem update_working (total : t.Total) {target count : Nat} (haligned : 2 ^ target ∣ start)
    (htarget : target < wordRange) (hcount : count < 2 ^ target) (below : NodeStack) :
    ∃ node rest, t.peaks start 0 (count + 1) = node :: rest ∧
      (working t target start count).update t (t.peaks start 0 count ++ below) =
        if node.height = target then
          .ok ({ working t target start count with
            ownNodes := rest.length, phase := .complete, root := some node }, rest ++ below)
        else
          .ok ({ working t target start count with
            ownNodes := rest.length + 1
            next := (start + count + 1) % wordRange
            phase := .active }, node :: rest ++ below) := by
  have hfirst : (start + count) / 2 ^ 0 = start / 2 ^ 0 + count := by simp
  obtain ⟨node, rest, hpeaks, hclimb⟩ := climb_of_pass below
    (climb_peaks (fun seen _ _ => seen) total haligned htarget hcount hfirst ())
  refine ⟨node, rest, hpeaks, ?_⟩
  have hleaf : t.leafNode (working t target start count).next =
      .ok (t.blockNode start 0 count) := by
    rw [total.leafNode_eq, working, blockNode, Nat.pow_zero, Nat.div_one]
  rw [update, if_pos (isRunning_working target start count), hleaf]
  simp only [working] at hclimb ⊢
  rw [hclimb]
  rfl

/-- An update before the last one takes in a leaf. -/
theorem update_working_of_lt (total : t.Total) {target count : Nat} (haligned : 2 ^ target ∣ start)
    (htarget : target < wordRange) (hcount : count + 1 < 2 ^ target)
    (hrange : start + 2 ^ target ≤ wordRange) (below : NodeStack) :
    (working t target start count).update t (t.peaks start 0 count ++ below) =
      .ok (working t target start (count + 1), t.peaks start 0 (count + 1) ++ below) := by
  obtain ⟨node, rest, hpeaks, hupdate⟩ :=
    update_working total haligned htarget (Nat.lt_of_succ_lt hcount) below
  have hheight : node.height < 0 + target :=
    height_lt_of_mem_peaks hcount (by rw [hpeaks]; exact List.mem_cons_self)
  rw [hupdate, if_neg (by omega), hpeaks, Nat.mod_eq_of_lt (by omega)]
  simp only [working, hpeaks, List.length_cons, Nat.add_assoc, Nat.succ_ne_zero, if_false]

/-- The last update finds the root and takes the builder's nodes off the stack. -/
theorem update_working_last (total : t.Total) {target count : Nat} (haligned : 2 ^ target ∣ start)
    (htarget : target < wordRange) (hcount : count + 1 = 2 ^ target) (below : NodeStack) :
    (working t target start count).update t (t.peaks start 0 count ++ below) =
      .ok (finished t target start, below) := by
  have hlt : count < 2 ^ target := by omega
  obtain ⟨node, rest, hpeaks, hupdate⟩ := update_working total haligned htarget hlt below
  rw [hcount, peaks_two_pow, Nat.zero_add] at hpeaks
  obtain ⟨rfl, rfl⟩ := List.cons.inj hpeaks
  rw [hupdate, if_pos (blockNode_height target 0), finished, ← hcount, Nat.add_sub_cancel]
  rfl

/-- Take in `count` leaves, one after the other. -/
def updates (t : MerkleTree) : (count : Nat) → SubtreeBuilder → NodeStack →
    Except (Error × SubtreeBuilder × NodeStack) (SubtreeBuilder × NodeStack)
  | 0, b, stack => .ok (b, stack)
  | count + 1, b, stack => do
    let (b, stack) ← updates t count b stack
    b.update t stack

/-- After fewer leaves than the subtree has, a builder that was started has their peaks on the
stack. -/
theorem updates_startAt (total : t.Total) (b : SubtreeBuilder) (haligned : 2 ^ b.target ∣ start)
    (htarget : b.target < wordRange) (hrange : start + 2 ^ b.target ≤ wordRange)
    (below : NodeStack) {count : Nat} (hcount : count < 2 ^ b.target) :
    updates t count (b.startAt start) below =
      .ok (working t b.target start count, t.peaks start 0 count ++ below) := by
  induction count with
  | zero => rw [updates, startAt_eq_working, peaks_zero, List.nil_append]
  | succ count ih =>
    rw [updates, ih (Nat.lt_of_succ_lt hcount), ok_bind]
    exact update_working_of_lt total haligned htarget hcount hrange below

/-- After all leaves of the subtree, a builder that was started has found the root. -/
theorem updates_startAt_last (total : t.Total) (b : SubtreeBuilder)
    (haligned : 2 ^ b.target ∣ start) (htarget : b.target < wordRange)
    (hrange : start + 2 ^ b.target ≤ wordRange) (below : NodeStack) :
    updates t (2 ^ b.target) (b.startAt start) below =
      .ok (finished t b.target start, below) := by
  obtain ⟨count, hcount⟩ := Nat.exists_eq_add_one.2 (Nat.two_pow_pos b.target)
  rw [hcount, updates, updates_startAt total b haligned htarget hrange below (by omega), ok_bind]
  exact update_working_last total haligned htarget hcount.symm below

/-- A builder that does not wait for leaves refuses to take one in, and nothing changes. -/
theorem update_of_not_running {b : SubtreeBuilder} (h : b.isRunning = false) (stack : NodeStack) :
    b.update t stack = .error (.builderNotRunning, b, stack) :=
  if_neg (by rw [h]; exact Bool.false_ne_true)

end MerkleSignature.SubtreeBuilder
