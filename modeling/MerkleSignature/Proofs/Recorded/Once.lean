import MerkleSignature.Proofs.Recorded

/-!
# Records without repetition

A computation records no entry twice if its steps do not and no two steps record the same entry. The
entries of a step are bounded by a property, so that steps are kept apart by properties that exclude
each other. What a later step records may depend on the value of an earlier one; the rule for a
chain of steps hands that value on.

The entries are counted as well. So it can be said that all that should be recorded has been.
-/

namespace MerkleSignature.Recorded

variable {κ α β : Type}

/-- A computation records so many entries, no entry twice, and only entries with a property. -/
def Once (P : κ → Prop) (count : Nat) (x : Recorded κ α) : Prop :=
  ∀ ⦃a record⦄, x.run = .ok (a, record) →
    record.Nodup ∧ record.length = count ∧ ∀ entry ∈ record, P entry

variable {P Q R : κ → Prop} {n m count : Nat}

/-- Returning a value records nothing. -/
theorem once_pure (a : α) : Once P 0 (pure a) := by
  intro _ _ h
  obtain ⟨-, rfl⟩ := run_pure_eq_ok_iff.1 h
  exact ⟨List.nodup_nil, rfl, fun entry hentry => (nomatch hentry)⟩

/-- An ordinary computation records nothing. -/
theorem once_lift (x : Except Error α) : Once P 0 (liftM x : Recorded κ α) := by
  intro _ _ h
  obtain ⟨-, rfl⟩ := run_lift_eq_ok_iff.1 h
  exact ⟨List.nodup_nil, rfl, fun entry hentry => (nomatch hentry)⟩

/-- A refusal leaves no record. -/
theorem once_error (e : Error) :
    Once P count (liftM (.error e : Except Error α) : Recorded κ α) := by
  intro _ _ h
  exact absurd h run_error_ne_ok

/-- A note of one entry records it. -/
theorem once_tell {entry : κ} (h : P entry) : Once P 1 (tell [entry] : Recorded κ PUnit) := by
  intro _ _ hrun
  obtain ⟨-, rfl⟩ := Prod.mk.inj (Except.ok.inj hrun)
  exact ⟨List.pairwise_singleton _ entry, rfl, List.forall_mem_singleton.2 h⟩

/-- The property of the entries can be weakened. -/
theorem Once.mono {x : Recorded κ α} (h : Once P count x) (hPQ : ∀ entry, P entry → Q entry) :
    Once Q count x := by
  intro a record hrun
  obtain ⟨hnodup, hlength, hP⟩ := h hrun
  exact ⟨hnodup, hlength, fun entry hentry => hPQ entry (hP entry hentry)⟩

/-- A chain of two steps records no entry twice if the steps do not and have no entry in common. The
second step may rely on the value of the first. -/
theorem Once.bind {x : Recorded κ α} {f : α → Recorded κ β} (hx : Once P n x)
    (hf : ∀ a, x.value = .ok a → Once Q m (f a)) (hfirst : ∀ entry, P entry → R entry ∧ ¬ Q entry)
    (hsecond : ∀ entry, Q entry → R entry) (hcount : count = n + m) : Once R count (x >>= f) := by
  intro _ _ h
  obtain ⟨a, first, second, hrunFirst, hrunSecond, rfl⟩ := run_bind_eq_ok_iff.1 h
  obtain ⟨hnodup, hlength, hP⟩ := hx hrunFirst
  obtain ⟨hnodup', hlength', hQ⟩ := hf a (value_eq_ok_iff.2 ⟨first, hrunFirst⟩) hrunSecond
  refine ⟨?_, ?_, ?_⟩
  · refine List.nodup_append.2 ⟨hnodup, hnodup', ?_⟩
    rintro entry hentry _ hentry' rfl
    exact (hfirst entry (hP entry hentry)).2 (hQ entry hentry')
  · rw [List.length_append, hlength, hlength', hcount]
  · intro entry hentry
    rcases List.mem_append.1 hentry with hentry | hentry
    · exact (hfirst entry (hP entry hentry)).1
    · exact hsecond entry (hQ entry hentry)

/-- After an ordinary computation only the second step records. -/
theorem once_lift_bind {x : Except Error α} {f : α → Recorded κ β}
    (hf : ∀ a, x = .ok a → Once P count (f a)) : Once P count ((liftM x : Recorded κ α) >>= f) := by
  intro _ _ h
  obtain ⟨a, hx, hrun⟩ := run_lift_bind_eq_ok_iff.1 h
  exact hf a hx hrun

/-- A step that records nothing adds nothing to the record before it. -/
theorem Once.bind_silent {x : Recorded κ α} {f : α → Recorded κ β} (hx : Once P count x)
    (hf : ∀ a, Once (fun _ => False) 0 (f a)) : Once P count (x >>= f) :=
  hx.bind (fun a _ => hf a) (fun _ hentry => ⟨hentry, id⟩) (fun _ => False.elim) rfl

/-- What is computed for each entry of a list records no entry twice if no two of the computations
have an entry in common. -/
theorem once_forEach {P : α → κ → Prop} {f : α → Recorded κ β} {xs : List α}
    (hf : ∀ x ∈ xs, Once (P x) count (f x))
    (hapart : xs.Pairwise fun x y => ∀ entry, P x entry → ¬ P y entry) :
    Once (fun entry => ∃ x ∈ xs, P x entry) (xs.length * count) (forEach f xs) := by
  induction xs with
  | nil =>
    rw [List.length_nil, Nat.zero_mul]
    exact once_pure []
  | cons x xs ih =>
    rw [List.pairwise_cons] at hapart
    rw [List.forall_mem_cons] at hf
    refine hf.1.bind (fun y _ => (ih hf.2 hapart.2).bind_silent fun _ => once_pure _) ?_ ?_ ?_
    · rintro entry hentry
      refine ⟨⟨x, List.mem_cons_self, hentry⟩, ?_⟩
      rintro ⟨x', hx', hentry'⟩
      exact hapart.1 x' hx' entry hentry hentry'
    · rintro entry ⟨x', hx', hentry'⟩
      exact ⟨x', List.mem_cons_of_mem x hx', hentry'⟩
    · rw [List.length_cons, Nat.succ_mul, Nat.add_comm]

end MerkleSignature.Recorded
