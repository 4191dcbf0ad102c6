import Mathlib.Control.Monad.Writer
import MerkleSignature.Join
import MerkleSignature.Proofs.Outcome

/-!
# Computations with a record

What a computation hashes on its way can be part of what it returns. A recorded computation is one
that can refuse and otherwise returns a record beside its value; without the record it is an
ordinary computation. So a function of the library and its recorded form are compared by their
values, and what the function hashes is read off the record.
-/

namespace MerkleSignature

/-- A computation that can refuse and that keeps a record with entries in `κ`. -/
abbrev Recorded (κ : Type) := WriterT (List κ) (Except Error)

namespace Recorded

variable {κ α β : Type}

/-- What is computed, without the record. -/
def value (x : Recorded κ α) : Except Error α := Prod.fst <$> x.run

/-- What is returned is the value, and nothing is recorded. -/
theorem run_pure_eq_ok_iff {a b : α} {record : List κ} :
    (pure a : Recorded κ α).run = .ok (b, record) ↔ b = a ∧ record = [] := by
  constructor
  · intro h
    obtain ⟨rfl, rfl⟩ := Prod.mk.inj (Except.ok.inj h)
    exact ⟨rfl, rfl⟩
  · rintro ⟨rfl, rfl⟩
    rfl

/-- An ordinary computation records nothing. -/
theorem run_lift_eq_ok_iff {x : Except Error α} {a : α} {record : List κ} :
    (liftM x : Recorded κ α).run = .ok (a, record) ↔ x = .ok a ∧ record = [] := by
  cases x with
  | error e => exact ⟨fun h => (nomatch h), fun h => (nomatch h.1)⟩
  | ok b =>
    constructor
    · intro h
      obtain ⟨rfl, rfl⟩ := Prod.mk.inj (Except.ok.inj h)
      exact ⟨rfl, rfl⟩
    · rintro ⟨h, rfl⟩
      exact Except.ok.inj h ▸ rfl

/-- A refusal returns nothing. -/
theorem run_error_ne_ok {e : Error} {a : α} {record : List κ} :
    (liftM (.error e : Except Error α) : Recorded κ α).run ≠ .ok (a, record) := by
  intro h
  obtain ⟨herror, -⟩ := run_lift_eq_ok_iff.1 h
  contradiction

/-- A chain of two steps succeeds when both do, and records what the first and then what the second
records. -/
theorem run_bind_eq_ok_iff {x : Recorded κ α} {f : α → Recorded κ β} {b : β} {record : List κ} :
    (x >>= f).run = .ok (b, record) ↔ ∃ a first second, x.run = .ok (a, first) ∧
      (f a).run = .ok (b, second) ∧ record = first ++ second := by
  constructor
  · intro h
    obtain ⟨⟨a, first⟩, hx, h⟩ := bind_eq_ok_iff.1 h
    dsimp only at h
    cases hf : (f a).run with
    | error e =>
      rw [hf] at h
      contradiction
    | ok r =>
      rw [hf] at h
      obtain ⟨b', second⟩ := r
      cases h
      exact ⟨a, first, second, hx, hf, rfl⟩
  · rintro ⟨a, first, second, hx, hf, rfl⟩
    change (x.run >>= fun r => (fun p => (p.1, r.2 ++ p.2)) <$> (f r.1).run) = _
    rw [hx, ok_bind, hf]
    rfl

/-- After an ordinary computation only the second step records. -/
theorem run_lift_bind_eq_ok_iff {x : Except Error α} {f : α → Recorded κ β} {b : β}
    {record : List κ} :
    ((liftM x : Recorded κ α) >>= f).run = .ok (b, record) ↔
      ∃ a, x = .ok a ∧ (f a).run = .ok (b, record) := by
  rw [run_bind_eq_ok_iff]
  constructor
  · rintro ⟨a, _, second, hlift, hf, rfl⟩
    obtain ⟨hx, rfl⟩ := run_lift_eq_ok_iff.1 hlift
    exact ⟨a, hx, hf⟩
  · rintro ⟨a, hx, hf⟩
    exact ⟨a, [], record, run_lift_eq_ok_iff.2 ⟨hx, rfl⟩, hf, rfl⟩

/-- What is returned from the value of a step adds nothing to the record. -/
theorem run_bind_pure_eq_ok_iff {x : Recorded κ α} {g : α → β} {b : β} {record : List κ} :
    (x >>= fun a => pure (g a)).run = .ok (b, record) ↔
      ∃ a, x.run = .ok (a, record) ∧ b = g a := by
  rw [run_bind_eq_ok_iff]
  constructor
  · rintro ⟨a, first, _, hx, hreturn, rfl⟩
    obtain ⟨rfl, rfl⟩ := run_pure_eq_ok_iff.1 hreturn
    exact ⟨a, by rwa [List.append_nil], rfl⟩
  · rintro ⟨a, hx, rfl⟩
    exact ⟨a, record, [], hx, rfl, (List.append_nil record).symm⟩

@[simp] theorem value_pure (a : α) : (pure a : Recorded κ α).value = .ok a := rfl

@[simp] theorem value_lift (x : Except Error α) : (liftM x : Recorded κ α).value = x := by
  cases x <;> rfl

@[simp] theorem value_tell (record : List κ) :
    (tell record : Recorded κ PUnit).value = .ok () := rfl

/-- Without the record a chain of two steps is the chain of their values. -/
@[simp] theorem value_bind (x : Recorded κ α) (f : α → Recorded κ β) :
    (x >>= f).value = x.value >>= fun a => (f a).value := by
  change Prod.fst <$> (x.run >>= fun r => (fun p => (p.1, r.2 ++ p.2)) <$> (f r.1).run) = _
  unfold value
  cases x.run with
  | error e => rfl
  | ok r =>
    obtain ⟨a, first⟩ := r
    rw [ok_bind]
    change Prod.fst <$> (fun p => (p.1, first ++ p.2)) <$> (f a).run = Prod.fst <$> (f a).run
    cases (f a).run <;> rfl

/-- An empty note leaves no trace. -/
theorem tell_nil_bind (x : Recorded κ α) : (tell [] >>= fun _ : PUnit => x) = x :=
  id_map x.run

/-- A chain of two ordinary computations is an ordinary computation. -/
theorem lift_bind (x : Except Error α) (f : α → Except Error β) :
    (liftM (x >>= f) : Recorded κ β) = (liftM x : Recorded κ α) >>= fun a => liftM (f a) := by
  cases x with
  | error e => rfl
  | ok a => exact (id_map (liftM (f a) : Recorded κ β).run).symm

/-- A recorded computation has a value when it returns one, whatever it records. -/
theorem value_eq_ok_iff {x : Recorded κ α} {a : α} :
    x.value = .ok a ↔ ∃ record, x.run = .ok (a, record) := by
  unfold value
  cases hx : x.run with
  | error e => exact ⟨fun h => (nomatch h), fun ⟨_, h⟩ => (nomatch h)⟩
  | ok r =>
    obtain ⟨b, record⟩ := r
    constructor
    · intro h
      exact ⟨record, Except.ok.inj h ▸ rfl⟩
    · rintro ⟨_, h⟩
      exact congrArg Except.ok (Prod.mk.inj (Except.ok.inj h)).1

/-- All that a computation records has a property. -/
def Always (P : κ → Prop) (x : Recorded κ α) : Prop :=
  ∀ ⦃a record⦄, x.run = .ok (a, record) → ∀ entry ∈ record, P entry

variable {P : κ → Prop}

theorem always_pure (a : α) : Always P (pure a) := by
  intro _ _ h
  obtain ⟨-, rfl⟩ := run_pure_eq_ok_iff.1 h
  exact fun entry hentry => (nomatch hentry)

theorem always_lift (x : Except Error α) : Always P (liftM x : Recorded κ α) := by
  intro _ _ h
  obtain ⟨-, rfl⟩ := run_lift_eq_ok_iff.1 h
  exact fun entry hentry => (nomatch hentry)

/-- A chain of two steps records what the steps record. -/
theorem Always.bind {x : Recorded κ α} {f : α → Recorded κ β} (hx : Always P x)
    (hf : ∀ a, Always P (f a)) : Always P (x >>= f) := by
  intro _ _ h
  obtain ⟨a, first, second, hfirst, hsecond, rfl⟩ := run_bind_eq_ok_iff.1 h
  exact List.forall_mem_append.2 ⟨hx hfirst, hf a hsecond⟩

/-- A computation succeeds with a value that has a property, and all that it records has another. -/
def Succeeds (P : κ → Prop) (R : α → Prop) (x : Recorded κ α) : Prop :=
  ∃ a record, x.run = .ok (a, record) ∧ R a ∧ ∀ entry ∈ record, P entry

variable {R : α → Prop} {S : β → Prop}

theorem succeeds_pure {a : α} (h : R a) : Succeeds P R (pure a) :=
  ⟨a, [], rfl, h, fun _ hentry => (nomatch hentry)⟩

/-- The property of the value can be weakened. -/
theorem Succeeds.mono {x : Recorded κ α} {S : α → Prop} (hx : Succeeds P R x)
    (h : ∀ a, R a → S a) : Succeeds P S x := by
  obtain ⟨a, record, hrun, ha, hrecord⟩ := hx
  exact ⟨a, record, hrun, h a ha, hrecord⟩

/-- A chain of two steps succeeds when the first step does and the second one does from its
value. -/
theorem Succeeds.bind {x : Recorded κ α} {f : α → Recorded κ β} (hx : Succeeds P R x)
    (hf : ∀ a, R a → Succeeds P S (f a)) : Succeeds P S (x >>= f) := by
  obtain ⟨a, first, hrun, ha, hfirst⟩ := hx
  obtain ⟨b, second, hrun', hb, hsecond⟩ := hf a ha
  exact ⟨b, first ++ second, run_bind_eq_ok_iff.2 ⟨a, first, second, hrun, hrun', rfl⟩, hb,
    List.forall_mem_append.2 ⟨hfirst, hsecond⟩⟩

/-- A computation goes on from the value of an ordinary one. -/
theorem succeeds_lift_bind {x : Except Error α} {f : α → Recorded κ β} {a : α} (hx : x = .ok a)
    (hf : Succeeds P S (f a)) : Succeeds P S ((liftM x : Recorded κ α) >>= f) := by
  obtain ⟨b, record, hrun, h⟩ := hf
  exact ⟨b, record, run_lift_bind_eq_ok_iff.2 ⟨a, hx, hrun⟩, h⟩

/-- A note of one entry comes before what is computed after it. -/
theorem succeeds_tell_bind {entry : κ} {x : Recorded κ α} (hentry : P entry)
    (hx : Succeeds P R x) : Succeeds P R (tell [entry] >>= fun _ : PUnit => x) := by
  have htell : Succeeds P (fun _ : PUnit => True) (tell [entry] : Recorded κ PUnit) :=
    ⟨⟨⟩, [entry], rfl, trivial, List.forall_mem_singleton.2 hentry⟩
  exact htell.bind fun _ _ => hx

section Lists

variable {σ : Type}

/-- Compute something for each entry of a list, in order. -/
def forEach (f : α → Recorded κ β) : List α → Recorded κ (List β)
  | [] => pure []
  | x :: xs => do
    let y ← f x
    let ys ← forEach f xs
    return y :: ys

/-- Go from state to state along a list. -/
def foldEach (f : σ → α → Recorded κ σ) : σ → List α → Recorded κ σ
  | s, [] => pure s
  | s, x :: xs => do
    let s ← f s x
    foldEach f s xs

theorem value_forEach (f : α → Recorded κ β) (xs : List α) :
    (forEach f xs).value = xs.mapM fun x => (f x).value := by
  induction xs with
  | nil => rfl
  | cons x xs ih => simp [forEach, ih]

theorem value_foldEach (f : σ → α → Recorded κ σ) (s : σ) (xs : List α) :
    (foldEach f s xs).value = xs.foldlM (fun s x => (f s x).value) s := by
  induction xs generalizing s with
  | nil => rfl
  | cons x xs ih => simp [foldEach, ih]

/-- The computation for each entry of a list is part of the whole one. -/
theorem run_getElem_of_forEach {f : α → Recorded κ β} {xs : List α} {ys : List β} {record : List κ}
    (h : (forEach f xs).run = .ok (ys, record)) :
    ys.length = xs.length ∧ ∀ (i : Nat) (hi : i < xs.length) (hi' : i < ys.length),
      ∃ part ⊆ record, (f xs[i]).run = .ok (ys[i], part) := by
  induction xs generalizing ys record with
  | nil =>
    obtain ⟨rfl, -⟩ := run_pure_eq_ok_iff.1 h
    exact ⟨rfl, fun i hi => absurd hi (Nat.not_lt_zero i)⟩
  | cons x xs ih =>
    obtain ⟨y, first, more, hfirst, hmore, rfl⟩ := run_bind_eq_ok_iff.1 h
    obtain ⟨rest, hrest, rfl⟩ := run_bind_pure_eq_ok_iff.1 hmore
    obtain ⟨hlength, hparts⟩ := ih hrest
    refine ⟨congrArg (· + 1) hlength, fun i hi hi' => ?_⟩
    cases i with
    | zero => exact ⟨first, List.subset_append_left .., hfirst⟩
    | succ i =>
      obtain ⟨part, hpart, hrun⟩ :=
        hparts i (Nat.lt_of_succ_lt_succ hi) (Nat.lt_of_succ_lt_succ hi')
      exact ⟨part, List.subset_append_of_subset_right first hpart, hrun⟩

/-- Ordinary computations for the entries of a list are one ordinary computation. -/
theorem forEach_lift (f : α → Except Error β) (xs : List α) :
    forEach (fun x => (liftM (f x) : Recorded κ β)) xs = liftM (xs.mapM f) := by
  induction xs with
  | nil => rfl
  | cons x xs ih =>
    rw [forEach, ih, List.mapM_cons, lift_bind]
    refine bind_congr fun y => ?_
    rw [lift_bind]
    rfl

end Lists

end Recorded

/-- A join that keeps a record. -/
abbrev RecordedJoin (κ : Type) :=
  (height index : Nat) → (left right : Bytes) → Recorded κ Bytes

/-- The join without its record. -/
def RecordedJoin.value {κ : Type} (join : RecordedJoin κ) : Join := fun height index left right =>
  (join height index left right).value

end MerkleSignature
