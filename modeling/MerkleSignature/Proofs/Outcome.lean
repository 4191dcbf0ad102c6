import MerkleSignature.Error

/-!
# Successful computations

A computation that can refuse is a chain of steps, each of which goes on from the value of the one
before. These lemmas run such a chain when its steps are known to succeed.
-/

namespace MerkleSignature

variable {α β ε : Type}

/-- A step after a success goes on from its value. -/
@[simp] theorem ok_bind (a : α) (f : α → Except ε β) : (Except.ok a >>= f) = f a := rfl

/-- A step after a failure is not taken. -/
@[simp] theorem error_bind (e : ε) (f : α → Except ε β) :
    ((Except.error e : Except ε α) >>= f) = .error e := rfl

/-- Returning a value is a success. -/
@[simp] theorem pure_eq_ok (a : α) : (pure a : Except ε α) = .ok a := rfl

/-- A chain of two steps succeeds when the first step does and the second one goes on from its
value. -/
theorem bind_eq_ok_iff {x : Except ε α} {f : α → Except ε β} {b : β} :
    (x >>= f) = .ok b ↔ ∃ a, x = .ok a ∧ f a = .ok b := by
  cases x with
  | error e => simp
  | ok a => simp

/-- A list is computed element by element when every element can be computed. -/
theorem mapM_eq_ok_map {f : α → Except ε β} {g : α → β} {xs : List α}
    (h : ∀ x ∈ xs, f x = .ok (g x)) : xs.mapM f = .ok (xs.map g) := by
  induction xs with
  | nil => rfl
  | cons x xs ih =>
    rw [List.mapM_cons, h x List.mem_cons_self, ih fun y hy => h y (List.mem_cons_of_mem x hy)]
    rfl

/-- A list is computed to another list when this holds entry by entry. -/
theorem mapM_eq_ok_of_getElem {f : α → Except ε β} {xs : List α} (ys : List β)
    (hlength : xs.length = ys.length)
    (h : ∀ i (hx : i < xs.length) (hy : i < ys.length), f xs[i] = .ok ys[i]) :
    xs.mapM f = .ok ys := by
  induction xs generalizing ys with
  | nil =>
    cases ys with
    | nil => rfl
    | cons y ys => simp at hlength
  | cons x xs ih =>
    cases ys with
    | nil => simp at hlength
    | cons y ys =>
      have hrest : xs.mapM f = .ok ys := ih ys (Nat.succ.inj hlength) fun i hx hy =>
        h (i + 1) (Nat.succ_lt_succ hx) (Nat.succ_lt_succ hy)
      have hfirst : f x = .ok y := h 0 (Nat.succ_pos _) (Nat.succ_pos _)
      rw [List.mapM_cons, hfirst, hrest]
      rfl

/-- A byte string of the expected length is accepted. -/
theorem checkLength_eq_ok {what : String} {data : List UInt8} {expected : Nat}
    (h : data.length = expected) : checkLength what data expected = .ok () := if_pos h

/-- Byte strings of another length are refused. -/
theorem length_eq_of_checkLength {what : String} {data : List UInt8} {expected : Nat}
    (h : checkLength what data expected = .ok ()) : data.length = expected := by
  by_cases hlength : data.length = expected
  · exact hlength
  · rw [checkLength, if_neg hlength] at h
    contradiction

/-- A chain that begins with a check of a length succeeds when the length is the expected one and
the rest succeeds. -/
theorem checkLength_bind_eq_ok_iff {what : String} {data : List UInt8} {expected : Nat}
    {x : Except Error α} {a : α} :
    (checkLength what data expected >>= fun _ => x) = .ok a ↔
      data.length = expected ∧ x = .ok a := by
  rw [bind_eq_ok_iff]
  constructor
  · rintro ⟨_, hlength, hx⟩
    exact ⟨length_eq_of_checkLength hlength, hx⟩
  · rintro ⟨hlength, hx⟩
    exact ⟨(), checkLength_eq_ok hlength, hx⟩

end MerkleSignature
