import Mathlib.Algebra.Ring.Nat
import Dispatch.Fault

/-!
# How steps end

A step over a state ends with a value or with a fault, and has a state either way.
`Step.Ends` says both at once, so one calculus serves three purposes: that a step
succeeds, that a step which succeeds did what it should, and that a step leaves
something alone however it ends.

## Main definitions

* `Step.Ends x s Q E` — from `s`, the step `x` ends in `Q`, or faults in `E`.
* `Step.final x s` — the state that `x` leaves behind.

## Main results

* `Step.ends_bind` and its companions — one rule for each way to build a step.
* `Step.Ends.imp` — weakening; `Step.Ends.and` — two descriptions of one run.
* `Step.Ends.bind_rel` — steps that change the state by a transitive relation only.
-/

namespace Dispatch

namespace Step

variable {σ τ α β : Type}

/-- From `s`, the step ends with a value and a state in `Q`, or with a fault and a
state in `E`. -/
def Ends (x : Step σ α) (s : σ) (Q : α → σ → Prop) (E : Fault → σ → Prop) : Prop :=
  match x s with
  | .ok a s' => Q a s'
  | .error fault s' => E fault s'

/-- The state that a step leaves behind, however it ends. -/
def final (x : Step σ α) (s : σ) : σ :=
  match x s with
  | .ok _ s' => s'
  | .error _ s' => s'

/-- The value that a step ends with, if it does. -/
def value? (x : Step σ α) (s : σ) : Option α :=
  match x s with
  | .ok a _ => some a
  | .error _ _ => none

/-- The fault that a step ends with, if it does. -/
def fault? (x : Step σ α) (s : σ) : Option Fault :=
  match x s with
  | .ok _ _ => none
  | .error fault _ => some fault

/-- Does the step end with a value? -/
def succeeds (x : Step σ α) (s : σ) : Bool := (x.value? s).isSome

variable {x : Step σ α} {s s' : σ} {a : α} {fault : Fault}
  {Q Q' : α → σ → Prop} {E E' : Fault → σ → Prop}

theorem final_of_ok (h : x s = .ok a s') : x.final s = s' := by
  rw [final, h]

theorem final_of_error (h : x s = .error fault s') : x.final s = s' := by
  rw [final, h]

theorem ok_of_value? (h : x.value? s = some a) : x s = .ok a (x.final s) := by
  unfold value? at h
  cases hx : x s with
  | ok b s' =>
    rw [hx] at h
    cases h
    rw [final_of_ok hx]
  | error fault s' =>
    rw [hx] at h
    cases h

theorem exists_ok_of_succeeds (h : x.succeeds s = true) : ∃ a, x s = .ok a (x.final s) := by
  obtain ⟨a, ha⟩ := Option.isSome_iff_exists.mp h
  exact ⟨a, ok_of_value? ha⟩

/-! ### Using and making descriptions -/

theorem ends_of_ok (h : x s = .ok a s') (hQ : Q a s') : Ends x s Q E := by
  rw [Ends, h]
  exact hQ

theorem ends_of_error (h : x s = .error fault s') (hE : E fault s') : Ends x s Q E := by
  rw [Ends, h]
  exact hE

theorem Ends.ok (h : Ends x s Q E) (hx : x s = .ok a s') : Q a s' := by
  rw [Ends, hx] at h
  exact h

theorem Ends.error (h : Ends x s Q E) (hx : x s = .error fault s') : E fault s' := by
  rw [Ends, hx] at h
  exact h

/-- A step that cannot fault has a value. -/
theorem Ends.exists_ok (h : Ends x s Q fun _ _ => False) : ∃ a s', x s = .ok a s' ∧ Q a s' := by
  unfold Ends at h
  split at h
  · exact ⟨_, _, ‹_›, h⟩
  · exact h.elim

/-- A step that cannot end with a value has a fault. -/
theorem Ends.exists_error (h : Ends x s (fun _ _ => False) E) :
    ∃ f s', x s = .error f s' ∧ E f s' := by
  unfold Ends at h
  split at h
  · exact h.elim
  · exact ⟨_, _, ‹_›, h⟩

theorem Ends.imp (h : Ends x s Q E) (hQ : ∀ a s', Q a s' → Q' a s')
    (hE : ∀ f s', E f s' → E' f s') : Ends x s Q' E' := by
  unfold Ends at *
  split at h
  · exact hQ _ _ h
  · exact hE _ _ h

/-- Weakening that may use the run itself. -/
theorem Ends.imp_run (h : Ends x s Q E) (hQ : ∀ a s', x s = .ok a s' → Q a s' → Q' a s')
    (hE : ∀ f s', x s = .error f s' → E f s' → E' f s') : Ends x s Q' E' := by
  unfold Ends at *
  split at h
  · exact hQ _ _ ‹_› h
  · exact hE _ _ ‹_› h

theorem Ends.and (h : Ends x s Q E) (h' : Ends x s Q' E') :
    Ends x s (fun a s' => Q a s' ∧ Q' a s') fun f s' => E f s' ∧ E' f s' := by
  unfold Ends at *
  split at h <;> simp_all

/-- What holds however a step ends holds of the state it leaves. -/
theorem Ends.final {P : σ → Prop} (h : Ends x s (fun _ s' => P s') fun _ s' => P s') :
    P (x.final s) := by
  unfold Ends Step.final at *
  split at h <;> simp_all

/-! ### One rule for each way to build a step -/

@[simp] theorem ends_pure {b : β} {R : β → σ → Prop} :
    Ends (pure b : Step σ β) s R E ↔ R b s := Iff.rfl

@[simp] theorem ends_bind {f : α → Step σ β} {R : β → σ → Prop} :
    Ends (x >>= f) s R E ↔ Ends x s (fun a s' => Ends (f a) s' R E) E := by
  unfold Ends
  simp only [bind, EStateM.bind]
  cases x s <;> rfl

/-- Two steps, one after the other, change the state by `R` only if each of them does. -/
theorem Ends.bind_rel {f : α → Step σ β} {R : σ → σ → Prop}
    (hx : Ends x s (fun _ s' => R s s') fun _ s' => R s s')
    (hf : ∀ a s', R s s' → Ends (f a) s' (fun _ t => R s' t) fun _ t => R s' t)
    (htrans : ∀ s' t, R s s' → R s' t → R s t) :
    Ends (x >>= f) s (fun _ t => R s t) fun _ t => R s t := by
  rw [ends_bind]
  refine hx.imp (fun a s' h => ?_) fun _ _ h => h
  exact (hf a s' h).imp (fun _ t h' => htrans s' t h h') fun _ t h' => htrans s' t h h'

@[simp] theorem ends_map {f : α → β} {R : β → σ → Prop} :
    Ends (f <$> x) s R E ↔ Ends x s (fun a s' => R (f a) s') E := by
  unfold Ends
  simp only [Functor.map, EStateM.map]
  cases x s <;> rfl

@[simp] theorem ends_get {R : σ → σ → Prop} : Ends (get : Step σ σ) s R E ↔ R s s := Iff.rfl

@[simp] theorem ends_set {R : PUnit → σ → Prop} :
    Ends (set s' : Step σ PUnit) s R E ↔ R ⟨⟩ s' := Iff.rfl

@[simp] theorem ends_modify {f : σ → σ} {R : PUnit → σ → Prop} :
    Ends (modify f : Step σ PUnit) s R E ↔ R ⟨⟩ (f s) := Iff.rfl

@[simp] theorem ends_modifyGet {f : σ → β × σ} {R : β → σ → Prop} :
    Ends (modifyGet f : Step σ β) s R E ↔ R (f s).1 (f s).2 := Iff.rfl

@[simp] theorem ends_throw : Ends (throw fault : Step σ α) s Q E ↔ E fault s := Iff.rfl

@[simp] theorem ends_liftM_ok : Ends (liftM (.ok a : Attempt α) : Step σ α) s Q E ↔ Q a s :=
  Iff.rfl

@[simp] theorem ends_liftM_error :
    Ends (liftM (.error fault : Attempt α) : Step σ α) s Q E ↔ E fault s := Iff.rfl

/-- An attempt keeps the state; what follows depends on its outcome only. -/
theorem ends_liftM {attempt : Attempt α} :
    Ends (liftM attempt : Step σ α) s Q E ↔
      (∀ a, attempt = .ok a → Q a s) ∧ ∀ f, attempt = .error f → E f s := by
  cases attempt with
  | error f => simp
  | ok a => simp

@[simp] theorem ends_zoom {part : σ → τ} {put : τ → σ → σ} {y : Step τ β} {R : β → σ → Prop} :
    Ends (y.zoom part put) s R E ↔
      Ends y (part s) (fun b t => R b (put t s)) fun f t => E f (put t s) := by
  unfold Ends zoom
  cases y (part s) <;> rfl

@[simp] theorem ends_observe {R : Attempt α → σ → Prop} :
    Ends x.observe s R E ↔ Ends x s (fun a s' => R (.ok a) s') fun f s' => R (.error f) s' := by
  unfold Ends observe
  cases x s <;> rfl

/-! ### Runs that are known -/

theorem run_pure (b : β) : (pure b : Step σ β) s = .ok b s := rfl

theorem run_get : (get : Step σ σ) s = .ok s s := rfl

theorem run_set : (set s' : Step σ PUnit) s = .ok ⟨⟩ s' := rfl

theorem run_modify (f : σ → σ) : (modify f : Step σ PUnit) s = .ok ⟨⟩ (f s) := rfl

theorem run_throw : (throw fault : Step σ α) s = .error fault s := rfl

theorem run_liftM_ok : (liftM (.ok a : Attempt α) : Step σ α) s = .ok a s := rfl

theorem run_liftM_error :
    (liftM (.error fault : Attempt α) : Step σ α) s = .error fault s := rfl

theorem bind_of_ok {f : α → Step σ β} (h : x s = .ok a s') : (x >>= f) s = f a s' := by
  simp only [bind, EStateM.bind, h]

theorem bind_of_error {f : α → Step σ β} (h : x s = .error fault s') :
    (x >>= f) s = .error fault s' := by
  simp only [bind, EStateM.bind, h]

theorem run_bind_congr {y : Step σ α} (h : x s = y s) (f : α → Step σ β) :
    (x >>= f) s = (y >>= f) s := by
  simp only [bind, EStateM.bind, h]

/-- Attempts one after the other are steps one after the other. -/
theorem liftM_bind (attempt : Attempt α) (f : α → Attempt β) :
    (liftM (attempt >>= f) : Step σ β) = liftM attempt >>= fun a => liftM (f a) := by
  cases attempt with
  | ok a => rfl
  | error fault => rfl

/-! ### Taking runs apart -/

/-- What ends with a value has done so step by step. -/
theorem bind_eq_ok {f : α → Step σ β} {b : β} {t : σ} :
    (x >>= f) s = .ok b t ↔ ∃ a s', x s = .ok a s' ∧ f a s' = .ok b t := by
  cases hx : x s with
  | ok a s' =>
    rw [bind_of_ok hx]
    constructor
    · intro h
      exact ⟨a, s', rfl, h⟩
    · rintro ⟨_, _, heq, h⟩
      cases heq
      exact h
  | error fault s' => simp [bind_of_error hx]

theorem liftM_eq_ok {attempt : Attempt α} :
    (liftM attempt : Step σ α) s = .ok a s' ↔ attempt = .ok a ∧ s' = s := by
  cases attempt with
  | ok b => simp [run_liftM_ok, eq_comm]
  | error fault => simp [run_liftM_error]

end Step

end Dispatch
