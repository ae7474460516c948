import Dispatch.Code.Builder
import Dispatch.Machine.Interp
import Dispatch.Proofs.Step

/-!
# Emitted code and what it does

Generating a thunk is a run of building steps, and running it is a run of
instructions.  The two are tied together here: `Emits` says what code a building step
adds, and `Step.Matches` says that running that code does exactly what a given step of
the machine does, faults included.

## Main definitions

* `Step.Matches y x s R` — from `s`, the step `y` does what `x` does, with results
  related by `R`.
* `Registers.Agree` — registers that agree on the first variables.
* `Builder.Open`, `Builder.grow` — a builder that takes instructions, with more of them.
* `Emits x b Q E` — the building step `x` adds code in `Q`, or is given up and `E` holds.
* `Closes x b Q E` — the same for a step that also terminates the block.

## Main results

* `Step.Matches.bind`, `Emits.bind` — both follow the order of steps.
* `World.matches_steps_append` — code is run piece by piece.
* `World.matches_runBlocks` — a function of one block does what its code does.
-/

namespace Dispatch

namespace Step

variable {σ α β γ δ : Type} {s : σ} {x : Step σ β} {y : Step σ γ} {R : β → γ → Prop}

/-- From `s`, the step `y` ends as `x` does, in the same state; if they end with
values, these are related. -/
def Matches (y : Step σ γ) (x : Step σ β) (s : σ) (R : β → γ → Prop) : Prop :=
  match x s with
  | .ok b s' => ∃ c, y s = .ok c s' ∧ R b c
  | .error fault s' => y s = .error fault s'

theorem Matches.refl (x : Step σ β) (s : σ) : Matches x x s fun b c => c = b := by
  unfold Matches
  split
  · next h => exact ⟨_, h, rfl⟩
  · next h => exact h

theorem Matches.imp {R' : β → γ → Prop} (h : Matches y x s R) (hR : ∀ b c, R b c → R' b c) :
    Matches y x s R' := by
  unfold Matches at *
  split at h
  · obtain ⟨c, hc, hR'⟩ := h
    exact ⟨c, hc, hR _ _ hR'⟩
  · exact h

/-- Steps that match, followed by steps that match. -/
theorem Matches.bind {f : β → Step σ α} {g : γ → Step σ δ} {S : α → δ → Prop}
    (h : Matches y x s R)
    (hfg : ∀ b c s', x s = .ok b s' → R b c → Matches (g c) (f b) s' S) :
    Matches (y >>= g) (x >>= f) s S := by
  unfold Matches at h
  split at h
  · next b s' hx =>
    obtain ⟨c, hc, hR⟩ := h
    have := hfg b c s' hx hR
    unfold Matches at this ⊢
    rw [bind_of_ok hx, bind_of_ok hc]
    exact this
  · next fault s' hx =>
    unfold Matches
    rw [bind_of_error hx, bind_of_error h]

/-- Working on the value of the second step. -/
theorem Matches.map {S : α → γ → Prop} (h : Matches y x s R) (g : β → α)
    (hS : ∀ b c, R b c → S (g b) c) : Matches y (x >>= fun b => pure (g b)) s S := by
  unfold Matches at *
  split at h
  · next b s' hx =>
    obtain ⟨c, hc, hR⟩ := h
    rw [bind_of_ok hx]
    exact ⟨c, hc, hS b c hR⟩
  · next fault s' hx =>
    rw [bind_of_error hx]
    exact h

theorem matches_pure {b : β} {c : γ} (h : R b c) :
    Matches (pure c : Step σ γ) (pure b : Step σ β) s R := ⟨c, rfl, h⟩

/-- A step whose value is worked on matches the step itself. -/
theorem matches_bind_pure (f : β → γ) :
    Matches (x >>= fun b => pure (f b)) x s fun b c => c = f b := by
  unfold Matches
  split
  · next h => exact ⟨_, by rw [bind_of_ok h]; rfl, rfl⟩
  · next h => rw [bind_of_error h]

theorem Matches.eq_of_map {f : β → γ} (h : Matches y x s fun b c => c = f b) :
    y s = (f <$> x) s := by
  unfold Matches at h
  simp only [Functor.map, EStateM.map]
  split at h
  · next hx =>
    obtain ⟨c, hc, rfl⟩ := h
    rw [hx, hc]
  · next hx => rw [hx, h]

end Step

/-! ### Registers -/

namespace Registers

/-- The registers agree on the first `n` variables. -/
def Agree (n : Nat) (r r' : Registers) : Prop := ∀ v : Nat, v < n → r'.value v = r.value v

variable {n n' : Nat} {r r' r'' : Registers} {vs : List Var} {words : List Word}

theorem Agree.refl (n : Nat) (r : Registers) : Agree n r r := fun _ _ => rfl

theorem Agree.trans (h : Agree n r r') (h' : Agree n' r' r'') (hn : n ≤ n') : Agree n r r'' :=
  fun v hv => (h' v (Nat.lt_of_lt_of_le hv hn)).trans (h v hv)

/-- Variables that are all among the first `n`. -/
def Below (n : Nat) (vs : List Var) : Prop := ∀ v : Nat, v ∈ vs → v < n

theorem below_nil (n : Nat) : Below n [] := fun _ h => by cases h

theorem Below.mono (h : Below n vs) (hn : n ≤ n') : Below n' vs :=
  fun v hv => Nat.lt_of_lt_of_le (h v hv) hn

theorem Below.append {us : List Var} (h : Below n vs) (h' : Below n us) : Below n (vs ++ us) :=
  fun v hv => (List.mem_append.mp hv).elim (h v) (h' v)

theorem Below.of_subset {us : List Var} (h : Below n vs) (hs : us ⊆ vs) : Below n us :=
  fun v hv => h v (hs hv)

theorem below_range' (n k : Nat) : Below (n + k) (List.range' n k) :=
  fun v hv => by have := List.mem_range'_1.mp hv; omega

theorem Agree.all_eq (h : Agree n r r') (hv : Below n vs) : r'.all vs = r.all vs :=
  List.map_congr_left fun v hv' => h v (hv v hv')

theorem Agree.map_all_eq (h : Agree n r r') {uss : List (List Var)} (hu : Below n uss.flatten) :
    uss.map r'.all = uss.map r.all :=
  List.map_congr_left fun us hus => h.all_eq
    (hu.of_subset fun _ hv => List.mem_flatten.mpr ⟨us, hus, hv⟩)

theorem agree_set (r : Registers) {v : Nat} (hv : n ≤ v) (word : Word) :
    Agree n r (r.set v word) := by
  intro v' hv'
  rw [value_set, if_neg (Nat.ne_of_lt (Nat.lt_of_lt_of_le hv' hv))]

@[simp] theorem all_nil (r : Registers) : r.all [] = [] := rfl

@[simp] theorem all_cons (r : Registers) (v : Var) (vs : List Var) :
    r.all (v :: vs) = r.value v :: r.all vs := rfl

@[simp] theorem all_append (r : Registers) (vs us : List Var) :
    r.all (vs ++ us) = r.all vs ++ r.all us := List.map_append

@[simp] theorem length_all (r : Registers) (vs : List Var) : (r.all vs).length = vs.length :=
  List.length_map _

/-- Fresh variables, set to as many words. -/
theorem setEach_range' : ∀ (words : List Word) (n : Nat) (r : Registers),
    Agree n r (r.setEach ((List.range' n words.length).zip words)) ∧
      (r.setEach ((List.range' n words.length).zip words)).all (List.range' n words.length)
        = words := by
  intro words
  induction words with
  | nil =>
    intro n r
    exact ⟨.refl n r, rfl⟩
  | cons word rest ih =>
    intro n r
    obtain ⟨hagree, hall⟩ := ih (n + 1) (r.set n word)
    simp only [List.length_cons, List.range'_succ, List.zip_cons_cons, setEach, all_cons, hall]
    refine ⟨(agree_set r (Nat.le_refl n) word).trans hagree (Nat.le_succ n), ?_⟩
    rw [hagree n (Nat.lt_succ_self n), value_set, if_pos rfl]

theorem setAll_range' (r : Registers) {k : Nat} (hk : words.length = k) (what : String) :
    ∃ r', r.setAll (List.range' n k) words what = .ok r' ∧ Agree n r r' ∧
      r'.all (List.range' n k) = words := by
  subst hk
  obtain ⟨hagree, hall⟩ := setEach_range' words n r
  exact ⟨_, by rw [setAll, if_pos (List.length_range')], hagree, hall⟩

theorem setAll_error (r : Registers) (what : String) (h : vs.length ≠ words.length) :
    r.setAll vs words what = .error (.machine (.arity what vs.length words.length)) := by
  rw [setAll, if_neg h]

end Registers

/-! ### Builders -/

namespace Builder

variable {b : Builder} {kinds kinds' : List Scalar} {code code' : List Instr}

/-- The number of variables made so far. -/
def vars (b : Builder) : Nat := b.varKinds.length

/-- The current block exists and takes instructions. -/
def Open (b : Builder) : Prop := b.current < b.drafts.length ∧ b.isTerminated = false

/-- The builder with more variables, and more code in its current block. -/
def grow (b : Builder) (kinds : List Scalar) (code : List Instr) : Builder :=
  { b.modifyDraft (fun d => { d with body := d.body ++ code }) with
    varKinds := b.varKinds ++ kinds }

@[simp] theorem vars_grow : (b.grow kinds code).vars = b.vars + kinds.length := by
  simp [grow, vars, modifyDraft]

@[simp] theorem current_grow : (b.grow kinds code).current = b.current := rfl

theorem modifyDraft_nil (b : Builder) :
    b.modifyDraft (fun d => { d with body := d.body ++ [] }) = b := by
  have hid : (fun d : Draft => { d with body := d.body ++ [] }) = id := by
    funext d
    simp
  rw [hid, modifyDraft, List.modify_id]

@[simp] theorem grow_nil : b.grow [] [] = b := by
  rw [grow, modifyDraft_nil, List.append_nil]

theorem grow_grow : (b.grow kinds code).grow kinds' code'
    = b.grow (kinds ++ kinds') (code ++ code') := by
  simp only [grow, modifyDraft, List.modify_modify_eq, List.append_assoc]
  congr 2
  funext d
  simp

theorem draft_grow (hb : b.Open) :
    (b.grow kinds code).draft = { b.draft with body := b.draft.body ++ code } := by
  have hcur := hb.1
  simp only [draft, grow, modifyDraft, List.getElem?_modify_eq]
  rw [List.getElem?_eq_getElem hcur]
  rfl

theorem Open.grow (hb : b.Open) : (b.grow kinds code).Open := by
  refine ⟨by simpa [Builder.grow, modifyDraft] using hb.1, ?_⟩
  rw [isTerminated, draft_grow hb]
  exact hb.2

end Builder

/-! ### What building steps emit -/

/-- The building step adds code to the current block, and the answer, the builder
after it and that code are in `Q`; or it fails, and then `E` holds. -/
def Emits {α : Type} (x : Build α) (b : Builder) (Q : α → Builder → List Instr → Prop)
    (E : Prop) : Prop :=
  Step.Ends x b (fun a b' => ∃ kinds code, b' = b.grow kinds code ∧ Q a b' code) fun _ _ => E

section Emits

variable {α β : Type} {x : Build α} {b : Builder} {Q Q' : α → Builder → List Instr → Prop}
  {E : Prop}

theorem Emits.imp (h : Emits x b Q E) (hQ : ∀ a b' code, Q a b' code → Q' a b' code) :
    Emits x b Q' E := by
  refine Step.Ends.imp h (fun a b' h => ?_) fun _ _ h => h
  obtain ⟨kinds, code, hb', hq⟩ := h
  exact ⟨kinds, code, hb', hQ a b' code hq⟩

theorem emits_pure {a : α} (h : Q a b []) : Emits (pure a) b Q E :=
  ⟨[], [], by simp, h⟩

/-- Code of one step, followed by the code of the next. -/
theorem Emits.bind {k : α → Build β} {R : β → Builder → List Instr → Prop} (hb : b.Open)
    (hx : Emits x b Q E)
    (hk : ∀ a b' code, b'.Open → b.vars ≤ b'.vars → Q a b' code →
      Emits (k a) b' (fun c b'' code' => R c b'' (code ++ code')) E) :
    Emits (x >>= k) b R E := by
  unfold Emits
  rw [Step.ends_bind]
  refine Step.Ends.imp hx (fun a b' h => ?_) fun _ _ h => h
  obtain ⟨kinds, code, rfl, hq⟩ := h
  refine Step.Ends.imp (hk a _ code hb.grow (by simp) hq) (fun c b'' h => ?_) fun _ _ h => h
  obtain ⟨kinds', code', rfl, hr⟩ := h
  exact ⟨kinds ++ kinds', code ++ code', Builder.grow_grow, hr⟩

theorem emits_liftM_bind {attempt : Attempt α} {k : α → Build β}
    {R : β → Builder → List Instr → Prop} (hk : ∀ a, attempt = .ok a → Emits (k a) b R E)
    (hE : ∀ fault, attempt = .error fault → E) : Emits (liftM attempt >>= k) b R E := by
  unfold Emits at *
  rw [Step.ends_bind, Step.ends_liftM]
  exact ⟨hk, hE⟩

theorem emits_liftM_ok {a : α} {k : α → Build β} {R : β → Builder → List Instr → Prop}
    (hk : Emits (k a) b R E) : Emits (liftM (.ok a : Attempt α) >>= k) b R E :=
  emits_liftM_bind (fun _ h => by cases h; exact hk) fun _ h => by cases h

theorem emits_throw {fault : Fault} (hE : E) : Emits (throw fault : Build α) b Q E := hE

/-- A run that is known. -/
theorem emits_of_ok {a : α} {kinds : List Scalar} {code : List Instr}
    (h : x b = .ok a (b.grow kinds code)) (hQ : Q a (b.grow kinds code) code) : Emits x b Q E :=
  Step.ends_of_ok h ⟨kinds, code, rfl, hQ⟩

theorem run_fresh (kind : Scalar) : Builder.fresh kind b = .ok b.vars (b.grow [kind] []) := by
  rw [Builder.grow, Builder.modifyDraft_nil]
  rfl

theorem run_emit (hb : b.Open) (i : Instr) : Builder.emit i b = .ok () (b.grow [] [i]) := by
  rw [Builder.emit, Step.bind_of_ok Step.run_get, hb.2]
  simp [Builder.grow, Builder.modifyDraft, Step.run_set]

theorem run_define (hb : b.Open) (kind : Scalar) (instr : Var → Instr) :
    Builder.define kind instr b = .ok b.vars (b.grow [kind] [instr b.vars]) := by
  rw [Builder.define, Step.bind_of_ok (run_fresh kind), Step.bind_of_ok (run_emit hb.grow _),
    Builder.grow_grow]
  rfl

/-- New variables are the next ones. -/
theorem run_freshAll (kinds : List Scalar) :
    Builder.freshAll kinds b = .ok (List.range' b.vars kinds.length) (b.grow kinds []) := by
  induction kinds generalizing b with
  | nil =>
    rw [Builder.freshAll, List.mapM_nil, Builder.grow_nil]
    rfl
  | cons kind rest ih =>
    have hrest : rest.mapM Builder.fresh (b.grow [kind] [])
        = .ok (List.range' (b.vars + 1) rest.length) (b.grow (kind :: rest) []) := by
      have h := ih (b := b.grow [kind] [])
      rwa [Builder.vars_grow, Builder.grow_grow] at h
    rw [Builder.freshAll, List.mapM_cons, Step.bind_of_ok (run_fresh kind), Step.bind_of_ok hrest,
      List.length_cons, List.range'_succ]
    rfl

theorem run_defineAll (hb : b.Open) (kinds : List Scalar) (instr : List Var → Instr) :
    Builder.defineAll kinds instr b = .ok (List.range' b.vars kinds.length)
      (b.grow kinds [instr (List.range' b.vars kinds.length)]) := by
  rw [Builder.defineAll, Step.bind_of_ok (run_freshAll kinds), Step.bind_of_ok (run_emit hb.grow _),
    Builder.grow_grow, List.append_nil]
  rfl

theorem emits_emit (hb : b.Open) (i : Instr) :
    Emits (Builder.emit i) b (fun _ b' code => b'.vars = b.vars ∧ code = [i]) E :=
  emits_of_ok (run_emit hb i) ⟨by simp, rfl⟩

theorem emits_define (hb : b.Open) (kind : Scalar) (instr : Var → Instr) :
    Emits (Builder.define kind instr) b
      (fun v b' code => v = b.vars ∧ b'.vars = b.vars + 1 ∧ code = [instr b.vars]) E :=
  emits_of_ok (run_define hb kind instr) ⟨rfl, by simp, rfl⟩

theorem emits_defineAll (hb : b.Open) (kinds : List Scalar) (instr : List Var → Instr) :
    Emits (Builder.defineAll kinds instr) b
      (fun vs b' code => vs = List.range' b.vars kinds.length ∧
        b'.vars = b.vars + kinds.length ∧ code = [instr vs]) E :=
  emits_of_ok (run_defineAll hb kinds instr) ⟨rfl, by simp, rfl⟩

end Emits

/-! ### Functions of one block -/

/-- The builder with its current block terminated. -/
def Builder.close (b : Builder) (terminator : Terminator) : Builder :=
  b.modifyDraft fun d => { d with terminator := some terminator }

/-- The building step adds code to the current block and terminates it, and the two
are in `Q`; or it fails, and then `E` holds. -/
def Closes {α : Type} (x : Build α) (b : Builder) (Q : List Instr → Terminator → Prop)
    (E : Prop) : Prop :=
  Step.Ends x b (fun _ b' => ∃ kinds code terminator,
    b' = (b.grow kinds code).close terminator ∧ Q code terminator) fun _ _ => E

section Closes

variable {α β : Type} {x : Build α} {b : Builder} {Q : List Instr → Terminator → Prop} {E : Prop}

theorem closes_terminate (hb : b.Open) (terminator : Terminator) (h : Q [] terminator) :
    Closes (Builder.terminate terminator) b Q E := by
  unfold Closes
  rw [Builder.terminate, Step.ends_bind, Step.ends_get, hb.2]
  exact ⟨[], [], terminator, by rw [Builder.grow_nil, Builder.close], h⟩

/-- Code of one step, followed by code that ends the block. -/
theorem Emits.closes {k : α → Build β} {P : α → Builder → List Instr → Prop} (hb : b.Open)
    (hx : Emits x b P E)
    (hk : ∀ a b' code, b'.Open → b.vars ≤ b'.vars → P a b' code →
      Closes (k a) b' (fun code' terminator => Q (code ++ code') terminator) E) :
    Closes (x >>= k) b Q E := by
  unfold Closes
  rw [Step.ends_bind]
  refine Step.Ends.imp hx (fun a b' h => ?_) fun _ _ h => h
  obtain ⟨kinds, code, rfl, hp⟩ := h
  refine Step.Ends.imp (hk a _ code hb.grow (by simp) hp) (fun _ b'' h => ?_) fun _ _ h => h
  obtain ⟨kinds', code', terminator, rfl, hq⟩ := h
  exact ⟨kinds ++ kinds', code ++ code', terminator, by rw [Builder.grow_grow], hq⟩

theorem closes_liftM_bind {attempt : Attempt α} {k : α → Build β}
    (hk : ∀ a, attempt = .ok a → Closes (k a) b Q E) (hE : ∀ fault, attempt = .error fault → E) :
    Closes (liftM attempt >>= k) b Q E := by
  unfold Closes at *
  rw [Step.ends_bind, Step.ends_liftM]
  exact ⟨hk, hE⟩

end Closes

/-- What a function leaves with at the end of a block without a branch. -/
def Terminator.Leaves (r : Registers) (results : List Word) (terminator : Terminator) : Prop :=
  (∃ vs, terminator = .ret vs ∧ r.all vs = results) ∨ terminator = .asyncExit ∧ results = []

/-- The builder with more native parameters, which are the next variables. -/
def Builder.withParams (b : Builder) (kinds : List Scalar) : Builder :=
  { b with
    params := b.params ++ List.zipWith Param.mk (List.range' b.vars kinds.length) kinds
    varKinds := b.varKinds ++ kinds }

theorem run_params (kinds : List Scalar) (b : Builder) :
    kinds.mapM Builder.param b
      = .ok (List.range' b.vars kinds.length) (b.withParams kinds) := by
  induction kinds generalizing b with
  | nil => simp [Builder.withParams, List.mapM_nil, Step.run_pure]
  | cons kind rest ih =>
    have hone : Builder.param kind b = .ok b.vars (b.withParams [kind]) := rfl
    have htwo : (b.withParams [kind]).withParams rest = b.withParams (kind :: rest) := by
      simp [Builder.withParams, Builder.vars, List.range'_succ]
    have hvars : (b.withParams [kind]).vars = b.vars + 1 := by
      simp [Builder.withParams, Builder.vars]
    rw [List.mapM_cons, Step.bind_of_ok hone, Step.bind_of_ok (ih _), htwo, hvars,
      List.length_cons, List.range'_succ]
    rfl

theorem map_var_zipWith {vs : List Var} {kinds : List Scalar} (h : vs.length = kinds.length) :
    (List.zipWith Param.mk vs kinds).map Param.var = vs := by
  have hfst : (vs.zip kinds).map Prod.fst = vs := List.map_fst_zip (Nat.le_of_eq h)
  rw [List.zip, List.map_zipWith] at hfst
  rwa [List.map_zipWith]

theorem map_kind_zipWith {vs : List Var} {kinds : List Scalar} (h : vs.length = kinds.length) :
    (List.zipWith Param.mk vs kinds).map Param.kind = kinds := by
  have hsnd : (vs.zip kinds).map Prod.snd = kinds := List.map_snd_zip (Nat.le_of_eq h.symm)
  rw [List.zip, List.map_zipWith] at hsnd
  rwa [List.map_zipWith]

/-- A new builder with parameters takes instructions. -/
theorem open_withParams (name : String) (convention : Convention) (kinds : List Scalar) :
    ((Builder.new name convention).withParams kinds).Open :=
  ⟨Nat.one_pos, rfl⟩

/-- A function of one block: its parameters have the kinds `kinds`, and `kinds'` are those of
all other variables. -/
def Function.oneBlock (name : String) (convention : Convention) (kinds kinds' : List Scalar)
    (code : List Instr) (terminator : Terminator) : Function where
  name := name
  convention := convention
  params := List.zipWith Param.mk (List.range' 0 kinds.length) kinds
  blocks := [⟨Function.entry, code, terminator⟩]
  varKinds := kinds ++ kinds'

theorem finish_close (name : String) (convention : Convention) (kinds kinds' : List Scalar)
    (code : List Instr) (terminator : Terminator) :
    ((((Builder.new name convention).withParams kinds).grow kinds' code).close terminator).finish
      = .oneBlock name convention kinds kinds' code terminator := by
  simp [Builder.finish, Builder.close, Builder.grow, Builder.modifyDraft, Builder.withParams,
    Builder.new, Builder.vars, Draft.finish, Function.entry, Function.oneBlock]

/-- A body that closes its block makes a function of one block. -/
theorem ends_function {kinds : List Scalar} {body : List Var → Build Unit}
    {Q : List Instr → Terminator → Prop} {E : Prop} (name : String) (convention : Convention)
    (h : ∀ b : Builder, b.Open → b.vars = kinds.length →
      Closes (body (List.range' 0 kinds.length)) b Q E) :
    Step.Ends (kinds.mapM Builder.param >>= body) (Builder.new name convention)
      (fun _ b => b.finish.name = name ∧
        b.finish.params.map Param.var = List.range' 0 kinds.length ∧
        ∃ code terminator, b.finish.blocks = [⟨Function.entry, code, terminator⟩] ∧
          Q code terminator) fun _ _ => E := by
  rw [Step.ends_bind]
  refine Step.ends_of_ok (run_params kinds _) ?_
  have hopen := open_withParams name convention kinds
  refine Step.Ends.imp (h _ hopen (by simp [Builder.withParams, Builder.vars, Builder.new]))
    (fun _ b' hb' => ?_) fun _ _ h => h
  obtain ⟨kinds', code, terminator, rfl, hq⟩ := hb'
  rw [finish_close]
  exact ⟨rfl, map_var_zipWith (by simp), code, terminator, rfl, hq⟩

/-! ### Running pieces of code -/

namespace World

variable {call : Caller} {r : Registers}

theorem steps_singleton (i : Instr) : steps call r [i] = step call r i := by
  rw [steps]
  exact bind_pure _

theorem steps_append (code code' : List Instr) :
    steps call r (code ++ code') = steps call r code >>= fun r' => steps call r' code' := by
  induction code generalizing r with
  | nil => rw [List.nil_append, steps, pure_bind]
  | cons i rest ih =>
    rw [List.cons_append, steps, steps, bind_assoc]
    congr 1
    funext r'
    exact ih

/-- Code is run piece by piece. -/
theorem matches_steps_append {α β : Type} {code code' : List Instr} {w : World} {x : Run α}
    {f : α → Run β} {R : α → Registers → Prop} {S : β → Registers → Prop}
    (h : Step.Matches (steps call r code) x w R)
    (h' : ∀ a r' w', x w = .ok a w' → R a r' → Step.Matches (steps call r' code') (f a) w' S) :
    Step.Matches (steps call r (code ++ code')) (x >>= f) w S := by
  rw [steps_append]
  exact h.bind h'

/-- A function of one block does what its code does. -/
theorem matches_runBlocks {α : Type} {f : Function} {code : List Instr} {terminator : Terminator}
    {id : BlockId} {w : World} {x : Run α} {results : α → List Word}
    (hf : f.blocks[id]? = some ⟨id, code, terminator⟩)
    (h : Step.Matches (steps call r code) x w fun a r' => terminator.Leaves r' (results a))
    (count : Nat) :
    Step.Matches (runBlocks call f (count + 1) id r) x w fun a words => words = results a := by
  rw [runBlocks, hf, ← bind_pure x]
  refine h.bind ?_
  intro a r' w' _ hleaves
  rcases hleaves with ⟨vs, rfl, hvs⟩ | ⟨rfl, hnil⟩
  · exact Step.matches_pure hvs
  · exact Step.matches_pure hnil.symm

/-- Running a function of one block on as many arguments as it has parameters. -/
theorem run_eq_of_matches {f : Function} {code : List Instr} {terminator : Terminator}
    {k : Nat} {args : List Word} {w : World} {x : Run (List Word)}
    (hblocks : f.blocks = [⟨Function.entry, code, terminator⟩])
    (hparams : f.params.map Param.var = List.range' 0 k) (hargs : args.length = k)
    (h : ∀ r : Registers, r.all (List.range' 0 k) = args →
      Step.Matches (steps call r code) x w fun results r' => terminator.Leaves r' results) :
    run call f args w = x w := by
  obtain ⟨r, hset, -, hall⟩ := Registers.zero.setAll_range' (n := 0) hargs f.name
  have hmatch : Step.Matches (runBlocks call f (0 + 1) Function.entry r) x w
      fun results words => words = results :=
    matches_runBlocks (by rw [hblocks]; rfl) (h r hall) 0
  have hone : f.blocks.length = 0 + 1 := by rw [hblocks]; rfl
  rw [run, hparams, hset, Step.bind_of_ok Step.run_liftM_ok, hone, hmatch.eq_of_map, id_map']

end World

end Dispatch
