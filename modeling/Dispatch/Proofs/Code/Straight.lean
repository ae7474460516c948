import Dispatch.Proofs.Code

/-!
# Straight-line code

Variables are numbered in the order in which they are made, and a building step makes
the variables of an instruction directly before it adds the instruction.  So in the code
that such steps add, every instruction defines the variables that come next and reads
only earlier ones.

## Main definitions

* `HaveKinds` — variables of the given kinds.
* `Straight n code n'` — code in which the variables from `n` up to `n'` are defined in
  order, and no variable is read before it is defined.
* `Writes x b Q` — what the building step `x` adds is straight-line code in `Q`.
* `Seals x b Q` — the same for a step that also terminates the block.

## Main results

* `Straight.defs`, `Straight.uses` — what is defined and what is read.
* `writes_define`, `writes_defineAll`, `writes_emit` — the steps that add an instruction.
* `ends_sealed` — the function of a body that terminates its block.
-/

namespace Dispatch

open Registers

/-! ### Kinds of variables -/

/-- In a function whose variables have the kinds `all`, these variables have these
kinds. -/
def HaveKinds (all : List Scalar) (vs : List Var) (kinds : List Scalar) : Prop :=
  vs.map (fun v => all[v]?) = kinds.map some

section HaveKinds

variable {all all' kinds kinds' : List Scalar} {vs us : List Var} {v : Var} {kind : Scalar}

theorem haveKinds_nil : HaveKinds all [] [] := rfl

theorem HaveKinds.append (h : HaveKinds all vs kinds) (h' : HaveKinds all us kinds') :
    HaveKinds all (vs ++ us) (kinds ++ kinds') := by
  unfold HaveKinds at *
  rw [List.map_append, List.map_append, h, h']

theorem HaveKinds.length_eq (h : HaveKinds all vs kinds) : vs.length = kinds.length := by
  simpa using congrArg List.length h

theorem HaveKinds.below (h : HaveKinds all vs kinds) : Below all.length vs := by
  intro v hv
  have hmem : all[v]? ∈ kinds.map some := by
    rw [← h]
    exact List.mem_map_of_mem hv
  obtain ⟨kind, -, hkind⟩ := List.mem_map.mp hmem
  exact (List.getElem?_eq_some_iff.mp hkind.symm).1

/-- Variables keep their kinds when more are made. -/
theorem HaveKinds.mono (h : HaveKinds all vs kinds) (hall : all <+: all') :
    HaveKinds all' vs kinds := by
  unfold HaveKinds at *
  rw [← h]
  refine List.map_congr_left fun v hv => ?_
  obtain ⟨more, rfl⟩ := hall
  exact List.getElem?_append_left (HaveKinds.below h v hv)

/-- The elements of the second part of a list, by their positions. -/
theorem map_getElem?_range' {α : Type} (l l' : List α) :
    (List.range' l.length l'.length).map (fun v => (l ++ l')[v]?) = l'.map some := by
  refine List.ext_getElem? fun k => ?_
  rw [List.getElem?_map, List.getElem?_map]
  by_cases hk : k < l'.length
  · rw [List.getElem?_range' hk, List.getElem?_eq_getElem hk]
    simp [hk]
  · rw [List.getElem?_eq_none (by simpa using hk), List.getElem?_eq_none (by simpa using hk)]
    rfl

/-- The variables that were made last. -/
theorem haveKinds_range' (all kinds : List Scalar) :
    HaveKinds (all ++ kinds) (List.range' all.length kinds.length) kinds :=
  map_getElem?_range' all kinds

end HaveKinds

/-! ### Code without branches -/

/-- Code that is run with the first `n` variables set and sets the others up to `n'`, each
instruction the next ones. -/
inductive Straight : Nat → List Instr → Nat → Prop where
  | nil {n : Nat} : Straight n [] n
  | cons {n n' : Nat} {i : Instr} {rest : List Instr} (uses : Below n i.uses)
    (defs : i.defs = List.range' n i.defs.length) (next : Straight (n + i.defs.length) rest n') :
    Straight n (i :: rest) n'

namespace Straight

variable {n n' n'' : Nat} {i : Instr} {code code' : List Instr}

theorem append (h : Straight n code n') (h' : Straight n' code' n'') :
    Straight n (code ++ code') n'' := by
  induction h with
  | nil => exact h'
  | cons uses defs _ ih => exact .cons uses defs (ih h')

theorem singleton (uses : Below n i.uses) {k : Nat} (defs : i.defs = List.range' n k) :
    Straight n [i] (n + k) := by
  have hlen : i.defs.length = k := by rw [defs, List.length_range']
  refine .cons uses (by rw [hlen, defs]) ?_
  rw [hlen]
  exact .nil

theorem range_defs (hdefs : i.defs = List.range' n i.defs.length) :
    List.range n ++ i.defs = List.range (n + i.defs.length) := by
  rw [hdefs, List.length_range', List.range_eq_range', List.range_eq_range']
  have happend := List.range'_append_1 (s := 0) (m := n) (n := i.defs.length)
  rwa [Nat.zero_add] at happend

/-- Every variable is defined once, in order. -/
theorem defs (h : Straight n code n') :
    List.range n ++ code.flatMap Instr.defs = List.range n' := by
  induction h with
  | nil => simp
  | cons _ hdefs _ ih => rw [List.flatMap_cons, ← List.append_assoc, range_defs hdefs, ih]

/-- Whatever an instruction reads was there at the start or is defined before it. -/
theorem uses (h : Straight n code n') {before after : List Instr}
    (hcode : code = before ++ i :: after) :
    ∀ v ∈ i.uses, v ∈ List.range n ++ before.flatMap Instr.defs := by
  induction h generalizing before with
  | nil => simp at hcode
  | @cons n n' j rest hj hdefs _ ih =>
    cases before with
    | nil =>
      cases hcode
      intro v hv
      simpa using hj v hv
    | cons j' before =>
      obtain ⟨rfl, rfl⟩ := List.cons.inj hcode
      intro v hv
      have hmem := ih rfl v hv
      rwa [← range_defs hdefs, List.append_assoc, ← List.flatMap_cons] at hmem

end Straight

/-! ### Calls and values that are taken -/

/-- The address that the instruction moves a value out of. -/
def Instr.takeSource? : Instr → Option Var
  | .loadTake _ addr => some addr
  | _ => none

/-- The calls of function values. -/
def calls (code : List Instr) : List Instr := code.filter Instr.isCall

/-- The addresses that values are moved out of. -/
def sources (code : List Instr) : List Var := code.filterMap Instr.takeSource?

@[simp] theorem calls_append (code code' : List Instr) :
    calls (code ++ code') = calls code ++ calls code' :=
  List.filter_append ..

@[simp] theorem sources_append (code code' : List Instr) :
    sources (code ++ code') = sources code ++ sources code' :=
  List.filterMap_append ..

/-- Code that neither calls nor moves values out of memory. -/
def Inert (code : List Instr) : Prop := calls code = [] ∧ sources code = []

theorem inert_nil : Inert [] := ⟨rfl, rfl⟩

theorem Inert.append {code code' : List Instr} (h : Inert code) (h' : Inert code') :
    Inert (code ++ code') :=
  ⟨by rw [calls_append, h.1, h'.1]; rfl, by rw [sources_append, h.2, h'.2]; rfl⟩

/-! ### Building steps -/

/-- If the building step succeeds, it adds straight-line code, and the answer, the builder
after it and that code are in `Q`. -/
def Writes {α : Type} (x : Build α) (b : Builder) (Q : α → Builder → List Instr → Prop) : Prop :=
  Emits x b (fun a b' code =>
    b.varKinds <+: b'.varKinds ∧ Straight b.vars code b'.vars ∧ Q a b' code) True

section Writes

variable {α β : Type} {x : Build α} {b : Builder} {Q Q' : α → Builder → List Instr → Prop}

theorem Writes.imp (h : Writes x b Q)
    (hQ : ∀ a b' code, b.varKinds <+: b'.varKinds → Q a b' code → Q' a b' code) :
    Writes x b Q' :=
  Emits.imp h fun a b' code ⟨hkinds, hstraight, hq⟩ =>
    ⟨hkinds, hstraight, hQ a b' code hkinds hq⟩

theorem writes_pure {a : α} (h : Q a b []) : Writes (pure a) b Q :=
  emits_pure ⟨List.prefix_refl _, .nil, h⟩

theorem writes_throw (fault : Fault) : Writes (throw fault : Build α) b Q := emits_throw trivial

/-- Code of one step, followed by the code of the next. -/
theorem Writes.bind {k : α → Build β} {R : β → Builder → List Instr → Prop} (hb : b.Open)
    (hx : Writes x b Q)
    (hk : ∀ a b' code, b'.Open → b.varKinds <+: b'.varKinds → Q a b' code →
      Writes (k a) b' fun c b'' code' => R c b'' (code ++ code')) :
    Writes (x >>= k) b R := by
  refine Emits.bind hb hx ?_
  rintro a b' code hb' - ⟨hkinds, hstraight, hq⟩
  refine Emits.imp (hk a b' code hb' hkinds hq) ?_
  rintro c b'' code' ⟨hkinds', hstraight', hr⟩
  exact ⟨hkinds.trans hkinds', hstraight.append hstraight', hr⟩

theorem writes_liftM_bind {attempt : Attempt α} {k : α → Build β}
    {R : β → Builder → List Instr → Prop} (hk : ∀ a, attempt = .ok a → Writes (k a) b R) :
    Writes (liftM attempt >>= k) b R :=
  emits_liftM_bind hk fun _ _ => trivial

theorem writes_of_ok {a : α} {kinds : List Scalar} {code : List Instr}
    (h : x b = .ok a (b.grow kinds code)) (hs : Straight b.vars code (b.vars + kinds.length))
    (hQ : Q a (b.grow kinds code) code) : Writes x b Q :=
  emits_of_ok h ⟨List.prefix_append _ _, by rwa [Builder.vars_grow], hQ⟩

theorem writes_emit (hb : b.Open) {i : Instr} (huses : Below b.vars i.uses) (hdefs : i.defs = []) :
    Writes (Builder.emit i) b fun _ b' code => b'.varKinds = b.varKinds ∧ code = [i] :=
  writes_of_ok (run_emit hb i) (Straight.singleton huses (k := 0) hdefs)
    ⟨by simp [Builder.grow, Builder.modifyDraft], rfl⟩

theorem writes_define (hb : b.Open) {kind : Scalar} {instr : Var → Instr}
    (huses : Below b.vars (instr b.vars).uses) (hdefs : (instr b.vars).defs = [b.vars]) :
    Writes (Builder.define kind instr) b fun v b' code =>
      v = b.vars ∧ HaveKinds b'.varKinds [v] [kind] ∧ code = [instr v] :=
  writes_of_ok (run_define hb kind instr) (Straight.singleton huses (k := 1) hdefs)
    ⟨rfl, haveKinds_range' b.varKinds [kind], rfl⟩

theorem writes_defineAll (hb : b.Open) {kinds : List Scalar} {instr : List Var → Instr}
    (huses : ∀ vs, Below b.vars (instr vs).uses) (hdefs : ∀ vs, (instr vs).defs = vs) :
    Writes (Builder.defineAll kinds instr) b fun vs b' code =>
      HaveKinds b'.varKinds vs kinds ∧ code = [instr vs] :=
  writes_of_ok (run_defineAll hb kinds instr) (Straight.singleton (huses _) (hdefs _))
    ⟨haveKinds_range' b.varKinds kinds, rfl⟩

end Writes

/-! ### Bodies -/

/-- If the building step succeeds, it adds straight-line code and terminates the block, and
the kinds of all variables, the code and the terminator are in `Q`. -/
def Seals {α : Type} (x : Build α) (b : Builder)
    (Q : List Scalar → List Instr → Terminator → Prop) : Prop :=
  Step.Ends x b (fun _ b' => ∃ kinds code terminator,
    b' = (b.grow kinds code).close terminator ∧ Straight b.vars code (b.vars + kinds.length) ∧
      Q (b.varKinds ++ kinds) code terminator) fun _ _ => True

section Seals

variable {α β : Type} {x : Build α} {b : Builder} {Q : List Scalar → List Instr → Terminator → Prop}

theorem seals_terminate (hb : b.Open) {terminator : Terminator} (h : Q b.varKinds [] terminator) :
    Seals (Builder.terminate terminator) b Q := by
  have hclose : Builder.terminate terminator b = .ok () (b.close terminator) := by
    rw [Builder.terminate, Step.bind_of_ok Step.run_get, hb.2]
    rfl
  refine Step.ends_of_ok hclose ⟨[], [], terminator, by rw [Builder.grow_nil], .nil, ?_⟩
  rwa [List.append_nil]

/-- Code of one step, followed by code that ends the block.  The variables of the first step
are among those of the whole function. -/
theorem Writes.seals {k : α → Build β} {P : α → Builder → List Instr → Prop} (hb : b.Open)
    (hx : Writes x b P)
    (hk : ∀ a b' code, b'.Open → b.varKinds <+: b'.varKinds → P a b' code →
      Seals (k a) b' fun kinds code' terminator =>
        b'.varKinds <+: kinds → Q kinds (code ++ code') terminator) :
    Seals (x >>= k) b Q := by
  unfold Seals
  rw [Step.ends_bind]
  refine Step.Ends.imp hx ?_ fun _ _ h => h
  rintro a _ ⟨kinds, code, rfl, hkinds, hstraight, hp⟩
  refine Step.Ends.imp (hk a _ code hb.grow hkinds hp) ?_ fun _ _ h => h
  rintro - _ ⟨kinds', code', terminator, rfl, hstraight', hq⟩
  refine ⟨kinds ++ kinds', code ++ code', terminator, by rw [Builder.grow_grow], ?_, ?_⟩
  · rw [Builder.vars_grow] at hstraight'
    rw [List.length_append, ← Nat.add_assoc]
    exact (Builder.vars_grow (b := b) ▸ hstraight).append hstraight'
  · rw [← List.append_assoc]
    exact hq (List.prefix_append _ _)

theorem seals_liftM_bind {attempt : Attempt α} {k : α → Build β}
    (hk : ∀ a, attempt = .ok a → Seals (k a) b Q) : Seals (liftM attempt >>= k) b Q := by
  unfold Seals
  rw [Step.ends_bind, Step.ends_liftM]
  exact ⟨hk, fun _ _ => trivial⟩

end Seals

/-- The function of a body that terminates its block. -/
theorem ends_sealed {kinds : List Scalar} {body : List Var → Build Unit}
    {Q : List Scalar → List Instr → Terminator → Prop} (name : String) (convention : Convention)
    (h : ∀ b : Builder, b.Open → b.varKinds = kinds →
      Seals (body (List.range' 0 kinds.length)) b Q) :
    Step.Ends (kinds.mapM Builder.param >>= body) (Builder.new name convention)
      (fun _ b => ∃ kinds' code terminator,
        b.finish = .oneBlock name convention kinds kinds' code terminator ∧
        Straight kinds.length code (kinds ++ kinds').length ∧
        Q (kinds ++ kinds') code terminator) fun _ _ => True := by
  rw [Step.ends_bind]
  refine Step.ends_of_ok (run_params kinds _) ?_
  have hopen := open_withParams name convention kinds
  refine Step.Ends.imp (h _ hopen rfl) ?_ fun _ _ h => h
  rintro - _ ⟨kinds', code, terminator, rfl, hstraight, hq⟩
  exact ⟨kinds', code, terminator, finish_close .., List.length_append ▸ hstraight, hq⟩

end Dispatch
