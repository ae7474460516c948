import Dispatch.Proofs.Footprint
import Dispatch.Thunk.Lookup

/-!
# What look-up functions do

The code of a look-up function is a chain of tests.  Each candidate takes two blocks: one
that compares the descriptor with the candidate's own, and one that answers.  Behind the
last candidate stands the block that asks the run-time system.  `LookupPlan.answer` says
what the chain computes, and whether it got to that last block.

## Main definitions

* `World.traced` — run a function, and list the instructions on the way.
* `LookupPlan.drafts` — the blocks of a look-up function.
* `LookupPlan.answer` — what a look-up function does.

## Main results

* `World.run_eq_traced` — a traced run is a run.
* `LookupPlan.traced_function` — a look-up function does what `LookupPlan.answer` does.
* `LookupPlan.onlyReads_function` — it neither stores nor calls.
-/

namespace Dispatch

/-! ### Traced runs -/

namespace World

/-- Run a function from a block on; the answer is its results, and the instructions that
were run on the way to them. -/
def tracedBlocks (call : Caller) (f : Function) :
    Nat → BlockId → Registers → Run (List Word × List Instr)
  | 0, _, _ => throw (.trap .endless)
  | count + 1, id, r => do
    match f.blocks[id]? with
    | none => fail (.unreachable f.name)
    | some block =>
      let r ← steps call r block.body
      match block.terminator with
      | .ret values => return (r.all values, block.body)
      | .asyncExit => return ([], block.body)
      | .branch cond thenBlock elseBlock =>
        let rest ← tracedBlocks call f count (if r.value cond ≠ 0 then thenBlock else elseBlock) r
        return (rest.1, block.body ++ rest.2)
      | .jump target =>
        let rest ← tracedBlocks call f count target r
        return (rest.1, block.body ++ rest.2)
      | .unreachable => fail (.unreachable f.name)

/-- Run a function on native arguments; the answer is its results, and the instructions
that were run on the way to them. -/
def traced (call : Caller) (f : Function) (args : List Word) : Run (List Word × List Instr) := do
  let r ← Registers.zero.setAll (f.params.map Param.var) args f.name
  tracedBlocks call f f.blocks.length Function.entry r

theorem runBlocks_eq_traced (call : Caller) (f : Function) (count : Nat) :
    ∀ id r, runBlocks call f count id r = Prod.fst <$> tracedBlocks call f count id r := by
  induction count with
  | zero => exact fun _ _ => rfl
  | succ count ih =>
    intro id r
    unfold runBlocks tracedBlocks
    cases f.blocks[id]? with
    | none => rfl
    | some block =>
      simp only [map_bind]
      refine bind_congr fun r' => ?_
      cases block.terminator with
      | ret | asyncExit | unreachable => rfl
      | branch cond t e =>
        simp only [ih, map_eq_pure_bind, bind_assoc, pure_bind]
      | jump target => simp only [ih, map_eq_pure_bind, bind_assoc, pure_bind]

/-- A traced run is a run. -/
theorem run_eq_traced (call : Caller) (f : Function) (args : List Word) :
    run call f args = Prod.fst <$> traced call f args := by
  simp only [run, traced, map_bind, runBlocks_eq_traced]

end World

/-! ### The blocks of a look-up function -/

/-- Does the instruction ask the run-time system? -/
def Instr.asksRuntime : Instr → Bool
  | .callLookup _ _ => true
  | _ => false

namespace LookupCandidate

/-- The block that compares the descriptor with that of a candidate; `v` is the first of
its variables, and `id` its number. -/
def test (c : LookupCandidate) (v : Nat) (id : BlockId) : Draft where
  id := id
  body := [.globalAddr v c.descriptor, .compareEq (v + 1) 1 v]
  terminator := some (.branch (v + 1) (id + 1) (id + 2))

/-- The block that answers for a candidate. -/
def reply (c : LookupCandidate) (v : Nat) (id : BlockId) : Draft :=
  match c.signing with
  | none =>
    { id, body := [.globalAddr (v + 2) c.implementation], terminator := some (.ret [v + 2]) }
  | some s =>
    { id, body := [.globalAddr (v + 2) c.implementation, .sign (v + 3) (v + 2) s]
      terminator := some (.ret [v + 3]) }

/-- The kinds of the variables of a candidate. -/
def kinds (c : LookupCandidate) : List Scalar :=
  match c.signing with
  | none => [.ptr, .i8, .ptr]
  | some _ => [.ptr, .i8, .ptr, .ptr]

/-- The entry that a candidate answers with, for the address of its implementation. -/
def entry (c : LookupCandidate) (a : Word) : Word :=
  match c.signing with
  | none => a
  | some s => s.sign a

end LookupCandidate

namespace LookupPlan

/-- The block that asks the run-time system. -/
def ask (typeDescriptor : String) (v : Nat) (id : BlockId) : Draft where
  id := id
  body := [.globalAddr v typeDescriptor, .callLookup (v + 1) [0, 1, v]]
  terminator := some (.ret [v + 1])

/-- The blocks for some candidates, and the block for all other descriptors. -/
def drafts (typeDescriptor : String) (v : Nat) (id : BlockId) : List LookupCandidate → List Draft
  | [] => [ask typeDescriptor v id]
  | c :: rest =>
    c.test v id :: c.reply v (id + 1) :: drafts typeDescriptor (v + c.kinds.length) (id + 2) rest

theorem length_drafts (typeDescriptor : String) (cs : List LookupCandidate) :
    ∀ v id, (drafts typeDescriptor v id cs).length = 2 * cs.length + 1 := by
  induction cs with
  | nil => exact fun _ _ => rfl
  | cons c rest ih =>
    intro v id
    rw [drafts, List.length_cons, List.length_cons, ih, List.length_cons]
    omega

/-- The kinds of the variables of a look-up function. -/
def varKinds (cs : List LookupCandidate) : List Scalar :=
  [.ptr, .ptr] ++ cs.flatMap LookupCandidate.kinds ++ [.ptr, .ptr]

/-- The function that is emitted for a plan. -/
def code (plan : LookupPlan) (symbol : String) : Function where
  name := symbol
  convention := .ordinary
  params := [⟨0, .ptr⟩, ⟨1, .ptr⟩]
  blocks := (drafts plan.typeDescriptor 2 0 plan.candidates).map Draft.finish
  varKinds := varKinds plan.candidates

end LookupPlan

/-! ### Emission -/

namespace Builder

/-- The builder positioned at the block `d`, between the blocks before and after it. -/
def placed (b : Builder) (pre : List Draft) (d : Draft) (post : List Draft) : Builder :=
  { b with drafts := pre ++ d :: post, current := pre.length }

variable {b : Builder} {pre post : List Draft} {d : Draft}

theorem draft_placed : (b.placed pre d post).draft = d := by
  simp [draft, placed]

theorem modifyDraft_placed (f : Draft → Draft) :
    (b.placed pre d post).modifyDraft f = b.placed pre (f d) post := by
  have hmodify : (pre ++ d :: post).modify pre.length f = pre ++ f d :: post := by
    induction pre with
    | nil => rfl
    | cons x rest ih => rw [List.length_cons, List.cons_append, List.modify_succ_cons, ih]; rfl
  rw [modifyDraft, placed, hmodify]
  rfl

theorem isTerminated_placed (hd : d.terminator = none) :
    ¬ (b.placed pre d post).isTerminated = true := by
  rw [isTerminated, draft_placed, hd]
  exact Bool.false_ne_true

theorem emit_placed (hd : d.terminator = none) (i : Instr) :
    emit i (b.placed pre d post)
      = .ok () (b.placed pre { d with body := d.body ++ [i] } post) := by
  rw [emit, Step.bind_of_ok Step.run_get, if_neg (isTerminated_placed hd), modifyDraft_placed]
  rfl

theorem terminate_placed (hd : d.terminator = none) (t : Terminator) :
    terminate t (b.placed pre d post)
      = .ok () (b.placed pre { d with terminator := some t } post) := by
  rw [terminate, Step.bind_of_ok Step.run_get, if_neg (isTerminated_placed hd), modifyDraft_placed]
  rfl

theorem define_placed (hd : d.terminator = none) (kind : Scalar) (instr : Var → Instr) :
    define kind instr (b.placed pre d post) = .ok b.vars
      ({ b with varKinds := b.varKinds ++ [kind] }.placed pre
        { d with body := d.body ++ [instr b.vars] } post) := by
  have hfresh : fresh kind (b.placed pre d post) = .ok b.vars
      ({ b with varKinds := b.varKinds ++ [kind] }.placed pre d post) := rfl
  rw [define, Step.bind_of_ok hfresh, Step.bind_of_ok (emit_placed hd _)]
  rfl

theorem newBlock_placed :
    newBlock (b.placed pre d post)
      = .ok (pre.length + (post.length + 1))
          (b.placed pre d (post ++ [{ id := pre.length + (post.length + 1) }])) := by
  have hrun : newBlock (b.placed pre d post) = .ok (b.placed pre d post).drafts.length
      { b.placed pre d post with
        drafts := (b.placed pre d post).drafts
          ++ [{ id := (b.placed pre d post).drafts.length }] } := rfl
  rw [hrun]
  simp [placed]

/-- Going to the next block. -/
theorem position_placed {d' : Draft} {post' : List Draft} :
    position (pre.length + 1) (b.placed pre d (d' :: post'))
      = .ok () (b.placed (pre ++ [d]) d' post') := by
  have hlt : pre.length + 1 < (b.placed pre d (d' :: post')).drafts.length := by simp [placed]
  have heq : b.placed (pre ++ [d]) d' post'
      = { b.placed pre d (d' :: post') with current := pre.length + 1 } := by
    simp [placed]
  rw [heq, position, Step.bind_of_ok Step.run_get, if_pos hlt]
  rfl

end Builder

namespace LookupPlan

open Builder

variable {b : Builder} {pre : List Draft}

/-- Trying a candidate fills two blocks and goes to a new one. -/
theorem tryCandidate_placed (c : LookupCandidate) :
    tryCandidate 1 c (b.placed pre { id := pre.length } [])
      = .ok () ({ b with varKinds := b.varKinds ++ c.kinds }.placed
          (pre ++ [c.test b.vars pre.length, c.reply b.vars (pre.length + 1)])
          { id := pre.length + 2 } []) := by
  rw [tryCandidate, Step.bind_of_ok newBlock_placed, Step.bind_of_ok newBlock_placed, globalAddr,
    Step.bind_of_ok (define_placed rfl _ _), compareEq, Step.bind_of_ok (define_placed rfl _ _),
    Step.bind_of_ok (terminate_placed rfl _)]
  simp only [List.nil_append, List.cons_append, List.length_nil, List.length_cons, Nat.zero_add]
  rw [Step.bind_of_ok position_placed, globalAddr, Step.bind_of_ok (define_placed rfl _ _)]
  have hgo : ∀ (b : Builder) (d d' d'' : Draft), position (pre.length + 2)
      (b.placed (pre ++ [d]) d' [d'']) = .ok () (b.placed (pre ++ [d, d']) d'' []) := by
    intro b d d' d''
    have hnext : position ((pre ++ [d]).length + 1) (b.placed (pre ++ [d]) d' [d''])
        = .ok () (b.placed (pre ++ [d] ++ [d']) d'' []) := position_placed
    simpa using hnext
  cases hs : c.signing with
  | none =>
    simp only [pure_bind]
    rw [Step.bind_of_ok (terminate_placed rfl _), hgo]
    simp [LookupCandidate.test, LookupCandidate.reply, LookupCandidate.kinds, hs, vars]
  | some s =>
    simp only [sign]
    rw [Step.bind_of_ok (define_placed rfl _ _), Step.bind_of_ok (terminate_placed rfl _), hgo]
    simp [LookupCandidate.test, LookupCandidate.reply, LookupCandidate.kinds, hs, vars]

/-- Trying candidates and then asking the run-time system fills the blocks in order. -/
theorem tryCandidates_placed (typeDescriptor : String) (cs : List LookupCandidate) :
    ∀ {b : Builder} {pre : List Draft},
      (do
        tryCandidates 1 cs
        let typeDescriptor ← globalAddr typeDescriptor
        let found ← callLookup [0, 1, typeDescriptor]
        terminate (.ret [found])) (b.placed pre { id := pre.length } [])
      = .ok () { b with
          drafts := pre ++ drafts typeDescriptor b.vars pre.length cs
          current := pre.length + 2 * cs.length
          varKinds := b.varKinds ++ cs.flatMap LookupCandidate.kinds ++ [.ptr, .ptr] } := by
  induction cs with
  | nil =>
    intro b pre
    simp only [tryCandidates, pure_bind]
    have hlookup : ∀ v : Var, callLookup [0, 1, v] = define .ptr (.callLookup · [0, 1, v]) :=
      fun _ => rfl
    rw [globalAddr, Step.bind_of_ok (define_placed rfl _ _), hlookup,
      Step.bind_of_ok (define_placed rfl _ _), terminate_placed rfl]
    simp [placed, drafts, ask, vars]
  | cons c rest ih =>
    intro b pre
    simp only [tryCandidates, bind_assoc]
    have hlength : pre.length + 2
        = (pre ++ [c.test b.vars pre.length, c.reply b.vars (pre.length + 1)]).length := by simp
    rw [Step.bind_of_ok (tryCandidate_placed c), hlength, ih]
    have hcurrent : pre.length + 2 + 2 * rest.length = pre.length + 2 * (rest.length + 1) := by
      omega
    simp [drafts, vars]
    exact hcurrent

/-- The function that is emitted for a plan. -/
theorem function_eq (plan : LookupPlan) (symbol : String) :
    plan.function symbol = .ok (plan.code symbol) := by
  have hparams : ∀ k : Var → Var → Build Unit,
      (do let metadata ← param .ptr; let descriptor ← param .ptr; k metadata descriptor)
        (Builder.new symbol .ordinary)
      = k 0 1 ({ Builder.new symbol .ordinary with
          params := [⟨0, .ptr⟩, ⟨1, .ptr⟩], varKinds := [.ptr, .ptr] }.placed [] { id := 0 } []) :=
    fun _ => rfl
  have hrun : plan.emit (Builder.new symbol .ordinary)
      = .ok () { Builder.new symbol .ordinary with
          params := [⟨0, .ptr⟩, ⟨1, .ptr⟩]
          drafts := drafts plan.typeDescriptor 2 0 plan.candidates
          current := 2 * plan.candidates.length
          varKinds := varKinds plan.candidates } := by
    have hblocks := fun b : Builder =>
      @tryCandidates_placed plan.typeDescriptor plan.candidates b []
    simp only [List.length_nil] at hblocks
    rw [emit, hparams, hblocks]
    simp [vars, varKinds]
  rw [function, hrun]
  rfl

/-! ### Running -/

/-- What a look-up function does: the entry that it answers with, and whether it asked the
run-time system for it. -/
def answer (typeDescriptor : String) (metadata descriptor : Word) :
    List LookupCandidate → Run (Word × Bool)
  | [] => do
    let typeDescriptor ← World.addressOf typeDescriptor
    let entry ← World.lookupClassMethod metadata descriptor typeDescriptor
    return (entry, true)
  | c :: rest => do
    let expected ← World.addressOf c.descriptor
    if descriptor = expected then
      let implementation ← World.addressOf c.implementation
      return (c.entry implementation, false)
    else answer typeDescriptor metadata descriptor rest

theorem getElem?_blocks (plan : LookupPlan) (symbol : String) {id : Nat} {d : Draft}
    (h : (drafts plan.typeDescriptor 2 0 plan.candidates)[id]? = some d) :
    (plan.code symbol).blocks[id]? = some d.finish := by
  rw [code, List.getElem?_map, h, Option.map_some]

section Running

variable {call : World.Caller} {f : Function} {metadata descriptor : Word} {r : Registers}

theorem steps_test (c : LookupCandidate) {v : Nat} (hv : 2 ≤ v) (id : BlockId)
    (hr : r.value 1 = descriptor) :
    World.steps call r (c.test v id).body = (do
      let a ← World.addressOf c.descriptor
      return (r.set v a).set (v + 1) (if descriptor = a then 1 else 0)) := by
  have hne : (1 : Var) ≠ v := by
    intro h
    subst h
    exact absurd hv (by decide)
  simp only [LookupCandidate.test, World.steps, World.step, bind_assoc, pure_bind,
    Registers.value_set, if_true, if_neg hne, hr]

theorem steps_reply (call : World.Caller) (r : Registers) (c : LookupCandidate) (v : Nat)
    (id : BlockId) :
    ∃ result, (c.reply v id).terminator = some (.ret [result]) ∧
      (c.reply v id).body.any Instr.asksRuntime = false ∧ ∃ after : Word → Registers,
        World.steps call r (c.reply v id).body = (do
          let a ← World.addressOf c.implementation
          return after a) ∧ ∀ a, (after a).value result = c.entry a := by
  unfold LookupCandidate.reply LookupCandidate.entry
  cases c.signing with
  | none =>
    refine ⟨v + 2, rfl, rfl, fun a => r.set (v + 2) a, ?_, fun a => if_pos rfl⟩
    simp only [World.steps, World.step, bind_assoc, pure_bind]
  | some s =>
    refine ⟨v + 3, rfl, rfl, fun a => (r.set (v + 2) a).set (v + 3) (s.sign a), ?_,
      fun a => if_pos rfl⟩
    simp only [World.steps, World.step, bind_assoc, pure_bind, Registers.value_set, if_true]

theorem steps_ask (typeDescriptor : String) {v : Nat} (hv : 2 ≤ v) (id : BlockId)
    (hr₀ : r.value 0 = metadata) (hr₁ : r.value 1 = descriptor) :
    World.steps call r (ask typeDescriptor v id).body = (do
      let a ← World.addressOf typeDescriptor
      let entry ← World.lookupClassMethod metadata descriptor a
      return (r.set v a).set (v + 1) entry) := by
  have hne₀ : (0 : Var) ≠ v := by
    intro h
    subst h
    exact absurd hv (by decide)
  have hne₁ : (1 : Var) ≠ v := by
    intro h
    subst h
    exact absurd hv (by decide)
  simp only [ask, World.steps, World.step, bind_assoc, pure_bind, Registers.all, List.map_cons,
    List.map_nil, Registers.value_set, if_true, if_neg hne₀, if_neg hne₁, hr₀, hr₁]

/-- From the block of some candidates on, the code does what `LookupPlan.answer` does. -/
theorem matches_tracedBlocks (typeDescriptor : String) (cs : List LookupCandidate) :
    ∀ {v id count : Nat} {r : Registers} {w : World}, 2 ≤ v → 2 * cs.length + 1 ≤ count →
      (∀ j d, (drafts typeDescriptor v id cs)[j]? = some d →
        f.blocks[id + j]? = some d.finish) →
      r.value 0 = metadata → r.value 1 = descriptor →
      Step.Matches (World.tracedBlocks call f count id r)
        (answer typeDescriptor metadata descriptor cs) w fun a run =>
          run.1 = [a.1] ∧ run.2.any Instr.asksRuntime = a.2 := by
  induction cs with
  | nil =>
    intro v id count r w hv hcount hblocks hr₀ hr₁
    obtain ⟨count, rfl⟩ := Nat.exists_eq_add_of_le' hcount
    have hblock := hblocks 0 _ rfl
    rw [Nat.add_zero] at hblock
    simp only [List.length_nil, Nat.mul_zero, World.tracedBlocks, hblock, answer]
    rw [show (ask typeDescriptor v id).finish.body = (ask typeDescriptor v id).body from rfl,
      steps_ask typeDescriptor hv id hr₀ hr₁]
    simp only [bind_assoc, pure_bind]
    refine (Step.Matches.refl _ _).bind fun a a' w₁ _ ha => ?_
    subst ha
    refine (Step.Matches.refl _ _).bind fun entry entry' w₂ _ hentry => ?_
    subst hentry
    refine Step.matches_pure ⟨?_, rfl⟩
    simp [Registers.all]
  | cons c rest ih =>
    intro v id count r w hv hcount hblocks hr₀ hr₁
    rw [List.length_cons] at hcount
    obtain ⟨count, rfl⟩ : ∃ k, count = k + 1 + 1 := ⟨count - 2, by omega⟩
    have htest := hblocks 0 _ rfl
    have hreply := hblocks 1 _ rfl
    rw [Nat.add_zero] at htest
    rw [World.tracedBlocks, htest, answer]
    simp only
    rw [show (c.test v id).finish.body = (c.test v id).body from rfl, steps_test c hv id hr₁]
    rw [show (c.test v id).finish.terminator = .branch (v + 1) (id + 1) (id + 2) from rfl]
    simp only [bind_assoc, pure_bind]
    refine (Step.Matches.refl _ _).bind fun a a' w₁ _ ha => ?_
    subst ha
    by_cases heq : descriptor = a'
    · -- the candidate's own descriptor
      obtain ⟨result, hterm, hasks, after, hsteps, hresult⟩ :=
        steps_reply call ((r.set v a').set (v + 1) 1) c v (id + 1)
      have hcond : ((r.set v a').set (v + 1) 1).value (v + 1) ≠ 0 := by
        rw [Registers.value_set, if_pos rfl]
        decide
      have hret : (c.reply v (id + 1)).finish.terminator = .ret [result] := by
        rw [Draft.finish, hterm]
        rfl
      rw [if_pos heq, if_pos heq, if_pos hcond, World.tracedBlocks, hreply]
      simp only [hret]
      rw [show (c.reply v (id + 1)).finish.body = (c.reply v (id + 1)).body from rfl, hsteps]
      simp only [bind_assoc, pure_bind]
      refine (Step.Matches.refl _ _).bind fun i i' w₂ _ hi => ?_
      subst hi
      refine Step.matches_pure ⟨?_, ?_⟩
      · simp only [Registers.all, List.map_cons, List.map_nil, hresult]
      · rw [List.any_append, hasks]
        rfl
    · -- some other descriptor
      have hcond : ¬ ((r.set v a').set (v + 1) 0).value (v + 1) ≠ 0 := by
        rw [Registers.value_set, if_pos rfl]
        exact fun h => h rfl
      rw [if_neg heq, if_neg heq, if_neg hcond, ← bind_pure (answer typeDescriptor _ _ rest)]
      have hkept : ∀ u : Nat, u < 2 → ((r.set v a').set (v + 1) 0).value u = r.value u := by
        intro u hu
        have h₁ : u ≠ v + 1 := by omega
        have h₂ : u ≠ v := by omega
        exact (if_neg h₁).trans (if_neg h₂)
      refine (ih (v := v + c.kinds.length) (Nat.le_trans hv (Nat.le_add_right _ _)) (by omega)
        (fun j d hd => ?_) ((hkept 0 (by decide)).trans hr₀) ((hkept 1 (by decide)).trans hr₁)).bind
        fun _ run w₂ _ hrun => Step.matches_pure ⟨hrun.1, ?_⟩
      · have hblock := hblocks (j + 2) d hd
        rwa [Nat.add_comm j 2, ← Nat.add_assoc] at hblock
      · rw [List.any_append, hrun.2]
        rfl

/-- A look-up function does what `LookupPlan.answer` does, faults included. -/
theorem traced_function (plan : LookupPlan) (symbol : String) (metadata descriptor : Word)
    (w : World) :
    Step.Matches (World.traced call (plan.code symbol) [metadata, descriptor])
      (answer plan.typeDescriptor metadata descriptor plan.candidates) w fun a run =>
        run.1 = [a.1] ∧ run.2.any Instr.asksRuntime = a.2 := by
  have hlength : (plan.code symbol).blocks.length = 2 * plan.candidates.length + 1 := by
    rw [code, List.length_map, length_drafts]
  refine matches_tracedBlocks plan.typeDescriptor plan.candidates (v := 2) (Nat.le_refl _)
    (Nat.le_of_eq hlength.symm) (fun j d hd => ?_) rfl rfl
  rw [Function.entry, Nat.zero_add]
  exact getElem?_blocks plan symbol hd

theorem run_function (plan : LookupPlan) (symbol : String) (metadata descriptor : Word)
    (w : World) :
    World.run call (plan.code symbol) [metadata, descriptor] w
      = ((fun a => [a.1]) <$> answer plan.typeDescriptor metadata descriptor plan.candidates) w := by
  have h : Step.Matches (World.run call (plan.code symbol) [metadata, descriptor])
      (answer plan.typeDescriptor metadata descriptor plan.candidates) w fun a results =>
        results = [a.1] := by
    rw [World.run_eq_traced, map_eq_pure_bind,
      ← bind_pure (answer plan.typeDescriptor metadata descriptor plan.candidates)]
    exact (traced_function plan symbol metadata descriptor w).bind fun _ _ _ _ h =>
      Step.matches_pure h.1
  exact h.eq_of_map

end Running

/-- A look-up function neither stores nor calls. -/
theorem onlyReads_function (plan : LookupPlan) (symbol : String) :
    (plan.code symbol).onlyReads = true := by
  have hdrafts : ∀ (cs : List LookupCandidate) (v id : Nat),
      ∀ d ∈ drafts plan.typeDescriptor v id cs, d.body.all Instr.onlyReads = true := by
    intro cs
    induction cs with
    | nil =>
      intro v id d hd
      rw [List.mem_singleton.mp hd]
      rfl
    | cons c rest ih =>
      intro v id d hd
      rcases List.mem_cons.mp hd with rfl | hd
      · rfl
      rcases List.mem_cons.mp hd with rfl | hd
      · unfold LookupCandidate.reply
        cases c.signing with
        | none => rfl
        | some s => rfl
      · exact ih _ _ d hd
  refine List.all_eq_true.mpr fun i hi => ?_
  obtain ⟨block, hblock, hi⟩ := List.mem_flatMap.mp hi
  obtain ⟨d, hd, rfl⟩ := List.mem_map.mp hblock
  exact List.all_eq_true.mp (hdrafts _ _ _ d hd) i hi

end LookupPlan

end Dispatch
