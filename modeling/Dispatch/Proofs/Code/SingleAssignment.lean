import Dispatch.Proofs.Code.Straight

/-!
# Single assignment

A builder can be asked for anything at any time, and goes on after a request that it refused.
It makes the variables of an instruction before it knows whether the instruction can be
added, so a refused request may leave variables behind; but it never makes a variable twice.
Hence whatever it was asked for, in the function in the end every variable is defined at most
once, with the kind that was asked for.

## Main definitions

* `Function.definitions` — the variables that a function defines.
* `Builder.Request`, `Builder.after` — requests, and what they make of a builder.
* `Builder.Answers`, `Builder.Refuses` — what one request does.
* `Builder.Later` — what remains of a builder; `Builder.Sound` — the invariant.
* `Builder.SingleAssignment` — what holds of the function in the end.

## Main results

* `Builder.ends_serve` — every request is answered or refused.
* `Builder.sound_serve`, `Builder.later_serve` — one request; `Sound.after`, `Sound.later_after`
  — all of them.
* `Builder.singleAssignment` — the function that any requests build.
-/

namespace Dispatch

open Registers

/-- The variables that a function defines: its parameters, and what its instructions write. -/
def Function.definitions (f : Function) : List Var :=
  f.params.map Param.var ++ f.instructions.flatMap Instr.defs

/-- A draft at a later time: it has more instructions, unless it was terminated before. -/
def Draft.Later (d d' : Draft) : Prop :=
  d.body <+: d'.body ∧ (d.terminator.isSome = true → d' = d)

theorem Draft.Later.refl (d : Draft) : d.Later d := ⟨List.prefix_refl _, fun _ => rfl⟩

theorem Draft.Later.trans {d d' d'' : Draft} (h : d.Later d') (h' : d'.Later d'') :
    d.Later d'' := by
  refine ⟨h.1.trans h'.1, fun hd => ?_⟩
  obtain rfl := h.2 hd
  exact h'.2 hd

namespace Builder

/-! ### Requests -/

/-- What a builder can be asked for. -/
inductive Request where
  | newBlock
  | position (block : BlockId)
  | fresh (kind : Scalar)
  | param (kind : Scalar)
  | const (kind : Scalar) (value : Word)
  | globalAddr (symbol : String)
  | load (kind : Scalar) (addr : Var) (offset : Nat)
  | store (value addr : Var) (offset : Nat)
  | loadTake (kinds : List Scalar) (addr : Var)
  | stackAlloc (bytes : Nat)
  | fromNative (type : TypeId) (kinds : List Scalar) (srcs : List Var)
  | toNative (type : TypeId) (kinds : List Scalar) (srcs : List Var)
  | heapMetadata (object : Var)
  | witnessMethod (table : Var) (index : Nat)
  | tableMethod (metadata : Var) (slot : Slot)
  | authenticate (value : Var) (signing : Signing)
  | sign (value : Var) (signing : Signing)
  | compareEq (lhs rhs : Var)
  | asyncEntry (context : Var) (bytes : Nat)
  | call (callee : Var) (convention : Convention) (args : List Var) (kinds : List Scalar)
  | callLookup (args : List Var)
  | terminate (terminator : Terminator)
  deriving DecidableEq, Repr

/-- An instruction to be added: the kinds of the variables that are made for it, and the
instruction that defines them. -/
structure Emission where
  kinds : List Scalar
  instr : List Var → Instr
  defs : ∀ vs, vs.length = kinds.length → (instr vs).defs = vs

namespace Emission

/-- An instruction that defines no variable. -/
def bare (i : Instr) (h : i.defs = [] := by rfl) : Emission where
  kinds := []
  instr _ := i
  defs vs hvs := by rw [h, List.eq_nil_of_length_eq_zero hvs]

/-- An instruction that defines one variable. -/
def single (kind : Scalar) (instr : Var → Instr)
    (h : ∀ dst, (instr dst).defs = [dst] := by exact fun _ => rfl) : Emission where
  kinds := [kind]
  instr vs := instr (vs.headD 0)
  defs vs hvs := by
    obtain ⟨dst, rfl⟩ := List.length_eq_one_iff.mp hvs
    exact h dst

/-- An instruction that defines variables of the given kinds. -/
def several (kinds : List Scalar) (instr : List Var → Instr)
    (h : ∀ dsts, (instr dsts).defs = dsts := by exact fun _ => rfl) : Emission where
  kinds := kinds
  instr := instr
  defs dsts _ := h dsts

end Emission

namespace Request

/-- Serve a request; the answer is the variables that it makes. -/
def serve : Request → Build (List Var)
  | newBlock => do
    let _ ← Builder.newBlock
    return []
  | position block => do
    Builder.position block
    return []
  | fresh kind => do return [← Builder.fresh kind]
  | param kind => do return [← Builder.param kind]
  | const kind value => do return [← Builder.const kind value]
  | globalAddr symbol => do return [← Builder.globalAddr symbol]
  | load kind addr offset => do return [← Builder.load kind addr offset]
  | store value addr offset => do
    Builder.store value addr offset
    return []
  | loadTake kinds addr => Builder.loadTake kinds addr
  | stackAlloc bytes => do return [← Builder.stackAlloc bytes]
  | fromNative type kinds srcs => Builder.fromNative type kinds srcs
  | toNative type kinds srcs => Builder.toNative type kinds srcs
  | heapMetadata object => do return [← Builder.heapMetadata object]
  | witnessMethod table index => do return [← Builder.witnessMethod table index]
  | tableMethod metadata slot => do return [← Builder.tableMethod metadata slot]
  | authenticate value signing => do return [← Builder.authenticate value signing]
  | sign value signing => do return [← Builder.sign value signing]
  | compareEq lhs rhs => do return [← Builder.compareEq lhs rhs]
  | asyncEntry context bytes => do
    Builder.asyncEntry context bytes
    return []
  | call callee convention args kinds => Builder.call callee convention args kinds
  | callLookup args => do return [← Builder.callLookup args]
  | terminate terminator => do
    Builder.terminate terminator
    return []

/-- The instruction that a request asks for. -/
def emission? : Request → Option Emission
  | const kind value => some (.single kind (.const · value))
  | globalAddr symbol => some (.single .ptr (.globalAddr · symbol))
  | load kind addr offset => some (.single kind (.load · addr offset))
  | store value addr offset => some (.bare (.store value addr offset))
  | loadTake kinds addr => some (.several kinds (.loadTake · addr))
  | stackAlloc bytes => some (.single .ptr (.stackAlloc · bytes))
  | fromNative type kinds srcs => some (.several kinds (.fromNative type · srcs))
  | toNative type kinds srcs => some (.several kinds (.toNative type · srcs))
  | heapMetadata object => some (.single .ptr (.heapMetadata · object))
  | witnessMethod table index => some (.single .ptr (.witnessMethod · table index))
  | tableMethod metadata slot => some (.single .ptr (.tableMethod · metadata slot))
  | authenticate value signing => some (.single .ptr (.authenticate · value signing))
  | sign value signing => some (.single .ptr (.sign · value signing))
  | compareEq lhs rhs => some (.single .i8 (.compareEq · lhs rhs))
  | asyncEntry context bytes => some (.bare (.asyncEntry context bytes))
  | call callee convention args kinds => some (.several kinds (.call callee convention args ·))
  | callLookup args =>
    if args.length = 3 then some (.single .ptr (.callLookup · args)) else none
  | newBlock => none
  | position _ => none
  | fresh _ => none
  | param _ => none
  | terminate _ => none

/-- The kinds of the variables that a request asks for. -/
def kinds : Request → List Scalar
  | fresh kind => [kind]
  | param kind => [kind]
  | q => (q.emission?.map Emission.kinds).getD []

/-- A builder refuses to go where there is no block, to add anything to a terminated block,
and to call the look-up routine with a wrong number of arguments. -/
def Refused (b : Builder) : Request → Prop
  | newBlock => False
  | position block => b.drafts.length ≤ block
  | fresh _ => False
  | param _ => False
  | callLookup args => args.length ≠ 3 ∨ b.isTerminated = true
  | _ => b.isTerminated = true

end Request

/-- The builder after some requests, one after the other; some may have been refused. -/
def after (b : Builder) (requests : List Request) : Builder :=
  requests.foldl (fun b q => q.serve.final b) b

/-- When the requests are made from `b` on, this one is made of `b'`. -/
def Meets (b : Builder) (requests : List Request) (b' : Builder) (q : Request) : Prop :=
  ∃ before rest, requests = before ++ q :: rest ∧ b.after before = b'

variable {b b' b'' : Builder} {q : Request} {e : Emission} {kinds : List Scalar}
  {requests before rest : List Request} {vs : List Var} {v : Var} {k : BlockId}

/-! ### One request -/

/-- How a builder answers a request. -/
inductive Answers (b : Builder) : Request → List Var → Builder → Prop where
  | newBlock : Answers b .newBlock [] { b with drafts := b.drafts ++ [{ id := b.drafts.length }] }
  | position {block : BlockId} (h : block < b.drafts.length) :
    Answers b (.position block) [] { b with current := block }
  | fresh {kind : Scalar} : Answers b (.fresh kind) [b.vars] (b.grow [kind] [])
  | param {kind : Scalar} : Answers b (.param kind) [b.vars] (b.withParams [kind])
  | emitted {q : Request} {e : Emission} (hq : q.emission? = some e)
    (hopen : b.isTerminated = false) :
    Answers b q (List.range' b.vars e.kinds.length)
      (b.grow e.kinds [e.instr (List.range' b.vars e.kinds.length)])
  | terminated {terminator : Terminator} (hopen : b.isTerminated = false) :
    Answers b (.terminate terminator) [] (b.close terminator)

/-- How a builder refuses a request: it gives up at once, or after making variables. -/
inductive Refuses (b : Builder) : Request → Fault → Builder → Prop where
  | position {block : BlockId} (h : b.drafts.length ≤ block) :
    Refuses b (.position block) (.trap (.blockRange block b.drafts.length)) b
  | emission {q : Request} {e : Emission} (hq : q.emission? = some e)
    (hclosed : b.isTerminated = true) :
    Refuses b q (.trap (.emitAfterTerminator b.current)) (b.grow e.kinds [])
  | arity {args : List Var} (h : args.length ≠ 3) :
    Refuses b (.callLookup args) (.trap (.runtimeArity args.length)) b
  | terminate {terminator : Terminator} (hclosed : b.isTerminated = true) :
    Refuses b (.terminate terminator) (.trap (.secondTerminator b.current)) b

theorem emit_eq_defineAll (i : Instr) (h : i.defs = []) :
    (do emit i; return []) = defineAll (Emission.bare i h).kinds (Emission.bare i h).instr := rfl

theorem define_eq_defineAll (kind : Scalar) (instr : Var → Instr)
    (h : ∀ dst, (instr dst).defs = [dst]) :
    (do return [← define kind instr]) =
      defineAll (Emission.single kind instr h).kinds (Emission.single kind instr h).instr := by
  simp only [define, defineAll, freshAll, Emission.single, List.mapM_cons, List.mapM_nil,
    bind_assoc, pure_bind, List.headD_cons]

/-- All instructions are added in one way. -/
theorem Request.serve_of_emission (hq : q.emission? = some e) :
    q.serve = defineAll e.kinds e.instr := by
  cases q with
  | newBlock | position _ | fresh _ | param _ | terminate _ => cases hq
  | callLookup args =>
    rw [emission?] at hq
    split at hq
    · next h =>
      cases hq
      rw [serve, Builder.callLookup, if_pos h]
      exact define_eq_defineAll ..
    · cases hq
  | store value addr offset =>
    cases hq
    exact emit_eq_defineAll ..
  | asyncEntry context bytes =>
    cases hq
    exact emit_eq_defineAll ..
  | loadTake _ _ | fromNative _ _ _ | toNative _ _ _ | call _ _ _ _ =>
    cases hq
    rfl
  | _ =>
    cases hq
    exact define_eq_defineAll ..

theorem Request.kinds_of_emission (hq : q.emission? = some e) : q.kinds = e.kinds := by
  cases q with
  | fresh | param => cases hq
  | _ => simp only [kinds, hq, Option.map_some, Option.getD_some]

theorem grow_eq (b : Builder) (kinds : List Scalar) :
    b.grow kinds [] = { b with varKinds := b.varKinds ++ kinds } := by
  rw [grow, modifyDraft_nil]

theorem isTerminated_grow (b : Builder) (kinds : List Scalar) :
    (b.grow kinds []).isTerminated = b.isTerminated := by
  rw [grow_eq]
  rfl

/-- Variables are made first, and then the block must be open. -/
theorem ends_defineAll (hb : b.current < b.drafts.length) (kinds : List Scalar)
    (instr : List Var → Instr) :
    Step.Ends (defineAll kinds instr) b
      (fun vs b' => b.isTerminated = false ∧ vs = List.range' b.vars kinds.length ∧
        b' = b.grow kinds [instr (List.range' b.vars kinds.length)])
      fun fault b' => b.isTerminated = true ∧ fault = .trap (.emitAfterTerminator b.current) ∧
        b' = b.grow kinds [] := by
  cases hopen : b.isTerminated with
  | false => exact Step.ends_of_ok (run_defineAll ⟨hb, hopen⟩ kinds instr) ⟨rfl, rfl, rfl⟩
  | true =>
    rw [defineAll, Step.ends_bind]
    refine Step.ends_of_ok (run_freshAll kinds) ?_
    rw [emit, bind_assoc, Step.ends_bind, Step.ends_get, isTerminated_grow, hopen]
    exact ⟨rfl, rfl, rfl⟩

/-- A builder that is at a block answers or refuses every request. -/
theorem ends_serve (hb : b.current < b.drafts.length) (q : Request) :
    Step.Ends q.serve b (Answers b q) (Refuses b q) := by
  cases hq : q.emission? with
  | some e =>
    rw [Request.serve_of_emission hq]
    refine (ends_defineAll hb e.kinds e.instr).imp ?_ ?_
    · rintro _ _ ⟨hopen, rfl, rfl⟩
      exact .emitted hq hopen
    · rintro _ _ ⟨hclosed, rfl, rfl⟩
      exact .emission hq hclosed
  | none =>
    cases q with
    | newBlock => exact .newBlock
    | fresh kind => exact Step.ends_bind.mpr (Step.ends_of_ok (run_fresh kind) .fresh)
    | param kind =>
      have hrun : Builder.param kind b = .ok b.vars (b.withParams [kind]) := rfl
      exact Step.ends_bind.mpr (Step.ends_of_ok hrun .param)
    | position block =>
      rw [Request.serve, position, bind_assoc, Step.ends_bind, Step.ends_get]
      split
      · next h => exact .position h
      · next h => exact .position (Nat.le_of_not_lt h)
    | callLookup args =>
      have hargs : args.length ≠ 3 := by
        intro h
        rw [Request.emission?, if_pos h] at hq
        cases hq
      rw [Request.serve, callLookup, if_neg hargs]
      exact .arity hargs
    | terminate terminator =>
      rw [Request.serve, terminate, bind_assoc, Step.ends_bind, Step.ends_get]
      cases hopen : b.isTerminated with
      | false => exact .terminated hopen
      | true => exact .terminate hopen
    | _ => cases hq

/-- Whatever is answered, new variables of the kinds that were asked for. -/
theorem Answers.made (h : Answers b q vs b') :
    vs = List.range' b.vars q.kinds.length ∧ b'.varKinds = b.varKinds ++ q.kinds := by
  cases h with
  | newBlock => exact ⟨rfl, (List.append_nil _).symm⟩
  | position => exact ⟨rfl, (List.append_nil _).symm⟩
  | fresh => exact ⟨rfl, rfl⟩
  | param => exact ⟨rfl, rfl⟩
  | emitted hq =>
    rw [Request.kinds_of_emission hq]
    exact ⟨rfl, rfl⟩
  | terminated => exact ⟨rfl, (List.append_nil _).symm⟩

/-- Whatever is refused, nothing but new variables is left of it. -/
theorem Refuses.exists_eq {fault : Fault} (h : Refuses b q fault b') :
    ∃ kinds, b' = { b with varKinds := b.varKinds ++ kinds } := by
  cases h with
  | emission => exact ⟨_, grow_eq ..⟩
  | _ => exact ⟨[], by rw [List.append_nil]⟩

theorem Request.refused_of_emission (hq : q.emission? = some e) :
    q.Refused b ↔ b.isTerminated = true := by
  cases q with
  | newBlock | position | fresh | param | terminate => cases hq
  | callLookup args =>
    have hargs : args.length = 3 := by
      by_contra h
      rw [emission?, if_neg h] at hq
      cases hq
    rw [Refused, hargs, ne_self_iff_false, false_or]
  | _ => rfl

theorem Answers.not_refused (h : Answers b q vs b') : ¬ q.Refused b := by
  cases h with
  | newBlock => exact not_false
  | position h => exact Nat.not_le_of_lt h
  | fresh => exact not_false
  | param => exact not_false
  | emitted hq hopen =>
    rw [Request.refused_of_emission hq, hopen]
    exact Bool.false_ne_true
  | terminated hopen => exact fun hclosed => Bool.false_ne_true (hopen.symm.trans hclosed)

theorem Refuses.refused {fault : Fault} (h : Refuses b q fault b') : q.Refused b := by
  cases h with
  | position h => exact h
  | emission hq hclosed => exact (Request.refused_of_emission hq).mpr hclosed
  | arity h => exact .inl h
  | terminate hclosed => exact hclosed

theorem Answers.of_emission (h : Answers b q vs b') (hq : q.emission? = some e) :
    b' = b.grow e.kinds [e.instr vs] ∧ b.isTerminated = false := by
  cases h with
  | newBlock | position | fresh | param | terminated => cases hq
  | emitted hq' hopen =>
    cases hq.symm.trans hq'
    exact ⟨rfl, hopen⟩

/-! ### What is defined -/

/-- The variables that are defined so far. -/
def definitions (b : Builder) : List Var :=
  b.params.map Param.var ++ b.drafts.flatMap fun d => d.body.flatMap Instr.defs

theorem definitions_finish (b : Builder) : b.finish.definitions = b.definitions := by
  have hbodies : b.finish.blocks.flatMap Block.body = b.drafts.flatMap Draft.body :=
    List.flatMap_map Draft.finish Block.body b.drafts
  rw [Function.definitions, Function.instructions, hbodies, List.flatMap_assoc, definitions]
  rfl

/-- A draft in the middle that defines more. -/
theorem perm_flatMap_modify {α β : Type} {g : α → List β} {f : α → α} {more : List β}
    (hf : ∀ a, g (f a) = g a ++ more) {l : List α} {n : Nat} (hn : n < l.length) :
    ((l.modify n f).flatMap g).Perm (l.flatMap g ++ more) := by
  induction l generalizing n with
  | nil => cases hn
  | cons a rest ih =>
    cases n with
    | zero =>
      rw [List.modify_zero_cons, List.flatMap_cons, List.flatMap_cons, hf, List.append_assoc,
        List.append_assoc]
      exact List.perm_append_comm.append_left _
    | succ n =>
      rw [List.modify_succ_cons, List.flatMap_cons, List.flatMap_cons, List.append_assoc]
      exact (ih (Nat.lt_of_succ_lt_succ hn)).append_left _

/-- An answered request defines the variables that it makes, or none. -/
theorem Answers.exists_definitions (hb : b.current < b.drafts.length) (h : Answers b q vs b') :
    ∃ more, more.Sublist vs ∧ b'.definitions.Perm (b.definitions ++ more) := by
  cases h with
  | newBlock =>
    refine ⟨[], .refl [], .of_eq ?_⟩
    rw [definitions, List.flatMap_append, List.flatMap_singleton, List.flatMap_nil,
      List.append_nil, List.append_nil]
    rfl
  | position => exact ⟨[], .refl [], .of_eq (List.append_nil _).symm⟩
  | fresh =>
    refine ⟨[], List.nil_sublist _, .of_eq ?_⟩
    rw [grow_eq, List.append_nil]
    rfl
  | param =>
    refine ⟨_, .refl _, ?_⟩
    rw [definitions, definitions, withParams, List.map_append, List.append_assoc, List.append_assoc]
    exact List.perm_append_comm.append_left _
  | @emitted q e hq hopen =>
    refine ⟨_, .refl _, ?_⟩
    rw [definitions, definitions, List.append_assoc]
    refine (perm_flatMap_modify (fun d => ?_) hb).append_left _
    rw [List.flatMap_append, List.flatMap_singleton, e.defs _ List.length_range']
  | terminated =>
    refine ⟨_, .refl _, ?_⟩
    rw [definitions, definitions, List.append_assoc]
    refine (perm_flatMap_modify (fun d => ?_) hb).append_left _
    exact (List.append_nil _).symm

/-- What is defined by an answered request and was not before is part of the answer. -/
theorem Answers.of_definitions (hb : b.current < b.drafts.length) (h : Answers b q vs b')
    (hv : v ∈ b'.definitions) (hnot : v ∉ b.definitions) : v ∈ vs := by
  obtain ⟨more, hmore, hperm⟩ := h.exists_definitions hb
  exact hmore.subset ((List.mem_append.mp (hperm.mem_iff.mp hv)).resolve_left hnot)

theorem Refuses.definitions_eq {fault : Fault} (h : Refuses b q fault b') :
    b'.definitions = b.definitions := by
  obtain ⟨kinds, rfl⟩ := h.exists_eq
  rfl

/-! ### What remains -/

/-- A builder at a later time. -/
structure Later (b b' : Builder) : Prop where
  kinds : b.varKinds <+: b'.varKinds
  drafts : ∀ (k : Nat) (d : Draft), b.drafts[k]? = some d →
    ∃ d', b'.drafts[k]? = some d' ∧ d.Later d'
  /-- Nothing that was made before is defined later. -/
  definitions : ∀ v ∈ b'.definitions, v < b.vars → v ∈ b.definitions

theorem Later.refl (b : Builder) : b.Later b :=
  ⟨List.prefix_refl _, fun _ d hd => ⟨d, hd, .refl d⟩, fun _ hv _ => hv⟩

theorem Later.vars_le (h : b.Later b') : b.vars ≤ b'.vars := h.kinds.length_le

theorem Later.trans (h : b.Later b') (h' : b'.Later b'') : b.Later b'' where
  kinds := h.kinds.trans h'.kinds
  drafts k d hd := by
    obtain ⟨d', hd', hlater⟩ := h.drafts k d hd
    obtain ⟨d'', hd'', hlater'⟩ := h'.drafts k d' hd'
    exact ⟨d'', hd'', hlater.trans hlater'⟩
  definitions v hv hlt :=
    h.definitions v (h'.definitions v hv (Nat.lt_of_lt_of_le hlt h.vars_le)) hlt

/-- A builder that is at a block, in which blocks are numbered in order and every variable is
defined at most once. -/
structure Sound (b : Builder) : Prop where
  current_lt : b.current < b.drafts.length
  /-- Every block has the number of its place. -/
  numbered : b.drafts.map Draft.id = List.range b.drafts.length
  nodup : b.definitions.Nodup
  below : Below b.vars b.definitions
  params : HaveKinds b.varKinds (b.params.map Param.var) (b.params.map Param.kind)

theorem sound_new (name : String) (convention : Convention) : (new name convention).Sound :=
  ⟨Nat.one_pos, rfl, List.nodup_nil, below_nil 0, haveKinds_nil⟩

theorem Sound.id_eq (hb : b.Sound) {d : Draft} (hd : b.drafts[k]? = some d) : d.id = k := by
  have hid : (b.drafts.map Draft.id)[k]? = some d.id := by rw [List.getElem?_map, hd]; rfl
  rw [hb.numbered, List.getElem?_range (List.getElem?_eq_some_iff.mp hd).1] at hid
  exact (Option.some.inj hid).symm

/-- A change that leaves the numbers of blocks alone. -/
theorem numbered_modifyDraft {f : Draft → Draft} (hf : ∀ d, (f d).id = d.id)
    (h : b.drafts.map Draft.id = List.range b.drafts.length) :
    (b.modifyDraft f).drafts.map Draft.id = List.range (b.modifyDraft f).drafts.length := by
  have hids : (b.modifyDraft f).drafts.map Draft.id = b.drafts.map Draft.id := by
    apply List.ext_getElem?
    intro k
    rw [modifyDraft, List.getElem?_map, List.getElem?_modify, List.getElem?_map]
    cases b.drafts[k]? with
    | none => rfl
    | some d =>
      by_cases hk : b.current = k <;> simp [hk, hf]
  rw [hids, h, modifyDraft, List.length_modify]

theorem getElem?_modifyDraft {f : Draft → Draft} {d' : Draft} :
    (b.modifyDraft f).drafts[k]? = some d' ↔
      ∃ d, b.drafts[k]? = some d ∧ (if b.current = k then f d else d) = d' := by
  rw [modifyDraft, List.getElem?_modify, Option.map_eq_map, Option.map_eq_some_iff]

theorem getElem?_current (hb : b.current < b.drafts.length) {f : Draft → Draft} :
    (b.modifyDraft f).drafts[b.current]? = some (f b.draft) := by
  refine getElem?_modifyDraft.mpr ⟨b.draft, ?_, if_pos rfl⟩
  rw [draft, List.getElem?_eq_getElem hb, Option.getD_some]

/-- Only an open draft is changed. -/
theorem later_modifyDraft {f : Draft → Draft} (hopen : b.isTerminated = false)
    (hf : ∀ d, d.body <+: (f d).body) {d : Draft} (hd : b.drafts[k]? = some d) :
    ∃ d', (b.modifyDraft f).drafts[k]? = some d' ∧ d.Later d' := by
  refine ⟨_, getElem?_modifyDraft.mpr ⟨d, hd, rfl⟩, ?_⟩
  split
  · next hcurrent =>
    subst hcurrent
    refine ⟨hf d, fun hterminated => ?_⟩
    rw [isTerminated, draft, hd, Option.getD_some, hterminated] at hopen
    cases hopen
  · exact .refl d

theorem Answers.drafts (h : Answers b q vs b') {d : Draft} (hd : b.drafts[k]? = some d) :
    ∃ d', b'.drafts[k]? = some d' ∧ d.Later d' := by
  cases h with
  | newBlock =>
    have hk := (List.getElem?_eq_some_iff.mp hd).1
    exact ⟨d, by rw [List.getElem?_append_left hk, hd], .refl d⟩
  | position => exact ⟨d, hd, .refl d⟩
  | fresh =>
    rw [grow_eq]
    exact ⟨d, hd, .refl d⟩
  | param => exact ⟨d, hd, .refl d⟩
  | emitted hq hopen => exact later_modifyDraft hopen (fun _ => List.prefix_append _ _) hd
  | terminated hopen =>
    refine later_modifyDraft hopen (fun d => ?_) hd
    exact List.prefix_refl _

/-- Only a request to terminate terminates a block, and it terminates the current one. -/
theorem Answers.of_terminated (h : Answers b q vs b') {d' : Draft} {terminator : Terminator}
    (hd' : b'.drafts[k]? = some d') (hterminator : d'.terminator = some terminator) :
    (∃ d, b.drafts[k]? = some d ∧ d.terminator = some terminator) ∨
      (b.current = k ∧ q = .terminate terminator) := by
  cases h with
  | newBlock =>
    refine .inl ⟨d', ?_, hterminator⟩
    rcases Nat.lt_or_ge k b.drafts.length with hk | hk
    · rwa [List.getElem?_append_left hk] at hd'
    · rw [List.getElem?_append_right hk] at hd'
      obtain rfl := List.mem_singleton.mp (List.mem_of_getElem? hd')
      cases hterminator
  | position => exact .inl ⟨d', hd', hterminator⟩
  | fresh =>
    rw [grow_eq] at hd'
    exact .inl ⟨d', hd', hterminator⟩
  | param => exact .inl ⟨d', hd', hterminator⟩
  | emitted =>
    obtain ⟨d, hd, rfl⟩ := getElem?_modifyDraft.mp hd'
    refine .inl ⟨d, hd, ?_⟩
    rw [← hterminator]
    split <;> rfl
  | terminated =>
    obtain ⟨d, hd, rfl⟩ := getElem?_modifyDraft.mp hd'
    split at hterminator
    · next hcurrent =>
      cases hterminator
      exact .inr ⟨hcurrent, rfl⟩
    · exact .inl ⟨d, hd, hterminator⟩

theorem Answers.later (hb : b.current < b.drafts.length) (h : Answers b q vs b') : b.Later b' where
  kinds := by
    rw [h.made.2]
    exact List.prefix_append _ _
  drafts _ _ hd := h.drafts hd
  definitions v hv hlt := by
    obtain ⟨more, hmore, hperm⟩ := h.exists_definitions hb
    refine (List.mem_append.mp (hperm.mem_iff.mp hv)).resolve_right fun hnew => ?_
    have hmade := hmore.subset hnew
    rw [h.made.1, List.mem_range'_1] at hmade
    exact Nat.not_lt_of_le hmade.1 hlt

theorem Refuses.later {fault : Fault} (h : Refuses b q fault b') : b.Later b' := by
  obtain ⟨kinds, rfl⟩ := h.exists_eq
  exact ⟨List.prefix_append _ _, fun _ d hd => ⟨d, hd, .refl d⟩, fun _ hv _ => hv⟩

theorem Answers.current_lt (hb : b.current < b.drafts.length) (h : Answers b q vs b') :
    b'.current < b'.drafts.length := by
  cases h with
  | newBlock => exact List.length_append ▸ Nat.lt_add_right _ hb
  | position hblock => exact hblock
  | fresh =>
    rw [grow_eq]
    exact hb
  | param => exact hb
  | emitted => exact (List.length_modify ..).symm ▸ hb
  | terminated => exact (List.length_modify ..).symm ▸ hb

theorem Answers.params (h : Answers b q vs b')
    (hparams : HaveKinds b.varKinds (b.params.map Param.var) (b.params.map Param.kind)) :
    HaveKinds b'.varKinds (b'.params.map Param.var) (b'.params.map Param.kind) := by
  have hold : HaveKinds b'.varKinds (b.params.map Param.var) (b.params.map Param.kind) :=
    hparams.mono (h.made.2 ▸ List.prefix_append _ _)
  cases h with
  | @param kind =>
    rw [withParams, List.map_append, List.map_append]
    exact hold.append (haveKinds_range' b.varKinds [kind])
  | fresh => rwa [grow_eq] at *
  | _ => exact hold

/-- A new block is numbered by its place, and the number of a block never changes. -/
theorem Answers.numbered (h : Answers b q vs b')
    (hb : b.drafts.map Draft.id = List.range b.drafts.length) :
    b'.drafts.map Draft.id = List.range b'.drafts.length := by
  cases h with
  | newBlock =>
    rw [List.map_append, hb, List.length_append, List.length_singleton, List.range_succ]
    rfl
  | position => exact hb
  | fresh => rwa [grow_eq]
  | param => exact hb
  | emitted => exact numbered_modifyDraft (fun _ => rfl) hb
  | terminated => exact numbered_modifyDraft (fun _ => rfl) hb

/-- New variables are beyond all that are defined. -/
theorem Answers.sound (hb : b.Sound) (h : Answers b q vs b') : b'.Sound where
  current_lt := h.current_lt hb.current_lt
  numbered := h.numbered hb.numbered
  nodup := by
    obtain ⟨more, hmore, hperm⟩ := h.exists_definitions hb.current_lt
    rw [h.made.1] at hmore
    rw [hperm.nodup_iff, List.nodup_append]
    refine ⟨hb.nodup, hmore.nodup List.nodup_range', fun v hv v' hv' => ?_⟩
    have hnew := (List.mem_range'_1.mp (hmore.subset hv')).1
    exact Nat.ne_of_lt (Nat.lt_of_lt_of_le (hb.below v hv) hnew)
  below := by
    obtain ⟨more, hmore, hperm⟩ := h.exists_definitions hb.current_lt
    obtain ⟨hvs, hkinds⟩ := h.made
    have hvars : b'.vars = b.vars + q.kinds.length := by
      rw [vars, hkinds, List.length_append, vars]
    rw [hvs] at hmore
    rw [hvars]
    refine Below.of_subset ?_ hperm.subset
    exact (hb.below.mono (Nat.le_add_right _ _)).append
      ((below_range' _ _).of_subset hmore.subset)
  params := h.params hb.params

theorem Refuses.sound {fault : Fault} (hb : b.Sound) (h : Refuses b q fault b') : b'.Sound := by
  obtain ⟨kinds, rfl⟩ := h.exists_eq
  exact ⟨hb.current_lt, hb.numbered, hb.nodup, hb.below.mono h.later.vars_le,
    hb.params.mono (List.prefix_append _ _)⟩

/-- One request. -/
theorem Sound.serve (hb : b.Sound) (q : Request) :
    (q.serve.final b).Sound ∧ b.Later (q.serve.final b) := by
  refine Step.Ends.final (P := fun b' => b'.Sound ∧ b.Later b')
    ((ends_serve hb.current_lt q).imp ?_ ?_)
  · exact fun _ _ h => ⟨h.sound hb, h.later hb.current_lt⟩
  · exact fun _ _ h => ⟨h.sound hb, h.later⟩

/-! ### All requests -/

@[simp] theorem after_nil (b : Builder) : b.after [] = b := rfl

@[simp] theorem after_cons (b : Builder) (q : Request) (requests : List Request) :
    b.after (q :: requests) = (q.serve.final b).after requests := rfl

theorem after_append (b : Builder) (before rest : List Request) :
    b.after (before ++ rest) = (b.after before).after rest := List.foldl_append

theorem Sound.after (hb : b.Sound) (requests : List Request) : (b.after requests).Sound := by
  induction requests generalizing b with
  | nil => exact hb
  | cons q rest ih => exact ih (hb.serve q).1

theorem Sound.later_after (hb : b.Sound) (requests : List Request) :
    b.Later (b.after requests) := by
  induction requests generalizing b with
  | nil => exact .refl b
  | cons q rest ih => exact (hb.serve q).2.trans (ih (hb.serve q).1)

/-- Of what holds in the end and not at the start, one of the requests is the cause. -/
theorem exists_meets {P : Builder → Prop} (hend : P (b.after requests)) (hstart : ¬ P b) :
    ∃ b' q, b.Meets requests b' q ∧ ¬ P b' ∧ P (q.serve.final b') := by
  induction requests generalizing b with
  | nil => exact absurd hend hstart
  | cons q rest ih =>
    by_cases hnext : P (q.serve.final b)
    · exact ⟨b, q, ⟨[], rest, rfl, rfl⟩, hstart, hnext⟩
    · obtain ⟨b', q', ⟨before, rest', rfl, rfl⟩, hnot, hcaused⟩ := ih hend hnext
      exact ⟨_, q', ⟨q :: before, rest', rfl, rfl⟩, hnot, hcaused⟩

theorem Sound.answers (hb : b.Sound) (hrun : q.serve b = .ok vs b') : Answers b q vs b' :=
  (ends_serve hb.current_lt q).ok hrun

theorem Sound.refuses {fault : Fault} (hb : b.Sound) (hrun : q.serve b = .error fault b') :
    Refuses b q fault b' :=
  (ends_serve hb.current_lt q).error hrun

/-- A request that is met, and everything after it. -/
theorem Sound.meets (hb : b.Sound) (h : b.Meets requests b' q) :
    b'.Sound ∧ (q.serve.final b').Later (b.after requests) := by
  obtain ⟨before, rest, rfl, rfl⟩ := h
  have hbefore := hb.after before
  refine ⟨hbefore, ?_⟩
  rw [after_append, after_cons]
  exact (hbefore.serve q).1.later_after rest

/-- Whatever comes to be defined is part of an answer. -/
theorem Sound.exists_answered (hb : b.Sound) (hv : v ∈ (b.after requests).definitions)
    (hnot : v ∉ b.definitions) :
    ∃ b' q vs b'', b.Meets requests b' q ∧ q.serve b' = .ok vs b'' ∧ v ∈ vs := by
  obtain ⟨b', q, hmeets, hnot, hcaused⟩ :=
    exists_meets (P := fun b => v ∈ b.definitions) hv hnot
  have hb' := (hb.meets hmeets).1
  cases hrun : q.serve b' with
  | ok vs b'' =>
    rw [Step.final_of_ok hrun] at hcaused
    exact ⟨b', q, vs, b'', hmeets, hrun,
      (hb'.answers hrun).of_definitions hb'.current_lt hcaused hnot⟩
  | error fault b'' =>
    rw [Step.final_of_error hrun, (hb'.refuses hrun).definitions_eq] at hcaused
    exact absurd hcaused hnot

/-- Whatever comes to be terminated, a request has terminated. -/
theorem Sound.exists_terminate (hb : b.Sound) {d : Draft} {terminator : Terminator}
    (hd : (b.after requests).drafts[k]? = some d) (hterminator : d.terminator = some terminator)
    (hnot : ¬ ∃ d, b.drafts[k]? = some d ∧ d.terminator = some terminator) :
    ∃ b' vs b'', b.Meets requests b' (.terminate terminator) ∧
      (Request.terminate terminator).serve b' = .ok vs b'' ∧ b'.current = k := by
  obtain ⟨b', q, hmeets, hnot, d', hd', hcaused⟩ := exists_meets
    (P := fun b => ∃ d, b.drafts[k]? = some d ∧ d.terminator = some terminator)
    ⟨d, hd, hterminator⟩ hnot
  have hb' := (hb.meets hmeets).1
  cases hrun : q.serve b' with
  | ok vs b'' =>
    rw [Step.final_of_ok hrun] at hd'
    obtain ⟨hcurrent, rfl⟩ := ((hb'.answers hrun).of_terminated hd' hcaused).resolve_left hnot
    exact ⟨b', vs, b'', hmeets, hrun, hcurrent⟩
  | error fault b'' =>
    rw [Step.final_of_error hrun] at hd'
    obtain ⟨kinds, rfl⟩ := (hb'.refuses hrun).exists_eq
    exact absurd ⟨d', hd', hcaused⟩ hnot

theorem not_terminated_new {name : String} {convention : Convention} {terminator : Terminator} :
    ¬ ∃ d, (new name convention).drafts[k]? = some d ∧ d.terminator = some terminator := by
  rintro ⟨d, hd, hterminator⟩
  obtain rfl := List.mem_singleton.mp (List.mem_of_getElem? hd)
  cases hterminator

/-! ### The finished function -/

theorem getElem?_finish (b : Builder) (k : Nat) :
    b.finish.blocks[k]? = (b.drafts[k]?).map Draft.finish := List.getElem?_map

/-- A draft that was terminated is a block of the function in the end. -/
theorem Later.getElem?_finish (h : b.Later b') (hb : b.Sound) {d : Draft}
    {terminator : Terminator} (hd : b.drafts[k]? = some d) (hterminator : d.terminator = some terminator) :
    b'.finish.blocks[k]? = some ⟨k, d.body, terminator⟩ := by
  obtain ⟨d', hd', -, hsame⟩ := h.drafts k d hd
  obtain rfl := hsame (by rw [hterminator, Option.isSome_some])
  rw [Builder.getElem?_finish, hd', Option.map_some, Draft.finish, hterminator, Option.getD_some,
    hb.id_eq hd]

/-- What holds of a function that the requests build, made one after the other. -/
structure SingleAssignment (b : Builder) (requests : List Request) (f : Function) : Prop where
  /-- No variable is a parameter or a destination twice. -/
  once : f.definitions.Nodup
  /-- Every answer has the kinds that were asked for, -/
  kinds : ∀ b' q vs b'', b.Meets requests b' q → q.serve b' = .ok vs b'' →
    HaveKinds f.varKinds vs q.kinds
  /-- and whatever is defined was part of an answer. -/
  answered : ∀ v ∈ f.definitions, ∃ b' q vs b'',
    b.Meets requests b' q ∧ q.serve b' = .ok vs b'' ∧ v ∈ vs
  params : HaveKinds f.varKinds (f.params.map Param.var) (f.params.map Param.kind)
  /-- Blocks are numbered by their places, -/
  numbered : ∀ (k : Nat) (block : Block), f.blocks[k]? = some block → block.id = k
  /-- and there is one to enter. -/
  entry : ∃ block, f.blocks[Function.entry]? = some block
  /-- A block that is terminated at some time is that block in the end. -/
  terminated : ∀ before rest, requests = before ++ rest →
    ∀ (k : Nat) id body terminator, (b.after before).drafts[k]? = some ⟨id, body, some terminator⟩ →
      f.blocks[k]? = some ⟨k, body, terminator⟩
  /-- A request terminates the block with the instructions that it has at the time, -/
  ended : ∀ b' terminator vs b'', b.Meets requests b' (.terminate terminator) →
    (Request.terminate terminator).serve b' = .ok vs b'' →
    f.blocks[b'.current]? = some ⟨b'.current, b'.draft.body, terminator⟩
  /-- and without such a request the block cannot be left. -/
  unended : ∀ (k : Nat) (block : Block), f.blocks[k]? = some block →
    (∀ b' terminator vs b'', b.Meets requests b' (.terminate terminator) →
      (Request.terminate terminator).serve b' = .ok vs b'' → b'.current ≠ k) →
    block.terminator = .unreachable
  /-- An instruction goes to the end of the current block. -/
  emitted : ∀ b' q e vs b'', b.Meets requests b' q → q.emission? = some e →
    q.serve b' = .ok vs b'' → ∃ block, f.blocks[b'.current]? = some block ∧
      b'.draft.body ++ [e.instr vs] <+: block.body
  /-- Only some requests are refused, -/
  refused : ∀ b' q, b.Meets requests b' q →
    ((∃ fault b'', q.serve b' = .error fault b'') ↔ q.Refused b')
  /-- and these only leave variables that nothing defines. -/
  abandoned : ∀ b' q fault b'', b.Meets requests b' q → q.serve b' = .error fault b'' →
    ∃ kinds, b'' = { b' with varKinds := b'.varKinds ++ kinds } ∧
      ∀ v, b'.vars ≤ v → v < b''.vars → v ∉ f.definitions

/-- Whatever the requests, and however many of them are refused. -/
theorem singleAssignment (name : String) (convention : Convention) (requests : List Request) :
    (new name convention).SingleAssignment requests
      ((new name convention).after requests).finish := by
  have hnew := sound_new name convention
  have hend := hnew.after requests
  exact {
    once := definitions_finish _ ▸ hend.nodup
    kinds := fun b' q vs b'' hmeets hrun => by
      obtain ⟨hb', hlater⟩ := hnew.meets hmeets
      obtain ⟨rfl, hkinds⟩ := (hb'.answers hrun).made
      rw [Step.final_of_ok hrun] at hlater
      refine HaveKinds.mono ?_ hlater.kinds
      rw [hkinds]
      exact haveKinds_range' b'.varKinds q.kinds
    answered := fun v hv => by
      rw [definitions_finish] at hv
      exact hnew.exists_answered hv List.not_mem_nil
    params := hend.params
    numbered := fun k block hblock => by
      rw [getElem?_finish] at hblock
      obtain ⟨d, hd, rfl⟩ := Option.map_eq_some_iff.mp hblock
      exact hend.id_eq hd
    entry := by
      have hpos := Nat.zero_lt_of_lt hend.current_lt
      rw [getElem?_finish, Function.entry, List.getElem?_eq_getElem hpos]
      exact ⟨_, rfl⟩
    terminated := by
      rintro before rest rfl k id body terminator hd
      rw [after_append]
      have hbefore := hnew.after before
      exact (hbefore.later_after rest).getElem?_finish hbefore hd rfl
    ended := fun b' terminator vs b'' hmeets hrun => by
      obtain ⟨hb', hlater⟩ := hnew.meets hmeets
      rw [Step.final_of_ok hrun] at hlater
      have hanswers := hb'.answers hrun
      have hsound := hanswers.sound hb'
      cases hanswers with
      | emitted hq => cases hq
      | terminated =>
        have hclosed : (b'.close terminator).drafts[b'.current]? =
            some { b'.draft with terminator := some terminator } :=
          getElem?_current hb'.current_lt
        have hblock := hlater.getElem?_finish hsound hclosed rfl
        exact hblock
    unended := fun k block hblock hnone => by
      rw [getElem?_finish] at hblock
      obtain ⟨d, hd, rfl⟩ := Option.map_eq_some_iff.mp hblock
      cases hterminator : d.terminator with
      | none => rw [Draft.finish, hterminator, Option.getD_none]
      | some terminator =>
        obtain ⟨b', vs, b'', hmeets, hrun, hcurrent⟩ :=
          hnew.exists_terminate hd hterminator not_terminated_new
        exact absurd hcurrent (hnone b' terminator vs b'' hmeets hrun)
    emitted := fun b' q e vs b'' hmeets hq hrun => by
      obtain ⟨hb', hlater⟩ := hnew.meets hmeets
      rw [Step.final_of_ok hrun] at hlater
      obtain ⟨rfl, -⟩ := (hb'.answers hrun).of_emission hq
      obtain ⟨d, hd, hbody, -⟩ := hlater.drafts _ _ (getElem?_current hb'.current_lt)
      exact ⟨_, by rw [getElem?_finish, hd, Option.map_some], hbody⟩
    refused := fun b' q hmeets => by
      have hb' := (hnew.meets hmeets).1
      constructor
      · rintro ⟨fault, b'', hrun⟩
        exact (hb'.refuses hrun).refused
      · intro hrefused
        cases hrun : q.serve b' with
        | ok vs b'' => exact absurd hrefused (hb'.answers hrun).not_refused
        | error fault b'' => exact ⟨fault, b'', rfl⟩
    abandoned := fun b' q fault b'' hmeets hrun => by
      obtain ⟨hb', hlater⟩ := hnew.meets hmeets
      rw [Step.final_of_error hrun] at hlater
      obtain ⟨kinds, rfl⟩ := (hb'.refuses hrun).exists_eq
      refine ⟨kinds, rfl, fun v hge hlt hv => ?_⟩
      rw [definitions_finish] at hv
      exact Nat.not_lt_of_le hge (hb'.below v (hlater.definitions v hv hlt)) }

/-- The constant is made a variable before it turns out that the block is terminated. -/
example :
    let f := ((new "late" .ordinary).after [.terminate (.ret []), .const .i64 7]).finish
    f.varKinds = [.i64] ∧ f.definitions = [] ∧ f.blocks = [⟨0, [], .ret []⟩] := by
  decide

end Builder

end Dispatch
