import Dispatch.Proofs.Thunk.Roles
import Dispatch.Proofs.World

/-!
# What flat thunks do

The code of an ordinary thunk or a coroutine decodes its native arguments as an
implementation would, loads the implementation from a table, and encodes the arguments
again as a caller would.  `Thunk.forwardFlat` says so as a step of the machine, and
the code of every such thunk does exactly that, faults included.

## Main definitions

* `Target.load` — the loads that get an implementation.
* `Thunk.forwardFlat` — what a flat thunk does.

## Main results

* `Thunk.function_flat` — running a flat thunk is `Thunk.forwardFlat`.
-/

namespace Dispatch

open Registers World

/-! ### Recovering arguments -/

/-- The machine passes values of the carrier's type as the carrier says. -/
def Carrier.KnownTo (c : Carrier) (w : World) : Prop :=
  ∀ schema, c.passing = .direct schema →
    w.module.layout.schema w.module.pool c.type = .ok schema ∧ schema.Packed

theorem Carrier.KnownTo.of_module {c : Carrier} {w w' : World} (h : c.KnownTo w)
    (hw : w'.module = w.module) : c.KnownTo w' := by
  intro schema hs
  rw [hw]
  exact h schema hs

theorem World.quiet_decodeOne (index : Nat) (native : List Word) (passing : Passing) :
    Quiet (decodeOne index native passing) := by
  cases passing with
  | direct schema => exact (quiet_liftM _).bind fun _ => quiet_pure _
  | indirect schema => exact (quiet_withMemory _).bind fun _ => quiet_pure _
  | address => exact quiet_pure _

theorem World.quiet_decodeAll (carriers : List Carrier) (index : Nat) (native : List Word) :
    Quiet (decodeAll index native carriers) := by
  induction carriers generalizing index native with
  | nil => exact quiet_pure _
  | cons c cs ih =>
    exact (quiet_decodeOne _ _ _).bind fun _ => (ih _ _).bind fun _ => quiet_pure _

section Emission

variable {b : Builder} {E : Prop} {call : Caller} {r : Registers} {w : World}

/-- Unpacking native words in code is decoding them. -/
theorem matches_fromNative {c : Carrier} {schema : Schema} (hc : c.passing = .direct schema)
    (hk : c.KnownTo w) {srcs : List Var} (hs : srcs.length = schema.nativeKinds.length)
    (n index : Nat) :
    Step.Matches (step call r (.fromNative c.type (List.range' n schema.components.length) srcs))
      (decodeOne index (r.all srcs) (.direct schema)) w fun arg r' =>
        Agree n r r' ∧ r'.all (List.range' n schema.components.length) = arg.words ∧
          arg.Fits (.direct schema) := by
  obtain ⟨hschema, hpacked⟩ := hk schema hc
  have hlen : (r.all srcs).length = schema.nativeKinds.length := by rw [length_all, hs]
  obtain ⟨words, hwords, hcount⟩ : ∃ words, (∀ k, schema.decode (r.all srcs) k = .ok words) ∧
      words.length = schema.components.length :=
    ⟨_, hpacked.decode hlen, hpacked.length_decode (hpacked.decode hlen 0)⟩
  obtain ⟨r', hset, hagree, hall⟩ := r.setAll_range' (n := n) hcount "map_from_native"
  have hx : decodeOne index (r.all srcs) (.direct schema) w = .ok (.value words) w := by
    simp only [decodeOne, hwords]
    rfl
  have hy : step call r (.fromNative c.type (List.range' n schema.components.length) srcs) w
      = .ok r' w := by
    simp only [step, Step.bind_of_ok Step.run_get, hschema, Attempt.onMachine,
      Step.bind_of_ok Step.run_liftM_ok, hwords, hset, Step.run_liftM_ok]
  unfold Step.Matches
  rw [hx]
  exact ⟨r', hy, hagree, hall, hcount⟩

/-- Packing components in code is encoding them. -/
theorem matches_toNative {c : Carrier} {schema : Schema} (hc : c.passing = .direct schema)
    (hk : c.KnownTo w) {srcs : List Var} (hs : srcs.length = schema.components.length) (n : Nat) :
    Step.Matches (step call r (.toNative c.type (List.range' n schema.nativeKinds.length) srcs))
      (liftM (schema.encode (r.all srcs)) : Run (List Word)) w fun native r' =>
        Agree n r r' ∧ r'.all (List.range' n schema.nativeKinds.length) = native := by
  obtain ⟨hschema, hpacked⟩ := hk schema hc
  have hlen : (r.all srcs).length = schema.components.length := by rw [length_all, hs]
  have hencode := hpacked.encode hlen
  obtain ⟨r', hset, hagree, hall⟩ :=
    r.setAll_range' (n := n) (hpacked.length_pack (r.all srcs)) "map_to_native"
  have hy : step call r (.toNative c.type (List.range' n schema.nativeKinds.length) srcs) w
      = .ok r' w := by
    simp only [step, Step.bind_of_ok Step.run_get, hschema, Attempt.onMachine,
      Step.bind_of_ok Step.run_liftM_ok, hencode, hset, Step.run_liftM_ok]
  unfold Step.Matches
  rw [hencode, Step.run_liftM_ok]
  exact ⟨r', hy, hagree, hall⟩

/-- Moving words out of memory in code is moving them. -/
theorem matches_loadTake (addr : Var) (count n : Nat) :
    Step.Matches (step call r (.loadTake (List.range' n count) addr))
      (withMemory (Memory.takeWords (r.value addr) count)) w fun words r' =>
        Agree n r r' ∧ r'.all (List.range' n count) = words ∧ words.length = count := by
  rw [step, List.length_range']
  have hpure : Step.Matches (withMemory (Memory.takeWords (r.value addr) count)
        >>= fun words => (liftM (r.setAll (List.range' n count) words "load_take") : Run Registers))
      (withMemory (Memory.takeWords (r.value addr) count) >>= pure) w fun words r' =>
        Agree n r r' ∧ r'.all (List.range' n count) = words ∧ words.length = count := by
    refine (Step.Matches.refl _ w).bind ?_
    rintro _ words w' hx rfl
    have hlen : words.length = count := by
      have hends : Step.Ends (withMemory (Memory.takeWords (r.value addr) count)) w
          (fun (words : List Word) _ => words.length = count) fun _ _ => True := by
        rw [ends_withMemory]
        have htake : Step.Ends (Memory.takeWords (r.value addr) count) w.memory
            (fun words m' => words.length = count ∧ w.memory.Evolves (fun _ => True) m')
            fun _ m' => w.memory.Evolves (fun _ => True) m' :=
          Memory.ends_takeFrom fun _ _ => trivial
        exact htake.imp (fun _ _ h => h.1) fun _ _ _ => trivial
      exact hends.ok hx
    obtain ⟨r', hset, hagree, hall⟩ := r.setAll_range' (n := n) hlen "load_take"
    rw [hset]
    exact ⟨r', rfl, hagree, hall, hlen⟩
  rwa [bind_pure] at hpure

theorem emits_flatParam (hb : b.Open) {e : Explosion} {c : Carrier} {vs rest : List Var}
    (he : e.pending = vs ++ rest) (hvs : vs.length = c.passing.registerWords)
    (hbelow : Below b.vars vs) :
    Emits (Arguments.flatParam e c) b (fun a b' code =>
      a.2.pending = rest ∧ a.1.length = c.passing.width ∧ Below b'.vars a.1 ∧
        ∀ (call : Caller) (r : Registers) (w : World) (index : Nat), c.KnownTo w →
          Step.Matches (steps call r code) (decodeOne index (r.all vs) c.passing) w
            fun arg r' => Agree b.vars r r' ∧ r'.all a.1 = arg.words ∧ arg.Fits c.passing) E := by
  unfold Arguments.flatParam
  cases hp : c.passing with
  | direct schema =>
    rw [hp] at hvs
    have hvs' : vs.length = schema.nativeKinds.length := hvs
    obtain ⟨e', hclaim, he'⟩ := Explosion.claim_ok he
    rw [hvs'] at hclaim
    simp only [hclaim]
    refine emits_liftM_ok ?_
    refine (emits_defineAll hb schema.components _).bind hb ?_
    rintro us b₁ code - - ⟨rfl, hv₁, rfl⟩
    refine emits_pure ⟨he', by simp [Passing.width], ?_, ?_⟩
    · rw [hv₁]
      exact below_range' _ _
    · intro call r w index hk
      rw [List.append_nil, steps_singleton]
      exact matches_fromNative hp hk hvs' _ _
  | indirect schema =>
    rw [hp] at hvs
    obtain ⟨v, rfl⟩ := List.length_eq_one_iff.mp hvs
    obtain ⟨e', hclaim, he'⟩ := Explosion.claimNext_ok he
    simp only [hclaim]
    refine emits_liftM_ok ?_
    refine (emits_defineAll hb schema.components _).bind hb ?_
    rintro us b₁ code - - ⟨rfl, hv₁, rfl⟩
    refine emits_pure ⟨he', by simp [Passing.width], ?_, ?_⟩
    · rw [hv₁]
      exact below_range' _ _
    · intro call r w index hk
      rw [List.append_nil, steps_singleton]
      refine (matches_loadTake v schema.components.length b.vars).map ArgValue.value ?_
      rintro words r' ⟨hagree, hall, hlen⟩
      exact ⟨hagree, hall, hlen⟩
  | address =>
    rw [hp] at hvs
    obtain ⟨v, rfl⟩ := List.length_eq_one_iff.mp hvs
    obtain ⟨e', hclaim, he'⟩ := Explosion.claim_ok he
    rw [List.length_singleton] at hclaim
    simp only [hclaim]
    refine emits_liftM_ok ?_
    refine emits_pure ⟨he', rfl, hbelow, ?_⟩
    intro call r w index hk
    exact Step.matches_pure ⟨.refl _ _, rfl, trivial⟩

theorem emits_flatParams : ∀ (carriers : List Carrier) {b : Builder} {e : Explosion}
    {vs rest : List Var}, b.Open → e.pending = vs ++ rest → vs.length = registerWords carriers →
    Below b.vars vs →
    Emits (Arguments.flatParams e carriers) b (fun a b' code =>
      a.2.pending = rest ∧ ∃ uss : List (List Var), a.1 = uss.flatten ∧
        uss.map List.length = carriers.map (fun c => c.passing.width) ∧ Below b'.vars a.1 ∧
        ∀ (call : Caller) (r : Registers) (w : World) (index : Nat),
          (∀ c ∈ carriers, c.KnownTo w) →
          Step.Matches (steps call r code) (decodeAll index (r.all vs) carriers) w
            fun args r' => Agree b.vars r r' ∧ uss.map r'.all = args.map ArgValue.words ∧
              Shaped carriers args) E := by
  intro carriers
  induction carriers with
  | nil =>
    intro b e vs rest hb he hvs hbelow
    have hnil : vs = [] := List.eq_nil_of_length_eq_zero hvs
    subst hnil
    refine emits_pure ⟨he, [], rfl, rfl, hbelow, ?_⟩
    intro call r w index hk
    exact Step.matches_pure ⟨.refl _ _, rfl, trivial⟩
  | cons c cs ih =>
    intro b e vs rest hb he hvs hbelow
    rw [registerWords_cons] at hvs
    obtain ⟨vs₁, vs₂, hlen₁, rfl⟩ : ∃ vs₁ vs₂, vs₁.length = c.passing.registerWords ∧
        vs = vs₁ ++ vs₂ :=
      ⟨vs.take c.passing.registerWords, vs.drop c.passing.registerWords,
        by rw [List.length_take]; omega, (List.take_append_drop _ _).symm⟩
    rw [List.length_append] at hvs
    rw [List.append_assoc] at he
    have hbelow₁ : Below b.vars vs₁ := hbelow.of_subset (List.subset_append_left _ _)
    have hbelow₂ : Below b.vars vs₂ := hbelow.of_subset (List.subset_append_right _ _)
    rw [Arguments.flatParams]
    refine (emits_flatParam hb he hlen₁ hbelow₁).bind hb ?_
    rintro ⟨us, e₁⟩ b₁ code₁ hb₁ hle₁ ⟨he₁, hwidth, hus, hmatch₁⟩
    refine (ih hb₁ he₁ (by omega) (hbelow₂.mono hle₁)).bind hb₁ ?_
    rintro ⟨others, e₂⟩ b₂ code₂ hb₂ hle₂ ⟨he₂, uss, rfl, hwidths, huss, hmatch₂⟩
    refine emits_pure ⟨he₂, us :: uss, rfl, by simp [hwidth, hwidths],
      (hus.mono hle₂).append huss, ?_⟩
    intro call r w index hk
    have hall : r.all (vs₁ ++ vs₂) = r.all vs₁ ++ r.all vs₂ := all_append r vs₁ vs₂
    have hcount : (r.all vs₁).length = c.passing.registerWords := by rw [length_all, hlen₁]
    rw [List.append_nil, hall, decodeAll, ← hcount, List.take_left, List.drop_left]
    refine matches_steps_append (hmatch₁ call r w index (hk c List.mem_cons_self)) ?_
    rintro arg r₁ w₁ hx ⟨hagree₁, hval, hfits⟩
    have hsteady := (quiet_decodeOne _ _ _).ok hx
    rw [← hagree₁.all_eq hbelow₂]
    refine (hmatch₂ call r₁ w₁ (index + 1)
      fun c' hc' => (hk c' (List.mem_cons_of_mem _ hc')).of_module hsteady.module).map (arg :: ·) ?_
    rintro args r₂ ⟨hagree₂, hvals, hshaped⟩
    refine ⟨hagree₁.trans hagree₂ hle₁, ?_, hfits, hshaped⟩
    rw [List.map_cons, List.map_cons, hvals, hagree₂.all_eq hus, hval]

/-- The words of the witness that was recovered. -/
theorem Arguments.Recovers.witness_words {args : Arguments} {s : Lowered} {p : Parts Var}
    {uss : List (List Var)} (h : args.Recovers s p uss) (r : Registers) :
    args.witness.map (fun v => (r.value v.metadata, r.value v.table))
      = (p.map r.value).witness := by
  rw [h.witness, Option.map_map]
  rfl

theorem emits_ofFlat (hb : b.Open) {s : Lowered} {e : Explosion} {p : Parts Var}
    (hp : p.Fits s) (he : e.pending = p.toList) (hbelow : Below b.vars p.toList) :
    Emits (Arguments.ofFlat s none e) b (fun args b' code =>
      ∃ uss, args.Recovers s p uss ∧ Below b'.vars uss.flatten ∧
        ∀ (call : Caller) (r : Registers) (w : World), (∀ c ∈ s.carriers, c.KnownTo w) →
          Step.Matches (steps call r code) (decodeAll 0 (r.all p.params) s.carriers) w
            fun values r' => Agree b.vars r r' ∧ uss.map r'.all = values.map ArgValue.words ∧
              Shaped s.carriers values) E := by
  have hparams : Below b.vars p.params := by
    refine hbelow.of_subset fun v hv => ?_
    simp [Parts.toList, hv]
  obtain ⟨e₁, h₁, he₁⟩ := Explosion.takeWitnessIf_ok hp.witness he
  obtain ⟨e₂, h₂, he₂⟩ := Explosion.takeLastIf_ok hp.error he₁
  have hfront : e₂.pending = p.resumeBuffer.toList
      ++ (p.indirectReturn.toList ++ p.params ++ p.bindings ++ [p.receiver]) := by
    rw [he₂]
    simp
  obtain ⟨e₃, h₃, he₃⟩ := Explosion.claimNextIf_ok hp.resume hfront
  obtain ⟨e₄, h₄, he₄⟩ := Explosion.takeLast_ok he₃
  have hnext : e₄.pending = p.indirectReturn.toList ++ (p.params ++ p.bindings) := by
    rw [he₄]
    simp
  obtain ⟨e₅, h₅, he₅⟩ := Explosion.claimNextIf_ok hp.indirect hnext
  unfold Arguments.ofFlat
  rw [h₁]
  refine emits_liftM_ok ?_
  simp only [h₂]
  refine emits_liftM_ok ?_
  rw [Arguments.installDestination_none]
  refine emits_liftM_ok ?_
  simp only [h₃]
  refine emits_liftM_ok ?_
  simp only [h₄]
  refine emits_liftM_ok ?_
  simp only [h₅]
  refine emits_liftM_ok ?_
  refine (emits_flatParams s.carriers hb he₅ hp.params hparams).bind hb ?_
  rintro ⟨us, e₆⟩ b₁ code₁ hb₁ hle₁ ⟨he₆, uss, rfl, hwidths, huss, hmatch⟩
  have hsize : e₆.size = s.bindingCount := by
    rw [Explosion.size]
    exact (congrArg List.length he₆).trans hp.bindings
  simp only [hsize, if_true]
  refine emits_pure ⟨uss, ⟨rfl, rfl, rfl, rfl, rfl, rfl, ?_, hwidths⟩, huss, ?_⟩
  · exact congrArg (uss.flatten ++ ·) he₆
  · intro call r w hk
    rw [List.append_nil]
    exact hmatch call r w 0 hk

end Emission

/-! ### Loading the implementation -/

namespace Target

/-- The metadata that a class method's entry is looked up in. -/
def metadata (p : Pool) (m : Method) (receiver : Word) : Run Word := do
  if ← receiverIsMetadata p m then return receiver else read receiver

/-- A loaded entry as a plain pointer. -/
def checked (signing : Option Signing) (entry : Word) : Attempt Word :=
  match signing with
  | some s => s.check entry
  | none => .ok entry

/-- Load the implementation of a method for a receiver, or for a self metadata and a
witness table. -/
def load (p : Pool) (m : Method) (receiver : Word) (witness : Option (Word × Word)) :
    Target → Run Word
  | .witness index =>
    match witness with
    | some w => do read (← addWord w.2 (UInt64.ofNat (index * wordBytes)))
    | none => throw (.trap .noWitnessTable)
  | .virtual slot signing => do
    let metadata ← metadata p m receiver
    let address ← tableSlot metadata slot
    let entry ← read address
    checked signing entry

/-- Emit the load of the metadata. -/
def emitMetadata (p : Pool) (m : Method) (receiver : Var) : Build Var := do
  if ← receiverIsMetadata p m then return receiver else Builder.heapMetadata receiver

/-- Emit the check of a loaded entry. -/
def emitChecked (signing : Option Signing) (entry : Var) : Build Var :=
  match signing with
  | some s => Builder.authenticate entry s
  | none => return entry

theorem resolve_virtual (p : Pool) (m : Method) (args : Arguments) (slot : Slot)
    (signing : Option Signing) :
    resolve p m args (.virtual slot signing) = (do
      let metadata ← emitMetadata p m args.receiver
      let entry ← Builder.tableMethod metadata slot
      emitChecked signing entry) := by
  simp only [resolve, emitMetadata, bind_assoc]
  congr 1
  funext isMetadata
  cases isMetadata <;> cases signing <;> rfl

end Target

section Emission

variable {b : Builder} {E : Prop} {call : Caller} {r : Registers} {w : World}

/-- An instruction that sets one fresh variable. -/
theorem matches_set {i : Instr} {dst n : Nat} {x : Run Word}
    (hi : step call r i = x >>= fun v => pure (r.set dst v)) (hn : n ≤ dst) :
    Step.Matches (steps call r [i]) x w fun v r' => Agree n r r' ∧ r'.value dst = v := by
  rw [steps_singleton, hi]
  refine (Step.matches_bind_pure _).imp ?_
  rintro v _ rfl
  exact ⟨agree_set r hn v, by rw [value_set, if_pos rfl]⟩

theorem below_singleton {n v : Nat} (hv : v < n) : Below n [v] := by
  intro u hu
  rw [List.mem_singleton] at hu
  exact hu ▸ hv

theorem emits_metadata (hb : b.Open) (p : Pool) (m : Method) {receiver : Var}
    (hreceiver : Below b.vars [receiver])
    (hmeta : ∀ fault, Target.receiverIsMetadata p m = .error fault → E) :
    Emits (Target.emitMetadata p m receiver) b (fun v b' code => Below b'.vars [v] ∧
      ∀ (call : Caller) (r : Registers) (w : World),
        Step.Matches (steps call r code) (Target.metadata p m (r.value receiver)) w
          fun word r' => Agree b.vars r r' ∧ r'.value v = word) E := by
  unfold Target.emitMetadata Target.metadata
  refine emits_liftM_bind (fun isMetadata hm => ?_) hmeta
  simp only [hm]
  cases isMetadata with
  | true => exact emits_pure ⟨hreceiver, fun call r w => Step.matches_pure ⟨.refl _ _, rfl⟩⟩
  | false =>
    refine (emits_define hb _ _).imp ?_
    rintro v b₁ code ⟨rfl, hv, rfl⟩
    exact ⟨below_singleton (by omega), fun call r w => matches_set rfl (Nat.le_refl _)⟩

theorem emits_checked (hb : b.Open) (signing : Option Signing) {entry : Var}
    (hentry : Below b.vars [entry]) :
    Emits (Target.emitChecked signing entry) b (fun v b' code => Below b'.vars [v] ∧
      ∀ (call : Caller) (r : Registers) (w : World),
        Step.Matches (steps call r code)
          (liftM (Target.checked signing (r.value entry)) : Run Word) w
          fun word r' => Agree b.vars r r' ∧ r'.value v = word) E := by
  cases signing with
  | none => exact emits_pure ⟨hentry, fun call r w => Step.matches_pure ⟨.refl _ _, rfl⟩⟩
  | some s =>
    refine (emits_define hb _ _).imp ?_
    rintro v b₁ code ⟨rfl, hv, rfl⟩
    exact ⟨below_singleton (by omega), fun call r w => matches_set rfl (Nat.le_refl _)⟩

/-- The code that loads an implementation does what `Target.load` does. -/
theorem emits_resolve (hb : b.Open) (p : Pool) (m : Method) (target : Target) {args : Arguments}
    (hreceiver : Below b.vars [args.receiver])
    (hmeta : ∀ fault, Target.receiverIsMetadata p m = .error fault → E)
    (hnone : args.witness = none → ∀ index, target = .witness index → E) :
    Emits (target.resolve p m args) b (fun v b' code => Below b'.vars [v] ∧
      ∀ (call : Caller) (r : Registers) (w : World),
        Step.Matches (steps call r code)
          (target.load p m (r.value args.receiver)
            (args.witness.map fun v => (r.value v.metadata, r.value v.table))) w
          fun word r' => Agree b.vars r r' ∧ r'.value v = word) E := by
  cases target with
  | witness index =>
    cases hw : args.witness with
    | none =>
      simp only [Target.resolve, hw]
      exact emits_throw (hnone hw index rfl)
    | some wv =>
      simp only [Target.resolve, hw]
      refine (emits_define hb _ _).imp ?_
      rintro v b₁ code ⟨rfl, hv, rfl⟩
      refine ⟨below_singleton (by omega), fun call r w => matches_set ?_ (Nat.le_refl _)⟩
      simp only [step, Target.load, Option.map_some, bind_assoc]
  | virtual slot signing =>
    rw [Target.resolve_virtual]
    refine (emits_metadata hb p m hreceiver hmeta).bind hb ?_
    rintro mv b₁ code₁ hb₁ hle₁ ⟨hmv, hmatch₁⟩
    refine (emits_define hb₁ _ _).bind hb₁ ?_
    rintro entry b₂ code₂ hb₂ hle₂ ⟨rfl, hv₂, rfl⟩
    refine (emits_checked hb₂ signing (below_singleton (v := b₁.vars) (by omega))).imp ?_
    rintro v b₃ code₃ ⟨hv, hmatch₃⟩
    refine ⟨hv, fun call r w => ?_⟩
    rw [Target.load]
    refine matches_steps_append (hmatch₁ call r w) ?_
    rintro metadata r₁ w₁ - ⟨hagree₁, rfl⟩
    rw [← bind_assoc]
    refine matches_steps_append
      (matches_set (by simp only [step, bind_assoc]) (Nat.le_refl b₁.vars)) ?_
    rintro word r₂ w₂ - ⟨hagree₂, rfl⟩
    refine (hmatch₃ call r₂ w₂).imp ?_
    rintro word r₃ ⟨hagree₃, hval⟩
    exact ⟨(hagree₁.trans hagree₂ hle₁).trans hagree₃ (by omega), hval⟩

end Emission

/-! ### Spilling -/

namespace World

/-- Store words, the first at a byte offset from a base. -/
def storeAll (base : Word) (offset : Nat) : List Word → Run Unit
  | [] => return ()
  | word :: rest => do
    write (← addWord base (UInt64.ofNat offset)) word
    storeAll base (offset + wordBytes) rest

theorem withMemory_bind {α β : Type} (x : Step Memory α) (f : α → Step Memory β) :
    withMemory (x >>= f) = withMemory x >>= fun a => withMemory (f a) := by
  funext w
  simp only [withMemory, Step.zoom, bind, EStateM.bind]
  cases x w.machine.memory <;> rfl

theorem withMemory_liftM {α : Type} (attempt : Attempt α) :
    withMemory (liftM attempt : Step Memory α) = liftM attempt := by
  funext w
  cases attempt <;> rfl

/-- Storing at multiples of a word is storing by index. -/
theorem storeAll_eq (base : Word) (words : List Word) (start : Nat)
    (h : 8 * (start + words.length) ≤ 2 ^ 64) :
    storeAll base (8 * start) words = withMemory (Memory.writeFrom base start words) := by
  induction words generalizing start with
  | nil => rfl
  | cons word rest ih =>
    rw [List.length_cons] at h
    have haddr : Memory.wordAddress base start = addWord base (UInt64.ofNat (8 * start)) := by
      have hs : (UInt64.ofNat start).toNat = start :=
        UInt64.toNat_ofNat_of_lt' (by simp only [UInt64.size]; omega)
      have h8 : (UInt64.ofNat wordBytes).toNat = 8 := rfl
      have hm : Word.mul? (UInt64.ofNat wordBytes) (UInt64.ofNat start)
          = some (UInt64.ofNat (8 * start)) := by
        rw [Word.mul?_eq_some_iff, h8, hs,
          UInt64.toNat_ofNat_of_lt' (by simp only [UInt64.size]; omega)]
      rw [Memory.wordAddress, mulWord, hm, Attempt.fits, Attempt.ok_bind]
    rw [storeAll, Memory.writeFrom, withMemory_bind, withMemory_liftM, haddr]
    congr 1
    funext a
    rw [withMemory_bind, ← ih (start + 1) (by omega), show 8 * (start + 1) = 8 * start + wordBytes
      by rw [wordBytes]; omega]
    rfl

theorem wordAddresses_of_writeFrom (base : Word) (words : List Word) {start : Nat}
    {m m' : Memory} (h : Memory.writeFrom base start words m = .ok () m') :
    ∃ addresses, wordAddresses base start words.length = .ok addresses := by
  induction words generalizing start m with
  | nil => exact ⟨[], rfl⟩
  | cons word rest ih =>
    rw [Memory.writeFrom] at h
    cases ha : Memory.wordAddress base start with
    | error f =>
      rw [ha, Step.bind_of_error Step.run_liftM_error] at h
      cases h
    | ok a =>
      rw [ha, Step.bind_of_ok Step.run_liftM_ok] at h
      cases hw : Memory.write a word m with
      | error f m₁ =>
        rw [Step.bind_of_error hw] at h
        cases h
      | ok u m₁ =>
        rw [Step.bind_of_ok hw] at h
        obtain ⟨addresses, hads⟩ := ih h
        refine ⟨a :: addresses, ?_⟩
        rw [List.length_cons, wordAddresses, ha, Attempt.ok_bind, hads]
        rfl

end World

section Emission

variable {b : Builder} {E : Prop} {call : Caller} {r : Registers} {w : World}

theorem emits_storeWords (hb : b.Open) (addr : Var) (offset : Nat) (values : List Var) :
    Emits (Thunk.storeWords addr offset values) b (fun _ b' code => b'.vars = b.vars ∧
      ∀ (call : Caller) (r : Registers) (w : World),
        Step.Matches (steps call r code) (storeAll (r.value addr) offset (r.all values)) w
          fun _ r' => r' = r) E := by
  induction values generalizing b offset with
  | nil => exact emits_pure ⟨rfl, fun call r w => Step.matches_pure rfl⟩
  | cons v rest ih =>
    rw [Thunk.storeWords]
    refine (emits_emit hb _).bind hb ?_
    rintro - b₁ code₁ hb₁ - ⟨hv₁, rfl⟩
    refine (ih hb₁ _).imp ?_
    rintro - b₂ code₂ ⟨hv₂, hmatch⟩
    refine ⟨by omega, fun call r w => ?_⟩
    rw [all_cons, storeAll, ← bind_assoc]
    refine matches_steps_append (R := fun _ r' => r' = r) ?_ ?_
    · rw [steps_singleton, step, ← bind_assoc]
      refine (Step.matches_bind_pure _).imp ?_
      rintro _ _ rfl
      rfl
    · rintro - _ w₁ - rfl
      exact hmatch call _ w₁

/-- Spilling in code is spilling. -/
theorem emits_spill (hb : b.Open) {values : List Var} (hvalues : Below b.vars values)
    (hE : Size.limit ≤ wordBytes * values.length → E) :
    Emits (Thunk.spill values) b (fun temp b' code => Below b'.vars [temp] ∧
      ∀ (call : Caller) (r : Registers) (w : World),
        Step.Matches (steps call r code) (World.spill (r.all values)) w
          fun spilled r' => Agree b.vars r r' ∧ r'.value temp = spilled.1) E := by
  unfold Thunk.spill
  by_cases hsize : wordBytes * values.length < Size.limit
  · have hmul : mulSize wordBytes values.length = .ok (wordBytes * values.length) := by
      rw [mulSize, Size.mul?_eq_some_iff.mpr ⟨rfl, hsize⟩, Attempt.fits]
    rw [hmul]
    refine emits_liftM_ok ?_
    refine (emits_define hb _ _).bind hb ?_
    rintro temp b₁ code₁ hb₁ hle₁ ⟨rfl, hv₁, rfl⟩
    refine (emits_storeWords hb₁ _ _ _).bind hb₁ ?_
    rintro - b₂ code₂ - - ⟨hv₂, hmatch₂⟩
    refine emits_pure ⟨below_singleton (by omega), fun call r w => ?_⟩
    have hlimit : Size.limit = 2 ^ 32 := rfl
    rw [wordBytes] at hsize
    rw [List.append_nil, World.spill, Memory.allocWords_eq (by rw [length_all]; omega), length_all]
    refine matches_steps_append (R := fun base r' => Agree b.vars r r' ∧ r'.value b.vars = base)
      ?_ ?_
    · rw [show values.length * 8 = wordBytes * values.length by rw [wordBytes]; omega]
      exact matches_set rfl (Nat.le_refl _)
    · rintro base r₁ w₁ - ⟨hagree, rfl⟩
      have hstore := hmatch₂ call r₁ w₁
      rw [hagree.all_eq hvalues, show (0 : Nat) = 8 * 0 from rfl,
        storeAll_eq _ _ _ (by rw [length_all]; omega)] at hstore
      rw [← bind_pure (steps call r₁ code₂)]
      refine hstore.bind ?_
      rintro _ r₂ w₂ hx hr
      -- the addresses of words that were stored are addresses
      obtain ⟨addresses, hads⟩ : ∃ addresses,
          wordAddresses (r₁.value b.vars) 0 values.length = .ok addresses := by
        have hends : Step.Ends (withMemory (Memory.writeWords (r₁.value b.vars) (r.all values))) w₁
            (fun _ _ => ∃ addresses,
              wordAddresses (r₁.value b.vars) 0 values.length = .ok addresses)
            fun _ _ => True := by
          rw [ends_withMemory]
          refine Step.Ends.imp_run (Q := fun _ _ => True) (E := fun _ _ => True) ?_ ?_ ?_
          · unfold Step.Ends
            split <;> trivial
          · intro _ m' hrun _
            have := wordAddresses_of_writeFrom _ _ hrun
            rwa [length_all] at this
          · exact fun _ _ _ _ => trivial
        exact hends.ok hx
      rw [hads]
      exact Step.matches_pure ⟨hr ▸ hagree, by rw [hr]⟩
  · have hmul : ∃ fault, mulSize wordBytes values.length = .error fault := by
      rw [mulSize, Size.mul?, if_neg hsize]
      exact ⟨_, rfl⟩
    obtain ⟨fault, hmul⟩ := hmul
    rw [hmul]
    exact hE (by omega)

theorem emits_flatArgument (hb : b.Open) {c : Carrier} {values : List Var}
    (hvalues : Below b.vars values) (hlen : values.length = c.passing.width)
    (hE : ∀ schema, c.passing = .indirect schema →
      Size.limit ≤ wordBytes * schema.components.length → E) :
    Emits (Thunk.flatArgument c values) b (fun vs b' code => Below b'.vars vs ∧
      ∀ (call : Caller) (r : Registers) (w : World) (index : Nat) (arg : ArgValue), c.KnownTo w →
        arg.Fits c.passing → r.all values = arg.words →
        Step.Matches (steps call r code) (flatArg index arg c.passing) w
          fun native r' => Agree b.vars r r' ∧ r'.all vs = native.1) E := by
  unfold Thunk.flatArgument
  cases hp : c.passing with
  | direct schema =>
    simp only
    by_cases hempty : schema.nativeKinds.isEmpty = true
    · rw [if_pos hempty]
      refine emits_pure ⟨fun v hv => (by cases hv), fun call r w index arg hk hfits hall => ?_⟩
      simp only [flatArg, hempty, if_true]
      exact Step.matches_pure ⟨.refl _ _, rfl⟩
    · rw [if_neg hempty]
      refine (emits_defineAll hb _ _).imp ?_
      rintro vs b₁ code ⟨rfl, hv₁, rfl⟩
      refine ⟨by rw [hv₁]; exact below_range' _ _, fun call r w index arg hk hfits hall => ?_⟩
      cases arg with
      | address word => exact hfits.elim
      | value words =>
        rw [hp] at hlen
        rw [flatArg, if_neg hempty]
        have hmatch := @matches_toNative call r w c schema hp hk values hlen b.vars
        have hwords : words = r.all values := hall.symm
        rw [steps_singleton, hwords]
        refine hmatch.map (fun native => (native, [])) ?_
        rintro native r' h
        exact h
  | indirect schema =>
    simp only
    refine (emits_spill hb hvalues (by
      rw [hlen, hp]
      exact hE schema hp)).bind hb ?_
    rintro temp b₁ code₁ hb₁ - ⟨htemp, hmatch⟩
    refine emits_pure ⟨htemp, fun call r w index arg hk hfits hall => ?_⟩
    rw [List.append_nil]
    cases arg with
    | address word => exact hfits.elim
    | value words =>
      have hwords : words = r.all values := hall.symm
      rw [flatArg, hwords]
      refine (hmatch call r w).map (fun spilled => ([spilled.1], spilled.2)) ?_
      rintro spilled r' ⟨hagree, hval⟩
      exact ⟨hagree, by rw [all_cons, hval]; rfl⟩
  | address =>
    refine emits_pure ⟨hvalues, fun call r w index arg hk hfits hall => ?_⟩
    cases arg with
    | value words => exact hfits.elim
    | address word => exact Step.matches_pure ⟨.refl _ _, hall⟩

theorem emits_flatArguments : ∀ (carriers : List Carrier) (uss : List (List Var)) {b : Builder},
    b.Open → Below b.vars uss.flatten →
    uss.map List.length = carriers.map (fun c => c.passing.width) →
    (∀ c ∈ carriers, ∀ schema, c.passing = .indirect schema →
      Size.limit ≤ wordBytes * schema.components.length → E) →
    Emits (Thunk.flatArguments (carriers.zip uss)) b (fun vs b' code => Below b'.vars vs ∧
      ∀ (call : Caller) (r : Registers) (w : World) (index : Nat) (args : List ArgValue),
        (∀ c ∈ carriers, c.KnownTo w) → Shaped carriers args →
        uss.map r.all = args.map ArgValue.words →
        Step.Matches (steps call r code) (flatArgs index (carriers.zip args)) w
          fun native r' => Agree b.vars r r' ∧ r'.all vs = native.1) E := by
  intro carriers
  induction carriers with
  | nil =>
    intro uss b hb _ _ _
    refine emits_pure ⟨fun v hv => (by cases hv), ?_⟩
    exact fun call r w index args _ _ _ => Step.matches_pure ⟨.refl _ _, rfl⟩
  | cons c cs ih =>
    intro uss b hb hbelow hwidths hE
    cases uss with
    | nil => simp at hwidths
    | cons us uss =>
      rw [List.map_cons, List.map_cons, List.cons.injEq] at hwidths
      rw [List.flatten_cons] at hbelow
      have hbelow₁ : Below b.vars us := hbelow.of_subset (List.subset_append_left _ _)
      have hbelow₂ : Below b.vars uss.flatten := hbelow.of_subset (List.subset_append_right _ _)
      rw [List.zip_cons_cons, Thunk.flatArguments]
      refine (emits_flatArgument hb hbelow₁ hwidths.1 (hE c List.mem_cons_self)).bind hb ?_
      rintro vs₁ b₁ code₁ hb₁ hle₁ ⟨hvs₁, hmatch₁⟩
      refine (ih uss hb₁ (hbelow₂.mono hle₁) hwidths.2
        fun c' hc' => hE c' (List.mem_cons_of_mem _ hc')).bind hb₁ ?_
      rintro vs₂ b₂ code₂ hb₂ hle₂ ⟨hvs₂, hmatch₂⟩
      refine emits_pure ⟨(hvs₁.mono hle₂).append hvs₂, ?_⟩
      intro call r w index args hk hshaped hall
      cases args with
      | nil => exact hshaped.elim
      | cons arg args =>
        rw [List.map_cons, List.map_cons, List.cons.injEq] at hall
        rw [List.append_nil, List.zip_cons_cons, flatArgs]
        refine matches_steps_append
          (hmatch₁ call r w index arg (hk c List.mem_cons_self) hshaped.1 hall.1) ?_
        rintro ⟨native, spilled⟩ r₁ w₁ hx ⟨hagree₁, hval₁⟩
        have hsteady := (quiet_flatArg _ _ _).ok hx
        have hall' : uss.map r₁.all = args.map ArgValue.words :=
          (hagree₁.map_all_eq hbelow₂).trans hall.2
        refine (hmatch₂ call r₁ w₁ (index + 1) args
          (fun c' hc' => (hk c' (List.mem_cons_of_mem _ hc')).of_module hsteady.module) hshaped.2
          hall').map
          (fun q => (native ++ q.1, spilled ++ q.2)) ?_
        rintro ⟨natives, spills⟩ r₂ ⟨hagree₂, hval₂⟩
        refine ⟨hagree₁.trans hagree₂ hle₁, ?_⟩
        rw [all_append, hagree₂.all_eq hvs₁, hval₁, hval₂]

end Emission

/-! ### Forwarding -/

namespace Thunk

/-- What a flat thunk returns for the results of the call that it forwarded. -/
def returned (s : Lowered) (results : List Word) : Attempt (List Word) :=
  if s.convention.isCoroutine then .ok results
  else match s.result.passing with
    | .direct schema =>
      if schema.components.isEmpty then .ok []
      else do schema.encode (← schema.decode results 0)
    | .indirect _ => .ok []
    | .address => .ok []

/-- Call a function pointer and count its results. -/
def callFor (call : Caller) (s : Lowered) (function : Word) (native : List Word) :
    Run (List Word) := do
  let results ← call function native
  if results.length = s.results.length then return results
  else fail (.arity "call results" s.results.length results.length)

/-- What a flat thunk does: decode the arguments, load the implementation, encode the
arguments again and call it. -/
def forwardFlat (call : Caller) (p : Pool) (m : Method) (target : Target) (s : Lowered)
    (parts : Parts Word) : Run (List Word) := do
  let args ← decodeAll 0 parts.params s.carriers
  let function ← target.load p m parts.receiver parts.witness
  let native ← flatArgs 0 (s.carriers.zip args)
  let results ← callFor call s function (parts.withParams native.1).toList
  returned s results

end Thunk

section Emission

variable {b : Builder} {E : Prop} {call : Caller} {r : Registers} {w : World}

theorem keepsModule_callFor (hcall : ∀ f args, KeepsModule (call f args)) (s : Lowered)
    (function : Word) (native : List Word) : KeepsModule (Thunk.callFor call s function native) :=
  (hcall _ _).bind fun _ => (quiet_ite (quiet_pure _) (quiet_fail _)).keepsModule

theorem keepsModule_load (p : Pool) (m : Method) (receiver : Word) (witness : Option (Word × Word))
    (target : Target) : KeepsModule (target.load p m receiver witness) := by
  cases target with
  | witness index =>
    cases witness with
    | none => exact (quiet_throw _).keepsModule
    | some wt => exact (keepsModule_liftM _).bind fun _ => (quiet_read _).keepsModule
  | virtual slot signing =>
    refine KeepsModule.bind ?_ fun _ => (keepsModule_tableSlot _ _).bind fun _ =>
      (quiet_read _).keepsModule.bind fun _ => keepsModule_liftM _
    exact (keepsModule_liftM _).bind fun _ => (quiet_ite (quiet_pure _) (quiet_read _)).keepsModule

/-- A call in code is a call. -/
theorem matches_call {s : Lowered} (hs : s.convention.isAsync = false) (function : Var)
    (args : List Var) (n : Nat) :
    Step.Matches (step call r (.call function s.convention args (List.range' n s.results.length)))
      (Thunk.callFor call s (r.value function) (r.all args)) w fun results r' =>
        Agree n r r' ∧ r'.all (List.range' n s.results.length) = results ∧
          results.length = s.results.length := by
  simp only [step, hs, Bool.false_eq_true, if_false, Thunk.callFor]
  refine (Step.Matches.refl _ w).bind ?_
  rintro _ results w' - rfl
  by_cases hlen : results.length = s.results.length
  · obtain ⟨r', hset, hagree, hall⟩ := r.setAll_range' (n := n) hlen "call results"
    rw [if_pos hlen, hset]
    exact ⟨r', rfl, hagree, hall, hlen⟩
  · rw [if_neg hlen, setAll_error _ _ (by rw [List.length_range']; exact fun h => hlen h.symm),
      List.length_range']
    rfl

/-- The code that forwards a flat call encodes the arguments and calls. -/
theorem emits_nativeCall (hb : b.Open) {s : Lowered} (hs : s.convention.isAsync = false)
    {args : Arguments} {p : Parts Var} {uss : List (List Var)} (hargs : args.Recovers s p uss)
    (hp : p.Fits s) (hbelow : Below b.vars p.toList) (huss : Below b.vars uss.flatten)
    {function : Var} (hfunction : Below b.vars [function])
    (hE : ∀ c ∈ s.carriers, ∀ schema, c.passing = .indirect schema →
      Size.limit ≤ wordBytes * schema.components.length → E) :
    Emits (Thunk.nativeCall s function args) b (fun vs b' code => Below b'.vars vs ∧
      vs.length = s.results.length ∧
      ∀ (call : Caller) (r : Registers) (w : World) (values : List ArgValue),
        (∀ c ∈ s.carriers, c.KnownTo w) → Shaped s.carriers values →
        uss.map r.all = values.map ArgValue.words →
        Step.Matches (steps call r code)
          (do
            let native ← flatArgs 0 (s.carriers.zip values)
            Thunk.callFor call s (r.value function)
              ((p.map r.value).withParams native.1).toList) w
          fun results r' => Agree b.vars r r' ∧ r'.all vs = results ∧
            results.length = s.results.length) E := by
  rw [Thunk.nativeCall_eq hs hargs hp]
  refine (emits_flatArguments s.carriers uss hb huss hargs.widths hE).bind hb ?_
  rintro params b₁ code₁ hb₁ hle₁ ⟨hparams, hmatch₁⟩
  refine (emits_defineAll hb₁ _ _).imp ?_
  rintro vs b₂ code₂ ⟨rfl, hv₂, rfl⟩
  refine ⟨by rw [hv₂]; exact below_range' _ _, List.length_range', ?_⟩
  intro call r w values hk hshaped hall
  refine matches_steps_append (hmatch₁ call r w 0 values hk hshaped hall) ?_
  rintro native r₁ w₁ - ⟨hagree₁, hnative⟩
  rw [steps_singleton]
  have hlist : r₁.all (p.withParams params).toList
      = ((p.map r.value).withParams native.1).toList := by
    rw [Registers.all, ← Parts.toList_map]
    have hval : p.map r₁.value = p.map r.value :=
      Parts.map_congr fun v hv => hagree₁ v (hbelow v hv)
    rw [← hval, ← hnative]
    rfl
  have hfun : r₁.value function = r.value function :=
    hagree₁ _ (hfunction _ List.mem_cons_self)
  rw [← hlist, ← hfun]
  refine (matches_call hs function _ b₁.vars).imp ?_
  rintro results r₂ ⟨hagree₂, hall₂, hlen⟩
  exact ⟨hagree₁.trans hagree₂ hle₁, hall₂, hlen⟩

/-- The results of a call that is not a coroutine are those of its signature. -/
theorem Lowered.results_of_direct {s : Lowered} {schema : Schema}
    (hs : s.convention.isAsync = false) (hco : s.convention.isCoroutine = false)
    (hp : s.result.passing = .direct schema) : s.results = schema.nativeKinds := by
  have hk : s.resultKinds = schema.nativeKinds := by rw [Lowered.resultKinds, hp]
  rw [← hk, Lowered.results]
  cases hc : s.convention with
  | ordinary => rfl
  | async =>
    rw [hc] at hs
    cases hs
  | yieldOnce =>
    rw [hc] at hco
    cases hco

/-- Code that takes native words apart and puts them together again. -/
theorem matches_reencode {c : Carrier} {schema : Schema} (hc : c.passing = .direct schema)
    (hk : c.KnownTo w) {srcs : List Var} (hs : srcs.length = schema.nativeKinds.length)
    (n n' : Nat) :
    Step.Matches
      (steps call r ([.fromNative c.type (List.range' n schema.components.length) srcs] ++
        [.toNative c.type (List.range' n' schema.nativeKinds.length)
          (List.range' n schema.components.length)]))
      (liftM (do schema.encode (← schema.decode (r.all srcs) 0) : Attempt (List Word)) :
        Run (List Word)) w
      fun native r' => r'.all (List.range' n' schema.nativeKinds.length) = native := by
  have heq : (liftM (do schema.encode (← schema.decode (r.all srcs) 0) : Attempt (List Word)) :
      Run (List Word)) = decodeOne 0 (r.all srcs) (.direct schema) >>= fun arg =>
        liftM (schema.encode arg.words) := by
    rw [decodeOne, Step.liftM_bind, bind_assoc]
    congr 1
  rw [heq]
  have hfrom : Step.Matches
      (steps call r [.fromNative c.type (List.range' n schema.components.length) srcs])
      (decodeOne 0 (r.all srcs) (.direct schema)) w fun arg r' =>
        r'.all (List.range' n schema.components.length) = arg.words := by
    rw [steps_singleton]
    exact (matches_fromNative hc hk hs n 0).imp fun _ _ h => h.2.1
  refine matches_steps_append hfrom ?_
  rintro arg r₁ w₁ hx hwords
  -- decoding leaves the machine alone, so the carrier is still known
  have hmodule : w₁.module = w.module := ((quiet_decodeOne _ _ _).ok hx).module
  rw [steps_singleton, ← hwords]
  exact (matches_toNative hc (hk.of_module hmodule) List.length_range' n').imp fun _ _ h => h.2

/-- Returning what a call gave. -/
theorem closes_handBack (hb : b.Open) {s : Lowered} {vs : List Var}
    (hvs : vs.length = s.results.length) (hs : s.convention.isAsync = false) :
    Closes (Thunk.handBack s vs) b (fun code terminator =>
      ∀ (call : Caller) (r : Registers) (w : World), s.result.KnownTo w →
        Step.Matches (steps call r code) (liftM (Thunk.returned s (r.all vs)) : Run (List Word)) w
          fun results r' => terminator.Leaves r' results) E := by
  unfold Thunk.returned Thunk.handBack
  cases hco : s.convention.isCoroutine with
  | true =>
    refine closes_terminate hb _ fun call r w _ => ?_
    exact Step.matches_pure (Or.inl ⟨vs, rfl, rfl⟩)
  | false =>
    simp only [Bool.false_eq_true, if_false]
    cases hp : s.result.passing with
    | indirect schema =>
      exact closes_terminate hb _ fun call r w _ => Step.matches_pure (Or.inl ⟨[], rfl, rfl⟩)
    | address =>
      exact closes_terminate hb _ fun call r w _ => Step.matches_pure (Or.inl ⟨[], rfl, rfl⟩)
    | direct schema =>
      rw [Lowered.results_of_direct hs hco hp] at hvs
      simp only
      by_cases hempty : schema.components.isEmpty = true
      · simp only [hempty, if_true]
        exact closes_terminate hb _ fun call r w _ => Step.matches_pure (Or.inl ⟨[], rfl, rfl⟩)
      · simp only [hempty, Bool.false_eq_true, if_false]
        refine (emits_defineAll hb _ _).closes hb ?_
        rintro us b₁ code₁ hb₁ hle₁ ⟨rfl, hv₁, rfl⟩
        refine (emits_defineAll hb₁ _ _).closes hb₁ ?_
        rintro ws b₂ code₂ hb₂ hle₂ ⟨rfl, hv₂, rfl⟩
        refine closes_terminate hb₂ _ fun call r w hk => ?_
        rw [List.append_nil]
        exact (matches_reencode hp hk hvs _ _).imp fun native r' hall => Or.inl ⟨_, rfl, hall⟩

/-- After the entry a flat thunk does what `Thunk.forwardFlat` does. -/
theorem closes_forwardFlat (hb : b.Open) {s : Lowered} (hs : s.convention.isAsync = false)
    (hframe : s.frame = none) {p : Pool} {m : Method} {target : Attempt Target}
    {parts : Parts Var} (hparts : parts.Fits s) (hbelow : Below b.vars parts.toList)
    (htarget : ∀ fault, target = .error fault → E)
    (hmeta : ∀ fault, Target.receiverIsMetadata p m = .error fault → E)
    (hwitness : s.witness = false → ∀ index, target = .ok (.witness index) → E)
    (hsize : ∀ c ∈ s.carriers, ∀ schema, c.passing = .indirect schema →
      Size.limit ≤ wordBytes * schema.components.length → E) :
    Closes (Thunk.forward p target { method := m, own := s, forwarded := s } (Thunk.flatPlan s)
        (.ofList parts.toList)) b (fun code terminator => ∃ t, target = .ok t ∧
      ∀ (call : Caller) (r : Registers) (w : World),
        (∀ f args, KeepsModule (call f args)) → (∀ c ∈ s.carriers, c.KnownTo w) →
        s.result.KnownTo w →
        Step.Matches (steps call r code)
          (Thunk.forwardFlat call p m t s (parts.map r.value)) w
          fun results r' => terminator.Leaves r' results) E := by
  rw [Thunk.forward_flat hframe]
  refine (emits_ofFlat hb hparts rfl hbelow).closes hb ?_
  rintro args b₁ code₁ hb₁ hle₁ ⟨uss, hargs, huss, hmatch₁⟩
  refine closes_liftM_bind (fun t ht => ?_) htarget
  have hreceiver : Below b₁.vars [args.receiver] := by
    refine (hbelow.mono hle₁).of_subset fun v hv => ?_
    rw [List.mem_singleton, hargs.receiver] at hv
    simp [Parts.toList, hv]
  have hnone : args.witness = none → ∀ index, t = .witness index → E :=
    fun hw index hindex => hwitness (hargs.witness_eq_false hparts.witness hw) index (hindex ▸ ht)
  refine (emits_resolve hb₁ p m t hreceiver hmeta hnone).closes hb₁ ?_
  rintro function b₂ code₂ hb₂ hle₂ ⟨hfunction, hmatch₂⟩
  refine (emits_nativeCall hb₂ hs hargs hparts (hbelow.mono (by omega)) (huss.mono hle₂) hfunction
    hsize).closes hb₂ ?_
  rintro vs b₃ code₃ hb₃ hle₃ ⟨hvs, hlen, hmatch₃⟩
  refine Step.Ends.imp (closes_handBack hb₃ hlen hs) ?_ fun _ _ h => h
  rintro - b₄ ⟨kinds, code₄, terminator, rfl, hmatch₄⟩
  refine ⟨kinds, code₄, terminator, rfl, t, ht, fun call r w hcall hk hresult => ?_⟩
  -- the four pieces of code, in the order of the steps
  have hreg : ∀ {r₁ : Registers}, Agree b.vars r r₁ → ∀ v ∈ parts.toList,
      r₁.value v = r.value v := fun hagree v hv => hagree v (hbelow v hv)
  refine matches_steps_append (hmatch₁ call r w hk) ?_
  rintro values r₁ w₁ hx₁ ⟨hagree₁, hvals, hshaped⟩
  have hm₁ : w₁.module = w.module := ((quiet_decodeAll _ _ _).ok hx₁).module
  have hload := hmatch₂ call r₁ w₁
  have hparts₁ : parts.map r₁.value = parts.map r.value := Parts.map_congr (hreg hagree₁)
  rw [hargs.witness_words, hparts₁, hargs.receiver, hreg hagree₁ _ (by simp [Parts.toList])] at hload
  refine matches_steps_append hload ?_
  rintro word r₂ w₂ hx₂ ⟨hagree₂, hword⟩
  have hm₂ : w₂.module = w.module := ((keepsModule_load _ _ _ _ _).ok hx₂).trans hm₁
  have hagree₂' : Agree b.vars r r₂ := hagree₁.trans hagree₂ hle₁
  have hvals₂ : uss.map r₂.all = values.map ArgValue.words :=
    (hagree₂.map_all_eq huss).trans hvals
  have hcallm := hmatch₃ call r₂ w₂ values (fun c hc => (hk c hc).of_module hm₂) hshaped hvals₂
  have hparts₂ : parts.map r₂.value = parts.map r.value := Parts.map_congr (hreg hagree₂')
  rw [hparts₂, hword] at hcallm
  rw [← bind_assoc]
  refine matches_steps_append hcallm ?_
  rintro results r₃ w₃ hx₃ ⟨hagree₃, hall₃, hlen₃⟩
  have hm₃ : w₃.module = w₂.module := by
    have hkeep : KeepsModule (do
        let native ← flatArgs 0 (s.carriers.zip values)
        Thunk.callFor call s word ((parts.map r.value).withParams native.1).toList) :=
      (quiet_flatArgs _ _).keepsModule.bind fun _ => keepsModule_callFor hcall _ _ _
    exact hkeep.ok hx₃
  have hret := hmatch₄ call r₃ w₃ (hresult.of_module (hm₃.trans hm₂))
  rwa [hall₃] at hret

end Emission

/-! ### The whole thunk -/

namespace Thunk

variable {p : Pool} {target : Attempt Target} {m : Method} {s : Lowered}

/-- Generating a flat thunk: it does what `forwardFlat` does, or one of the four
things that stop generation is there. -/
theorem function_flat (hs : s.convention.isAsync = false) (hframe : s.frame = none)
    (symbol : String) {E : Prop}
    (htarget : ∀ fault, target = .error fault → E)
    (hmeta : ∀ fault, Target.receiverIsMetadata p m = .error fault → E)
    (hwitness : s.witness = false → ∀ index, target = .ok (.witness index) → E)
    (hsize : ∀ c ∈ s.carriers, ∀ schema, c.passing = .indirect schema →
      Size.limit ≤ wordBytes * schema.components.length → E) :
    (∃ f t, function p target { method := m, own := s, forwarded := s } symbol = .ok f ∧
      target = .ok t ∧ f.name = symbol ∧
      ∀ (call : Caller) (w : World) (parts : Parts Word),
        (∀ f args, KeepsModule (call f args)) → (∀ c ∈ s.carriers, c.KnownTo w) →
        s.result.KnownTo w → parts.Fits s →
        World.run call f parts.toList w = forwardFlat call p m t s parts w) ∨
      (∃ fault, function p target { method := m, own := s, forwarded := s } symbol = .error fault)
        ∧ E := by
  have hkinds : s.paramKinds.length = s.flatParams.length := by
    simp only [Lowered.paramKinds, Lowered.params, hs, Bool.false_eq_true, if_false, List.length_map]
  obtain ⟨parts, hparts, hlist⟩ :=
    Parts.exists_of_length s (List.range' 0 s.paramKinds.length) (by rw [List.length_range', hkinds])
  have hemit := @ends_function s.paramKinds
    (fun params => forward p target { method := m, own := s, forwarded := s } (flatPlan s)
      (Explosion.ofList params)) _ E symbol m.convention (fun b hb hvars => by
        rw [← hlist]
        refine closes_forwardFlat hb hs hframe hparts ?_ htarget hmeta hwitness hsize
        rw [hlist]
        refine Below.mono (below_range' 0 _) (by omega))
  have heq : emit p target { method := m, own := s, forwarded := s }
      = s.paramKinds.mapM Builder.param >>= fun params =>
        forward p target { method := m, own := s, forwarded := s } (flatPlan s)
          (Explosion.ofList params) := by
    simp only [emit, enter_flat hs, bind_assoc, pure_bind]
  rw [← heq] at hemit
  unfold function
  unfold Step.Ends at hemit
  split at hemit
  · next b hrun =>
    left
    obtain ⟨hname, hparams, code, terminator, hblocks, t, ht, hmatch⟩ := hemit
    refine ⟨b.finish, t, by simp only [hrun], ht, hname, ?_⟩
    intro call w parts' hcall hk hresult hfits
    have hlen : parts'.toList.length = s.paramKinds.length := by rw [hkinds, hfits.length_toList]
    refine run_eq_of_matches hblocks hparams hlen fun r hall => ?_
    have hsame : parts.map r.value = parts' := by
      refine Parts.toList_inj (hparts.map r.value) hfits ?_
      rw [Parts.toList_map, hlist]
      exact hall
    rw [← hsame]
    exact hmatch call r w hcall hk hresult
  · next fault b hrun =>
    right
    exact ⟨⟨fault, by simp only [hrun]⟩, hemit⟩

end Thunk

end Dispatch
