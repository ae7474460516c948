import Dispatch.Proofs.Containment.Loads

/-!
# Entries that lead back

A word that a thunk loads may be the address of generated code: of another thunk, of the
thunk itself, or of a look-up function.  Such a call may go on to load words of its own,
and may never come to an end.  It still ends with errors, with sums that do not fit words,
or because calls nest too deep: with nothing else.

## Main definitions

* `World.Rash` — steps that end so.
* `World.LeadsBack` — the words whose calls run generated code.

## Main results

* `World.rash_forwardFlat`, `World.rash_forwardAsync` — thunks, whatever words they are
  called with.
* `World.rash_answer` — look-up functions.
* `World.ends_callTo`, `World.rash_callTo` — calls of any word.
-/

namespace Dispatch

open Attempt

/-- Numbers that do not fit stop the machine. -/
theorem Attempt.fits_runaway {α : Type} {operation : Overflow} {o : Option α} {f : Fault}
    (h : fits operation o = .error f) : f.Runaway := by
  cases o with
  | some a => cases h
  | none =>
    cases h
    exact .overflow operation

namespace World

variable {α : Type} {u : Module} {refs : List Method} {w : World} {m : Method} {p : Pool}
  {s : Lowered} {target : Target} {frame : Word} {call : Caller}

/-- A sum that does not fit is one of the faults that stop the machine. -/
theorem loose_of_overflow {f : Fault} {A B : Prop}
    (h : A ∨ f.Caught ∨ f = .trap (.overflow .add) ∧ B) : A ∨ f.Loose := by
  rcases h with ha | hcaught | ⟨rfl, -⟩
  · exact .inl ha
  · exact .inr (.inl hcaught)
  · exact .inr (.inr (.overflow .add))

/-- The step ends with errors, sums that do not fit, or calls that do not end. -/
abbrev Rash (u : Module) (refs : List Method) (x : Run α) : Prop :=
  Contained u refs Fault.Loose x

/-! ### Frames at any address -/

theorem rash_addWord (a b : Word) : Rash u refs (liftM (addWord a b) : Run Word) :=
  contained_liftM fun _ hf => .inr (fits_runaway hf)

theorem rash_loadAt (base : Word) (offset : Nat) : Rash u refs (loadAt base offset) :=
  (rash_addWord _ _).bind fun _ => (careful_read _).loosen

theorem rash_storeAt (base : Word) (offset : Nat) (v : Word) :
    Rash u refs (storeAt base offset v) :=
  (rash_addWord _ _).bind fun _ => (careful_write _ _).loosen

theorem rash_loadAll (base : Word) (offset count : Nat) :
    Rash u refs (loadAll base offset count) := by
  induction count generalizing offset with
  | zero => exact contained_pure _
  | succ count ih =>
    exact (rash_loadAt _ _).bind fun _ => (ih _).bind fun _ => contained_pure _

theorem rash_storeAll (base : Word) (words : List Word) (offset : Nat) :
    Rash u refs (storeAll base offset words) := by
  induction words generalizing offset with
  | nil => exact contained_pure _
  | cons word rest ih =>
    apply (rash_addWord _ _).bind
    intro a
    exact (careful_write a word).loosen.bind fun _ => ih _

theorem rash_readField (frame : Word) (offset : Option Nat) :
    Rash u refs (readField frame offset) := by
  cases offset with
  | none => exact contained_pure _
  | some o =>
    exact (rash_addWord _ _).bind fun _ => (careful_read _).loosen.bind fun _ => contained_pure _

theorem rash_writeField (frame : Word) (offset : Option Nat) (value : Option Word) :
    Rash u refs (writeField frame offset value) := by
  unfold writeField
  split
  · exact (rash_addWord _ _).bind fun _ => (careful_write _ _).loosen
  · exact contained_pure _

theorem rash_readWitness (f : Frame) (frame : Word) : Rash u refs (readWitness f frame) := by
  unfold readWitness
  split
  · apply (rash_addWord _ _).bind
    intro _
    apply (careful_read _).loosen.bind
    intro _
    apply (rash_addWord _ _).bind
    intro _
    exact (careful_read _).loosen.bind fun _ => contained_pure _
  · exact contained_pure _

theorem rash_alloc (bytes : Nat) : Rash u refs (withMemory (Memory.alloc bytes)) := by
  apply (tame_alloc bytes).contained
  intro w _ _
  rw [ends_withMemory]
  by_cases hroom : w.memory.next.toNat + Region.extent bytes + Region.gapBytes < 2 ^ 64
  · exact Step.ends_of_ok (Memory.alloc_ok hroom) trivial
  · exact Step.ends_of_error (Memory.alloc_error hroom) (.inr (.overflow .add))

theorem rash_allocWords (words : Nat) : Rash u refs (withMemory (Memory.allocWords words)) := by
  rw [Memory.allocWords, withMemory_bind, withMemory_liftM]
  apply (contained_liftM fun _ hf => .inr (fits_runaway hf)).bind
  intro bytes
  exact rash_alloc bytes

theorem wordAddresses_runaway {base : Word} {count start : Nat} {f : Fault}
    (h : wordAddresses base start count = .error f) : f.Runaway := by
  induction count generalizing start with
  | zero => cases h
  | succ count ih =>
    rcases bind_eq_error.mp h with hfirst | ⟨first, -, h⟩
    · rcases bind_eq_error.mp hfirst with hproduct | ⟨bytes, -, hsum⟩
      · exact fits_runaway hproduct
      · exact fits_runaway hsum
    · rcases bind_eq_error.mp h with hrest | ⟨others, -, h⟩
      · exact ih hrest
      · cases h

theorem rash_spill (words : List Word) : Rash u refs (spill words) := by
  apply (rash_allocWords _).bind
  intro base
  apply (careful_writeWords base words).loosen.bind
  intro _
  apply (contained_liftM fun _ hf => .inr (wordAddresses_runaway hf)).bind
  intro _
  exact contained_pure _

/-! ### Arguments -/

theorem careful_decodeAll (carriers : List Carrier) (index : Nat) (native : List Word) :
    Careful u refs (decodeAll index native carriers) := by
  induction carriers generalizing index native with
  | nil => exact contained_pure _
  | cons c rest ih =>
    have hfirst : Careful u refs
        (decodeOne index (native.take c.passing.registerWords) c.passing) := by
      cases c.passing with
      | direct schema =>
        exact (contained_liftM fun _ => Schema.decode_caught).bind fun _ => contained_pure _
      | indirect schema => exact (careful_takeWords _ _).bind fun _ => contained_pure _
      | address => exact contained_pure _
    exact hfirst.bind fun _ => (ih _ _).bind fun _ => contained_pure _

theorem rash_flatArgs (args : List (Carrier × ArgValue)) (index : Nat) :
    Rash u refs (flatArgs index args) := by
  induction args generalizing index with
  | nil => exact contained_pure _
  | cons arg rest ih =>
    obtain ⟨c, arg⟩ := arg
    have hfirst : Rash u refs (flatArg index arg c.passing) := by
      have hfail : ∀ {β : Type}, Rash u refs (fail (.argumentShape index) : Run β) :=
        (careful_fail _).loosen
      unfold flatArg
      cases c.passing with
      | direct schema =>
        apply contained_ite
        · intro _
          exact contained_pure _
        · intro _
          cases arg with
          | value words =>
            exact (contained_liftM fun _ h => .inl (Schema.encode_caught h)).bind
              fun _ => contained_pure _
          | address _ => exact hfail
      | indirect schema =>
        cases arg with
        | value words => exact (rash_spill words).bind fun _ => contained_pure _
        | address _ => exact hfail
      | address =>
        cases arg with
        | value _ => exact hfail
        | address word => exact contained_pure _
    exact hfirst.bind fun _ => (ih _).bind fun _ => contained_pure _

theorem rash_fetchParams (carriers : List Carrier) (start : Nat) :
    Rash u refs (fetchParams frame start carriers) := by
  induction carriers generalizing start with
  | nil => exact contained_pure _
  | cons c rest ih =>
    have hfirst : Rash u refs (fetchParam frame start c.passing) := by
      cases c.passing with
      | direct schema => exact (rash_loadAll _ _ _).bind fun _ => contained_pure _
      | indirect schema =>
        apply (rash_loadAt _ _).bind
        intro _
        exact (careful_takeWords _ _).loosen.bind fun _ => contained_pure _
      | address => exact (rash_loadAt _ _).bind fun _ => contained_pure _
    exact hfirst.bind fun _ => (ih _).bind fun _ => contained_pure _

theorem rash_fillParams (args : List (Carrier × ArgValue)) (start : Nat) :
    Rash u refs (fillParams frame start args) := by
  induction args generalizing start with
  | nil => exact contained_pure _
  | cons arg rest ih =>
    obtain ⟨c, arg⟩ := arg
    have hfirst : Rash u refs (fillParam frame start arg c.passing) := by
      cases c.passing with
      | direct schema => exact (rash_storeAll _ _ _).bind fun _ => contained_pure _
      | indirect schema =>
        apply (rash_spill _).bind
        intro _
        exact (rash_storeAt _ _ _).bind fun _ => contained_pure _
      | address => exact (rash_storeAt _ _ _).bind fun _ => contained_pure _
    exact hfirst.bind fun _ => (ih _).bind fun _ => contained_pure _

theorem rash_fillFrame (s : Lowered) (frame : Word) (parts : Parts Word) (args : List ArgValue) :
    Rash u refs (fillFrame s frame parts args) := by
  apply (rash_storeAt _ _ _).bind
  intro _
  apply (rash_writeField _ _ _).bind
  intro _
  apply (rash_writeField _ _ _).bind
  intro _
  apply (rash_writeField _ _ _).bind
  intro _
  apply (rash_writeField _ _ _).bind
  intro _
  exact (rash_fillParams _ _).bind fun _ => rash_storeAll _ _ _

theorem rash_fetchFrame (s : Lowered) (frame : Word) : Rash u refs (fetchFrame s frame) := by
  apply (rash_loadAt _ _).bind
  intro _
  apply (rash_readWitness _ _).bind
  intro _
  apply (rash_readField _ _).bind
  intro _
  apply (rash_readField _ _).bind
  intro _
  apply (rash_fetchParams _ _).bind
  intro _
  exact (rash_loadAll _ _ _).bind fun _ => contained_pure _

/-- Whatever a step does, what always comes after it is what comes after it. -/
theorem ends_bind_of_forall {β : Type} {x : Run α} {f : α → Run β} {Q : β → World → Prop}
    (hf : ∀ a w', Step.Ends (f a) w' Q fun _ _ => True) :
    Step.Ends (x >>= f) w Q fun _ _ => True := by
  rw [Step.ends_bind, Step.Ends]
  split
  · exact hf _ _
  · trivial

/-- The frames of a requirement hold a witness table. -/
theorem ends_fetchFrame_isSome (hwitness : s.witness = true) :
    Step.Ends (fetchFrame s frame) w (fun fetched _ => fetched.1.witness.isSome)
      fun _ _ => True := by
  -- whatever else is read, the witness is there once its two words are
  have hread : ∀ w, Step.Ends (readWitness s.frameLayout frame) w (fun o _ => o.isSome)
      fun _ _ => True := by
    intro w
    simp only [readWitness, Lowered.frameLayout, hwitness, if_true]
    exact ends_bind_of_forall fun _ _ => ends_bind_of_forall fun _ _ =>
      ends_bind_of_forall fun _ _ => ends_bind_of_forall fun _ _ => rfl
  rw [fetchFrame]
  apply ends_bind_of_forall
  intro receiver w₁
  rw [Step.ends_bind]
  apply Step.Ends.imp (hread w₁)
  · intro witness w₂ h
    exact ends_bind_of_forall fun _ _ => ends_bind_of_forall fun _ _ =>
      ends_bind_of_forall fun _ _ => ends_bind_of_forall fun _ _ => h
  · intro _ _ _
    trivial

/-! ### Thunks -/

theorem rash_load (hkind : ∃ b, Target.receiverIsMetadata p m = .ok b)
    {witness : Option (Word × Word)} (hwitness : ∀ index, target = .witness index → witness.isSome)
    (receiver : Word) : Rash u refs (target.load p m receiver witness) := by
  intro w hw
  apply Step.Ends.imp (ends_load hw hkind hwitness)
  · intro _ _ h
    exact h.1
  · exact fun _ _ => loose_of_overflow

theorem returned_caught {results : List Word} {f : Fault}
    (h : Thunk.returned s results = .error f) : f.Caught := by
  unfold Thunk.returned at h
  split at h
  · cases h
  · split at h
    · split at h
      · cases h
      · rcases bind_eq_error.mp h with hdecode | ⟨values, -, hencode⟩
        · exact Schema.decode_caught hdecode
        · exact Schema.encode_caught hencode
    · cases h
    · cases h

/-- A thunk with flat arguments, if what it calls ends so. -/
theorem rash_forwardFlat (hcall : ∀ callee args, Rash u refs (call callee args))
    (hkind : ∃ b, Target.receiverIsMetadata p m = .ok b) {parts : Parts Word}
    (hwitness : ∀ index, target = .witness index → parts.witness.isSome) :
    Rash u refs (Thunk.forwardFlat call p m target s parts) := by
  apply (careful_decodeAll _ _ _).loosen.bind
  intro args
  apply (rash_load hkind hwitness _).bind
  intro function
  apply (rash_flatArgs _ _).bind
  intro native
  have hfor : Rash u refs (Thunk.callFor call s function (parts.withParams native.1).toList) := by
    apply (hcall _ _).bind
    intro results
    exact contained_ite (fun _ => contained_pure _) fun _ => (careful_fail _).loosen
  apply hfor.bind
  intro results
  exact contained_liftM fun _ hf => .inl (returned_caught hf)

theorem rash_checkFrame (frame : Word) (required : Nat) :
    Rash u refs (checkFrame frame required) := by
  apply Contained.loosen
  intro w hw
  apply Step.Ends.imp (ends_checkFrame frame required hw)
  · exact fun _ _ h => h.1
  · exact fun _ _ h => h

theorem rash_suspend : Rash u refs suspend := by
  intro w hw
  have hsteady : Steady w w.suspended := ⟨rfl, rfl, rfl, rfl, rfl, rfl⟩
  rw [suspend, Step.ends_modify]
  exact hw.spares (hsteady.spares (.refl _ fun n => 0 ≤ n))

/-- The load of a requirement relies on what was fetched from the frame. -/
theorem ends_fetchFrame_for (hw : Settled u refs w)
    (hwitness : ∀ index, target = .witness index → s.witness = true) :
    Step.Ends (fetchFrame s frame) w
      (fun fetched w' => Settled u refs w' ∧
        ∀ index, target = .witness index → fetched.1.witness.isSome)
      fun f w' => Exhausted w' ∨ f.Loose := by
  have hrash := rash_fetchFrame s frame w hw
  by_cases hasked : s.witness = true
  · apply Step.Ends.imp (Step.Ends.and hrash (ends_fetchFrame_isSome hasked))
    · exact fun _ _ h => ⟨h.1, fun _ _ => h.2⟩
    · exact fun _ _ h => h.1
  · apply Step.Ends.imp hrash
    · exact fun _ _ h => ⟨h, fun index htarget => absurd (hwitness index htarget) hasked⟩
    · exact fun _ _ h => h

/-- A thunk with a frame, if what it calls ends so. -/
theorem rash_forwardAsync (hcall : ∀ callee args, Rash u refs (call callee args))
    (hkind : ∃ b, Target.receiverIsMetadata p m = .ok b)
    (hwitness : ∀ index, target = .witness index → s.witness = true) (frame : Word) :
    Rash u refs (Thunk.forwardAsync call p m target s frame) := by
  apply (rash_checkFrame _ _).bind
  intro _
  apply contained_bind fun _ hw => ends_fetchFrame_for hw hwitness
  intro fetched hsome
  apply (rash_load hkind hsome _).bind
  intro function
  apply (rash_alloc _).bind
  intro own
  apply (rash_fillFrame _ _ _ _).bind
  intro _
  have hframe : Rash u refs (Thunk.callFrame call function own) := by
    apply rash_suspend.bind
    intro _
    apply (hcall _ _).bind
    intro results
    exact contained_ite (fun _ => contained_pure _) fun _ => (careful_fail _).loosen
  apply hframe.bind
  intro _
  apply (rash_loadAll _ _ _).bind
  intro results
  exact (rash_storeAll _ _ _).bind fun _ => contained_pure _

/-! ### Look-up functions -/

/-- No walk up the superclasses leaves the address space. -/
theorem descendsTo_caught {memory : Memory} (hs : memory.Sound)
    (hroom : memory.next.toNat ≤ 2 ^ 48) {descriptor : Word} {steps : Nat} {metadata : Word}
    {f : Fault} (h : descendsTo memory descriptor steps metadata = .error f) : f.Caught := by
  induction steps generalizing metadata with
  | zero =>
    cases h
    exact ⟨_, rfl⟩
  | succ steps ih =>
    rw [descendsTo] at h
    split at h
    · cases h
    · rcases bind_eq_error.mp h with hread | ⟨first, hread, h⟩
      · exact Memory.read_caught hread
      · split at h
        · cases h
        · -- the metadata has a mapped word, so the next word has an address
          have hlt := hs.lt_next_of_isMapped (Memory.isMapped_of_read hread)
          rw [addWord_ofNat (by simp only [wordBytes]; omega), ok_bind] at h
          rcases bind_eq_error.mp h with hparent | ⟨parent, -, h⟩
          · exact Memory.read_caught hparent
          · exact ih h

/-- Looking for the declaration of a method fails only for a reason. -/
theorem declOf_error {h : Hierarchy} {f : Fault} (herror : h.declOf m = .error f) :
    ∃ cause, f = .abi cause := by
  unfold Hierarchy.declOf at herror
  split at herror
  · cases herror
    exact ⟨_, rfl⟩
  · rcases bind_eq_error.mp herror with hclass | ⟨owner, -, herror⟩
    · unfold Hierarchy.classNamed at hclass
      split at hclass <;> cases hclass
      exact ⟨_, rfl⟩
    · split at herror <;> cases herror
      exact ⟨_, rfl⟩

theorem introducingTo_error {h : Hierarchy} {f : Fault} {steps : Nat} {m : Method}
    (herror : h.introducingTo steps m = .error f) : (∃ cause, f = .abi cause) ∨ f.Runaway := by
  induction steps generalizing m with
  | zero =>
    cases herror
    exact .inr .endless
  | succ steps ih =>
    rw [Hierarchy.introducingTo] at herror
    rcases bind_eq_error.mp herror with hdecl | ⟨decl, -, herror⟩
    · exact .inl (declOf_error hdecl)
    · split at herror
      · cases herror
      · exact ih herror

/-- Whether a method has a slot is known of every method. -/
theorem slot_loose (hwf : u.hierarchy.WellFormed) {f : Fault}
    (h : (u.hierarchy.slot m).onMachine = .error f) : f.Loose := by
  cases hbase : u.hierarchy.introducing m with
  | ok base =>
    obtain ⟨_, _, _, _, -, -, -, -, hslot⟩ := hwf.slot hbase
    rw [hslot] at h
    cases h
  | error fault =>
    have hslot : u.hierarchy.slot m = .error fault := by
      rw [Hierarchy.slot, hbase]
      rfl
    rw [hslot] at h
    rcases introducingTo_error hbase with ⟨cause, rfl⟩ | hrunaway
    · cases h
      exact .inl ⟨_, rfl⟩
    · cases hrunaway with
      | overflow operation =>
        cases h
        exact .inr (.overflow operation)
      | endless =>
        cases h
        exact .inr .endless

theorem rash_tableSlot (metadata : Word) (slot : Slot) :
    Rash u refs (tableSlot metadata slot) := by
  intro w hw
  apply Step.Ends.imp (ends_tableSlot hw metadata slot)
  · intro _ _ h
    exact h.1
  · exact fun _ _ => loose_of_overflow

theorem rash_lookupClassMethod (hwf : u.hierarchy.WellFormed)
    (metadata descriptor typeDescriptor : Word) :
    Rash u refs (lookupClassMethod metadata descriptor typeDescriptor) := by
  intro w hw
  rw [lookupClassMethod, Step.ends_bind, Step.ends_get]
  split
  · next m _ =>
    rw [hw.grounded.generated.hierarchy]
    have hdescends : Rash u refs (inMemory fun memory =>
        descendsFrom memory metadata typeDescriptor) := by
      apply Contained.loosen
      apply careful_inMemory
      intro memory hs hroom f
      exact descendsTo_caught hs hroom
    apply hdescends.bind _ w hw
    intro descends
    apply contained_ite
    · intro _
      apply (contained_liftM fun _ => slot_loose hwf).bind
      intro slot
      exact (rash_tableSlot _ _).bind fun _ => (careful_read _).loosen
    · intro _
      exact (careful_fail _).loosen
  · exact (careful_fail _).loosen w hw

theorem rash_answer (hwf : u.hierarchy.WellFormed) (typeDescriptor : String)
    (metadata descriptor : Word) (cs : List LookupCandidate) :
    Rash u refs (LookupPlan.answer typeDescriptor metadata descriptor cs) := by
  induction cs with
  | nil =>
    apply (careful_addressOf _).loosen.bind
    intro _
    exact (rash_lookupClassMethod hwf _ _ _).bind fun _ => contained_pure _
  | cons c rest ih =>
    apply (careful_addressOf _).loosen.bind
    intro expected
    apply contained_ite
    · intro _
      exact (careful_addressOf _).loosen.bind fun _ => contained_pure _
    · intro _
      exact ih

end World

/-! ### Generated code -/

/-- Generated code is a thunk or a look-up function. -/
theorem Module.Generated.code_of_function? {u v : Module} {refs : List Method}
    (hv : u.Generated refs v) {symbol : String} {f : Function}
    (hf : v.function? symbol = some f) :
    (∃ m entry, v.thunks.get? m = some entry ∧ entry.body = some f) ∨
      ∃ (plan : LookupPlan) (name : String), f = plan.code name := by
  rw [Module.function?, Option.or_eq_some_iff] at hf
  rcases hf with hthunk | ⟨-, hlookup⟩
  · obtain ⟨entry, hentry, hbody⟩ := Option.bind_eq_some_iff.mp hthunk
    obtain ⟨m, hget, -⟩ := Registry.exists_of_bySymbol? hv.thunkKeys hentry
    exact .inl ⟨m, entry, hget, hbody⟩
  · obtain ⟨entry, hentry, hbody⟩ := Option.bind_eq_some_iff.mp hlookup
    obtain ⟨className, hget, -⟩ := Registry.exists_of_bySymbol? hv.lookupKeys hentry
    obtain ⟨plan, -, hplan⟩ := (hv.lookups className entry hget).body f hbody
    rw [plan.function_eq] at hplan
    exact .inr ⟨plan, entry.symbol, (Except.ok.inj hplan).symm⟩

namespace World

variable {u : Module} {refs : List Method} {w : World} {call : Caller} {f : Function}

/-- Running a function counts the arguments first. -/
theorem ends_run_of_length {args : List Word}
    (hrun : args.length = f.params.length →
      Step.Ends (run call f args) w (fun _ w' => Settled u refs w')
        fun fault w' => Exhausted w' ∨ fault.Loose) :
    Step.Ends (run call f args) w (fun _ w' => Settled u refs w')
      fun fault w' => Exhausted w' ∨ fault.Loose := by
  by_cases hlength : args.length = f.params.length
  · exact hrun hlength
  · rw [run, Registers.setAll_error _ _ (by rw [List.length_map]; exact fun h => hlength h.symm)]
    exact .inr (.inl ⟨_, rfl⟩)

/-- The code of a thunk, called with as many words as it has parameters. -/
theorem ends_run_thunk (hw : Settled u refs w) (hu : u.Coherent refs) {m : Method} {s : Lowered}
    {p : Pool} {target : Target} (hm : m ∈ refs) (hclosed : m.Closed u.pool)
    (hlower : u.layout.lower u.pool m = .ok s) (hforwards : u.Forwards m s f p target)
    (hkeeps : ∀ f args, KeepsModule (call f args))
    (hcall : ∀ callee args, Rash u refs (call callee args)) {args : List Word}
    (hlength : args.length = s.params.length) :
    Step.Ends (run call f args) w (fun _ w' => Settled u refs w')
      fun fault w' => Exhausted w' ∨ fault.Loose := by
  have hlowers := Layout.lowers_of_lower hlower
  have hkind : ∃ b, Target.receiverIsMetadata p m = .ok b := by
    obtain ⟨b, hb⟩ := Target.receiverIsMetadata_of_closed hclosed
    exact ⟨b, Target.receiverIsMetadata_extends hforwards.pool hb⟩
  have hwitness : ∀ index, target = .witness index → s.witness = true := by
    intro index htarget
    rw [hlowers.witness]
    apply Target.isWitness_of_ofMethod
    rw [← htarget]
    exact hforwards.place
  have hknown : ∀ c, c ∈ s.carriers ∨ c = s.result → c.KnownTo w := fun c hc =>
    hlowers.knownTo (hu.references.known hm) hw.grounded.generated.layout
      hw.grounded.generated.pool hc
  rw [Step.Ends]
  cases hconv : s.convention.isAsync with
  | true =>
    rw [Lowered.params, hconv, if_pos rfl, List.length_singleton] at hlength
    obtain ⟨frame, rfl⟩ := List.length_eq_one_iff.mp hlength
    rw [hforwards.async hconv]
    exact rash_forwardAsync hcall hkind hwitness frame w hw
  | false =>
    rw [Lowered.params, hconv, if_neg Bool.false_ne_true] at hlength
    obtain ⟨parts, hfits, rfl⟩ := Parts.exists_of_length s args hlength
    rw [hforwards.flat hconv call w parts hkeeps (fun c hc => hknown c (.inl hc))
      (hknown _ (.inr rfl)) hfits]
    apply rash_forwardFlat hcall hkind _ w hw
    intro index htarget
    rw [hfits.witness]
    exact hwitness index htarget

/-- Any generated code of the module, called with any words. -/
theorem ends_run (hw : Settled u refs w) (hu : u.Coherent refs)
    (hclosed : ∀ m ∈ refs, m.Closed u.pool) {symbol : String}
    (hf : w.module.function? symbol = some f) (hkeeps : ∀ f args, KeepsModule (call f args))
    (hcall : ∀ callee args, Rash u refs (call callee args)) (args : List Word) :
    Step.Ends (run call f args) w (fun _ w' => Settled u refs w')
      fun fault w' => Exhausted w' ∨ fault.Loose := by
  apply ends_run_of_length
  intro hlength
  rcases hw.grounded.generated.code_of_function? hf with
    ⟨m, entry, hentry, hbody⟩ | ⟨plan, name, rfl⟩
  · -- the code was generated from the declaration, which has as many parameters
    have hthunk := hw.grounded.generated.thunks m entry hentry
    obtain ⟨p, target, hforwards⟩ := hthunk.body f hbody
    obtain ⟨_, _, hformed⟩ := (hw.formed.thunks m entry hentry).body f hbody
    have hcount : f.params.length = entry.declaration.params.length := by
      simpa [Lowered.paramKinds] using congrArg List.length hformed.params
    exact ends_run_thunk hw hu hthunk.mem (hclosed m hthunk.mem) hthunk.declaration hforwards
      hkeeps hcall (hlength.trans hcount)
  · obtain ⟨metadata, descriptor, rfl⟩ := List.length_eq_two.mp hlength
    rw [Step.Ends, LookupPlan.run_function]
    exact Step.ends_map.mpr (rash_answer hu.hierarchy _ _ _ _ w hw)

/-- A call of the word runs generated code: the word is the address of a function of the
module, and no implementation has its symbol. -/
def LeadsBack (w : World) (callee : Word) : Prop :=
  ∃ symbol f, w.nameAt? callee = some symbol ∧
    w.machine.implementations.get? symbol = none ∧ w.module.function? symbol = some f

/-- A call of a word, if the calls that nest in it end so. -/
theorem ends_callTo (hw : Settled u refs w) (hu : u.Coherent refs)
    (hclosed : ∀ m ∈ refs, m.Closed u.pool) {depth : Nat}
    (hcall : ∀ callee args, Rash u refs (callTo depth callee args)) (callee : Word)
    (args : List Word) :
    Step.Ends (callTo (depth + 1) callee args) w (fun _ w' => Settled u refs w')
      fun f w' => Exhausted w' ∨ f.Caught ∨ f.Runaway ∧ w.LeadsBack callee := by
  have hcareful : ∀ x : Run (List Word), Careful u refs x →
      Step.Ends x w (fun _ w' => Settled u refs w')
        fun f w' => Exhausted w' ∨ f.Caught ∨ f.Runaway ∧ w.LeadsBack callee := by
    intro x hx
    apply Step.Ends.imp (hx w hw)
    · exact fun _ _ h => h
    · exact fun _ _ h => h.imp_right .inl
  rw [callTo]
  split
  · exact hcareful _ (careful_fail _)
  · rw [Step.ends_bind, Step.ends_get]
    split
    · exact hcareful _ (careful_fail _)
    · next symbol hname =>
      split
      · next hi => exact hcareful _ (careful_invokeNative (hw.grounded.sound hu hi) args)
      · next hfree =>
        split
        · next f hf =>
          -- only generated code can end otherwise
          apply Step.Ends.imp (ends_run hw hu hclosed hf (keepsModule_callTo depth) hcall args)
          · exact fun _ _ h => h
          · exact fun _ _ h => h.imp_right (.imp_right (⟨·, symbol, f, hname, hfree, hf⟩))
        · exact hcareful _ (careful_fail _)

/-- A call of any word, however deep it nests. -/
theorem rash_callTo (hu : u.Coherent refs) (hclosed : ∀ m ∈ refs, m.Closed u.pool) (depth : Nat) :
    ∀ callee args, Rash u refs (callTo depth callee args) := by
  -- calls that nest too deep are the only way to get there without a call that ended so
  induction depth with
  | zero => exact fun _ _ _ _ => .inr (.inr .endless)
  | succ depth ih =>
    intro callee args w hw
    apply Step.Ends.imp (ends_callTo hw hu hclosed ih callee args)
    · exact fun _ _ h => h
    · exact fun _ _ h => h.imp_right (.imp_right And.left)

end World

end Dispatch
