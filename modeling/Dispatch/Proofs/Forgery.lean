import Dispatch.Proofs.Fidelity
import Dispatch.Proofs.Handled.Loading

/-!
# Forged table entries

With pointer authentication on, a thunk checks what it loads from the table of a class
before it calls it.  Whatever is in memory, a word without the right tag is refused: no
body runs, and the landing of the call stays empty.  A word with the right tag is called
without it.  What booting puts into the tables has the right tag, for methods that
override others too.

## Main definitions

* `World.Mute` — steps that change nothing but memory.
* `World.Planted` — the word that the table of a receiver holds for a method.
* `World.Sealed` — where tables have the entries of a method, and how they are signed.
* `World.Idle`, `World.PassedOn` — what becomes of a call.
* `Shapes.forged` — a machine with a forged entry.

## Main results

* `World.Planted.load` — the loads of a thunk check the word.
* `World.Ready.authentic` — entries that nobody has overwritten pass the check.
* `World.callThunk_forged` — a forged entry is never called.
-/

namespace Dispatch

open Attempt

namespace World

variable {α β : Type} {u : Module} {refs : List Method} {w w' w₀ w₁ : World} {m base : Method}
  {s : Lowered} {c : LogicalCall} {slot : Slot} {receiver metadata address x : Word} {key : Key}
  {signing : Signing}

/-! ### Steps that change memory only -/

/-- However it ends, the step changes nothing but memory. -/
def Mute (x : Run α) : Prop :=
  ∀ w : World, Step.Ends x w (fun _ w' => ∃ m, w' = w.setMemory m)
    fun _ w' => ∃ m, w' = w.setMemory m

theorem Mute.bind {x : Run α} {f : α → Run β} (hx : Mute x) (hf : ∀ a, Mute (f a)) :
    Mute (x >>= f) := by
  intro w
  apply (hx w).bind_rel
  · intro a w' _
    exact hf a w'
  · intro w' w'' h h'
    obtain ⟨m, rfl⟩ := h
    obtain ⟨m', rfl⟩ := h'
    exact ⟨m', rfl⟩

theorem mute_pure (a : α) : Mute (pure a : Run α) := fun w => ⟨w.memory, rfl⟩

theorem mute_fail (cause : MachineError) : Mute (fail cause : Run α) := fun w => ⟨w.memory, rfl⟩

theorem mute_liftM (attempt : Attempt α) : Mute (liftM attempt : Run α) := by
  intro w
  rw [Step.ends_liftM]
  exact ⟨fun _ _ => ⟨w.memory, rfl⟩, fun _ _ => ⟨w.memory, rfl⟩⟩

theorem mute_withMemory (x : Step Memory α) : Mute (withMemory x) := by
  intro w
  rw [ends_withMemory]
  unfold Step.Ends
  split <;> exact ⟨_, rfl⟩

theorem mute_inMemory (question : Memory → Attempt α) : Mute (inMemory question) := by
  intro w
  rw [ends_inMemory]
  exact ⟨fun _ _ => ⟨w.memory, rfl⟩, fun _ _ => ⟨w.memory, rfl⟩⟩

theorem mute_ite {p : Prop} [Decidable p] {x y : Run α} (hx : Mute x) (hy : Mute y) :
    Mute (if p then x else y) := by
  split
  · exact hx
  · exact hy

theorem mute_loadAll (base : Word) (offset count : Nat) : Mute (loadAll base offset count) := by
  induction count generalizing offset with
  | zero => exact mute_pure _
  | succ count ih =>
    have hone : Mute (loadAt base offset) := (mute_liftM _).bind fun _ => mute_inMemory _
    exact hone.bind fun _ => (ih _).bind fun _ => mute_pure _

theorem mute_storeAll (base : Word) (words : List Word) (offset : Nat) :
    Mute (storeAll base offset words) := by
  induction words generalizing offset with
  | nil => exact mute_pure _
  | cons word rest ih =>
    exact (mute_liftM _).bind fun _ => (mute_withMemory _).bind fun _ => ih _

theorem mute_report (s : Lowered) (c : LogicalCall) (landing : Option Word × Option Word)
    (returned : Returned) : Mute (report s c landing returned) := by
  rw [report, readResult_eq]
  have hslot : Mute (readSlot landing.1) := by
    cases landing.1 with
    | none => exact mute_pure _
    | some slot => exact mute_inMemory fun m => m.read slot
  have hplace : Mute (readPlace landing.2 (resultWords s c) returned.values) := by
    cases landing.2 with
    | none => exact mute_pure _
    | some d => exact (mute_inMemory _).bind fun _ => mute_pure _
  exact (hslot.bind fun _ => mute_ite (mute_pure _) hplace).bind fun _ => mute_pure _

/-- Once the implementation has answered, no body runs any more. -/
theorem Aftermath.mute {l : Landing} {y : List Word → Run Report} (h : Aftermath s c l y)
    (results : List Word) : Mute (y results) := by
  cases h with
  | @flat resume spilled =>
    apply (mute_ite (mute_pure _) (mute_fail _)).bind
    intro results
    apply (mute_liftM _).bind
    intro results
    have hreceive : Mute (receiveFlat s resume spilled results) := by
      unfold receiveFlat
      exact mute_ite ((mute_liftM _).bind fun _ => mute_pure _) (mute_fail _)
    exact hreceive.bind fun _ => mute_report _ _ _ _
  | @frame own frame spilled =>
    apply (mute_ite (mute_pure _) (mute_fail _)).bind
    intro _
    apply (mute_loadAll _ _ _).bind
    intro results
    apply (mute_storeAll _ _ _).bind
    intro _
    have hvalues : Mute (frameValues s.frameLayout frame l.indirectReturn) := by
      unfold frameValues
      split
      · exact (mute_liftM _).bind fun _ => mute_inMemory _
      · exact mute_pure _
    have hreceive : Mute (receiveFrame s.frameLayout frame l.indirectReturn spilled []) :=
      mute_ite (hvalues.bind fun _ => mute_pure _) (mute_fail _)
    exact hreceive.bind fun _ => mute_report _ _ _ _

/-! ### What a table holds -/

/-- The receiver leads to metadata whose entry for `m` is the word `x`. -/
structure Planted (u : Module) (m : Method) (slot : Slot) (receiver metadata address x : Word)
    (w : World) : Prop where
  leads : Target.metadata u.pool m receiver w = .ok metadata w
  place : tableSlot metadata slot w = .ok address w
  holds : w.memory.read address = .ok x

/-- The address of an entry whose place is known once the bounds are read. -/
def resilientSlot (metadata bounds start : Word) (index : Nat) : Attempt Word :=
  if start.toNat < tableHeaderWords * wordBytes then .error (.machine (.unmapped bounds))
  else do
    let own ← addWord metadata start
    addWord own (UInt64.ofNat (index * wordBytes))

theorem tableSlot_resilient (metadata : Word) (bounds : String) (index : Nat) :
    tableSlot metadata (.resilient bounds index) = (do
      let bounds ← addressOf bounds
      let start ← read bounds
      resilientSlot metadata bounds start index) := by
  unfold tableSlot resilientSlot
  apply bind_congr
  intro bounds
  apply bind_congr
  intro start
  split
  · rfl
  · cases addWord metadata start with
    | error fault => rfl
    | ok own => rfl

/-- The address of an entry stays as long as nobody writes to what was there. -/
theorem tableSlot_keeps (h : tableSlot metadata slot w = .ok address w) (hw : w.Linked)
    (hlinks : ∀ symbol a, w.link? symbol = some a → w'.link? symbol = some a)
    (hev : w.memory.Evolves (fun _ => False) w'.memory) :
    tableSlot metadata slot w' = .ok address w' := by
  cases slot with
  | fixed word =>
    rw [tableSlot] at h ⊢
    obtain ⟨hplace, -⟩ := Step.liftM_eq_ok.mp h
    exact Step.liftM_eq_ok.mpr ⟨hplace, rfl⟩
  | resilient bounds index =>
    rw [tableSlot_resilient] at h ⊢
    obtain ⟨b, w₁, haddress, hrest⟩ := Step.bind_eq_ok.mp h
    obtain ⟨start, w₂, hread, hlift⟩ := Step.bind_eq_ok.mp hrest
    obtain ⟨hplace, rfl⟩ := Step.liftM_eq_ok.mp hlift
    obtain ⟨hstart, rfl⟩ := read_eq_ok.mp hread
    -- the bounds had an address before, since nothing has changed
    have hlink := ((ends_addressOf hw bounds).ok haddress).1
    rw [Step.bind_of_ok (addressOf_ok (hlinks _ _ hlink)),
      Step.bind_of_ok (read_ok (hev.read_ok hw.sound hstart id))]
    exact Step.liftM_eq_ok.mpr ⟨hplace, rfl⟩

/-- A receiver leads to the same metadata as long as nobody writes to what was there. -/
theorem metadata_keeps {p : Pool} (h : Target.metadata p m receiver w = .ok metadata w)
    (hs : w.memory.Sound) (hev : w.memory.Evolves (fun _ => False) w'.memory) :
    Target.metadata p m receiver w' = .ok metadata w' := by
  unfold Target.metadata at h ⊢
  obtain ⟨isMetadata, w₁, hlift, h⟩ := Step.bind_eq_ok.mp h
  obtain ⟨hkind, rfl⟩ := Step.liftM_eq_ok.mp hlift
  rw [hkind]
  cases isMetadata with
  | true =>
    cases h
    rfl
  | false =>
    obtain ⟨hword, -⟩ := read_eq_ok.mp h
    exact read_ok (hev.read_ok hs hword id)

theorem Planted.keeps (h : Planted u m slot receiver metadata address x w) (hw : w.Linked)
    (hlinks : ∀ symbol a, w.link? symbol = some a → w'.link? symbol = some a)
    (hev : w.memory.Evolves (fun _ => False) w'.memory) :
    Planted u m slot receiver metadata address x w' :=
  ⟨metadata_keeps h.leads hw.sound hev, tableSlot_keeps h.place hw hlinks hev,
    hev.read_ok hw.sound h.holds id⟩

theorem metadata_of_object (hkind : Target.receiverIsMetadata u.pool m = .ok false)
    (hobject : w.memory.read receiver = .ok metadata) :
    Target.metadata u.pool m receiver w = .ok metadata w := by
  rw [Target.metadata, hkind]
  exact read_ok hobject

/-- What an object leads to, if the method has a fixed place. -/
theorem planted_of_fixed {word : Nat}
    (hkind : Target.receiverIsMetadata u.pool m = .ok false)
    (hobject : w.memory.read receiver = .ok metadata)
    (haddress : addWord metadata (UInt64.ofNat (word * wordBytes)) = .ok address)
    (hentry : w.memory.read address = .ok x) :
    Planted u m (.fixed word) receiver metadata address x w where
  leads := metadata_of_object hkind hobject
  place := by
    rw [tableSlot, haddress]
    exact Step.run_liftM_ok
  holds := hentry

/-- What an object leads to, if the place of the method is known from bounds in memory. -/
theorem planted_of_object {symbol : String} {bounds start : Word} {index : Nat}
    (hkind : Target.receiverIsMetadata u.pool m = .ok false)
    (hobject : w.memory.read receiver = .ok metadata) (hbounds : w.link? symbol = some bounds)
    (hstart : w.memory.read bounds = .ok start)
    (hslot : resilientSlot metadata bounds start index = .ok address)
    (hentry : w.memory.read address = .ok x) :
    Planted u m (.resilient symbol index) receiver metadata address x w where
  leads := metadata_of_object hkind hobject
  place := by
    rw [tableSlot_resilient, Step.bind_of_ok (addressOf_ok hbounds),
      Step.bind_of_ok (read_ok hstart), hslot]
    rfl
  holds := hentry

/-! ### What a thunk makes of it -/

/-- The entries of a class method: where tables have them, and how they are signed. -/
structure Sealed (u : Module) (m : Method) (slot : Slot) (signing : Signing) : Prop where
  ofClass : m.isWitness = false
  key : u.options.signingKey = some signing.key
  slot : u.hierarchy.slot m = .ok slot
  signing : u.hierarchy.signing u.pool signing.key m = .ok signing

/-- Every class method has such entries, signed for the method that introduced them. -/
theorem exists_sealed (hu : u.Coherent refs) (hkey : u.options.signingKey = some key)
    (hbase : u.hierarchy.introducing m = .ok base) :
    ∃ slot symbol, base.descriptorSymbol u.pool = .ok symbol ∧
      Sealed u m slot ⟨key, discriminator symbol⟩ := by
  obtain ⟨_, _, _, _, _, _, _, _, hslot⟩ := hu.hierarchy.slot hbase
  obtain ⟨symbol, hsymbol⟩ := hu.references.descriptor (hu.references.of_introducing hbase)
  refine ⟨_, symbol, hsymbol, Hierarchy.isWitness_of_introducing hbase, hkey, hslot, ?_⟩
  rw [Hierarchy.signing_introducing hbase,
    Hierarchy.signing_eq (Hierarchy.introducing_introducing hbase), hsymbol]
  rfl

/-- Thunks load the entry and check it. -/
theorem Sealed.target (h : Sealed u m slot signing) :
    Target.ofMethod u.hierarchy u.pool u.options.signingKey m
      = .ok (.virtual slot (some signing)) := by
  rw [Target.ofMethod, if_neg (by simp [h.ofClass]), h.slot, h.key, Option.mapM_some, h.signing]
  rfl

/-- The loads of a thunk check the word that the table holds. -/
theorem Planted.load (h : Planted u m slot receiver metadata address x w)
    (witness : Option (Word × Word)) :
    (Target.virtual slot (some signing)).load u.pool m receiver witness w
      = (liftM (signing.check x) : Run Word) w := by
  rw [Target.load, Step.bind_of_ok h.leads, Step.bind_of_ok h.place,
    Step.bind_of_ok (read_ok h.holds)]
  rfl

/-- A call of a thunk ends as the check of the word does that the table holds, and what the
thunk does with the address in it. -/
theorem Planted.ends_callThunk {Q : Report → World → Prop} {E : Fault → World → Prop}
    (h : Planted u m slot c.receiver metadata address x w) (hsealed : Sealed u m slot signing)
    (hground : Grounded u refs w) (hu : u.Coherent refs) (hm : m ∈ refs)
    (hlower : u.layout.lower u.pool m = .ok s) (hclosed : m.Closed u.pool)
    (hshape : c.WellShaped s) (hroom : ¬ Exhausted ((callThunk m c).final w))
    (hrefused : Word.tagOf x ≠ signing.tag → ∀ l p target w₁,
      Loading u refs m s c w l p target w₁ → E (.machine (.authFailure x signing.tag)) w₁)
    (hpassed : Word.tagOf x = signing.tag → ∀ l p target w₁ rest,
      Loading u refs m s c w l p target w₁ → Sequel s c l w₁ rest →
      Step.Ends (rest (Word.strip x)) w₁ Q fun f w' => Exhausted w' ∨ E f w') :
    Step.Ends (callThunk m c) w Q E := by
  apply ends_callThunk_of_load hground hu hm hclosed hlower hsealed.target hshape hroom
  intro l p w₁ rest hloading hsequel
  -- the table holds at the load what it held when the call started
  have hplanted := h.keeps hground.linked (fun _ _ hl => hloading.links hl) hloading.evolves
  rw [Step.ends_bind, Step.Ends, hplanted.load]
  by_cases htag : Word.tagOf x = signing.tag
  · rw [Signing.check, if_pos htag]
    exact hpassed htag _ _ _ _ _ hloading hsequel
  · rw [Signing.check, if_neg htag]
    exact .inr (hrefused htag _ _ _ _ hloading)

/-! ### What becomes of a call -/

/-- A call that started in `w` has come to nothing in `w'`: no body has run, nothing that was
in memory has changed, and the landing of the call is all zero. -/
structure Idle (m : Method) (s : Lowered) (c : LogicalCall) (w w' : World) : Prop where
  log : w'.machine.log = w.machine.log
  kept : w.memory.Evolves (fun _ => False) w'.memory
  landing : ∃ errorSlot indirectReturn,
    (landingFor m c).value? w = some (errorSlot, indirectReturn) ∧
    (∀ a, errorSlot = some a → w'.memory.read a = .ok 0) ∧
    ∀ d, indirectReturn = some d →
      w'.memory.readWords d (resultWords s c) = .ok (List.replicate (resultWords s c) 0)

theorem Loading.idle {l : Landing} {p : Pool} {target : Target}
    (h : Loading u refs m s c w l p target w₁) : Idle m s c w w₁ where
  log := h.log
  kept := h.evolves
  landing := by
    refine ⟨_, _, h.landing, ?_, ?_⟩
    · intro a ha
      obtain ⟨floor, top, hclear⟩ := h.clear
      have hread := (hclear.slot a ha).1.read
      rwa [Nat.mul_zero, Word.plus_zero] at hread
    · intro d hd
      obtain ⟨floor, top, hclear⟩ := h.clear
      have hholds := (hclear.place d hd).1
      rw [h.words] at hholds
      exact hholds.readWords List.length_replicate

/-- A call that started in `w` has called `callee` in a world where no body had run and where
nothing had changed that was in memory before.  It has ended in `w'`, with a fault if there is
one; no body has run but those that this one call ran. -/
inductive PassedOn (u : Module) (refs : List Method) (callee : Word) (w : World) :
    Option Fault → World → Prop
  | answered {fault : Option Fault} {args results : List Word} {w₁ w₂ : World} {memory : Memory}
    (hregenerates : Regenerates u refs w w₁) (hlog : w₁.machine.log = w.machine.log)
    (hcall : callTo innerDepth callee args w₁ = .ok results w₂) :
    PassedOn u refs callee w fault (w₂.setMemory memory)
  | failed {fault : Fault} {args : List Word} {w₁ w' : World}
    (hregenerates : Regenerates u refs w w₁) (hlog : w₁.machine.log = w.machine.log)
    (hcall : callTo innerDepth callee args w₁ = .error fault w') :
    PassedOn u refs callee w (some fault) w'

theorem passedOn_of_mute {callee : Word} {args : List Word} {y : List Word → Run Report}
    (hregenerates : Regenerates u refs w w₁) (hlog : w₁.machine.log = w.machine.log)
    (hy : ∀ results, Mute (y results)) :
    Step.Ends (callTo innerDepth callee args >>= y) w₁
      (fun _ w' => PassedOn u refs callee w none w')
      fun f w' => PassedOn u refs callee w (some f) w' := by
  rw [Step.ends_bind, Step.Ends]
  cases hcall : callTo innerDepth callee args w₁ with
  | ok results w₂ =>
    apply Step.Ends.imp (hy results w₂)
    · rintro _ _ ⟨memory, rfl⟩
      exact .answered hregenerates hlog hcall
    · rintro _ _ ⟨memory, rfl⟩
      exact .answered hregenerates hlog hcall
  | error fault w' => exact .failed hregenerates hlog hcall

/-- What was loaded is called, and no other body runs. -/
theorem Sequel.passedOn {l : Landing} {p : Pool} {target : Target} {rest : Word → Run Report}
    (h : Sequel s c l w₁ rest) (hloading : Loading u refs m s c w l p target w₁) (hs : s.Sound)
    (hsound : w₁.memory.Sound) (callee : Word) :
    Step.Ends (rest callee) w₁ (fun _ w' => PassedOn u refs callee w none w')
      fun f w' => Exhausted w' ∨ PassedOn u refs callee w (some f) w' := by
  apply h.ends_of_call hs hsound (fun _ _ hfull => .inl hfull) callee
  intro args y w₂ hafter hlog hy
  apply Step.Ends.imp (passedOn_of_mute (hloading.regenerates.after hafter)
    (hlog.trans hloading.log) hy.mute) (fun _ _ h' => h')
  intro _ _ h'
  exact .inr h'

/-! ### Entries that nobody has overwritten -/

/-- Whoever descends from the class that introduced a method has an entry for it in its
table: the address of the implementation that the class uses, signed. -/
theorem Ready.authentic (h : Ready u refs w) (hu : u.Coherent refs)
    (hsealed : Sealed u m slot signing) (hbase : u.hierarchy.introducing m = .ok base)
    (hroom : ¬ Exhausted w) {owner dynamic : String} {n : Nat}
    (howner : base.owner = .ofClass owner) (hd : u.hierarchy.Descends owner n dynamic)
    (hclass : w.machine.classes.get? dynamic = some metadata) :
    ∃ address word symbol a, tableSlot metadata slot w = .ok address w ∧
      w.memory.read address = .ok word ∧ u.hierarchy.selected dynamic m = .ok symbol ∧
      w.link? symbol = some a ∧ signing.check word = .ok a := by
  obtain ⟨t, hat⟩ := h.tabled.classes dynamic metadata hclass
  obtain ⟨_, _, _, e, -, -, -, -, -, hfind, -⟩ := h.tabled.slot hu.hierarchy hbase howner hd hat
  have hselected := Hierarchy.selected_eq_ok hbase hat.table hfind
  obtain ⟨base', slot', address, a, word, hbase', hslot', haddress, hlink, hword, hread⟩ :=
    h.tabled.entry hu.hierarchy hclass hselected
  rw [hbase] at hbase'
  cases hbase'
  rw [hsealed.slot] at hslot'
  cases hslot'
  have hsigning : (u.options.signingKey.mapM fun key =>
      (u.hierarchy.signing u.pool key m).orTrap .discriminator) = .ok (some signing) := by
    rw [hsealed.key, Option.mapM_some, hsealed.signing]
    rfl
  exact ⟨address, word, _, a, haddress, hread, hselected, hlink,
    checked_entryWord (.refl _) hbase hsigning hword (h.tabled.linked.lt_of_link hroom hlink)⟩

/-- In a machine that signs its tables, whatever it was asked before, let a receiver lead to
a word at the place of a class method.  If the tag of the word is not the one for the key and
for the method that introduced the entry, a call of the thunk fails on the word before any
body runs, and leaves the landing of the call as it was.  If it is, the thunk calls the word
without its tag, and nothing else.  As long as nobody writes to the tables, the entries of
every class that has the method carry that tag, whether or not the class overrides the
method. -/
theorem callThunk_forged (hu : u.Coherent refs) (hkey : u.options.signingKey = some key)
    (hw : Handled u refs w) (hm : m ∈ refs) (hclosed : m.Closed u.pool)
    (hlower : u.layout.lower u.pool m = .ok s) {owner : String}
    (hbase : u.hierarchy.introducing m = .ok base) (howner : base.owner = .ofClass owner) :
    ∃ slot symbol, u.hierarchy.slot m = .ok slot ∧ base.descriptorSymbol u.pool = .ok symbol ∧
      (∀ c metadata address x, c.WellShaped s →
        Planted u m slot c.receiver metadata address x w →
        ¬ Exhausted ((callThunk m c).final w) →
        (Word.tagOf x ≠ (Signing.mk key (discriminator symbol)).tag → ∃ w', callThunk m c w
            = .error (.machine (.authFailure x (Signing.mk key (discriminator symbol)).tag)) w' ∧
          Idle m s c w w') ∧
        (Word.tagOf x = (Signing.mk key (discriminator symbol)).tag →
          Step.Ends (callThunk m c) w (fun _ w' => PassedOn u refs (Word.strip x) w none w')
            fun f w' => PassedOn u refs (Word.strip x) w (some f) w')) ∧
      (Undisturbed u refs w → ∀ n dynamic metadata, u.hierarchy.Descends owner n dynamic →
        w.machine.classes.get? dynamic = some metadata →
        ∃ address word symbol' a, tableSlot metadata slot w = .ok address w ∧
          w.memory.read address = .ok word ∧ u.hierarchy.selected dynamic m = .ok symbol' ∧
          w.link? symbol' = some a ∧
          (Signing.mk key (discriminator symbol)).check word = .ok a) := by
  obtain ⟨slot, symbol, hsymbol, hsealed⟩ := exists_sealed hu hkey hbase
  refine ⟨slot, symbol, hsealed.slot, hsymbol, ?_, ?_⟩
  · intro c metadata address x hshape hplanted hroom
    obtain ⟨⟨hground, -⟩, -⟩ := hw.settled hu
    constructor
    · intro htag
      have hends := hplanted.ends_callThunk hsealed hground hu hm hlower hclosed hshape hroom
        (Q := fun _ _ => False)
        (E := fun f w' => f = .machine (.authFailure x _) ∧ Idle m s c w w')
        (fun _ _ _ _ _ hloading => ⟨rfl, hloading.idle⟩) (fun heq => absurd heq htag)
      obtain ⟨_, w', hrun, rfl, hidle⟩ := hends.exists_error
      exact ⟨w', hrun, hidle⟩
    · intro htag
      apply hplanted.ends_callThunk hsealed hground hu hm hlower hclosed hshape hroom
      · intro hne
        exact absurd htag hne
      · intro _ l p target w₁ rest hloading hsequel
        have hs := Layout.sound_of_lower hu.frames hlower (hu.sized m hm s hlower)
        exact hsequel.passedOn hloading hs
          (hground.regenerates hloading.regenerates).linked.sound _
  · intro hundisturbed n dynamic metadata hd hclass
    obtain ⟨hready, hroom⟩ := hundisturbed.ready hu
    exact hready.authentic hu hsealed hbase hroom howner hd hclass

end World

/-! ### A forged entry -/

namespace Shapes

open World

/-- A machine with a square, in whose table the address of the outline of shapes has been
written in place of the square's area. -/
def forged : World := (Operation.write 4256 4192).run.final drawn

theorem planted_forged : Planted unit area (.resilient "_relay_shapes$Shape$Mo" 0) order.receiver
    4240 4256 4192 forged := by
  have hfacts : Target.receiverIsMetadata unit.pool area = .ok false ∧
      forged.memory.read 4360 = .ok 4240 ∧
      forged.link? "_relay_shapes$Shape$Mo" = some 4216 ∧ forged.memory.read 4216 = .ok 16 ∧
      resilientSlot 4240 4216 16 0 = .ok 4256 ∧ forged.memory.read 4256 = .ok 4192 := by
    decide +kernel
  obtain ⟨hkind, hobject, hbounds, hstart, hslot, hentry⟩ := hfacts
  exact planted_of_object hkind hobject hbounds hstart hslot hentry

/-- The square refuses the forged entry, and the entries that it had before are good. -/
theorem callThunk_forged_area :
    (∃ w', callThunk area order forged = .error (.machine (.authFailure 4192 63174)) w' ∧
      Idle area (signature area) order forged w') ∧
      ∃ address word a,
        tableSlot 4240 (.resilient "_relay_shapes$Shape$Mo" 0) drawn = .ok address drawn ∧
        drawn.memory.read address = .ok word ∧ drawn.link? "squareArea" = some a ∧
        (Signing.mk .ia 21347).check word = .ok a := by
  have hfacts : unit.options.signingKey = some .ia ∧
      unit.hierarchy.slot area = .ok (.resilient "_relay_shapes$Shape$Mo" 0) ∧
      area.descriptorSymbol unit.pool = .ok "_relay_shapes$Shape$area$ciobTlllllE_ltl$Tq" ∧
      discriminator "_relay_shapes$Shape$area$ciobTlllllE_ltl$Tq" = 21347 ∧
      (Signing.mk .ia 21347).tag = 63174 ∧
      drawn.machine.classes.get? "Square" = some 4240 ∧
      unit.hierarchy.selected "Square" area = .ok "squareArea" ∧
      ¬ Exhausted forged ∧ ¬ Exhausted ((callThunk area order).final forged) := by
    decide +kernel
  obtain ⟨hkey, hslot, hsymbol, hd, htag, hsquare, hused, hroom, hcall⟩ := hfacts
  obtain ⟨⟨-, -, -, hsteps⟩, ⟨harea, -⟩, -⟩ := scenes
  have hhandled : Handled unit methods drawn := reached_drawn.undisturbed.handled
  constructor
  · have hwritten : Handled unit methods forged :=
      hhandled.operate (.write 4256 4192) (by simp [Operation.named]) hroom
    obtain ⟨slot, symbol, hslot', hsymbol', hcalls, -⟩ := callThunk_forged coherent_unit hkey
      hwritten harea.mem (Method.closed_of_isClosed harea.closed) harea.lower harea.base
      harea.owner
    rw [hslot] at hslot'
    cases hslot'
    rw [hsymbol] at hsymbol'
    cases hsymbol'
    rw [hd] at hcalls
    obtain ⟨w', hrun, hidle⟩ :=
      (hcalls order 4240 4256 4192 harea.shaped planted_forged hcall).1 (by decide +kernel)
    rw [htag] at hrun
    exact ⟨w', hrun, hidle⟩
  · obtain ⟨slot, symbol, hslot', hsymbol', -, hgood⟩ := callThunk_forged coherent_unit hkey
      hhandled harea.mem (Method.closed_of_isClosed harea.closed) harea.lower harea.base
      harea.owner
    rw [hslot] at hslot'
    cases hslot'
    rw [hsymbol] at hsymbol'
    cases hsymbol'
    rw [hd] at hgood
    obtain ⟨address, word, used, a, hplace, hread, hselected, hlink, hcheck⟩ :=
      hgood reached_drawn.undisturbed 1 "Square" 4240 (Hierarchy.descends_of_steps? hsteps)
        hsquare
    rw [hused] at hselected
    cases hselected
    exact ⟨address, word, a, hplace, hread, hlink, hcheck⟩

end Shapes

namespace Chests

open World

/-- A machine with a chest, in whose table the entry for its contents has been overwritten with
an address that carries no tag. -/
def forged : World := (Operation.write 4112 4144).run.final shut

/-- The chest does not get as far as to refuse the forged entry when there is too much place to
make for the result. -/
theorem callThunk_forged_oversized :
    (unit.Coherent methods ∧ unit.options.signingKey = some .ia ∧ Handled unit methods forged ∧
      contents ∈ methods ∧ contents.Closed unit.pool ∧
      unit.layout.lower unit.pool contents = .ok (signature contents) ∧
      unit.hierarchy.introducing contents = .ok contents ∧ contents.owner = .ofClass "Chest") ∧
    (Shaped (signature contents).carriers order.args ∧
      order.bindings.length = (signature contents).bindingCount ∧
      (signature contents).witness = false) ∧
    (unit.hierarchy.slot contents = .ok (.fixed 2) ∧
      Planted unit contents (.fixed 2) order.receiver 4096 4112 4144 forged ∧
      ∃ symbol, contents.descriptorSymbol unit.pool = .ok symbol ∧
        Word.tagOf 4144 ≠ (Signing.mk .ia (discriminator symbol)).tag) ∧
    ¬ Exhausted ((callThunk contents order).final forged) ∧
    (callThunk contents order).fault? forged = some (.trap (.overflow .mul)) := by
  obtain ⟨⟨hclosed, hlower, hbase, hkind, hcarriers, hcount, hwitness⟩,
      ⟨hobject, hentry, hroom⟩, ⟨hslot, haddress⟩, ⟨hsymbol, htag⟩, hcall, hfault⟩ :
      (contents.isClosed unit.pool = true ∧
        unit.layout.lower unit.pool contents = .ok (signature contents) ∧
        unit.hierarchy.introducing contents = .ok contents ∧
        Target.receiverIsMetadata unit.pool contents = .ok false ∧
        (signature contents).carriers = [⟨9, .address⟩] ∧
        order.bindings.length = (signature contents).bindingCount ∧
        (signature contents).witness = false) ∧
      (forged.memory.read 4240 = .ok 4096 ∧ forged.memory.read 4112 = .ok 4144 ∧
        ¬ Exhausted forged) ∧
      (unit.hierarchy.slot contents = .ok (.fixed 2) ∧
        addWord 4096 (UInt64.ofNat (2 * wordBytes)) = .ok 4112) ∧
      (contents.descriptorSymbol unit.pool = .ok "_relay_chests$Chest$contents$cioG0__G0_tlg1r0$Tq" ∧
        Word.tagOf 4144 ≠ (Signing.mk .ia
          (discriminator "_relay_chests$Chest$contents$cioG0__G0_tlg1r0$Tq")).tag) ∧
      ¬ Exhausted ((callThunk contents order).final forged) ∧
      (callThunk contents order).fault? forged = some (.trap (.overflow .mul)) := by
    decide +kernel
  have hhandled : Handled unit methods forged :=
    reached_shut.undisturbed.handled.operate (.write 4112 4144) (by simp [Operation.named]) hroom
  refine ⟨⟨coherent_unit, rfl, hhandled, List.mem_cons_self, Method.closed_of_isClosed hclosed,
    hlower, hbase, rfl⟩, ⟨?_, hcount, hwitness⟩,
    ⟨hslot, planted_of_fixed hkind hobject haddress hentry, _, hsymbol, htag⟩, hcall, hfault⟩
  rw [hcarriers]
  exact ⟨trivial, trivial⟩

end Chests

end Dispatch
