import Dispatch.Proofs.Readiness.Lookups

/-!
# Worlds that requests lead to

A machine is booted, and then asked to install implementations, to make objects, to call
thunks and implementations, and to look methods up, in any order.  Requests may be
refused and calls may fault; as long as every thunk is called for a receiver that its
method has, the world stays one between requests.

## Main definitions

* `Request` — what a machine can be asked.
* `Request.Permitted` — a call of a thunk is for a receiver of the method's own type.
* `World.Reached` — the worlds that permitted requests lead to.

## Main results

* `World.Ready.request` — one request.
* `World.Reached.ready` — all of them.
-/

namespace Dispatch

open Attempt World

/-- What a machine can be asked. -/
inductive Request where
  | implement (symbol : String) (body : NativeBody)
  | newObject (className : String)
  | callThunk (m : Method) (c : LogicalCall)
  | callImplementation (symbol : String) (c : LogicalCall)
  | callLookup (className : String) (metadata : Word) (m : Method)
  | askRuntime (className : String) (metadata : Word) (m : Method)

/-- Do what is asked, and forget the answer. -/
def Request.run : Request → Run Unit
  | implement symbol body => World.implement symbol body
  | newObject className => do let _ ← World.newObject className
  | callThunk m c => do let _ ← World.callThunk m c
  | callImplementation symbol c => do let _ ← World.callImplementation symbol c
  | callLookup className metadata m => do let _ ← World.callLookup className metadata m
  | askRuntime className metadata m => do let _ ← World.askRuntime className metadata m

/-- A thunk is called for a receiver that its method has, and with the shape of the method
that introduced the entry; a look-up function is not called where an implementation is
installed in its place. -/
def Request.Permitted (u : Module) (refs : List Method) (w : World) : Request → Prop
  | implement _ _ => True
  | newObject _ => True
  | callThunk m c => m ∈ refs ∧
    (∀ base, u.hierarchy.introducing m = .ok base → m.SameShape base) ∧
    ∃ symbol, Selects u w m c.receiver c.witness symbol
  | callImplementation _ _ => True
  | callLookup className _ m => m ∈ refs ∧
    w.machine.implementations.get? (u.lookupSymbol className) = none
  | askRuntime _ _ m => m ∈ refs

namespace World

variable {u : Module} {refs : List Method} {w w' : World} {symbol : String} {m : Method}
  {className : String} {c : LogicalCall} {metadata : Word}

/-- A step that leaves a world between requests, however it ends. -/
def KeepsReady {α : Type} (u : Module) (refs : List Method) (x : Run α) (w : World) : Prop :=
  Step.Ends x w (fun _ w' => Ready u refs w') fun _ w' => Ready u refs w'

theorem KeepsReady.forget {α : Type} {x : Run α} (h : KeepsReady u refs x w) :
    KeepsReady u refs (do let _ ← x) w := by
  rw [KeepsReady, Step.ends_bind]
  exact h

/-- A step that can only fail by using up memory has an answer if it does not. -/
theorem exists_ok_of_room {α : Type} {x : Run α} {Q : α → World → Prop}
    (h : Step.Ends x w (fun a w' => Exhausted w' ∨ Q a w') fun _ w' => Exhausted w')
    (hroom : ¬ Exhausted (x.final w)) : ∃ a w', x w = .ok a w' ∧ Q a w' := by
  cases hx : x w with
  | error fault w' =>
    rw [Step.final_of_error hx] at hroom
    exact absurd (h.error hx) hroom
  | ok a w' =>
    rw [Step.final_of_ok hx] at hroom
    exact ⟨a, w', rfl, (h.ok hx).resolve_left hroom⟩

theorem Spares.exhausted {floor : Nat} (h : Spares floor w w') (hw : Exhausted w) :
    Exhausted w' := Nat.lt_of_lt_of_le hw h.evolves.next

/-! ### Implementations and objects -/

theorem Grounded.install (h : Grounded u refs w) (hm : u.Implements symbol m) {s : Lowered}
    (hs : u.layout.lower u.pool m = .ok s) (body : NativeBody) :
    Grounded u refs { w with machine := { w.machine with
      implementations := w.machine.implementations.insert symbol ⟨symbol, s, body⟩ } } where
  linked := ⟨h.linked.sound, h.linked.keys, h.linked.owns, h.linked.apart⟩
  laidOut := h.laidOut
  generated := h.generated
  declared := h.declared
  signatures := h.signatures
  implementations symbol' i hi := by
    rw [Table.get?_insert] at hi
    split at hi
    · subst symbol'
      cases hi
      exact ⟨rfl, m, hm, hs⟩
    · exact h.implementations symbol' i hi

theorem Ready.install (h : Ready u refs w) (hm : u.Implements symbol m) {s : Lowered}
    (hs : u.layout.lower u.pool m = .ok s) (body : NativeBody) :
    Ready u refs { w with machine := { w.machine with
      implementations := w.machine.implementations.insert symbol ⟨symbol, s, body⟩ } } where
  tabled := h.tabled.keeps (h.grounded.install hm hs body).linked (fun _ _ hs => hs) rfl rfl
    (.refl _ _)
  generated := h.generated
  declared := h.declared
  signatures := h.signatures
  implementations := (h.grounded.install hm hs body).implementations

/-- An implementation is installed for the method that its symbol is for, in a world in
which nothing that was there has changed. -/
theorem Grounded.ends_implement (h : Grounded u refs w) (hu : u.Coherent refs)
    (body : NativeBody) :
    Step.Ends (implement symbol body) w (fun _ w' => ∃ w₁ m s,
        Spares w.memory.next.toNat w w₁ ∧ u.Implements symbol m ∧
        u.layout.lower u.pool m = .ok s ∧
        w' = { w₁ with machine := { w₁.machine with
          implementations := w₁.machine.implementations.insert symbol ⟨symbol, s, body⟩ } })
      fun _ w' => Spares w.memory.next.toNat w w' := by
  rw [implement, Step.ends_bind, Step.ends_get]
  cases hsymbol : w.machine.signatures.get? symbol with
  | none => exact .refl _ _
  | some m =>
    have hm := h.signatures symbol m hsymbol
    simp only [Step.ends_bind, Step.ends_liftM, onMachine_eq_ok, Step.ends_modify,
      h.generated.layout]
    refine ⟨fun s hs => ?_, fun _ _ => .refl _ _⟩
    -- the pool may have grown, but it knew the types of the method from the start
    rw [(hu.references.known (hu.mem_of_implements hm)).lower_eq h.generated.pool] at hs
    apply (h.ends_addressOf symbol).imp
    · intro _ w₁ h₁
      exact ⟨w₁, m, s, h₁.1, hm, hs, rfl⟩
    · exact fun _ _ h₁ => h₁.1

theorem keepsReady_implement (h : Ready u refs w) (hu : u.Coherent refs) (body : NativeBody) :
    KeepsReady u refs (implement symbol body) w := by
  apply (h.grounded.ends_implement hu body).imp
  · intro _ w' h'
    obtain ⟨w₁, m, s, hspares, hm, hs, rfl⟩ := h'
    exact (h.spares hspares).install hm hs body
  · exact fun _ _ h' => h.spares h'

/-- What is installed is there afterwards. -/
theorem get?_implement {body : NativeBody} {s : Lowered}
    (hok : (implement symbol body).succeeds w = true)
    (hs : (((implement symbol body).final w).machine.implementations.get? symbol).map
      (·.signature) = some s) :
    ((implement symbol body).final w).machine.implementations.get? symbol
      = some ⟨symbol, s, body⟩ := by
  have hends : Step.Ends (implement symbol body) w (fun _ w' =>
      ∃ s, w'.machine.implementations.get? symbol = some ⟨symbol, s, body⟩) fun _ _ => True := by
    rw [implement, Step.ends_bind, Step.ends_get]
    cases w.machine.signatures.get? symbol with
    | none => trivial
    | some m =>
      simp only [Step.ends_bind, Step.ends_liftM, Step.ends_modify, Table.get?_insert, if_true]
      refine ⟨fun s _ => ?_, fun _ _ => trivial⟩
      cases hx : addressOf symbol w with
      | ok a w₁ => exact Step.ends_of_ok hx ⟨s, rfl⟩
      | error fault w₁ => exact Step.ends_of_error hx trivial
  obtain ⟨a, hrun⟩ := Step.exists_ok_of_succeeds hok
  obtain ⟨s', hs'⟩ := hends.ok hrun
  rw [hs'] at hs
  cases hs
  exact hs'

/-- All classes are laid out already. -/
theorem spared_instantiate (h : Grounded u refs w) {floor : Nat} :
    Spared floor (instantiate className) w fun _ w' => w' = w := by
  rw [instantiate]
  refine Spared.bind_ok Step.run_get ?_
  rw [instantiateTo]
  refine Spared.bind_ok Step.run_get ?_
  cases hclass : w.machine.classes.get? className with
  | some base => exact spared_pure rfl
  | none =>
    refine (spared_liftM (Q := fun _ _ => False) fun decl hdecl => ?_).bind
      fun _ _ _ hfalse => hfalse.elim
    rw [onMachine_eq_ok, h.generated.hierarchy] at hdecl
    obtain ⟨hmem, hname⟩ := Hierarchy.mem_of_classNamed hdecl
    obtain ⟨metadata, hmetadata⟩ := h.laidOut decl hmem
    rw [hname, hclass] at hmetadata
    cases hmetadata

/-- An object is made in memory that was not there before. -/
theorem spared_newObject (h : Grounded u refs w) :
    Spared w.memory.next.toNat (newObject className) w Anything := by
  rw [newObject]
  apply (spared_instantiate h).bind
  intro metadata w₁ _ h₁
  subst h₁
  apply (spared_allocWords h.firm).bind
  intro object w₂ _ hobject
  apply (spared_write hobject).bind
  intro _ _ _ _
  exact spared_pure trivial

theorem keepsReady_newObject (h : Ready u refs w) :
    KeepsReady u refs (newObject className) w := h.of_spared (spared_newObject h.grounded)

/-! ### Calls -/

/-- The implementation that a call is for has an address. -/
theorem Selects.link {receiver : Word} {witness : Option (Word × Word)}
    (h : Selects u w m receiver witness symbol) (hw : Tabled u w) (hwf : u.hierarchy.WellFormed) :
    ∃ a, w.link? symbol = some a := by
  cases h with
  | ofClass _ _ hclass _ _ hselected =>
    obtain ⟨_, _, _, a, _, _, _, _, ha, _, _⟩ := hw.entry hwf hclass hselected
    exact ⟨a, ha⟩
  | ofProtocol _ _ hconformance htable _ _ hsymbol =>
    obtain ⟨_, _, hat⟩ := hw.witnesses _ _ _ hconformance
    obtain ⟨a, ha, -⟩ := hat.entries _ _ hsymbol
    exact ⟨a, ha⟩

theorem keepsReady_callThunk (h : Ready u refs w) (hu : u.Coherent refs) (hroom : ¬ Exhausted w)
    (hp : (Request.callThunk m c).Permitted u refs w) : KeepsReady u refs (callThunk m c) w := by
  obtain ⟨hm, hshape, symbol, hselects⟩ := hp
  obtain ⟨function, hfunction⟩ := hselects.link h.tabled hu.hierarchy
  rw [KeepsReady, callThunk_eq, Step.ends_bind]
  refine (ends_prepareThunk h hu hm).imp (fun r w' h' => ?_) fun _ w' h' => h'.1
  obtain ⟨hready, hprepares, hprepared⟩ := h'
  have hlower := hprepared.lower
  have hwitness : r.1.witness = m.isWitness := (Layout.lowers_of_lower hlower).witness
  have hselects' := hprepares.selects h.tabled.linked.sound hselects
  have hbound : ∀ a, w'.link? symbol = some a → a.toNat < 2 ^ 48 := by
    intro a ha
    rw [hprepares.link hfunction] at ha
    cases ha
    exact lt_of_link h.tabled hroom hfunction
  refine hready.of_spared (Q := Anything) (spared_invoke hready.firm
    (Layout.sound_of_lower hu.frames hlower (hu.sized m hm _ hlower)) hprepared.getD_size ?_)
  rw [hwitness]
  exact hprepared.callSpared hready hu hm hshape hselects'.sent hbound

theorem keepsReady_callImplementation (h : Ready u refs w) (hu : u.Coherent refs) :
    KeepsReady u refs (callImplementation symbol c) w := by
  rw [KeepsReady, callImplementation, Step.ends_bind, Step.ends_get]
  cases hi : w.machine.implementations.get? symbol with
  | none => exact h
  | some i =>
    rw [Step.ends_bind]
    refine (h.ends_addressOf symbol).imp (fun callee w' h' => ?_) fun _ w' h' => h'.1
    obtain ⟨hready, hprepares, -, hlink⟩ := h'
    obtain ⟨-, m, hm, hlower⟩ := h.implementations symbol i hi
    refine hready.of_spared (Q := Anything) (spared_invoke hready.firm (h.sound hu hi) rfl ?_)
    by_cases hcallee : callee.toNat < 2 ^ 48
    · exact callSpared_callTo hready hu hm hlower hlink hcallee _
    · exact callSpared_signed (Nat.not_lt.mp hcallee)

/-! ### Look-ups -/

theorem keepsReady_callLookup (h : Ready u refs w) (hu : u.Coherent refs)
    (hp : (Request.callLookup className metadata m).Permitted u refs w) :
    KeepsReady u refs (callLookup className metadata m) w := by
  obtain ⟨hm, hnone⟩ := hp
  rw [KeepsReady, callLookup_eq, Step.ends_bind]
  refine (ends_prepareLookup h hu hm).imp (fun r w' h' => ?_) fun _ w' h' => h'.1
  obtain ⟨hready, hprepares, plan, hlookup⟩ := h'
  exact hready.of_spared (hlookup.spared_runLookup hready (hprepares.implementations ▸ hnone))

theorem keepsReady_askRuntime (h : Ready u refs w) (hu : u.Coherent refs) (hm : m ∈ refs) :
    KeepsReady u refs (askRuntime className metadata m) w := by
  rw [KeepsReady, askRuntime_eq, Step.ends_bind]
  refine (ends_prepareQuestion h hu hm).imp (fun r w' h' => ?_) fun _ w' h' => h'.1
  exact h'.1.of_spared (spared_lookupClassMethod h'.1.firm _ _ _)

/-! ### Requests -/

/-- A permitted request leaves a world between requests, whether or not it is refused. -/
theorem Ready.request (h : Ready u refs w) (hu : u.Coherent refs) (hroom : ¬ Exhausted w)
    (r : Request) (hp : r.Permitted u refs w) : Ready u refs (r.run.final w) := by
  apply Step.Ends.final
  cases r with
  | implement symbol body => exact keepsReady_implement h hu body
  | newObject className => exact (keepsReady_newObject h).forget
  | callThunk m c => exact (keepsReady_callThunk h hu hroom hp).forget
  | callImplementation symbol c => exact (keepsReady_callImplementation h hu).forget
  | callLookup className metadata m => exact (keepsReady_callLookup h hu hp).forget
  | askRuntime className metadata m => exact (keepsReady_askRuntime h hu hp).forget

/-- The worlds that permitted requests lead to, as long as addresses fit pointers. -/
inductive Reached (u : Module) (refs : List Method) : World → Prop where
  | boot {machine : Machine} (hboot : u.boot = .ok machine)
    (hroom : ¬ Exhausted ⟨u, machine⟩) : Reached u refs ⟨u, machine⟩
  | request {w : World} (hw : Reached u refs w) (r : Request) (hp : r.Permitted u refs w)
    (hroom : ¬ Exhausted (r.run.final w)) : Reached u refs (r.run.final w)

instance (w : World) : Decidable (Exhausted w) :=
  inferInstanceAs (Decidable (2 ^ 48 < w.memory.next.toNat))

/-- A table filled from a list of pairs holds pairs of the list. -/
theorem mem_of_get?_foldl {κ υ : Type} [DecidableEq κ] {k : κ} {v : υ} (pairs : List (κ × υ)) :
    ∀ t : Table κ υ, (pairs.foldl (fun t p => t.insert p.1 p.2) t).get? k = some v →
      (k, v) ∈ pairs ∨ t.get? k = some v := by
  induction pairs with
  | nil => exact fun t h => .inr h
  | cons pair pairs ih =>
    intro t h
    rcases ih _ h with hin | hin
    · exact .inl (List.mem_cons_of_mem _ hin)
    · rw [Table.get?_insert] at hin
      split at hin
      · rename_i hkey
        cases hin
        subst hkey
        exact .inl List.mem_cons_self
      · exact .inr hin

theorem ready_of_boot (hu : u.Coherent refs) {machine : Machine} (h : u.boot = .ok machine) :
    Ready u refs ⟨u, machine⟩ := by
  obtain ⟨htabled, hnone, implementations, himpl, hsignatures⟩ := tabled_of_boot hu.hierarchy h
  refine ⟨htabled, hu.generated, ⟨_, himpl⟩, fun symbol m hm => ?_, fun symbol i hi => ?_⟩
  · change machine.signatures.get? symbol = some m at hm
    rw [hsignatures] at hm
    rcases mem_of_get?_foldl implementations _ hm with hin | hin
    · exact ⟨_, himpl, hin⟩
    · cases hin
  · change machine.implementations.get? symbol = some i at hi
    rw [hnone] at hi
    cases hi

/-- Every world that requests lead to is one between requests. -/
theorem Reached.ready (h : Reached u refs w) (hu : u.Coherent refs) :
    Ready u refs w ∧ ¬ Exhausted w := by
  induction h with
  | boot hboot hroom => exact ⟨ready_of_boot hu hboot, hroom⟩
  | request _ r hp hroom ih => exact ⟨ih.1.request hu ih.2 r hp, hroom⟩

theorem Reached.implement (h : Reached u refs w) {body : NativeBody}
    (hroom : ¬ Exhausted ((implement symbol body).final w)) :
    Reached u refs ((World.implement symbol body).final w) :=
  .request h (.implement symbol body) trivial hroom

end World

/-- The world that booting leads to. -/
def Module.start (u : Module) : World where
  module := u
  machine := match u.boot with
    | .ok machine => machine
    | .error _ => {}

theorem World.reached_start {u : Module} {refs : List Method} (h : u.boot.isOk = true)
    (hroom : ¬ Exhausted u.start) : Reached u refs u.start := by
  unfold Module.start at hroom ⊢
  cases hboot : u.boot with
  | ok machine =>
    rw [hboot] at hroom
    exact .boot hboot hroom
  | error fault =>
    rw [hboot] at h
    cases h

end Dispatch
