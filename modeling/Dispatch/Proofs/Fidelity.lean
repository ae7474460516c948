import Dispatch.Machine.Script
import Dispatch.Proofs.Coherence.Check
import Dispatch.Proofs.Reachability

/-!
# Calls through thunks

A caller cannot tell a dispatch thunk from the implementation that it leads to.  In
every world that requests lead to, a call of the thunk and a call of the implementation
run the same body once, on the same values, and report the same result; the error slot,
the place for the result, the frame and the spilled words are left alike.

## Main definitions

* `World.CallFor` — a call, the implementation that it is for, and what the body makes
  of it.
* `World.Oversized` — such a call, but with a place for the result that cannot be made.

## Main results

* `World.CallFor.callThunk`, `World.CallFor.callImplementation` — the two ways to call.
* `World.callThunk_flat` — calls with flat arguments.
* `World.callThunk_async` — calls through a frame.
* `World.callThunk_error` — bodies that raise an error.
-/

namespace Dispatch

open Attempt

/-! ### Arguments that fit their types -/

/-- No component of the argument has bits beyond its width. -/
def ArgValue.Narrow : ArgValue → Passing → Prop
  | .value words, .direct schema =>
    ∀ e ∈ schema.components.zip words, e.2.toNat < 2 ^ e.1.bits
  | _, _ => True

theorem Scalar.clip_eq_self {kinds : List Scalar} {words : List Word}
    (hlen : words.length = kinds.length)
    (h : ∀ e ∈ kinds.zip words, e.2.toNat < 2 ^ e.1.bits) : Scalar.clip kinds words = words := by
  induction kinds generalizing words with
  | nil => exact (List.eq_nil_of_length_eq_zero hlen).symm
  | cons kind kinds ih =>
    cases words with
    | nil => rfl
    | cons word words =>
      have hmask : word &&& kind.mask = word := by
        apply UInt64.toNat_inj.mp
        rw [Scalar.toNat_and_mask, Nat.mod_eq_of_lt (h (kind, word) List.mem_cons_self)]
      have hrest := ih (Nat.succ.inj hlen) fun e he => h e (List.mem_cons_of_mem _ he)
      rw [Scalar.clip] at hrest
      rw [Scalar.clip, List.zipWith_cons_cons, hmask, hrest]

theorem clipAll_eq_self {carriers : List Carrier} {args : List ArgValue}
    (hshaped : Shaped carriers args)
    (h : ∀ e ∈ carriers.zip args, e.2.Narrow e.1.passing) : clipAll carriers args = args := by
  induction carriers generalizing args with
  | nil =>
    cases args with
    | nil => rfl
    | cons arg args => exact hshaped.elim
  | cons carrier carriers ih =>
    cases args with
    | nil => exact hshaped.elim
    | cons arg args =>
      have hnarrow := h (carrier, arg) List.mem_cons_self
      have hfits := hshaped.1
      have hfirst : arg.clip carrier.passing = arg := by
        cases arg with
        | address a => rfl
        | value words =>
          cases hp : carrier.passing with
          | direct schema =>
            rw [hp] at hnarrow hfits
            exact congrArg ArgValue.value (Scalar.clip_eq_self hfits hnarrow)
          | indirect schema => rfl
          | address => rfl
      have hrest := ih hshaped.2 fun e he => h e (List.mem_cons_of_mem _ he)
      rw [clipAll] at hrest
      rw [clipAll, List.zipWith_cons_cons, hfirst, hrest]

/-- Arguments that fit their types arrive as they were sent. -/
theorem LogicalCall.args_invocation {s : Lowered} {c : LogicalCall} (hc : c.WellShaped s)
    (h : ∀ e ∈ s.carriers.zip c.args, e.2.Narrow e.1.passing) :
    (c.invocation s).args = c.args := by
  change (if s.convention.isAsync then c.args else clipAll s.carriers c.args) = c.args
  rw [clipAll_eq_self hc.args h, ite_self]

namespace World

variable {u : Module} {refs : List Method} {w w' : World} {m : Method} {s : Lowered}
  {c : LogicalCall} {symbol : String} {i : Implementation} {o : Outcome}

/-! ### The two ways to call -/

/-- A call of `m`, whose native signature is `s`.  It is for the implementation `i`,
which is installed behind `symbol`, and whatever memory holds, the body makes `o` of
it. -/
structure CallFor (u : Module) (refs : List Method) (w : World) (m : Method) (s : Lowered)
    (c : LogicalCall) (symbol : String) (i : Implementation) (o : Outcome) : Prop where
  mem : m ∈ refs
  closed : m.Closed u.pool
  /-- An override has the shape of the method whose entry it replaces. -/
  shape : ∀ base, u.hierarchy.introducing m = .ok base → m.SameShape base
  lower : u.layout.lower u.pool m = .ok s
  selects : Selects u w m c.receiver c.witness symbol
  installed : w.machine.implementations.get? symbol = some i
  shaped : c.WellShaped s
  body : ∀ memory, i.body (c.invocation s) memory = o
  suits : o.Suits s (resultWords s c)

theorem Reported.of_prepares {w₁ : World} {hops : Nat} {r : Report} (h : Prepares w w₁)
    (hr : Reported w₁ w' symbol s c o hops r) : Reported w w' symbol s c o hops r := by
  obtain ⟨v, hv⟩ := h
  have hmachine : w₁.machine.log = w.machine.log ∧
      w₁.machine.suspensions = w.machine.suspensions := by
    rw [hv.rest]
    exact ⟨rfl, rfl⟩
  have hev : w.memory.Evolves (fun _ => False) w₁.memory := hv.evolves
  exact { hr with
    log := by rw [← hmachine.1]; exact hr.log
    suspensions := by rw [← hmachine.2]; exact hr.suspensions
    kept := hev.trans hr.kept }

namespace CallFor

theorem signature_eq (h : CallFor u refs w m s c symbol i o) (hu : u.Coherent refs)
    (hready : Ready u refs w) : i.signature = s := by
  obtain ⟨-, m', hm', hlower⟩ := hready.implementations symbol i h.installed
  obtain ⟨implementations, himpl⟩ := hready.declared
  rw [h.selects.signature hu himpl h.shape hm', h.lower] at hlower
  exact (Except.ok.inj hlower).symm

theorem sound (h : CallFor u refs w m s c symbol i o) (hu : u.Coherent refs) : s.Sound :=
  Layout.sound_of_lower hu.frames h.lower (hu.sized m h.mem s h.lower)

theorem selects_sent (h : CallFor u refs w m s c symbol i o) :
    Selects u w m (c.invocation s).receiver (c.invocation s).witness symbol := by
  change Selects u w m c.receiver (if s.witness then c.witness else none) symbol
  rw [(Layout.lowers_of_lower h.lower).witness]
  exact h.selects.sent

/-- The call of the thunk is served, and the frame has the size that is published. -/
theorem callThunk (h : CallFor u refs w m s c symbol i o) (hu : u.Coherent refs)
    (hw : Reached u refs w) (hroom : ¬ Exhausted ((callThunk m c).final w)) :
    ∃ r w', World.callThunk m c w = .ok r w' ∧
      Reported w w' symbol s c o (thunkHops s 0) r ∧
      (s.convention.isAsync = true → ∀ thunk, m.thunkSymbol u.pool = .ok thunk →
        w'.module.globals.get? (asyncPointerSymbol thunk)
          = some (.asyncPointer thunk s.frameLayout.size)) := by
  obtain ⟨hready, hroom₀⟩ := hw.ready hu
  have hsound := h.sound hu
  refine exists_ok_of_room ?_ hroom
  rw [callThunk_eq, Step.ends_bind]
  refine (ends_prepareThunk hready hu h.mem).imp (fun r w₁ h₁ => ?_) fun _ w₁ h₁ => ?_
  case refine_2 =>
    -- nothing but lack of memory keeps the thunk from being generated
    refine h₁.2.resolve_right fun hno => hno s h.lower ⟨h.closed, ?_, hu.sized m h.mem s h.lower⟩
    exact h.selects.place hu hready.tabled
  obtain ⟨hready₁, hprepares, hprepared⟩ := h₁
  obtain ⟨own, frameSize, callee⟩ := r
  have hown : own = s := Except.ok.inj (hprepared.lower.symm.trans h.lower)
  subst hown
  have hselects := hprepares.selects hready.tabled.linked.sound h.selects_sent
  by_cases hroom₁ : Exhausted w₁
  · -- the call can only use up more
    obtain ⟨function, hfunction⟩ := h.selects.link hready.tabled hu.hierarchy
    have hspared : CallSpared w₁.memory.next.toNat (call callee) own w₁ c.receiver
        (if own.witness then c.witness else none) :=
      hprepared.callSpared hready₁ hu h.mem h.shape hselects fun a ha => by
        rw [hprepares.link hfunction] at ha
        cases ha
        exact lt_of_link hready.tabled hroom₀ hfunction
    exact Step.Ends.imp (spared_invoke hready₁.firm hsound hprepared.getD_size hspared)
      (fun _ w₂ h₂ => .inl (h₂.1.exhausted hroom₁)) fun _ w₂ h₂ => h₂.exhausted hroom₁
  · have hinstalled : w₁.machine.implementations.get? symbol = some i := by
      rw [hprepares.implementations]
      exact h.installed
    have hserves := hprepared.serves hready₁ hu h.mem hroom₁ hselects hinstalled
      (h.signature_eq hu hready) h.body h.suits
    refine (ends_invoke hsound h.shaped h.suits hprepared.getD_size hready₁.tabled.linked.sound
      hserves).imp (fun r w₂ h₂ => .inr ⟨h₂.2.of_prepares hprepares, ?_⟩) fun _ _ h₂ => h₂
    rw [h₂.1]
    exact hprepared.published

/-- The call of the implementation is served. -/
theorem callImplementation (h : CallFor u refs w m s c symbol i o) (hu : u.Coherent refs)
    (hw : Reached u refs w) (hroom : ¬ Exhausted ((callImplementation symbol c).final w)) :
    ∃ r w', World.callImplementation symbol c w = .ok r w' ∧
      Reported w w' symbol s c o 0 r := by
  obtain ⟨hready, hroom₀⟩ := hw.ready hu
  have hsignature := h.signature_eq hu hready
  obtain ⟨function, hfunction⟩ := h.selects.link hready.tabled hu.hierarchy
  refine exists_ok_of_room ?_ hroom
  simp only [World.callImplementation, Step.ends_bind, Step.ends_get, h.installed]
  refine Step.ends_of_ok (addressOf_ok hfunction) ?_
  have hserves := serves_callTo hready hu h.installed hfunction
    (lt_of_link hready.tabled hroom₀ hfunction) h.body (hsignature ▸ h.suits) innerDepth
  rw [hsignature] at hserves ⊢
  refine (ends_invoke (h.sound hu) h.shaped h.suits rfl hready.tabled.linked.sound hserves).imp
    (fun r w₂ h₂ => .inr h₂.2) fun _ _ h₂ => h₂

end CallFor

end World

/-! ### A square -/

namespace Shapes

open World

/-- A machine with a square. -/
def drawn : World := (Request.newObject "Square").run.final unit.start

/-- A call for the square. -/
def order : LogicalCall where
  receiver := 4360
  args := [.value [5], .value [1, 2, 3, 4, 5]]

/-- The order can be given for a method of shapes. -/
structure Orderly (m : Method) : Prop where
  mem : m ∈ methods
  owner : m.owner = .ofClass "Shape"
  closed : m.isClosed pool = true
  base : unit.hierarchy.introducing m = .ok m
  lower : unit.layout.lower unit.pool m = .ok (signature m)
  kind : Target.receiverIsMetadata unit.pool m = .ok false
  shaped : order.WellShaped (signature m)
  words : resultWords (signature m) order = 0
  invocation : order.invocation (signature m) = ⟨4360, order.args, [], none⟩
  suits : Outcome.Suits (signature m) 0 (.ok [20])
  result : (signature m).resultOf 0 (.ok [20]) = .ok [20]

instance (m : Method) : Decidable (Orderly m) :=
  decidable_of_iff (m ∈ methods ∧ m.owner = .ofClass "Shape" ∧ m.isClosed pool = true ∧
      unit.hierarchy.introducing m = .ok m ∧
      unit.layout.lower unit.pool m = .ok (signature m) ∧
      Target.receiverIsMetadata unit.pool m = .ok false ∧ order.WellShaped (signature m) ∧
      resultWords (signature m) order = 0 ∧
      order.invocation (signature m) = ⟨4360, order.args, [], none⟩ ∧
      Outcome.Suits (signature m) 0 (.ok [20]) ∧ (signature m).resultOf 0 (.ok [20]) = .ok [20])
    ⟨fun ⟨h₁, h₂, h₃, h₄, h₅, h₆, h₇, h₈, h₉, h₁₀, h₁₁⟩ =>
        ⟨h₁, h₂, h₃, h₄, h₅, h₆, h₇, h₈, h₉, h₁₀, h₁₁⟩,
      fun ⟨h₁, h₂, h₃, h₄, h₅, h₆, h₇, h₈, h₉, h₁₀, h₁₁⟩ =>
        ⟨h₁, h₂, h₃, h₄, h₅, h₆, h₇, h₈, h₉, h₁₀, h₁₁⟩⟩

/-- In the machine, 4360 is a square, the body is what squares have for the method, and the
order leaves memory to spare. -/
structure Staged (m : Method) (symbol : String) (w : World) : Prop where
  square : w.machine.classes.get? "Square" = some 4240
  object : w.memory.read 4360 = .ok 4240
  selected : unit.hierarchy.selected "Square" m = .ok symbol
  signature_eq : (w.machine.implementations.get? symbol).map (·.signature) = some (signature m)
  room : ¬ Exhausted w
  thunkRoom : ¬ Exhausted ((callThunk m order).final w)
  directRoom : ¬ Exhausted ((callImplementation symbol order).final w)

instance (m : Method) (symbol : String) (w : World) : Decidable (Staged m symbol w) :=
  decidable_of_iff (w.machine.classes.get? "Square" = some 4240 ∧
      w.memory.read 4360 = .ok 4240 ∧ unit.hierarchy.selected "Square" m = .ok symbol ∧
      (w.machine.implementations.get? symbol).map (·.signature) = some (signature m) ∧
      ¬ Exhausted w ∧ ¬ Exhausted ((callThunk m order).final w) ∧
      ¬ Exhausted ((callImplementation symbol order).final w))
    ⟨fun ⟨h₁, h₂, h₃, h₄, h₅, h₆, h₇⟩ => ⟨h₁, h₂, h₃, h₄, h₅, h₆, h₇⟩,
      fun ⟨h₁, h₂, h₃, h₄, h₅, h₆, h₇⟩ => ⟨h₁, h₂, h₃, h₄, h₅, h₆, h₇⟩⟩

/-- The machine starts with a square, and three bodies can be installed in it. -/
theorem scenes :
    (unit.boot.isOk = true ∧ ¬ Exhausted unit.start ∧ ¬ Exhausted drawn ∧
      unit.hierarchy.steps? "Shape" "Square" = some 1) ∧ (Orderly area ∧ Orderly outline) ∧
      ((implement "squareArea" Script.sum.run).succeeds drawn = true ∧
        Staged area "squareArea" ((implement "squareArea" Script.sum.run).final drawn)) ∧
      ((implement "outline" Script.sum.run).succeeds drawn = true ∧
        Staged outline "outline" ((implement "outline" Script.sum.run).final drawn)) ∧
      (implement "outline" (Script.raise 7).run).succeeds drawn = true ∧
        Staged outline "outline" ((implement "outline" (Script.raise 7).run).final drawn) := by
  decide +kernel

theorem reached_drawn : Reached unit methods drawn := by
  obtain ⟨⟨hboot, hstart, hdrawn, -⟩, -⟩ := scenes
  exact .request (reached_start hboot hstart) (.newObject "Square") trivial hdrawn

theorem Staged.reached {m : Method} {symbol : String} {body : NativeBody}
    (h : Staged m symbol ((implement symbol body).final drawn)) :
    Reached unit methods ((implement symbol body).final drawn) :=
  reached_drawn.implement h.room

/-- The order is a call for the body that has been installed. -/
theorem Staged.callFor {m : Method} {symbol : String} {body : NativeBody} {o : Outcome}
    (h : Staged m symbol ((implement symbol body).final drawn))
    (hok : (implement symbol body).succeeds drawn = true) (hm : Orderly m)
    (hbody : ∀ memory, body ⟨4360, order.args, [], none⟩ memory = o)
    (ho : o.Suits (signature m) 0) :
    CallFor unit methods ((implement symbol body).final drawn) m (signature m) order symbol
      ⟨symbol, signature m, body⟩ o where
  mem := hm.mem
  closed := Method.closed_of_isClosed hm.closed
  shape := by
    intro base hbase
    rw [hm.base] at hbase
    cases hbase
    exact .refl m
  lower := hm.lower
  selects := .ofClass hm.owner (Hierarchy.descends_of_steps? scenes.1.2.2.2) h.square hm.kind
    h.object h.selected
  installed := get?_implement hok h.signature_eq
  shaped := hm.shaped
  body := hm.invocation ▸ hbody
  suits := hm.words ▸ ho

/-- The values of the order add up to 20. -/
theorem sum_order (memory : Memory) :
    Script.sum.run ⟨4360, order.args, [], none⟩ memory = .ok [20] := rfl

/-- A machine in which outlines fail. -/
def raising : World := (implement "outline" (Script.raise 7).run).final drawn

theorem callFor_raising : CallFor unit methods raising outline (signature outline) order "outline"
    ⟨"outline", signature outline, (Script.raise 7).run⟩ (.error 7) :=
  scenes.2.2.2.2.2.callFor scenes.2.2.2.2.1 scenes.2.1.2 (fun _ => rfl) rfl

end Shapes

/-! ### Too much place for a result -/

namespace World

/-- A call of `m` as in `CallFor`, but with a place for its result that has more bytes than can
be counted. -/
structure Oversized (u : Module) (refs : List Method) (w : World) (m : Method) (s : Lowered)
    (c : LogicalCall) (symbol : String) (i : Implementation) (o : Outcome) : Prop where
  mem : m ∈ refs
  closed : m.Closed u.pool
  shape : ∀ base, u.hierarchy.introducing m = .ok base → m.SameShape base
  lower : u.layout.lower u.pool m = .ok s
  selects : Selects u w m c.receiver c.witness symbol
  installed : w.machine.implementations.get? symbol = some i
  args : Shaped s.carriers c.args
  bindings : c.bindings.length = s.bindingCount
  witness : s.witness = true → c.witness.isSome = true
  body : ∀ memory, i.body (c.invocation s) memory = o
  suits : o.Suits s (resultWords s c)
  place : Size.limit ≤ 8 * resultWords s c

end World

namespace Chests

open World

/-- A machine with a chest. -/
def shut : World := (Request.newObject "Chest").run.final unit.start

/-- A call for the chest, with a place for the result of 2^29 words. -/
def order : LogicalCall where
  receiver := 4240
  args := [.address 4096]
  bindings := [4096]
  resultWords := 2 ^ 29

/-- A body that fills the place. -/
def fill : NativeBody := fun _ _ => .ok (List.replicate (2 ^ 29) 0)

theorem reached_shut : Reached unit methods shut := by
  have hstart : unit.boot.isOk = true ∧ ¬ Exhausted unit.start ∧ ¬ Exhausted shut := by
    decide +kernel
  exact .request (reached_start hstart.1 hstart.2.1) (.newObject "Chest") trivial hstart.2.2

/-- The order can be given for both methods of chests. -/
theorem oversized {m : Method} {symbol : String} {body : NativeBody} {o : Outcome}
    (hm : m = contents ∧ symbol = "contents" ∨ m = delivery ∧ symbol = "delivery")
    (hi : ((implement symbol body).final shut).machine.implementations.get? symbol
      = some ⟨symbol, signature m, body⟩)
    (hmachine : ((implement symbol body).final shut).machine.classes.get? "Chest" = some 4096 ∧
      ((implement symbol body).final shut).memory.read 4240 = .ok 4096)
    (hbody : ∀ memory, body (order.invocation (signature m)) memory = o)
    (hsuits : o.Suits (signature m) (2 ^ 29)) :
    Oversized unit methods ((implement symbol body).final shut) m (signature m) order symbol
      ⟨symbol, signature m, body⟩ o := by
  have hfacts : ∀ e ∈ [(contents, "contents"), (delivery, "delivery")], e.1 ∈ methods ∧
      e.1.isClosed unit.pool = true ∧ unit.hierarchy.introducing e.1 = .ok e.1 ∧
      unit.layout.lower unit.pool e.1 = .ok (signature e.1) ∧
      e.1.owner = .ofClass "Chest" ∧ Target.receiverIsMetadata unit.pool e.1 = .ok false ∧
      unit.hierarchy.selected "Chest" e.1 = .ok e.2 ∧
      (signature e.1).carriers = [⟨9, .address⟩] ∧ (signature e.1).bindingCount = 1 ∧
      (signature e.1).witness = false ∧ resultWords (signature e.1) order = 2 ^ 29 ∧
      unit.hierarchy.steps? "Chest" "Chest" = some 0 := by decide +kernel
  have hmem : (m, symbol) ∈ [(contents, "contents"), (delivery, "delivery")] := by
    rcases hm with ⟨rfl, rfl⟩ | ⟨rfl, rfl⟩ <;> simp
  obtain ⟨hmem, hclosed, hbase, hlower, howner, hkind, hselected, hcarriers, hcount, hwitness,
    hwords, hsteps⟩ := hfacts _ hmem
  simp only at hmem hclosed hbase hlower howner hkind hselected hcarriers hcount hwitness hwords
  exact {
    mem := hmem
    closed := Method.closed_of_isClosed hclosed
    shape := fun base h => by
      rw [hbase] at h
      cases h
      exact .refl m
    lower := hlower
    selects := .ofClass howner (Hierarchy.descends_of_steps? hsteps) hmachine.1 hkind hmachine.2
      hselected
    installed := hi
    args := by
      rw [hcarriers]
      exact ⟨trivial, trivial⟩
    bindings := hcount.symm
    witness := fun h => absurd (hwitness.symm.trans h) Bool.false_ne_true
    body := hbody
    suits := hwords ▸ hsuits
    place := by
      rw [hwords]
      decide }

/-- A machine in which a body has been installed and a call of the method ends in a trap, before
the body runs. -/
structure Trapped (m : Method) (symbol : String) (w : World) : Prop where
  class_eq : w.machine.classes.get? "Chest" = some 4096
  object : w.memory.read 4240 = .ok 4096
  signature_eq : (w.machine.implementations.get? symbol).map (·.signature) = some (signature m)
  room : ¬ Exhausted w
  callRoom : ¬ Exhausted ((callThunk m order).final w)
  fails : (callThunk m order).fault? w = some (.trap (.overflow .mul))
  log : ((callThunk m order).final w).machine.log = w.machine.log

instance (m : Method) (symbol : String) (w : World) : Decidable (Trapped m symbol w) :=
  decidable_of_iff (w.machine.classes.get? "Chest" = some 4096 ∧ w.memory.read 4240 = .ok 4096 ∧
      (w.machine.implementations.get? symbol).map (·.signature) = some (signature m) ∧
      ¬ Exhausted w ∧ ¬ Exhausted ((callThunk m order).final w) ∧
      (callThunk m order).fault? w = some (.trap (.overflow .mul)) ∧
      ((callThunk m order).final w).machine.log = w.machine.log)
    ⟨fun ⟨h₁, h₂, h₃, h₄, h₅, h₆, h₇⟩ => ⟨h₁, h₂, h₃, h₄, h₅, h₆, h₇⟩,
      fun ⟨h₁, h₂, h₃, h₄, h₅, h₆, h₇⟩ => ⟨h₁, h₂, h₃, h₄, h₅, h₆, h₇⟩⟩

/-- The order is a call for the body that has been installed, and it is not served. -/
theorem Trapped.exists_refused {m : Method} {symbol : String} {body : NativeBody} {o : Outcome}
    (h : Trapped m symbol ((implement symbol body).final shut))
    (hok : (implement symbol body).succeeds shut = true)
    (hm : m = contents ∧ symbol = "contents" ∨ m = delivery ∧ symbol = "delivery")
    (hbody : ∀ memory, body (order.invocation (signature m)) memory = o)
    (hsuits : o.Suits (signature m) (2 ^ 29)) :
    ∃ w i, Reached unit methods w ∧
      Oversized unit methods w m (signature m) order symbol i o ∧
      ¬ Exhausted ((callThunk m order).final w) ∧
      (callThunk m order).fault? w = some (.trap (.overflow .mul)) ∧
      ((callThunk m order).final w).machine.log = w.machine.log :=
  ⟨_, _, reached_shut.implement h.room,
    oversized hm (get?_implement hok h.signature_eq) ⟨h.class_eq, h.object⟩ hbody hsuits,
    h.callRoom, h.fails, h.log⟩

end Chests

namespace World

variable {u : Module} {refs : List Method} {w : World} {m : Method} {s : Lowered}
  {c : LogicalCall} {symbol : String} {i : Implementation} {o : Outcome}

/-! ### Flat arguments -/

/-- With flat arguments, the thunk and the implementation run the body once, on the same
values, and report the same. -/
theorem callThunk_flat (hu : u.Coherent refs) (hw : Reached u refs w)
    (h : CallFor u refs w m s c symbol i o) (hconv : m.convention.isAsync = false)
    (hthunk : ¬ Exhausted ((callThunk m c).final w))
    (hdirect : ¬ Exhausted ((callImplementation symbol c).final w)) :
    ∃ r w₁ r' w₂, callThunk m c w = .ok r w₁ ∧ callImplementation symbol c w = .ok r' w₂ ∧
      Reported w w₁ symbol s c o 0 r ∧ Reported w w₂ symbol s c o 0 r' ∧
      r.result = r'.result ∧
      ((∀ e ∈ s.carriers.zip c.args, e.2.Narrow e.1.passing) →
        (c.invocation s).args = c.args) := by
  obtain ⟨r, w₁, hr, hreported, -⟩ := h.callThunk hu hw hthunk
  obtain ⟨r', w₂, hr', hreported'⟩ := h.callImplementation hu hw hdirect
  have hhops : thunkHops s 0 = 0 := by
    rw [thunkHops, (Layout.lowers_of_lower h.lower).convention, hconv]
    rfl
  rw [hhops] at hreported
  exact ⟨r, w₁, r', w₂, hr, hr', hreported, hreported',
    hreported.result.trans hreported'.result.symm, LogicalCall.args_invocation h.shaped⟩

/-- The area of a square, through the thunk of shapes. -/
theorem callThunk_flat_area :
    ∃ r w₁ r' w₂,
      callThunk Shapes.area Shapes.order ((implement "squareArea" Script.sum.run).final Shapes.drawn)
        = .ok r w₁ ∧
      callImplementation "squareArea" Shapes.order
        ((implement "squareArea" Script.sum.run).final Shapes.drawn) = .ok r' w₂ ∧
      r.result = .ok [20] ∧ r'.result = .ok [20] := by
  obtain ⟨-, ⟨harea, -⟩, ⟨hok, hstaged⟩, -⟩ := Shapes.scenes
  have hcall := hstaged.callFor hok harea Shapes.sum_order harea.suits
  obtain ⟨r, w₁, r', w₂, hr, hr', hreported, -, heq, -⟩ := callThunk_flat Shapes.coherent_unit
    hstaged.reached hcall rfl hstaged.thunkRoom hstaged.directRoom
  have hresult := harea.result
  rw [← harea.words, ← hreported.result] at hresult
  exact ⟨r, w₁, r', w₂, hr, hr', hresult, heq ▸ hresult⟩

/-- The contents of a chest would fill 2^29 words.  There is no way to make place for them, and
the call of the thunk ends before the body runs. -/
theorem callThunk_flat_oversized :
    Chests.unit.Coherent Chests.methods ∧ Chests.contents.convention.isAsync = false ∧
      ∃ w i, Reached Chests.unit Chests.methods w ∧
        Oversized Chests.unit Chests.methods w Chests.contents (Chests.signature Chests.contents)
          Chests.order "contents" i (.ok (List.replicate (2 ^ 29) 0)) ∧
        ¬ Exhausted ((callThunk Chests.contents Chests.order).final w) ∧
        (callThunk Chests.contents Chests.order).fault? w = some (.trap (.overflow .mul)) ∧
        ((callThunk Chests.contents Chests.order).final w).machine.log = w.machine.log := by
  obtain ⟨hok, htrapped, hplace⟩ :
      (implement "contents" Chests.fill).succeeds Chests.shut = true ∧
      Chests.Trapped Chests.contents "contents"
        ((implement "contents" Chests.fill).final Chests.shut) ∧
      (Chests.signature Chests.contents).hasIndirectReturn = true := by decide +kernel
  refine ⟨Chests.coherent_unit, rfl,
    htrapped.exists_refused hok (.inl ⟨rfl, rfl⟩) (fun _ => rfl) ?_⟩
  rw [Outcome.Suits, if_pos hplace, List.length_replicate]

/-! ### Frames -/

/-- Through a frame, the thunk and the implementation run the body once, on the same
values, and report its answer; the frame has the size that the thunk's function pointer
publishes, and going through the thunk suspends the caller once. -/
theorem callThunk_async {words : List Word} (hu : u.Coherent refs) (hw : Reached u refs w)
    (h : CallFor u refs w m s c symbol i (.ok words)) (hconv : m.convention.isAsync = true)
    (hthunk : ¬ Exhausted ((callThunk m c).final w))
    (hdirect : ¬ Exhausted ((callImplementation symbol c).final w)) :
    ∃ r w₁ r' w₂, callThunk m c w = .ok r w₁ ∧ callImplementation symbol c w = .ok r' w₂ ∧
      r.result = .ok words ∧ r'.result = .ok words ∧ (c.invocation s).args = c.args ∧
      Reported w w₁ symbol s c (.ok words) 1 r ∧ Reported w w₂ symbol s c (.ok words) 0 r' ∧
      ∃ thunk frame size, m.thunkSymbol u.pool = .ok thunk ∧ r.frame = some frame ∧
        w₁.memory.regionSize? frame = some size ∧
        w₁.module.globals.get? (asyncPointerSymbol thunk) = some (.asyncPointer thunk size) := by
  obtain ⟨r, w₁, hr, hreported, hpublished⟩ := h.callThunk hu hw hthunk
  obtain ⟨r', w₂, hr', hreported'⟩ := h.callImplementation hu hw hdirect
  have hasync : s.convention.isAsync = true := by
    rw [(Layout.lowers_of_lower h.lower).convention, hconv]
  have hhops : thunkHops s 0 = 1 := by rw [thunkHops, if_pos hasync]
  have hresult : s.resultOf (resultWords s c) (.ok words) = .ok words := by
    rw [Lowered.resultOf, hasync, Bool.or_true, if_pos rfl]
  have hargs : (c.invocation s).args = c.args := if_pos hasync
  rw [hhops] at hreported
  refine ⟨r, w₁, r', w₂, hr, hr', hreported.result.trans hresult,
    hreported'.result.trans hresult, hargs, hreported, hreported', ?_⟩
  obtain ⟨thunk, hsymbol⟩ := hu.references.symbols m h.mem
  obtain ⟨frame, hframe⟩ := Option.isSome_iff_exists.mp (hreported.hasFrame.trans hasync)
  exact ⟨thunk, frame, _, hsymbol, hframe, hreported.frame frame hframe,
    hpublished hasync thunk hsymbol⟩

/-- The outline of a square, through the thunk of shapes. -/
theorem callThunk_async_outline :
    ∃ r w₁ r' w₂,
      callThunk Shapes.outline Shapes.order
        ((implement "outline" Script.sum.run).final Shapes.drawn) = .ok r w₁ ∧
      callImplementation "outline" Shapes.order
        ((implement "outline" Script.sum.run).final Shapes.drawn) = .ok r' w₂ ∧
      r.result = .ok [20] ∧ r'.result = .ok [20] := by
  obtain ⟨-, ⟨-, houtline⟩, -, ⟨hok, hstaged⟩, -⟩ := Shapes.scenes
  have hcall := hstaged.callFor hok houtline Shapes.sum_order houtline.suits
  obtain ⟨r, w₁, r', w₂, hr, hr', hresult, hresult', -⟩ := callThunk_async Shapes.coherent_unit
    hstaged.reached hcall rfl hstaged.thunkRoom hstaged.directRoom
  exact ⟨r, w₁, r', w₂, hr, hr', hresult, hresult'⟩

/-- A delivery of 2^29 words has no place to go to either. -/
theorem callThunk_async_oversized :
    Chests.unit.Coherent Chests.methods ∧ Chests.delivery.convention.isAsync = true ∧
      ∃ w i, Reached Chests.unit Chests.methods w ∧
        Oversized Chests.unit Chests.methods w Chests.delivery (Chests.signature Chests.delivery)
          Chests.order "delivery" i (.ok (List.replicate (2 ^ 29) 0)) ∧
        ¬ Exhausted ((callThunk Chests.delivery Chests.order).final w) ∧
        (callThunk Chests.delivery Chests.order).fault? w = some (.trap (.overflow .mul)) ∧
        ((callThunk Chests.delivery Chests.order).final w).machine.log = w.machine.log := by
  obtain ⟨hok, htrapped, hplace⟩ :
      (implement "delivery" Chests.fill).succeeds Chests.shut = true ∧
      Chests.Trapped Chests.delivery "delivery"
        ((implement "delivery" Chests.fill).final Chests.shut) ∧
      (Chests.signature Chests.delivery).hasIndirectReturn = true := by decide +kernel
  refine ⟨Chests.coherent_unit, rfl,
    htrapped.exists_refused hok (.inr ⟨rfl, rfl⟩) (fun _ => rfl) ?_⟩
  rw [Outcome.Suits, if_pos hplace, List.length_replicate]

/-! ### Errors -/

/-- An error that the body raises reaches the caller's slot through the thunk, and
nothing else does: the place for the result still holds zeros and spilled words are
taken.  A body that answers leaves the slot at zero. -/
theorem callThunk_error (hu : u.Coherent refs) (hw : Reached u refs w)
    (h : CallFor u refs w m s c symbol i o) (hthrows : m.signature.throws = true)
    (hthunk : ¬ Exhausted ((callThunk m c).final w))
    (hdirect : ¬ Exhausted ((callImplementation symbol c).final w)) :
    ∃ r w₁ r' w₂ slot, callThunk m c w = .ok r w₁ ∧ callImplementation symbol c w = .ok r' w₂ ∧
      r.errorSlot = some slot ∧ r.result = r'.result ∧
      r.indirectReturn.isSome = s.hasIndirectReturn ∧
      r.spilled.length = s.spillCount ∧ r.spillsDrained w₁.memory = true ∧
      (∀ e, o = .error e → e ≠ 0 → r.result = .error e ∧ w₁.memory.read slot = .ok e ∧
        ∀ place ∈ r.indirectReturn, w₁.memory.readWords place (resultWords s c)
          = .ok (List.replicate (resultWords s c) 0)) ∧
      (∀ words, o = .ok words → w₁.memory.read slot = .ok 0) := by
  obtain ⟨r, w₁, hr, hreported, -⟩ := h.callThunk hu hw hthunk
  obtain ⟨r', w₂, hr', hreported'⟩ := h.callImplementation hu hw hdirect
  have hslot : r.errorSlot.isSome = true := by
    rw [hreported.hasSlot, (Layout.lowers_of_lower h.lower).throws, hthrows]
  obtain ⟨slot, hslot⟩ := Option.isSome_iff_exists.mp hslot
  have hread := hreported.slot slot hslot
  refine ⟨r, w₁, r', w₂, slot, hr, hr', hslot, hreported.result.trans hreported'.result.symm,
    hreported.hasPlace, hreported.spilled, hreported.drained, fun e he hne => ?_,
    fun words hwords => ?_⟩
  · subst he
    refine ⟨?_, hread, hreported.place⟩
    rw [hreported.result, Lowered.resultOf, if_neg hne]
  · subst hwords
    exact hread

/-- A square without an outline. -/
theorem callThunk_error_outline :
    ∃ r w₁ r' w₂ slot,
      callThunk Shapes.outline Shapes.order Shapes.raising = .ok r w₁ ∧
      callImplementation "outline" Shapes.order Shapes.raising = .ok r' w₂ ∧
      r.errorSlot = some slot ∧ r.result = .error 7 ∧ r'.result = .error 7 ∧
      w₁.memory.read slot = .ok 7 := by
  obtain ⟨-, -, -, -, -, hstaged⟩ := Shapes.scenes
  obtain ⟨r, w₁, r', w₂, slot, hr, hr', hslot, heq, -, -, -, herror, -⟩ :=
    callThunk_error Shapes.coherent_unit hstaged.reached Shapes.callFor_raising rfl
      hstaged.thunkRoom hstaged.directRoom
  obtain ⟨hresult, hread, -⟩ := herror 7 rfl (by decide)
  exact ⟨r, w₁, r', w₂, slot, hr, hr', hslot, hresult, heq ▸ hresult, hread⟩

/-- The error that a chest would raise is not reported when there is too much place to make. -/
theorem callThunk_error_oversized :
    Chests.unit.Coherent Chests.methods ∧ Chests.contents.signature.throws = true ∧
      ∃ w i, Reached Chests.unit Chests.methods w ∧
        Oversized Chests.unit Chests.methods w Chests.contents (Chests.signature Chests.contents)
          Chests.order "contents" i (.error 7) ∧
        ¬ Exhausted ((callThunk Chests.contents Chests.order).final w) ∧
        (callThunk Chests.contents Chests.order).fault? w = some (.trap (.overflow .mul)) ∧
        ((callThunk Chests.contents Chests.order).final w).machine.log = w.machine.log := by
  obtain ⟨hok, htrapped, hthrows⟩ :
      (implement "contents" (Script.raise 7).run).succeeds Chests.shut = true ∧
      Chests.Trapped Chests.contents "contents"
        ((implement "contents" (Script.raise 7).run).final Chests.shut) ∧
      (Chests.signature Chests.contents).throws = true := by decide +kernel
  exact ⟨Chests.coherent_unit, rfl,
    htrapped.exists_refused hok (.inl ⟨rfl, rfl⟩) (fun _ => rfl) hthrows⟩

end World

end Dispatch
